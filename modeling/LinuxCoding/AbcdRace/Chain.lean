import LinuxCoding.AbcdRace.Letters

-- thread/posix/abcd_race.c: each thread waits for its own mutex, which its predecessor unlocks.
namespace LinuxCoding.AbcdRace.Chain
open Rotation Transition

-- main: the test of the for with pthread_mutex_init, pthread_mutex_lock, pthread_create, the
-- unlock of the first mutex, the joins; and what follows a pthread_create that failed. From
-- pthread_cancel(tid + j) on, which takes a pointer for a thread, nothing is defined.
inductive Main (thrnum : Nat) where
  | looping (i : Nat)
  | locking (i : Fin thrnum)
  | creating (i : Fin thrnum)
  | releasing
  | joining
  | failed (i : Fin thrnum)
  | cancelling
  | exited

-- Before pthread_create, then in abcd_func.
inductive Place where
  | absent
  | locking
  | writing
  | unlocking
  deriving DecidableEq

structure State (thrnum : Nat) where
  locked : Fin thrnum → Bool
  main : Main thrnum
  pc : Fin thrnum → Place

section
variable {thrnum : Nat}

def start (thrnum : Nat) : State thrnum := ⟨fun _ => false,.looping 0,fun _ => .absent⟩

def State.lock (s : State thrnum) (i : Fin thrnum) (locked : Bool) : State thrnum := {s with locked := Function.update s.locked i locked}
def State.go (s : State thrnum) (t : Fin thrnum) (place : Place) : State thrnum := {s with pc := Function.update s.pc t place}
def State.at (s : State thrnum) (main : Main thrnum) : State thrnum := {s with main := main}

-- An unlock of a default mutex does not ask who has locked it.
inductive Step : State thrnum → List UInt8 → State thrnum → Prop where
  | inits (inside : i < thrnum) : s.main = .looping i → Step s [] ((s.lock ⟨i,inside⟩ false).at (.locking ⟨i,inside⟩))
  | locks : s.main = .locking i → s.locked i = false → Step s [] ((s.lock i true).at (.creating i))
  | creates : s.main = .creating i → Step s [] ((s.go i .locking).at (.looping (i.val + 1)))
  | ends : s.main = .looping i → ¬ i < thrnum → Step s [] (s.at .releasing)
  | releases (first : 0 < thrnum) : s.main = .releasing → Step s [] ((s.lock ⟨0,first⟩ false).at .joining)
  | fails : s.main = .creating i → Step s [] (s.at (.failed i))
  | exits : s.main = .failed i → i.val = 0 → Step s [] (s.at .exited)
  | unlocksFirst (first : 0 < thrnum) : s.main = .failed i → i.val ≠ 0 → Step s [] ((s.lock ⟨0,first⟩ false).at .cancelling)
  | takes {t : Fin thrnum} : s.pc t = .locking → s.locked t = false → Step s [] ((s.lock t true).go t .writing)
  | writes {t : Fin thrnum} : s.pc t = .writing → Step s [letter t] (s.go t .unlocking)
  | passes {t : Fin thrnum} : s.pc t = .unlocking → Step s [] ((s.lock (next t) false).go t .locking)

-- The thread has no mutex to take.
def State.Waits (s : State thrnum) (t : Fin thrnum) : Prop := s.pc t = .absent ∨ s.pc t = .locking ∧ s.locked t = true

-- What main has done so far.
def State.Created (s : State thrnum) : Prop :=
  match s.main with
  | .looping i => ∀ t : Fin thrnum, i ≤ t.val → s.pc t = .absent
  | .locking i => ∀ t, i ≤ t → s.pc t = .absent
  | .creating i => (∀ t, i ≤ t → s.pc t = .absent) ∧ s.locked i = true
  | .failed i => s.pc i = .absent
  | .cancelling => ∃ i, s.pc i = .absent
  | .exited => ∃ i, s.pc i = .absent
  | .releasing => True
  | .joining => True

-- main has unlocked the first mutex.
def Main.released : Main thrnum → Bool
  | .joining => true
  | .cancelling => true
  | _ => false

-- The place of the turn: with main, in a free mutex, with the thread that writes, with the
-- one that has written and is to unlock.
inductive At (s : State thrnum) (h : Fin thrnum) : Prop where
  | kept : s.main.released = false → h.val = 0 → (∀ t, s.Waits t) → At s h
  | free : s.main.released = true → (∀ t, t ≠ h → s.Waits t) → s.pc h = .absent ∨ s.pc h = .locking ∧ s.locked h = false → At s h
  | writing : s.main.released = true → (∀ t, t ≠ h → s.Waits t) → s.pc h = .writing → s.locked h = true → At s h
  | passing (giver : Fin thrnum) : s.main.released = true → (∀ t, t ≠ giver → s.Waits t) → s.pc giver = .unlocking → s.locked giver = true →
      next giver = h → At s h

variable {s u : State thrnum} {h t i : Fin thrnum} {emitted : List UInt8}

theorem waits_idle (waits : s.Waits t) : s.pc t ≠ .writing ∧ s.pc t ≠ .unlocking := by
  rcases waits with absent | ⟨locking,_⟩
  · simp [absent]
  · simp [locking]

theorem waits_locked (waits : s.Waits t) (locking : s.pc t = .locking) : s.locked t = true := by
  rcases waits with absent | ⟨_,locked⟩
  · rw [locking] at absent
    cases absent
  · exact locked

theorem waits_same (waits : s.Waits t) (place : u.pc t = s.pc t) (locked : u.locked t = s.locked t) : u.Waits t := by
  unfold State.Waits
  rw [place,locked]
  exact waits

-- A thread that exists goes to another place.
theorem created_kept (created : s.Created) (released : s.main.released = true) (main : u.main = s.main)
    (absent : ∀ v, s.pc v = .absent → u.pc v = .absent) : u.Created := by
  unfold State.Created at created ⊢
  rw [main]
  cases place : s.main with
  | cancelling =>
    rw [place] at created
    obtain ⟨i,none⟩ := created
    exact ⟨i,absent i none⟩
  | joining => trivial
  | looping | locking | creating | releasing | failed | exited =>
    rw [place] at released
    cases released

theorem absent_kept (place : s.pc t = p) (present : p ≠ .absent) (v : Fin thrnum) (absent : s.pc v = .absent) (new : Place) :
    Function.update s.pc t new v = .absent := by
  rw [Function.update_of_ne]
  · exact absent
  · intro own
    rw [own,place] at absent
    exact present absent

-- main unlocks the first mutex while every thread waits.
theorem freed_at (first : h.val = 0) (waits : ∀ t, s.Waits t) (inside : 0 < thrnum) {main : Main thrnum} (late : main.released = true) :
    At ((s.lock ⟨0,inside⟩ false).at main) h := by
  have same : h = ⟨0,inside⟩ := Fin.ext first
  refine .free late ?_ ?_
  · intro t other
    exact waits_same (waits t) rfl (Function.update_of_ne (same ▸ other) _ _)
  · rcases waits h with absent | ⟨locking,_⟩
    · exact .inl absent
    · exact .inr ⟨locking,by simp [same,State.lock,State.at]⟩

theorem kept_step (first : h.val = 0) (waits : ∀ t, s.Waits t) (created : s.Created) (taken : Step s emitted u) :
    emitted = [] ∧ At u h ∧ u.Created := by
  unfold State.Created at created
  cases taken with
  | inits inside main =>
    rw [main] at created
    refine ⟨rfl,.kept rfl first ?_,created⟩
    intro t
    by_cases own : t = ⟨_,inside⟩
    · exact .inl (created t (Nat.le_of_eq (congrArg Fin.val own).symm))
    · exact waits_same (waits t) rfl (Function.update_of_ne own _ _)
  | @locks _ i main free =>
    rw [main] at created
    refine ⟨rfl,.kept rfl first ?_,created,Function.update_self _ _ _⟩
    intro t
    by_cases own : t = i
    · exact .inl (created t (Fin.le_of_eq own.symm))
    · exact waits_same (waits t) rfl (Function.update_of_ne own _ _)
  | @creates _ i main =>
    rw [main] at created
    refine ⟨rfl,.kept rfl first ?_,?_⟩
    · intro t
      by_cases own : t = i
      · subst own
        exact .inr ⟨Function.update_self _ _ _,created.2⟩
      · exact waits_same (waits t) (Function.update_of_ne own _ _) rfl
    · intro t later
      have own : t ≠ i := by
        intro same
        rw [same] at later
        omega
      have after : i ≤ t := Nat.le_of_lt later
      exact (Function.update_of_ne own _ _).trans (created.1 t after)
  | ends => exact ⟨rfl,.kept rfl first waits,trivial⟩
  | releases inside main => exact ⟨rfl,freed_at first waits inside rfl,trivial⟩
  | @fails _ i main =>
    rw [main] at created
    exact ⟨rfl,.kept rfl first waits,created.1 i (Fin.le_refl i)⟩
  | exits main =>
    rw [main] at created
    exact ⟨rfl,.kept rfl first waits,_,created⟩
  | unlocksFirst inside main =>
    rw [main] at created
    exact ⟨rfl,freed_at first waits inside rfl,_,created⟩
  | takes place free =>
    rw [waits_locked (waits _) place] at free
    cases free
  | writes place => exact absurd place (waits_idle (waits _)).1
  | passes place => exact absurd place (waits_idle (waits _)).2

-- From then on main does nothing any more.
theorem released_step (late : s.main.released = true) (taken : Step s emitted u) :
    u.main = s.main ∧ ∃ t, (s.pc t = .locking ∧ s.locked t = false ∧ emitted = [] ∧ u = (s.lock t true).go t .writing) ∨
      (s.pc t = .writing ∧ emitted = [letter t] ∧ u = s.go t .unlocking) ∨
      (s.pc t = .unlocking ∧ emitted = [] ∧ u = (s.lock (next t) false).go t .locking) := by
  cases taken with
  | takes place free => exact ⟨rfl,_,.inl ⟨place,free,rfl,rfl⟩⟩
  | writes place => exact ⟨rfl,_,.inr (.inl ⟨place,rfl,rfl⟩)⟩
  | passes place => exact ⟨rfl,_,.inr (.inr ⟨place,rfl,rfl⟩)⟩
  | inits _ main | locks main | creates main | ends main | releases _ main | fails main | exits main | unlocksFirst _ main =>
    rw [main] at late
    cases late

-- The thread with the turn is the only one that does not wait.
theorem turn_alone (others : ∀ v, v ≠ h → s.Waits v) (moving : ¬ s.Waits t) : t = h := by
  by_contra other
  exact moving (others t other)

theorem takes_at (turn : At s h) (late : s.main.released = true) (place : s.pc t = .locking) (free : s.locked t = false) :
    At ((s.lock t true).go t .writing) h := by
  have moving : ¬ s.Waits t := by
    intro waits
    rw [waits_locked waits place] at free
    cases free
  cases turn with
  | kept early =>
    rw [early] at late
    cases late
  | free _ others _ =>
    obtain rfl := turn_alone others moving
    refine .writing late ?_ (Function.update_self _ _ _) (Function.update_self _ _ _)
    intro v other
    exact waits_same (others v other) (Function.update_of_ne other _ _) (Function.update_of_ne other _ _)
  | writing _ others own =>
    obtain rfl := turn_alone others moving
    rw [place] at own
    cases own
  | passing giver _ others own =>
    obtain rfl := turn_alone others moving
    rw [place] at own
    cases own

theorem writes_at (turn : At s h) (late : s.main.released = true) (place : s.pc t = .writing) :
    t = h ∧ At (s.go t .unlocking) (next h) := by
  have moving : ¬ s.Waits t := fun waits => (waits_idle waits).1 place
  cases turn with
  | kept early =>
    rw [early] at late
    cases late
  | free _ others own =>
    obtain rfl := turn_alone others moving
    simp [place] at own
  | writing _ others own locked =>
    obtain rfl := turn_alone others moving
    refine ⟨rfl,.passing t late ?_ (Function.update_self _ _ _) locked rfl⟩
    intro v other
    exact waits_same (others v other) (Function.update_of_ne other _ _) rfl
  | passing giver _ others own =>
    obtain rfl := turn_alone others moving
    rw [place] at own
    cases own

theorem passes_at (turn : At s h) (late : s.main.released = true) (place : s.pc t = .unlocking) :
    At ((s.lock (next t) false).go t .locking) h := by
  have moving : ¬ s.Waits t := fun waits => (waits_idle waits).2 place
  cases turn with
  | kept early =>
    rw [early] at late
    cases late
  | free _ others own =>
    obtain rfl := turn_alone others moving
    simp [place] at own
  | writing _ others own =>
    obtain rfl := turn_alone others moving
    rw [place] at own
    cases own
  | passing giver _ others own locked successor =>
    obtain rfl := turn_alone others moving
    have placed : ((s.lock (next t) false).go t .locking).pc t = .locking := Function.update_self _ _ _
    refine .free late ?_ ?_
    · intro v other
      have unlocked : ((s.lock (next t) false).go t .locking).locked v = s.locked v := Function.update_of_ne (successor ▸ other) _ _
      by_cases mine : v = t
      · subst mine
        exact .inr ⟨placed,unlocked.trans locked⟩
      · exact waits_same (others v mine) (Function.update_of_ne mine _ _) unlocked
    · have unlocked : ((s.lock (next t) false).go t .locking).locked h = false := by
        rw [← successor]
        exact Function.update_self _ _ _
      by_cases mine : h = t
      · exact .inr ⟨mine ▸ placed,unlocked⟩
      · have same : ((s.lock (next t) false).go t .locking).pc h = s.pc h := Function.update_of_ne mine _ _
        rw [same,unlocked]
        rcases others h mine with absent | ⟨locking,_⟩
        · exact .inl absent
        · exact .inr ⟨locking,rfl⟩

-- The turn goes on when a letter is written, and stays where it is in any other step.
theorem step_at (turn : At s h ∧ s.Created) (taken : Step s emitted u) :
    emitted = [] ∧ At u h ∧ u.Created ∨ emitted = [letter h] ∧ At u (next h) ∧ u.Created := by
  obtain ⟨turn,created⟩ := turn
  by_cases early : s.main.released = true
  · obtain ⟨main,t,⟨place,free,rfl,rfl⟩ | ⟨place,rfl,rfl⟩ | ⟨place,rfl,rfl⟩⟩ := released_step early taken
    · exact .inl ⟨rfl,takes_at turn early place free,created_kept created early main (fun v absent => absent_kept place nofun v absent _)⟩
    · obtain ⟨rfl,passed⟩ := writes_at turn early place
      exact .inr ⟨rfl,passed,created_kept created early main (fun v absent => absent_kept place nofun v absent _)⟩
    · exact .inl ⟨rfl,passes_at turn early place,created_kept created early main (fun v absent => absent_kept place nofun v absent _)⟩
  · cases turn with
    | kept _ first waits => exact .inl (kept_step first waits created taken)
    | free late | writing late | passing _ late => exact absurd late early

theorem start_at (first : 0 < thrnum) : At (start thrnum) ⟨0,first⟩ ∧ (start thrnum).Created :=
  ⟨.kept rfl rfl (fun _ => .inl rfl),fun _ _ => rfl⟩

theorem chain_turns (first : 0 < thrnum) (run : Runs Step (start thrnum) output s) :
    output = turns first output.length ∧ ∃ h, At s h ∧ s.Created := by
  obtain ⟨same,reached⟩ := simulated_repetition (fun t : Fin thrnum => letter t) next
    (fun s h => At s h ∧ s.Created) (fun _ _ _ _ turn taken => step_at turn taken) (start_at first) run
  exact ⟨same,_,reached⟩

theorem moves (turn : At s h) (created : s.Created) (all : ∀ t, s.pc t ≠ .absent) : ¬ Stuck Step s := by
  intro stuck
  cases turn with
  | kept early first waits =>
    unfold State.Created at created
    cases main : s.main with
    | looping i =>
      by_cases inside : i < thrnum
      · exact stuck _ _ (.inits inside main)
      · exact stuck _ _ (.ends main inside)
    | locking i =>
      rw [main] at created
      exact all i (created i (Fin.le_refl i))
    | creating i => exact stuck _ _ (.creates main)
    | releasing => exact stuck _ _ (.releases h.pos main)
    | failed i =>
      rw [main] at created
      exact all i created
    | exited =>
      rw [main] at created
      obtain ⟨i,absent⟩ := created
      exact all i absent
    | joining | cancelling =>
      rw [main] at early
      cases early
  | free _ others own =>
    rcases own with absent | ⟨locking,free⟩
    · exact all h absent
    · exact stuck _ _ (.takes locking free)
  | writing _ others own => exact stuck _ _ (.writes own)
  | passing giver _ others own => exact stuck _ _ (.passes own)

end

end LinuxCoding.AbcdRace.Chain
