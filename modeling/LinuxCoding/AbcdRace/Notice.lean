import LinuxCoding.AbcdRace.Letters
import LinuxCoding.Library.Mutex

-- thread/posix/mytbf_multithread/abcd_race_notice.c: the threads wait until the shared number
-- is their own.
namespace LinuxCoding.AbcdRace.Notice
open Mutex Rotation Transition

-- main: the test of the for with pthread_create, and a pthread_create that failed. After the
-- loop main only joins, which the threads never let it do. If one thread is already there
-- main unlocks a mutex that it has not locked, from where nothing is defined.
inductive Main (thrnum : Nat) where
  | looping (i : Nat)
  | failed (i : Fin thrnum)
  | exited

-- Before pthread_create; the lock, the test of the while, pthread_cond_wait before and after
-- the thread is woken, write, the assignment, pthread_cond_broadcast, the unlock.
inductive Place where
  | absent
  | locking
  | testing
  | sleeping
  | woken
  | writing
  | advancing
  | notifying
  | unlocking

def Place.holds : Place → Bool
  | .testing => true
  | .writing => true
  | .advancing => true
  | .notifying => true
  | .unlocking => true
  | _ => false

def Place.wake : Place → Place
  | .sleeping => .woken
  | place => place

structure State (thrnum : Nat) where
  num : Fin thrnum
  owner : Option (Fin thrnum)
  main : Main thrnum
  pc : Fin thrnum → Place

section
variable {thrnum : Nat}

def start (first : 0 < thrnum) : State thrnum := ⟨⟨0,first⟩,none,.looping 0,fun _ => .absent⟩

def State.go (s : State thrnum) (t : Fin thrnum) (place : Place) : State thrnum := {s with pc := Function.update s.pc t place}

-- pthread_cond_broadcast
def State.notify (s : State thrnum) (t : Fin thrnum) : State thrnum := {s with pc := Function.update (fun v => (s.pc v).wake) t .unlocking}

inductive Step : State thrnum → List UInt8 → State thrnum → Prop where
  | creates (inside : i < thrnum) : s.main = .looping i → Step s [] {s.go ⟨i,inside⟩ .locking with main := .looping (i + 1)}
  | fails (inside : i < thrnum) : s.main = .looping i → Step s [] {s with main := .failed ⟨i,inside⟩}
  | exits : s.main = .failed i → i.val = 0 → Step s [] {s with main := .exited}
  | locks : s.pc t = .locking → s.owner = none → Step s [] {s.go t .testing with owner := some t}
  | sleeps : s.pc t = .testing → s.num ≠ t → Step s [] {s.go t .sleeping with owner := none}
  | relocks : s.pc t = .woken → s.owner = none → Step s [] {s.go t .testing with owner := some t}
  | leaves : s.pc t = .testing → s.num = t → Step s [] (s.go t .writing)
  | writes {t : Fin thrnum} : s.pc t = .writing → Step s [letter t] (s.go t .advancing)
  | advances : s.pc t = .advancing → Step s [] {s.go t .notifying with num := next s.num}
  | notifies : s.pc t = .notifying → Step s [] (s.notify t)
  | unlocks : s.pc t = .unlocking → Step s [] {s.go t .locking with owner := none}

-- pthread_cond_wait may return without a notification.
inductive Spurious : State thrnum → List UInt8 → State thrnum → Prop where
  | wakes : s.pc t = .sleeping → Spurious s [] (s.go t .woken)

def Moves (s : State thrnum) (emitted : List UInt8) (u : State thrnum) : Prop := Step s emitted u ∨ Spurious s emitted u

-- The turn is the number's, but between write and the assignment it is its successor's; and
-- who sleeps has not the turn, or is about to be woken.
structure At (s : State thrnum) (h : Fin thrnum) : Prop where
  owned : Owned Place.holds s.owner s.pc
  later : ∀ i, s.main = .looping i → ∀ t : Fin thrnum, i ≤ t.val → s.pc t = .absent
  writing : ∀ t, s.pc t = .writing → s.num = t
  advancing : ∀ t, s.pc t = .advancing → s.num = t ∧ h = next t
  level : (∀ t, s.pc t ≠ .advancing) → h = s.num
  asleep : ∀ t, s.pc t = .sleeping → s.num ≠ t ∨ ∃ v, s.pc v = .notifying

variable {s u : State thrnum} {h t v : Fin thrnum} {emitted : List UInt8} {place : Place}

-- A thread that is there already goes to another place.
theorem At.stays (turn : At s h) (present : s.pc t ≠ .absent) (i : Nat) (main : s.main = .looping i) (v : Fin thrnum) (later : i ≤ v.val) :
    Function.update s.pc t place v = .absent := by
  have absent := turn.later i main v later
  have other : v ≠ t := by
    intro same
    exact present (same ▸ absent)
  exact (Function.update_of_ne other _ _).trans absent

-- Neither of the two places is the assignment or the broadcast.
theorem At.goes (turn : At s h) {owner : Option (Fin thrnum)} {main : Main thrnum} (owned : Owned Place.holds owner (Function.update s.pc t place))
    (later : ∀ i, main = .looping i → ∀ v : Fin thrnum, i ≤ v.val → Function.update s.pc t place v = .absent)
    (before : s.pc t ≠ .advancing ∧ s.pc t ≠ .notifying) (after : place ≠ .advancing)
    (writing : place = .writing → s.num = t) (sleeping : place = .sleeping → s.num ≠ t) :
    At ⟨s.num,owner,main,Function.update s.pc t place⟩ h := by
  refine ⟨owned,later,update_all (P := fun v (place : Place) => place = .writing → s.num = v) turn.writing writing,?_,?_,?_⟩
  · intro v there
    exact turn.advancing v (elsewhere there after).2
  · intro none
    refine turn.level fun v there => ?_
    have other : v ≠ t := by
      intro same
      exact before.1 (same ▸ there)
    exact none v ((Function.update_of_ne other _ _).trans there)
  · intro v there
    by_cases own : v = t
    · subst own
      exact .inl (sleeping ((Function.update_self _ _ _).symm.trans there))
    · rcases turn.asleep v ((Function.update_of_ne own _ _).symm.trans there) with other | ⟨w,notifying⟩
      · exact .inl other
      · have apart : w ≠ t := by
          intro same
          exact before.2 (same ▸ notifying)
        exact .inr ⟨w,(Function.update_of_ne apart _ _).trans notifying⟩

-- Who is at a place that holds the mutex is there alone.
theorem At.alone (turn : At s h) (place : (s.pc t).holds = true) (other : (s.pc v).holds = true) : v = t := owned_unique turn.owned other place

theorem At.writes (turn : At s h) (place : s.pc t = .writing) : t = h ∧ At (s.go t .advancing) (next h) := by
  have held : (s.pc t).holds = true := by rw [place]; rfl
  have mine := turn.writing t place
  have own : h = s.num := by
    refine turn.level fun v there => ?_
    rw [turn.alone held (v := v) (by rw [there]; rfl),place] at there
    cases there
  refine ⟨mine.symm.trans own.symm,owned_stay turn.owned place rfl,turn.stays (by rw [place]; nofun),?_,?_,?_,?_⟩
  · intro v there
    exact turn.writing v (elsewhere there nofun).2
  · intro v there
    have same : v = t := by
      by_contra other
      have before : s.pc v = .advancing := (Function.update_of_ne other _ _).symm.trans there
      exact other (turn.alone held (by rw [before]; rfl))
    rw [same]
    exact ⟨mine,by rw [own,mine]⟩
  · intro none
    exact absurd (Function.update_self _ _ _) (none t)
  · intro v there
    rcases turn.asleep v (elsewhere there nofun).2 with other | ⟨w,notifying⟩
    · exact .inl other
    · have same := turn.alone held (v := w) (by rw [notifying]; rfl)
      rw [same,place] at notifying
      cases notifying

theorem At.advances (turn : At s h) (place : s.pc t = .advancing) : At {s.go t .notifying with num := next s.num} h := by
  have held : (s.pc t).holds = true := by rw [place]; rfl
  obtain ⟨mine,successor⟩ := turn.advancing t place
  refine ⟨owned_stay turn.owned place rfl,turn.stays (by rw [place]; nofun),?_,?_,?_,?_⟩
  · intro v there
    obtain ⟨other,before⟩ := elsewhere there nofun
    exact absurd (turn.alone held (by rw [before]; rfl)) other
  · intro v there
    obtain ⟨other,before⟩ := elsewhere there nofun
    exact absurd (turn.alone held (by rw [before]; rfl)) other
  · intro _
    rw [successor,← mine]
  · intro v _
    exact .inr ⟨t,Function.update_self _ _ _⟩

theorem wake_holds (place : Place) : place.wake.holds = place.holds := by
  cases place <;> rfl

theorem wake_writing {place : Place} (there : place.wake = .writing) : place = .writing := by
  cases place <;> simp_all [Place.wake]

theorem notify_pc (s : State thrnum) (t : Fin thrnum) : (s.notify t).pc = Function.update (fun v => (s.pc v).wake) t .unlocking := rfl

theorem notify_place (there : (s.notify t).pc v = place) (other : place ≠ .unlocking) : v ≠ t ∧ (s.pc v).wake = place := by
  rw [notify_pc] at there
  exact elsewhere there other.symm

theorem At.notifies (turn : At s h) (place : s.pc t = .notifying) : At (s.notify t) h := by
  have held : (s.pc t).holds = true := by rw [place]; rfl
  refine ⟨owned_stay (owned_map turn.owned Place.wake wake_holds) rfl ?_,?_,?_,?_,?_,?_⟩
  · rw [wake_holds,held]
    rfl
  · intro i main v later
    have absent := turn.later i main v later
    have other : v ≠ t := by
      intro same
      rw [same,place] at absent
      cases absent
    rw [notify_pc,Function.update_of_ne other,absent]
    rfl
  · intro v there
    exact turn.writing v (wake_writing (notify_place there nofun).2)
  · intro v there
    obtain ⟨other,before⟩ := notify_place there nofun
    have holding : (s.pc v).holds = true := by rw [← wake_holds,before]; rfl
    exact absurd (turn.alone held holding) other
  · intro _
    refine turn.level fun v there => ?_
    rw [turn.alone held (v := v) (by rw [there]; rfl),place] at there
    cases there
  · intro v there
    have woken := (notify_place there nofun).2
    cases before : s.pc v <;> rw [before] at woken <;> cases woken

theorem step_at (turn : At s h) (taken : Moves s emitted u) : emitted = [] ∧ At u h ∨ emitted = [letter h] ∧ At u (next h) := by
  rcases taken with taken | taken
  · cases taken with
    | @creates i _ inside main =>
      have absent := turn.later i main ⟨i,inside⟩ (Nat.le_refl i)
      refine .inl ⟨rfl,turn.goes (owned_stay turn.owned absent rfl) ?_ ?_ nofun nofun nofun⟩
      · intro j next v later
        cases next
        have other : v ≠ ⟨i,inside⟩ := by
          intro same
          rw [same] at later
          exact absurd later (Nat.not_succ_le_self i)
        exact (Function.update_of_ne other _ _).trans (turn.later i main v (Nat.le_of_succ_le later))
      · simp [absent]
    | fails inside main => exact .inl ⟨rfl,turn.owned,nofun,turn.writing,turn.advancing,turn.level,turn.asleep⟩
    | exits main => exact .inl ⟨rfl,turn.owned,nofun,turn.writing,turn.advancing,turn.level,turn.asleep⟩
    | locks place free =>
      exact .inl ⟨rfl,turn.goes (owned_take turn.owned free rfl) (turn.stays (by rw [place]; nofun)) (by simp [place]) nofun nofun nofun⟩
    | sleeps place other =>
      exact .inl ⟨rfl,turn.goes (owned_drop turn.owned place rfl rfl) (turn.stays (by rw [place]; nofun)) (by simp [place]) nofun nofun
        (fun _ => other)⟩
    | relocks place free =>
      exact .inl ⟨rfl,turn.goes (owned_take turn.owned free rfl) (turn.stays (by rw [place]; nofun)) (by simp [place]) nofun nofun nofun⟩
    | leaves place mine =>
      exact .inl ⟨rfl,turn.goes (owned_stay turn.owned place rfl) (turn.stays (by rw [place]; nofun)) (by simp [place]) nofun
        (fun _ => mine) nofun⟩
    | writes place =>
      obtain ⟨rfl,passed⟩ := turn.writes place
      exact .inr ⟨rfl,passed⟩
    | advances place => exact .inl ⟨rfl,turn.advances place⟩
    | notifies place => exact .inl ⟨rfl,turn.notifies place⟩
    | unlocks place =>
      exact .inl ⟨rfl,turn.goes (owned_drop turn.owned place rfl rfl) (turn.stays (by rw [place]; nofun)) (by simp [place]) nofun nofun nofun⟩
  · cases taken with
    | wakes place =>
      exact .inl ⟨rfl,turn.goes (owned_stay turn.owned place rfl) (turn.stays (by rw [place]; nofun)) (by simp [place]) nofun nofun nofun⟩

theorem start_at (first : 0 < thrnum) : At (start first) ⟨0,first⟩ :=
  ⟨fun _ => ⟨nofun,nofun⟩,fun _ _ _ _ => rfl,nofun,nofun,fun _ => rfl,nofun⟩

theorem notice_turns (first : 0 < thrnum) (run : Runs Moves (start first) output s) :
    output = turns first output.length ∧ ∃ h, At s h := by
  obtain ⟨same,reached⟩ := simulated_repetition (fun t : Fin thrnum => letter t) next At (fun _ _ _ _ turn taken => step_at turn taken) (start_at first) run
  exact ⟨same,_,reached⟩

-- Without the mutex in use the thread whose number it is can go on.
theorem moves (turn : At s h) (all : ∀ t, s.pc t ≠ .absent) : ¬ Stuck Step s := by
  intro stuck
  have free : ∀ v, (s.pc v).holds = false := by
    intro v
    cases place : s.pc v with
    | testing =>
      by_cases mine : s.num = v
      · exact absurd (.leaves place mine) (stuck _ _)
      · exact absurd (.sleeps place mine) (stuck _ _)
    | writing => exact absurd (.writes place) (stuck _ _)
    | advancing => exact absurd (.advances place) (stuck _ _)
    | notifying => exact absurd (.notifies place) (stuck _ _)
    | unlocking => exact absurd (.unlocks place) (stuck _ _)
    | absent | locking | sleeping | woken => rfl
  have unowned : s.owner = none := by
    cases owner : s.owner with
    | none => rfl
    | some v =>
      have held := (turn.owned v).mp owner
      rw [free v] at held
      cases held
  cases place : s.pc s.num with
  | absent => exact all _ place
  | locking => exact stuck _ _ (.locks place unowned)
  | woken => exact stuck _ _ (.relocks place unowned)
  | sleeping =>
    rcases turn.asleep s.num place with other | ⟨v,notifying⟩
    · exact other rfl
    · have held := free v
      rw [notifying] at held
      cases held
  | testing | writing | advancing | notifying | unlocking =>
    have held := free s.num
    rw [place] at held
    cases held

end

end LinuxCoding.AbcdRace.Notice
