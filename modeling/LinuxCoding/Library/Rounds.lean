import Mathlib.Algebra.BigOperators.Ring.Finset
import Mathlib.Algebra.Order.Ring.Int
import LinuxCoding.Library.Signals

-- Threads that go through a section of a monitor again and again, each its own number of
-- times, and that may give one more notice when they have unlocked the mutex.
namespace LinuxCoding.Rounds
open Signals Total Transition

structure Program (τ σ ω ρ κ : Type) where
  sections : Sections σ ω ρ κ
  op : τ → ω
  rounds : τ → Nat
  later : ω → Notice κ

-- In round i, before the unlock or behind it.
inductive Place where
  | inside (i : Nat)
  | outside (i : Nat)

def Place.done : Place → Nat
  | .inside i => i
  | .outside i => i + 1

@[simp] theorem done_inside (i : Nat) : (Place.inside i).done = i := rfl
@[simp] theorem done_outside (i : Nat) : (Place.outside i).done = i + 1 := rfl

structure State (τ σ ω : Type) where
  calls : Config τ σ ω
  place : τ → Place

section
variable {σ ω ρ κ : Type} {m : Sections σ ω ρ κ} {quantity : σ → Int} {adds : ω → Bool} {capacity : Int} {op : ω} {x : σ}

-- Each section adds one to a quantity that cannot rise above the capacity, or takes one
-- from it when there is one.
structure Counter (m : Sections σ ω ρ κ) (quantity : σ → Int) (adds : ω → Bool) (capacity : Int) : Prop where
  positive : 0 < capacity
  waits : ∀ op x, m.waits op x = true ↔ quantity x = if adds op then capacity else 0
  leaves : ∀ op x, m.waits op x = false → quantity (m.leave op x).shared = quantity x + if adds op then 1 else -1

def Within (quantity : σ → Int) (capacity : Int) (x : σ) : Prop := 0 ≤ quantity x ∧ quantity x ≤ capacity

theorem Counter.kept (counter : Counter m quantity adds capacity) (op : ω) (x : σ) (within : Within quantity capacity x)
    (passes : m.waits op x = false) : Within quantity capacity (m.leave op x).shared := by
  have moved := counter.leaves op x passes
  have inside : ¬ quantity x = if adds op then capacity else 0 := by
    rw [← counter.waits,passes]
    exact Bool.false_ne_true
  obtain ⟨low,high⟩ := within
  unfold Within
  cases own : adds op <;> simp only [own,if_true,if_false,Bool.false_eq_true] at moved inside <;> omega

-- What the threads of one side wait for, and what those of the other side bring.
def wanted (quantity : σ → Int) (capacity : Int) (adding : Bool) (x : σ) : Int := if adding then capacity - quantity x else quantity x

structure Sides (m : Sections σ ω ρ κ) (adds : ω → Bool) (conds : Bool → κ) : Prop where
  apart : conds true ≠ conds false
  cond : ∀ op, m.cond op = conds (adds op)

theorem Sides.same {conds : Bool → κ} (sides : Sides m adds conds) {side : Bool} (on : m.cond op = conds side) : adds op = side := by
  rw [sides.cond] at on
  cases own : adds op <;> cases side <;> rw [own] at on
  · exact absurd on.symm sides.apart
  · exact absurd on sides.apart

theorem Counter.wants (counter : Counter m quantity adds capacity) (passes : m.waits op x = false) (side : Bool) :
    wanted quantity capacity side (m.leave op x).shared = wanted quantity capacity side x + if adds op = side then -1 else 1 := by
  have moved := counter.leaves op x passes
  unfold wanted
  cases own : adds op <;> cases side <;> simp only [own,if_true,if_false,Bool.false_eq_true,Bool.true_eq_false] at moved ⊢ <;> omega

theorem Counter.rests (counter : Counter m quantity adds capacity) (waits : m.waits op x = true) :
    wanted quantity capacity (adds op) x ≤ 0 := by
  have level := (counter.waits op x).mp waits
  unfold wanted
  cases own : adds op <;> simp only [own,if_true,if_false,Bool.false_eq_true] at level ⊢ <;> omega

-- Within its bounds a counter that leaves nothing to a side makes it wait.
theorem Counter.level (counter : Counter m quantity adds capacity) (within : Within quantity capacity x)
    (none : wanted quantity capacity (adds op) x ≤ 0) : m.waits op x = true := by
  obtain ⟨low,high⟩ := within
  rw [counter.waits]
  unfold wanted at none
  cases own : adds op <;> simp only [own,if_true,if_false,Bool.false_eq_true] at none ⊢ <;> omega

end

section
variable {τ σ ω ρ κ : Type} [DecidableEq κ] [DecidableEq τ]

def start (shared : σ) : State τ σ ω := ⟨initial shared,fun _ => .inside 0⟩

inductive Step (p : Program τ σ ω ρ κ) : State τ σ ω → List (Event τ ω ρ) → State τ σ ω → Prop where
  | waits (t : τ) (outcome : Outcome ρ) : s.place t = .inside i → i < p.rounds t → (∀ ret, outcome ≠ .returned ret) →
      Signals.Step p.sections s.calls [⟨t,p.op t,outcome⟩] calls → Step p s [⟨t,p.op t,outcome⟩] ⟨calls,s.place⟩
  | leaves (t : τ) (ret : ρ) : s.place t = .inside i → i < p.rounds t →
      Signals.Step p.sections s.calls [⟨t,p.op t,.returned ret⟩] calls →
      Step p s [⟨t,p.op t,.returned ret⟩] ⟨calls,Function.update s.place t (.outside i)⟩
  | tells (t : τ) : s.place t = .outside i → Notified p.sections.cond (p.later (p.op t)) s.calls.status status →
      Step p s [] ⟨⟨s.calls.shared,status⟩,Function.update s.place t (.inside (i + 1))⟩

-- A state from which only a spurious wakeup leads on.
def Unroused (_ : State τ σ ω) (emitted : List (Event τ ω ρ)) : Prop := ∀ event ∈ emitted, event.outcome ≠ .roused

def Still (p : Program τ σ ω ρ κ) (s : State τ σ ω) : Prop := Stuck (Where (Step p) Unroused) s

def Finished (p : Program τ σ ω ρ κ) (s : State τ σ ω) : Prop := ∀ t, s.place t = .inside (p.rounds t)

variable {p : Program τ σ ω ρ κ} {s u : State τ σ ω} {t : τ}

-- Who waits is in a round of its own, in its own operation.
structure Placed (p : Program τ σ ω ρ κ) (s : State τ σ ω) : Prop where
  within : ∀ t, (s.place t).done ≤ p.rounds t
  calling : ∀ t op, (s.calls.status t).pending = some op → op = p.op t ∧ ∃ i < p.rounds t, s.place t = .inside i

omit [DecidableEq κ] [DecidableEq τ] in
theorem start_placed (shared : σ) : Placed p (start shared) := ⟨fun _ => Nat.zero_le _,nofun⟩

omit [DecidableEq κ] in
theorem done_update {place : Place} (within : ∀ t, (s.place t).done ≤ p.rounds t) (new : place.done ≤ p.rounds t) (v : τ) :
    (Function.update s.place t place v).done ≤ p.rounds v := by
  by_cases same : v = t
  · rw [same,Function.update_self]
    exact new
  · rw [Function.update_of_ne same]
    exact within v

theorem step_placed (placed : Placed p s) (taken : Step p s emitted u) : Placed p u := by
  obtain ⟨within,calling⟩ := placed
  cases taken with
  | waits t outcome here more unreturned step =>
    refine ⟨within,?_⟩
    obtain ⟨others,own⟩ := step_pending step
    intro v op pending
    by_cases same : v = t
    · subst same
      rcases own with none | ⟨asks,_⟩
      · rw [none] at pending
        cases pending
      · rw [asks] at pending
        cases pending
        exact ⟨rfl,_,more,here⟩
    · rw [others v same] at pending
      exact calling v op pending
  | leaves t ret here more step =>
    obtain ⟨others,own⟩ := step_pending step
    refine ⟨done_update within more,?_⟩
    intro v op pending
    by_cases same : v = t
    · subst same
      rcases own with none | ⟨_,unreturned⟩
      · rw [none] at pending
        cases pending
      · exact absurd rfl (unreturned ret)
    · rw [others v same] at pending
      obtain ⟨mine,j,less,inside⟩ := calling v op pending
      exact ⟨mine,j,less,(Function.update_of_ne same _ _).trans inside⟩
  | tells t here told =>
    have most := within t
    rw [here] at most
    refine ⟨done_update within most,?_⟩
    intro v op pending
    rw [notified_pending told] at pending
    obtain ⟨mine,i,less,inside⟩ := calling v op pending
    have same : v ≠ t := by
      rintro rfl
      rw [here] at inside
      cases inside
    exact ⟨mine,i,less,(Function.update_of_ne same _ _).trans inside⟩

theorem run_placed {shared : σ} (run : Runs (Step p) (start shared) log s) : Placed p s :=
  run.stateInvariant (fun _ _ _ placed taken => step_placed placed taken) (start_placed shared)

-- A thread that can go on has a step, so in a still state each one has finished or sleeps.
theorem still_cases (placed : Placed p s) (still : Still p s) (t : τ) :
    ∃ i, s.place t = .inside i ∧ (i = p.rounds t ∨ i < p.rounds t ∧ s.calls.status t = .asleep (p.op t)) := by
  cases here : s.place t with
  | outside i =>
    obtain ⟨status,told⟩ := Notified.reaches p.sections.cond (p.later (p.op t)) s.calls.status
    exact absurd ⟨.tells t here told,nofun⟩ (still [] _)
  | inside i =>
    refine ⟨i,rfl,?_⟩
    have most := placed.within t
    rw [here] at most
    rcases Nat.lt_or_ge i (p.rounds t) with more | ended
    · refine .inr ⟨more,?_⟩
      have resting : ¬ (s.calls.status t).Ready (p.op t) := by
        intro ready
        cases waits : p.sections.waits (p.op t) s.calls.shared with
        | true =>
          refine still _ _ ⟨.waits t .slept here more nofun (.sleep t (p.op t) ready waits),?_⟩
          intro event member
          cases List.mem_singleton.mp member
          exact nofun
        | false =>
          obtain ⟨status,step⟩ := Signals.Step.leaves t (p.op t) ready waits
          refine still _ _ ⟨.leaves t _ here more step,?_⟩
          intro event member
          cases List.mem_singleton.mp member
          exact nofun
      cases status : s.calls.status t with
      | outside => exact absurd (by rw [status]; trivial) resting
      | asleep op => rw [(placed.calling t op (by rw [status]; rfl)).1]
      | notified op | roused op => exact absurd (by rw [status]; exact (placed.calling t op (by rw [status]; rfl)).1) resting
    · exact .inl (Nat.le_antisymm most ended)

-- What a step does to the shared state.
theorem step_shared (taken : Step p s emitted u) : u.calls.shared = s.calls.shared ∧ (∀ t, (u.place t).done = (s.place t).done) ∨
    ∃ t i, s.place t = .inside i ∧ u.place = Function.update s.place t (.outside i) ∧ p.sections.waits (p.op t) s.calls.shared = false ∧
      u.calls.shared = (p.sections.leave (p.op t) s.calls.shared).shared := by
  cases taken with
  | waits t outcome here more unreturned step =>
    cases step with
    | sleep | rouse => exact .inl ⟨rfl,fun _ => rfl⟩
    | leave => exact absurd rfl (unreturned _)
  | leaves t ret here more step =>
    cases step with
    | leave _ _ ready passes told => exact .inr ⟨t,_,here,rfl,passes,rfl⟩
  | tells t here told =>
    refine .inl ⟨rfl,?_⟩
    intro v
    by_cases same : v = t
    · simp [same,here,Place.done]
    · simp [same]

-- What holds of the shared state while each section that passes keeps it.
theorem run_shared {I : σ → Prop} {shared : σ} (kept : ∀ op x, I x → p.sections.waits op x = false → I (p.sections.leave op x).shared)
    (begins : I shared) (run : Runs (Step p) (start shared) log s) : I s.calls.shared := by
  refine run.stateInvariant (I := fun s : State τ σ ω => I s.calls.shared) ?_ begins
  intro s emitted u holds taken
  rcases step_shared taken with ⟨same,_⟩ | ⟨t,_,_,_,passes,left⟩
  · rw [same]
    exact holds
  · rw [left]
    exact kept _ _ holds passes

theorem run_returned {I : σ → Prop} {P : ρ → Prop} {shared : σ} (kept : ∀ op x, I x → p.sections.waits op x = false → I (p.sections.leave op x).shared)
    (returns : ∀ op x, I x → p.sections.waits op x = false → P (p.sections.leave op x).ret) (begins : I shared)
    (run : Runs (Step p) (start shared) log s) : ∀ event ∈ log, ∀ ret, event.outcome = .returned ret → P ret := by
  refine run.invariant (I := fun log s => Runs (Step p) (start shared) log s ∧ ∀ event ∈ log, ∀ ret, event.outcome = .returned ret → P ret) ?_
    ⟨.nil,nofun⟩ |>.2
  intro log s emitted u ⟨run,all⟩ taken
  refine ⟨run.step taken,?_⟩
  intro event member ret returned
  rcases List.mem_append.mp member with earlier | new
  · exact all event earlier ret returned
  · have holds := run_shared kept begins run
    cases taken with
    | waits t outcome here more unreturned step =>
      cases List.mem_singleton.mp new
      exact absurd returned (unreturned ret)
    | leaves t ret' here more step =>
      cases List.mem_singleton.mp new
      cases returned
      cases step with
      | leave _ _ ready passes told => exact returns _ _ holds passes
    | tells => cases new

variable [Fintype τ]

-- The sections that the threads have passed, each with its worth.
def worth (value : τ → Int) (s : State τ σ ω) : Int := ∑ t, (s.place t).done * value t

theorem run_worth {quantity : σ → Int} {value : τ → Int} {shared : σ}
    (changes : ∀ t x, p.sections.waits (p.op t) x = false → quantity (p.sections.leave (p.op t) x).shared = quantity x + value t)
    (run : Runs (Step p) (start shared) log s) : quantity s.calls.shared = quantity shared + worth value s := by
  refine run.stateInvariant (I := fun s : State τ σ ω => quantity s.calls.shared = quantity shared + worth value s) ?_ (by simp [start,initial,worth,Place.done])
  intro s emitted u holds taken
  rcases step_shared taken with ⟨same,done⟩ | ⟨t,i,here,place,passes,left⟩
  · rw [same,holds,worth,worth]
    simp only [done]
  · have split := sum_update (fun v (place : Place) => place.done * value v) s.place t (.outside i)
    simp only [here,done_inside,done_outside,Nat.cast_add,Nat.cast_one,add_mul,one_mul] at split
    generalize (i : Int) * value t = before at split
    rw [left,changes t _ passes,holds,worth,worth,place]
    omega

-- The notices of the sections pay for what they add, and one behind an unlock wakes more.
theorem step_supplied {sound : σ → Prop} {supply : σ → Int} (supplies : Supplies p.sections sound k supply) (holds : sound s.calls.shared)
    (supplied : Supplied p.sections k supply s.calls) (taken : Step p s emitted u) : Supplied p.sections k supply u.calls := by
  cases taken with
  | waits t outcome here more unreturned step => exact Signals.step_supplied supplies holds supplied step
  | leaves t ret here more step => exact Signals.step_supplied supplies holds supplied step
  | tells t here told =>
    rename_i status _
    intro v op asleep on
    obtain ⟨before,_,woken⟩ := notified_asleep told asleep
    have enough := supplied v op before on
    change supply s.calls.shared ≤ (waking p.sections.cond k status : Int)
    rw [on] at woken
    omega

theorem still_unnotified (placed : Placed p s) (still : Still p s) (k : κ) : waking p.sections.cond k s.calls.status = 0 := by
  apply tally_zero
  intro t
  obtain ⟨i,here,ended | ⟨_,asleep⟩⟩ := still_cases placed still t
  · cases status : s.calls.status t with
    | outside | asleep | roused => rfl
    | notified op =>
      obtain ⟨_,j,more,there⟩ := placed.calling t op (by rw [status]; rfl)
      rw [here,ended] at there
      cases there
      exact absurd more (Nat.lt_irrefl _)
  · rw [asleep]
    rfl

-- So nobody sleeps in a still state while there is some of what he waits for.
theorem still_supplied {sound : σ → Prop} {supply : σ → Int} {shared : σ} (supplies : Supplies p.sections sound k supply)
    (kept : ∀ op x, sound x → p.sections.waits op x = false → sound (p.sections.leave op x).shared) (begins : sound shared)
    (run : Runs (Step p) (start shared) log s) (still : Still p s) (asleep : s.calls.status t = .asleep op) (on : p.sections.cond op = k) :
    supply s.calls.shared ≤ 0 := by
  have supplied : sound s.calls.shared ∧ Supplied p.sections k supply s.calls := by
    refine run.invariant (I := fun log s => Runs (Step p) (start shared) log s ∧ sound s.calls.shared ∧ Supplied p.sections k supply s.calls) ?_
      ⟨.nil,begins,fun _ _ asleep => by cases asleep⟩ |>.2
    intro log s emitted u ⟨run,holds,supplied⟩ taken
    exact ⟨run.step taken,run_shared kept begins (run.step taken),step_supplied supplies holds supplied taken⟩
  have enough := supplied.2 t op asleep on
  rw [still_unnotified (run_placed run) still k] at enough
  simpa using enough

-- Sections that add something and broadcast it when they have unlocked.
structure Announces (p : Program τ σ ω ρ κ) (sound : σ → Prop) (k : κ) (supply : σ → Int) : Prop where
  sleeping : ∀ op x, sound x → p.sections.cond op = k → p.sections.waits op x = true → supply x ≤ 0
  leaving : ∀ op x, sound x → p.sections.waits op x = false → supply (p.sections.leave op x).shared ≤ supply x ∨ p.later op = .broadcast k

def Announced (p : Program τ σ ω ρ κ) (k : κ) (supply : σ → Int) (s : State τ σ ω) : Prop :=
  ∀ t op, s.calls.status t = .asleep op → p.sections.cond op = k →
    supply s.calls.shared ≤ 0 ∨ ∃ u i, s.place u = .outside i ∧ p.later (p.op u) = .broadcast k

theorem step_announced {sound : σ → Prop} {supply : σ → Int} (announces : Announces p sound k supply) (holds : sound s.calls.shared)
    (announced : Announced p k supply s) (taken : Step p s emitted u) : Announced p k supply u := by
  intro v other asleep on
  cases taken with
  | waits t outcome here more unreturned step =>
    rcases step_asleep step asleep with before | ⟨rfl,rfl,waits⟩
    · cases step with
      | sleep | rouse => exact announced v other before on
      | leave => exact absurd rfl (unreturned _)
    · cases step with
      | sleep => exact .inl (announces.sleeping _ _ holds on waits)
      | rouse _ _ queued => exact .inl (announces.sleeping _ _ holds on waits)
      | leave => exact absurd rfl (unreturned _)
  | leaves t ret here more step =>
    rename_i i _
    rcases step_asleep step asleep with before | ⟨rfl,rfl,waits⟩
    · cases step with
      | leave _ _ ready passes told =>
        rcases announces.leaving _ _ holds passes with less | loud
        · rcases announced v other before on with none | ⟨w,j,there,loud⟩
          · exact .inl (Int.le_trans less none)
          · refine .inr ⟨w,j,?_,loud⟩
            have same : w ≠ t := by
              rintro rfl
              rw [here] at there
              cases there
            exact (Function.update_of_ne same _ _).trans there
        · exact .inr ⟨t,i,Function.update_self _ _ _,loud⟩
    · cases step with
      | leave _ _ ready passes told =>
        rw [waits] at passes
        cases passes
  | tells t here told =>
    obtain ⟨before,quiet,_⟩ := notified_asleep told asleep
    rcases announced v other before on with none | ⟨w,j,there,loud⟩
    · exact .inl none
    · refine .inr ⟨w,j,?_,loud⟩
      have same : w ≠ t := by
        rintro rfl
        rw [on] at quiet
        exact quiet loud
      exact (Function.update_of_ne same _ _).trans there

theorem still_announced {sound : σ → Prop} {supply : σ → Int} {shared : σ} (announces : Announces p sound k supply)
    (kept : ∀ op x, sound x → p.sections.waits op x = false → sound (p.sections.leave op x).shared) (begins : sound shared)
    (run : Runs (Step p) (start shared) log s) (still : Still p s) (asleep : s.calls.status t = .asleep op) (on : p.sections.cond op = k) :
    supply s.calls.shared ≤ 0 := by
  have announced : Announced p k supply s := by
    refine run.invariant (I := fun log s => Runs (Step p) (start shared) log s ∧ Announced p k supply s) ?_
      ⟨.nil,fun _ _ asleep => by cases asleep⟩ |>.2
    intro log s emitted u ⟨run,announced⟩ taken
    exact ⟨run.step taken,step_announced announces (run_shared kept begins run) announced taken⟩
  rcases announced t op asleep on with none | ⟨u,i,there,_⟩
  · exact none
  · obtain ⟨j,here,_⟩ := still_cases (run_placed run) still u
    rw [here] at there
    cases there

-- Sections left to pass, notices left to give, and threads that are not asleep.
def Place.between : Place → Bool
  | .inside _ => false
  | .outside _ => true

def awake : Status ω → Bool
  | .asleep _ => false
  | _ => true

def left (p : Program τ σ ω ρ κ) (s : State τ σ ω) : Nat := ∑ t, (p.rounds t - (s.place t).done)

def measure (p : Program τ σ ω ρ κ) (s : State τ σ ω) : Nat :=
  2 * (Fintype.card τ + 1) * left p s + (Fintype.card τ + 1) * tally Place.between s.place + tally awake s.calls.status

theorem step_falls (s : State τ σ ω) (emitted : List (Event τ ω ρ)) (u : State τ σ ω) (taken : Where (Step p) Unroused s emitted u) :
    measure p u < measure p s := by
  obtain ⟨taken,unroused⟩ := taken
  have most := tally_size awake u.calls.status
  cases taken with
  | waits t outcome here more unreturned step =>
    cases step with
    | leave => exact absurd rfl (unreturned _)
    | rouse => exact absurd rfl (unroused _ List.mem_cons_self)
    | sleep _ _ ready waits =>
      have split := tally_update awake s.calls.status t (.asleep (p.op t))
      have before : awake (s.calls.status t) = true := by
        cases status : s.calls.status t with
        | asleep op =>
          rw [status] at ready
          exact ready.elim
        | outside | notified | roused => rfl
      rw [before] at split
      change 2 * (Fintype.card τ + 1) * left p s + (Fintype.card τ + 1) * tally Place.between s.place +
        tally awake (Function.update s.calls.status t (.asleep (p.op t))) < measure p s
      change _ + 1 = _ + 0 at split
      unfold measure
      omega
  | leaves t ret here more step =>
    rename_i i calls
    have fewer := sum_update (fun v (place : Place) => p.rounds v - place.done) s.place t (.outside i)
    have between := tally_update Place.between s.place t (.outside i)
    rw [here] at fewer between
    simp only [done_inside,done_outside] at fewer
    have one : tally Place.between (Function.update s.place t (.outside i)) = tally Place.between s.place + 1 := between
    have less : left p ⟨calls,Function.update s.place t (.outside i)⟩ + 1 = left p s := by
      change ∑ k, (p.rounds k - (Function.update s.place t (.outside i) k).done) + 1 = ∑ k, (p.rounds k - (s.place k).done)
      omega
    change tally awake calls.status ≤ _ at most
    change 2 * (Fintype.card τ + 1) * left p ⟨calls,Function.update s.place t (.outside i)⟩ +
      (Fintype.card τ + 1) * tally Place.between (Function.update s.place t (.outside i)) + tally awake calls.status < measure p s
    unfold measure
    rw [← less,one,Nat.mul_add_one _ (left p _),Nat.mul_add_one _ (tally _ _)]
    omega
  | tells t here told =>
    rename_i status i
    have same := sum_update (fun v (place : Place) => p.rounds v - place.done) s.place t (.inside (i + 1))
    have between := tally_update Place.between s.place t (.inside (i + 1))
    rw [here] at same between
    simp only [done_inside,done_outside] at same
    have one : tally Place.between (Function.update s.place t (.inside (i + 1))) + 1 = tally Place.between s.place := between
    have kept : left p ⟨⟨s.calls.shared,status⟩,Function.update s.place t (.inside (i + 1))⟩ = left p s := Nat.add_right_cancel same
    change tally awake status ≤ _ at most
    change 2 * (Fintype.card τ + 1) * left p ⟨⟨s.calls.shared,status⟩,Function.update s.place t (.inside (i + 1))⟩ +
      (Fintype.card τ + 1) * tally Place.between (Function.update s.place t (.inside (i + 1))) + tally awake status < measure p s
    unfold measure
    rw [kept,← one,Nat.mul_add_one _ (tally _ _)]
    omega

theorem reaches_still (shared : σ) : ∃ log s, Runs (Step p) (start shared) log s ∧ Still p s := by
  obtain ⟨log,s,run,still⟩ := Runs.ending (Where (Step p) Unroused) step_falls (start shared)
  exact ⟨log,s,run.unrestricted,still⟩

-- What all the rounds change together.
def balance (p : Program τ σ ω ρ κ) (adds : ω → Bool) : Int := ∑ t, (p.rounds t : Int) * if adds (p.op t) then 1 else -1

variable {quantity : σ → Int} {adds : ω → Bool} {capacity : Int} {shared : σ}

omit [Fintype τ] in
theorem run_within (counter : Counter p.sections quantity adds capacity) (begins : Within quantity capacity shared)
    (run : Runs (Step p) (start shared) log s) : Within quantity capacity s.calls.shared :=
  run_shared counter.kept begins run

theorem run_balance (counter : Counter p.sections quantity adds capacity) (run : Runs (Step p) (start shared) log s) :
    quantity s.calls.shared = quantity shared + worth (fun t => if adds (p.op t) then 1 else -1) s :=
  run_worth (fun t x passes => counter.leaves (p.op t) x passes) run

-- Nobody sleeps for nothing where nothing moves.
def Heard (p : Program τ σ ω ρ κ) (shared : σ) : Prop :=
  ∀ log s t, Runs (Step p) (start shared) log s → Still p s → s.calls.status t = .asleep (p.op t) →
    p.sections.waits (p.op t) s.calls.shared = true

-- A signal to the other side in each section, or a broadcast behind each unlock.
theorem Counter.signals {m : Sections σ ω ρ κ} {conds : Bool → κ} (counter : Counter m quantity adds capacity) (sides : Sides m adds conds)
    (signals : ∀ op x, m.waits op x = false → (m.leave op x).notice = .signal (conds (!adds op))) (side : Bool) :
    Supplies m (Within quantity capacity) (conds side) (wanted quantity capacity side) := by
  refine ⟨?_,?_,?_⟩
  · intro op x _ on waits
    rw [← sides.same on]
    exact counter.rests waits
  · intro op x _ passes _
    rw [counter.wants passes side,signals op x passes]
    by_cases own : adds op = side
    · rw [if_pos own]
      omega
    · have other : (!adds op) = side := by
        cases one : adds op <;> cases side <;> simp [one] at own ⊢
      rw [if_neg own,other]
      simp [Notice.gain]
  · intro op x _ on passes _
    right
    rw [counter.wants passes side,if_pos (sides.same on)]
    omega

omit [DecidableEq κ] [DecidableEq τ] [Fintype τ] in
theorem Counter.announces {conds : Bool → κ} (counter : Counter p.sections quantity adds capacity) (sides : Sides p.sections adds conds)
    (broadcasts : ∀ op, p.later op = .broadcast (conds (!adds op))) (side : Bool) :
    Announces p (Within quantity capacity) (conds side) (wanted quantity capacity side) := by
  refine ⟨?_,?_⟩
  · intro op x _ on waits
    rw [← sides.same on]
    exact counter.rests waits
  · intro op x _ passes
    by_cases own : adds op = side
    · left
      rw [counter.wants passes side,if_pos own]
      omega
    · right
      have other : (!adds op) = side := by
        cases one : adds op <;> cases side <;> simp [one] at own ⊢
      rw [broadcasts,other]

theorem signals_heard {conds : Bool → κ} (counter : Counter p.sections quantity adds capacity) (sides : Sides p.sections adds conds)
    (signals : ∀ op x, p.sections.waits op x = false → (p.sections.leave op x).notice = .signal (conds (!adds op)))
    (begins : Within quantity capacity shared) : Heard p shared := by
  intro log s t run still asleep
  exact counter.level (run_within counter begins run)
    (still_supplied (counter.signals sides signals _) counter.kept begins run still asleep (sides.cond _))

theorem announces_heard {conds : Bool → κ} (counter : Counter p.sections quantity adds capacity) (sides : Sides p.sections adds conds)
    (broadcasts : ∀ op, p.later op = .broadcast (conds (!adds op))) (begins : Within quantity capacity shared) : Heard p shared := by
  intro log s t run still asleep
  exact counter.level (run_within counter begins run)
    (still_announced (counter.announces sides broadcasts _) counter.kept begins run still asleep (sides.cond _))

omit [DecidableEq κ] [DecidableEq τ] in
theorem finished_balance (finished : Finished p s) : worth (fun t => if adds (p.op t) then 1 else -1) s = balance p adds := by
  unfold worth balance
  apply Finset.sum_congr rfl
  intro t _
  rw [finished t,done_inside]

-- The sections passed by the threads of one side.
def passed (p : Program τ σ ω ρ κ) (side : ω → Bool) (s : State τ σ ω) : Nat := ∑ t, if side (p.op t) then (s.place t).done else 0

def planned (p : Program τ σ ω ρ κ) (side : ω → Bool) : Nat := ∑ t, if side (p.op t) then p.rounds t else 0

omit [DecidableEq κ] [DecidableEq τ] in
theorem signed_sides (f : τ → Nat) (side : τ → Bool) : ∑ t, (f t : Int) * (if side t then 1 else -1) + ((∑ t, if !side t then f t else 0 : Nat) : Int) =
    ((∑ t, if side t then f t else 0 : Nat) : Int) := by
  rw [Nat.cast_sum,Nat.cast_sum,← Finset.sum_add_distrib]
  apply Finset.sum_congr rfl
  intro t _
  cases side t <;> simp

omit [DecidableEq κ] [DecidableEq τ] in
theorem balance_planned : balance p adds + planned p (fun op => !adds op) = planned p adds := signed_sides p.rounds (fun t => adds (p.op t))

theorem run_passed (counter : Counter p.sections quantity adds capacity) (run : Runs (Step p) (start shared) log s) :
    quantity s.calls.shared + passed p (fun op => !adds op) s = quantity shared + passed p adds s := by
  have sum := run_balance counter run
  have sides := signed_sides (fun t => (s.place t).done) (fun t => adds (p.op t))
  change _ = _ + ∑ t, ((s.place t).done : Int) * (if adds (p.op t) then 1 else -1) at sum
  change quantity s.calls.shared + ((∑ t, if !adds (p.op t) then (s.place t).done else 0 : Nat) : Int) =
    quantity shared + ((∑ t, if adds (p.op t) then (s.place t).done else 0 : Nat) : Int)
  omega

omit [DecidableEq κ] [DecidableEq τ] in
-- Who is left behind lacks the rounds of the other side.
theorem behind_balance (placed : Placed p s) (behind : s.place t = .inside i) (more : i < p.rounds t)
    (same : ∀ u, (s.place u).done < p.rounds u → adds (p.op u) = adds (p.op t)) :
    if adds (p.op t) then worth (fun t => if adds (p.op t) then 1 else -1) s < balance p adds
    else balance p adds < worth (fun t => if adds (p.op t) then 1 else -1) s := by
  have each : ∀ u, (s.place u).done < p.rounds u ∨ (s.place u).done = p.rounds u := fun u => Nat.lt_or_eq_of_le (placed.within u)
  have own : (s.place t).done < p.rounds t := by
    rw [behind]
    exact more
  cases side : adds (p.op t) with
  | true =>
    rw [if_pos rfl]
    refine Finset.sum_lt_sum ?_ ⟨t,Finset.mem_univ t,?_⟩
    · intro u _
      rcases each u with less | done
      · dsimp only
        rw [same u less,side]
        simpa using Int.le_of_lt (Int.ofNat_lt.mpr less)
      · rw [done]
    · dsimp only
      rw [side]
      simpa using own
  | false =>
    rw [if_neg Bool.false_ne_true]
    refine Finset.sum_lt_sum ?_ ⟨t,Finset.mem_univ t,?_⟩
    · intro u _
      rcases each u with less | done
      · dsimp only
        rw [same u less,side]
        simpa using Int.le_of_lt (Int.ofNat_lt.mpr less)
      · rw [done]
    · dsimp only
      rw [side]
      simpa using own

theorem still_finished (counter : Counter p.sections quantity adds capacity) (heard : Heard p shared)
    (ends : 0 ≤ quantity shared + balance p adds ∧ quantity shared + balance p adds ≤ capacity)
    (run : Runs (Step p) (start shared) log s) (still : Still p s) : Finished p s := by
  have placed := run_placed run
  have sum := run_balance counter run
  intro t
  obtain ⟨i,here,ended | ⟨more,asleep⟩⟩ := still_cases placed still t
  · rw [here,ended]
  · exfalso
    have level := (counter.waits _ _).mp (heard _ _ _ run still asleep)
    have same : ∀ u, (s.place u).done < p.rounds u → adds (p.op u) = adds (p.op t) := by
      intro u less
      obtain ⟨j,there,done | ⟨_,sleeps⟩⟩ := still_cases placed still u
      · rw [there,done] at less
        exact absurd less (Nat.lt_irrefl _)
      · have other := (counter.waits _ _).mp (heard _ _ _ run still sleeps)
        have positive := counter.positive
        rw [level] at other
        cases one : adds (p.op u) <;> cases two : adds (p.op t) <;> simp only [one,two,if_true,if_false,Bool.false_eq_true] at other ⊢ <;> omega
    have lacks := behind_balance placed here more same
    cases side : adds (p.op t) <;> simp only [side,if_true,if_false,Bool.false_eq_true] at level lacks <;> omega

-- All threads come to their ends exactly when what their rounds change together has room.
theorem finishes_exact (counter : Counter p.sections quantity adds capacity) (begins : Within quantity capacity shared) (heard : Heard p shared) :
    (∀ log s, Runs (Step p) (start shared) log s → Still p s → Finished p s) ↔
      0 ≤ quantity shared + balance p adds ∧ quantity shared + balance p adds ≤ capacity := by
  constructor
  · intro all
    obtain ⟨log,s,run,still⟩ := reaches_still (p := p) shared
    have sum := run_balance counter run
    rw [finished_balance (all log s run still)] at sum
    rw [← sum]
    exact run_within counter begins run
  · intro ends log s run still
    exact still_finished counter heard ends run still

end

end LinuxCoding.Rounds
