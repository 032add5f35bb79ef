import Mathlib.Algebra.Ring.Int.Defs
import LinuxCoding.Library.CInt
import LinuxCoding.Library.Mutex
import LinuxCoding.Library.Transition

-- thread/posix/mysemphon/mysem.c: a counting semaphore, one step a statement under its
-- mutex.
namespace LinuxCoding.Mysem
open CInt Mutex Transition

abbrev Amount : Type := {n : Int // 0 < n ∧ n ≤ intMax}

-- Where a thread is: before the lock of mysem_add, before its broadcast, before its
-- addition; before the lock of mysem_sub, at the test of its loop, in pthread_cond_wait
-- without and with a wakeup, before its subtraction; before the unlock of either.
inductive Pc where
  | idle
  | adding (n : Amount)
  | broadcasting (n : Amount)
  | increasing (n : Amount)
  | subbing (n : Amount)
  | testing (n : Amount)
  | asleep (n : Amount)
  | notified (n : Amount)
  | decreasing (n : Amount)
  | unlocking

def Pc.holds : Pc → Bool
  | .broadcasting _ => true
  | .increasing _ => true
  | .testing _ => true
  | .decreasing _ => true
  | .unlocking => true
  | _ => false

def Pc.wake : Pc → Pc
  | .asleep n => .notified n
  | pc => pc

structure State (τ : Type) where
  value : IntValue
  owner : Option τ
  pc : τ → Pc

inductive Event (τ : Type) where
  | added (t : τ) (n : Amount)
  | subbed (t : τ) (n : Amount)

section
variable {τ : Type}

-- mysem_init
def start (initval : IntValue) : State τ := ⟨initval,none,fun _ => .idle⟩

-- An addition whose exact sum is an int.
def Sums (s : State τ) (emitted : List (Event τ)) : Prop := ∀ t n, .added t n ∈ emitted → s.value.val + n.val ≤ intMax

-- What a thread that is about to subtract, and one that sleeps, know of the value.
def Pc.Knows (value : Int) : Pc → Prop
  | .decreasing n => n.val ≤ value
  | .asleep n => value < n.val
  | _ => True

-- Between the broadcast and the addition nobody sleeps.
structure Lawful (s : State τ) : Prop where
  owned : Owned Pc.holds s.owner s.pc
  knows : ∀ t, (s.pc t).Knows s.value.val
  told : ∀ t n, s.pc t = .increasing n → ∀ u m, s.pc u ≠ .asleep m

theorem start_lawful (initval : IntValue) : Lawful (start initval : State τ) := by
  refine ⟨?_,fun _ => trivial,nofun⟩
  intro t
  constructor <;> nofun

theorem subtracted {s : State τ} (lawful : Lawful s) (here : s.pc t = .decreasing n) :
    (store (s.value.val - n.val)).val = s.value.val - n.val ∧ 0 ≤ s.value.val - n.val := by
  have enough := lawful.knows t
  rw [here] at enough
  change n.val ≤ s.value.val at enough
  have positive := n.property.1
  have most := s.value.property.2
  exact ⟨store_of_nonneg (by omega) (by omega),by omega⟩

variable [DecidableEq τ]

def State.goto (s : State τ) (t : τ) (pc : Pc) : State τ := {s with pc := Function.update s.pc t pc}

inductive Step : State τ → List (Event τ) → State τ → Prop where
  | callsAdd (t : τ) (n : Amount) : s.pc t = .idle → Step s [] (s.goto t (.adding n))
  | locksAdd (t : τ) (n : Amount) : s.pc t = .adding n → s.owner = none → Step s [] {s.goto t (.broadcasting n) with owner := some t}
  | broadcasts (t : τ) (n : Amount) : s.pc t = .broadcasting n →
      Step s [] ({s with pc := fun u => (s.pc u).wake}.goto t (.increasing n))
  | adds (t : τ) (n : Amount) : s.pc t = .increasing n →
      Step s [.added t n] {s.goto t .unlocking with value := store (s.value.val + n.val)}
  | callsSub (t : τ) (n : Amount) : s.pc t = .idle → Step s [] (s.goto t (.subbing n))
  | locksSub (t : τ) (n : Amount) : s.pc t = .subbing n ∨ s.pc t = .notified n → s.owner = none →
      Step s [] {s.goto t (.testing n) with owner := some t}
  | waits (t : τ) (n : Amount) : s.pc t = .testing n → s.value.val < n.val → Step s [] {s.goto t (.asleep n) with owner := none}
  | spurious (t : τ) (n : Amount) : s.pc t = .asleep n → Step s [] (s.goto t (.notified n))
  | passes (t : τ) (n : Amount) : s.pc t = .testing n → n.val ≤ s.value.val → Step s [] (s.goto t (.decreasing n))
  | subs (t : τ) (n : Amount) : s.pc t = .decreasing n →
      Step s [.subbed t n] {s.goto t .unlocking with value := store (s.value.val - n.val)}
  | unlocks (t : τ) : s.pc t = .unlocking → Step s [] {s.goto t .idle with owner := none}

theorem knows_put {pc : τ → Pc} (knows : ∀ u, (pc u).Knows value) (own : p.Knows value) (u : τ) : (Function.update pc t p u).Knows value := by
  by_cases same : u = t
  · subst same
    rwa [Function.update_self]
  · rw [Function.update_of_ne same]
    exact knows u

-- A step of t that puts nobody to sleep and does not lead to an addition.
theorem told_put {pc : τ → Pc} (told : ∀ u n, pc u = .increasing n → ∀ v m, pc v ≠ .asleep m)
    (own : ∀ n, p ≠ .increasing n ∧ p ≠ .asleep n) (u : τ) (n : Amount) (here : Function.update pc t p u = .increasing n) (v : τ) (m : Amount) :
    Function.update pc t p v ≠ .asleep m := by
  have there : pc u = .increasing n := by
    by_cases same : u = t
    · subst same
      rw [Function.update_self] at here
      exact absurd here (own n).1
    · rwa [Function.update_of_ne same] at here
  by_cases same : v = t
  · subst same
    rw [Function.update_self]
    exact (own m).2
  · rw [Function.update_of_ne same]
    exact told u n there v m

theorem wake_awake (pc : Pc) (n : Amount) : pc.wake ≠ .asleep n := by
  cases pc <;> nofun

theorem wake_knows {pc : Pc} (knows : pc.Knows value) : pc.wake.Knows value := by
  cases pc with
  | asleep => trivial
  | idle | adding | broadcasting | increasing | subbing | testing | notified | decreasing | unlocking => exact knows

theorem wake_holds (pc : Pc) : pc.wake.holds = pc.holds := by
  cases pc <;> rfl

-- The holder alone changes the value.
theorem others_know {s : State τ} (lawful : Lawful s) (held : (s.pc t).holds = true)
    (sleeping : ∀ u n, s.pc u = .asleep n → value < n.val) (u : τ) : (Function.update s.pc t .unlocking u).Knows value := by
  by_cases same : u = t
  · subst same
    rw [Function.update_self]
    trivial
  · rw [Function.update_of_ne same]
    cases here : s.pc u with
    | asleep n => exact sleeping u n here
    | decreasing n => exact absurd (owned_unique lawful.owned (by rw [here]; rfl) held) same
    | idle | adding | broadcasting | increasing | subbing | testing | notified | unlocking => trivial

theorem step_lawful {s u : State τ} (lawful : Lawful s) (step : Step s emitted u) (sums : Sums s emitted) : Lawful u := by
  obtain ⟨owned,knows,told⟩ := lawful
  cases step with
  | callsAdd t n here | callsSub t n here | spurious t n here =>
    exact ⟨owned_stay owned here rfl,knows_put knows trivial,told_put told (fun _ => ⟨nofun,nofun⟩)⟩
  | locksAdd t n here free =>
    exact ⟨owned_take owned free rfl,knows_put knows trivial,told_put told (fun _ => ⟨nofun,nofun⟩)⟩
  | locksSub t n here free =>
    exact ⟨owned_take owned free rfl,knows_put knows trivial,told_put told (fun _ => ⟨nofun,nofun⟩)⟩
  | broadcasts t n here =>
    refine ⟨owned_stay (owned_map owned _ wake_holds) rfl ?_,knows_put (fun v => wake_knows (knows v)) trivial,?_⟩
    · change _ = (s.pc t).wake.holds
      rw [here]
      rfl
    · intro v m _ w k
      by_cases same : w = t
      · subst same
        change Function.update _ w _ w ≠ _
        rw [Function.update_self]
        nofun
      · change Function.update _ t _ w ≠ _
        rw [Function.update_of_ne same]
        exact wake_awake _ k
  | adds t n here =>
    refine ⟨owned_stay owned here rfl,?_,told_put told (fun _ => ⟨nofun,nofun⟩)⟩
    exact others_know ⟨owned,knows,told⟩ (by rw [here]; rfl) (fun v m asleep => absurd asleep (told t n here v m))
  | waits t n here short =>
    refine ⟨owned_drop owned here rfl rfl,knows_put knows short,?_⟩
    -- The sleeper held the mutex, so that nobody is about to add.
    intro v m increasing
    by_cases same : v = t
    · subst same
      change Function.update _ v _ v = _ at increasing
      rw [Function.update_self] at increasing
      cases increasing
    · change Function.update _ t _ v = _ at increasing
      rw [Function.update_of_ne same] at increasing
      exact absurd (owned_unique owned (by rw [increasing]; rfl) (by rw [here]; rfl)) same
  | passes t n here enough =>
    exact ⟨owned_stay owned here rfl,knows_put knows enough,told_put told (fun _ => ⟨nofun,nofun⟩)⟩
  | subs t n here =>
    have exact := (subtracted ⟨owned,knows,told⟩ here).1
    refine ⟨owned_stay owned here rfl,?_,told_put told (fun _ => ⟨nofun,nofun⟩)⟩
    refine others_know ⟨owned,knows,told⟩ (by rw [here]; rfl) ?_
    intro v m asleep
    have short := knows v
    rw [asleep] at short
    change s.value.val < m.val at short
    have positive := n.property.1
    rw [exact]
    omega
  | unlocks t here =>
    exact ⟨owned_drop owned here rfl rfl,knows_put knows trivial,told_put told (fun _ => ⟨nofun,nofun⟩)⟩

-- The amounts of the additions and of the subtractions of a run.
def Event.plus : Event τ → Int
  | .added _ n => n.val
  | .subbed _ _ => 0
def Event.minus : Event τ → Int
  | .added _ _ => 0
  | .subbed _ n => n.val

def added (log : List (Event τ)) : Int := (log.map Event.plus).sum
def subbed (log : List (Event τ)) : Int := (log.map Event.minus).sum

theorem step_value {s u : State τ} (lawful : Lawful s) (step : Step s emitted u) (sums : Sums s emitted) :
    u.value.val = s.value.val + added emitted - subbed emitted := by
  cases step with
  | callsAdd | locksAdd | broadcasts | callsSub | locksSub | waits | spurious | passes | unlocks =>
    change s.value.val = s.value.val + 0 - 0
    omega
  | adds t n here =>
    have low := s.value.property.1
    have positive := n.property.1
    have exact : (store (s.value.val + n.val)).val = s.value.val + n.val := store_val (by omega) (sums t n List.mem_cons_self)
    change (store (s.value.val + n.val)).val = s.value.val + (n.val + 0) - (0 + 0)
    omega
  | subs t n here =>
    have exact := (subtracted lawful here).1
    change (store (s.value.val - n.val)).val = s.value.val + (0 + 0) - (n.val + 0)
    omega

theorem run_lawful {initval : IntValue} (run : Runs (Where Step Sums) (start initval : State τ) log s) :
    Lawful s ∧ s.value.val = initval.val + added log - subbed log := by
  refine run.invariant (I := fun log s => Lawful s ∧ s.value.val = initval.val + added log - subbed log) ?_ ⟨start_lawful initval,?_⟩
  · intro log s emitted u ⟨lawful,value⟩ ⟨step,sums⟩
    refine ⟨step_lawful lawful step sums,?_⟩
    have next := step_value lawful step sums
    have plus : added (log ++ emitted) = added log + added emitted := by rw [added,List.map_append,List.sum_append]; rfl
    have minus : subbed (log ++ emitted) = subbed log + subbed emitted := by rw [subbed,List.map_append,List.sum_append]; rfl
    omega
  · change initval.val = initval.val + 0 - 0
    omega

theorem semaphore_law {initval : IntValue} (run : Runs (Where Step Sums) (start initval : State τ) log s) :
    s.value.val = initval.val + added log - subbed log ∧
      (∀ emitted u t n, Step s emitted u → .subbed t n ∈ emitted → 0 ≤ u.value.val) ∧
      (s.owner = none → ∀ t n, s.pc t = .asleep n → s.value.val < n.val) := by
  obtain ⟨lawful,value⟩ := run_lawful run
  refine ⟨value,?_,?_⟩
  · intro emitted u t n step member
    cases step with
    | callsAdd | locksAdd | broadcasts | callsSub | locksSub | waits | spurious | passes | unlocks => cases member
    | adds => cases List.mem_singleton.mp member
    | subs t' n' here =>
      obtain ⟨exact,low⟩ := subtracted lawful here
      change 0 ≤ (store (s.value.val - n'.val)).val
      omega
  · intro _ t n asleep
    have short := lawful.knows t
    rwa [asleep] at short

end

theorem one_inRange : intMin ≤ 1 ∧ (1 : Int) ≤ intMax := by decide
theorem two_amount : 0 < (2 : Int) ∧ (2 : Int) ≤ intMax := by decide
theorem three_amount : 0 < (3 : Int) ∧ (3 : Int) ≤ intMax := by decide

def one : IntValue := ⟨1,one_inRange⟩
def two : Amount := ⟨2,two_amount⟩
def three : Amount := ⟨3,three_amount⟩

theorem quiet_sums (s : State Bool) : Sums s [] := by
  intro t n member
  cases member

-- With one left a thread that wants two sleeps until another has added three.
theorem sleeper_served : ∃ log s, Runs (Where Step Sums) (start one : State Bool) log s ∧ s.pc false = .decreasing two ∧
    s.value.val = 1 + 3 - 0 ∧ (s.owner = none → ∀ t n, s.pc t = .asleep n → s.value.val < n.val) := by
  have begins : Runs (Where Step Sums) (start one : State Bool) [] (start one) := .nil
  have wants := begins.step ⟨.callsSub false two rfl,quiet_sums _⟩
  have locks := wants.step ⟨.locksSub false two (.inl rfl) rfl,quiet_sums _⟩
  have sleeps := locks.step ⟨.waits false two rfl (by decide),quiet_sums _⟩
  have adds := (sleeps.step ⟨.callsAdd true three rfl,quiet_sums _⟩).step ⟨.locksAdd true three rfl rfl,quiet_sums _⟩
  have tells := adds.step ⟨.broadcasts true three rfl,quiet_sums _⟩
  have added := tells.step ⟨.adds true three rfl,fun t n member => by cases List.mem_singleton.mp member; decide⟩
  have woken := (added.step ⟨.unlocks true rfl,quiet_sums _⟩).step ⟨.locksSub false two (.inr rfl) rfl,quiet_sums _⟩
  have passes := woken.step ⟨.passes false two rfl (by decide),quiet_sums _⟩
  exact ⟨_,_,passes,rfl,(semaphore_law passes).1,(semaphore_law passes).2.2⟩

end LinuxCoding.Mysem
