import LinuxCoding.PrimePool.Output

-- thread/posix/primer_pool_busy.c: the same mailbox without a condition variable. Who cannot
-- go on unlocks, yields the processor and locks again.
namespace LinuxCoding.PrimePool.Busy
open CInt Transition

-- As in the other program, but `yielding` is at sched_yield, and nobody is told.
inductive MainPlace where
  | forTest (i : Int)
  | locking (i : Int)
  | testing (i : Int)
  | yielding (i : Int)
  | posted (i : Int)
  | lockingEnd
  | testingEnd
  | yieldingEnd
  | closing
  | joining
  | exited

inductive WorkerPlace where
  | locking
  | testing
  | yielding
  | unlocking (i : Int)
  | computing (i : Int)
  | leaving
  | exited

structure State (n : Nat) where
  num : Int
  owner : Option (Option (Fin n))
  main : MainPlace
  worker : Fin n → WorkerPlace

inductive Event (n : Nat) where
  | yielded
  | taken (w : Fin n) (i : Int)
  | printed (w : Fin n) (i : Int)

section
variable {n : Nat}

def State.goMain (s : State n) (place : MainPlace) : State n := {s with main := place}
def State.goto (s : State n) (w : Fin n) (place : WorkerPlace) : State n := {s with worker := Function.update s.worker w place}

def start (left : Int) : State n := ⟨0,none,.forTest left,fun _ => .locking⟩

inductive Step (right : Int) : State n → List (Event n) → State n → Prop where
  | enters (i : Int) : s.main = .forTest i → i ≤ right → Step right s [] (s.goMain (.locking i))
  | ends (i : Int) : s.main = .forTest i → right < i → Step right s [] (s.goMain .lockingEnd)
  | locks (i : Int) : s.main = .locking i ∨ s.main = .yielding i → s.owner = none →
      Step right s [] {s.goMain (.testing i) with owner := some none}
  | yields (i : Int) : s.main = .testing i → s.num ≠ 0 → Step right s [.yielded] {s.goMain (.yielding i) with owner := none}
  | posts (i : Int) : s.main = .testing i → s.num = 0 → Step right s [] {s.goMain (.posted i) with num := i}
  | unlocks (i : Int) : s.main = .posted i → Step right s [] {s.goMain (.forTest (toInt (i + 1))) with owner := none}
  | locksEnd : s.main = .lockingEnd ∨ s.main = .yieldingEnd → s.owner = none →
      Step right s [] {s.goMain .testingEnd with owner := some none}
  | yieldsEnd : s.main = .testingEnd → s.num ≠ 0 → Step right s [] {s.goMain .yieldingEnd with owner := none}
  | closes : s.main = .testingEnd → s.num = 0 → Step right s [] {s.goMain .closing with num := -1}
  | unlocksEnd : s.main = .closing → Step right s [] {s.goMain .joining with owner := none}
  | joins : s.main = .joining → (∀ w, s.worker w = .exited) → Step right s [] (s.goMain .exited)
  | workerLocks (w : Fin n) : s.worker w = .locking ∨ s.worker w = .yielding → s.owner = none →
      Step right s [] {s.goto w .testing with owner := some (some w)}
  | workerYields (w : Fin n) : s.worker w = .testing → s.num = 0 → Step right s [.yielded] {s.goto w .yielding with owner := none}
  | leaves (w : Fin n) : s.worker w = .testing → s.num = -1 → Step right s [] (s.goto w .leaving)
  | takes (w : Fin n) : s.worker w = .testing → s.num ≠ 0 → s.num ≠ -1 →
      Step right s [.taken w s.num] {s.goto w (.unlocking s.num) with num := 0}
  | workerUnlocks (w : Fin n) (i : Int) : s.worker w = .unlocking i → Step right s [] {s.goto w (.computing i) with owner := none}
  | prints (w : Fin n) (i : Int) : s.worker w = .computing i →
      Step right s (if mark i then [.printed w i] else []) (s.goto w .locking)
  | exits (w : Fin n) : s.worker w = .leaving → Step right s [] {s.goto w .exited with owner := none}

-- A thread that yields is one that has slept and stirred by itself.
def MainPlace.above : MainPlace → PrimePool.MainPlace
  | .forTest i => .forTest i
  | .locking i => .locking i
  | .testing i => .testing i
  | .yielding i => .notified i
  | .posted i => .posted i
  | .lockingEnd => .lockingEnd
  | .testingEnd => .testingEnd
  | .yieldingEnd => .lockingEnd
  | .closing => .closing
  | .joining => .joining
  | .exited => .exited

def WorkerPlace.above : WorkerPlace → PrimePool.WorkerPlace
  | .locking => .locking
  | .testing => .testing
  | .yielding => .notified
  | .unlocking i => .unlocking i
  | .computing i => .computing i
  | .leaving => .leaving
  | .exited => .exited

def Event.above : Event n → PrimePool.Event n
  | .yielded => .stirred
  | .taken w i => .taken w i
  | .printed w i => .printed w i

def State.above (s : State n) : PrimePool.State n := ⟨s.num,s.owner,s.main.above,fun w => (s.worker w).above⟩

theorem above_update (worker : Fin n → WorkerPlace) (w : Fin n) (place : WorkerPlace) :
    (fun v => (Function.update worker w place v).above) = Function.update (fun v => (worker v).above) w place.above := by
  funext v
  by_cases same : v = w
  · subst same
    rw [Function.update_self,Function.update_self]
  · rw [Function.update_of_ne same,Function.update_of_ne same]

-- The worker's move, seen from above.
theorem above_put (num : Int) (owner : Option (Option (Fin n))) (main : MainPlace) (worker : Fin n → WorkerPlace) (w : Fin n) (place : WorkerPlace) :
    (State.mk num owner main (Function.update worker w place)).above =
      ⟨num,owner,main.above,Function.update (fun v => (worker v).above) w place.above⟩ :=
  congrArg (PrimePool.State.mk num owner main.above) (above_update worker w place)

-- Nobody is asleep there, so a broadcast changes nothing.
theorem above_awake (place : WorkerPlace) : place.above ≠ .asleep := by
  cases place <;> nofun

theorem above_wake (place : WorkerPlace) : place.above.wake = place.above := by
  cases place <;> rfl

theorem above_wakeMain (place : MainPlace) : place.above.wake = place.above := by
  cases place <;> rfl

variable {right : Int} {s u : State n}

theorem at_main (here : s.main = place) : s.above.main = place.above := congrArg MainPlace.above here
theorem at_worker (here : s.worker w = place) : s.above.worker w = place.above := congrArg WorkerPlace.above here

theorem step_refines (step : Step right s emitted u) : Runs (PrimePool.Step right) s.above (emitted.map Event.above) u.above := by
  cases step with
  | enters i here low => exact .one (.enters i (at_main here) low)
  | ends i here high => exact .one (.ends i (at_main here) high)
  | locks i here free => exact .one (.locks i (here.imp at_main at_main) free)
  | yields i here busy =>
    have slept : PrimePool.Step right s.above [] {s.above.goMain (.asleep i) with owner := none} := .waits i (at_main here) busy
    exact (Runs.one slept).step (.stirs i rfl)
  | posts i here empty =>
    have posted : PrimePool.Step right s.above [] {s.above.goMain (.signaling i) with num := i} := .posts i (at_main here) empty
    exact (Runs.one posted).step (.signalsNobody i rfl (fun w => above_awake (s.worker w)))
  | unlocks i here => exact .one (.unlocks i (at_main here))
  | locksEnd here free => exact .one (.locksEnd (here.elim at_main at_main) free)
  | yieldsEnd here busy => exact .one (.yields (at_main here) busy)
  | closes here empty =>
    have closed : PrimePool.Step right s.above [] {s.above.goMain .broadcasting with num := -1} := .closes (at_main here) empty
    have same : ({s.above.goMain .broadcasting with num := -1} : PrimePool.State n).wakeAll.goMain .closing = ({s.goMain .closing with num := -1} : State n).above :=
      congrArg (PrimePool.State.mk (-1) s.owner .closing) (funext (fun w => above_wake (s.worker w)))
    rw [← same]
    exact (Runs.one closed).step (.broadcasts rfl)
  | unlocksEnd here => exact .one (.unlocksEnd (at_main here))
  | joins here gone => exact .one (.joins (at_main here) (fun w => at_worker (gone w)))
  | workerLocks w here free =>
    change Runs _ _ _ (State.mk s.num (some (some w)) s.main (Function.update s.worker w .testing)).above
    rw [above_put]
    exact .one (.workerLocks w (here.imp at_worker at_worker) free)
  | workerYields w here empty =>
    change Runs _ _ _ (State.mk s.num none s.main (Function.update s.worker w .yielding)).above
    rw [above_put]
    have slept : PrimePool.Step right s.above [] {s.above.goto w .asleep with owner := none} := .workerWaits w (at_worker here) empty
    have stirred := (Runs.one slept).step (.workerStirs w (Function.update_self ..))
    simp only [PrimePool.State.goto,Function.update_idem] at stirred
    exact stirred
  | leaves w here shut =>
    change Runs _ _ _ (State.mk s.num s.owner s.main (Function.update s.worker w .leaving)).above
    rw [above_put]
    exact .one (.leaves w (at_worker here) shut)
  | takes w here nonzero job =>
    change Runs _ _ _ (State.mk 0 s.owner s.main (Function.update s.worker w (.unlocking s.num))).above
    have took : PrimePool.Step right s.above [.taken w s.num] {s.above.goto w (.broadcasting s.num) with num := 0} :=
      .takes w (at_worker here) nonzero job
    have told := (Runs.one took).step (.workerBroadcasts w s.num (Function.update_self ..))
    have same : ({s.above.goto w (.broadcasting s.num) with num := 0} : PrimePool.State n).wakeAll.goto w (.unlocking s.num) =
        (State.mk 0 s.owner s.main (Function.update s.worker w (.unlocking s.num))).above := by
      rw [above_put]
      refine congr (congrArg (PrimePool.State.mk 0 s.owner) (above_wakeMain s.main)) ?_
      funext v
      by_cases own : v = w
      · subst own
        rw [Function.update_self,Function.update_self]
        rfl
      · rw [Function.update_of_ne own,Function.update_of_ne own]
        change (Function.update (fun v => (s.worker v).above) w (.broadcasting s.num) v).wake = _
        rw [Function.update_of_ne own]
        exact above_wake (s.worker v)
    rw [same] at told
    exact told
  | workerUnlocks w i here =>
    change Runs _ _ _ (State.mk s.num none s.main (Function.update s.worker w (.computing i))).above
    rw [above_put]
    exact .one (.workerUnlocks w i (at_worker here))
  | prints w i here =>
    change Runs _ _ _ (State.mk s.num s.owner s.main (Function.update s.worker w .locking)).above
    have shown : (if mark i then [(Event.printed w i : Event n)] else []).map Event.above = if mark i then [.printed w i] else [] := by
      split <;> rfl
    rw [above_put,shown]
    exact .one (.prints w i (at_worker here))
  | exits w here =>
    change Runs _ _ _ (State.mk s.num none s.main (Function.update s.worker w .exited)).above
    rw [above_put]
    exact .one (.exits w (at_worker here))

theorem run_refines (run : Runs (Step right) (start left : State n) log s) :
    Runs (PrimePool.Step right) (PrimePool.start left) (log.map Event.above) s.above := by
  have matched : ∀ (s : State n) t emitted u, t = s.above → Step right s emitted u →
      ∃ v, Runs (PrimePool.Step right) t (emitted.map Event.above) v ∧ v = u.above := by
    rintro s _ emitted u rfl step
    exact ⟨_,step_refines step,rfl⟩
  obtain ⟨_,path,rfl⟩ := run.simulation List.map_nil (fun _ _ => List.map_append) matched rfl
  exact path

-- What is left to do: a number is put into num, taken and printed, and every thread goes.
def MainPlace.stage : MainPlace → Nat
  | .closing | .joining => 1
  | .exited => 0
  | _ => 2

def WorkerPlace.stage : WorkerPlace → Nat
  | .locking | .testing | .yielding => 2
  | .unlocking _ | .computing _ => 3
  | .leaving => 1
  | .exited => 0

def rank (right : Int) (s : State n) : Nat :=
  3 * (right + 1 - s.main.above.given right).toNat + 2 * (unread s.num).length + s.main.stage + Total.total WorkerPlace.stage s.worker

-- Who frees the mutex gets on as well.
def measure (right : Int) (s : State n) : Nat := 2 * rank right s + (if s.owner = none then 0 else 1)

def Toward (right : Int) (s : State n) : Prop := ∃ log t, Runs (Step right) s log t ∧ measure right t < measure right s

theorem measure_less (less : rank right u < rank right s) : measure right u < measure right s := by
  unfold measure
  split <;> split <;> omega

theorem measure_frees (held : s.owner ≠ none) (free : u.owner = none) (same : rank right u ≤ rank right s) : measure right u < measure right s := by
  rw [measure,measure,if_pos free,if_neg held]
  omega

theorem rank_worker (more : Nat) (num : Int) (owner : Option (Option (Fin n))) (here : s.worker w = old)
    (less : 2 * (unread num).length + place.stage + more ≤ 2 * (unread s.num).length + old.stage) :
    rank right ⟨num,owner,s.main,Function.update s.worker w place⟩ + more ≤ rank right s := by
  have sum := Total.total_update WorkerPlace.stage s.worker w place
  rw [here] at sum
  unfold rank
  dsimp only
  omega

theorem rank_main (more : Nat) (num : Int) (owner : Option (Option (Fin n))) (here : s.main = old)
    (less : 3 * (right + 1 - place.above.given right).toNat + 2 * (unread num).length + place.stage + more ≤
      3 * (right + 1 - old.above.given right).toNat + 2 * (unread s.num).length + old.stage) :
    rank right ⟨num,owner,place,s.worker⟩ + more ≤ rank right s := by
  unfold rank
  rw [here]
  dsimp only
  omega

theorem job_unread (nonzero : num ≠ 0) (job : num ≠ -1) : (unread num).length = 1 := by
  rw [unread,if_neg (by omega)]
  rfl

-- Who is in the critical section puts a number into num, takes one out, leaves for good or
-- lets the others in.
theorem testing_toward (here : s.worker w = .testing) (held : s.owner ≠ none) : Toward right s := by
  by_cases empty : s.num = 0
  · exact ⟨_,_,.one (.workerYields w here empty),measure_frees held rfl (rank_worker 0 s.num none here (Nat.le_refl _))⟩
  by_cases shut : s.num = -1
  · exact ⟨_,_,.one (.leaves w here shut),measure_less (rank_worker 1 s.num s.owner here (Nat.le_refl _))⟩
  · refine ⟨_,_,.one (.takes w here empty shut),measure_less (rank_worker 1 0 s.owner here ?_)⟩
    rw [job_unread empty shut]
    exact Nat.le_refl _

theorem posting_less {i : Int} (high : i ≤ right) :
    3 * (right + 1 - (MainPlace.posted i).above.given right).toNat + 2 * (unread i).length + (MainPlace.posted i).stage + 1 ≤
      3 * (right + 1 - i).toNat + 2 * (unread s.num).length + 2 := by
  have room : (unread i).length ≤ 1 := by
    unfold unread
    split <;> simp
  change 3 * (right + 1 - (i + 1)).toNat + 2 * (unread i).length + 2 + 1 ≤ _
  omega

theorem holder_toward (locked : Locked s.above) (within : s.above.main.Within left right) (positive : 1 ≤ left) (small : right < intMax)
    (held : s.owner = some t) : Toward right s := by
  have owned : s.owner ≠ none := by rw [held]; nofun
  have inside := (locked t).mp held
  cases t with
  | none =>
    change s.main.above.holds = true at inside
    change s.main.above.Within left right at within
    cases here : s.main with
    | testing i =>
      rw [here] at within
      by_cases empty : s.num = 0
      · have spent : rank right ⟨i,s.owner,.posted i,s.worker⟩ + 1 ≤ rank right s := rank_main 1 i s.owner here (posting_less within.2)
        exact ⟨_,_,.one (.posts i here empty),measure_less spent⟩
      · exact ⟨_,_,.one (.yields i here empty),measure_frees owned rfl (rank_main 0 s.num none here (Nat.le_refl _))⟩
    | posted i =>
      rw [here] at within
      have low : left ≤ i := within.1
      have high : i ≤ right := within.2
      have next : toInt (i + 1) = i + 1 := toInt_of_nonneg (by omega) (by omega)
      refine ⟨_,_,.one (.unlocks i here),measure_frees owned rfl (rank_main 0 s.num none here ?_)⟩
      rw [next]
      exact Nat.le_refl _
    | testingEnd =>
      by_cases empty : s.num = 0
      · refine ⟨_,_,.one (.closes here empty),measure_less (rank_main 1 (-1) s.owner here ?_)⟩
        rw [empty]
        exact Nat.le_refl _
      · exact ⟨_,_,.one (.yieldsEnd here empty),measure_frees owned rfl (rank_main 0 s.num none here (Nat.le_refl _))⟩
    | closing => exact ⟨_,_,.one (.unlocksEnd here),measure_frees owned rfl (rank_main 0 s.num none here (Nat.le_refl _))⟩
    | forTest | locking | yielding | lockingEnd | yieldingEnd | joining | exited =>
      rw [here] at inside
      cases inside
  | some w =>
    change (s.worker w).above.holds = true at inside
    cases here : s.worker w with
    | testing => exact testing_toward here owned
    | unlocking i => exact ⟨_,_,.one (.workerUnlocks w i here),measure_frees owned rfl (rank_worker 0 s.num none here (Nat.le_refl _))⟩
    | leaving => exact ⟨_,_,.one (.exits w here),measure_less (rank_worker 1 s.num none here (Nat.le_refl _))⟩
    | locking | yielding | computing | exited =>
      rw [here] at inside
      cases inside

-- With the mutex free nobody is in there.
theorem worker_outside (locked : Locked s.above) (free : s.owner = none) (w : Fin n) : (s.worker w).above.holds = false := by
  by_contra holds
  have owned := (locked (some w)).mpr (eq_true_of_ne_false holds)
  rw [show s.above.owner = none from free] at owned
  cases owned

theorem main_outside (locked : Locked s.above) (free : s.owner = none) : s.main.above.holds = false := by
  by_contra holds
  have owned := (locked none).mpr (eq_true_of_ne_false holds)
  rw [show s.above.owner = none from free] at owned
  cases owned

-- A worker that has not gone gets on when there is something for it.
theorem worker_toward (locked : Locked s.above) (free : s.owner = none) (stays : s.worker w ≠ .exited) (nonzero : s.num ≠ 0) : Toward right s := by
  have outside := worker_outside locked free w
  have enter : s.worker w = .locking ∨ s.worker w = .yielding → Toward right s := by
    intro waits
    have two : (s.worker w).stage = 2 := by rcases waits with here | here <;> rw [here] <;> rfl
    have locks : Step right s [] {s.goto w .testing with owner := some (some w)} := .workerLocks w waits free
    have here : (Function.update s.worker w .testing) w = .testing := Function.update_self ..
    by_cases shut : s.num = -1
    · refine ⟨_,_,(Runs.one locks).step (.leaves w here shut),measure_less ?_⟩
      simp only [State.goto,Function.update_idem]
      refine rank_worker 1 s.num _ rfl ?_
      rw [two]
      exact Nat.le_refl _
    · refine ⟨_,_,(Runs.one locks).step (.takes w here nonzero shut),measure_less ?_⟩
      simp only [State.goto,Function.update_idem]
      refine rank_worker 1 0 _ rfl ?_
      rw [two,job_unread nonzero shut]
      exact Nat.le_refl _
  cases here : s.worker w with
  | exited => exact absurd here stays
  | testing | unlocking | leaving =>
    rw [here] at outside
    cases outside
  | locking => exact enter (.inl here)
  | yielding => exact enter (.inr here)
  | computing i => exact ⟨_,_,.one (.prints w i here),measure_less (rank_worker 1 s.num s.owner here (Nat.le_refl _))⟩

-- Main puts its number into the empty num, or the -1 once there are no more.
theorem locks_toward (waits : s.main = .locking i ∨ s.main = .yielding i) (high : i ≤ right) (free : s.owner = none)
    (empty : s.num = 0) : Toward right s := by
  have given : s.main.above.given right = i := by rcases waits with here | here <;> rw [here] <;> rfl
  have stage : s.main.stage = 2 := by rcases waits with here | here <;> rw [here] <;> rfl
  have locks : Step right s [] {s.goMain (.testing i) with owner := some none} := .locks i waits free
  have spent : rank right ⟨i,some none,.posted i,s.worker⟩ + 1 ≤ rank right s := by
    refine rank_main 1 i (some none) rfl ?_
    rw [given,stage]
    exact posting_less high
  exact ⟨_,_,(Runs.one locks).step (.posts i rfl empty),measure_less spent⟩

theorem ends_toward (waits : s.main = .lockingEnd ∨ s.main = .yieldingEnd) (free : s.owner = none) (empty : s.num = 0) : Toward right s := by
  have given : s.main.above.given right = right + 1 := by rcases waits with here | here <;> rw [here] <;> rfl
  have stage : s.main.stage = 2 := by rcases waits with here | here <;> rw [here] <;> rfl
  have locks : Step right s [] {s.goMain .testingEnd with owner := some none} := .locksEnd waits free
  have spent : rank right ⟨-1,some none,.closing,s.worker⟩ + 1 ≤ rank right s := by
    refine rank_main 1 (-1) (some none) rfl ?_
    rw [given,stage,empty]
    exact Nat.le_refl _
  exact ⟨_,_,(Runs.one locks).step (.closes rfl empty),measure_less spent⟩

theorem Toward.first (toward : Toward right u) (step : Step right s emitted u) (same : measure right u = measure right s) : Toward right s := by
  obtain ⟨log,t,run,less⟩ := toward
  exact ⟨_,t,(Runs.one step).append run,same ▸ less⟩

theorem main_toward (ledger : Ledger left right done s.above) (outside : s.main.above.holds = false) (free : s.owner = none)
    (empty : s.num = 0) : Toward right s := by
  have opened : s.main.above.closed = false := by
    cases closed : s.main.above.closed with
    | false => rfl
    | true =>
      have shut : s.num = -1 := ledger.shut.mpr closed
      rw [empty] at shut
      cases shut
  have within : s.main.above.Within left right := ledger.within
  cases here : s.main with
  | forTest i =>
    rw [here] at within
    have most : i ≤ right + 1 := within.2
    by_cases more : i ≤ right
    · have toward : Toward right (s.goMain (.locking i)) := locks_toward (.inl rfl) more free empty
      refine toward.first (.enters i here more) ?_
      simp only [measure,rank,State.goMain,here]
      rfl
    · have last : i = right + 1 := by omega
      have toward : Toward right (s.goMain .lockingEnd) := ends_toward (.inl rfl) free empty
      refine toward.first (.ends i here (by omega)) ?_
      simp only [measure,rank,State.goMain,here,last]
      rfl
  | locking i =>
    rw [here] at within
    exact locks_toward (.inl here) within.2 free empty
  | yielding i =>
    rw [here] at within
    exact locks_toward (.inr here) within.2 free empty
  | lockingEnd => exact ends_toward (.inl here) free empty
  | yieldingEnd => exact ends_toward (.inr here) free empty
  | testing | posted | testingEnd =>
    rw [here] at outside
    cases outside
  | closing | joining | exited =>
    rw [here] at opened
    cases opened

theorem onward (crew : 0 < n) (positive : 1 ≤ left) (small : right < intMax) (locked : Locked s.above) (ledger : Ledger left right done s.above) :
    s.main = .exited ∨ Toward right s := by
  cases held : s.owner with
  | some t => exact .inr (holder_toward locked ledger.within positive small held)
  | none =>
    have outside := main_outside locked held
    by_cases empty : s.num = 0
    · exact .inr (main_toward ledger outside held empty)
    by_cases shut : s.num = -1
    · have closed : s.main.above.closed = true := ledger.shut.mp shut
      cases here : s.main with
      | exited => exact .inl rfl
      | joining =>
        refine .inr ?_
        by_cases gone : ∀ w, s.worker w = .exited
        · exact ⟨_,_,.one (.joins here gone),measure_less (rank_main 1 s.num s.owner here (Nat.le_refl _))⟩
        · obtain ⟨w,stays⟩ := not_forall.mp gone
          exact worker_toward locked held stays empty
      | closing =>
        rw [here] at outside
        cases outside
      | forTest | locking | testing | yielding | posted | lockingEnd | testingEnd | yieldingEnd =>
        rw [here] at closed
        cases closed
    · refine .inr (worker_toward (w := ⟨0,crew⟩) locked held ?_ empty)
      intro left
      refine shut (ledger.gone ⟨0,crew⟩ ?_)
      rw [at_worker left]
      rfl

structure Serves (left right : Int) (log : List (Event n)) (s : State n) : Prop where
  prints : Prints left right (log.map Event.above) (s.main = .exited)
  joined : s.main = .exited → ∀ w, s.worker w = .exited
  ends : ∃ more t, Runs (Step right) s more t ∧ t.main = .exited

-- Polling does not change what is printed, and from every state the program can still end.
theorem busy_exact (positive : 1 ≤ left) (order : left ≤ right) (small : right < intMax) (crew : 0 < n)
    (run : Runs (Step right) (start left) log s) : Serves left right log s := by
  have reach : ∀ {log} {s : State n}, Runs (Step right) (start left) log s → Sound left right (log.map Event.above) s.above :=
    fun run => run_sound positive order small crew (run_refines run)
  have prints := sound_prints positive (reach run) (run_output (run_refines run))
  refine ⟨⟨prints.once,prints.only,fun ended => prints.all (at_main ended)⟩,?_,?_⟩
  · intro ended w
    have gone := (reach run).joined (at_main ended) w
    change (s.worker w).above = .exited at gone
    cases here : s.worker w <;> rw [here] at gone <;> first | rfl | cases gone
  · refine Runs.descends (I := fun s => ∃ log, Runs (Step right) (start left) log s) (measure right) ?_ ⟨log,run⟩
    rintro s ⟨log,run⟩
    have sound := reach run
    refine (onward crew positive small sound.locked sound.ledger).imp id ?_
    rintro ⟨more,t,path,less⟩
    exact ⟨more,t,path,⟨_,run.append path⟩,less⟩

theorem busy_four : Serves 30000000 30000200 [] (start 30000000 : State 4) :=
  busy_exact (by decide) (by decide) (by decide) (by decide) .nil

end

end LinuxCoding.PrimePool.Busy
