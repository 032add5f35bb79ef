import LinuxCoding.AnyTimer.Cell

-- When the callbacks of a job are called, as long as no callback uses the timer itself.
namespace LinuxCoding.AnyTimer
open CInt Slots Transition

-- What an observer has seen of a job since its add: the ticks, its calls until it was
-- reaped, and the number of ticks before its cancellation.
structure Watch where
  ticks : Nat
  calls : List (Pointer × Pointer)
  cancelled : Option Nat
  reaped : Bool

def Watch.see (i : Slot) (w : Watch) : Event → Watch
  | .tick => {w with ticks := w.ticks + 1}
  | .fired k jobp arg => if k = i ∧ w.reaped = false then {w with calls := w.calls ++ [(jobp,arg)]} else w
  | .returned (.canceljob id) ret =>
    if id = (i : Nat) ∧ ret = 0 ∧ w.reaped = false then {w with cancelled := some w.ticks} else w
  | .returned (.waitjob id) ret => if id = (i : Nat) ∧ ret = 0 then {w with reaped := true} else w
  | .returned (.addjob _ _ _) _ => w
  | .returned (.addjobRepeat _ _ _) _ => w

def watch (i : Slot) (log : List Event) : Watch := log.foldl (Watch.see i) ⟨0,[],none,false⟩

-- The calls that k ticks make due.
def due (job : AtJobSt) (k : Nat) : Nat :=
  if job.repeats = 1 then k / job.sec.val.toNat else if job.sec.val ≤ k then 1 else 0

def Quiet (s : State) (emitted : List Event) : Prop := ∀ k, s.handler = .callback k → emitted = []

theorem see_unconcerned (w : Watch) (event : Event) (apart : ¬event.Concerns i) : w.see i event = w := by
  cases event with
  | tick => exact absurd trivial apart
  | fired k jobp arg =>
    have other : ¬k = i := apart
    simp [Watch.see,other]
  | returned call ret =>
    cases call with
    | addjob | addjobRepeat => rfl
    | canceljob id =>
      have other : ¬(id = (i : Nat) ∧ ret = 0) := apart
      simp only [Watch.see]
      rw [if_neg (fun both => other ⟨both.1,both.2.1⟩)]
    | waitjob id =>
      have other : ¬(id = (i : Nat) ∧ ret = 0) := apart
      simp only [Watch.see]
      rw [if_neg other]

@[simp] theorem see_reaped (w : Watch) : w.see i (.returned (.waitjob (i : Nat)) 0) = {w with reaped := true} := by
  simp [Watch.see]

-- A tick the handler has not come to the slot with is not seen by the job yet.
def late (phase : Phase) : Nat := if phase = .due then 1 else 0

@[simp] theorem late_settled : late .settled = 0 := rfl
@[simp] theorem late_due : late .due = 1 := rfl

-- seen ticks and made calls, with left ticks to go.
def Counted (job : AtJobSt) (seen made : Nat) (left : Int) : Prop :=
  if job.repeats = 1 then (made * job.sec.val.toNat : Nat) + job.sec.val = seen + left
  else made = 0 ∧ seen + left = job.sec.val

theorem counted_due (counted : Counted job seen made left) (low : 1 ≤ left) (high : left ≤ job.sec.val) :
    due job seen = made := by
  unfold Counted at counted
  unfold due
  split
  · rename_i repeating
    rw [if_pos repeating] at counted
    apply Nat.div_eq_of_lt_le
    · omega
    · rw [Nat.succ_mul]
      omega
  · rename_i single
    rw [if_neg single] at counted
    rw [if_neg (by omega)]
    exact counted.1.symm

theorem counted_next (counted : Counted job seen made left) : Counted job (seen + 1) made (left - 1) := by
  unfold Counted at counted ⊢
  split
  · rename_i repeating
    rw [if_pos repeating] at counted
    omega
  · rename_i single
    rw [if_neg single] at counted
    exact ⟨counted.1,by omega⟩

-- A one-shot job whose time has come.
def Past (job : AtJobSt) (k : Nat) : Prop := job.repeats ≠ 1 ∧ job.sec.val ≤ k

theorem Past.later (past : Past job k) : Past job (k + 1) := ⟨past.1,by have := past.2; omega⟩

theorem due_over (past : Past job k) : due job k = 1 := by
  unfold due
  rw [if_neg past.1,if_pos past.2]

-- The last tick of a count: a job that repeats has a whole count before it again.
theorem counted_fires (counted : Counted job seen made left) (high : left ≤ job.sec.val) (last : left - 1 = 0) :
    (job.repeats = 1 → Counted job (seen + 1) (made + 1) job.sec.val) ∧ (job.repeats ≠ 1 → made + 1 = 1 ∧ Past job (seen + 1)) := by
  unfold Counted at counted
  constructor
  · intro repeating
    rw [if_pos repeating] at counted
    rw [Counted,if_pos repeating,Nat.succ_mul]
    omega
  · intro single
    rw [if_neg single] at counted
    exact ⟨by omega,single,by omega⟩

-- What is known of an added job, by what the observer has seen and what its slot holds.
inductive Scheduled (job : AtJobSt) : Watch → Cell → Prop where
  | counting (seen made : Nat) (left : IntValue) (now : Phase) : now = .settled ∨ now = .due →
      1 ≤ left.val → left.val ≤ job.sec.val → Counted job seen made left.val →
      Scheduled job ⟨seen + late now,List.replicate made (job.jobp,job.arg),none,false⟩
        ⟨some {job with timeRemain := left},now⟩
  | firing (seen made : Nat) (left : IntValue) : (job.repeats = 1 → Counted job seen made job.sec.val) →
      (job.repeats ≠ 1 → made = 1 ∧ Past job seen) →
      Scheduled job ⟨seen,List.replicate made (job.jobp,job.arg),none,false⟩ ⟨some {job with timeRemain := left},.called⟩
  | ended (seen : Nat) (me : AtJobSt) (now : Phase) : Away now → me.jobState = .isOver → Past job seen →
      Scheduled job ⟨seen + late now,List.replicate 1 (job.jobp,job.arg),none,false⟩ ⟨some me,now⟩
  | canceled (seen k : Nat) (me : AtJobSt) (now : Phase) : Away now → me.jobState = .canceled →
      Scheduled job ⟨seen,List.replicate (due job k) (job.jobp,job.arg),some k,false⟩ ⟨some me,now⟩
  | reaped (seen : Nat) (cancelled : Option Nat) : (cancelled = none → Past job seen) →
      Scheduled job ⟨seen,List.replicate (due job (cancelled.getD seen)) (job.jobp,job.arg),cancelled,true⟩ c

-- Under Quiet the calls of the interface come between two runs of the handler.
def Calm (c : Cell) (emitted : List Event) : Prop := ∀ call ret, .returned call ret ∈ emitted → c.phase = .settled

theorem counting_step (fresh : job.jobState = .running) (between : Away now)
    (low : 1 ≤ left.val) (high : left.val ≤ job.sec.val) (counted : Counted job seen made left.val)
    (step : Cell.Step i ⟨some {job with timeRemain := left},now⟩ emitted after)
    (calm : Calm ⟨some {job with timeRemain := left},now⟩ emitted) :
    Scheduled job (emitted.foldl (Watch.see i) ⟨seen + late now,List.replicate made (job.jobp,job.arg),none,false⟩) after := by
  have most := job.sec.property.2
  have less : (store (left.val - 1)).val = left.val - 1 := store_of_nonneg (by omega) (by omega)
  cases step with
  | other apart =>
    rw [fold_unconcerned see_unconcerned apart]
    exact .counting seen made left now between low high counted
  | tick settled =>
    subst settled
    exact .counting seen made left .due (.inr rfl) low high counted
  | passed atSlot stopped => exact absurd fresh (stopped {job with timeRemain := left} rfl)
  | counted me atSlot present running more =>
    subst atSlot
    cases present
    rw [less] at more
    refine .counting (seen + 1) made (store (left.val - 1)) .settled (.inl rfl) ?_ ?_ ?_
    · rw [less]
      omega
    · rw [less]
      omega
    · rw [less]
      exact counted_next counted
  | fired me atSlot present running zero =>
    subst atSlot
    cases present
    rw [less] at zero
    have seenAll : ([Event.fired i job.jobp job.arg].foldl (Watch.see i)
        ⟨seen + late .due,List.replicate made (job.jobp,job.arg),none,false⟩) =
        ⟨seen + 1,List.replicate (made + 1) (job.jobp,job.arg),none,false⟩ := by
      simp [Watch.see,List.replicate_succ']
    rw [seenAll]
    obtain ⟨repeating,single⟩ := counted_fires counted high zero
    exact .firing (seen + 1) (made + 1) _ repeating single
  | back me atSlot => exact absurd atSlot between.uncalled
  | crashed atSlot => exact absurd atSlot between.uncalled
  | added me empty => cases empty
  | canceled me present running =>
    cases present
    have settled : now = .settled := calm _ _ List.mem_cons_self
    subst settled
    have known := counted_due counted low high
    have seenAll : ([Event.returned (.canceljob (i : Nat)) 0].foldl (Watch.see i)
        ⟨seen + late .settled,List.replicate made (job.jobp,job.arg),none,false⟩) =
        ⟨seen,List.replicate (due job seen) (job.jobp,job.arg),some seen,false⟩ := by
      simp [Watch.see,known]
    rw [seenAll]
    exact .canceled seen seen _ .settled (.inl rfl) rfl
  | reaped me present single ended =>
    cases present
    exact absurd fresh ended

theorem firing_step (fresh : job.jobState = .running) (positive : 1 ≤ job.sec.val)
    (repeating : job.repeats = 1 → Counted job seen made job.sec.val)
    (single : job.repeats ≠ 1 → made = 1 ∧ Past job seen)
    (step : Cell.Step i ⟨some {job with timeRemain := left},.called⟩ emitted after)
    (calm : Calm ⟨some {job with timeRemain := left},.called⟩ emitted) :
    Scheduled job (emitted.foldl (Watch.see i) ⟨seen,List.replicate made (job.jobp,job.arg),none,false⟩) after := by
  cases step with
  | other apart =>
    rw [fold_unconcerned see_unconcerned apart]
    exact .firing seen made left repeating single
  | tick settled => cases settled
  | passed atSlot => cases atSlot
  | counted me atSlot => cases atSlot
  | fired me atSlot => cases atSlot
  | back me atSlot present =>
    cases present
    by_cases again : job.repeats = 1
    · simp only [rearm,if_pos again]
      exact .counting seen made job.sec .settled (.inl rfl) positive (Int.le_refl _) (repeating again)
    · simp only [rearm,if_neg again]
      obtain ⟨rfl,past⟩ := single again
      exact .ended seen _ .settled (.inl rfl) rfl past
  | crashed atSlot empty => cases empty
  | added me empty => cases empty
  | canceled me present running => cases calm _ _ List.mem_cons_self
  | reaped me present _ ended =>
    cases present
    exact absurd fresh ended

-- What a step does to a job that is not running, while the handler is elsewhere.
theorem stopped_cases (between : Away now) (stopped : me.jobState ≠ .running) (step : Cell.Step i ⟨some me,now⟩ emitted after) :
    (∀ event ∈ emitted, ¬event.Concerns i) ∧ after = ⟨some me,now⟩ ∨ now = .settled ∧ emitted = [.tick] ∧ after = ⟨some me,.due⟩ ∨
      now = .due ∧ emitted = [] ∧ after = ⟨some me,.settled⟩ ∨ emitted = [.returned (.waitjob (i : Nat)) 0] ∧ after = ⟨none,now⟩ := by
  cases step with
  | other apart => exact .inl ⟨apart,rfl⟩
  | tick settled => exact .inr (.inl ⟨settled,rfl,rfl⟩)
  | passed atSlot => exact .inr (.inr (.inl ⟨atSlot,rfl,rfl⟩))
  | reaped => exact .inr (.inr (.inr ⟨rfl,rfl⟩))
  | counted other atSlot present running | fired other atSlot present running | canceled other present running =>
    cases present
    exact absurd running stopped
  | back other atSlot => exact absurd atSlot between.uncalled
  | crashed atSlot => exact absurd atSlot between.uncalled
  | added other empty => cases empty

theorem over_step (between : Away now) (isOver : me.jobState = .isOver)
    (past : Past job seen) (step : Cell.Step i ⟨some me,now⟩ emitted after) :
    Scheduled job (emitted.foldl (Watch.see i) ⟨seen + late now,List.replicate 1 (job.jobp,job.arg),none,false⟩) after := by
  have stopped : me.jobState ≠ .running := by rw [isOver]; decide
  rcases stopped_cases between stopped step with ⟨apart,rfl⟩ | ⟨rfl,rfl,rfl⟩ | ⟨rfl,rfl,rfl⟩ | ⟨rfl,rfl⟩
  · rw [fold_unconcerned see_unconcerned apart]
    exact .ended seen me now between isOver past
  · exact .ended seen me .due (.inr rfl) isOver past
  · exact .ended (seen + 1) me .settled (.inl rfl) isOver past.later
  · have later : Past job (seen + late now) := ⟨past.1,by have := past.2; omega⟩
    have reaped : Scheduled job _ ⟨none,now⟩ := .reaped (seen + late now) none (fun _ => later)
    rw [Option.getD_none,due_over later] at reaped
    simpa using reaped

theorem canceled_step (between : Away now) (canceled : me.jobState = .canceled)
    (step : Cell.Step i ⟨some me,now⟩ emitted after) :
    Scheduled job (emitted.foldl (Watch.see i) ⟨seen,List.replicate (due job k) (job.jobp,job.arg),some k,false⟩) after := by
  have stopped : me.jobState ≠ .running := by rw [canceled]; decide
  rcases stopped_cases between stopped step with ⟨apart,rfl⟩ | ⟨_,rfl,rfl⟩ | ⟨_,rfl,rfl⟩ | ⟨rfl,rfl⟩
  · rw [fold_unconcerned see_unconcerned apart]
    exact .canceled seen k me now between canceled
  · exact .canceled (seen + 1) k me .due (.inr rfl) canceled
  · exact .canceled seen k me .settled (.inl rfl) canceled
  · have reaped : Scheduled job _ ⟨none,now⟩ := .reaped seen (some k) (fun none => absurd none (by simp))
    simpa using reaped

-- The watch is over, whatever becomes of the slot.
theorem reaped_sees (emitted : List Event) (seen : Nat) (cancelled : Option Nat)
    (ended : cancelled = none → Past job seen) (after : Cell) :
    Scheduled job (emitted.foldl (Watch.see i)
      ⟨seen,List.replicate (due job (cancelled.getD seen)) (job.jobp,job.arg),cancelled,true⟩) after := by
  induction emitted generalizing seen with
  | nil => exact .reaped seen cancelled ended
  | cons event rest ih =>
    have next : Watch.see i ⟨seen,List.replicate (due job (cancelled.getD seen)) (job.jobp,job.arg),cancelled,true⟩ event =
        ⟨if event = .tick then seen + 1 else seen,
          List.replicate (due job (cancelled.getD (if event = .tick then seen + 1 else seen))) (job.jobp,job.arg),cancelled,true⟩ := by
      cases event with
      | tick =>
        cases cancelled with
        | some k => rfl
        | none =>
          have now : due job seen = 1 := due_over (ended rfl)
          have later : due job (seen + 1) = 1 := due_over (ended rfl).later
          simp [Watch.see,now,later]
      | fired => simp [Watch.see]
      | returned call ret => cases call <;> simp [Watch.see]
    rw [List.foldl_cons,next]
    apply ih
    intro none
    split
    · exact (ended none).later
    · exact ended none

theorem scheduled_step (fresh : job.jobState = .running) (positive : 1 ≤ job.sec.val) (scheduled : Scheduled job w c)
    (step : Cell.Step i c emitted after) (calm : Calm c emitted) : Scheduled job (emitted.foldl (Watch.see i) w) after := by
  cases scheduled with
  | counting seen made left now between low high counted => exact counting_step fresh between low high counted step calm
  | firing seen made left repeating single => exact firing_step fresh positive repeating single step calm
  | ended seen me now between isOver past => exact over_step between isOver past step
  | canceled seen k me now between canceled => exact canceled_step between canceled step
  | reaped seen cancelled ended => exact reaped_sees emitted seen cancelled ended after

theorem scheduled_settled (scheduled : Scheduled job w c) (settled : c.phase = .settled) :
    w.calls = List.replicate (due job (w.cancelled.getD w.ticks)) (job.jobp,job.arg) := by
  cases scheduled with
  | counting seen made left now between low high counted =>
    subst settled
    rw [Option.getD_none,show due job (seen + late .settled) = made from counted_due counted low high]
  | firing => cases settled
  | ended seen me now between isOver past =>
    subst settled
    rw [Option.getD_none,show due job (seen + late .settled) = 1 from due_over past]
  | canceled seen k me now between canceled => rfl
  | reaped seen cancelled ended => rfl

theorem quiet_calm (step : Step s emitted t) (quiet : Quiet s emitted) (i : Slot) : Calm (cell i s) emitted := by
  intro call ret returned
  rcases (step_returned step returned).1 with off | ⟨k,at_⟩
  · simp [cell,off,phase]
  · rw [quiet k at_] at returned
    cases returned

theorem watch_append (i : Slot) (log emitted : List Event) :
    watch i (log ++ emitted) = emitted.foldl (Watch.see i) (watch i log) := by simp [watch]

theorem reached_scheduled (fresh : job.jobState = .running) (full : job.timeRemain = job.sec) (positive : 1 ≤ job.sec.val)
    (added : cell i s = ⟨some job,.settled⟩) (run : Runs (Where Step Quiet) s log t) : Scheduled job (watch i log) (cell i t) := by
  apply run.invariant (I := fun log t => Scheduled job (watch i log) (cell i t))
  · intro log s emitted t scheduled step
    rw [watch_append]
    exact scheduled_step fresh positive scheduled (step_cell step.1 i) (quiet_calm step.1 step.2 i)
  · have whole : {job with timeRemain := job.sec} = job := by
      cases job
      cases full
      rfl
    have counted : Counted job 0 0 job.sec.val := by
      unfold Counted
      split <;> omega
    have counting := Scheduled.counting 0 0 job.sec .settled (.inl rfl) positive (Int.le_refl _) counted
    rw [whole] at counting
    rw [added]
    exact counting

-- For a job added in any state: `later` is what happened since, up to a moment outside
-- the handler. A cancelled job keeps the calls that were due when it was cancelled.
theorem firing_schedule {id : Int} (added : Where Step Quiet s [.returned call id] first) (request : call.request = some job)
    (accepted : 0 ≤ id) (positive : 1 ≤ job.sec.val)
    (run : Runs (Where Step Quiet) first later t) (idle : t.handler = .off) :
    ∃ i : Slot, id = (i : Nat) ∧ first.timer.job i = some job ∧
      (watch i later).calls =
        List.replicate (due job ((watch i later).cancelled.getD (watch i later).ticks)) (job.jobp,job.arg) := by
  obtain ⟨i,same,_,present,handler⟩ := added_slot added.1 request accepted
  have off : s.handler = .off := by
    rcases (step_returned added.1 List.mem_cons_self).1 with off | ⟨k,at_⟩
    · exact off
    · cases added.2 k at_
  have here : cell i first = ⟨some job,.settled⟩ := by simp [cell,present,handler,off,phase]
  have scheduled := reached_scheduled (request_new request).1 (request_new request).2 positive here run
  exact ⟨i,same,present,scheduled_settled scheduled (by simp [cell,idle,phase])⟩

-- The handler comes to the end of the table when nothing is left to run.
theorem scan_finishes {cond : State → List Event → Prop} (allowed : ∀ p s, s.handler = .scan p → cond s [])
    (togo : p + n = jobMax) (at_ : s.handler = .scan p)
    (stopped : ∀ i me, p ≤ (i : Slot) → s.timer.job i = some me → me.jobState ≠ .running) :
    Runs (Where Step cond) s [] {s with handler := .off} := by
  induction n generalizing p s with
  | zero =>
    have atEnd : s.handler = .scan jobMax := by rw [at_,← togo,Nat.add_zero]
    exact .one ⟨.finish atEnd,allowed _ s atEnd⟩
  | succ n ih =>
    let i : Slot := ⟨p,by omega⟩
    have moved : visit i s = ({s with handler := .scan (p + 1)},[]) := by
      unfold visit
      cases present : s.timer.job i with
      | none => rfl
      | some me => simp only [if_neg (stopped i me (Nat.le_refl _) present),i]
    have step := Step.visit i at_
    rw [moved] at step
    have rest := ih (p := p + 1) (s := {s with handler := .scan (p + 1)}) (by omega) rfl
      (fun k me past present => stopped k me (by omega) present)
    exact Runs.append (.one ⟨step,allowed p s at_⟩) rest

def second : IntValue := ⟨1,by decide,by decide⟩
def slot0 : Slot := ⟨0,by decide⟩

-- The table of a new process after its first add.
def oneJob (me : AtJobSt) : Timer := ⟨Function.update (fun _ => none) slot0 (some me),true⟩

theorem oneJob_slot (me : AtJobSt) : (oneJob me).job slot0 = some me := by simp [oneJob]

theorem start_adds (repeats : Int) (sec : IntValue) (jobp arg : Pointer) (enough : 0 ≤ sec.val) :
    addjob repeats true true sec jobp arg start.timer = some (oneJob (newJob repeats sec jobp arg),((slot0 : Nat) : Int)) := by
  have first : getFreePos start.timer.job = some slot0 := firstFree_first (by decide) rfl
  have accepted : ¬sec.val < 0 := by omega
  unfold addjob
  rw [if_neg accepted]
  simp only [first]
  rfl

theorem visit_oneJob (me : AtJobSt) (running : me.jobState = .running) (zero : (store (me.timeRemain.val - 1)).val = 0) :
    visit slot0 ⟨oneJob me,.ready,.scan 0⟩ =
      (⟨oneJob {me with timeRemain := store (me.timeRemain.val - 1)},.ready,.callback slot0⟩,[.fired slot0 me.jobp me.arg]) := by
  simp [visit,oneJob,State.withJob,running,zero]

theorem comeBack_oneJob (me : AtJobSt) :
    comeBack slot0 ⟨oneJob me,.ready,.callback slot0⟩ = ⟨oneJob (rearm me),.ready,.scan 1⟩ := by
  simp [comeBack,oneJob,State.withJob,slot0]

-- at_addjob(1, f, a) in a new process, its tick and its call.
def once : AtJobSt := newJob 0 second 7 9
def onceFired : AtJobSt := {once with timeRemain := store 0}

theorem once_added : Step start [.returned (.addjob second 7 9) (slot0 : Nat)] ⟨oneJob once,.ready,.off⟩ :=
  .call true true (.addjob second 7 9) rfl rfl (start_adds 0 second 7 9 (by decide))

theorem once_ticked : Step ⟨oneJob once,.ready,.off⟩ [.tick] ⟨oneJob once,.ready,.scan 0⟩ :=
  .alarm siKernel rfl (by decide) rfl

theorem once_fired : Step ⟨oneJob once,.ready,.scan 0⟩ [.fired slot0 7 9] ⟨oneJob onceFired,.ready,.callback slot0⟩ := by
  have step := Step.visit (s := ⟨oneJob once,.ready,.scan 0⟩) slot0 rfl
  rw [visit_oneJob once rfl (by decide)] at step
  exact step

theorem once_back : Step ⟨oneJob onceFired,.ready,.callback slot0⟩ [] ⟨oneJob (rearm onceFired),.ready,.scan 1⟩ := by
  have step := Step.comeBack (s := ⟨oneJob onceFired,.ready,.callback slot0⟩) slot0 rfl
  rw [comeBack_oneJob] at step
  exact step

theorem once_finishes {cond : State → List Event → Prop} (allowed : ∀ p s, s.handler = .scan p → cond s []) :
    Runs (Where Step cond) ⟨oneJob (rearm onceFired),.ready,.scan 1⟩ [] ⟨oneJob (rearm onceFired),.ready,.off⟩ := by
  apply scan_finishes (p := 1) (n := 1023) allowed rfl rfl
  intro i me past present
  have other : i ≠ slot0 := by
    intro same
    subst same
    exact absurd past (by decide)
  simp [oneJob,other] at present

theorem firing_schedule_once : ∃ later t, Runs (Where Step Quiet) ⟨oneJob once,.ready,.off⟩ later t ∧ t.handler = .off ∧
    (watch slot0 later).ticks = 1 ∧ (watch slot0 later).calls = [(7,9)] := by
  have quiet : ∀ s emitted, (s.handler = .off ∨ s.handler = .scan 0) → Quiet s emitted := by
    intro s emitted between k at_
    rw [at_] at between
    rcases between with off | scan <;> contradiction
  have tick : Where Step Quiet _ _ _ := ⟨once_ticked,quiet _ _ (.inl rfl)⟩
  have fire : Where Step Quiet _ _ _ := ⟨once_fired,quiet _ _ (.inr rfl)⟩
  have back : Where Step Quiet _ _ _ := ⟨once_back,fun _ _ => rfl⟩
  have run := (((Runs.one tick).append (.one fire)).append (.one back)).append (once_finishes (fun _ _ _ _ _ => rfl))
  obtain ⟨i,same,_,calls⟩ := firing_schedule ⟨once_added,quiet _ _ (.inl rfl)⟩ rfl (by decide) (by decide) run rfl
  cases slot_cast (i := i) (k := slot0) same
  exact ⟨_,_,run,rfl,rfl,calls⟩

end LinuxCoding.AnyTimer
