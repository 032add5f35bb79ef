import LinuxCoding.AnyTimer.Schedule

-- Every job expires. An add with sec = 0 passes the check sec < 0, and the handler
-- decrements its time_remain of 0 before comparing it with 0.
namespace LinuxCoding.AnyTimer
open CInt Slots Transition

-- No add with sec = 0, and no callback that waits for its own one-shot job.
structure Sane (s : State) (emitted : List Event) : Prop where
  positive : ∀ call me ret, .returned call ret ∈ emitted → call.request = some me → me.sec.val ≠ 0
  stays : ∀ i me ret, s.handler = .callback i → s.timer.job i = some me → me.repeats ≠ 1 →
    .returned (.waitjob (i : Nat)) ret ∉ emitted

def CellSane (i : Slot) (c : Cell) (emitted : List Event) : Prop :=
  (∀ call me ret, .returned call ret ∈ emitted → call.request = some me → me.sec.val ≠ 0) ∧
    ∀ me ret, c.phase = .called → c.job = some me → me.repeats ≠ 1 → .returned (.waitjob (i : Nat)) ret ∉ emitted

theorem Sane.cell (sane : Sane s emitted) (i : Slot) : CellSane i (cell i s) emitted :=
  ⟨sane.positive,fun me ret called present single => sane.stays i me ret (handler_called called) present single⟩

-- A running job has its time left, except while it is being called.
structure Timed (c : Cell) : Prop where
  bounded : ∀ me, c.job = some me → me.jobState = .running →
    1 ≤ me.sec.val ∧ me.timeRemain.val ≤ me.sec.val ∧ (c.phase ≠ .called → 1 ≤ me.timeRemain.val)
  present : c.phase = .called → ∃ me, c.job = some me

theorem decrement (low : 1 ≤ (n : IntValue).val) : (store (n.val - 1)).val = n.val - 1 := by
  have high := n.property.2
  exact store_of_nonneg (by omega) (by omega)

theorem Timed.empty (idle : now ≠ .called) : Timed ⟨none,now⟩ := by
  refine ⟨?_,fun called => absurd called idle⟩
  intro me present
  cases present

theorem Timed.away (away : Away now) (bounded : ∀ me, job = some me → me.jobState = .running →
    1 ≤ me.sec.val ∧ me.timeRemain.val ≤ me.sec.val ∧ 1 ≤ me.timeRemain.val) : Timed ⟨job,now⟩ := by
  refine ⟨?_,fun called => absurd called away.uncalled⟩
  intro me present running
  obtain ⟨positive,high,low⟩ := bounded me present running
  exact ⟨positive,high,fun _ => low⟩

theorem timed_step (timed : Timed c) (step : Cell.Step i c emitted after) (sane : CellSane i c emitted) : Timed after := by
  cases step with
  | other apart => exact timed
  | tick settled =>
    refine .away (.inr rfl) ?_
    intro me present running
    obtain ⟨positive,high,low⟩ := timed.bounded me present running
    exact ⟨positive,high,low (by rw [settled]; decide)⟩
  | passed due stopped =>
    refine .away (.inl rfl) ?_
    intro me present running
    exact absurd running (stopped me present)
  | counted me due present running more =>
    refine .away (.inl rfl) ?_
    intro other same _
    cases same
    obtain ⟨positive,high,low⟩ := timed.bounded me present running
    have enough := low (by rw [due]; decide)
    have less := decrement enough
    refine ⟨positive,?_,?_⟩
    · change (store (me.timeRemain.val - 1)).val ≤ me.sec.val
      omega
    · change 1 ≤ (store (me.timeRemain.val - 1)).val
      omega
  | fired me due present running zero =>
    refine ⟨?_,fun _ => ⟨_,rfl⟩⟩
    intro other same _
    cases same
    obtain ⟨positive,high,low⟩ := timed.bounded me present running
    refine ⟨positive,?_,fun past => absurd rfl past⟩
    change (store (me.timeRemain.val - 1)).val ≤ me.sec.val
    omega
  | back me called present =>
    refine .away (.inl rfl) ?_
    intro other same running
    cases same
    by_cases again : me.repeats = 1
    · simp only [rearm,if_pos again] at running ⊢
      obtain ⟨positive,_⟩ := timed.bounded me present running
      exact ⟨positive,Int.le_refl _,positive⟩
    · simp only [rearm,if_neg again] at running
      cases running
  | crashed called empty => exact .empty (by decide)
  | @added _ call me empty request enough =>
    refine ⟨?_,fun _ => ⟨me,rfl⟩⟩
    intro other same running
    cases same
    have nonzero := sane.1 call me _ List.mem_cons_self request
    rw [(request_new request).2]
    exact ⟨by omega,Int.le_refl _,fun _ => by omega⟩
  | canceled me present running =>
    refine ⟨?_,fun _ => ⟨_,rfl⟩⟩
    intro other same still
    cases same
    cases still
  | reaped me present single ended =>
    apply Timed.empty
    intro called
    have called : c.phase = .called := called
    have once := single (by rw [called]; decide)
    exact sane.2 me 0 called present once List.mem_cons_self

theorem reached_timed (run : Runs (Where Step Sane) start log s) (i : Slot) : Timed (cell i s) := by
  apply run.stateInvariant (I := fun s => Timed (cell i s))
  · exact fun _ _ _ timed step => timed_step timed (step_cell step.1 i) (step.2.cell i)
  · have blank : Timed ⟨none,.settled⟩ := .empty (by decide)
    exact blank

def ticks (log : List Event) : Nat := log.count .tick

-- The job of a slot was called or cancelled.
def Ended (i : Slot) (job : AtJobSt) (log : List Event) : Prop :=
  .fired i job.jobp job.arg ∈ log ∨ .returned (.canceljob (i : Nat)) 0 ∈ log

theorem Ended.append (ended : Ended i job log) (more : List Event) : Ended i job (log ++ more) := by
  rcases ended with fired | canceled
  · exact .inl (List.mem_append_left _ fired)
  · exact .inr (List.mem_append_left _ canceled)

-- What no step changes in a job.
def Same (me job : AtJobSt) : Prop := me.repeats = job.repeats ∧ me.jobp = job.jobp ∧ me.arg = job.arg

@[simp] theorem ticks_append (log more : List Event) : ticks (log ++ more) = ticks log + ticks more := List.count_append ..

@[simp] theorem ticks_tick : ticks [.tick] = 1 := rfl

-- A job added at the beginning of the log: it is still running and has used a tick of
-- its time for each one seen, or it has ended and a one-shot job can be reaped.
inductive Awaited (i : Slot) (job : AtJobSt) (log : List Event) : Cell → Prop where
  | running (me : AtJobSt) : c.job = some me → me.jobState = .running → Same me job →
      Away c.phase →
      me.timeRemain.val + ticks log ≤ job.sec.val + late c.phase → Awaited i job log c
  | ended (me : AtJobSt) : Ended i job log → c.job = some me → me.repeats = job.repeats →
      (job.repeats ≠ 1 → me.jobState = .running → c.phase = .called) → Awaited i job log c
  | reaped : Ended i job log → .returned (.waitjob (i : Nat)) 0 ∈ log → Awaited i job log c

theorem ticks_unconcerned (apart : ∀ event ∈ emitted, ¬Event.Concerns i event) : ticks emitted = 0 := by
  unfold ticks
  rw [List.count_eq_zero]
  intro present
  exact apart .tick present trivial

theorem running_step {me job : AtJobSt} (running : me.jobState = .running) (same : Same me job) (between : Away now)
    (low : 1 ≤ me.timeRemain.val) (used : me.timeRemain.val + ticks log ≤ job.sec.val + late now)
    (step : Cell.Step i ⟨some me,now⟩ emitted after) : Awaited i job (log ++ emitted) after := by
  cases step with
  | other apart =>
    refine .running me rfl running same between ?_
    rw [ticks_append,ticks_unconcerned apart]
    exact used
  | tick settled =>
    subst settled
    refine .running me rfl running same (.inr rfl) ?_
    rw [ticks_append,ticks_tick,late_due]
    rw [late_settled] at used
    omega
  | passed due stopped => exact absurd running (stopped me rfl)
  | counted own due found still more =>
    subst due
    cases found
    have less := decrement low
    rw [late_due] at used
    refine .running _ rfl running same (.inl rfl) ?_
    rw [List.append_nil,late_settled]
    change (store (me.timeRemain.val - 1)).val + ticks log ≤ job.sec.val + (0 : Nat)
    omega
  | fired own due found still zero =>
    cases found
    exact .ended _ (.inl (by simp [same.2.1,same.2.2])) rfl same.1 (fun _ _ => rfl)
  | back own called | crashed called => exact absurd called between.uncalled
  | added own empty => cases empty
  | canceled own found still =>
    cases found
    exact .ended _ (.inr (by simp)) rfl same.1 (fun _ again => by cases again)
  | reaped own found single ended =>
    cases found
    exact absurd running ended

theorem ended_step {me job : AtJobSt} (finished : Ended i job log) (same : me.repeats = job.repeats)
    (idle : job.repeats ≠ 1 → me.jobState = .running → now = .called)
    (step : Cell.Step i ⟨some me,now⟩ emitted after) : Awaited i job (log ++ emitted) after := by
  have finished := finished.append emitted
  cases step with
  | other apart => exact .ended me finished rfl same idle
  | tick settled =>
    subst settled
    refine .ended me finished rfl same ?_
    intro single running
    cases idle single running
  | passed due stopped =>
    refine .ended me finished rfl same ?_
    intro single running
    exact absurd running (stopped me rfl)
  | counted own due found running =>
    subst due
    cases found
    refine .ended _ finished rfl same ?_
    intro single _
    cases idle single running
  | fired own due found running =>
    cases found
    exact .ended _ finished rfl same (fun _ _ => rfl)
  | back own called found =>
    cases found
    by_cases again : me.repeats = 1
    · exact .ended _ finished rfl ((rearm_repeats me).trans same) (fun single _ => absurd (same.symm.trans again) single)
    · have stopped : (rearm me).jobState ≠ .running := by simp [rearm,again]
      exact .ended _ finished rfl ((rearm_repeats me).trans same) (fun _ running => absurd running stopped)
  | crashed called empty => cases empty
  | added own empty => cases empty
  | canceled own found =>
    cases found
    exact .ended _ finished rfl same (fun _ again => by cases again)
  | reaped own found => exact .reaped finished (by simp)

theorem awaited_step (timed : Timed c) (awaited : Awaited i job log c) (step : Cell.Step i c emitted after) :
    Awaited i job (log ++ emitted) after := by
  obtain ⟨entry,now⟩ := c
  cases awaited with
  | running me present running same between used =>
    obtain ⟨_,_,low⟩ := timed.bounded me present running
    subst present
    exact running_step running same between (low between.uncalled) used step
  | ended me finished present same idle =>
    subst present
    exact ended_step finished same idle step
  | reaped finished reaped => exact .reaped (finished.append emitted) (List.mem_append_left _ reaped)

theorem reached_awaited (timed : Timed (cell i first)) (awaited : Awaited i job [] (cell i first))
    (run : Runs (Where Step Sane) first later t) : Timed (cell i t) ∧ Awaited i job later (cell i t) := by
  apply run.invariant (I := fun later t => Timed (cell i t) ∧ Awaited i job later (cell i t))
  · intro later s emitted t both step
    have moved := step_cell step.1 i
    exact ⟨timed_step both.1 moved (step.2.cell i),awaited_step both.1 both.2 moved⟩
  · exact ⟨timed,awaited⟩

theorem awaited_ended {job : AtJobSt} (timed : Timed c) (awaited : Awaited i job log c) (settled : c.phase = .settled)
    (enough : job.sec.val ≤ ticks log) : Ended i job log ∧
      (job.repeats ≠ 1 → .returned (.waitjob (i : Nat)) 0 ∉ log →
        ∃ me, c.job = some me ∧ me.repeats ≠ 1 ∧ me.jobState ≠ .running) := by
  cases awaited with
  | running me present running same between used =>
    exfalso
    obtain ⟨_,_,low⟩ := timed.bounded me present running
    have low := low between.uncalled
    rw [settled,late_settled] at used
    omega
  | ended me finished present same idle =>
    refine ⟨finished,?_⟩
    intro single _
    refine ⟨me,present,by rw [same]; exact single,?_⟩
    intro running
    have called := idle single running
    rw [settled] at called
    cases called
  | reaped finished reaped => exact ⟨finished,fun _ kept => absurd reaped kept⟩

-- The job being called has no time left until its callback comes back.
def InTime (s : State) : Prop :=
  ∀ i me, s.timer.job i = some me → me.jobState = .running → s.handler ≠ .callback i →
    1 ≤ me.timeRemain.val ∧ me.timeRemain.val ≤ me.sec.val ∧ (store (me.timeRemain.val - 1)).val = me.timeRemain.val - 1

theorem reached_inTime (run : Runs (Where Step Sane) start log s) : InTime s := by
  intro i me present running outside
  obtain ⟨_,high,low⟩ := (reached_timed run i).bounded me present running
  have low := low (fun called => outside (handler_called called))
  exact ⟨low,high,decrement low⟩

theorem added_awaited (timed : Timed (cell i s)) (empty : s.timer.job i = none)
    (between : s.handler = .off ∨ ∃ k, s.handler = .callback k) (same : t.handler = s.handler)
    (present : t.timer.job i = some job) (fresh : job.jobState = .running) (full : job.timeRemain = job.sec) :
    Awaited i job [] (cell i t) := by
  refine .running job present fresh ⟨rfl,rfl,rfl⟩ ?_ ?_
  · have idle : phase i s.handler ≠ .called := by
      intro called
      obtain ⟨me,there⟩ := timed.present called
      have there : s.timer.job i = some me := there
      rw [empty] at there
      cases there
    change phase i t.handler = .settled ∨ phase i t.handler = .due
    rw [same]
    rcases between with off | ⟨k,at_⟩
    · exact .inl (by rw [off]; rfl)
    · rw [at_] at idle ⊢
      simp only [phase] at idle ⊢
      split
      · exact .inr rfl
      · rename_i notBefore
        rw [if_neg notBefore] at idle
        split
        · rename_i here
          exact absurd (if_pos here) idle
        · exact .inl rfl
  · rw [full]
    have none : ticks [] = 0 := rfl
    omega

-- at_addjob(0, f, a) is accepted with no time left.
def noSecond : IntValue := ⟨0,by decide,by decide⟩
def never : AtJobSt := newJob 0 noSecond 7 9

theorem never_added : Step start [.returned (.addjob noSecond 7 9) (slot0 : Nat)] ⟨oneJob never,.ready,.off⟩ :=
  .call true true (.addjob noSecond 7 9) rfl rfl (start_adds 0 noSecond 7 9 (by decide))

end LinuxCoding.AnyTimer
