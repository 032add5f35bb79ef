import LinuxCoding.DirPool.Queue

namespace LinuxCoding.DirPool
open Signals Transition

def freeSlots (q : TaskQueue α) : Int := queueMax - q.queueCount

-- Each path stored wakes one consumer and each path taken one producer.
theorem notEmpty_supplies : Supplies (queue α) (fun _ => True) .notEmpty TaskQueue.queueCount := by
  refine ⟨?_,?_,?_⟩
  · intro op q _ on waits
    cases op with
    | enqueueTask => cases on
    | dequeueTask =>
      simp only [queue,dequeueWaits,Bool.and_eq_true,decide_eq_true_eq] at waits
      omega
    | setDone => cases waits
  · intro op q _ passes loud
    cases op with
    | enqueueTask path =>
      rcases enqueue_cases path q with ⟨_,count,_,_,notice⟩ | ⟨_,same⟩
      · simp [queue,count,notice,Notice.gain]
      · simp [queue,same,Notice.gain]
    | dequeueTask =>
      rcases dequeue_cases q with ⟨_,count,_,_,notice⟩ | ⟨_,same⟩
      · simp [queue,count,notice,Notice.gain]
      · simp [queue,same,Notice.gain]
    | setDone => exact absurd rfl loud
  · intro op q _ on passes loud
    cases op with
    | enqueueTask => cases on
    | dequeueTask =>
      rcases dequeue_cases q with ⟨_,count,_,_,notice⟩ | ⟨none,same⟩
      · exact .inr (by simp [queue,count,notice,Notice.gain])
      · exact .inl (by simp only [queue,same]; exact none)
    | setDone => exact absurd rfl loud

theorem notFull_supplies : Supplies (queue α) (fun _ => True) .notFull freeSlots := by
  refine ⟨?_,?_,?_⟩
  · intro op q _ on waits
    cases op with
    | enqueueTask =>
      simp only [queue,enqueueWaits,Bool.and_eq_true,decide_eq_true_eq] at waits
      simp only [freeSlots]
      omega
    | dequeueTask | setDone => cases on
  · intro op q _ passes loud
    cases op with
    | enqueueTask path =>
      rcases enqueue_cases path q with ⟨_,count,_,_,notice⟩ | ⟨_,same⟩
      · simp only [queue,freeSlots,count,notice,Notice.gain]
        omega
      · simp [queue,freeSlots,same,Notice.gain]
    | dequeueTask =>
      rcases dequeue_cases q with ⟨_,count,_,_,notice⟩ | ⟨_,same⟩
      · simp only [queue,freeSlots,count,notice,Notice.gain,if_true]
        omega
      · simp [queue,freeSlots,same,Notice.gain]
    | setDone => exact Int.le_add_of_nonneg_right (Int.natCast_nonneg _)
  · intro op q _ on passes loud
    cases op with
    | enqueueTask path =>
      rcases enqueue_cases path q with ⟨_,count,_,_,notice⟩ | ⟨full,same⟩
      · right
        simp only [queue,freeSlots,count,notice,Notice.gain]
        omega
      · left
        simp only [queue,freeSlots,same]
        omega
    | dequeueTask | setDone => cases on

section
variable {τ : Type} [DecidableEq τ] [Fintype τ]

structure NoLostWakeup (c : Config τ (TaskQueue α) (Op α)) : Prop where
  released : c.shared.doneFlag = true → ∀ t op, c.status t ≠ .asleep op
  notEmpty : c.shared.doneFlag = false → ∀ t op, c.status t = .asleep op → (queue α).cond op = .notEmpty →
    c.shared.queueCount ≤ waking (queue α).cond .notEmpty c.status
  notFull : c.shared.doneFlag = false → ∀ t op, c.status t = .asleep op → (queue α).cond op = .notFull →
    freeSlots c.shared ≤ waking (queue α).cond .notFull c.status

omit [Fintype τ] in
-- set_done is called while no thread is asleep un-notified on cond_not_full.
def SetDoneUnawaited (c : Config τ (TaskQueue α) (Op α)) (emitted : List (Event τ (Op α) (Ret α))) : Prop :=
  ∀ t ret, ⟨t,.setDone,.returned ret⟩ ∈ emitted → ∀ u op, c.status u = .asleep op → (queue α).cond op ≠ .notFull

theorem leave_done (op : Op α) {q : TaskQueue α} (unset : ((queue α).leave op q).shared.doneFlag = true) :
    q.doneFlag = true ∨ op = .setDone := by
  cases op with
  | enqueueTask path =>
    rcases enqueue_cases path q with ⟨_,_,kept,_⟩ | ⟨_,same⟩
    · exact .inl (kept.symm.trans unset)
    · simp only [queue,same] at unset
      exact .inl unset
  | dequeueTask =>
    rcases dequeue_cases q with ⟨_,_,kept,_⟩ | ⟨_,same⟩
    · exact .inl (kept.symm.trans unset)
    · simp only [queue,same] at unset
      exact .inl unset
  | setDone => exact .inr rfl

theorem done_passes (op : Op α) {q : TaskQueue α} (done : q.doneFlag = true) : (queue α).waits op q = false := by
  cases op <;> simp [queue,enqueueWaits,dequeueWaits,done]

theorem step_released {c after : Config τ (TaskQueue α) (Op α)}
    (released : c.shared.doneFlag = true → ∀ t op, c.status t ≠ .asleep op)
    (step : Step (queue α) c emitted after) (unawaited : SetDoneUnawaited c emitted) :
    after.shared.doneFlag = true → ∀ t op, after.status t ≠ .asleep op := by
  intro done u other asleep
  cases step with
  | sleep t op ready waits =>
    have passes := done_passes op (q := c.shared) done
    rw [waits] at passes
    cases passes
  | leave t op ready passes notified =>
    obtain ⟨before,loud,-⟩ := notified_asleep notified asleep
    have apart : u ≠ t := by
      rintro rfl
      simp at before
    rw [Function.update_of_ne apart] at before
    rcases leave_done op done with earlier | rfl
    · exact released earlier u other before
    · cases on : (queue α).cond other with
      | notEmpty => exact loud (by rw [on]; rfl)
      | notFull => exact unawaited t _ List.mem_cons_self u other before on
  | rouse t op queued => exact released done t op queued

theorem run_lost_nothing {c : Config τ (TaskQueue α) (Op α)}
    (run : Runs (Where (Step (queue α)) SetDoneUnawaited) (initial empty) log c) : NoLostWakeup c := by
  refine ⟨?_,fun _ => ?_,fun _ => ?_⟩
  · apply run.stateInvariant (I := fun c => c.shared.doneFlag = true → ∀ t op, c.status t ≠ .asleep op)
    · exact fun _ _ _ released step => step_released released step.1 step.2
    · intro done
      cases done
  · exact run_supplied notEmpty_supplies run.unrestricted
  · exact run_supplied notFull_supplies run.unrestricted

omit [Fintype τ] in
-- A producer asleep while set_done is called stays asleep with the flag set.
theorem awaited_sleeps {c after : Config τ (TaskQueue α) (Op α)} (step : Step (queue α) c emitted after)
    (called : ⟨t,.setDone,.returned ret⟩ ∈ emitted) (asleep : c.status u = .asleep op)
    (on : (queue α).cond op = .notFull) : after.shared.doneFlag = true ∧ after.status u = .asleep op := by
  cases step with
  | sleep | rouse => simp at called
  | leave v other ready passes notified =>
    obtain ⟨-,rfl,-⟩ : t = v ∧ Op.setDone = other ∧ _ := by simpa using called
    refine ⟨rfl,?_⟩
    have apart : u ≠ v := by
      rintro rfl
      rw [asleep] at ready
      exact ready
    cases notified with
    | broadcast => simp [apart,asleep,Status.wake,on]

theorem no_lost_wakeup_exact {c : Config τ (TaskQueue α) (Op α)}
    (run : Runs (Where (Step (queue α)) SetDoneUnawaited) (initial empty) log c) :
    NoLostWakeup c ∧ ∀ emitted after, Step (queue α) c emitted after → (NoLostWakeup after ↔ SetDoneUnawaited c emitted) := by
  refine ⟨run_lost_nothing run,?_⟩
  intro emitted after step
  constructor
  · intro kept t ret called u op asleep on
    obtain ⟨done,still⟩ := awaited_sleeps step called asleep on
    exact kept.released done u op still
  · intro unawaited
    exact run_lost_nothing (.step run ⟨step,unawaited⟩)

end

-- A consumer sleeps on the empty queue when set_done is called.
theorem wakeup_consumer : ∃ log c, Runs (Where (Step (queue Nat)) SetDoneUnawaited)
    (initial empty : Config Bool (TaskQueue Nat) (Op Nat)) log c ∧ c.shared.doneFlag = true ∧ NoLostWakeup c := by
  have sleeps : Step (queue Nat) (initial empty : Config Bool (TaskQueue Nat) (Op Nat)) _ _ :=
    .sleep true .dequeueTask trivial rfl
  have unawaited : SetDoneUnawaited (initial empty : Config Bool (TaskQueue Nat) (Op Nat)) [⟨true,.dequeueTask,.slept⟩] := by
    simp [SetDoneUnawaited]
  have ends : Step (queue Nat) ((initial empty : Config Bool (TaskQueue Nat) (Op Nat)).put true (.asleep .dequeueTask)) _ _ :=
    .leave false .setDone trivial rfl (.broadcast _)
  have consumer : SetDoneUnawaited ((initial empty : Config Bool (TaskQueue Nat) (Op Nat)).put true (.asleep .dequeueTask))
      [⟨false,.setDone,.returned .void⟩] := by
    intro t ret called u op asleep
    cases u with
    | true =>
      cases asleep
      exact Cond.noConfusion
    | false => cases asleep
  have run : Runs (Where (Step (queue Nat)) SetDoneUnawaited) (initial empty) _ _ :=
    .step (.one ⟨sleeps,unawaited⟩) ⟨ends,consumer⟩
  exact ⟨_,_,run,rfl,(no_lost_wakeup_exact run).1⟩

theorem fill {τ : Type} [DecidableEq τ] (t : τ) (path : α) : ∀ count : Nat, count ≤ queueMax → ∃ log q,
    Runs (Step (queue α)) (initial empty : Config τ (TaskQueue α) (Op α)) log (initial q) ∧
      q.queueCount = count ∧ q.doneFlag = false := by
  intro count
  induction count with
  | zero => exact fun _ => ⟨[],empty,.nil,rfl,rfl⟩
  | succ count ih =>
    intro room
    obtain ⟨log,q,run,size,unset⟩ := ih (by omega)
    have passes : (queue α).waits (.enqueueTask path) q = false := by
      have below : ¬(queueMax : Int) ≤ q.queueCount := by omega
      simp [queue,enqueueWaits,below]
    rcases enqueue_cases path q with ⟨_,grown,kept,_⟩ | ⟨full,_⟩
    · have stored : Step (queue α) (initial q : Config τ (TaskQueue α) (Op α)) _ (initial (enqueueLeave path q).shared) :=
        .alone (m := queue α) t (.enqueueTask path) passes
      refine ⟨_,_,.step run stored,?_,kept.trans unset⟩
      rw [grown,size]
      rfl
    · omega

theorem wakeup_broken : ¬ ∀ log (c : Config Bool (TaskQueue Nat) (Op Nat)),
    Runs (Step (queue Nat)) (initial empty) log c → NoLostWakeup c := by
  intro kept
  obtain ⟨log,q,run,size,unset⟩ := fill true 7 queueMax (Nat.le_refl _)
  have waits : (queue Nat).waits (.enqueueTask 8) q = true := by simp [queue,enqueueWaits,size,unset]
  have sleeps : Step (queue Nat) (initial q : Config Bool (TaskQueue Nat) (Op Nat)) _ _ := .sleep true (.enqueueTask 8) trivial waits
  have ends : Step (queue Nat) ((initial q : Config Bool (TaskQueue Nat) (Op Nat)).put true (.asleep (.enqueueTask 8))) _ _ :=
    .leave false .setDone trivial rfl (.broadcast _)
  have lost := kept _ _ ((run.append (.one sleeps)).append (.one ends))
  exact lost.released rfl true (.enqueueTask 8) rfl

end LinuxCoding.DirPool
