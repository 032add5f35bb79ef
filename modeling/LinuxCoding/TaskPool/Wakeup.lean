import LinuxCoding.TaskPool.Order

namespace LinuxCoding.TaskPool
open Chain CInt Signals Total Transition

-- The tasks behind the counter, which may have wrapped around at 2^32.
def queued (shared : Shared) : Int := shared.pool.taskCount.val % 4294967296

def HoldsList (shared : Shared) : Prop := ∃ nodes, Linked shared nodes

theorem store_mod (n : Int) : (store n).val % 4294967296 = n % 4294967296 := by
  exact Int.bmod_emod

theorem queued_linked (linked : Linked shared nodes) : queued shared = nodes.length % 4294967296 := by
  rw [queued,linked.count,store_mod]

theorem addLeave_queued (node : Addr) (shared : Shared) :
    queued (addLeave node shared).shared ≤ queued shared + (addLeave node shared).notice.gain .cond := by
  have grown : (store (shared.pool.taskCount.val + 1)).val % 4294967296 ≤ shared.pool.taskCount.val % 4294967296 + 1 := by
    rw [store_mod]
    omega
  unfold addLeave
  cases shared.pool.taskTail with
  | none => exact grown
  | some tail =>
    cases held : shared.heap tail with
    | none =>
      simp only [held]
      exact Int.le_add_of_nonneg_right (Int.natCast_nonneg _)
    | some cell =>
      simp only [held]
      exact grown

theorem workLeave_queued {shared : Shared} (sound : HoldsList shared) (passes : workWaits shared = false) :
    queued (workLeave shared).shared + 1 = queued shared := by
  obtain ⟨nodes,linked⟩ := sound
  have nonzero : shared.pool.taskCount.val ≠ 0 := by
    intro zero
    simp [workWaits,zero,linked.running] at passes
  obtain ⟨node,task,rest,rfl,-,after,-⟩ := workLeave_linked linked passes
  have low := shared.pool.taskCount.property.1
  have high := shared.pool.taskCount.property.2
  have before := queued_linked linked
  rw [queued_linked after]
  simp only [queued,intMin,intMax,List.length_cons] at before low high ⊢
  omega

theorem work_supplies : Supplies sections HoldsList .cond queued := by
  refine ⟨?_,?_,?_⟩
  · intro op shared _ _ waits
    cases op with
    | add => cases waits
    | work =>
      simp only [sections,workWaits,Bool.and_eq_true,decide_eq_true_eq] at waits
      simp [queued,waits.1]
  · intro op shared sound passes _
    cases op with
    | add node => exact addLeave_queued node shared
    | work =>
      have taken := workLeave_queued sound passes
      change queued (workLeave shared).shared ≤ queued shared + (workLeave shared).notice.gain .cond
      omega
  · intro op shared sound on passes _
    cases op with
    | add => cases on
    | work =>
      have taken := workLeave_queued sound passes
      right
      change queued (workLeave shared).shared + 1 ≤ queued shared + (workLeave shared).notice.gain .cond
      omega

section
variable {τ : Type} [DecidableEq τ] [Fintype τ]

-- What an un-notified sleeper on pool.cond may rely on.
structure Awaited (s : State τ) : Prop where
  counted : ∀ t, s.calls.status t = .asleep .work → s.shared.pool.taskCount.val ≤ waking sections.cond .cond s.calls.status
  listed : ∀ t nodes, s.calls.status t = .asleep .work → Path s.shared.heap s.shared.pool.taskHead nodes →
    nodes.length % 4294967296 ≤ waking sections.cond .cond s.calls.status
  alone : ∀ t, s.calls.status t = .asleep .work → (∀ u, s.calls.status u ≠ .notified .work) → s.shared.pool.taskCount.val = 0

omit [DecidableEq τ] in
theorem supplied_awaited {s : State τ} (linked : Linked s.shared nodes) (supplied : Supplied sections .cond queued s.calls) :
    Awaited s := by
  have low := s.shared.pool.taskCount.property.1
  have high := s.shared.pool.taskCount.property.2
  simp only [intMin,intMax] at low high
  refine ⟨?_,?_,?_⟩
  · intro t asleep
    have bound : queued s.shared ≤ _ := supplied t .work asleep rfl
    simp only [queued] at bound
    omega
  · intro t others asleep path
    have bound : queued s.shared ≤ _ := supplied t .work asleep rfl
    rw [queued_linked linked,path_unique linked.path path] at bound
    omega
  · intro t asleep none
    have bound : queued s.shared ≤ _ := supplied t .work asleep rfl
    have empty : waking sections.cond .cond s.calls.status = 0 := by
      apply tally_zero
      intro u
      cases status : s.calls.status u with
      | notified op =>
        cases op with
        | add => rfl
        | work => exact absurd status (none u)
      | outside | asleep | roused => rfl
    simp only [queued,empty] at bound
    omega

-- Outside the mutex a thread changes neither the counter nor who waits.
theorem step_queued {s after : State τ} (shape : Shape s nodes) (supplied : Supplied sections .cond queued s.calls)
    (step : Step s emitted after) : Supplied sections .cond queued after.calls := by
  cases step with
  | malloc t task node idle fresh => exact supplied
  | add t at_ section_ => exact step_supplied work_supplies ⟨nodes,shape.linked⟩ supplied section_
  | wait t at_ section_ => exact step_supplied work_supplies ⟨nodes,shape.linked⟩ supplied section_
  | rouse t at_ section_ => exact step_supplied work_supplies ⟨nodes,shape.linked⟩ supplied section_
  | take t at_ section_ => exact step_supplied work_supplies ⟨nodes,shape.linked⟩ supplied section_
  | run t at_ =>
    rw [(run_shape shape at_).1]
    exact supplied
  | free t at_ =>
    rw [(free_shape shape at_).1]
    exact supplied

theorem queued_task_awaited {s : State τ} (worker : τ → Bool) (run : Runs Step (start worker) log s) : Awaited s := by
  obtain ⟨nodes,-,lawful⟩ := run_lawful worker run
  apply supplied_awaited lawful.shape.linked
  induction run generalizing nodes with
  | nil => simp [Supplied,start,initial]
  | step prior taken ih =>
    obtain ⟨earlier,-,before⟩ := run_lawful worker prior
    exact step_queued before.shape (ih earlier before) taken

end

-- A worker sleeps, and a task added then wakes it.
theorem sleeper_woken : ∃ log s, Runs Step (start id) log s ∧ log = [.added false ⟨1,2⟩] ∧
    s.calls.status true = .notified .work ∧ s.shared.pool.taskCount.val = 1 ∧ Awaited s := by
  let heap : Heap TaskT := Function.update (fun _ => none) 7 (some ⟨⟨1,2⟩,none⟩)
  let asleep : Bool → Status Op := Function.update (fun _ => .outside) true (.asleep .work)
  let adding := Function.update (start id).pc false (.linking 7 ⟨1,2⟩)
  have sleeps : Signals.Step sections (initial ⟨poolInit,fun _ => none⟩ : Config Bool Shared Op) _ _ :=
    .sleep true .work trivial rfl
  have waits : Step (start id) [] ⟨⟨⟨poolInit,fun _ => none⟩,asleep⟩,(start id).pc⟩ := .wait true rfl sleeps
  have alloc : Step ⟨⟨⟨poolInit,fun _ => none⟩,asleep⟩,(start id).pc⟩ [] ⟨⟨⟨poolInit,heap⟩,asleep⟩,adding⟩ :=
    .malloc false ⟨1,2⟩ 7 rfl rfl
  have told : Notified sections.cond (.signal .cond) (Function.update asleep false .outside) _ := .signal true Op.work rfl
  have wakes : Signals.Step sections (⟨⟨poolInit,heap⟩,asleep⟩ : Config Bool Shared Op) _ _ :=
    .leave false (Op.add 7) trivial rfl told
  have link : Step ⟨⟨⟨poolInit,heap⟩,asleep⟩,adding⟩ [.added false ⟨1,2⟩] _ := .add false rfl wakes
  have whole := ((Runs.one waits).append (.one alloc)).append (.one link)
  exact ⟨_,_,whole,rfl,rfl,rfl,queued_task_awaited id whole⟩

end LinuxCoding.TaskPool
