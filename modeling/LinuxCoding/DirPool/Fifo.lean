import LinuxCoding.DirPool.Queue

namespace LinuxCoding.DirPool
open Fifo Signals Transition

-- The queue_count slots from queue_front onward.
def slots (q : TaskQueue α) : List (Option α) := window q.taskQueue q.queueFront q.queueCount.toNat

-- A return as a move of the abstract queue: enqueue_task puts the path it stored, and
-- dequeue_task takes the path it returned.
def moveOf (event : Event τ (Op α) (Ret α)) : List (Move α) :=
  match event.outcome,event.op with
  | .returned .stored,.enqueueTask path => [.put [path]]
  | .returned (.path (some path)),.dequeueTask => [.take [path]]
  | _,_ => []

def moves (log : List (Event τ (Op α) (Ret α))) : List (Move α) := log.flatMap moveOf

def returnedPaths (log : List (Event τ (Op α) (Ret α))) : List α := takenBy (moves log)
def storedPaths (log : List (Event τ (Op α) (Ret α))) : List α := putBy (moves log)

structure Ring (q : TaskQueue α) (paths : List α) : Prop where
  low : 0 ≤ q.queueCount
  high : q.queueCount ≤ queueMax
  rear : q.queueRear = ahead q.queueFront q.queueCount.toNat
  holds : slots q = paths.map some

theorem empty_ring : Ring (empty : TaskQueue α) [] := ⟨Int.le_refl 0,Int.zero_le_ofNat 1024,rfl,rfl⟩

theorem next_ahead_one (i : Fin queueMax) : next i = ahead i 1 := rfl

theorem enqueue_ring {q : TaskQueue α} (path : α) (ring : Ring q paths) (room : q.queueCount < queueMax) :
    Ring (enqueueLeave path q).shared (paths ++ [path]) := by
  have low := ring.low
  have size : (q.queueCount + 1).toNat = q.queueCount.toNat + 1 := by omega
  simp only [enqueueLeave,if_pos room]
  refine ⟨?_,?_,?_,?_⟩
  · change 0 ≤ q.queueCount + 1
    omega
  · change q.queueCount + 1 ≤ queueMax
    omega
  · change next q.queueRear = ahead q.queueFront (q.queueCount + 1).toNat
    rw [ring.rear,size,next_ahead_one,next_ahead]
  · change window (Function.update q.taskQueue q.queueRear (some path)) q.queueFront (q.queueCount + 1).toNat = _
    rw [ring.rear,size,window_push _ _ (by omega),List.map_append]
    exact congrArg (· ++ [some path]) ring.holds

theorem dequeue_ring {q : TaskQueue α} (ring : Ring q paths) (some_ : q.queueCount > 0) :
    ∃ path rest, paths = path :: rest ∧ (dequeueLeave q).ret = .path (some path) ∧ Ring (dequeueLeave q).shared rest := by
  have high := ring.high
  have size : q.queueCount.toNat = (q.queueCount - 1).toNat + 1 := by omega
  have holds := ring.holds
  rw [slots,size,window_pop] at holds
  cases paths with
  | nil => cases holds
  | cons path rest =>
    obtain ⟨first,others⟩ := List.cons.inj holds
    refine ⟨path,rest,rfl,?_,?_⟩
    · simp only [dequeueLeave,if_pos some_,first]
    · simp only [dequeueLeave,if_pos some_]
      refine ⟨?_,?_,?_,others⟩
      · change 0 ≤ q.queueCount - 1
        omega
      · change q.queueCount - 1 ≤ queueMax
        omega
      · change q.queueRear = ahead (next q.queueFront) (q.queueCount - 1).toNat
        rw [ring.rear,size,next_ahead_one,ahead_next]

theorem full_enqueue {q : TaskQueue α} (path : α) (full : ¬q.queueCount < queueMax) :
    enqueueLeave path q = ⟨q,.freed,.silent⟩ := if_neg full

theorem empty_dequeue {q : TaskQueue α} (none_ : ¬q.queueCount > 0) : dequeueLeave q = ⟨q,.path none,.silent⟩ := if_neg none_

theorem leave_moves (t : τ) (op : Op α) {q : TaskQueue α} (ring : Ring q paths) :
    ∃ after, Runs Fifo.Step paths (moveOf ⟨t,op,.returned ((queue α).leave op q).ret⟩) after ∧
      Ring ((queue α).leave op q).shared after := by
  cases op with
  | enqueueTask path =>
    by_cases room : q.queueCount < queueMax
    · have stored : (enqueueLeave path q).ret = .stored := by simp [enqueueLeave,room]
      refine ⟨_,Runs.one ?_,enqueue_ring path ring room⟩
      simp only [queue,stored]
      exact .put
    · refine ⟨paths,?_,?_⟩
      · simp only [queue,full_enqueue path room]
        exact .nil
      · simp only [queue,full_enqueue path room]
        exact ring
  | dequeueTask =>
    by_cases more : q.queueCount > 0
    · obtain ⟨path,rest,rfl,returned,after⟩ := dequeue_ring ring more
      refine ⟨rest,Runs.one ?_,after⟩
      simp only [queue,returned]
      exact take_one path rest
    · refine ⟨paths,?_,?_⟩
      · simp only [queue,empty_dequeue more]
        exact .nil
      · simp only [queue,empty_dequeue more]
        exact ring
  | setDone => exact ⟨paths,.nil,ring.low,ring.high,ring.rear,ring.holds⟩

section
variable {τ : Type} [DecidableEq τ]

-- One critical section is at most one move of the abstract queue.
theorem step_refines {c after : Config τ (TaskQueue α) (Op α)} (ring : Ring c.shared paths)
    (step : Signals.Step (queue α) c emitted after) :
    ∃ rest, Runs Fifo.Step paths (moves emitted) rest ∧ Ring after.shared rest := by
  cases step with
  | sleep => exact ⟨paths,.nil,ring⟩
  | leave t op =>
    obtain ⟨rest,path,kept⟩ := leave_moves t op ring
    exact ⟨rest,by simpa only [moves,List.flatMap_cons,List.flatMap_nil,List.append_nil] using path,kept⟩
  | rouse => exact ⟨paths,.nil,ring⟩

theorem run_refines {c : Config τ (TaskQueue α) (Op α)} (run : Runs (Signals.Step (queue α)) (initial empty) log c) :
    ∃ paths, Runs Fifo.Step [] (moves log) paths ∧ Ring c.shared paths :=
  run.simulation (f := moves) (R := fun c paths => Ring c.shared paths) rfl
    (fun _ _ => List.flatMap_append) (fun _ _ _ _ ring step => step_refines ring step) empty_ring

-- NULL comes only from an empty queue: the cells in use hold paths.
theorem null_returned {c after : Config τ (TaskQueue α) (Op α)} (ring : Ring c.shared paths)
    (step : Signals.Step (queue α) c emitted after) (null : ⟨t,.dequeueTask,.returned (.path none)⟩ ∈ emitted) :
    c.shared.queueCount = 0 ∧ c.shared.doneFlag = true := by
  cases step with
  | sleep | rouse => simp at null
  | leave u op ready passes =>
    obtain ⟨rfl,rfl,same⟩ : t = u ∧ Op.dequeueTask = op ∧ Ret.path none = ((queue α).leave op c.shared).ret := by
      simpa using null
    by_cases more : c.shared.queueCount > 0
    · obtain ⟨path,_,_,returned,_⟩ := dequeue_ring ring more
      simp only [queue,returned] at same
      cases same
    · have zero : c.shared.queueCount = 0 := by have := ring.low; omega
      simp only [queue,dequeueWaits,zero,decide_true,Bool.true_and,Bool.not_eq_false'] at passes
      exact ⟨zero,passes⟩

theorem queue_refines_fifo {c : Config τ (TaskQueue α) (Op α)} (run : Runs (Signals.Step (queue α)) (initial empty) log c) :
    0 ≤ c.shared.queueCount ∧ c.shared.queueCount ≤ queueMax ∧
    (c.shared.queueRear : Int) = ((c.shared.queueFront : Int) + c.shared.queueCount) % queueMax ∧
    (returnedPaths log).map some ++ slots c.shared = (storedPaths log).map some ∧
    ∀ emitted after t, Signals.Step (queue α) c emitted after → ⟨t,.dequeueTask,.returned (.path none)⟩ ∈ emitted →
      c.shared.queueCount = 0 ∧ c.shared.doneFlag = true := by
  obtain ⟨paths,path,ring⟩ := run_refines run
  refine ⟨ring.low,ring.high,?_,?_,fun _ _ _ step null => null_returned ring step null⟩
  · have low := ring.low
    have rear := congrArg Fin.val ring.rear
    simp only [ahead,queueMax] at rear
    simp only [queueMax]
    omega
  · rw [ring.holds,← List.map_append]
    exact congrArg _ (runs_law path)

end

-- One thread stores a path and another takes it.
theorem queue_store_and_take : ∃ log c, Runs (Signals.Step (queue Nat)) (initial empty : Config Bool (TaskQueue Nat) (Op Nat)) log c ∧
    returnedPaths log = [7] ∧ (returnedPaths log).map some ++ slots c.shared = (storedPaths log).map some := by
  have store : Signals.Step (queue Nat) (initial empty : Config Bool (TaskQueue Nat) (Op Nat)) _ _ :=
    .alone true (.enqueueTask 7) rfl
  have take : Signals.Step (queue Nat) (initial (enqueueLeave 7 empty).shared : Config Bool (TaskQueue Nat) (Op Nat)) _ _ :=
    .alone false .dequeueTask rfl
  have run := (Runs.one store).append (.one take)
  exact ⟨_,_,run,rfl,(queue_refines_fifo run).2.2.2.1⟩

end LinuxCoding.DirPool
