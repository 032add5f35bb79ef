import LinuxCoding.Library.Fifo
import LinuxCoding.Library.Signals

-- homework/statistic_file_with_thread_pool.c: the bounded queue of directory paths.
namespace LinuxCoding.DirPool
open Fifo Signals

def threadNum : Nat := 12
def queueMax : Nat := 1024

-- A path is a pointer to heap memory, as enqueue_task asks of its callers; an empty
-- cell of the array is NULL.
structure TaskQueue (α : Type) where
  taskQueue : Fin queueMax → Option α
  queueFront : Fin queueMax
  queueRear : Fin queueMax
  queueCount : Int
  doneFlag : Bool

inductive Cond where
  | notEmpty
  | notFull
  deriving DecidableEq

inductive Op (α : Type) where
  | enqueueTask (path : α)
  | dequeueTask
  | setDone
  deriving DecidableEq

-- What became of the argument of enqueue_task, and what dequeue_task returned.
inductive Ret (α : Type) where
  | stored
  | freed
  | path (path : Option α)
  | void
  deriving DecidableEq

def empty : TaskQueue α := ⟨fun _ => none,⟨0,by decide⟩,⟨0,by decide⟩,0,false⟩

def next (i : Fin queueMax) : Fin queueMax := ⟨(i.val + 1) % queueMax,Nat.mod_lt _ (by decide)⟩

def enqueueWaits (q : TaskQueue α) : Bool := (queueMax : Int) ≤ q.queueCount && !q.doneFlag

def enqueueLeave (path : α) (q : TaskQueue α) : Exit (TaskQueue α) (Ret α) Cond :=
  if q.queueCount < queueMax then
    ⟨{q with
        taskQueue := Function.update q.taskQueue q.queueRear (some path)
        queueRear := next q.queueRear
        queueCount := q.queueCount + 1},.stored,.signal .notEmpty⟩
  else ⟨q,.freed,.silent⟩

def dequeueWaits (q : TaskQueue α) : Bool := q.queueCount = 0 && !q.doneFlag

def dequeueLeave (q : TaskQueue α) : Exit (TaskQueue α) (Ret α) Cond :=
  if q.queueCount > 0 then
    ⟨{q with queueFront := next q.queueFront,queueCount := q.queueCount - 1},
      .path (q.taskQueue q.queueFront),.signal .notFull⟩
  else ⟨q,.path none,.silent⟩

-- Only cond_not_empty is told.
def setDoneLeave (q : TaskQueue α) : Exit (TaskQueue α) (Ret α) Cond :=
  ⟨{q with doneFlag := true},.void,.broadcast .notEmpty⟩

-- set_done has no loop, so its condition variable is never used.
def queue (α : Type) : Sections (TaskQueue α) (Op α) (Ret α) Cond where
  cond
    | .enqueueTask _ => .notFull
    | .dequeueTask => .notEmpty
    | .setDone => .notEmpty
  waits
    | .enqueueTask _,q => enqueueWaits q
    | .dequeueTask,q => dequeueWaits q
    | .setDone,_ => false
  leave
    | .enqueueTask path,q => enqueueLeave path q
    | .dequeueTask,q => dequeueLeave q
    | .setDone,q => setDoneLeave q

theorem enqueue_cases (path : α) (q : TaskQueue α) :
    (q.queueCount < queueMax ∧ (enqueueLeave path q).shared.queueCount = q.queueCount + 1 ∧
      (enqueueLeave path q).shared.doneFlag = q.doneFlag ∧ (enqueueLeave path q).ret = .stored ∧
      (enqueueLeave path q).notice = .signal .notEmpty) ∨
    ((queueMax : Int) ≤ q.queueCount ∧ enqueueLeave path q = ⟨q,.freed,.silent⟩) := by
  by_cases room : q.queueCount < queueMax
  · simp [enqueueLeave,room]
  · exact .inr ⟨by omega,if_neg room⟩

theorem dequeue_cases (q : TaskQueue α) :
    (0 < q.queueCount ∧ (dequeueLeave q).shared.queueCount = q.queueCount - 1 ∧
      (dequeueLeave q).shared.doneFlag = q.doneFlag ∧ (dequeueLeave q).ret = .path (q.taskQueue q.queueFront) ∧
      (dequeueLeave q).notice = .signal .notFull) ∨
    (q.queueCount ≤ 0 ∧ dequeueLeave q = ⟨q,.path none,.silent⟩) := by
  by_cases more : q.queueCount > 0
  · simp [dequeueLeave,more]
  · exact .inr ⟨by omega,if_neg more⟩

end LinuxCoding.DirPool
