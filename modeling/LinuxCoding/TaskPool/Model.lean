import LinuxCoding.Library.Chain
import LinuxCoding.Library.CInt
import LinuxCoding.Library.Fifo
import LinuxCoding.Library.Signals

-- IPC/socket/Newer/server.c: worker threads that take tasks from a linked list.
namespace LinuxCoding.TaskPool
open Chain CInt Signals

abbrev Pointer : Type := BitVec 64

structure TaskT where
  function : Pointer
  arg : Pointer
  deriving DecidableEq

structure ThreadPool where
  taskHead : Option Addr
  taskTail : Option Addr
  taskCount : IntValue
  shutdown : Bool

-- The pool and the memory that malloc has handed out for nodes.
structure Shared where
  pool : ThreadPool
  heap : Heap TaskT

def poolInit : ThreadPool := ⟨none,none,store 0,false⟩

inductive Op where
  | add (node : Addr)
  | work
  deriving DecidableEq

-- How a section ends; `fault` is a dereference of NULL or of a freed node in it.
inductive Ret where
  | void
  | exits
  | took (node : Addr) (task : TaskT)
  | fault
  deriving DecidableEq

-- pool.cond, and nothing for pool_add_task, which does not wait.
inductive Cond where
  | cond
  | none
  deriving DecidableEq

-- pool_add_task with the mutex held: the node goes behind task_tail.
def addLeave (node : Addr) (s : Shared) : Exit Shared Ret Cond :=
  let count := store (s.pool.taskCount.val + 1)
  match s.pool.taskTail with
  | none => ⟨{s with pool := {s.pool with taskHead := some node,taskTail := some node,taskCount := count}},.void,.signal .cond⟩
  | some tail =>
    match s.heap tail with
    | none => ⟨s,.fault,.silent⟩
    | some cell =>
      ⟨⟨{s.pool with taskTail := some node,taskCount := count},
        Function.update s.heap tail (some {cell with next := some node})⟩,.void,.signal .cond⟩

def workWaits (s : Shared) : Bool := s.pool.taskCount.val = 0 && !s.pool.shutdown

-- worker_thread after its loop around cond_wait, up to the unlock.
def workLeave (s : Shared) : Exit Shared Ret Cond :=
  if s.pool.shutdown then ⟨s,.exits,.silent⟩
  else match s.pool.taskHead with
  | none => ⟨s,.fault,.silent⟩
  | some node =>
    match s.heap node with
    | none => ⟨s,.fault,.silent⟩
    | some cell =>
      ⟨{s with pool := {s.pool with
        taskHead := cell.next
        taskTail := if cell.next = none then none else s.pool.taskTail
        taskCount := store (s.pool.taskCount.val - 1)}},.took node cell.value,.silent⟩

def sections : Sections Shared Op Ret Cond where
  cond
    | .add _ => .none
    | .work => .cond
  waits
    | .add _,_ => false
    | .work,s => workWaits s
  leave
    | .add node,s => addLeave node s
    | .work,s => workLeave s

-- Where a thread is: between calls of pool_add_task, with a node it filled and is to
-- link, or in the loop of worker_thread. The task beside a node is what it was given to
-- link, or what the node held when it was taken; `crashed` is a use of a freed node.
inductive Pc where
  | idle
  | linking (node : Addr) (task : TaskT)
  | fetching
  | running (node : Addr) (task : TaskT)
  | freeing (node : Addr)
  | exited
  | crashed
  deriving DecidableEq

structure State (τ : Type) where
  calls : Config τ Shared Op
  pc : τ → Pc

inductive Event (τ : Type) where
  | added (t : τ) (task : TaskT)
  | taken (t : τ) (task : TaskT)
  | ran (t : τ) (task : TaskT)
  deriving DecidableEq

def start (worker : τ → Bool) : State τ :=
  ⟨initial ⟨poolInit,fun _ => none⟩,fun t => if worker t then .fetching else .idle⟩

def State.shared (s : State τ) : Shared := s.calls.shared

def State.withHeap (s : State τ) (heap : Heap TaskT) : State τ :=
  {s with calls := ⟨{s.calls.shared with heap := heap},s.calls.status⟩}

def afterAdd : Ret → Pc
  | .fault => .crashed
  | _ => .idle

def afterWork : Ret → Pc
  | .took node task => .running node task
  | .exits => .exited
  | _ => .crashed

def taken (t : τ) : Ret → List (Event τ)
  | .took _ task => [.taken t task]
  | _ => []

section
variable {τ : Type} [DecidableEq τ]

def State.goto (s : State τ) (t : τ) (pc : Pc) : State τ := {s with pc := Function.update s.pc t pc}

-- node->task.function(node->task.arg), outside the mutex.
def run (t : τ) (node : Addr) (s : State τ) : State τ × List (Event τ) :=
  match s.shared.heap node with
  | none => (s.goto t .crashed,[])
  | some cell => (s.goto t (.freeing node),[.ran t cell.value])

def free (t : τ) (node : Addr) (s : State τ) : State τ :=
  match s.shared.heap node with
  | none => s.goto t .crashed
  | some _ => (s.withHeap (Function.update s.shared.heap node none)).goto t .fetching

-- malloc returns any address that is not in use.
inductive Step : State τ → List (Event τ) → State τ → Prop where
  | malloc (t : τ) (task : TaskT) (node : Addr) : s.pc t = .idle → s.shared.heap node = none →
      Step s [] ((s.withHeap (Function.update s.shared.heap node (some ⟨task,none⟩))).goto t (.linking node task))
  | add (t : τ) : s.pc t = .linking node task → Signals.Step sections s.calls [⟨t,.add node,.returned ret⟩] calls →
      Step s [.added t task] ({s with calls := calls}.goto t (afterAdd ret))
  | wait (t : τ) : s.pc t = .fetching → Signals.Step sections s.calls [⟨t,.work,.slept⟩] calls →
      Step s [] {s with calls := calls}
  | rouse (t : τ) : s.pc t = .fetching → Signals.Step sections s.calls [⟨t,.work,.roused⟩] calls →
      Step s [] {s with calls := calls}
  | take (t : τ) : s.pc t = .fetching → Signals.Step sections s.calls [⟨t,.work,.returned ret⟩] calls →
      Step s (taken t ret) ({s with calls := calls}.goto t (afterWork ret))
  | run (t : τ) : s.pc t = .running node task → Step s (run t node s).2 (run t node s).1
  | free (t : τ) : s.pc t = .freeing node → Step s [] (free t node s)

end
end LinuxCoding.TaskPool
