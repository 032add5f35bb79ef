import LinuxCoding.Library.Rounds

-- thread/posix/productor_consumer/pc.c: a queue that is only its size, and a broadcast when
-- the mutex is unlocked already.
namespace LinuxCoding.ProdCons.Queue
open Rounds Signals Transition

def queueMaxSize : Nat := 5

inductive Op where
  | prod
  | cons
  deriving DecidableEq

inductive Cond where
  | notFull
  | notEmpty
  deriving DecidableEq

-- The shared value is size, and a round returns the number that it prints.
def queue : Sections Int Op Int Cond where
  cond
    | .prod => .notFull
    | .cons => .notEmpty
  waits
    | .prod,size => size = queueMaxSize
    | .cons,size => size = 0
  leave
    | .prod,size => ⟨size + 1,size + 1,.silent⟩
    | .cons,size => ⟨size - 1,size - 1,.silent⟩

def broadcast : Op → Notice Cond
  | .prod => .broadcast .notEmpty
  | .cons => .broadcast .notFull

def Op.produces : Op → Bool
  | .prod => true
  | .cons => false

def Op.consumes : Op → Bool
  | .prod => false
  | .cons => true

def threads (op : τ → Op) (rounds : τ → Nat) : Program τ Int Op Int Cond := ⟨queue,op,rounds,broadcast⟩

theorem queue_counter : Counter queue id Op.produces queueMaxSize := by
  refine ⟨by decide,?_,?_⟩
  · intro op size
    cases op <;> simp [queue,Op.produces]
  · intro op size _
    cases op <;> rfl

theorem queue_sides : Sides queue Op.produces (fun produces => if produces then .notFull else .notEmpty) := by
  refine ⟨by decide,?_⟩
  intro op
  cases op <;> rfl

theorem others_consume : (fun op => !Op.produces op) = Op.consumes := by
  funext op
  cases op <;> rfl

theorem empty_queue : Within id queueMaxSize (0 : Int) := by
  unfold Within
  decide

section
variable {τ : Type} [DecidableEq τ] [Fintype τ]

structure Queued (op : τ → Op) (rounds : τ → Nat) (log : List (Event τ Op Int)) (s : State τ Int Op) : Prop where
  low : 0 ≤ s.calls.shared
  high : s.calls.shared ≤ queueMaxSize
  counted : s.calls.shared + passed (threads op rounds) Op.consumes s = passed (threads op rounds) Op.produces s
  printed : ∀ event ∈ log, ∀ size, event.outcome = .returned size → 0 ≤ size ∧ size ≤ queueMaxSize

-- A broadcast that comes when the mutex is free again loses no wakeup: the size is right in
-- every state, and all threads end exactly when what is produced and not consumed has room.
theorem threads_exact (op : τ → Op) (rounds : τ → Nat) :
    (∀ log s, Runs (Step (threads op rounds)) (start (0 : Int)) log s → Queued op rounds log s) ∧
      ((∀ log s, Runs (Step (threads op rounds)) (start (0 : Int)) log s → Still (threads op rounds) s → Finished (threads op rounds) s) ↔
        planned (threads op rounds) Op.consumes ≤ planned (threads op rounds) Op.produces ∧
          planned (threads op rounds) Op.produces ≤ planned (threads op rounds) Op.consumes + queueMaxSize) := by
  have heard : Heard (threads op rounds) (0 : Int) := by
    refine announces_heard queue_counter queue_sides ?_ empty_queue
    intro op
    cases op <;> rfl
  constructor
  · intro log s run
    obtain ⟨low,high⟩ := run_within queue_counter empty_queue run
    have counted := run_passed queue_counter run
    rw [others_consume] at counted
    refine ⟨low,high,counted.trans (zero_add _),?_⟩
    refine run_returned (p := threads op rounds) (I := Within id queueMaxSize) (P := fun size => 0 ≤ size ∧ size ≤ queueMaxSize) queue_counter.kept ?_ empty_queue run
    intro op size within passes
    have next := queue_counter.kept op size within passes
    cases op <;> exact next
  · rw [finishes_exact queue_counter empty_queue heard]
    have sides : balance (threads op rounds) Op.produces + planned (threads op rounds) (fun op => !Op.produces op) = planned (threads op rounds) Op.produces :=
      balance_planned
    rw [others_consume] at sides
    simp only [id]
    omega

end

end LinuxCoding.ProdCons.Queue
