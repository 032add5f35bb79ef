import LinuxCoding.Library.Rounds

-- homework/parking.c: cars come in while places remain and go out while some are taken.
namespace LinuxCoding.ProdCons.Parking
open Rounds Signals Transition

def maxCapicity : Nat := 10

inductive Op where
  | enterCar
  | exitCar
  deriving DecidableEq

inductive Cond where
  | notFull
  | notEmpty
  deriving DecidableEq

-- The shared value is remain_size, and a round returns the number that it prints.
def lot : Sections Int Op Int Cond where
  cond
    | .enterCar => .notFull
    | .exitCar => .notEmpty
  waits
    | .enterCar,remainSize => remainSize = 0
    | .exitCar,remainSize => remainSize = maxCapicity
  leave
    | .enterCar,remainSize => ⟨remainSize - 1,remainSize - 1,.signal .notEmpty⟩
    | .exitCar,remainSize => ⟨remainSize + 1,remainSize + 1,.signal .notFull⟩

def Op.enters : Op → Bool
  | .enterCar => true
  | .exitCar => false

def Op.exits : Op → Bool
  | .enterCar => false
  | .exitCar => true

-- sched_yield behind the unlock tells nobody anything.
def cars (op : τ → Op) (rounds : τ → Nat) : Program τ Int Op Int Cond := ⟨lot,op,rounds,fun _ => .silent⟩

theorem lot_counter : Counter lot id Op.exits maxCapicity := by
  refine ⟨by decide,?_,?_⟩
  · intro op remainSize
    cases op <;> simp [lot,Op.exits]
  · intro op remainSize _
    cases op <;> rfl

-- A car that goes out tells those that come in, and the other way round.
theorem lot_sides : Sides lot Op.exits (fun exits => if exits then .notEmpty else .notFull) := by
  refine ⟨by decide,?_⟩
  intro op
  cases op <;> rfl

theorem others_enter : (fun op => !Op.exits op) = Op.enters := by
  funext op
  cases op <;> rfl

theorem empty_lot : Within id maxCapicity (maxCapicity : Int) := by
  unfold Within
  decide

section
variable {τ : Type} [DecidableEq τ] [Fintype τ]

structure Parked (op : τ → Op) (rounds : τ → Nat) (log : List (Event τ Op Int)) (s : State τ Int Op) : Prop where
  low : 0 ≤ s.calls.shared
  high : s.calls.shared ≤ maxCapicity
  counted : s.calls.shared + passed (cars op rounds) Op.enters s = maxCapicity + passed (cars op rounds) Op.exits s
  printed : ∀ event ∈ log, ∀ remain, event.outcome = .returned remain → 0 ≤ remain ∧ remain ≤ maxCapicity

-- The places that remain are right in every state, and all cars come in and go out exactly
-- when no more go out than come in and those that stay have room.
theorem cars_exact (op : τ → Op) (rounds : τ → Nat) :
    (∀ log s, Runs (Step (cars op rounds)) (start (maxCapicity : Int)) log s → Parked op rounds log s) ∧
      ((∀ log s, Runs (Step (cars op rounds)) (start (maxCapicity : Int)) log s → Still (cars op rounds) s → Finished (cars op rounds) s) ↔
        planned (cars op rounds) Op.exits ≤ planned (cars op rounds) Op.enters ∧
          planned (cars op rounds) Op.enters ≤ planned (cars op rounds) Op.exits + maxCapicity) := by
  have heard : Heard (cars op rounds) (maxCapicity : Int) := by
    refine signals_heard lot_counter lot_sides ?_ empty_lot
    intro op remainSize _
    cases op <;> rfl
  constructor
  · intro log s run
    obtain ⟨low,high⟩ := run_within lot_counter empty_lot run
    have counted := run_passed lot_counter run
    rw [others_enter] at counted
    refine ⟨low,high,counted,?_⟩
    refine run_returned (p := cars op rounds) (I := Within id maxCapicity) (P := fun remain => 0 ≤ remain ∧ remain ≤ maxCapicity) lot_counter.kept ?_ empty_lot run
    intro op remainSize within passes
    have next := lot_counter.kept op remainSize within passes
    cases op <;> exact next
  · rw [finishes_exact lot_counter empty_lot heard]
    have sides : balance (cars op rounds) Op.exits + planned (cars op rounds) (fun op => !Op.exits op) = planned (cars op rounds) Op.exits :=
      balance_planned
    rw [others_enter] at sides
    simp only [id]
    omega

end

end LinuxCoding.ProdCons.Parking
