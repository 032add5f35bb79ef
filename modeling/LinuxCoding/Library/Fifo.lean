import Mathlib.Logic.Function.Basic
import LinuxCoding.Library.Transition

namespace LinuxCoding.Fifo
open Transition

inductive Move (α : Type) where
  | put (items : List α)
  | take (items : List α)
  deriving DecidableEq, Repr

def Move.putItems : Move α → List α
  | .put items => items
  | .take _ => []

def Move.takenItems : Move α → List α
  | .put _ => []
  | .take items => items

def putBy (log : List (Move α)) : List α := log.flatMap Move.putItems
def takenBy (log : List (Move α)) : List α := log.flatMap Move.takenItems

-- The abstract queue: batches enter at the back and leave at the front.
inductive Step : List α → List (Move α) → List α → Prop where
  | put : Step queue [.put items] (queue ++ items)
  | take : Step (items ++ queue) [.take items] queue

theorem take_one (item : α) (queue : List α) : Step (item :: queue) [.take [item]] queue := @Step.take α [item] queue

theorem step_law (step : Step before emitted after) (law : taken ++ before = put) :
    (taken ++ takenBy emitted) ++ after = put ++ putBy emitted := by
  subst law
  cases step <;> simp [takenBy,putBy,Move.takenItems,Move.putItems]

theorem runs_law (run : Runs Step [] log queue) : takenBy log ++ queue = putBy log := by
  refine run.invariant (I := fun log queue => takenBy log ++ queue = putBy log) ?_ rfl
  intro log before emitted after law step
  simpa only [takenBy,putBy,List.flatMap_append] using step_law step law

theorem runs_balance (run : Runs Step before log after) : takenBy log ++ after = before ++ putBy log := by
  refine run.invariant (I := fun log after => takenBy log ++ after = before ++ putBy log) ?_ (List.append_nil before).symm
  intro log middle emitted after law step
  have whole := step_law step law
  simpa only [takenBy,putBy,List.flatMap_append,List.append_assoc] using whole

-- The `count` cells of a circular array from `head` onward.
def window (cells : Fin n → α) (head : Fin n) (count : Nat) : List α :=
  (List.range count).map (fun i => cells ⟨(head.val + i) % n,Nat.mod_lt _ (Nat.zero_lt_of_lt head.isLt)⟩)

@[simp] theorem window_zero (cells : Fin n → α) (head : Fin n) : window cells head 0 = [] := rfl

@[simp] theorem window_one (cells : Fin n → α) (head : Fin n) : window cells head 1 = [cells head] := by
  simp [window,List.range_succ,Nat.mod_eq_of_lt head.isLt]

-- The cell that lies k after head.
def ahead (head : Fin n) (k : Nat) : Fin n := ⟨(head.val + k) % n,Nat.mod_lt _ (Nat.zero_lt_of_lt head.isLt)⟩

theorem ahead_next (head : Fin n) (k : Nat) : ahead (ahead head 1) k = ahead head (k + 1) := by
  apply Fin.ext
  simp only [ahead,Nat.mod_add_mod]
  congr 1
  omega

theorem next_ahead (head : Fin n) (k : Nat) : ahead (ahead head k) 1 = ahead head (k + 1) := by
  apply Fin.ext
  simp only [ahead,Nat.mod_add_mod,Nat.add_assoc]

theorem ahead_value (head : Fin n) (small : k < n) :
    (ahead head k).val = if head.val + k < n then head.val + k else head.val + k - n := by
  have bound := head.isLt
  change (head.val + k) % n = _
  split
  · exact Nat.mod_eq_of_lt ‹_›
  · rw [Nat.mod_eq_sub_mod (by omega)]
    exact Nat.mod_eq_of_lt (by omega)

theorem ahead_apart (head : Fin n) (before : i < count) (room : count < n) : ahead head i ≠ ahead head count := by
  intro same
  have values := congrArg Fin.val same
  rw [ahead_value head (by omega),ahead_value head room] at values
  have small := head.isLt
  split at values <;> split at values <;> omega

theorem window_push (cells : Fin n → α) (head : Fin n) (room : count < n) (item : α) :
    window (Function.update cells (ahead head count) item) head (count + 1) = window cells head count ++ [item] := by
  have kept : ∀ i ∈ List.range count, Function.update cells (ahead head count) item (ahead head i) = cells (ahead head i) := by
    intro i before
    exact Function.update_of_ne (ahead_apart head (List.mem_range.mp before) room) ..
  change (List.range (count + 1)).map (fun i => Function.update cells (ahead head count) item (ahead head i)) = _
  rw [List.range_succ,List.map_append,List.map_congr_left kept,List.map_singleton,Function.update_self]
  rfl

theorem window_pop (cells : Fin n → α) (head : Fin n) (count : Nat) :
    window cells head (count + 1) = cells head :: window cells (ahead head 1) count := by
  have first : ahead head 0 = head := Fin.ext (Nat.mod_eq_of_lt head.isLt)
  change (List.range (count + 1)).map (fun i => cells (ahead head i)) = _ :: (List.range count).map (fun i => cells (ahead (ahead head 1) i))
  rw [List.range_succ_eq_map,List.map_cons,List.map_map,first]
  apply congrArg
  apply List.map_congr_left
  intro i _
  rw [ahead_next]
  rfl

end LinuxCoding.Fifo
