import Mathlib.Logic.Function.Iterate
import LinuxCoding.Library.Transition

-- A turn that goes round: who has it emits something and hands it on.
namespace LinuxCoding.Rotation
open Transition

section
variable {α β : Type} {emit : α → β} {next : α → α}

inductive Turn (emit : α → β) (next : α → α) : α → List β → α → Prop where
  | turn : Turn emit next a [emit a] (next a)

-- What the first k turns emit.
def repetition (emit : α → β) (next : α → α) (a : α) (k : Nat) : List β := (List.range k).map (fun i => emit (next^[i] a))

theorem repetition_succ (k : Nat) : repetition emit next a (k + 1) = repetition emit next a k ++ [emit (next^[k] a)] := by
  simp [repetition,List.range_succ]

theorem repetition_extends (shorter : j ≤ k) : repetition emit next a j <+: repetition emit next a k := by
  refine ⟨(List.range' j (k - j)).map (fun i => emit (next^[i] a)),?_⟩
  rw [repetition,repetition,← List.map_append,List.range_eq_range',List.range_eq_range']
  have split := List.range'_append_1 (s := 0) (m := j) (n := k - j)
  rw [Nat.zero_add,Nat.add_sub_cancel' shorter] at split
  rw [split]

theorem runs_repetition (run : Runs (Turn emit next) a log b) : log = repetition emit next a log.length ∧ b = next^[log.length] a := by
  induction run with
  | nil => exact ⟨rfl,rfl⟩
  | step prior taken ih =>
    obtain ⟨same,reached⟩ := ih
    cases taken with
    | turn =>
      rw [List.length_append,List.length_singleton,repetition_succ,← same,← reached,Function.iterate_succ_apply',← reached]
      exact ⟨rfl,rfl⟩

-- A system in which the turn is always somewhere emits what the turns do.
theorem simulated_repetition (emit : α → β) (next : α → α) {step : σ → List β → σ → Prop} (At : σ → α → Prop)
    (kept : ∀ s a emitted t, At s a → step s emitted t → emitted = [] ∧ At t a ∨ emitted = [emit a] ∧ At t (next a))
    (begins : At s a) (run : Runs step s log t) : log = repetition emit next a log.length ∧ At t (next^[log.length] a) := by
  obtain ⟨b,above,reached⟩ : ∃ b, Runs (Turn emit next) a log b ∧ At t b := run.simulation (f := id) (R := At) rfl (fun _ _ => rfl) (by
    intro s a emitted t holds taken
    rcases kept s a emitted t holds taken with ⟨rfl,same⟩ | ⟨rfl,passed⟩
    · exact ⟨a,.nil,same⟩
    · exact ⟨next a,.one .turn,passed⟩) begins
  obtain ⟨same,last⟩ := runs_repetition above
  subst last
  exact ⟨same,reached⟩

end

end LinuxCoding.Rotation
