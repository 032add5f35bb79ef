import LinuxCoding.AbcdRace.Chain
import LinuxCoding.AbcdRace.Notice

namespace LinuxCoding.AbcdRace
open Transition

-- Both printers write the letters in turn, neither ever stands still, and of an output of the
-- one and an output of the other the longer goes on where the shorter ends.
structure Printers (thrnum : Nat) (first : 0 < thrnum) : Prop where
  chain : ∀ output s, Runs Chain.Step (Chain.start thrnum) output s →
    Repeats thrnum output ∧ ((∀ t, s.pc t ≠ .absent) → ¬ Stuck Chain.Step s)
  notice : ∀ output s, Runs Notice.Moves (Notice.start first) output s →
    Repeats thrnum output ∧ ((∀ t, s.pc t ≠ .absent) → ¬ Stuck Notice.Step s)
  agree : ∀ output s other u, Runs Chain.Step (Chain.start thrnum) output s → Runs Notice.Moves (Notice.start first) other u →
    output <+: other ∨ other <+: output

theorem printers (first : 0 < thrnum) : Printers thrnum first := by
  refine ⟨?_,?_,?_⟩
  · intro output s run
    obtain ⟨same,_,turn,created⟩ := Chain.chain_turns first run
    exact ⟨turns_repeat first same,Chain.moves turn created⟩
  · intro output s run
    obtain ⟨same,_,turn⟩ := Notice.notice_turns first run
    exact ⟨turns_repeat first same,Notice.moves turn⟩
  · intro output s other u run run'
    exact turns_agree first (Chain.chain_turns first run).1 (Notice.notice_turns first run').1

-- A single thread, and its first letter.
theorem one_printer : ∃ s u, Runs Chain.Step (Chain.start 1) [97] s ∧ Runs Notice.Moves (Notice.start Nat.zero_lt_one) [97] u ∧
    Printers 1 Nat.zero_lt_one := by
  have begins : Runs Chain.Step (Chain.start 1) [] (Chain.start 1) := .nil
  have created := ((begins.step (.inits Nat.zero_lt_one rfl)).step (.locks rfl rfl)).step (.creates rfl)
  have released := (created.step (.ends rfl (Nat.lt_irrefl 1))).step (.releases Nat.zero_lt_one rfl)
  have written := (released.step (.takes (t := 0) rfl rfl)).step (.writes (t := 0) rfl)
  have starts : Runs Notice.Moves (Notice.start Nat.zero_lt_one) [] _ := .nil
  have testing := (starts.step (.inl (.creates Nat.zero_lt_one rfl))).step (.inl (.locks (t := 0) rfl rfl))
  have writes := (testing.step (.inl (.leaves (t := 0) rfl rfl))).step (.inl (.writes (t := 0) rfl))
  exact ⟨_,_,written,writes,printers Nat.zero_lt_one⟩

end LinuxCoding.AbcdRace
