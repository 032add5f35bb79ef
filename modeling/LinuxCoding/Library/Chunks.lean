import Mathlib.Data.List.Basic

-- A list read in chunks of one size, the last of which may be shorter.
namespace LinuxCoding.Chunks

-- What a loop reads until a read gives nothing.
def reads (size : Nat) (rest : List α) : List (List α) :=
  if rest.take size = [] then [] else rest.take size :: reads size (rest.drop size)
termination_by rest.length
decreasing_by
  rename_i filled
  rw [List.take_eq_nil_iff,not_or] at filled
  have longer := List.length_pos_iff.mpr filled.2
  have positive : 0 < size := Nat.pos_of_ne_zero filled.1
  rw [List.length_drop]
  omega

theorem reads_nil (size : Nat) : reads size ([] : List α) = [] := by
  rw [reads,List.take_nil,if_pos rfl]

theorem reads_more {rest : List α} (positive : 0 < size) (filled : rest ≠ []) : reads size rest = rest.take size :: reads size (rest.drop size) := by
  rw [reads,if_neg]
  rw [List.take_eq_nil_iff,not_or]
  exact ⟨Nat.ne_of_gt positive,filled⟩

theorem reads_flatten (positive : 0 < size) (rest : List α) : (reads size rest).flatten = rest := by
  induction rest using reads.induct size with
  | case1 rest nothing =>
    rcases List.take_eq_nil_iff.mp nothing with zero | rfl
    · omega
    · rw [reads_nil,List.flatten_nil]
  | case2 rest more ih =>
    rw [reads,if_neg more,List.flatten_cons,ih,List.take_append_drop]

theorem reads_length (positive : 0 < size) (rest : List α) : (reads size rest).length = (rest.length + size - 1) / size := by
  induction rest using reads.induct size with
  | case1 rest nothing =>
    rcases List.take_eq_nil_iff.mp nothing with zero | rfl
    · omega
    · rw [reads_nil,List.length_nil,List.length_nil,Nat.div_eq_of_lt (by omega)]
  | case2 rest more ih =>
    rw [List.take_eq_nil_iff,not_or] at more
    have filled := List.length_pos_iff.mpr more.2
    rw [reads_more positive more.2,List.length_cons,ih,List.length_drop]
    by_cases last : rest.length ≤ size
    · have first : rest.length + size - 1 = (rest.length - 1) + size := by omega
      rw [first,Nat.add_div_right _ positive,Nat.div_eq_of_lt (by omega),Nat.div_eq_of_lt (by omega)]
    · have first : rest.length + size - 1 = (rest.length - size + size - 1) + size := by omega
      rw [first,Nat.add_div_right _ positive]

-- The chunk in place i begins after i whole chunks.
theorem reads_place (positive : 0 < size) (rest : List α) (i : Nat) :
    (reads size rest)[i]? = if size * i < rest.length then some ((rest.drop (size * i)).take size) else none := by
  induction i generalizing rest with
  | zero =>
    by_cases filled : rest = []
    · subst filled
      rw [reads_nil]
      rfl
    · have inside : size * 0 < rest.length := List.length_pos_iff.mpr filled
      rw [reads_more positive filled,if_pos inside]
      rfl
  | succ i ih =>
    by_cases filled : rest = []
    · subst filled
      rw [reads_nil]
      rfl
    · rw [reads_more positive filled,List.getElem?_cons_succ,ih,List.length_drop,List.drop_drop,Nat.mul_succ,Nat.add_comm size]
      by_cases inside : size * i + size < rest.length
      · rw [if_pos inside,if_pos (by omega)]
      · rw [if_neg inside,if_neg (by omega)]

-- All chunks but the last are whole, and none is empty.
theorem reads_whole (positive : 0 < size) (rest : List α) (i : Nat) (later : i + 1 < (reads size rest).length) :
    ∃ chunk, (reads size rest)[i]? = some chunk ∧ chunk.length = size := by
  have next := List.getElem?_eq_getElem later
  rw [reads_place positive] at next
  split at next
  · rename_i inside
    rw [Nat.mul_succ] at inside
    refine ⟨(rest.drop (size * i)).take size,?_,?_⟩
    · rw [reads_place positive,if_pos (by omega)]
    · rw [List.length_take,List.length_drop]
      omega
  · cases next

theorem reads_bounds (positive : 0 < size) (rest : List α) (chunk : List α) (member : chunk ∈ reads size rest) :
    1 ≤ chunk.length ∧ chunk.length ≤ size := by
  obtain ⟨i,there⟩ := List.mem_iff_getElem?.mp member
  rw [reads_place positive] at there
  split at there
  · cases there
    rw [List.length_take,List.length_drop]
    omega
  · cases there

end LinuxCoding.Chunks
