import Mathlib.Data.List.Basic

-- Lists split at their separators.
namespace LinuxCoding.Split

section
variable {α : Type}

theorem first_separator (p : α → Bool) (list : List α) : (∀ a ∈ list, p a = false) ∨
    ∃ part a rest, list = part ++ a :: rest ∧ (∀ b ∈ part, p b = false) ∧ p a = true := by
  induction list with
  | nil => exact .inl nofun
  | cons first rest ih =>
    cases ends : p first with
    | true => exact .inr ⟨[],first,rest,rfl,nofun,ends⟩
    | false =>
      rcases ih with inside | ⟨part,a,more,same,inside,cut⟩
      · exact .inl (List.forall_mem_cons.mpr ⟨ends,inside⟩)
      · exact .inr ⟨first :: part,a,more,by rw [same,List.cons_append],List.forall_mem_cons.mpr ⟨ends,inside⟩,cut⟩

variable [BEq α]

theorem splitOn_length (a : α) (list : List α) : (list.splitOn a).length = list.count a + 1 := by
  induction list with
  | nil => rfl
  | cons first rest ih =>
    rw [List.splitOn_cons_eq_if_modifyHead,List.count_cons]
    cases first == a <;> simp [ih]

variable [LawfulBEq α]

theorem splitOn_injective {a : α} {list other : List α} (same : list.splitOn a = other.splitOn a) : list = other := by
  have joined := congrArg (List.intercalate [a]) same
  rwa [List.intercalate_splitOn,List.intercalate_splitOn] at joined

-- A part has no separator, and only elements of the list.
theorem splitOn_part {a : α} {list part : List α} (member : part ∈ list.splitOn a) : a ∉ part ∧ ∀ b ∈ part, b ∈ list := by
  induction list generalizing part with
  | nil =>
    rw [List.splitOn_nil,List.mem_singleton] at member
    rw [member]
    exact ⟨List.not_mem_nil,nofun⟩
  | cons first rest ih =>
    have later : ∀ part ∈ rest.splitOn a, a ∉ part ∧ ∀ b ∈ part, b ∈ first :: rest := by
      intro part member
      obtain ⟨free,inside⟩ := ih member
      exact ⟨free,fun b inPart => List.mem_cons_of_mem first (inside b inPart)⟩
    rw [List.splitOn_cons_eq_if_modifyHead] at member
    split at member
    · rcases List.mem_cons.mp member with rfl | tail
      · exact ⟨List.not_mem_nil,nofun⟩
      · exact later part tail
    · rename_i other
      cases parts : rest.splitOn a with
      | nil => exact absurd parts (List.splitOn_ne_nil _ _)
      | cons head tail =>
        rw [parts,List.modifyHead_cons] at member
        rw [parts] at later
        rcases List.mem_cons.mp member with rfl | inTail
        · obtain ⟨free,inside⟩ := later head List.mem_cons_self
          refine ⟨?_,List.forall_mem_cons.mpr ⟨List.mem_cons_self,inside⟩⟩
          intro separated
          rcases List.mem_cons.mp separated with same | inHead
          · exact other (by simp [same])
          · exact free inHead
        · exact later part (List.mem_cons_of_mem head inTail)

end

end LinuxCoding.Split
