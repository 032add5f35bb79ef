import Mathlib.Data.Fintype.Card
import Mathlib.Data.List.FinRange

-- A table of a fixed number of slots, each empty or holding one entry, in which an
-- entry is put in the first empty slot.
namespace LinuxCoding.Slots

abbrev Table (n : Nat) (α : Type) : Type := Fin n → Option α

def firstFree (table : Table n α) : Option (Fin n) := (List.finRange n).find? (fun i => (table i).isNone)

theorem firstFree_empty {table : Table n α} (found : firstFree table = some i) : table i = none := by
  have empty := List.find?_some found
  exact Option.isNone_iff_eq_none.mp empty

theorem firstFree_full {table : Table n α} : firstFree table = none ↔ ∀ i, table i ≠ none := by
  unfold firstFree
  rw [List.find?_eq_none]
  constructor
  · intro full i empty
    exact full i (List.mem_finRange i) (by rw [empty]; rfl)
  · intro full i _ empty
    exact full i (Option.isNone_iff_eq_none.mp empty)

theorem firstFree_first {table : Table n α} (positive : 0 < n) (empty : table ⟨0,positive⟩ = none) :
    firstFree table = some ⟨0,positive⟩ := by
  cases n with
  | zero => cases positive
  | succ n =>
    have here : (table 0).isNone = true := Option.isNone_iff_eq_none.mpr empty
    simp [firstFree,List.finRange_succ,here]

theorem firstFree_least {table : Table n α} (empty : table i = none) (below : ∀ k, k < i → table k ≠ none) :
    firstFree table = some i := by
  cases found : firstFree table with
  | none => exact absurd empty (firstFree_full.mp found i)
  | some j =>
    obtain ⟨_,before,after,split,passed⟩ := List.find?_eq_some_iff_append.mp found
    have ordered : (List.finRange n).Pairwise (· < ·) := List.pairwise_lt_finRange n
    have member : i ∈ before ++ j :: after := by
      rw [← split]
      exact List.mem_finRange i
    rw [split] at ordered
    rcases List.mem_append.mp member with earlier | later
    · have full := passed i earlier
      simp [empty] at full
    · rcases List.mem_cons.mp later with same | behind
      · rw [same]
      · have less := List.rel_of_pairwise_cons (List.pairwise_append.mp ordered).2.1 behind
        exact absurd (firstFree_empty found) (below j less)

def free (table : Table n α) : Finset (Fin n) := Finset.univ.filter (fun i => (table i).isNone)

@[simp] theorem mem_free {table : Table n α} : i ∈ free table ↔ table i = none := by simp [free]

theorem free_put {table : Table n α} (empty : table i = none) (entry : α) :
    (free (Function.update table i (some entry))).card + 1 = (free table).card := by
  have removed : free (Function.update table i (some entry)) = (free table).erase i := by
    ext k
    rw [Finset.mem_erase,mem_free,mem_free]
    by_cases same : k = i
    · subst same
      simp
    · simp [same]
  have member : i ∈ free table := mem_free.mpr empty
  rw [removed,Finset.card_erase_of_mem member]
  have positive := Finset.card_pos.mpr ⟨i,member⟩
  omega

theorem free_none {table : Table n α} : (free table).card = 0 ↔ firstFree table = none := by
  rw [Finset.card_eq_zero,firstFree_full,Finset.eq_empty_iff_forall_notMem]
  simp

theorem free_all {table : Table n α} : (free table).card = n ↔ ∀ i, table i = none := by
  constructor
  · intro all i
    have univ : free table = Finset.univ := Finset.card_eq_iff_eq_univ _ |>.mp (by rw [all,Fintype.card_fin])
    exact mem_free.mp (by rw [univ]; exact Finset.mem_univ i)
  · intro empty
    have univ : free table = Finset.univ := by
      ext i
      simp [empty i]
    rw [univ,Finset.card_univ,Fintype.card_fin]

end LinuxCoding.Slots
