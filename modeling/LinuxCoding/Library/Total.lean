import Mathlib.Algebra.BigOperators.Group.Finset.Basic
import Mathlib.Algebra.Order.BigOperators.Group.Finset

-- The weights of a finite family of objects, added up, and the number of objects
-- of one kind.
namespace LinuxCoding.Total

section
variable {ι : Type} [Fintype ι]

def total (weight : α → Nat) (f : ι → α) : Nat := ∑ i, weight (f i)

def tally (kind : α → Bool) (f : ι → α) : Nat := total (fun a => (kind a).toNat) f

-- One member's part of a sum, and what the others keep when it changes.
theorem sum_split [DecidableEq ι] [AddCommMonoid M] (weight : α → M) (f : ι → α) (i : ι) :
    ∃ others, ∑ k, weight (f k) = weight (f i) + others ∧ ∀ x, ∑ k, weight (Function.update f i x k) = weight x + others := by
  have split : ∀ g : ι → α, ∑ k, weight (g k) = weight (g i) + ∑ k ∈ Finset.univ.erase i, weight (g k) :=
    fun g => (Finset.add_sum_erase Finset.univ (fun k => weight (g k)) (Finset.mem_univ i)).symm
  refine ⟨∑ k ∈ Finset.univ.erase i, weight (f k),split f,?_⟩
  intro x
  have others : ∑ k ∈ Finset.univ.erase i, weight (Function.update f i x k) = ∑ k ∈ Finset.univ.erase i, weight (f k) := by
    apply Finset.sum_congr rfl
    intro k member
    rw [Function.update_of_ne (Finset.ne_of_mem_erase member)]
  rw [split (Function.update f i x),others,Function.update_self]

-- The same where the weight is the member's own.
theorem sum_update [DecidableEq ι] [AddCommMonoid M] (weight : ι → α → M) (f : ι → α) (i : ι) (x : α) :
    ∑ k, weight k (Function.update f i x k) + weight i (f i) = ∑ k, weight k (f k) + weight i x := by
  have others : ∑ k ∈ Finset.univ.erase i, weight k (Function.update f i x k) = ∑ k ∈ Finset.univ.erase i, weight k (f k) := by
    apply Finset.sum_congr rfl
    intro k member
    rw [Function.update_of_ne (Finset.ne_of_mem_erase member)]
  have before := Finset.add_sum_erase Finset.univ (fun k => weight k (f k)) (Finset.mem_univ i)
  have after := Finset.add_sum_erase Finset.univ (fun k => weight k (Function.update f i x k)) (Finset.mem_univ i)
  rw [← before,← after,others,Function.update_self]
  rw [add_comm (weight i x),add_comm (weight i (f i)),add_assoc,add_assoc,add_comm (weight i x)]

theorem total_update [DecidableEq ι] (weight : α → Nat) (f : ι → α) (i : ι) (x : α) :
    total weight (Function.update f i x) + weight (f i) = total weight f + weight x := by
  obtain ⟨others,before,after⟩ := sum_split weight f i
  rw [total,total,before,after x]
  omega

theorem total_mono {lower : α → Nat} {upper : β → Nat} {f : ι → α} {g : ι → β}
    (below : ∀ i, lower (f i) ≤ upper (g i)) : total lower f ≤ total upper g := by
  apply Finset.sum_le_sum
  intro i _
  exact below i

theorem total_member (weight : α → Nat) (f : ι → α) (i : ι) : weight (f i) ≤ total weight f :=
  Finset.single_le_sum (f := fun k => weight (f k)) (fun _ _ => Nat.zero_le _) (Finset.mem_univ i)

theorem tally_update [DecidableEq ι] (kind : α → Bool) (f : ι → α) (i : ι) (x : α) :
    tally kind (Function.update f i x) + (kind (f i)).toNat = tally kind f + (kind x).toNat :=
  total_update _ f i x

-- A member that stays of its kind, and one that comes to it.
theorem tally_same [DecidableEq ι] {kind : α → Bool} {f : ι → α} (place : f i = y) (same : kind x = kind y) :
    tally kind (Function.update f i x) = tally kind f := by
  have split := tally_update kind f i x
  rw [place,same] at split
  exact Nat.add_right_cancel split

theorem tally_more [DecidableEq ι] {kind : α → Bool} {f : ι → α} (place : f i = y) (old : kind y = false) (new : kind x = true) :
    tally kind (Function.update f i x) = tally kind f + 1 := by
  have split := tally_update kind f i x
  rw [place,old,new] at split
  exact split

theorem tally_zero {kind : α → Bool} {f : ι → α} (none : ∀ i, kind (f i) = false) : tally kind f = 0 := by
  apply Finset.sum_eq_zero
  intro i _
  simp [none i]

theorem tally_found {kind : α → Bool} {f : ι → α} (positive : 0 < tally kind f) : ∃ i, kind (f i) = true := by
  apply Classical.byContradiction
  intro none
  have zero : tally kind f = 0 := tally_zero (fun i => by simpa using fun found => none ⟨i,found⟩)
  omega

theorem tally_size (kind : α → Bool) (f : ι → α) : tally kind f ≤ Fintype.card ι := by
  have bound : ∑ i : ι, (kind (f i)).toNat ≤ ∑ _i : ι, 1 := Finset.sum_le_sum (fun i _ => Bool.toNat_le (kind (f i)))
  simpa [tally,total] using bound

-- A member of another kind leaves room for one more.
theorem tally_room {kind : α → Bool} {f : Fin n → α} (place : f i = y) (other : kind y = false) : tally kind f < n := by
  have less : ∑ k, (kind (f k)).toNat < ∑ _k : Fin n, 1 := by
    apply Finset.sum_lt_sum
    · exact fun k _ => Bool.toNat_le (kind (f k))
    · refine ⟨i,Finset.mem_univ i,?_⟩
      rw [place,other]
      exact Nat.zero_lt_one
  simpa [tally,total] using less

theorem tally_full {kind : α → Bool} {f : ι → α} (all : ∀ i, kind (f i) = true) : tally kind f = Fintype.card ι := by
  have each : ∀ i, (kind (f i)).toNat = 1 := fun i => by rw [all i]; rfl
  simp [tally,total,each]

-- A kind of which there is no second member.
theorem tally_unique {kind : α → Bool} {f : ι → α} (one : tally kind f ≤ 1) (left : kind (f i) = true) (right : kind (f j) = true) : i = j := by
  classical
  by_contra apart
  have pair : ∑ k ∈ {i,j}, (kind (f k)).toNat ≤ tally kind f := Finset.sum_le_sum_of_subset (Finset.subset_univ _)
  rw [Finset.sum_pair apart,left,right] at pair
  exact absurd (Nat.le_trans pair one) (by decide)

end

end LinuxCoding.Total
