import Mathlib.Data.Int.Basic

namespace LinuxCoding.CInt

def intMax : Int := 2147483647
def intMin : Int := -2147483648

-- The value an int variable holds after an arithmetic result is stored in it.
def toInt (n : Int) : Int := n.bmod 4294967296

theorem toInt_inRange (low : intMin ≤ n) (high : n ≤ intMax) : toInt n = n := by
  simp only [intMin,intMax] at low high
  unfold toInt
  rw [Int.bmod_eq_of_le] <;> omega

theorem toInt_of_nonneg (nonneg : 0 ≤ n) (high : n ≤ intMax) : toInt n = n := by
  apply toInt_inRange _ high
  simp only [intMin]
  omega

theorem toInt_add (m n : Int) : toInt (toInt m + n) = toInt (m + n) := Int.bmod_add_bmod

abbrev IntValue : Type := {n : Int // intMin ≤ n ∧ n ≤ intMax}

theorem toInt_bounds (n : Int) : intMin ≤ toInt n ∧ toInt n ≤ intMax := by
  have low : -(4294967296 / 2) ≤ n.bmod 4294967296 := Int.le_bmod (by decide)
  have high : n.bmod 4294967296 < (4294967296 + 1) / 2 := Int.bmod_lt (by decide)
  simp only [toInt,intMin,intMax]
  omega

theorem toInt_exact (nonneg : 0 ≤ n) : toInt n = n ↔ n ≤ intMax := by
  constructor
  · intro same
    rw [← same]
    exact (toInt_bounds n).2
  · exact toInt_of_nonneg nonneg

def store (n : Int) : IntValue := ⟨toInt n,toInt_bounds n⟩

theorem store_val (low : intMin ≤ n) (high : n ≤ intMax) : (store n).val = n := toInt_inRange low high

theorem store_of_nonneg (nonneg : 0 ≤ n) (high : n ≤ intMax) : (store n).val = n := toInt_of_nonneg nonneg high

-- The same for a long.
def toLong (n : Int) : Int := n.bmod 18446744073709551616

theorem toLong_inRange (low : -9223372036854775808 ≤ n) (high : n ≤ 9223372036854775807) : toLong n = n := by
  unfold toLong
  rw [Int.bmod_eq_of_le] <;> omega

theorem toLong_add (m n : Int) : toLong (toLong m + n) = toLong (m + n) := Int.bmod_add_bmod

-- The test `word & bits` of an if, and the masks whose bits are all allowed.
def any (word bits : BitVec w) : Bool := word &&& bits != 0
def Within (word allowed : BitVec w) : Prop := word ||| allowed = allowed

instance (word allowed : BitVec w) : Decidable (Within word allowed) :=
  inferInstanceAs (Decidable (word ||| allowed = allowed))

theorem any_iff {word bits : BitVec w} :
    any word bits = true ↔ ∃ i, word.getLsbD i = true ∧ bits.getLsbD i = true := by
  unfold any
  rw [bne_iff_ne]
  constructor
  · intro nonzero
    by_contra none
    apply nonzero
    apply BitVec.eq_of_getLsbD_eq
    intro i _
    have zero : BitVec.getLsbD (0 : BitVec w) i = false := BitVec.getLsbD_zero
    rw [BitVec.getLsbD_and,zero,Bool.and_eq_false_iff]
    cases inWord : word.getLsbD i with
    | false => exact .inl rfl
    | true =>
      cases inBits : bits.getLsbD i with
      | false => exact .inr rfl
      | true => exact absurd ⟨i,inWord,inBits⟩ none
  · intro ⟨i,inWord,inBits⟩ zero
    have both := congrArg (BitVec.getLsbD · i) zero
    simp [inWord,inBits] at both

theorem any_or {word other bits : BitVec w} : any (word ||| other) bits = (any word bits || any other bits) := by
  rw [Bool.eq_iff_iff,Bool.or_eq_true,any_iff,any_iff,any_iff]
  simp only [BitVec.getLsbD_or,Bool.or_eq_true,or_and_right,exists_or]

theorem any_within {word allowed bits : BitVec w} (within : Within word allowed) (set : any word bits = true) :
    any allowed bits = true := by
  rw [← show word ||| allowed = allowed from within,any_or,set,Bool.true_or]

end LinuxCoding.CInt
