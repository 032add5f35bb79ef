import Mathlib.Data.List.TakeWhile
import Mathlib.Algebra.Ring.Nat
import Mathlib.Algebra.Ring.Int.Defs
import Mathlib.Tactic.Ring

-- Numbers in decimal, as %d prints them and strtol reads them.
namespace LinuxCoding.Decimal

def digits (n : Nat) : List UInt8 := (Nat.toDigits 10 n).map (fun digit => .ofNat digit.toNat)

def print (n : Int) : List UInt8 := if n < 0 then 45 :: digits n.natAbs else digits n.natAbs

def isDigit (byte : UInt8) : Bool := 48 ≤ byte.toNat && byte.toNat ≤ 57

def isSpace (byte : UInt8) : Bool := byte = 32 || 9 ≤ byte.toNat && byte.toNat ≤ 13

def value (bytes : List UInt8) : Nat := bytes.foldl (fun sofar byte => 10 * sofar + (byte.toNat - 48)) 0

-- White space, a sign, and the digits up to the first byte that is none.
def parse (text : List UInt8) : Int :=
  match text.dropWhile isSpace with
  | [] => 0
  | byte :: rest =>
    if byte = 45 then -(value (rest.takeWhile isDigit) : Int)
    else if byte = 43 then value (rest.takeWhile isDigit)
    else value ((byte :: rest).takeWhile isDigit)

theorem digit_bounds {digit : Char} (isDigit : digit.isDigit = true) : 48 ≤ digit.toNat ∧ digit.toNat ≤ 57 := by
  simpa [Char.isDigit,UInt32.le_iff_toNat_le] using isDigit

theorem digit_byte {digit : Char} (isDigit : digit.isDigit = true) : (UInt8.ofNat digit.toNat).toNat = digit.toNat := by
  have bounds := digit_bounds isDigit
  rw [UInt8.toNat_ofNat',Nat.mod_eq_of_lt (by omega)]

theorem toDigits_isDigit (member : digit ∈ Nat.toDigits 10 n) : digit.isDigit = true :=
  Nat.isDigit_of_mem_toDigits (by decide) (by decide) member

theorem digits_isDigit (n : Nat) : ∀ byte ∈ digits n, isDigit byte = true := by
  intro byte member
  obtain ⟨digit,there,rfl⟩ := List.mem_map.mp member
  have bounds := digit_bounds (toDigits_isDigit there)
  rw [isDigit,digit_byte (toDigits_isDigit there)]
  simpa using bounds

theorem digits_nonempty (n : Nat) : digits n ≠ [] := by
  intro empty
  exact Nat.toDigits_ne_nil (List.map_eq_nil_iff.mp empty)

theorem value_digits (n : Nat) : value (digits n) = n := by
  have same : ∀ (chars : List Char) (sofar : Nat), (∀ digit ∈ chars, digit.isDigit = true) →
      (chars.map (fun digit => UInt8.ofNat digit.toNat)).foldl (fun sofar byte => 10 * sofar + (byte.toNat - 48)) sofar =
        Nat.ofDigitChars 10 chars sofar := by
    intro chars
    induction chars with
    | nil => simp
    | cons digit chars ih =>
      intro sofar all
      rw [List.map_cons,List.foldl_cons,Nat.ofDigitChars_cons,digit_byte (all digit List.mem_cons_self),ih]
      · rfl
      · exact fun other member => all other (List.mem_cons_of_mem _ member)
  exact (same _ _ (fun _ member => toDigits_isDigit member)).trans Nat.ofDigitChars_ten_toDigits

theorem digits_length (k : Nat) (positive : 0 < k) : (digits n).length ≤ k ↔ n < 10 ^ k := by
  rw [digits,List.length_map]
  exact Nat.length_toDigits_le_iff (by decide) positive

-- What follows the digits is not read if it begins with something else.
theorem takeWhile_digits {bytes : List UInt8} (all : ∀ byte ∈ bytes, isDigit byte = true) (ends : ∀ byte ∈ rest.head?, isDigit byte = false) :
    (bytes ++ rest).takeWhile isDigit = bytes := by
  rw [List.takeWhile_append_of_pos all]
  cases rest with
  | nil => simp
  | cons byte rest =>
    have other := ends byte rfl
    simp [other]

theorem parse_digits {bytes : List UInt8} (all : ∀ byte ∈ bytes, isDigit byte = true) (some : bytes ≠ [])
    (rest : List UInt8) (ends : ∀ byte ∈ rest.head?, isDigit byte = false) : parse (bytes ++ rest) = value bytes := by
  cases bytes with
  | nil => exact absurd rfl some
  | cons byte bytes =>
    have bounds := all byte List.mem_cons_self
    have numeric : 48 ≤ byte.toNat ∧ byte.toNat ≤ 57 := by simpa [isDigit] using bounds
    have other : ∀ n, n < 48 → byte ≠ UInt8.ofNat n := by
      intro n low same
      rw [same,UInt8.toNat_ofNat',Nat.mod_eq_of_lt (by omega)] at numeric
      omega
    have minus : byte ≠ 45 := other 45 (by decide)
    have plus : byte ≠ 43 := other 43 (by decide)
    have blank : byte ≠ 32 := other 32 (by decide)
    have space : isSpace byte = false := by
      simp only [isSpace,Bool.or_eq_false_iff,decide_eq_false_iff_not,Bool.and_eq_false_iff]
      exact ⟨blank,.inr (by omega)⟩
    unfold parse
    rw [List.cons_append,List.dropWhile_cons_of_neg (by rw [space]; nofun)]
    change (if byte = 45 then _ else if byte = 43 then _ else _) = _
    rw [if_neg minus,if_neg plus,← List.cons_append,takeWhile_digits all ends]

theorem parse_minus {bytes : List UInt8} (all : ∀ byte ∈ bytes, isDigit byte = true) (rest : List UInt8) (ends : ∀ byte ∈ rest.head?, isDigit byte = false) :
    parse (45 :: bytes ++ rest) = -(value bytes : Int) := by
  unfold parse
  rw [List.cons_append,List.dropWhile_cons_of_neg (by decide)]
  change (if (45 : UInt8) = 45 then _ else _) = _
  rw [if_pos rfl,takeWhile_digits all ends]

theorem parse_print (n : Int) (rest : List UInt8) (ends : ∀ byte ∈ rest.head?, isDigit byte = false) : parse (print n ++ rest) = n := by
  unfold print
  split
  · rw [parse_minus (digits_isDigit _) rest ends,value_digits]
    omega
  · rw [parse_digits (digits_isDigit _) (digits_nonempty _) rest ends,value_digits]
    omega

theorem print_injective (same : print m = print n) : m = n := by
  have left := parse_print m [] nofun
  rw [same] at left
  exact left.symm.trans (parse_print n [] nofun)

-- The first digit is not 0, so a number of which only the beginning is read is still large.
theorem value_append (bytes more : List UInt8) : value (bytes ++ more) = value bytes * 10 ^ more.length + value more := by
  have general : ∀ (more : List UInt8) (sofar : Nat), more.foldl (fun sofar byte => 10 * sofar + (byte.toNat - 48)) sofar =
      sofar * 10 ^ more.length + value more := by
    intro more
    induction more with
    | nil => simp [value]
    | cons byte more ih =>
      intro sofar
      rw [value,List.foldl_cons,List.foldl_cons,ih,ih,List.length_cons,Nat.pow_succ']
      ring
  rw [value,List.foldl_append]
  exact general more _

theorem value_bound {bytes : List UInt8} (all : ∀ byte ∈ bytes, isDigit byte = true) : value bytes < 10 ^ bytes.length := by
  induction bytes with
  | nil => simp [value]
  | cons byte bytes ih =>
    have below := ih (fun other member => all other (List.mem_cons_of_mem _ member))
    have bounds : 48 ≤ byte.toNat ∧ byte.toNat ≤ 57 := by simpa [isDigit] using all byte List.mem_cons_self
    have split := value_append [byte] bytes
    have first : value [byte] = byte.toNat - 48 := by simp [value]
    rw [List.singleton_append,first] at split
    rw [split,List.length_cons,Nat.pow_succ']
    have most : (byte.toNat - 48) * 10 ^ bytes.length ≤ 9 * 10 ^ bytes.length := Nat.mul_le_mul_right _ (by omega)
    omega

theorem value_take (n : Nat) (positive : 0 < k) (cut : k < (digits n).length) : 10 ^ (k - 1) ≤ value ((digits n).take k) := by
  have split := value_append ((digits n).take k) ((digits n).drop k)
  have below := value_bound (fun byte member => digits_isDigit n byte (List.mem_of_mem_drop member) : ∀ byte ∈ (digits n).drop k, _)
  have large : ¬ n < 10 ^ ((digits n).length - 1) := by
    rw [← digits_length _ (by omega)]
    omega
  rw [List.take_append_drop,value_digits] at split
  rw [List.length_drop] at split below
  have power : 10 ^ ((digits n).length - 1) = 10 ^ (k - 1) * 10 ^ ((digits n).length - k) := by
    rw [← Nat.pow_add]
    congr 1
    omega
  by_contra small
  have less : (value ((digits n).take k) + 1) * 10 ^ ((digits n).length - k) ≤ 10 ^ (k - 1) * 10 ^ ((digits n).length - k) :=
    Nat.mul_le_mul_right _ (by omega)
  rw [Nat.add_mul,Nat.one_mul] at less
  omega

theorem parse_take (n : Int) (room : 2 ≤ k) (cut : k < (print n).length) : 10 ^ (k - 2) ≤ (parse ((print n).take k)).natAbs := by
  have taken : ∀ j, ∀ byte ∈ (digits n.natAbs).take j, isDigit byte = true :=
    fun j byte member => digits_isDigit _ byte (List.mem_of_mem_take member)
  unfold print at cut ⊢
  split at cut
  · rename_i negative
    obtain ⟨j,rfl⟩ : ∃ j, k = j + 2 := ⟨k - 2,by omega⟩
    have read := parse_minus (taken (j + 1)) [] nofun
    rw [List.append_nil] at read
    rw [if_pos negative,List.take_succ_cons,read]
    have large := value_take n.natAbs (k := j + 1) (by omega) (Nat.lt_of_succ_lt_succ cut)
    simpa using large
  · rename_i nonnegative
    have some : (digits n.natAbs).take k ≠ [] := by
      intro empty
      have none := congrArg List.length empty
      rw [List.length_take,List.length_nil] at none
      omega
    have read := parse_digits (taken k) some [] nofun
    rw [List.append_nil] at read
    rw [if_neg nonnegative,read]
    have large := value_take n.natAbs (k := k) (by omega) cut
    have less : 10 ^ (k - 2) ≤ 10 ^ (k - 1) := Nat.pow_le_pow_right (by decide) (by omega)
    simpa using Nat.le_trans less large

end LinuxCoding.Decimal
