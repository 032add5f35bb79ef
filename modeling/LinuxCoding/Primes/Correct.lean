import Mathlib.Data.Nat.Prime.Basic
import LinuxCoding.Primes.Search

-- The search finds the prime numbers, and its unsigned arithmetic is exact.
namespace LinuxCoding.Primes

-- What the programs rely on: no square of a divisor that is tried reaches 2^64.
def Tame (j : Nat) : Prop := j < 4294967295 * 4294967295

-- No i * i and no i += 2 of the inner loop wraps around.
def trialExact : Nat → Nat → Nat → Prop
  | 0,_,_ => True
  | fuel + 1,j,i =>
    i * i ≤ ulongMax ∧
    if ulong (i * i) ≤ j then
      if j % i = 0 then True else i + 2 ≤ ulongMax ∧ trialExact fuel j (ulong (i + 2))
    else True

-- Nor does any j += 2 of the outer one.
def searchExact : Nat → Nat → Nat → Prop
  | 0,_,_ => True
  | fuel + 1,right,j =>
    if j ≤ right then trialExact fuel j 3 ∧ j + 2 ≤ ulongMax ∧ searchExact fuel right (ulong (j + 2)) else True

def primerExact (fuel : Nat) (range : Range) : Prop :=
  if range.left % 2 = 0 then range.left + 1 ≤ ulongMax ∧ searchExact fuel range.right (ulong (range.left + 1))
  else searchExact fuel range.right range.left

-- The divisors that the inner loop comes to.
structure Tried (i : Nat) : Prop where
  odd : i % 2 = 1
  low : 3 ≤ i
  high : i ≤ 4294967295

theorem Tried.square (tried : Tried i) : i * i ≤ ulongMax := by
  have bound := Nat.mul_le_mul tried.high tried.high
  simp only [ulongMax]
  omega

theorem Tried.next (tried : Tried i) (tame : Tame j) (tested : i * i ≤ j) : Tried (i + 2) := by
  obtain ⟨odd,low,_⟩ := tried
  have below : i < 4294967295 := Nat.mul_self_lt_mul_self_iff.mp (Nat.lt_of_le_of_lt tested tame)
  exact ⟨by omega,by omega,by omega⟩

theorem Tried.small (tried : Tried i) : i ≤ ulongMax := by
  have high := tried.high
  simp only [ulongMax]
  omega

theorem three_tried : Tried 3 := ⟨by decide,by decide,by decide⟩

theorem trial_exact (fuel : Nat) (tried : Tried i) (tame : Tame j) : trialExact fuel j i := by
  induction fuel generalizing i with
  | zero => trivial
  | succ fuel ih =>
    rw [trialExact,ulong_small tried.square]
    refine ⟨tried.square,?_⟩
    split
    · rename_i tested
      have next := tried.next tame tested
      split
      · trivial
      · rw [ulong_small next.small]
        exact ⟨next.small,ih next⟩
    · trivial

theorem Tame.small (tame : Tame j) : j + 2 ≤ ulongMax := by
  simp only [Tame] at tame
  simp only [ulongMax]
  omega

theorem search_exact (fuel : Nat) (tame : Tame right) : searchExact fuel right j := by
  induction fuel generalizing j with
  | zero => trivial
  | succ fuel ih =>
    rw [searchExact]
    split
    · rename_i inside
      have tameJ : Tame j := Nat.lt_of_le_of_lt inside tame
      exact ⟨trial_exact fuel three_tried tameJ,tameJ.small,ih⟩
    · trivial

theorem primer_exact (fuel : Nat) {range : Range} (order : range.left ≤ range.right) (tame : Tame range.right) : primerExact fuel range := by
  have small := tame.small
  rw [primerExact]
  split
  · exact ⟨by omega,search_exact fuel tame⟩
  · exact search_exact fuel tame

-- No number below i divides j.
def Undivided (j i : Nat) : Prop := ∀ d, 2 ≤ d → d < i → ¬ d ∣ j

-- An odd number has no even divisor, so the loop may leave those out.
theorem Undivided.next (undivided : Undivided j i) (oddJ : j % 2 = 1) (oddI : i % 2 = 1) (goesOn : ¬ j % i = 0) : Undivided j (i + 2) := by
  intro d low high divides
  rcases Nat.lt_or_ge d i with below | above
  · exact undivided d low below divides
  · by_cases same : d = i
    · subst same
      exact goesOn (Nat.mod_eq_zero_of_dvd divides)
    · have even : 2 ∣ d := by omega
      have evenJ := Nat.mod_eq_zero_of_dvd (even.trans divides)
      omega

-- Without a divisor up to its square root a number is prime.
theorem Undivided.prime (undivided : Undivided j i) (low : 2 ≤ j) (cut : j < i * i) : j.Prime := by
  by_contra composite
  have least := Nat.minFac_prime (n := j) (by omega)
  have square : j.minFac ^ 2 ≤ j := Nat.minFac_sq_le_self (by omega) composite
  rw [Nat.pow_two] at square
  have below : j.minFac < i := Nat.mul_self_lt_mul_self_iff.mp (Nat.lt_of_le_of_lt square cut)
  exact undivided j.minFac least.two_le below (Nat.minFac_dvd j)

theorem three_undivided (odd : j % 2 = 1) : Undivided j 3 := by
  intro d low high divides
  have two : d = 2 := by omega
  subst two
  have even := Nat.mod_eq_zero_of_dvd divides
  omega

theorem divided_composite (low : 3 ≤ i) (tested : i * i ≤ j) (divides : j % i = 0) : ¬ j.Prime := by
  intro prime
  have proper : i < j := by
    have larger : i * 3 ≤ i * i := Nat.mul_le_mul_left i low
    omega
  rcases (Nat.dvd_prime prime).mp (Nat.dvd_of_mod_eq_zero divides) with one | same <;> omega

theorem trial_prime (tried : Tried i) (odd : j % 2 = 1) (low : 2 ≤ j) (tame : Tame j) (undivided : Undivided j i)
    (ran : trial fuel j i = some is) : is = true ↔ j.Prime := by
  induction fuel generalizing i with
  | zero => cases ran
  | succ fuel ih =>
    rw [trial,ulong_small tried.square] at ran
    split at ran
    · rename_i tested
      split at ran
      · rename_i divides
        cases ran
        have composite := divided_composite tried.low tested divides
        exact ⟨nofun,fun prime => absurd prime composite⟩
      · rename_i goesOn
        have next := tried.next tame tested
        rw [ulong_small next.small] at ran
        exact ih next (undivided.next odd tried.odd goesOn) ran
    · rename_i ends
      cases ran
      exact ⟨fun _ => undivided.prime low (by omega),fun _ => rfl⟩

theorem isPrimer_prime (odd : j % 2 = 1) (low : 3 ≤ j) (tame : Tame j) : isPrimer j = true ↔ j.Prime := by
  have small := tame.small
  exact trial_prime three_tried odd (by omega) tame (three_undivided odd) (trial_isPrimer odd low (by omega) (Nat.le_refl j))

theorem oddPrimer_prime (low : 3 ≤ k) (tame : Tame k) : oddPrimer k = true ↔ k.Prime := by
  simp only [oddPrimer,decide_eq_true_eq]
  constructor
  · rintro ⟨odd,found⟩
    exact (isPrimer_prime odd low tame).mp found
  · intro prime
    have odd : k % 2 = 1 := prime.eq_two_or_odd.resolve_left (by omega)
    exact ⟨odd,(isPrimer_prime odd low tame).mpr prime⟩

theorem mem_written (low : 3 ≤ left) (tame : Tame right) : p ∈ written left right ↔ p.Prime ∧ left ≤ p ∧ p ≤ right := by
  rw [written,List.mem_filter,List.mem_range'_1]
  constructor
  · rintro ⟨⟨above,below⟩,found⟩
    have high : p ≤ right := by omega
    exact ⟨(oddPrimer_prime (by omega) (Nat.lt_of_le_of_lt high tame)).mp found,above,high⟩
  · rintro ⟨prime,above,high⟩
    exact ⟨⟨above,by omega⟩,(oddPrimer_prime (by omega) (Nat.lt_of_le_of_lt high tame)).mpr prime⟩

theorem written_increasing (left right : Nat) : (written left right).Pairwise (· < ·) := List.Pairwise.filter _ (List.pairwise_lt_range' 1)

-- A range that begins with 2 goes on from 3.
theorem two_written (two : 2 ≤ right) (small : right < ulongMax) : Writes (primer · ⟨2,right⟩) (2 :: written 3 right) := by
  refine ⟨2 * right + 2,?_⟩
  have next : ulong (2 + 1) = 3 := rfl
  have searched : search (2 * right + 2) right 3 = some (written 3 right) := search_written rfl (Nat.le_refl 3) small (by omega) (by omega)
  simp [primer,next,searched,two]

theorem primer_primes (low : 2 ≤ left) (order : left ≤ right) (high : right < (2 ^ 32 - 1) ^ 2) :
    (∃ out, Writes (primer · ⟨left,right⟩) out ∧ (∀ p, p ∈ out ↔ p.Prime ∧ left ≤ p ∧ p ≤ right) ∧ out.Pairwise (· < ·)) ∧
      ∀ fuel, primerExact fuel ⟨left,right⟩ := by
  have tame : Tame right := high
  have small := tame.small
  refine ⟨?_,fun fuel => primer_exact fuel order tame⟩
  rcases Nat.lt_or_eq_of_le low with above | rfl
  · have below : left ≤ ulongMax := by omega
    have wrote := range_written ⟨left,right⟩ above below (by change right < ulongMax; omega)
    exact ⟨_,wrote,fun p => mem_written above tame,written_increasing left right⟩
  · refine ⟨_,two_written order (by omega),?_,?_⟩
    · intro p
      rw [List.mem_cons,mem_written (Nat.le_refl 3) tame]
      constructor
      · intro member
        rcases member with rfl | ⟨prime,above,below⟩
        · exact ⟨Nat.prime_two,Nat.le_refl 2,order⟩
        · exact ⟨prime,by omega,below⟩
      · intro ⟨prime,above,below⟩
        by_cases two : p = 2
        · exact .inl two
        · exact .inr ⟨prime,by omega,below⟩
    · refine .cons ?_ (written_increasing 3 right)
      intro p member
      have inside := (mem_written (Nat.le_refl 3) tame).mp member
      omega

theorem hundred_primes : (∃ out, Writes (primer · ⟨2,100⟩) out ∧ (∀ p, p ∈ out ↔ p.Prime ∧ 2 ≤ p ∧ p ≤ 100) ∧ out.Pairwise (· < ·)) ∧
    ∀ fuel, primerExact fuel ⟨2,100⟩ := primer_primes (by decide) (by decide) (by decide)

end LinuxCoding.Primes
