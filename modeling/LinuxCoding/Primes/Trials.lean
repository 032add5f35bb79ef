import Mathlib.Data.Nat.Sqrt
import Mathlib.Tactic.Linarith
import LinuxCoding.Library.CInt

-- The trial divisions on ints: primer1.c, primer2.c, thread3.c and thread4.c stop below
-- i/2, primer_pool_notice.c and primer_pool_busy.c at i/2, thread/posix/Newer/second.c at
-- the square root.
namespace LinuxCoding.Primes.Trials
open CInt

-- for(j = 2; goesOn; j++) if(i % j == 0) { mark = 0; break; }, from a later j on, and the
-- mark it leaves. The fuel bounds the passes, and none is a loop still running.
def trial (goesOn : Int → Bool) : Nat → Int → Int → Option Bool
  | 0,_,_ => none
  | fuel + 1,i,j =>
    if goesOn j then
      if i.tmod j = 0 then some false else trial goesOn fuel i (toInt (j + 1))
    else some true

def belowHalf (i j : Int) : Bool := j < i.tdiv 2
def toHalf (i j : Int) : Bool := j ≤ i.tdiv 2
def toSquare (n i : Int) : Bool := toInt (i * i) ≤ n

-- The loops of primer2.c and of its three siblings, of the two pools, and of primer.
def primer2Mark (fuel : Nat) (i : Int) : Option Bool := trial (belowHalf i) fuel i 2
def poolMark (fuel : Nat) (i : Int) : Option Bool := trial (toHalf i) fuel i 2
def isPrimer (fuel : Nat) (n : Int) : Option Bool := trial (toSquare n) fuel n 2

-- No divisor other than 1 and itself.
def Indivisible (i : Int) : Prop := ∀ d, 1 ≤ d → d ∣ i → d = 1 ∨ d = i

-- The loop returns, with the right mark.
def Verdict (loop : Nat → Int → Option Bool) (i : Int) : Prop :=
  ∃ fuel mark, loop fuel i = some mark ∧ (mark = true ↔ Indivisible i)

def Undivided (i j : Int) : Prop := ∀ d, 2 ≤ d → d < j → ¬ d ∣ i

theorem Undivided.next (undivided : Undivided i j) (fails : ¬ j ∣ i) : Undivided i (j + 1) := by
  intro d low high divides
  by_cases same : d = j
  · subst same
    exact fails divides
  · exact undivided d low (by omega) divides

-- The first j at which a loop ends unless it has found a divisor.
structure Cut (goesOn : Int → Bool) (cut : Int) : Prop where
  low : 2 ≤ cut
  high : cut ≤ intMax
  before : ∀ j, 2 ≤ j → j < cut → goesOn j = true
  stops : goesOn cut = false

theorem trial_cut (cuts : Cut goesOn cut) (left : Nat) (low : 2 ≤ j) (place : j + left = cut) (undivided : Undivided i j) :
    ∃ mark, trial goesOn (left + 1) i j = some mark ∧ (mark = true ↔ Undivided i cut) := by
  induction left generalizing j with
  | zero =>
    have same : j = cut := by omega
    subst same
    refine ⟨true,?_,fun _ => undivided,fun _ => rfl⟩
    simp [trial,cuts.stops]
  | succ left ih =>
    have below : j < cut := by omega
    have high := cuts.high
    rw [trial,if_pos (cuts.before j low below)]
    by_cases divides : i.tmod j = 0
    · rw [if_pos divides]
      have divisor := Int.dvd_of_tmod_eq_zero divides
      exact ⟨false,rfl,nofun,fun none => absurd divisor (none j low below)⟩
    · rw [if_neg divides,toInt_of_nonneg (by omega) (by omega)]
      exact ih (by omega) (by omega) (undivided.next fun divisor => divides (Int.tmod_eq_zero_of_dvd divisor))

-- More fuel does not change a mark.
theorem trial_same (ran : trial goesOn fuel i j = some mark) (ran' : trial goesOn fuel' i j = some mark') : mark = mark' := by
  induction fuel generalizing fuel' j with
  | zero => cases ran
  | succ fuel ih =>
    cases fuel' with
    | zero => cases ran'
    | succ fuel' =>
      rw [trial] at ran ran'
      split at ran
      · rename_i goes
        rw [if_pos goes] at ran'
        split at ran
        · rename_i divides
          rw [if_pos divides] at ran'
          exact Option.some.inj (ran.symm.trans ran')
        · rename_i fails
          rw [if_neg fails] at ran'
          exact ih ran ran'
      · rename_i ends
        rw [if_neg ends] at ran'
        exact Option.some.inj (ran.symm.trans ran')

theorem Cut.verdict (cuts : Cut goesOn cut) : ∃ fuel mark, trial goesOn fuel i 2 = some mark ∧ (mark = true ↔ Undivided i cut) := by
  have low := cuts.low
  have nothing : Undivided i 2 := by
    intro d low high
    omega
  obtain ⟨mark,ran,right⟩ := trial_cut cuts (cut - 2).toNat (by omega) (by omega) nothing
  exact ⟨_,mark,ran,right⟩

theorem Cut.of_test (high : bound ≤ intMax) (test : ∀ j, 2 ≤ j → (goesOn j = true ↔ j < bound)) : Cut goesOn (max 2 bound) := by
  have most : (2 : Int) ≤ intMax := by decide
  refine ⟨by omega,by omega,?_,?_⟩
  · intro j low below
    rw [test j low]
    omega
  · rw [Bool.eq_false_iff,Ne,test _ (by omega)]
    omega

theorem half_cut (low : 2 ≤ i) (high : i ≤ intMax) : Cut (belowHalf i) (max 2 (i / 2)) := by
  apply Cut.of_test (by omega)
  intro j _
  rw [belowHalf,decide_eq_true_eq,Int.tdiv_eq_ediv_of_nonneg (by omega)]

theorem toHalf_cut (low : 2 ≤ i) (high : i ≤ intMax) : Cut (toHalf i) (max 2 (i / 2 + 1)) := by
  apply Cut.of_test (by omega)
  intro j _
  rw [toHalf,decide_eq_true_eq,Int.tdiv_eq_ediv_of_nonneg (by omega)]
  omega

theorem root (low : 2 ≤ n) (high : n < 46340 * 46340) : ∃ r : Int, 1 ≤ r ∧ r < 46340 ∧ r * r ≤ n ∧ n < (r + 1) * (r + 1) := by
  lift n to Nat using (by omega)
  refine ⟨n.sqrt,?_,?_,?_,?_⟩
  · have one : 1 ≤ n.sqrt := Nat.le_sqrt.mpr (by omega)
    exact_mod_cast one
  · have below : n.sqrt < 46340 := Nat.sqrt_lt.mpr (by omega)
    exact_mod_cast below
  · exact_mod_cast Nat.sqrt_le n
  · exact_mod_cast Nat.lt_succ_sqrt n

-- Below 46340 * 46340 no i * i that the loop comes to leaves an int.
theorem square_cut (low : 2 ≤ n) (high : n < 46340 * 46340) : ∃ cut, Cut (toSquare n) cut ∧ cut ≤ n ∧ n < cut * cut := by
  obtain ⟨r,one,below,under,above⟩ := root low high
  have square : (r + 1) * (r + 1) ≤ 46340 * 46340 := by nlinarith
  have exact : ∀ j, 2 ≤ j → j ≤ r + 1 → toInt (j * j) = j * j := by
    intro j lowJ highJ
    apply toInt_of_nonneg
    · nlinarith
    · simp only [intMax]
      nlinarith
  refine ⟨r + 1,⟨by omega,?_,?_,?_⟩,by nlinarith,above⟩
  · simp only [intMax]
    omega
  · intro j lowJ belowJ
    have inside : j * j ≤ r * r := by nlinarith
    simp only [toSquare,exact j lowJ (by omega),decide_eq_true_eq]
    omega
  · simp only [toSquare,exact (r + 1) (by omega) (by omega),decide_eq_false_iff_not]
    omega

theorem Indivisible.undivided (indivisible : Indivisible i) (high : cut ≤ i) : Undivided i cut := by
  intro d low below divides
  rcases indivisible d (by omega) divides with one | same <;> omega

-- A proper divisor comes with another one, and they multiply to i.
theorem Indivisible.of_pair (low : 2 ≤ i) (none : ∀ d e, 2 ≤ d → 2 ≤ e → i ≠ d * e) : Indivisible i := by
  intro d positive divides
  obtain ⟨e,product⟩ := divides
  by_contra proper
  rw [not_or] at proper
  have positiveE : 0 < e := by
    by_contra nonpositive
    nlinarith
  have properE : e ≠ 1 := by
    intro one
    subst one
    omega
  exact none d e (by omega) (by omega) product

theorem square_verdict (low : 2 ≤ i) (positive : 2 ≤ cut) (high : cut ≤ i) (above : i < cut * cut) : Undivided i cut ↔ Indivisible i := by
  refine ⟨fun undivided => ?_,fun indivisible => indivisible.undivided high⟩
  apply Indivisible.of_pair low
  intro d e lowD lowE product
  have reached : cut ≤ d := by
    by_contra below
    exact undivided d lowD (by omega) ⟨e,product⟩
  have reachedE : cut ≤ e := by
    by_contra below
    exact undivided e lowE (by omega) ⟨d,by rw [Int.mul_comm,← product]⟩
  have larger : cut * cut ≤ d * e := Int.mul_le_mul reached reachedE (by omega) (by omega)
  omega

theorem toHalf_verdict (low : 2 ≤ i) : Undivided i (max 2 (i / 2 + 1)) ↔ Indivisible i := by
  refine ⟨fun undivided => ?_,fun indivisible => indivisible.undivided (by omega)⟩
  apply Indivisible.of_pair low
  intro d e lowD lowE product
  have half : d * 2 ≤ i := by nlinarith
  exact undivided d lowD (by omega) ⟨e,product⟩

-- Below i/2 a divisor can only be missed if i is twice 2.
theorem half_verdict (low : 2 ≤ i) (other : i ≠ 4) : Undivided i (max 2 (i / 2)) ↔ Indivisible i := by
  refine ⟨fun undivided => ?_,fun indivisible => indivisible.undivided (by omega)⟩
  apply Indivisible.of_pair low
  intro d e lowD lowE product
  by_cases two : d = 2
  · subst two
    exact undivided 2 (by omega) (by omega) ⟨e,product⟩
  · have third : 3 * e ≤ d * e := Int.mul_le_mul_of_nonneg_right (by omega) (by omega)
    exact undivided e lowE (by omega) ⟨d,by rw [Int.mul_comm,← product]⟩

theorem isPrimer_verdict (low : 2 ≤ n) (high : n < 46340 * 46340) : Verdict isPrimer n := by
  obtain ⟨cut,cuts,inside,above⟩ := square_cut low high
  obtain ⟨fuel,mark,ran,right⟩ := cuts.verdict
  exact ⟨fuel,mark,ran,right.trans (square_verdict low cuts.low inside above)⟩

theorem isPrimer_right (low : 2 ≤ n) (high : n < 46340 * 46340) (ran : isPrimer fuel n = some mark) : mark = true ↔ Indivisible n := by
  obtain ⟨_,_,ran',right⟩ := isPrimer_verdict low high
  rw [trial_same ran ran']
  exact right

theorem poolMark_verdict (low : 2 ≤ i) (high : i ≤ intMax) : Verdict poolMark i := by
  obtain ⟨fuel,mark,ran,right⟩ := (toHalf_cut low high).verdict
  exact ⟨fuel,mark,ran,right.trans (toHalf_verdict low)⟩

theorem primer2Mark_verdict (low : 2 ≤ i) (high : i ≤ intMax) (other : i ≠ 4) : Verdict primer2Mark i := by
  obtain ⟨fuel,mark,ran,right⟩ := (half_cut low high).verdict
  exact ⟨fuel,mark,ran,right.trans (half_verdict low other)⟩

-- 4/2 is 2, so the loop that stops below it does not try 2.
theorem primer2Mark_four : ¬ Verdict primer2Mark 4 := by
  intro ⟨fuel,mark,ran,right⟩
  have prime : mark = true := by
    cases fuel with
    | zero => cases ran
    | succ fuel =>
      simp only [primer2Mark,trial,belowHalf] at ran
      exact (Option.some.inj ran).symm
  rcases right.mp prime 2 (by decide) (by decide) with one | same <;> omega

theorem verdicts_exact (low : 2 ≤ i) (high : i < 46340 * 46340) :
    Verdict primer2Mark i ∧ Verdict poolMark i ∧ Verdict isPrimer i ↔ i ≠ 4 := by
  have small : i ≤ intMax := by
    simp only [intMax]
    omega
  constructor
  · intro all four
    subst four
    exact primer2Mark_four all.1
  · intro other
    exact ⟨primer2Mark_verdict low small other,poolMark_verdict low small,isPrimer_verdict low high⟩

theorem nine_verdicts : (2 ≤ (9 : Int) ∧ (9 : Int) < 46340 * 46340) ∧ (Verdict primer2Mark 9 ∧ Verdict poolMark 9 ∧ Verdict isPrimer 9) :=
  ⟨by decide,(verdicts_exact (by decide) (by decide)).mpr (by decide)⟩

theorem four_disagrees : primer2Mark 1 4 = some true ∧ poolMark 1 4 = some false ∧ isPrimer 1 4 = some false ∧
    ¬ ∀ i, 2 ≤ i → i < 46340 * 46340 → Verdict primer2Mark i ∧ Verdict poolMark i ∧ Verdict isPrimer i := by
  refine ⟨by decide,by decide,by decide,fun all => ?_⟩
  exact primer2Mark_four (all 4 (by decide) (by decide)).1

end LinuxCoding.Primes.Trials
