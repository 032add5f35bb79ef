import Mathlib.Data.List.Range
import Mathlib.Data.List.Perm.Basic

-- thread/posix/Newer/primer_by_one.c and the programs that divide its search among
-- threads.
namespace LinuxCoding.Primes

-- The value an unsigned long variable holds.
def ulong (n : Nat) : Nat := n % 18446744073709551616

def ulongMax : Nat := 18446744073709551615

-- for(i = 3; i * i <= j; i += 2), from a later i on. The fuel bounds the passes of the
-- loops, and none is a loop still running.
def trial : Nat → Nat → Nat → Option Bool
  | 0,_,_ => none
  | fuel + 1,j,i =>
    if ulong (i * i) ≤ j then
      if j % i = 0 then some false else trial fuel j (ulong (i + 2))
    else some true

-- for(j = left; j <= right; j += 2), and what is written
def search : Nat → Nat → Nat → Option (List Nat)
  | 0,_,_ => none
  | fuel + 1,right,j =>
    if j ≤ right then do
      let isPrimer ← trial fuel j 3
      let rest ← search fuel right (ulong (j + 2))
      some (if isPrimer then j :: rest else rest)
    else some []

-- primer of primer_by_one.c
def primerByOne (fuel n : Nat) : Option (List Nat) := do
  let odd ← search fuel n 3
  some (if n ≥ 2 then 2 :: odd else odd)

structure Range where
  left : Nat
  right : Nat
  deriving DecidableEq

-- primer of the others
def primer (fuel : Nat) (range : Range) : Option (List Nat) := do
  let odd ← search fuel range.right (if range.left % 2 = 0 then ulong (range.left + 1) else range.left)
  some (if range.left ≤ 2 ∧ range.right ≥ 2 then 2 :: odd else odd)

def Writes (program : Nat → Option (List Nat)) (out : List Nat) : Prop := ∃ fuel, program fuel = some out

-- Consecutive ranges from a left end up to n.
def Division (n : Nat) : Nat → List Range → Prop
  | _,[] => False
  | left,[range] => range = ⟨left,n⟩
  | left,range :: next :: rest => range.left = left ∧ left ≤ range.right ∧ range.right < n ∧ Division n (range.right + 1) (next :: rest)

def divides (n : Nat) : Nat → List Range → Bool
  | _,[] => false
  | left,[range] => range = ⟨left,n⟩
  | left,range :: next :: rest => range.left = left ∧ left ≤ range.right ∧ range.right < n ∧ divides n (range.right + 1) (next :: rest)

theorem divides_iff (n left : Nat) (ranges : List Range) : divides n left ranges = true ↔ Division n left ranges := by
  induction ranges generalizing left with
  | nil => simp [divides,Division]
  | cons range rest ih =>
    cases rest with
    | nil => simp [divides,Division]
    | cons next rest => simp [divides,Division,ih]

instance (n left : Nat) (ranges : List Range) : Decidable (Division n left ranges) := decidable_of_iff _ (divides_iff n left ranges)

-- The ranges in the programs.
def byFour : List Range :=
  [⟨3,25000000⟩,⟨25000001,50000000⟩,⟨50000001,75000000⟩,⟨75000001,100000000⟩]
def byEight : List Range :=
  [⟨3,12500000⟩,⟨12500001,25000000⟩,⟨25000001,37500000⟩,⟨37500001,50000000⟩,
   ⟨50000001,62500000⟩,⟨62500001,75000000⟩,⟨75000001,87500000⟩,⟨87500001,100000000⟩]
def bySixteen : List Range :=
  [⟨3,6250000⟩,⟨6250001,12500000⟩,⟨12500001,18750000⟩,⟨18750001,25000000⟩,
   ⟨25000001,31250000⟩,⟨31250001,37500000⟩,⟨37500001,43750000⟩,⟨43750001,50000000⟩,
   ⟨50000001,56250000⟩,⟨56250001,62500000⟩,⟨62500001,68750000⟩,⟨68750001,75000000⟩,
   ⟨75000001,81250000⟩,⟨81250001,87500000⟩,⟨87500001,93750000⟩,⟨93750001,100000000⟩]
def by24 : List Range :=
  [⟨3,4166666⟩,⟨4166667,8333333⟩,⟨8333334,12500000⟩,⟨12500001,16666666⟩,
   ⟨16666667,20833333⟩,⟨20833334,25000000⟩,⟨25000001,29166666⟩,⟨29166667,33333333⟩,
   ⟨33333334,37500000⟩,⟨37500001,41666666⟩,⟨41666667,45833333⟩,⟨45833334,50000000⟩,
   ⟨50000001,54166666⟩,⟨54166667,58333333⟩,⟨58333334,62500000⟩,⟨62500001,66666666⟩,
   ⟨66666667,70833333⟩,⟨70833334,75000000⟩,⟨75000001,79166666⟩,⟨79166667,83333333⟩,
   ⟨83333334,87500000⟩,⟨87500001,91666666⟩,⟨91666667,95833333⟩,⟨95833334,100000000⟩]
def by32 : List Range :=
  [⟨3,3125000⟩,⟨3125001,6250000⟩,⟨6250001,9375000⟩,⟨9375001,12500000⟩,
   ⟨12500001,15625000⟩,⟨15625001,18750000⟩,⟨18750001,21875000⟩,⟨21875001,25000000⟩,
   ⟨25000001,28125000⟩,⟨28125001,31250000⟩,⟨31250001,34375000⟩,⟨34375001,37500000⟩,
   ⟨37500001,40625000⟩,⟨40625001,43750000⟩,⟨43750001,46875000⟩,⟨46875001,50000000⟩,
   ⟨50000001,53125000⟩,⟨53125001,56250000⟩,⟨56250001,59375000⟩,⟨59375001,62500000⟩,
   ⟨62500001,65625000⟩,⟨65625001,68750000⟩,⟨68750001,71875000⟩,⟨71875001,75000000⟩,
   ⟨75000001,78125000⟩,⟨78125001,81250000⟩,⟨81250001,84375000⟩,⟨84375001,87500000⟩,
   ⟨87500001,90625000⟩,⟨90625001,93750000⟩,⟨93750001,96875000⟩,⟨96875001,100000000⟩]

theorem tables_divide : ∀ table ∈ [byFour,byEight,bySixteen,by24,by32], Division 100000000 3 table := by decide +kernel

theorem ulong_small (small : n ≤ ulongMax) : ulong n = n := by
  apply Nat.mod_eq_of_lt
  simp only [ulongMax] at small
  omega

theorem ulong_odd (odd : n % 2 = 1) : ulong n % 2 = 1 := by
  simp only [ulong]
  omega

theorem trial_more (ran : trial fuel j i = some is) (extra : Nat) : trial (fuel + extra) j i = some is := by
  induction fuel generalizing i with
  | zero => cases ran
  | succ fuel ih =>
    rw [Nat.succ_add]
    unfold trial at ran ⊢
    split at ran
    · rename_i tested
      rw [if_pos tested]
      split at ran
      · rename_i divides
        rw [if_pos divides]
        exact ran
      · rename_i goesOn
        rw [if_neg goesOn]
        exact ih ran
    · rename_i ends
      rw [if_neg ends]
      exact ran

-- An odd number is its own last divisor, so the loop has an end even where i * i wraps
-- around.
theorem trial_ends (odd : j % 2 = 1) (small : j ≤ ulongMax) (oddI : i % 2 = 1) (low : i ≤ j) (enough : j ≤ i + 2 * fuel) :
    ∃ is, trial (fuel + 1) j i = some is := by
  induction fuel generalizing i with
  | zero =>
    have same : i = j := by omega
    subst same
    unfold trial
    rw [Nat.mod_self]
    split
    · exact ⟨false,rfl⟩
    · exact ⟨true,rfl⟩
  | succ fuel ih =>
    unfold trial
    split
    · split
      · exact ⟨false,rfl⟩
      · rename_i undivided
        have apart : i ≠ j := by
          rintro rfl
          exact undivided (Nat.mod_self i)
        rw [ulong_small (by omega)]
        exact ih (by omega) (by omega) (by omega)
    · exact ⟨true,rfl⟩

-- What the inner loop finds out about an odd number.
def isPrimer (j : Nat) : Bool := (trial j j 3).getD false

theorem trial_isPrimer (odd : j % 2 = 1) (low : 3 ≤ j) (small : j ≤ ulongMax) (enough : j ≤ fuel) :
    trial fuel j 3 = some (isPrimer j) := by
  have positive : j - 1 + 1 = j := by omega
  obtain ⟨is,ran⟩ : ∃ is, trial (j - 1 + 1) j 3 = some is := trial_ends odd small (by decide) low (by omega)
  rw [positive] at ran
  obtain ⟨extra,rfl⟩ := Nat.exists_eq_add_of_le enough
  rw [trial_more ran extra,isPrimer,ran]
  rfl

def oddPrimer (k : Nat) : Bool := k % 2 = 1 ∧ isPrimer k

-- The numbers of a range that are written, in order.
def written (left right : Nat) : List Nat := (List.range' left (right + 1 - left)).filter oddPrimer

theorem written_empty (beyond : right < left) : written left right = [] := by
  have nothing : right + 1 - left = 0 := by omega
  rw [written,nothing]
  rfl

theorem written_next (low : left ≤ right) : written left right = (if oddPrimer left then [left] else []) ++ written (left + 1) right := by
  have first : right + 1 - left = (right + 1 - (left + 1)) + 1 := by omega
  rw [written,first,List.range'_succ,List.filter_cons]
  split <;> rfl

theorem written_even (even : left % 2 = 0) : written left right = written (left + 1) right := by
  rcases Nat.lt_or_ge right left with beyond | low
  · rw [written_empty beyond,written_empty (by omega)]
  · have skipped : oddPrimer left = false := by simp [oddPrimer,even]
    rw [written_next low,skipped]
    rfl

-- Two ranges that meet are one.
theorem written_glue (low : left ≤ middle + 1) (high : middle ≤ right) : written left right = written left middle ++ written (middle + 1) right := by
  have whole : right + 1 - left = (middle + 1 - left) + (right + 1 - (middle + 1)) := by omega
  have meets : left + (middle + 1 - left) = middle + 1 := by omega
  rw [written,whole,← List.range'_append_1,List.filter_append,meets]
  rfl

theorem search_written (odd : j % 2 = 1) (low : 3 ≤ j) (small : right < ulongMax) (more : 0 < fuel) (enough : 2 * right + 2 ≤ fuel + j) :
    search fuel right j = some (written j right) := by
  induction fuel generalizing j with
  | zero => cases more
  | succ fuel ih =>
    unfold search
    split
    · rename_i inside
      have next : ulong (j + 2) = j + 2 := by
        apply ulong_small
        simp only [ulongMax] at small ⊢
        omega
      rw [trial_isPrimer odd low (by omega) (by omega),next,ih (by omega) (by omega) (by omega) (by omega)]
      have even : written (j + 1) right = written (j + 2) right := written_even (by omega)
      rw [written_next inside,even]
      have kept : oddPrimer j = isPrimer j := by simp [oddPrimer,odd]
      cases found : isPrimer j <;> simp [kept,found]
    · rw [written_empty (by omega)]

theorem one_written (small : n < ulongMax) : Writes (primerByOne · n) (if n ≥ 2 then 2 :: written 3 n else written 3 n) := by
  refine ⟨2 * n + 2,?_⟩
  change primerByOne (2 * n + 2) n = _
  rw [primerByOne,search_written (by decide) (Nat.le_refl 3) small (by omega) (by omega)]
  rfl

theorem range_written (range : Range) (low : 3 ≤ range.left) (bound : range.left ≤ ulongMax) (small : range.right < ulongMax) :
    Writes (primer · range) (written range.left range.right) := by
  refine ⟨2 * range.right + 2,?_⟩
  have none_two : ¬ (range.left ≤ 2 ∧ range.right ≥ 2) := by omega
  change primer (2 * range.right + 2) range = _
  unfold primer
  by_cases even : range.left % 2 = 0
  · have next : ulong (range.left + 1) = range.left + 1 := by
      apply ulong_small
      simp only [ulongMax] at bound ⊢
      omega
    rw [if_pos even,next,search_written (by omega) (by omega) small (by omega) (by omega),written_even even]
    simp only [if_neg none_two]
    rfl
  · rw [if_neg even,search_written (by omega) low small (by omega) (by omega)]
    simp only [if_neg none_two]
    rfl

-- The ranges of a division write what one search over all of it would.
theorem division_written {ranges : List Range} (division : Division n left ranges) (low : 3 ≤ left) (bound : left ≤ ulongMax) (small : n < ulongMax) :
    ∃ outs, List.Forall₂ (fun range out => Writes (primer · range) out) ranges outs ∧ outs.flatten = written left n := by
  induction ranges generalizing left with
  | nil => cases division
  | cons range rest ih =>
    cases rest with
    | nil =>
      cases division
      exact ⟨[written left n],.cons (range_written ⟨left,n⟩ low bound small) .nil,by simp⟩
    | cons next rest =>
      obtain ⟨rfl,inside,below,later⟩ := division
      obtain ⟨outs,wrote,glued⟩ := ih later (by omega) (by omega)
      refine ⟨written range.left range.right :: outs,.cons (range_written range low bound (by omega)) wrote,?_⟩
      rw [List.flatten_cons,glued]
      exact (written_glue (by omega) (by omega)).symm

-- No search writes an even number.
theorem search_odd (odd : j % 2 = 1) (wrote : search fuel right j = some out) : ∀ k ∈ out, k % 2 = 1 := by
  induction fuel generalizing j out with
  | zero => cases wrote
  | succ fuel ih =>
    unfold search at wrote
    split at wrote
    · simp only [Option.bind_eq_bind,Option.bind_eq_some_iff,Option.some.injEq] at wrote
      obtain ⟨is,_,rest,more,rfl⟩ := wrote
      have later := ih (ulong_odd (by omega)) more
      intro k member
      split at member
      · rcases List.mem_cons.mp member with rfl | tail
        · exact odd
        · exact later k tail
      · exact later k member
    · cases wrote
      intro k member
      cases member

theorem primer_odd {range : Range} (low : 3 ≤ range.left) (wrote : Writes (primer · range) out) :
    ∀ k ∈ out, k % 2 = 1 := by
  obtain ⟨fuel,ran⟩ := wrote
  change primer fuel range = some out at ran
  have none_two : ¬ (range.left ≤ 2 ∧ range.right ≥ 2) := by omega
  simp only [primer,if_neg none_two,Option.bind_eq_bind,Option.bind_eq_some_iff,Option.some.injEq] at ran
  obtain ⟨found,searched,rfl⟩ := ran
  refine search_odd ?_ searched
  split
  · exact ulong_odd (by omega)
  · omega

-- Up to the greatest unsigned long the loop never ends: every j passes its test.
theorem search_endless (fuel : Nat) (small : j ≤ ulongMax) : search fuel ulongMax j = none := by
  induction fuel generalizing j with
  | zero => rfl
  | succ fuel ih =>
    have wrapped : ulong (j + 2) ≤ ulongMax := by
      simp only [ulong,ulongMax]
      omega
    rw [search,if_pos small,ih wrapped]
    cases trial fuel j 3 <;> rfl

theorem division_lefts {ranges : List Range} (division : Division n left ranges) (low : 3 ≤ left) : ∀ range ∈ ranges, 3 ≤ range.left := by
  induction ranges generalizing left with
  | nil => cases division
  | cons range rest ih =>
    cases rest with
    | nil =>
      cases division
      simpa using low
    | cons next rest =>
      obtain ⟨rfl,inside,below,later⟩ := division
      intro other member
      rcases List.mem_cons.mp member with rfl | tail
      · exact low
      · exact ih later (by omega) other tail

-- Together the ranges write what primer_by_one writes, in some order.
def Same (n : Nat) (ranges : List Range) : Prop :=
  ∃ out outs, Writes (primerByOne · n) out ∧ List.Forall₂ (fun range out => Writes (primer · range) out) ranges outs ∧ outs.flatten.Perm out

theorem ranges_odd {ranges : List Range} (low : ∀ range ∈ ranges, 3 ≤ range.left)
    (wrote : List.Forall₂ (fun range out => Writes (primer · range) out) ranges outs) : ∀ k ∈ outs.flatten, k % 2 = 1 := by
  induction wrote with
  | nil =>
    intro k member
    cases member
  | cons one rest ih =>
    intro k member
    rw [List.flatten_cons] at member
    rcases List.mem_append.mp member with here | later
    · exact primer_odd (low _ List.mem_cons_self) one k here
    · exact ih (fun range inside => low range (List.mem_cons_of_mem _ inside)) k later

theorem two_missing (division : Division n 3 ranges) (two : 2 ≤ n) : ¬ Same n ranges := by
  intro ⟨out,outs,⟨fuel,one⟩,wrote,same⟩
  change primerByOne fuel n = some out at one
  have prime : 2 ∈ out := by
    simp only [primerByOne,ge_iff_le,if_pos two,Option.bind_eq_bind,Option.bind_eq_some_iff,Option.some.injEq] at one
    obtain ⟨odd,_,rfl⟩ := one
    exact List.mem_cons_self
  have odd := ranges_odd (division_lefts division (Nat.le_refl 3)) wrote 2 (same.mem_iff.mpr prime)
  cases odd

-- But for the 2 the ranges write what primer_by_one does, each number once and in the
-- same order.
theorem division_exact (small : n ≤ ulongMax) (division : Division n 3 ranges) :
    (Same n ranges ↔ n < 2) ∧
    (2 ≤ n → n < ulongMax → ∃ outs, List.Forall₂ (fun range out => Writes (primer · range) out) ranges outs ∧
      Writes (primerByOne · n) (2 :: outs.flatten)) ∧
    (n = ulongMax → ∀ fuel, primerByOne fuel n = none) := by
  refine ⟨⟨?_,?_⟩,?_,?_⟩
  · intro same
    by_contra two
    exact two_missing division (by omega) same
  · intro less
    have below : n < ulongMax := Nat.lt_trans less (by decide)
    obtain ⟨outs,wrote,glued⟩ := division_written division (Nat.le_refl 3) (by decide) below
    have one := one_written below
    rw [if_neg (by omega),← glued] at one
    exact ⟨_,outs,one,wrote,.refl _⟩
  · intro two below
    obtain ⟨outs,wrote,glued⟩ := division_written division (Nat.le_refl 3) (by decide) below
    have one := one_written below
    rw [if_pos two,← glued] at one
    exact ⟨outs,wrote,one⟩
  · rintro rfl fuel
    rw [primerByOne,search_endless fuel (by decide)]
    rfl

theorem four_divided : (Same 100000000 byFour ↔ 100000000 < 2) ∧
    (2 ≤ 100000000 → 100000000 < ulongMax → ∃ outs, List.Forall₂ (fun range out => Writes (primer · range) out) byFour outs ∧
      Writes (primerByOne · 100000000) (2 :: outs.flatten)) ∧
    (100000000 = ulongMax → ∀ fuel, primerByOne fuel 100000000 = none) :=
  division_exact (by decide) (tables_divide byFour List.mem_cons_self)

-- The program with four threads.
theorem four_miss_two : Division 100000000 3 byFour ∧ ¬ Same 100000000 byFour :=
  ⟨tables_divide byFour List.mem_cons_self,two_missing (tables_divide byFour List.mem_cons_self) (by decide)⟩

end LinuxCoding.Primes
