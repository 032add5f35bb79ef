import LinuxCoding.Library.Bytes
import LinuxCoding.Library.Decimal

-- homework/openssl/myslicer.c: a file is cut in slices, and split_result keeps the names
-- of the files they are written to.
namespace LinuxCoding.Slicer
open Bytes

def bufSize : Nat := 64
def maxSlice : Nat := 100
def rowSize : Nat := 12

-- %d of an int that is not negative
def decimal (i : Nat) : List UInt8 := (Nat.toDigits 10 i).map (fun digit => .ofNat digit.toNat)

theorem decimal_digits (i : Nat) : decimal i = Decimal.digits i := rfl

theorem decimal_nonzero (i : Nat) : 0 ∉ decimal i := by
  intro zero
  have isDigit := Decimal.digits_isDigit i 0 zero
  cases isDigit

-- "split_%d.txt"
def splitName (i : Nat) : CString :=
  ⟨[115,112,108,105,116,95] ++ decimal i ++ [46,116,120,116],by simp [decimal_nonzero]⟩

-- The bytes of split_result row by row, slice_count, and the files written so far.
structure Slices where
  splitResult : List UInt8
  sliceCount : Nat
  files : List (CString × List UInt8)

-- The loop of slice over what is left of the file. `opens` is whether fopen of a slice
-- succeeds; none is a store outside split_result.
def sliceFrom (opens : Nat → Bool) (rest : List UInt8) (s : Slices) : Option Slices :=
  if rest = [] then some s
  else match strcpy s.splitResult (rowSize * s.sliceCount) (splitName s.sliceCount) with
    | none => none
    | some table =>
      if opens s.sliceCount then
        sliceFrom opens (rest.drop bufSize)
          ⟨table,s.sliceCount + 1,s.files ++ [(splitName s.sliceCount,rest.take bufSize)]⟩
      else some {s with splitResult := table}
termination_by rest.length
decreasing_by
  rename_i filled _
  have positive := List.length_pos_iff.mpr filled
  simp only [List.length_drop,bufSize]
  omega

-- The globals are zero when main calls slice; the file is none when it cannot be opened.
def fresh : Slices := ⟨List.replicate (maxSlice * rowSize) 0,0,[]⟩

def slice (opens : Nat → Bool) (file : Option (List UInt8)) : Option Slices :=
  match file with
  | none => some fresh
  | some content => sliceFrom opens content fresh

-- The names that write_to_meta opens.
def metaNames (s : Slices) : List CString := (List.range s.sliceCount).map (fun i => cstr (s.splitResult.drop (rowSize * i)))

-- Every store is inside split_result, and each row still has the name of its slice.
def Survive (opens : Nat → Bool) (file : Option (List UInt8)) : Prop :=
  ∃ s, slice opens file = some s ∧ metaNames s = (List.range s.sliceCount).map splitName

theorem slice_pass {s : Slices} (filled : rest ≠ []) (copied : strcpy s.splitResult (rowSize * s.sliceCount) (splitName s.sliceCount) = some table) :
    sliceFrom opens rest s = if opens s.sliceCount then
        sliceFrom opens (rest.drop bufSize) ⟨table,s.sliceCount + 1,s.files ++ [(splitName s.sliceCount,rest.take bufSize)]⟩
      else some {s with splitResult := table} := by
  rw [sliceFrom,if_neg filled,copied]

-- The names of the first ten slices fill their rows, the eleventh has its NUL in the next
-- row.
theorem name_length (small : i ≤ 10) : rowSize * i + (splitName i).val.length + 1 ≤ 133 ∧ (i < 10 → (splitName i).val.length + 1 ≤ rowSize) := by
  have bounded : ∀ i < 11, rowSize * i + (splitName i).val.length + 1 ≤ 133 ∧ (i < 10 → (splitName i).val.length + 1 ≤ rowSize) := by decide
  exact bounded i (by omega)

-- The names stored so far, each with its NUL, while there are no more than eleven.
structure Named (s : Slices) : Prop where
  size : s.splitResult.length = maxSlice * rowSize
  count : s.sliceCount ≤ 11
  names : ∀ i < s.sliceCount, Lies s.splitResult (rowSize * i) ((splitName i).val ++ [0])

theorem named_meta (named : Named s) : metaNames s = (List.range s.sliceCount).map splitName := by
  apply List.map_congr_left
  intro i member
  exact cstr_lies (named.names i (List.mem_range.mp member))

theorem named_copy {s : Slices} (named : Named s) (room : s.sliceCount < 11) :
    ∃ table, strcpy s.splitResult (rowSize * s.sliceCount) (splitName s.sliceCount) = some table ∧ Named {s with splitResult := table} ∧
      ∀ files, Named ⟨table,s.sliceCount + 1,files⟩ := by
  obtain ⟨size,_,names⟩ := named
  have inside := (name_length (i := s.sliceCount) (by omega)).1
  have fits : rowSize * s.sliceCount + (splitName s.sliceCount).val.length + 1 ≤ s.splitResult.length := by
    rw [size]
    exact Nat.le_trans inside (by decide)
  obtain ⟨table,copied,same⟩ := strcpy_inside fits
  have old : ∀ i < s.sliceCount, Lies table (rowSize * i) ((splitName i).val ++ [0]) := by
    intro i below
    apply strcpy_before copied (names i below)
    have row := (name_length (i := i) (by omega)).2 (by omega)
    simp only [List.length_append,List.length_singleton,rowSize] at row ⊢
    omega
  refine ⟨table,copied,⟨by rw [same,size],Nat.le_of_lt room,old⟩,fun files => ⟨by rw [same,size],room,?_⟩⟩
  intro i below
  rcases Nat.lt_succ_iff_lt_or_eq.mp below with earlier | rfl
  · exact old i earlier
  · exact strcpy_lies copied

-- While fewer than eleven names are stored the loop passes on, and it ends well if the
-- file or the opening of slices ends there.
theorem slice_named (rest : List UInt8) (s : Slices) (named : Named s)
    (ends : rest.length ≤ bufSize * (11 - s.sliceCount) ∨ ∃ j, s.sliceCount ≤ j ∧ j < 11 ∧ opens j = false) :
    ∃ t, sliceFrom opens rest s = some t ∧ Named t := by
  induction room : 11 - s.sliceCount generalizing rest s with
  | zero =>
    have nothing : rest = [] := by
      rcases ends with short | ⟨j,low,high,_⟩
      · apply List.eq_nil_of_length_eq_zero
        rw [room] at short
        omega
      · omega
    refine ⟨s,?_,named⟩
    rw [sliceFrom,if_pos nothing]
  | succ room' ih =>
    by_cases nothing : rest = []
    · refine ⟨s,?_,named⟩
      rw [sliceFrom,if_pos nothing]
    · obtain ⟨table,copied,kept,grown⟩ := named_copy named (by omega)
      rw [slice_pass nothing copied]
      by_cases opened : opens s.sliceCount = true
      · rw [if_pos opened]
        apply ih _ _ (grown _) _ (show 11 - (s.sliceCount + 1) = room' by omega)
        rcases ends with short | ⟨j,low,high,closed⟩
        · refine .inl ?_
          rw [List.length_drop]
          simp only [bufSize] at short ⊢
          omega
        · refine .inr ⟨j,?_,high,closed⟩
          have apart : j ≠ s.sliceCount := by
            rintro rfl
            rw [opened] at closed
            cases closed
          change s.sliceCount + 1 ≤ j
          omega
      · rw [if_neg opened]
        exact ⟨_,rfl,kept⟩

-- Otherwise it comes to a twelfth slice.
theorem slice_twelfth (rest : List UInt8) (s : Slices) (named : Named s) (long : bufSize * (11 - s.sliceCount) < rest.length)
    (opened : ∀ j, s.sliceCount ≤ j → j < 11 → opens j = true) :
    ∃ more t, sliceFrom opens rest s = sliceFrom opens more t ∧ more ≠ [] ∧ t.sliceCount = 11 ∧ Named t := by
  have filled : rest ≠ [] := by
    rintro rfl
    cases long
  induction room : 11 - s.sliceCount generalizing rest s with
  | zero => exact ⟨rest,s,rfl,filled,Nat.le_antisymm named.count (by omega),named⟩
  | succ room' ih =>
    obtain ⟨table,copied,_,grown⟩ := named_copy named (by omega)
    rw [slice_pass filled copied,if_pos (opened _ (Nat.le_refl _) (by omega))]
    have later : bufSize * (11 - (s.sliceCount + 1)) < (rest.drop bufSize).length := by
      rw [List.length_drop]
      simp only [bufSize] at long ⊢
      omega
    refine ih _ _ (grown _) later (fun j low => opened j (by
      have : s.sliceCount + 1 ≤ j := low
      omega)) ?_ (show 11 - (s.sliceCount + 1) = room' by omega)
    intro nothing
    rw [nothing] at later
    cases later

-- The eleventh name has run on into the twelfth.
structure Overrun (s : Slices) : Prop where
  count : 10 < s.sliceCount
  runsOn : Lies s.splitResult (rowSize * 10) ((splitName 10).val ++ [115])

theorem overrun_lost (overrun : Overrun s) : metaNames s ≠ (List.range s.sliceCount).map splitName := by
  intro same
  have tenth := List.map_inj_left.mp same 10 (List.mem_range.mpr overrun.count)
  have longer := cstr_longer overrun.runsOn (by decide)
  rw [tenth] at longer
  exact absurd longer (by decide)

theorem overrun_copy (runsOn : Lies block (rowSize * 10) ((splitName 10).val ++ [115])) (beyond : 11 < i)
    (copied : strcpy block (rowSize * i) (splitName i) = some table) : Lies table (rowSize * 10) ((splitName 10).val ++ [115]) := by
  apply strcpy_before copied runsOn
  have length : ((splitName 10).val ++ [115]).length = 13 := by decide
  rw [length]
  simp only [rowSize]
  omega

theorem overrun_slice (rest : List UInt8) (s : Slices) (overrun : Overrun s) (beyond : 11 < s.sliceCount)
    (returns : sliceFrom opens rest s = some t) : Overrun t := by
  induction rest,s using sliceFrom.induct opens with
  | case1 s =>
    rw [sliceFrom,if_pos rfl] at returns
    cases returns
    exact overrun
  | case2 rest s filled outside =>
    rw [sliceFrom,if_neg filled,outside] at returns
    cases returns
  | case3 rest s filled table copied opened ih =>
    rw [slice_pass filled copied,if_pos opened] at returns
    exact ih ⟨Nat.lt_succ_of_lt overrun.count,overrun_copy overrun.runsOn beyond copied⟩ (Nat.lt_succ_of_lt beyond) returns
  | case4 rest s filled table copied closed =>
    rw [slice_pass filled copied,if_neg closed] at returns
    cases returns
    exact ⟨overrun.count,overrun_copy overrun.runsOn beyond copied⟩

theorem twelfth_overrun (named : Named s) (twelfth : s.sliceCount = 11) (filled : rest ≠ []) (returns : sliceFrom opens rest s = some t) :
    Overrun t := by
  obtain ⟨table,copied⟩ : ∃ table, strcpy s.splitResult (rowSize * s.sliceCount) (splitName s.sliceCount) = some table := by
    cases copied : strcpy s.splitResult (rowSize * s.sliceCount) (splitName s.sliceCount) with
    | some table => exact ⟨table,rfl⟩
    | none =>
      rw [sliceFrom,if_neg filled,copied] at returns
      cases returns
  -- The tenth row is full to its end, where the copy puts the first byte of the next name.
  have tenth : Lies table (rowSize * 10) ((splitName 10).val) := by
    apply strcpy_before copied (lies_less (named.names 10 (by omega)))
    rw [twelfth]
    decide
  have next : Lies table (rowSize * 10 + (splitName 10).val.length) [115] := by
    have written := strcpy_lies copied
    have begins : (splitName 11).val ++ [0] = [115] ++ ((splitName 11).val ++ [0]).tail := by decide
    rw [twelfth,begins] at written
    exact lies_less written
  have runsOn := lies_append tenth next
  rw [slice_pass filled copied] at returns
  by_cases opened : opens s.sliceCount = true
  · rw [if_pos opened] at returns
    exact overrun_slice _ _ ⟨show 10 < s.sliceCount + 1 by omega,runsOn⟩ (show 11 < s.sliceCount + 1 by omega) returns
  · rw [if_neg opened] at returns
    cases returns
    exact ⟨show 10 < s.sliceCount by omega,runsOn⟩

theorem fresh_named : Named fresh := ⟨List.length_replicate,by decide,fun i below => absurd below (Nat.not_lt_zero i)⟩

theorem slice_lost (long : 11 * bufSize < content.length) (opened : ∀ j < 11, opens j = true) : ¬ Survive opens (some content) := by
  intro ⟨t,returns,names⟩
  obtain ⟨more,s,same,filled,twelfth,named⟩ :=
    slice_twelfth content fresh fresh_named (by simpa [fresh,Nat.mul_comm] using long) (fun j _ => opened j)
  exact overrun_lost (twelfth_overrun named twelfth filled (same.symm.trans returns)) names

theorem slice_exact (opens : Nat → Bool) (content : List UInt8) :
    Survive opens (some content) ↔ content.length ≤ 11 * bufSize ∨ ∃ j < 11, opens j = false := by
  constructor
  · intro survive
    by_contra beyond
    simp only [not_or,not_le,not_exists,not_and,Bool.not_eq_false] at beyond
    exact slice_lost beyond.1 beyond.2 survive
  · intro ends
    obtain ⟨t,returns,named⟩ := slice_named content fresh fresh_named (by
      rcases ends with short | ⟨j,below,closed⟩
      · exact .inl (by simpa [fresh,Nat.mul_comm] using short)
      · exact .inr ⟨j,Nat.zero_le j,below,closed⟩)
    exact ⟨t,returns,named_meta named⟩

-- Twelve slices, all of whose files open.
theorem twelve_lost : ¬ Survive (fun _ => true) (some (List.replicate (12 * bufSize) 65)) := by
  apply slice_lost
  · rw [List.length_replicate]
    decide
  · exact fun _ _ => rfl

end LinuxCoding.Slicer
