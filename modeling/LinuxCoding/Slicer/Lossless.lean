import Mathlib.Data.List.Nodup
import LinuxCoding.Library.Chunks
import LinuxCoding.Slicer.Slice

-- The files that slice writes, against the file it reads.
namespace LinuxCoding.Slicer
open Bytes Chunks

theorem decimal_injective (same : decimal i = decimal j) : i = j := by
  rw [decimal_digits,decimal_digits] at same
  rw [← Decimal.value_digits i,same,Decimal.value_digits]

theorem splitName_injective : Function.Injective splitName := by
  intro i j same
  have names := congrArg Subtype.val same
  simp only [splitName,List.append_cancel_left_eq,List.append_cancel_right_eq] at names
  exact decimal_injective names

-- The slices, in the order of their indices, are the content cut in pieces of BUFSIZE.
structure Lossless (content : List UInt8) (s : Slices) : Prop where
  order : s.files.map Prod.fst = (List.range s.files.length).map splitName
  distinct : (s.files.map Prod.fst).Nodup
  whole : (s.files.map Prod.snd).flatten = content
  count : s.files.length = (content.length + bufSize - 1) / bufSize
  full : ∀ i, i + 1 < s.files.length → ∃ name slice, s.files[i]? = some (name,slice) ∧ slice.length = bufSize
  sizes : ∀ name slice, (name,slice) ∈ s.files → 1 ≤ slice.length ∧ slice.length ≤ bufSize

-- The files so far, and the pieces they hold.
structure Written (pieces : List (List UInt8)) (s : Slices) : Prop where
  count : s.files.length = s.sliceCount
  names : s.files.map Prod.fst = (List.range s.sliceCount).map splitName
  contents : s.files.map Prod.snd = pieces

theorem written_next (written : Written pieces s) (table slice : List UInt8) :
    Written (pieces ++ [slice]) ⟨table,s.sliceCount + 1,s.files ++ [(splitName s.sliceCount,slice)]⟩ := by
  obtain ⟨count,names,contents⟩ := written
  refine ⟨?_,?_,?_⟩
  · rw [List.length_append,count]
    rfl
  · rw [List.map_append,names,List.range_succ,List.map_append]
    rfl
  · rw [List.map_append,contents]
    rfl

theorem slice_written (written : Written pieces s) (opened : ∀ i, opens i = true) (returns : sliceFrom opens rest s = some t) :
    Written (pieces ++ reads bufSize rest) t := by
  induction rest,s using sliceFrom.induct opens generalizing pieces with
  | case1 s =>
    rw [sliceFrom,if_pos rfl] at returns
    cases returns
    rwa [reads_nil,List.append_nil]
  | case2 rest s filled outside =>
    rw [sliceFrom,if_neg filled,outside] at returns
    cases returns
  | case3 rest s filled table copied _ ih =>
    rw [slice_pass filled copied,if_pos (opened _)] at returns
    rw [reads_more (by decide) filled]
    have after := ih (written_next written table (rest.take bufSize)) returns
    rwa [List.append_assoc] at after
  | case4 rest s filled table copied closed => exact absurd (opened _) closed

theorem written_lossless (written : Written (reads bufSize content) s) : Lossless content s := by
  have positive : 0 < bufSize := by decide
  obtain ⟨count,names,contents⟩ := written
  have pieces : s.files.length = (reads bufSize content).length := by rw [← contents,List.length_map]
  refine ⟨by rw [count,names],?_,by rw [contents,reads_flatten positive],by rw [pieces,reads_length positive],?_,?_⟩
  · rw [names]
    exact List.Nodup.map splitName_injective List.nodup_range
  · intro i later
    rw [pieces] at later
    obtain ⟨slice,there,size⟩ := reads_whole positive content i later
    rw [← contents,List.getElem?_map] at there
    obtain ⟨⟨name,slice'⟩,file,rfl⟩ := Option.map_eq_some_iff.mp there
    exact ⟨name,slice',file,size⟩
  · intro name slice member
    apply reads_bounds positive content
    rw [← contents]
    exact List.mem_map_of_mem member

-- The name of the hundredth slice is the first that does not end in the table.
theorem name_room (below : i < maxSlice) : rowSize * i + (splitName i).val.length + 1 ≤ maxSlice * rowSize ↔ i < 99 := by
  have each : ∀ i < maxSlice, (rowSize * i + (splitName i).val.length + 1 ≤ maxSlice * rowSize ↔ i < 99) := by decide
  exact each i below

theorem slice_room (rest : List UInt8) (s : Slices) (size : s.splitResult.length = maxSlice * rowSize) (count : s.sliceCount ≤ 99)
    (opened : ∀ i, opens i = true) : (sliceFrom opens rest s).isSome ↔ rest.length ≤ bufSize * (99 - s.sliceCount) := by
  induction room : 99 - s.sliceCount generalizing rest s with
  | zero =>
    have full : s.sliceCount = 99 := by omega
    by_cases nothing : rest = []
    · rw [sliceFrom,if_pos nothing,nothing]
      simp
    · have outside : strcpy s.splitResult (rowSize * s.sliceCount) (splitName s.sliceCount) = none := by
        apply if_neg
        rw [size,full,name_room (by decide)]
        decide
      have filled := List.length_pos_iff.mpr nothing
      rw [sliceFrom,if_neg nothing,outside]
      simp only [Option.isSome_none,Bool.false_eq_true,false_iff]
      omega
  | succ room' ih =>
    by_cases nothing : rest = []
    · rw [sliceFrom,if_pos nothing,nothing]
      simp
    · have inside : rowSize * s.sliceCount + (splitName s.sliceCount).val.length + 1 ≤ s.splitResult.length := by
        rw [size]
        exact (name_room (Nat.lt_of_le_of_lt count (by decide))).mpr (by omega)
      obtain ⟨table,copied,same⟩ := strcpy_inside inside
      rw [slice_pass nothing copied,if_pos (opened _),ih _ _ (same.trans size) (show s.sliceCount + 1 ≤ 99 by omega)
        (show 99 - (s.sliceCount + 1) = room' by omega),List.length_drop]
      simp only [bufSize]
      omega

theorem lossless_exact (content : List UInt8) :
    (∃ s, slice (fun _ => true) (some content) = some s ∧ Lossless content s) ↔ content.length ≤ 99 * bufSize := by
  have opened : ∀ i : Nat, (fun _ => true) i = true := fun _ => rfl
  have room := slice_room content fresh List.length_replicate (by decide) opened
  have size : bufSize * (99 - fresh.sliceCount) = 99 * bufSize := rfl
  rw [size] at room
  constructor
  · intro ⟨s,returns,_⟩
    exact room.mp (Option.isSome_of_eq_some returns)
  · intro short
    obtain ⟨s,returns⟩ := Option.isSome_iff_exists.mp (room.mpr short)
    have nothing : Written [] fresh := ⟨rfl,rfl,rfl⟩
    exact ⟨s,returns,written_lossless (slice_written nothing opened returns)⟩

-- A hundred whole slices.
theorem hundred_lost : ¬ ∀ content : List UInt8, ∃ s, slice (fun _ => true) (some content) = some s ∧ Lossless content s := by
  intro claimed
  obtain ⟨s,returns,_⟩ := claimed (List.replicate (100 * bufSize) 65)
  have room := slice_room (List.replicate (100 * bufSize) 65) fresh List.length_replicate (by decide) (fun _ => rfl)
  have short := room.mp (Option.isSome_of_eq_some returns)
  rw [List.length_replicate] at short
  exact absurd short (by decide)

end LinuxCoding.Slicer
