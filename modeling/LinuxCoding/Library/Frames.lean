import Mathlib.Data.List.Count
import LinuxCoding.Library.Bytes

-- Strings that are written to a byte stream with their NUL, and read back in pieces.
namespace LinuxCoding.Frames
open Bytes

def frame (s : CString) : List UInt8 := s.val ++ [0]

-- A piece is one string with its NUL and nothing else.
def Whole (piece : List UInt8) : Prop := frame (cstr piece) = piece

instance (piece : List UInt8) : Decidable (Whole piece) := inferInstanceAs (Decidable (frame (cstr piece) = piece))

theorem frames_length (strings : List CString) :
    (strings.flatMap frame).length = (strings.map (·.val.length)).sum + strings.length := by
  induction strings with
  | nil => rfl
  | cons s strings ih =>
    simp only [List.flatMap_cons,List.length_append,ih,frame,List.map_cons,List.sum_cons,List.length_cons,List.length_nil]
    omega

theorem frames_zeros (strings : List CString) : (strings.flatMap frame).count 0 = strings.length := by
  induction strings with
  | nil => rfl
  | cons s strings ih =>
    have none : s.val.count 0 = 0 := List.count_eq_zero.mpr s.property
    simp only [List.flatMap_cons,List.count_append,ih,frame,none,List.count_singleton_self,List.length_cons]
    omega

theorem frames_unique {strings others : List CString} (same : strings.flatMap frame = others.flatMap frame) : strings = others := by
  induction strings generalizing others with
  | nil =>
    cases others with
    | nil => rfl
    | cons other others => simp [frame] at same
  | cons s strings ih =>
    cases others with
    | nil => simp [frame] at same
    | cons other others =>
      simp only [List.flatMap_cons,frame,List.append_assoc,List.singleton_append] at same
      have first : s = other := by
        rw [← cstr_terminated s (strings.flatMap frame),← cstr_terminated other (others.flatMap frame)]
        exact congrArg cstr same
      subst first
      have rest := List.append_cancel_left same
      rw [ih (List.cons.inj rest).2]

-- The string at the start of a piece and the zeros of the piece have room in it, and
-- fill it only when nothing follows the string but zeros.
theorem piece_room (piece : List UInt8) : (cstr piece).val.length + piece.count 0 ≤ piece.length ∧
    ((cstr piece).val.length + piece.count 0 = piece.length → piece = (cstr piece).val ++ List.replicate (piece.count 0) 0) := by
  have parts : (cstr piece).val ++ piece.dropWhile (· ≠ 0) = piece := List.takeWhile_append_dropWhile
  have none : (cstr piece).val.count 0 = 0 := List.count_eq_zero.mpr (cstr piece).property
  have zeros : piece.count 0 = (piece.dropWhile (· ≠ 0)).count 0 := by
    conv_lhs => rw [← parts]
    rw [List.count_append,none,Nat.zero_add]
  have lengths : (cstr piece).val.length + (piece.dropWhile (· ≠ 0)).length = piece.length := by
    conv_rhs => rw [← parts]
    rw [List.length_append]
  have most : (piece.dropWhile (· ≠ 0)).count 0 ≤ (piece.dropWhile (· ≠ 0)).length := List.count_le_length
  refine ⟨by omega,?_⟩
  intro full
  have all : (piece.dropWhile (· ≠ 0)).count 0 = (piece.dropWhile (· ≠ 0)).length := by omega
  have tail : piece.dropWhile (· ≠ 0) = List.replicate (piece.count 0) 0 := by
    apply List.eq_replicate_iff.mpr
    refine ⟨by omega,?_⟩
    intro byte member
    exact (List.count_eq_length.mp all byte member).symm
  rw [← tail,parts]

theorem pieces_room (pieces : List (List UInt8)) :
    (pieces.map (fun piece => (cstr piece).val.length)).sum + pieces.flatten.count 0 ≤ pieces.flatten.length ∧
    ((pieces.map (fun piece => (cstr piece).val.length)).sum + pieces.flatten.count 0 = pieces.flatten.length →
      ∀ piece ∈ pieces, piece = (cstr piece).val ++ List.replicate (piece.count 0) 0) := by
  induction pieces with
  | nil => simp
  | cons piece pieces ih =>
    obtain ⟨room,exactly⟩ := ih
    obtain ⟨one,full⟩ := piece_room piece
    simp only [List.map_cons,List.sum_cons,List.flatten_cons,List.count_append,List.length_append]
    refine ⟨by omega,?_⟩
    intro same other member
    rcases List.mem_cons.mp member with rfl | member
    · exact full (by omega)
    · exact exactly (by omega) other member

-- Neither strings nor pieces that show one begin with a zero.
theorem frames_head {strings : List CString} (nonempty : ∀ s ∈ strings, s.val ≠ []) : (strings.flatMap frame).head? ≠ some 0 := by
  cases strings with
  | nil => nofun
  | cons s strings =>
    have first := nonempty s List.mem_cons_self
    obtain ⟨text,absent⟩ := s
    cases text with
    | nil => exact absurd rfl first
    | cons byte text =>
      intro zero
      obtain rfl : byte = 0 := by simpa [frame] using zero
      exact absent List.mem_cons_self

theorem pieces_head {pieces : List (List UInt8)} (nonempty : ∀ piece ∈ pieces, (cstr piece).val ≠ []) : pieces.flatten.head? ≠ some 0 := by
  cases pieces with
  | nil => nofun
  | cons piece pieces =>
    have first := nonempty piece List.mem_cons_self
    cases piece with
    | nil => exact absurd rfl first
    | cons byte piece =>
      intro zero
      obtain rfl : byte = 0 := by simpa using zero
      exact first rfl

theorem zeros_whole {pieces : List (List UInt8)} (nonempty : ∀ piece ∈ pieces, (cstr piece).val ≠ [])
    (zeros : ∀ piece ∈ pieces, piece = (cstr piece).val ++ List.replicate (piece.count 0) 0)
    (same : pieces.flatten = (pieces.map cstr).flatMap frame) : ∀ piece ∈ pieces, Whole piece := by
  induction pieces with
  | nil => nofun
  | cons piece pieces ih =>
    have later := fun other member => nonempty other (List.mem_cons_of_mem piece member)
    have filled := zeros piece List.mem_cons_self
    have rest : List.replicate (piece.count 0) 0 ++ pieces.flatten = 0 :: (pieces.map cstr).flatMap frame := by
      rw [List.flatten_cons,List.map_cons,List.flatMap_cons,frame,List.append_assoc] at same
      conv at same => lhs; rw [filled]
      rw [List.append_assoc] at same
      exact List.append_cancel_left same
    have one : piece.count 0 = 1 := by
      rcases count : piece.count 0 with _ | _ | more
      · rw [count] at rest
        exact absurd (congrArg List.head? rest) (pieces_head later)
      · rfl
      · rw [count] at rest
        have behind := (List.cons.inj rest).2
        refine absurd (congrArg List.head? behind).symm ?_
        apply frames_head
        intro s member
        obtain ⟨other,inside,rfl⟩ := List.mem_map.mp member
        exact later other inside
    rw [one] at rest filled
    intro other member
    rcases List.mem_cons.mp member with rfl | member
    · exact filled.symm
    · exact ih later (fun other member => zeros other (List.mem_cons_of_mem piece member)) (List.cons.inj rest).2 other member

-- A reader that shows the string at the start of each piece shows what was sent exactly
-- when each piece is one string.
theorem pieces_exact {pieces : List (List UInt8)} {sent : List CString} (nonempty : ∀ s ∈ sent, s.val ≠ [])
    (same : pieces.flatten = sent.flatMap frame) : pieces.map cstr = sent ↔ ∀ piece ∈ pieces, Whole piece := by
  constructor
  · rintro rfl
    have shown : ∀ piece ∈ pieces, (cstr piece).val ≠ [] := fun piece member => nonempty _ (List.mem_map_of_mem member)
    have lengths := frames_length (pieces.map cstr)
    have zeros := frames_zeros (pieces.map cstr)
    rw [← same,List.map_map] at lengths
    rw [← same] at zeros
    refine zeros_whole shown ((pieces_room pieces).2 ?_) same
    rw [zeros]
    exact lengths.symm
  · intro whole
    apply frames_unique
    rw [← same,List.flatMap_map]
    rw [List.flatMap_def]
    apply congrArg List.flatten
    conv_rhs => rw [← List.map_id pieces]
    exact List.map_congr_left whole

end LinuxCoding.Frames
