import Mathlib.Data.List.TakeWhile

-- mycp.c and IO/standradIO/mycpy.c: a file copied character by character.
namespace LinuxCoding.Copying

def eof : Int := -1

-- fgetc, and what a signed char keeps of its result.
def fgetc : List UInt8 → Int × List UInt8
  | [] => (eof,[])
  | byte :: rest => (byte.toNat,rest)

def toChar (n : Int) : Int := n.bmod 256

-- fputc converts to unsigned char.
def fputc (ch : Int) (file : List UInt8) : List UInt8 := file ++ [.ofNat (ch % 256).toNat]

-- The loop of main, where `store` is what the variable ch keeps. The fuel bounds its passes.
def loop (store : Int → Int) : Nat → List UInt8 → List UInt8 → Option (List UInt8)
  | 0,_,_ => none
  | fuel + 1,src,des =>
    let (result,rest) := fgetc src
    let ch := store result
    if ch = eof then some des else loop store fuel rest (fputc ch des)

-- fopen with "w" or "w+" empties the destination.
def opened (_ : List UInt8) : List UInt8 := []

-- int ch in mycp.c, char ch in mycpy.c
def mycp (fuel : Nat) (src des : List UInt8) : Option (List UInt8) := loop id fuel src (opened des)
def mycpy (fuel : Nat) (src des : List UInt8) : Option (List UInt8) := loop toChar fuel src (opened des)

def Copied (program : Nat → List UInt8 → List UInt8 → Option (List UInt8)) (src des : List UInt8) : Prop :=
  ∃ fuel, program fuel src des = some src

-- Whether the loop goes on behind a byte.
def goesOn (store : Int → Int) (byte : UInt8) : Bool := store byte.toNat ≠ eof

-- The byte written is the byte read.
def Faithful (store : Int → Int) : Prop := ∀ byte : UInt8, UInt8.ofNat (store byte.toNat % 256).toNat = byte

theorem loop_read (ends : store eof = eof) (faithful : Faithful store) (src des : List UInt8) :
    loop store (src.length + 1) src des = some (des ++ src.takeWhile (goesOn store)) := by
  induction src generalizing des with
  | nil => simp [loop,fgetc,ends]
  | cons byte rest ih =>
    rw [List.length_cons,loop]
    dsimp only [fgetc]
    by_cases stops : store byte.toNat = eof
    · rw [if_pos stops,List.takeWhile_cons_of_neg (by simpa [goesOn] using stops),List.append_nil]
    · rw [if_neg stops,ih,List.takeWhile_cons_of_pos (by simpa [goesOn] using stops),fputc,faithful byte]
      simp

theorem loop_more (ran : loop store fuel src des = some out) (extra : Nat) : loop store (fuel + extra) src des = some out := by
  induction fuel generalizing src des with
  | zero => cases ran
  | succ fuel ih =>
    rw [Nat.succ_add]
    unfold loop at ran ⊢
    dsimp only at ran ⊢
    split at ran
    · rename_i stops
      rw [if_pos stops]
      exact ran
    · rename_i more
      rw [if_neg more]
      exact ih ran

-- The destination is the part in front of the first byte taken for EOF.
theorem copied_iff (ends : store eof = eof) (faithful : Faithful store) (src : List UInt8) :
    (∃ fuel, loop store fuel src [] = some src) ↔ ∀ byte ∈ src, goesOn store byte = true := by
  have read := loop_read ends faithful src []
  rw [List.nil_append] at read
  constructor
  · intro ⟨fuel,ran⟩
    have same := (loop_more ran (src.length + 1)).symm.trans (Nat.add_comm fuel _ ▸ loop_more read fuel)
    intro byte member
    rw [Option.some.inj same] at member
    exact List.mem_takeWhile_imp member
  · intro all
    rw [List.takeWhile_eq_self_iff.mpr all] at read
    exact ⟨_,read⟩

theorem int_faithful : Faithful id := by
  intro byte
  have small := byte.toNat_lt
  have same : ((byte.toNat : Int) % 256).toNat = byte.toNat := by omega
  rw [id,same,UInt8.ofNat_toNat]

theorem char_faithful : Faithful toChar := by
  intro byte
  have small := byte.toNat_lt
  have same : (toChar byte.toNat % 256).toNat = byte.toNat := by
    have modulus : toChar byte.toNat % 256 = byte.toNat % 256 := Int.bmod_emod
    omega
  rw [same,UInt8.ofNat_toNat]

theorem char_goesOn (byte : UInt8) : goesOn toChar byte = true ↔ byte ≠ 255 := by
  have small := byte.toNat_lt
  have stops : toChar byte.toNat = eof ↔ byte.toNat = 255 := by
    rw [toChar,eof,Int.bmod_def]
    omega
  rw [goesOn,decide_eq_true_iff,Ne,stops,Ne,← UInt8.toNat_inj]
  rfl

theorem int_goesOn (byte : UInt8) : goesOn id byte = true := by
  rw [goesOn,decide_eq_true_iff,id,eof]
  omega

theorem mycp_copied (src des : List UInt8) : Copied mycp src des := (copied_iff rfl int_faithful src).mpr fun byte _ => int_goesOn byte

theorem mycpy_copied (src des : List UInt8) : Copied mycpy src des ↔ 255 ∉ src := by
  have chars : Copied mycpy src des ↔ ∀ byte ∈ src, goesOn toChar byte = true := copied_iff (by decide) char_faithful src
  rw [chars]
  constructor
  · intro all member
    exact (char_goesOn 255).mp (all 255 member) rfl
  · intro absent byte member
    apply (char_goesOn byte).mpr
    intro same
    exact absent (same ▸ member)

theorem copy_exact (src des : List UInt8) : Copied mycp src des ∧ Copied mycpy src des ↔ 255 ∉ src := by
  rw [← mycpy_copied src des]
  exact ⟨And.right,fun copied => ⟨mycp_copied src des,copied⟩⟩

theorem last_char_lost : mycpy 1 [255] [7] = some [] ∧ ¬ ∀ src des, Copied mycp src des ∧ Copied mycpy src des := by
  refine ⟨by decide,fun all => ?_⟩
  exact (mycpy_copied [255] []).mp (all [255] []).2 (List.mem_singleton_self _)

end LinuxCoding.Copying
