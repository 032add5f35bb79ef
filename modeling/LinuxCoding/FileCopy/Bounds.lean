import LinuxCoding.FileCopy.Upload

-- IO/FileIO/filecopy/server.c: the accesses of main to the block filename points to and to
-- buf, once a header has come.
namespace LinuxCoding.FileCopy
open Bytes CInt Transition

-- An int converted to size_t.
def sizeT (n : Int) : Nat := (n % 18446744073709551616).toNat

def ptrdiffMax : Nat := 9223372036854775807

-- malloc gives a block of the size it is asked for or, always for more than PTRDIFF_MAX
-- bytes, NULL. buf holds what the stack held before.
structure Machine where
  malloc : Nat → Option (List UInt8)
  buf : List UInt8
  size : ∀ n block, malloc n = some block → block.length = n
  huge : ∀ n, ptrdiffMax < n → malloc n = none
  bufSize : buf.length = maxBufsize

-- Behind NULL there are no bytes.
inductive Access where
  | headed
  | allocated (filename : List UInt8)
  | named (filename : List UInt8)
  | terminated (filename : List UInt8)
  | receiving (filename buf : List UInt8) (recvTotal : Nat)
  | finished
  | outside

def Access.after (next : α → Access) : Option α → Access
  | none => .outside
  | some stored => next stored

theorem suffix_nonzero : (0 : UInt8) ∉ ([95,99,111,112,121] : List UInt8) := by decide

-- "_copy"
def suffix : CString := ⟨[95,99,111,112,121],suffix_nonzero⟩

-- printf of the name reads up to a NUL.
def Access.printed (filename : List UInt8) : Access := if 0 ∈ filename then .finished else .outside

-- A run emits the results of recv, none for an error. The first printf reads what strcat
-- reads after it. open and EVP_MD_CTX_new may fail, and write may write less.
inductive AccessStep (m : Machine) (header : FileHeader) : Access → List (Option (List UInt8)) → Access → Prop where
  | allocates : AccessStep m header .headed [] (.allocated ((m.malloc (sizeT (toInt (header.nameLen + 8)))).getD []))
  | nameFails (filename : List UInt8) : AccessStep m header (.allocated filename) [none] (.named filename)
  | names (filename bytes : List UInt8) : bytes.length ≤ sizeT header.nameLen →
      AccessStep m header (.allocated filename) [some bytes] (.after .named (storeFront filename bytes))
  | terminates (filename : List UInt8) : AccessStep m header (.named filename) [] (.after .terminated (storeAt filename header.nameLen 0))
  | opens (filename : List UInt8) :
      AccessStep m header (.terminated filename) [] (.after (fun joined => .receiving joined m.buf 0) (strcat filename suffix))
  | refuses (filename : List UInt8) : AccessStep m header (.terminated filename) [] (.after (fun _ => .finished) (strcat filename suffix))
  | receives (filename buf bytes : List UInt8) (recvTotal : Nat) : recvTotal < header.fileSize → bytes.length ≤ room header.fileSize recvTotal →
      bytes ≠ [] →
      AccessStep m header (.receiving filename buf recvTotal) [some bytes]
        (.after (fun stored => .receiving filename stored (recvTotal + bytes.length)) (storeFront buf bytes))
  | unwritten (filename buf bytes : List UInt8) (recvTotal : Nat) : recvTotal < header.fileSize → bytes.length ≤ room header.fileSize recvTotal →
      bytes ≠ [] →
      AccessStep m header (.receiving filename buf recvTotal) [some bytes] (.after (fun _ => .printed filename) (storeFront buf bytes))
  | breaks (filename buf : List UInt8) (recvTotal : Nat) (result : Option (List UInt8)) : recvTotal < header.fileSize →
      result = none ∨ result = some [] → AccessStep m header (.receiving filename buf recvTotal) [result] (.printed filename)
  | finishes (filename buf : List UInt8) (recvTotal : Nat) : header.fileSize ≤ recvTotal →
      AccessStep m header (.receiving filename buf recvTotal) [] (.printed filename)

def Inside (m : Machine) (header : FileHeader) : Prop := ∀ log s, Runs (AccessStep m header) .headed log s → s ≠ .outside

-- What holds at each place when the block has room for the name and the suffix.
def Roomy (nameLen : Nat) : Access → Prop
  | .headed => True
  | .allocated filename => filename.length = nameLen + 8
  | .named filename => filename.length = nameLen + 8
  | .terminated filename => filename.length = nameLen + 8 ∧ filename[nameLen]? = some 0
  | .receiving filename buf _ => 0 ∈ filename ∧ buf.length = maxBufsize
  | .finished => True
  | .outside => False

theorem room_bound (fileSize : Int) (recvTotal : Nat) : room fileSize recvTotal ≤ maxBufsize := by
  unfold room
  split <;> omega

theorem printed_roomy (ended : 0 ∈ filename) : Roomy nameLen (.printed filename) := by
  rw [Access.printed,if_pos ended]
  exact trivial

theorem joined_roomy (size : filename.length = nameLen + 8) (ended : filename[nameLen]? = some 0) :
    ∃ joined, strcat filename suffix = some joined ∧ 0 ∈ joined := by
  have fits : nameLen + suffix.val.length + 1 ≤ filename.length := by
    rw [size]
    change nameLen + 5 + 1 ≤ nameLen + 8
    omega
  obtain ⟨joined,copied,_⟩ := strcat_inside ended fits
  exact ⟨joined,copied,(strcat_string copied).2⟩

theorem sizeT_small (low : 0 ≤ n) (high : n ≤ intMax) : sizeT n = n.toNat := by
  simp only [intMax] at high
  unfold sizeT
  rw [Int.emod_eq_of_lt low (by omega)]

theorem step_roomy (nameLen : Nat) (short : (nameLen : Int) + 8 ≤ intMax) (found : m.malloc (nameLen + 8) = some block)
    (roomy : Roomy nameLen s) (step : AccessStep m ⟨nameLen,fileSize⟩ s emitted t) : Roomy nameLen t := by
  have small : sizeT nameLen = nameLen := sizeT_small (Int.natCast_nonneg _) (by omega)
  cases step with
  | allocates =>
    have whole : sizeT (toInt ((nameLen : Int) + 8)) = nameLen + 8 := by
      have sum : toInt ((nameLen : Int) + 8) = (nameLen : Int) + 8 := toInt_of_nonneg (by omega) short
      rw [sum,sizeT_small (by omega) short]
      rfl
    change ((m.malloc (sizeT (toInt ((nameLen : Int) + 8)))).getD []).length = nameLen + 8
    rw [whole,found]
    exact m.size _ _ found
  | nameFails filename => exact roomy
  | names filename bytes fits =>
    have most : bytes.length ≤ nameLen := by
      change bytes.length ≤ sizeT nameLen at fits
      rwa [small] at fits
    change filename.length = nameLen + 8 at roomy
    have inside : bytes.length ≤ filename.length := by omega
    obtain ⟨stored,written,same⟩ := storeFront_inside inside
    rw [written]
    exact same.trans roomy
  | terminates filename =>
    change filename.length = nameLen + 8 at roomy
    have written : storeAt filename nameLen 0 = some (filename.set nameLen 0) := if_pos ⟨Int.natCast_nonneg _,by omega⟩
    change Roomy nameLen (.after .terminated (storeAt filename nameLen 0))
    rw [written]
    exact ⟨by rw [List.length_set,roomy],List.getElem?_set_self (by omega)⟩
  | opens filename =>
    obtain ⟨joined,copied,ended⟩ := joined_roomy roomy.1 roomy.2
    rw [copied]
    exact ⟨ended,m.bufSize⟩
  | refuses filename =>
    obtain ⟨joined,copied,_⟩ := joined_roomy roomy.1 roomy.2
    rw [copied]
    exact trivial
  | receives filename buf bytes total below fits nonempty =>
    have most := Nat.le_trans fits (room_bound _ _)
    obtain ⟨stored,written,same⟩ := storeFront_inside (most.trans (Nat.le_of_eq roomy.2.symm))
    rw [written]
    exact ⟨roomy.1,same.trans roomy.2⟩
  | unwritten filename buf bytes total below fits nonempty =>
    have most := Nat.le_trans fits (room_bound _ _)
    obtain ⟨stored,written,_⟩ := storeFront_inside (most.trans (Nat.le_of_eq roomy.2.symm))
    rw [written]
    exact printed_roomy roomy.1
  | breaks filename buf total result below failed => exact printed_roomy roomy.1
  | finishes filename buf total enough => exact printed_roomy roomy.1

-- A name that recv does not store, and a terminator that has no byte in the block.
theorem unterminated_runs (m : Machine) (header : FileHeader)
    (beyond : storeAt ((m.malloc (sizeT (toInt (header.nameLen + 8)))).getD []) header.nameLen 0 = none) :
    Runs (AccessStep m header) .headed [none] .outside := by
  have last : AccessStep m header (.named ((m.malloc (sizeT (toInt (header.nameLen + 8)))).getD [])) [] _ := .terminates _
  rw [beyond] at last
  exact ((Runs.one .allocates).append (.one (.nameFails _))).append (.one last)

-- The sum wraps to a negative int, which is more than PTRDIFF_MAX as a size_t.
theorem wrapped_huge (high : n ≤ intMax) (wraps : intMax < n + 8) : ptrdiffMax < sizeT (toInt (n + 8)) := by
  simp only [intMax] at high wraps
  have wrapped : toInt (n + 8) = n + 8 - 4294967296 := by
    unfold toInt
    rw [Int.bmod_def]
    omega
  rw [wrapped]
  simp only [sizeT,ptrdiffMax]
  omega

theorem buffers_exact (m : Machine) (nameLen : IntValue) (fileSize : Int) :
    Inside m ⟨nameLen.val,fileSize⟩ ↔
      0 ≤ nameLen.val ∧ nameLen.val + 8 ≤ intMax ∧ (m.malloc (nameLen.val + 8).toNat).isSome := by
  constructor
  · intro inside
    have reached := fun beyond => inside _ _ (unterminated_runs m ⟨nameLen.val,fileSize⟩ beyond) rfl
    by_cases negative : nameLen.val < 0
    · exact absurd (if_neg (fun both => Int.not_le.mpr negative both.1)) reached
    · have unfound : ∀ n, sizeT (toInt (nameLen.val + 8)) = n → m.malloc n ≠ none := by
        rintro n rfl missing
        apply reached
        rw [missing]
        exact if_neg (fun both => absurd both.2 (by simp only [Option.getD_none,List.length_nil]; omega))
      by_cases wraps : intMax < nameLen.val + 8
      · exact absurd (m.huge _ (wrapped_huge nameLen.property.2 wraps)) (unfound _ rfl)
      · have short : nameLen.val + 8 ≤ intMax := by omega
        have sum : toInt (nameLen.val + 8) = nameLen.val + 8 := toInt_of_nonneg (by omega) short
        refine ⟨by omega,short,Option.isSome_iff_ne_none.mpr (unfound _ ?_)⟩
        rw [sum,sizeT_small (by omega) short]
  · rintro ⟨low,short,given⟩ log s run
    obtain ⟨block,found⟩ := Option.isSome_iff_exists.mp given
    obtain ⟨n,same⟩ := Int.eq_ofNat_of_zero_le low
    rw [same] at run short found
    have begins : Roomy n .headed := trivial
    have roomy := run.stateInvariant (I := Roomy n) (fun _ _ _ holds step => step_roomy n short found holds step) begins
    rintro rfl
    exact roomy

theorem take_heap {filename : List UInt8} (inside : n ≤ filename.length) : filename.take n = (List.range n).map (filename.getD · 0) := by
  apply List.ext_getElem
  · rw [List.length_take_of_le inside,List.length_map,List.length_range]
  · intro i below _
    rw [List.length_take_of_le inside] at below
    simp [List.getElem?_eq_getElem (Nat.lt_of_lt_of_le below inside)]

-- The name that strcat leaves in the block is the one main opens.
theorem stored_name {filename bytes : List UInt8} {nameLen : Nat} (size : filename.length = nameLen + 8) (most : bytes.length ≤ nameLen) :
    ∃ stored terminated joined, storeFront filename bytes = some stored ∧ storeAt stored nameLen 0 = some terminated ∧
      strcat terminated suffix = some joined ∧
      ∀ memory : Memory, memory.heap = (filename.getD · 0) → cstr joined = filenameOf memory nameLen bytes := by
  let stored := bytes ++ filename.drop bytes.length
  have same : stored.length = nameLen + 8 := by
    rw [List.length_append,List.length_drop]
    omega
  have length : (stored.set nameLen 0).length = nameLen + 8 := by rw [List.length_set,same]
  have ended : (stored.set nameLen 0)[nameLen]? = some 0 := List.getElem?_set_self (by omega)
  obtain ⟨joined,copied,_⟩ := joined_roomy length ended
  refine ⟨stored,_,joined,if_pos (by omega),if_pos ⟨Int.natCast_nonneg _,by omega⟩,copied,?_⟩
  intro memory heap
  have front : stored.take nameLen = overlay nameLen memory.heap bytes := by
    rw [List.take_append,List.take_of_length_le most,← List.drop_take,take_heap (by omega),heap,overlay,List.map_drop]
  have whole : stored.set nameLen 0 = (overlay nameLen memory.heap bytes ++ [0]) ++ stored.drop (nameLen + 1) := by
    rw [List.set_eq_take_append_cons_drop,if_pos (by omega),front,List.append_assoc]
    rfl
  apply Subtype.ext
  rw [(strcat_string copied).1]
  change (cstr (stored.set nameLen 0)).val ++ _ = (cstr (overlay nameLen memory.heap bytes ++ [0])).val ++ _
  rw [whole,cstr_ends _ _ (by simp)]
  rfl

-- A heap of 64 KiB.
def smallMalloc (n : Nat) : Option (List UInt8) := if n ≤ 65536 then some (List.replicate n 0) else none

theorem smallMalloc_size (n : Nat) (block : List UInt8) (found : smallMalloc n = some block) : block.length = n := by
  unfold smallMalloc at found
  split at found
  · cases found
    exact List.length_replicate
  · cases found

theorem smallMalloc_huge (n : Nat) (large : ptrdiffMax < n) : smallMalloc n = none := by
  simp only [ptrdiffMax] at large
  exact if_neg (by omega)

def smallMachine : Machine := ⟨smallMalloc,List.replicate maxBufsize 0,smallMalloc_size,smallMalloc_huge,List.length_replicate⟩

-- A header whose length is -1.
theorem negative_outside : ¬ ∀ (m : Machine) (nameLen : IntValue) (fileSize : Int), Inside m ⟨nameLen.val,fileSize⟩ := by
  intro claimed
  have inside := claimed smallMachine ⟨-1,by decide⟩ 0
  exact inside _ _ (unterminated_runs smallMachine ⟨-1,0⟩ (by decide)) rfl

end LinuxCoding.FileCopy
