import Mathlib.Algebra.Ring.Nat
import Mathlib.Data.List.TakeWhile

-- Bytes in memory and the strings of C in them.
namespace LinuxCoding.Bytes

abbrev CString : Type := {s : List UInt8 // 0 ∉ s}

theorem takeWhile_nonzero (memory : List UInt8) : 0 ∉ memory.takeWhile (· ≠ 0) := by
  intro member
  have nonzero := List.mem_takeWhile_imp member
  simp at nonzero

-- The string that starts where the memory does.
def cstr (memory : List UInt8) : CString := ⟨memory.takeWhile (· ≠ 0),takeWhile_nonzero memory⟩

theorem take_nonzero (n : Nat) (s : CString) : 0 ∉ s.val.take n := fun member => s.property (List.mem_of_mem_take member)

def CString.take (n : Nat) (s : CString) : CString := ⟨s.val.take n,take_nonzero n s⟩

-- strncpy fills what the string leaves of the n bytes with zeros.
def strncpy (n : Nat) (s : CString) : List UInt8 := s.val.take n ++ List.replicate (n - s.val.length) 0

theorem cstr_terminated (s : CString) (rest : List UInt8) : cstr (s.val ++ 0 :: rest) = s := by
  apply Subtype.ext
  have nonzero : ∀ byte ∈ s.val, (byte ≠ 0 : Bool) = true := by
    intro byte member
    apply decide_eq_true
    rintro rfl
    exact s.property member
  change (s.val ++ 0 :: rest).takeWhile (· ≠ 0) = s.val
  rw [List.takeWhile_append_of_pos nonzero]
  simp

theorem cstr_strncpy (n : Nat) (s : CString) : cstr (strncpy n s ++ [0]) = s.take n := by
  have padded : ∃ rest, strncpy n s ++ [0] = (s.take n).val ++ 0 :: rest := by
    unfold strncpy CString.take
    cases n - s.val.length with
    | zero => exact ⟨[],by simp⟩
    | succ k => exact ⟨List.replicate k 0 ++ [0],by simp [List.replicate_succ]⟩
  obtain ⟨rest,same⟩ := padded
  rw [same,cstr_terminated]

theorem cstr_zeros (bytes : List UInt8) (n : Nat) : cstr (bytes ++ List.replicate n 0) = cstr bytes := by
  apply Subtype.ext
  change (bytes ++ List.replicate n 0).takeWhile (· ≠ 0) = bytes.takeWhile (· ≠ 0)
  induction bytes with
  | nil => cases n <;> simp [List.replicate_succ]
  | cons byte bytes ih =>
    by_cases ended : byte = 0
    · simp [ended]
    · simpa [ended] using ih

-- A string that ends in the first part of the memory is read from that part alone.
theorem cstr_ends (part rest : List UInt8) (ended : 0 ∈ part) : cstr (part ++ rest) = cstr part := by
  apply Subtype.ext
  change (part ++ rest).takeWhile (· ≠ 0) = part.takeWhile (· ≠ 0)
  induction part with
  | nil => cases ended
  | cons byte part ih =>
    by_cases zero : byte = 0
    · simp [zero]
    · have later : 0 ∈ part := by simpa [Ne.symm zero] using ended
      simpa [zero] using ih later

theorem cstr_goes_on (part rest : List UInt8) (unended : 0 ∉ part) : (cstr (part ++ rest)).val = part ++ (cstr rest).val := by
  change (part ++ rest).takeWhile (· ≠ 0) = part ++ rest.takeWhile (· ≠ 0)
  apply List.takeWhile_append_of_pos
  intro byte member
  apply decide_eq_true
  rintro rfl
  exact unended member

theorem cstr_val (s : CString) : cstr s.val = s := (cstr_zeros s.val 1).symm.trans (cstr_terminated s [])

theorem take_short {s : CString} (short : s.val.length ≤ n) : s.take n = s := Subtype.ext (List.take_of_length_le short)

-- strcpy into a block at a place; none when it stores a byte outside the block.
def strcpy (block : List UInt8) (place : Nat) (s : CString) : Option (List UInt8) :=
  if place + s.val.length + 1 ≤ block.length then
    some (block.take place ++ (s.val ++ 0 :: block.drop (place + s.val.length + 1)))
  else none

-- The bytes lie in the block from the place on.
def Lies (block : List UInt8) (place : Nat) (bytes : List UInt8) : Prop := bytes <+: block.drop place

theorem strcpy_inside {block : List UInt8} {s : CString} (inside : place + s.val.length + 1 ≤ block.length) :
    ∃ after, strcpy block place s = some after ∧ after.length = block.length := by
  refine ⟨_,if_pos inside,?_⟩
  simp only [List.length_append,List.length_take,List.length_cons,List.length_drop]
  omega

theorem strcpy_lies {block : List UInt8} {s : CString} (copied : strcpy block place s = some after) : Lies after place (s.val ++ [0]) := by
  unfold strcpy at copied
  split at copied
  · rename_i inside
    cases copied
    have before : (block.take place).length = place := List.length_take_of_le (by omega)
    refine ⟨block.drop (place + s.val.length + 1),?_⟩
    rw [List.drop_append_of_le_length (Nat.le_of_eq before.symm),List.drop_of_length_le (Nat.le_of_eq before)]
    simp
  · cases copied

-- What lies before the place stays.
theorem strcpy_before {block : List UInt8} {s : CString} (copied : strcpy block place s = some after)
    (lies : Lies block low bytes) (below : low + bytes.length ≤ place) : Lies after low bytes := by
  unfold strcpy at copied
  split at copied
  · rename_i inside
    cases copied
    have before : (block.take place).length = place := List.length_take_of_le (by omega)
    rw [Lies,List.drop_append_of_le_length (by omega),List.drop_take]
    refine List.IsPrefix.trans ?_ (List.prefix_append _ _)
    exact List.prefix_take_iff.mpr ⟨lies,by omega⟩
  · cases copied

theorem lies_append {block : List UInt8} (first : Lies block place bytes) (second : Lies block (place + bytes.length) more) :
    Lies block place (bytes ++ more) := by
  obtain ⟨rest,split⟩ := first
  unfold Lies at second ⊢
  rw [← List.drop_drop,← split,List.drop_left] at second
  rw [← split]
  exact (List.prefix_append_right_inj bytes).mpr second

theorem lies_less {block : List UInt8} (lies : Lies block place (bytes ++ more)) : Lies block place bytes :=
  (List.prefix_append bytes more).trans lies

theorem cstr_lies {block : List UInt8} {s : CString} (lies : Lies block place (s.val ++ [0])) : cstr (block.drop place) = s := by
  obtain ⟨rest,split⟩ := lies
  rw [← split,List.append_assoc]
  exact cstr_terminated s rest

theorem cstr_longer {block : List UInt8} (lies : Lies block place bytes) (nonzero : 0 ∉ bytes) :
    bytes.length ≤ (cstr (block.drop place)).val.length := by
  obtain ⟨rest,split⟩ := lies
  rw [← split,cstr_goes_on _ _ nonzero,List.length_append]
  omega

theorem ends_cstr {block : List UInt8} (ended : 0 ∈ block) : ∃ rest, block = (cstr block).val ++ 0 :: rest := by
  induction block with
  | nil => cases ended
  | cons byte block ih =>
    by_cases zero : byte = 0
    · exact ⟨block,by simp [cstr,zero]⟩
    · obtain ⟨rest,split⟩ := ih (by simpa [Ne.symm zero] using ended)
      have goesOn : (cstr (byte :: block)).val = byte :: (cstr block).val := by simp [cstr,zero]
      exact ⟨rest,by rw [goesOn,List.cons_append,← split]⟩

theorem cstr_short {block : List UInt8} (ended : block[i]? = some 0) : (cstr block).val.length ≤ i := by
  by_contra beyond
  obtain ⟨rest,split⟩ : (cstr block).val <+: block := List.takeWhile_prefix _
  have byte : block[i]? = (cstr block).val[i]? := by
    rw [← List.getElem?_append_left (Nat.lt_of_not_le beyond),split]
  rw [ended] at byte
  exact (cstr block).property (List.mem_of_getElem? byte.symm)

-- strcat; none when it reads or stores a byte outside the block.
def strcat (block : List UInt8) (s : CString) : Option (List UInt8) :=
  if 0 ∈ block then strcpy block (cstr block).val.length s else none

theorem strcat_inside {block : List UInt8} {s : CString} (ended : block[i]? = some 0) (room : i + s.val.length + 1 ≤ block.length) :
    ∃ after, strcat block s = some after ∧ after.length = block.length := by
  have short := cstr_short ended
  rw [strcat,if_pos (List.mem_of_getElem? ended)]
  exact strcpy_inside (by omega)

theorem strcat_string {block : List UInt8} {s : CString} (joined : strcat block s = some after) :
    (cstr after).val = (cstr block).val ++ s.val ∧ 0 ∈ after := by
  unfold strcat at joined
  split at joined
  · rename_i ended
    obtain ⟨rest,split⟩ := ends_cstr ended
    have front : block.take (cstr block).val.length = (cstr block).val := (congrArg _ split).trans List.take_left
    unfold strcpy at joined
    split at joined
    · cases joined
      rw [front,cstr_goes_on _ _ (cstr block).property,cstr_terminated]
      exact ⟨rfl,by simp⟩
    · cases joined
  · cases joined

-- A byte or a run of bytes stored in a block; none is a store outside the block.
def storeAt (block : List UInt8) (i : Int) (byte : UInt8) : Option (List UInt8) :=
  if 0 ≤ i ∧ i < block.length then some (block.set i.toNat byte) else none

def storeFront (block bytes : List UInt8) : Option (List UInt8) :=
  if bytes.length ≤ block.length then some (bytes ++ block.drop bytes.length) else none

theorem storeFront_inside {block bytes : List UInt8} (inside : bytes.length ≤ block.length) :
    ∃ after, storeFront block bytes = some after ∧ after.length = block.length := by
  refine ⟨_,if_pos inside,?_⟩
  rw [List.length_append,List.length_drop]
  omega

-- Words in memory, in the byte order of a host.
inductive Order where
  | little
  | big
  deriving DecidableEq

def digits : Nat → Nat → List UInt8
  | 0,_ => []
  | width + 1,value => UInt8.ofNat value :: digits width (value / 256)

def value : List UInt8 → Nat
  | [] => 0
  | byte :: bytes => byte.toNat + 256 * value bytes

def Order.layout (order : Order) (width value : Nat) : List UInt8 :=
  match order with
  | .little => digits width value
  | .big => (digits width value).reverse

def Order.read (order : Order) (bytes : List UInt8) : Nat :=
  match order with
  | .little => value bytes
  | .big => value bytes.reverse

theorem digits_length (width value : Nat) : (digits width value).length = width := by
  induction width generalizing value with
  | zero => rfl
  | succ width ih => simp [digits,ih]

theorem value_bound (bytes : List UInt8) : value bytes < 256 ^ bytes.length := by
  induction bytes with
  | nil => decide
  | cons byte bytes ih =>
    have digit := byte.toNat_lt
    simp only [value,List.length_cons,Nat.pow_succ]
    omega

theorem value_digits (width word : Nat) : value (digits width word) = word % 256 ^ width := by
  induction width generalizing word with
  | zero => simp [digits,value,Nat.mod_one]
  | succ width ih =>
    have first : (UInt8.ofNat word).toNat = word % 256 := by simp
    rw [digits,value,ih,first,Nat.pow_succ',Nat.mod_mul]

theorem digits_value (bytes : List UInt8) : digits bytes.length (value bytes) = bytes := by
  induction bytes with
  | nil => rfl
  | cons byte bytes ih =>
    have digit := byte.toNat_lt
    have rest : (byte.toNat + 256 * value bytes) / 256 = value bytes := by omega
    have first : UInt8.ofNat (byte.toNat + 256 * value bytes) = byte := by
      apply UInt8.toNat_inj.mp
      simp
    rw [value,List.length_cons,digits,rest,ih,first]

theorem layout_length (order : Order) (width value : Nat) : (order.layout width value).length = width := by
  cases order with
  | little => exact digits_length width value
  | big => simp [Order.layout,digits_length]

theorem read_layout (order : Order) (fits : word < 256 ^ width) : order.read (order.layout width word) = word := by
  cases order with
  | little => rw [Order.layout,Order.read,value_digits,Nat.mod_eq_of_lt fits]
  | big => rw [Order.layout,Order.read,List.reverse_reverse,value_digits,Nat.mod_eq_of_lt fits]

theorem layout_read (order : Order) (bytes : List UInt8) : order.layout bytes.length (order.read bytes) = bytes := by
  cases order with
  | little => exact digits_value bytes
  | big =>
    have reversed := digits_value bytes.reverse
    rw [List.length_reverse] at reversed
    rw [Order.layout,Order.read,reversed,List.reverse_reverse]

theorem read_bound (order : Order) (bytes : List UInt8) : order.read bytes < 256 ^ bytes.length := by
  cases order with
  | little => exact value_bound bytes
  | big =>
    have bound := value_bound bytes.reverse
    rwa [List.length_reverse] at bound

-- A uint32_t in memory, and the word whose first byte in memory is the most significant
-- one.
def Order.store (order : Order) (word : UInt32) : List UInt8 := order.layout 4 word.toNat
def Order.load (order : Order) (bytes : List UInt8) : UInt32 := .ofNat (order.read bytes)
def htonl (order : Order) (word : UInt32) : UInt32 := order.load (Order.big.store word)
def ntohl (order : Order) (word : UInt32) : UInt32 := Order.big.load (order.store word)

theorem store_length (order : Order) (word : UInt32) : (order.store word).length = 4 := layout_length order 4 _

theorem load_store (order : Order) (word : UInt32) : order.load (order.store word) = word := by
  have fits : word.toNat < 256 ^ 4 := word.toNat_lt
  rw [Order.load,Order.store,read_layout order fits,UInt32.ofNat_toNat]

theorem store_load (order : Order) {bytes : List UInt8} (four : bytes.length = 4) : order.store (order.load bytes) = bytes := by
  have bound : order.read bytes < 256 ^ 4 := four ▸ read_bound order bytes
  have word : (UInt32.ofNat (order.read bytes)).toNat = order.read bytes := by
    rw [UInt32.toNat_ofNat']
    exact Nat.mod_eq_of_lt bound
  rw [Order.load,Order.store,word,← four]
  exact layout_read order bytes

-- Between hosts of any two byte orders.
theorem network_order (here there : Order) (word : UInt32) : ntohl there (there.load (here.store (htonl here word))) = word := by
  rw [htonl,store_load here (store_length .big word),ntohl,store_load there (store_length .big word),load_store]

end LinuxCoding.Bytes
