import LinuxCoding.Library.Chunks
import LinuxCoding.Slicer.Slice

-- homework/openssl/myslicer.c: file_to_md5 and evp_file_to_md5, and compute_file_md5 and
-- print_md5 of IO/FileIO/filecopy/common.h. The file opens, and there is memory for it.
namespace LinuxCoding.Slicer
open Bytes Chunks

def md5DigestLength : Nat := 16

-- HASH_STR_LEN, which has room for a longer digest.
def hashStrLen : Nat := 65

abbrev Hash : Type := {bytes : List UInt8 // bytes.length = md5DigestLength}

-- The state of an MD5 computation in OpenSSL, and the calls that begin, go on and end it.
structure OpenSsl (σ : Type) where
  init : σ
  update : σ → List UInt8 → σ
  final : σ → Hash

-- What the bytes of a file are fed in: file_to_md5 reads the whole file at once, the others
-- read until fread gives nothing.
inductive Way where
  | whole
  | chunked (size : {n : Nat // 0 < n})

def Way.feed (way : Way) (content : List UInt8) : List (List UInt8) :=
  match way with
  | .whole => [content]
  | .chunked size => reads size.val content

variable {σ : Type}

def digest (ssl : OpenSsl σ) (way : Way) (content : List UInt8) : Hash := ssl.final ((way.feed content).foldl ssl.update ssl.init)

def hexDigit (n : Nat) : UInt8 := if n < 10 then .ofNat (48 + n) else .ofNat (87 + n)

theorem hexDigit_code (small : n < 16) : (hexDigit n).toNat = if n < 10 then 48 + n else 87 + n := by
  unfold hexDigit
  split <;> exact Nat.mod_eq_of_lt (by omega)

theorem hexDigit_nonzero (small : n < 16) : 0 ≠ hexDigit n := by
  intro zero
  have code := hexDigit_code small
  rw [← zero] at code
  change 0 = _ at code
  split at code <;> omega

theorem hexDigit_injective (small : m < 16) (small' : n < 16) (same : hexDigit m = hexDigit n) : m = n := by
  have code := hexDigit_code small
  rw [same,hexDigit_code small'] at code
  split at code <;> split at code <;> omega

theorem hex_nonzero (byte : UInt8) : (0 : UInt8) ∉ [hexDigit (byte.toNat / 16),hexDigit (byte.toNat % 16)] := by
  have bound := byte.toNat_lt
  have high := hexDigit_nonzero (n := byte.toNat / 16) (by omega)
  have low := hexDigit_nonzero (n := byte.toNat % 16) (by omega)
  simp [high,low]

-- "%02x"
def hex (byte : UInt8) : CString := ⟨[hexDigit (byte.toNat / 16),hexDigit (byte.toNat % 16)],hex_nonzero byte⟩

-- The loop that stores the digest from ptr on; none is a store outside the block. The last
-- store, of a NUL, is the copy of an empty string.
def encode (block : List UInt8) (ptr : Nat) : List UInt8 → Option (List UInt8)
  | [] => strcpy block ptr ⟨[],List.not_mem_nil⟩
  | byte :: hash =>
    match strcpy block ptr (hex byte) with
    | none => none
    | some stored => encode stored (ptr + (hex byte).val.length) hash

-- The array result is static and keeps what an earlier call has left in it.
abbrev Result : Type := {block : List UInt8 // block.length = hashStrLen}

def toMd5 (ssl : OpenSsl σ) (way : Way) (result : Result) (content : List UInt8) : Option (List UInt8) :=
  encode result.val 0 (digest ssl way content).val

theorem bufSize_positive : 0 < bufSize := by decide
theorem buffer_positive : 0 < 8192 := by decide

def fileToMd5 (ssl : OpenSsl σ) := toMd5 ssl .whole
def evpFileToMd5 (ssl : OpenSsl σ) := toMd5 ssl (.chunked ⟨bufSize,bufSize_positive⟩)
def computeFileMd5 (ssl : OpenSsl σ) := digest ssl (.chunked ⟨8192,buffer_positive⟩)
def printMd5 (hash : Hash) : List UInt8 := hash.val.flatMap (fun byte => (hex byte).val)

theorem hex_injective (same : (hex byte).val = (hex byte').val) : byte = byte' := by
  have bound := byte.toNat_lt
  have bound' := byte'.toNat_lt
  simp only [hex,List.cons.injEq,and_true] at same
  have high := hexDigit_injective (by omega) (by omega) same.1
  have low := hexDigit_injective (by omega) (by omega) same.2
  apply UInt8.toNat_inj.mp
  omega

theorem hex_flat (hash hash' : List UInt8) (same : hash.flatMap (fun byte => (hex byte).val) = hash'.flatMap (fun byte => (hex byte).val)) :
    hash = hash' := by
  induction hash generalizing hash' with
  | nil =>
    cases hash' with
    | nil => rfl
    | cons byte' hash' => cases same
  | cons byte hash ih =>
    cases hash' with
    | nil => cases same
    | cons byte' hash' =>
      rw [List.flatMap_cons,List.flatMap_cons] at same
      obtain ⟨first,rest⟩ := List.append_inj same rfl
      rw [hex_injective first,ih hash' rest]

theorem printMd5_injective : Function.Injective printMd5 := fun _ _ same => Subtype.ext (hex_flat _ _ same)

theorem printMd5_length (hash : Hash) : (printMd5 hash).length = 2 * md5DigestLength := by
  have two : ∀ byte, (hex byte).val.length = 2 := fun _ => rfl
  rw [printMd5,List.length_flatMap,List.map_congr_left (fun byte _ => two byte),List.map_const',List.sum_replicate_nat,hash.property]
  rfl

-- What is stored so far stays in front of what the loop still stores.
theorem encode_lies (hash : List UInt8) (room : ptr + 2 * hash.length + 1 ≤ block.length) (stored : Lies block 0 text) (length : text.length = ptr) :
    ∃ after, encode block ptr hash = some after ∧ Lies after 0 (text ++ (hash.flatMap (fun byte => (hex byte).val) ++ [0])) := by
  induction hash generalizing block ptr text with
  | nil =>
    have fits : ∃ after, strcpy block ptr ⟨[],List.not_mem_nil⟩ = some after ∧ after.length = block.length := strcpy_inside room
    obtain ⟨after,copied,_⟩ := fits
    have before := strcpy_before copied stored (by omega)
    have ended := strcpy_lies copied
    rw [← length,← Nat.zero_add text.length] at ended
    exact ⟨after,copied,lies_append before ended⟩
  | cons byte hash ih =>
    rw [List.length_cons] at room
    have two : (hex byte).val.length = 2 := rfl
    have fits : ∃ next, strcpy block ptr (hex byte) = some next ∧ next.length = block.length := strcpy_inside (by omega)
    obtain ⟨next,copied,same⟩ := fits
    have before := strcpy_before copied stored (by omega)
    have written := lies_less (strcpy_lies copied)
    rw [← length,← Nat.zero_add text.length] at written
    have longer : (text ++ (hex byte).val).length = ptr + 2 := by rw [List.length_append,length,two]
    have roomNext : ptr + 2 + 2 * hash.length + 1 ≤ next.length := by omega
    obtain ⟨after,encoded,lies⟩ := ih roomNext (lies_append before written) longer
    refine ⟨after,?_,?_⟩
    · rw [encode,copied]
      exact encoded
    · rwa [List.append_assoc,← List.append_assoc (hex byte).val] at lies

theorem print_nonzero (hash : Hash) : 0 ∉ printMd5 hash := by
  intro zero
  obtain ⟨byte,_,within⟩ := List.mem_flatMap.mp zero
  exact (hex byte).property within

-- The string that a call leaves is what print_md5 prints.
theorem toMd5_string (ssl : OpenSsl σ) (way : Way) (result : Result) (content : List UInt8) :
    ∃ block, toMd5 ssl way result content = some block ∧ (cstr block).val = printMd5 (digest ssl way content) := by
  have room : 0 + 2 * (digest ssl way content).val.length + 1 ≤ result.val.length := by
    rw [(digest ssl way content).property,result.property]
    decide
  obtain ⟨block,encoded,lies⟩ := encode_lies (digest ssl way content).val room (List.nil_prefix : Lies result.val 0 []) rfl
  have string : cstr (block.drop 0) = ⟨printMd5 (digest ssl way content),print_nonzero _⟩ := cstr_lies lies
  exact ⟨block,encoded,congrArg Subtype.val string⟩

-- One update with the whole content, however it is cut.
theorem updates_flatten (ssl : OpenSsl σ) (appends : ∀ s a b, ssl.update (ssl.update s a) b = ssl.update s (a ++ b)) (empty : ∀ s, ssl.update s [] = s)
    (pieces : List (List UInt8)) (s : σ) : pieces.foldl ssl.update s = ssl.update s pieces.flatten := by
  induction pieces generalizing s with
  | nil => exact (empty s).symm
  | cons piece pieces ih => rw [List.foldl_cons,ih,appends,List.flatten_cons]

theorem feed_flatten (way : Way) (content : List UInt8) : (way.feed content).flatten = content := by
  cases way with
  | whole => exact List.append_nil content
  | chunked size => exact reads_flatten size.property content

theorem digest_same (ssl : OpenSsl σ) (appends : ∀ s a b, ssl.update (ssl.update s a) b = ssl.update s (a ++ b)) (empty : ∀ s, ssl.update s [] = s)
    (way way' : Way) (content : List UInt8) : digest ssl way content = digest ssl way' content := by
  rw [digest,digest,updates_flatten ssl appends empty,updates_flatten ssl appends empty,feed_flatten,feed_flatten]

theorem md5_way {ssl : OpenSsl σ} (member : md5 ∈ [fileToMd5 ssl,evpFileToMd5 ssl]) : ∃ way, md5 = toMd5 ssl way := by
  rcases List.mem_pair.mp member with rfl | rfl
  · exact ⟨_,rfl⟩
  · exact ⟨_,rfl⟩

theorem digests_agree (ssl : OpenSsl σ) (appends : ∀ s a b, ssl.update (ssl.update s a) b = ssl.update s (a ++ b)) (empty : ∀ s, ssl.update s [] = s)
    (content content' : List UInt8) (result result' : Result) :
    (∀ way, digest ssl way content = computeFileMd5 ssl content) ∧
      ∀ md5 ∈ [fileToMd5 ssl,evpFileToMd5 ssl], ∀ md5' ∈ [fileToMd5 ssl,evpFileToMd5 ssl],
        ∃ block block', md5 result content = some block ∧ md5' result' content' = some block' ∧
          (cstr block).val.length = 2 * md5DigestLength ∧
          (cstr block = cstr block' ↔ computeFileMd5 ssl content = computeFileMd5 ssl content') := by
  have same := digest_same ssl appends empty
  refine ⟨fun way => same way _ content,?_⟩
  intro md5 member md5' member'
  obtain ⟨way,rfl⟩ := md5_way member
  obtain ⟨way',rfl⟩ := md5_way member'
  obtain ⟨block,encoded,string⟩ := toMd5_string ssl way result content
  obtain ⟨block',encoded',string'⟩ := toMd5_string ssl way' result' content'
  rw [same way (.chunked ⟨8192,buffer_positive⟩)] at string
  rw [same way' (.chunked ⟨8192,buffer_positive⟩)] at string'
  refine ⟨block,block',encoded,encoded',by rw [string,printMd5_length],?_⟩
  constructor
  · intro equal
    apply printMd5_injective
    change printMd5 (digest ssl _ content) = printMd5 (digest ssl _ content')
    rw [← string,← string',equal]
  · intro equal
    change digest ssl _ content = digest ssl _ content' at equal
    apply Subtype.ext
    rw [string,string',equal]

-- The digests of an empty file and of one with the letter a.
def emptyMd5 : List UInt8 := [0xd4,0x1d,0x8c,0xd9,0x8f,0x00,0xb2,0x04,0xe9,0x80,0x09,0x98,0xec,0xf8,0x42,0x7e]
def letterMd5 : List UInt8 := [0x0c,0xc1,0x75,0xb9,0xc0,0xf1,0xb6,0xa8,0x31,0xc3,0x99,0xe2,0x69,0x77,0x26,0x61]

theorem emptyMd5_length : emptyMd5.length = md5DigestLength := rfl
theorem letterMd5_length : letterMd5.length = md5DigestLength := rfl

-- A computation that keeps its bytes and knows two digests.
def tableSsl : OpenSsl (List UInt8) where
  init := []
  update := (· ++ ·)
  final bytes := if bytes = [97] then ⟨letterMd5,letterMd5_length⟩ else ⟨emptyMd5,emptyMd5_length⟩

def zeroResult : Result := ⟨List.replicate hashStrLen 0,List.length_replicate⟩

theorem empty_letter_digests : (∀ way, digest tableSsl way [] = ⟨emptyMd5,emptyMd5_length⟩) ∧
    ∃ block block', fileToMd5 tableSsl zeroResult [] = some block ∧ evpFileToMd5 tableSsl zeroResult [97] = some block' ∧
      (cstr block).val.length = 32 ∧ cstr block ≠ cstr block' := by
  obtain ⟨ways,calls⟩ := digests_agree tableSsl (fun s a b => List.append_assoc s a b) List.append_nil [] [97] zeroResult zeroResult
  obtain ⟨block,block',encoded,encoded',length,exact⟩ := calls _ List.mem_cons_self _ (List.mem_cons_of_mem _ List.mem_cons_self)
  refine ⟨fun way => (ways way).trans ?_,block,block',encoded,encoded',length,fun equal => ?_⟩
  · rw [computeFileMd5,digest,Way.feed,reads_nil]
    rfl
  · have digests := exact.mp equal
    simp only [computeFileMd5,digest,Way.feed,reads_nil] at digests
    rw [reads_more buffer_positive (List.cons_ne_nil 97 [])] at digests
    simp [reads_nil,tableSsl,letterMd5,emptyMd5] at digests

end LinuxCoding.Slicer
