import LinuxCoding.FileCopy.Upload

-- Uploads whose header and name come in pieces.
namespace LinuxCoding.FileCopy
open Bytes CInt Transition
variable {memory : Memory} {files : CString → Option (List UInt8)}

-- The name and the content of the file at the end of a connection.
def outcome (s : Connection) : Option (CString × Option (List UInt8)) :=
  match s.place with
  | .finished filename => some (filename,s.files filename)
  | .refused filename => some (filename,s.files filename)
  | _ => none

def Ended (s : Connection) : Prop := s.place.left = 0

-- Any two ways in which recv can cut the stream end with the same file.
def Independent (memory : Memory) (files : CString → Option (List UInt8)) (stream : List UInt8) : Prop :=
  ∀ log s log' s', Runs (Step memory) (start stream files) log s → Runs (Step memory) (start stream files) log' s' →
    Ended s → Ended s' → outcome s = outcome s'

-- What becomes of a connection that has received the header and the name in certain
-- pieces.
structure Outcome (memory : Memory) (files : CString → Option (List UInt8)) (header : FileHeader) (bytes rest : List UInt8) (s : Connection) : Prop where
  outside : header.outside → outcome s = none
  named : ¬ header.outside → ∃ content, outcome s = some (filenameOf memory header.nameLen bytes,content) ∧
    (memory.opens (filenameOf memory header.nameLen bytes) = true → files (filenameOf memory header.nameLen bytes) = none →
      content = some (rest.take header.fileSize.toNat))

theorem named_ends (memory : Memory) (files : CString → Option (List UInt8)) (header : FileHeader) (received : Received header.nameLen.toNat stream bytes rest) :
    ∃ log s, Runs (Step memory) ⟨.naming header,stream,files⟩ log s ∧ Ended s ∧ Outcome memory files header bytes rest s := by
  by_cases outside : header.outside
  · have crashes : Step memory ⟨.naming header,stream,files⟩ [] ⟨.crashed,stream,files⟩ := .crashes _ header rfl outside
    exact ⟨_,_,.one crashes,rfl,fun _ => rfl,fun inside => absurd outside inside⟩
  · cases opens : memory.opens (filenameOf memory header.nameLen bytes) with
    | true =>
      have opened := Step.opens ⟨.naming header,stream,files⟩ header bytes rest rfl outside received opens
      have loaded := opened_loaded (filenameOf memory header.nameLen bytes) header.fileSize rest files
      obtain ⟨log,s,run,ended⟩ := loaded_ends memory loaded
      refine ⟨_,s,(Runs.one opened).append run,by rw [Ended,ended]; rfl,fun crash => absurd crash outside,?_⟩
      intro _
      refine ⟨_,by rw [outcome,ended],?_⟩
      intro _ fresh
      rw [(loop_content loaded run ended).2,fresh]
      simp
    | false =>
      have refused := Step.refuses ⟨.naming header,stream,files⟩ header bytes rest rfl outside received opens
      refine ⟨_,_,.one refused,rfl,fun crash => absurd crash outside,?_⟩
      intro _
      exact ⟨_,rfl,fun opened => by rw [opens] at opened; cases opened⟩

theorem pieces_end (memory : Memory) (files : CString → Option (List UInt8)) (bytes : List UInt8) (first : Received sizeofFileHeader stream piece middle)
    (second : Received (FileHeader.ofBytes (overlay sizeofFileHeader memory.header piece)).nameLen.toNat middle bytes rest) :
    ∃ log s, Runs (Step memory) (start stream files) log s ∧ Ended s ∧
      Outcome memory files (.ofBytes (overlay sizeofFileHeader memory.header piece)) bytes rest s := by
  obtain ⟨log,s,run,ended⟩ := named_ends memory files _ second
  exact ⟨_,s,(Runs.one (.header (start stream files) piece middle rfl first)).append run,ended⟩

theorem whole_end (u : Upload) (memory : Memory) (files : CString → Option (List UInt8)) :
    ∃ log s, Runs (Step memory) (start u.stream files) log s ∧ Ended s ∧
      Outcome memory files ⟨u.name.val.length,u.payload.length⟩ u.name.val u.payload s := by
  have length := header_length u
  have header : Received sizeofFileHeader u.stream u.header (u.name.val ++ u.payload) :=
    ⟨rfl,Nat.le_of_eq length,fun none => by rw [none] at length; cases length⟩
  have fields : FileHeader.ofBytes (overlay sizeofFileHeader memory.header u.header) = ⟨u.name.val.length,u.payload.length⟩ := by
    rw [overlay_whole length,header_fields]
  have name : Received (FileHeader.ofBytes (overlay sizeofFileHeader memory.header u.header)).nameLen.toNat (u.name.val ++ u.payload)
      u.name.val u.payload := by
    rw [fields]
    exact ⟨rfl,by rw [Int.toNat_natCast],fun none => .inl (by rw [none]; rfl)⟩
  have ends := pieces_end memory files _ header name
  rwa [fields] at ends

-- The stream from its first byte on: name_len, least significant byte first.
def Upload.digit (u : Upload) (i : Nat) : UInt8 := .ofNat (u.name.val.length / 256 ^ i)

def Upload.behind (u : Upload) : List UInt8 := u.padding ++ (Order.little.layout 8 u.payload.length ++ (u.md ++ (u.name.val ++ u.payload)))

theorem stream_digits (u : Upload) : u.stream = u.digit 0 :: u.digit 1 :: u.digit 2 :: u.digit 3 :: u.behind := by
  have digits : Order.little.layout 4 u.name.val.length = [u.digit 0,u.digit 1,u.digit 2,u.digit 3] := by
    simp [Order.layout,digits,Upload.digit,Nat.div_div_eq_div_mul]
  simp only [Upload.stream,Upload.header,headerBytes,digits,Upload.behind,List.append_assoc,List.cons_append,List.nil_append]

theorem digit_toNat (u : Upload) (i : Nat) : (u.digit i).toNat = u.name.val.length / 256 ^ i % 256 := by
  simp [Upload.digit]

theorem copyName_inj (same : copyName s = copyName t) : s = t :=
  Subtype.ext (List.append_cancel_right (congrArg Subtype.val same))

theorem differ {header : FileHeader} {u : Upload} (whole : Outcome memory files ⟨u.name.val.length,u.payload.length⟩ u.name.val u.payload s)
    (pieces : Outcome memory files header bytes rest t) (inside : ¬ header.outside)
    (other : filenameOf memory header.nameLen bytes ≠ copyName u.name) : outcome s ≠ outcome t := by
  obtain ⟨content,named,_⟩ := pieces.named inside
  rw [named]
  by_cases outside : FileHeader.outside ⟨u.name.val.length,u.payload.length⟩
  · rw [whole.outside outside]
    nofun
  · obtain ⟨found,own,_⟩ := whole.named outside
    rw [own,name_received]
    intro same
    exact other (congrArg Prod.fst (Option.some.inj same)).symm

-- The fields of a header that is only partly received.
theorem overlay_take (small : k ≤ size) (fits : bytes.length ≤ k) (old : Nat → UInt8) : (overlay size old bytes).take k = overlay k old bytes := by
  rw [overlay,overlay,List.take_append,List.take_of_length_le fits,← List.map_take,List.take_drop,List.take_range]
  rw [Nat.add_sub_cancel' fits,Nat.min_eq_left small]

theorem partial_nameLen (fits : bytes.length ≤ 4) (old : Nat → UInt8) :
    (FileHeader.ofBytes (overlay sizeofFileHeader old bytes)).nameLen = toInt (Order.little.read (overlay 4 old bytes)) := by
  rw [FileHeader.ofBytes,overlay_take (by decide) fits]

theorem partial_fileSize (fits : bytes.length ≤ 8) (old : Nat → UInt8) :
    (FileHeader.ofBytes (overlay sizeofFileHeader old bytes)).fileSize = toLong (Order.little.read ((List.range' 8 8).map old)) := by
  have kept : ((overlay sizeofFileHeader old bytes).drop 8).take 8 = (List.range' 8 8).map old := by
    rw [overlay,List.drop_append,List.drop_of_length_le fits,List.nil_append,← List.map_drop,List.drop_drop,Nat.add_sub_cancel' fits,← List.map_take]
    rfl
  rw [FileHeader.ofBytes,kept]

theorem zero_names (memory : Memory) (nameLen : Int) : filenameOf memory nameLen [0] = copyName ⟨[],List.not_mem_nil⟩ := by
  have first : overlay nameLen.toNat memory.heap [0] ++ [0] = [] ++ 0 :: (((List.range nameLen.toNat).drop 1).map memory.heap ++ [0]) := by
    simp [overlay]
  rw [filenameOf,first,cstr_terminated ⟨[],List.not_mem_nil⟩]

-- The first recv returns three bytes of the header: the name begins with the fourth one,
-- a zero, whatever the memory held before.
theorem short_header {u : Upload} (memory : Memory) (files : CString → Option (List UInt8)) (nonempty : u.name.val ≠ [])
    (short : u.name.val.length < 256 ^ 3) : ¬ Independent memory files u.stream := by
  intro independent
  obtain ⟨log,s,run,ended,whole⟩ := whole_end u memory files
  let piece := [u.digit 0,u.digit 1,u.digit 2]
  have first : Received sizeofFileHeader u.stream piece (u.digit 3 :: u.behind) := by
    rw [stream_digits]
    exact ⟨rfl,Nat.le_of_ble_eq_true rfl,fun nothing => by simp [piece] at nothing⟩
  have positive := List.length_pos_iff.mpr nonempty
  have zero : u.digit 3 = 0 := by
    apply UInt8.toNat_inj.mp
    rw [digit_toNat,Nat.div_eq_of_lt short]
    rfl
  let header := FileHeader.ofBytes (overlay sizeofFileHeader memory.header piece)
  let word := u.name.val.length + 256 ^ 3 * (memory.header 3).toNat
  have nameLen : header.nameLen = toInt word := by
    have bytes : overlay 4 memory.header piece = [u.digit 0,u.digit 1,u.digit 2,memory.header 3] := rfl
    have read : Order.little.read [u.digit 0,u.digit 1,u.digit 2,memory.header 3] = word := by
      simp only [Order.read,value,digit_toNat,word]
      omega
    rw [partial_nameLen (by simp [piece]),bytes,read]
  by_cases outside : header.outside
  · obtain ⟨bytes,rest,second,_⟩ := received_some header.nameLen.toNat (u.digit 3 :: u.behind)
    obtain ⟨log',t,run',ended',pieces⟩ := pieces_end memory files _ first second
    have inside : ¬ FileHeader.outside ⟨u.name.val.length,u.payload.length⟩ :=
      small_inside (Int.natCast_nonneg _) (by simp only [intMax]; omega)
    obtain ⟨content,named,_⟩ := whole.named inside
    have same := independent _ _ _ _ run run' ended ended'
    rw [named,pieces.outside outside] at same
    cases same
  · have positive : 0 < header.nameLen.toNat := by
      have nonnegative : ¬ header.nameLen < 0 := fun negative => outside (.inl negative)
      have nonzero : header.nameLen ≠ 0 := by
        have bound := (memory.header 3).toNat_lt
        rw [nameLen,toInt,Int.bmod_def]
        simp only [word]
        split <;> omega
      omega
    have second : Received header.nameLen.toNat (u.digit 3 :: u.behind) [u.digit 3] u.behind := ⟨rfl,positive,fun nothing => by cases nothing⟩
    obtain ⟨log',t,run',ended',pieces⟩ := pieces_end memory files _ first second
    refine differ whole pieces outside ?_ (independent _ _ _ _ run run' ended ended')
    intro same
    have unnamed : filenameOf memory header.nameLen [u.digit 3] = copyName ⟨[],List.not_mem_nil⟩ := by
      rw [zero,zero_names]
    have empty := copyName_inj (unnamed.symm.trans same)
    exact nonempty (congrArg Subtype.val empty).symm

-- The first recv returns one byte of the header, and there were zeros where the rest of
-- header and the name were to be stored.
def zeroMemory (size : UInt8) : Memory := ⟨fun i => if i = 8 then size else 0,fun _ => 0,fun _ => true⟩

theorem zero_heap (size : UInt8) (nameLen : Int) (bytes : List UInt8) : filenameOf (zeroMemory size) nameLen bytes = copyName (cstr bytes) := by
  have zeros : overlay nameLen.toNat (zeroMemory size).heap bytes ++ [0] =
      bytes ++ List.replicate (((List.range nameLen.toNat).drop bytes.length).length + 1) 0 := by
    rw [overlay,List.append_assoc,List.replicate_succ']
    apply congrArg (bytes ++ ·)
    apply congrArg (· ++ [0])
    exact List.map_const' ..
  rw [filenameOf,zeros,cstr_zeros]

theorem zero_fields (size first : UInt8) :
    (FileHeader.ofBytes (overlay sizeofFileHeader (zeroMemory size).header [first])).nameLen = first.toNat ∧
    (FileHeader.ofBytes (overlay sizeofFileHeader (zeroMemory size).header [first])).fileSize = size.toNat := by
  have small := first.toNat_lt
  have little := size.toNat_lt
  constructor
  · have bytes : overlay 4 (zeroMemory size).header [first] = [first,0,0,0] := rfl
    have read : Order.little.read [first,0,0,0] = first.toNat := by simp [Order.read,value]
    rw [partial_nameLen (by simp),bytes,read]
    apply toInt_of_nonneg
    · omega
    · simp only [intMax]
      omega
  · have bytes : (List.range' 8 8).map (zeroMemory size).header = [size,0,0,0,0,0,0,0] := rfl
    have read : Order.little.read [size,0,0,0,0,0,0,0] = size.toNat := by simp [Order.read,value]
    rw [partial_fileSize (by simp),bytes,read]
    apply toLong_inRange <;> omega

theorem zero_inside (size first : UInt8) : ¬ (FileHeader.ofBytes (overlay sizeofFileHeader (zeroMemory size).header [first])).outside := by
  obtain ⟨nameLen,_⟩ := zero_fields size first
  have small := first.toNat_lt
  apply small_inside
  · rw [nameLen]
    exact Int.natCast_nonneg _
  · rw [nameLen]
    simp only [intMax]
    omega

theorem first_byte_names {u : Upload} (same : cstr [u.digit 1] = u.name) : u.name.val = [] := by
  have length : u.name.val.length ≤ 1 := by
    rw [← same]
    exact (List.takeWhile_prefix _).length_le
  have zero : u.digit 1 = 0 := by
    apply UInt8.toNat_inj.mp
    rw [digit_toNat,Nat.div_eq_of_lt (by omega)]
    rfl
  rw [← same,zero]
  rfl

-- Without a name the two runs end in one file, but not with one content.
theorem sizes_differ {u : Upload} {header : FileHeader} {size : UInt8}
    (whole : Outcome (zeroMemory size) (fun _ => none) ⟨u.name.val.length,u.payload.length⟩ u.name.val u.payload s)
    (pieces : Outcome (zeroMemory size) (fun _ => none) header bytes (byte :: rest) t) (inside : ¬ header.outside) (empty : u.name.val = [])
    (fileSize : header.fileSize = size.toNat) (other : size = 0 ↔ u.payload ≠ []) : outcome s ≠ outcome t := by
  have unnamed : ¬ FileHeader.outside ⟨u.name.val.length,u.payload.length⟩ := by
    rw [empty]
    change ¬ ((0 : Int) < 0 ∨ toInt (0 + 8) < 0)
    decide
  obtain ⟨content,named,own⟩ := whole.named unnamed
  obtain ⟨found,renamed,left⟩ := pieces.named inside
  intro same
  rw [named,renamed] at same
  have equal : content = found := congrArg Prod.snd (Option.some.inj same)
  rw [own rfl rfl,left rfl rfl,fileSize,Int.toNat_natCast,Int.toNat_natCast,List.take_length] at equal
  have payload := Option.some.inj equal
  by_cases zero : size = 0
  · rw [zero] at payload
    exact other.mp zero payload
  · have nothing : u.payload = [] := by
      by_contra more
      exact zero (other.mpr more)
    rw [nothing] at payload
    rcases List.take_eq_nil_iff.mp payload.symm with same | absurd
    · exact zero (UInt8.toNat_inj.mp same)
    · cases absurd

theorem first_byte (u : Upload) : ∃ memory, ¬ Independent memory (fun _ => none) u.stream := by
  let size : UInt8 := if u.payload = [] then 1 else 0
  refine ⟨zeroMemory size,?_⟩
  intro independent
  obtain ⟨log,s,run,ended,whole⟩ := whole_end u (zeroMemory size) (fun _ => none)
  have first : Received sizeofFileHeader u.stream [u.digit 0] (u.digit 1 :: u.digit 2 :: u.digit 3 :: u.behind) := by
    rw [stream_digits]
    exact ⟨rfl,Nat.le_of_ble_eq_true rfl,fun nothing => by cases nothing⟩
  obtain ⟨nameLen,fileSize⟩ := zero_fields size (u.digit 0)
  have inside := zero_inside size (u.digit 0)
  by_cases zero : u.digit 0 = 0
  · obtain ⟨log',t,run',ended',pieces⟩ := pieces_end (zeroMemory size) (fun _ => none) [] first
      ⟨rfl,Nat.zero_le _,fun _ => .inl (by rw [nameLen,zero]; rfl)⟩
    have same := independent _ _ _ _ run run' ended ended'
    by_cases empty : u.name.val = []
    · refine sizes_differ whole pieces inside empty fileSize ?_ same
      by_cases nothing : u.payload = []
      · simp [size,nothing]
      · simp [size,nothing]
    · refine differ whole pieces inside ?_ same
      rw [zero_heap]
      intro renamed
      exact empty (congrArg Subtype.val (copyName_inj renamed)).symm
  · have positive : 0 < (u.digit 0).toNat := by
      apply Nat.pos_of_ne_zero
      intro same
      exact zero (UInt8.toNat_inj.mp same)
    obtain ⟨log',t,run',ended',pieces⟩ := pieces_end (zeroMemory size) (fun _ => none) [u.digit 1] first
      ⟨rfl,by rw [nameLen]; exact positive,fun nothing => by cases nothing⟩
    refine differ whole pieces inside ?_ (independent _ _ _ _ run run' ended ended')
    rw [zero_heap]
    intro renamed
    have empty := first_byte_names (copyName_inj renamed)
    apply zero
    simp [Upload.digit,empty]

-- The pieces of the payload do not matter.
theorem payload_independent {u : Upload} (run : Runs (Step memory) (start u.stream files) (sizeofFileHeader :: u.name.val.length :: cuts) s)
    (run' : Runs (Step memory) (start u.stream files) (sizeofFileHeader :: u.name.val.length :: cuts') s')
    (ended : s.place = .finished path) (ended' : s'.place = .finished path') : outcome s = outcome s' := by
  rw [← List.append_nil u.stream] at run run'
  obtain ⟨rfl,content⟩ := upload_content run ended
  obtain ⟨rfl,content'⟩ := upload_content run' ended'
  rw [outcome,outcome,ended,ended']
  exact congrArg (fun content => some (copyName u.name,content)) (content.trans content'.symm)

end LinuxCoding.FileCopy
