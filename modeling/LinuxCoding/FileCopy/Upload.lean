import LinuxCoding.FileCopy.Model

-- The receive loop of the server, and the file that is left after it.
namespace LinuxCoding.FileCopy
open Bytes CInt Transition
variable {memory : Memory}

-- After the name the loop has received `got` of the bytes that followed.
structure Loaded (filename : CString) (fileSize : Int) (body old : List UInt8) (got : List UInt8) (s : Connection) : Prop where
  split : body = got ++ s.stream
  most : got.length ≤ fileSize.toNat
  content : s.files filename = some (got ++ old.drop got.length)
  place : s.place = .receiving filename fileSize got.length ∨ s.place = .finished filename ∧ got = body.take fileSize.toNat

theorem write_next (got old bytes : List UInt8) :
    writeAt (got ++ old.drop got.length) got.length bytes = (got ++ bytes) ++ old.drop (got ++ bytes).length := by
  have before : (got ++ old.drop got.length).take got.length = got := List.take_left
  have after : (got ++ old.drop got.length).drop (got.length + bytes.length) = old.drop (got.length + bytes.length) := by
    rw [← List.drop_drop,List.drop_left,List.drop_drop]
  rw [writeAt,before,after,List.length_append,List.append_assoc]

theorem step_loaded (loaded : Loaded filename fileSize body old got s) (step : Step memory s emitted t) :
    ∃ more, Loaded filename fileSize body old (got ++ more) t := by
  obtain ⟨split,most,content,place⟩ := loaded
  rcases place with here | ⟨here,_⟩
  · cases step with
    | header bytes rest stands | crashes header stands | opens header bytes rest stands | refuses header bytes rest stands =>
      rw [here] at stands
      cases stands
    | receives path size total file bytes rest stands below found received nonempty =>
      rw [here] at stands
      cases stands
      obtain ⟨whole,fits,_⟩ := received
      rw [content] at found
      cases found
      refine ⟨bytes,?_,?_,?_,.inl ?_⟩
      · rw [split,whole,List.append_assoc]
      · simp only [room] at fits
        rw [List.length_append]
        split at fits <;> omega
      · change Function.update s.files filename _ filename = _
        rw [Function.update_self,write_next]
      · rw [List.length_append]
    | closes path size total stands ended below =>
      rw [here] at stands
      cases stands
      refine ⟨[],?_,?_,?_,.inr ⟨rfl,?_⟩⟩
      · rwa [List.append_nil]
      · rwa [List.append_nil]
      · rwa [List.append_nil]
      · rw [ended,List.append_nil] at split
        rw [List.append_nil,split,List.take_of_length_le most]
    | finishes path size total stands enough =>
      rw [here] at stands
      cases stands
      refine ⟨[],?_,?_,?_,.inr ⟨rfl,?_⟩⟩
      · rwa [List.append_nil]
      · rwa [List.append_nil]
      · rwa [List.append_nil]
      · have all : fileSize.toNat = got.length := by omega
        rw [List.append_nil,split,all,List.take_left]
  · cases step with
    | header bytes rest stands | crashes header stands | opens header bytes rest stands | refuses header bytes rest stands =>
      rw [here] at stands
      cases stands
    | receives path size total file bytes rest stands | closes path size total stands | finishes path size total stands =>
      rw [here] at stands
      cases stands

theorem run_loaded (loaded : Loaded filename fileSize body old got s) (run : Runs (Step memory) s log t) :
    ∃ more, Loaded filename fileSize body old (got ++ more) t := by
  refine run.stateInvariant (I := fun s => ∃ more, Loaded filename fileSize body old (got ++ more) s) ?_ ⟨[],by rwa [List.append_nil]⟩
  intro s emitted t ⟨more,holds⟩ step
  obtain ⟨further,after⟩ := step_loaded holds step
  exact ⟨more ++ further,by rwa [← List.append_assoc]⟩

-- What the loop leaves: the first file_size bytes, and behind them what the file had
-- there before.
theorem loop_content (loaded : Loaded filename fileSize body old [] s) (run : Runs (Step memory) s log t) (ended : t.place = .finished path) :
    path = filename ∧ t.files filename = some (body.take fileSize.toNat ++ old.drop (body.take fileSize.toNat).length) := by
  obtain ⟨got,split,most,content,place⟩ := run_loaded loaded run
  rcases place with here | ⟨here,all⟩
  · rw [ended] at here
    cases here
  · rw [ended] at here
    cases here
    rw [all] at content
    exact ⟨rfl,content⟩

def longMax : Int := 9223372036854775807

-- What a client sends: a header that is right about the name and the file.
structure Upload where
  name : CString
  payload : List UInt8
  padding : List UInt8
  md : List UInt8
  nameFits : name.val.length ≤ intMax
  payloadFits : payload.length ≤ longMax
  paddingSize : padding.length = 4
  mdSize : md.length = 32

def Upload.header (u : Upload) : List UInt8 := headerBytes u.name.val.length u.payload.length u.padding u.md
def Upload.stream (u : Upload) : List UInt8 := u.header ++ (u.name.val ++ u.payload)

theorem header_length (u : Upload) : u.header.length = sizeofFileHeader := by
  simp only [Upload.header,headerBytes,List.length_append,layout_length,u.paddingSize,u.mdSize,sizeofFileHeader]

theorem header_fields (u : Upload) : FileHeader.ofBytes u.header = ⟨u.name.val.length,u.payload.length⟩ := by
  have names := u.nameFits
  have sizes := u.payloadFits
  simp only [intMax,longMax] at names sizes
  have first : u.header.take 4 = Order.little.layout 4 u.name.val.length :=
    List.take_left' (layout_length .little 4 _)
  have second : (u.header.drop 8).take 8 = Order.little.layout 8 u.payload.length := by
    have both : (Order.little.layout 4 u.name.val.length ++ u.padding).length = 8 := by
      rw [List.length_append,layout_length,u.paddingSize]
    rw [Upload.header,headerBytes,← List.append_assoc,List.drop_left' both]
    exact List.take_left' (layout_length .little 8 _)
  rw [FileHeader.ofBytes,first,second,read_layout .little (by omega),read_layout .little (by omega)]
  rw [toInt_of_nonneg (by omega) (by simp only [intMax]; omega),toLong_inRange (by omega) (by omega)]

theorem overlay_whole (full : bytes.length = size) (old : Nat → UInt8) : overlay size old bytes = bytes := by
  rw [overlay,full,List.drop_of_length_le (by simp),List.map_nil,List.append_nil]

theorem received_all (wanted : List UInt8) (received : Received limit (wanted ++ after) bytes rest) (all : bytes.length = wanted.length) :
    bytes = wanted ∧ rest = after := by
  have parts := List.append_inj received.1 all.symm
  exact ⟨parts.1.symm,parts.2.symm⟩

-- A connection that has ended does not go on.
theorem ended_stays (run : Runs (Step memory) s log t) (ended : (∃ path, s.place = .refused path) ∨ s.place = .crashed) : log = [] ∧ t = s := by
  rcases run.head with here | ⟨_,_,_,step,_⟩
  · exact here
  · cases step with
    | header _ _ stands | crashes _ stands | opens _ _ _ stands | refuses _ _ _ stands | receives _ _ _ _ _ _ stands
    | closes _ _ _ stands | finishes _ _ _ stands =>
      rw [stands] at ended
      rcases ended with ⟨_,there⟩ | there
      all_goals cases there

theorem header_whole {u : Upload} (run : Runs (Step memory) (start (u.stream ++ extra) files) (sizeofFileHeader :: later) s) :
    Runs (Step memory) ⟨.naming ⟨u.name.val.length,u.payload.length⟩,u.name.val ++ (u.payload ++ extra),files⟩ later s := by
  rcases run.head with ⟨nothing,_⟩ | ⟨emitted,next,rest,step,run,same⟩
  · cases nothing
  · cases step with
    | header bytes left here received =>
      obtain ⟨full,rfl⟩ := List.cons.inj same
      have parts := received_all u.header (by simpa [start,Upload.stream] using received) (by rw [header_length]; exact full.symm)
      obtain ⟨rfl,rfl⟩ := parts
      rw [overlay_whole full.symm,header_fields] at run
      exact run
    | crashes _ here | opens _ _ _ here | refuses _ _ _ here | receives _ _ _ _ _ _ here | closes _ _ _ here | finishes _ _ _ here =>
      cases here

theorem name_received (memory : Memory) (name : CString) : filenameOf memory name.val.length name.val = copyName name := by
  rw [filenameOf,Int.toNat_natCast,overlay_whole rfl,cstr_terminated]

theorem opened_loaded (filename : CString) (fileSize : Int) (body : List UInt8) (files : CString → Option (List UInt8)) :
    Loaded filename fileSize body ((files filename).getD []) []
      ⟨.receiving filename fileSize 0,body,Function.update files filename (some ((files filename).getD []))⟩ :=
  ⟨rfl,Nat.zero_le _,Function.update_self ..,.inl rfl⟩

theorem name_whole {name : CString} (run : Runs (Step memory) ⟨.naming ⟨name.val.length,fileSize⟩,name.val ++ body,files⟩ (name.val.length :: cuts) s)
    (ended : s.place = .finished path) :
    ∃ t, Loaded (copyName name) fileSize body ((files (copyName name)).getD []) [] t ∧ Runs (Step memory) t cuts s := by
  rcases run.head with ⟨nothing,_⟩ | ⟨emitted,next,rest,step,run,same⟩
  · cases nothing
  · cases step with
    | crashes header here outside =>
      obtain ⟨rfl,_⟩ := ended_stays run (.inr rfl)
      cases same
    | opens header bytes left here inside received opens =>
      cases here
      obtain ⟨full,rfl⟩ := List.cons.inj same
      obtain ⟨rfl,rfl⟩ := received_all name.val received full.symm
      rw [name_received] at run
      exact ⟨_,opened_loaded (copyName name) fileSize _ files,run⟩
    | refuses header bytes left here =>
      obtain ⟨_,rfl⟩ := ended_stays run (.inl ⟨_,rfl⟩)
      cases ended
    | header _ _ here | receives _ _ _ _ _ _ here | closes _ _ _ here | finishes _ _ _ here => cases here

-- The file after an upload whose header and name have come in one piece each.
theorem upload_content {u : Upload} (run : Runs (Step memory) (start (u.stream ++ extra) files) (sizeofFileHeader :: u.name.val.length :: cuts) s)
    (ended : s.place = .finished path) :
    path = copyName u.name ∧ s.files (copyName u.name) = some (u.payload ++ ((files (copyName u.name)).getD []).drop u.payload.length) := by
  obtain ⟨t,loaded,loop⟩ := name_whole (header_whole run) ended
  obtain ⟨rfl,content⟩ := loop_content loaded loop ended
  rw [Int.toNat_natCast,List.take_left] at content
  exact ⟨rfl,content⟩

-- Every connection comes to an end.
def Place.left : Place → Nat
  | .accepted => 3
  | .naming _ => 2
  | .receiving .. => 1
  | .finished _ => 0
  | .refused _ => 0
  | .crashed => 0

def Connection.left (s : Connection) : Nat := s.stream.length + s.place.left

theorem received_length (received : Received limit stream bytes rest) : stream.length = bytes.length + rest.length := by
  rw [received.1,List.length_append]

theorem step_left (step : Step memory s emitted t) : t.left < s.left := by
  cases step with
  | header bytes rest here received | opens header bytes rest here inside received | refuses header bytes rest here inside received =>
    have shorter := received_length received
    simp only [Connection.left,here,Place.left]
    omega
  | receives filename fileSize total file bytes rest here below found received nonempty =>
    have shorter := received_length received
    have positive := List.length_pos_iff.mpr nonempty
    simp only [Connection.left,here,Place.left]
    omega
  | crashes header here | closes filename fileSize total here | finishes filename fileSize total here =>
    simp only [Connection.left,here,Place.left]
    omega

-- There is something to receive, or no need to.
theorem received_some (limit : Nat) (stream : List UInt8) :
    ∃ bytes rest, Received limit stream bytes rest ∧ (0 < limit → stream ≠ [] → bytes ≠ []) := by
  cases limit with
  | zero => exact ⟨[],stream,⟨rfl,Nat.le_refl _,fun _ => .inl rfl⟩,fun positive => absurd positive (Nat.lt_irrefl _)⟩
  | succ limit =>
    cases stream with
    | nil => exact ⟨[],[],⟨rfl,Nat.zero_le _,fun _ => .inr rfl⟩,fun _ more => absurd rfl more⟩
    | cons byte stream => exact ⟨[byte],stream,⟨rfl,by simp,nofun⟩,fun _ _ => nofun⟩

theorem loop_moves (here : s.place = .receiving filename fileSize total) (found : s.files filename = some file) : ¬ Stuck (Step memory) s := by
  intro stuck
  by_cases enough : fileSize ≤ total
  · exact stuck _ _ (.finishes s filename fileSize total here enough)
  · have below : total < fileSize := by omega
    by_cases ended : s.stream = []
    · exact stuck _ _ (.closes s filename fileSize total here ended below)
    · obtain ⟨bytes,rest,received,nonempty⟩ := received_some (room fileSize total) s.stream
      have positive : 0 < room fileSize total := by
        unfold room
        split
        · decide
        · omega
      exact stuck _ _ (.receives s filename fileSize total file bytes rest here below found received (nonempty positive ended))

theorem loaded_ends (memory : Memory) (loaded : Loaded filename fileSize body old got s) :
    ∃ log t, Runs (Step memory) s log t ∧ t.place = .finished filename := by
  obtain ⟨log,t,run,stuck⟩ := Runs.ending (Step memory) (fun _ _ _ => step_left) s
  obtain ⟨more,_,_,content,place⟩ := run_loaded loaded run
  rcases place with here | ⟨here,_⟩
  · exact absurd stuck (loop_moves here content)
  · exact ⟨log,t,run,here⟩

-- A length that leaves room for strcat in an int.
theorem small_inside {header : FileHeader} (low : 0 ≤ header.nameLen) (high : header.nameLen + 8 ≤ intMax) : ¬ header.outside := by
  have sum : toInt (header.nameLen + 8) = header.nameLen + 8 := by
    apply toInt_of_nonneg
    · omega
    · exact high
  simp only [FileHeader.outside,sum]
  omega

-- Some upload comes in whole pieces.
theorem upload_ends (u : Upload) (memory : Memory) (extra : List UInt8) (files : CString → Option (List UInt8))
    (opens : memory.opens (copyName u.name) = true) (short : u.name.val.length + 8 ≤ intMax) :
    ∃ cuts s, Runs (Step memory) (start (u.stream ++ extra) files) (sizeofFileHeader :: u.name.val.length :: cuts) s ∧
      s.place = .finished (copyName u.name) := by
  have length := header_length u
  let body := u.payload ++ extra
  let named : Connection := ⟨.naming ⟨u.name.val.length,u.payload.length⟩,u.name.val ++ body,files⟩
  have first : Step memory (start (u.stream ++ extra) files) [sizeofFileHeader] named := by
    have step : Step memory (start (u.stream ++ extra) files) _ _ := .header _ u.header (u.name.val ++ body) rfl
      ⟨by simp [start,Upload.stream,body],Nat.le_of_eq length,fun none => by rw [none] at length; cases length⟩
    rw [overlay_whole length,header_fields,length] at step
    exact step
  have inside : ¬ FileHeader.outside ⟨u.name.val.length,u.payload.length⟩ := small_inside (Int.natCast_nonneg _) short
  have second := Step.opens named _ u.name.val body rfl inside
    ⟨rfl,by rw [Int.toNat_natCast],fun none => .inl (by rw [none]; rfl)⟩ (by rw [name_received]; exact opens)
  rw [name_received] at second
  obtain ⟨cuts,s,run,ended⟩ := loaded_ends memory (opened_loaded (copyName u.name) u.payload.length body files)
  exact ⟨cuts,s,((Runs.one first).append (.one second)).append run,ended⟩

theorem upload_exact {u : Upload} (run : Runs (Step memory) (start (u.stream ++ extra) files) (sizeofFileHeader :: u.name.val.length :: cuts) s)
    (ended : s.place = .finished path) :
    s.files (copyName u.name) = some u.payload ↔ ((files (copyName u.name)).getD []).length ≤ u.payload.length := by
  rw [(upload_content run ended).2,Option.some.injEq,List.append_right_eq_self,List.drop_eq_nil_iff]

-- A file of one byte, and a target without and with a longer content.
def oneByte : Upload := ⟨⟨[97],by decide⟩,[7],[0,0,0,0],List.replicate 32 0,by decide,by decide,rfl,rfl⟩
def anyMemory : Memory := ⟨fun _ => 0,fun _ => 0,fun _ => true⟩

theorem upload_new : ∃ cuts s, Runs (Step anyMemory) (start (oneByte.stream ++ []) (fun _ => none)) (sizeofFileHeader :: 1 :: cuts) s ∧
    (s.files (copyName oneByte.name) = some [7] ↔ 0 ≤ 1) := by
  obtain ⟨cuts,s,run,ended⟩ := upload_ends oneByte anyMemory [] (fun _ => none) rfl (by decide)
  exact ⟨cuts,s,run,upload_exact run ended⟩

theorem upload_longer : ¬ ∀ (u : Upload) (memory : Memory) (extra : List UInt8) (files : CString → Option (List UInt8)) cuts s path,
    Runs (Step memory) (start (u.stream ++ extra) files) (sizeofFileHeader :: u.name.val.length :: cuts) s → s.place = .finished path →
    s.files (copyName u.name) = some u.payload := by
  intro equal
  let files : CString → Option (List UInt8) := fun _ => some [1,2,3]
  obtain ⟨cuts,s,run,ended⟩ := upload_ends oneByte anyMemory [] files rfl (by decide)
  have claimed := equal oneByte anyMemory [] files cuts s _ run ended
  have content : s.files (copyName oneByte.name) = some [7,2,3] := (upload_content run ended).2
  rw [claimed] at content
  cases content

end LinuxCoding.FileCopy
