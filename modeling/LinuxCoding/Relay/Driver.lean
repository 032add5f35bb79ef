import Mathlib.Data.Int.Basic

-- The relay state machine of proIO/: fsm_driver has the same body in relayer.c
-- and in the non-blocking, select, poll and epoll relay.c, over each file's own enum.
namespace LinuxCoding.Relay

def bufSize : Nat := 1024

def Buffer : Type := {cells : List UInt8 // cells.length = bufSize}
def Chunk : Type := {bytes : List UInt8 // 1 ≤ bytes.length ∧ bytes.length ≤ bufSize}

def Buffer.fill (buf : Buffer) (chunk : Chunk) : Buffer :=
  ⟨chunk.val ++ buf.val.drop chunk.val.length,by
    have bound := chunk.property.2
    have size := buf.property
    simp only [List.length_append,List.length_drop]
    omega⟩

def Buffer.slice (buf : Buffer) (pos len : Int) : List UInt8 := (buf.val.drop pos.toNat).take len.toNat

structure States where
  stateR : Int
  stateW : Int
  stateEX : Int
  stateT : Int
  distinct : [stateR,stateW,stateEX,stateT].Nodup

structure RelFsmSt where
  state : Int
  sfd : Int
  dfd : Int
  buf : Buffer
  len : Int
  strerr : String
  pos : Int

-- What read and write may return; errno tells EAGAIN from the other errors.
inductive ReadAnswer where
  | bytes (chunk : Chunk)
  | endOfFile
  | again
  | error

inductive WriteAnswer where
  | wrote (ret : Nat)
  | again
  | error

structure Answer where
  read : ReadAnswer
  write : WriteAnswer

-- write never reports more bytes than it was given.
def Answer.Fits (answer : Answer) (fsm : RelFsmSt) : Prop :=
  ∀ ret, answer.write = .wrote ret → (ret : Int) ≤ fsm.len

inductive Effect where
  | quiet
  | read (bytes : List UInt8)
  | wrote (bytes : List UInt8)
  | failed (call : String)
  | reported (strerr : String)
  deriving DecidableEq, Repr

def blankFsm : RelFsmSt := ⟨0,0,0,⟨List.replicate bufSize 0,List.length_replicate⟩,0,"",0⟩

inductive Direction where
  | fsm12
  | fsm21
  deriving DecidableEq, Repr

variable (s : States)

-- none is abort().
def fsmDriver (fsm : RelFsmSt) (answer : Answer) : Option (RelFsmSt × Effect) :=
  if fsm.state = s.stateR then
    match answer.read with
    | .endOfFile => some ({fsm with len := 0,state := s.stateT},.quiet)
    | .again => some ({fsm with len := -1,state := s.stateR},.quiet)
    | .error => some ({fsm with len := -1,strerr := "read()",state := s.stateEX},.failed "read()")
    | .bytes chunk =>
      some ({fsm with buf := fsm.buf.fill chunk,len := chunk.val.length,pos := 0,state := s.stateW},.read chunk.val)
  else if fsm.state = s.stateW then
    match answer.write with
    | .again => some ({fsm with state := s.stateW},.quiet)
    | .error => some ({fsm with strerr := "write()",state := s.stateEX},.failed "write()")
    | .wrote ret =>
      some ({fsm with
        pos := fsm.pos + ret
        len := fsm.len - ret
        state := if fsm.len - ret = 0 then s.stateR else s.stateW},.wrote (fsm.buf.slice fsm.pos ret))
  else if fsm.state = s.stateEX then some ({fsm with state := s.stateT},.reported fsm.strerr)
  else if fsm.state = s.stateT then some (fsm,.quiet)
  else none

def Known (fsm : RelFsmSt) : Prop :=
  fsm.state = s.stateR ∨ fsm.state = s.stateW ∨ fsm.state = s.stateEX ∨ fsm.state = s.stateT

variable {s}

theorem States.apart (s : States) : s.stateR ≠ s.stateW ∧ s.stateR ≠ s.stateEX ∧ s.stateR ≠ s.stateT ∧
    s.stateW ≠ s.stateEX ∧ s.stateW ≠ s.stateT ∧ s.stateEX ≠ s.stateT := by
  simpa [and_assoc] using s.distinct

theorem reading_live {fsm : RelFsmSt} (reading : fsm.state = s.stateR) : fsm.state ≠ s.stateT := by
  rw [reading]
  exact s.apart.2.2.1
theorem writing_live {fsm : RelFsmSt} (writing : fsm.state = s.stateW) : fsm.state ≠ s.stateT := by
  rw [writing]
  exact s.apart.2.2.2.2.1
theorem failing_live {fsm : RelFsmSt} (failing : fsm.state = s.stateEX) : fsm.state ≠ s.stateT := by
  rw [failing]
  exact s.apart.2.2.2.2.2

-- Everything one call can do, by the state it finds and the answer it gets.
inductive Drives (s : States) (answer : Answer) : RelFsmSt → RelFsmSt → Effect → Prop where
  | readEnd : fsm.state = s.stateR → answer.read = .endOfFile →
      Drives s answer fsm {fsm with len := 0,state := s.stateT} .quiet
  | readAgain : fsm.state = s.stateR → answer.read = .again →
      Drives s answer fsm {fsm with len := -1,state := s.stateR} .quiet
  | readError : fsm.state = s.stateR → answer.read = .error →
      Drives s answer fsm {fsm with len := -1,strerr := "read()",state := s.stateEX} (.failed "read()")
  | readBytes (chunk : Chunk) : fsm.state = s.stateR → answer.read = .bytes chunk →
      Drives s answer fsm {fsm with
        buf := fsm.buf.fill chunk,len := chunk.val.length,pos := 0,state := s.stateW} (.read chunk.val)
  | writeAgain : fsm.state = s.stateW → answer.write = .again →
      Drives s answer fsm {fsm with state := s.stateW} .quiet
  | writeError : fsm.state = s.stateW → answer.write = .error →
      Drives s answer fsm {fsm with strerr := "write()",state := s.stateEX} (.failed "write()")
  | wrote (ret : Nat) : fsm.state = s.stateW → answer.write = .wrote ret →
      Drives s answer fsm {fsm with
        pos := fsm.pos + ret
        len := fsm.len - ret
        state := if fsm.len - ret = 0 then s.stateR else s.stateW} (.wrote (fsm.buf.slice fsm.pos ret))
  | report : fsm.state = s.stateEX → Drives s answer fsm {fsm with state := s.stateT} (.reported fsm.strerr)
  | rest : fsm.state = s.stateT → Drives s answer fsm fsm .quiet

theorem driver_sound (ran : fsmDriver s fsm answer = some (next,effect)) : Drives s answer fsm next effect := by
  unfold fsmDriver at ran
  split at ran
  · rename_i reading
    cases answered : answer.read with
    | endOfFile => simp only [answered] at ran; cases ran; exact .readEnd reading answered
    | again => simp only [answered] at ran; cases ran; exact .readAgain reading answered
    | error => simp only [answered] at ran; cases ran; exact .readError reading answered
    | bytes chunk => simp only [answered] at ran; cases ran; exact .readBytes chunk reading answered
  · split at ran
    · rename_i writing
      cases answered : answer.write with
      | again => simp only [answered] at ran; cases ran; exact .writeAgain writing answered
      | error => simp only [answered] at ran; cases ran; exact .writeError writing answered
      | wrote ret => simp only [answered] at ran; cases ran; exact .wrote ret writing answered
    · split at ran
      · rename_i failing
        cases ran
        exact .report failing
      · split at ran
        · rename_i stopped
          cases ran
          exact .rest stopped
        · cases ran

-- A call leaves the direction in STATE_EX exactly when its read or write failed.
theorem failed_exact (drives : Drives s answer fsm next effect) :
    next.state = s.stateEX ↔ ∃ call, effect = .failed call := by
  obtain ⟨_,rex,_,wex,_,ext⟩ := s.apart
  cases drives with
  | readEnd => simp [ext.symm]
  | readAgain => simp [rex]
  | readError => simp
  | readBytes => simp [wex]
  | writeAgain => simp [wex]
  | writeError => simp
  | wrote ret writing answered =>
    by_cases done : fsm.len - ret = 0
    · simp [done,rex]
    · simp [done,wex]
  | report => simp [ext.symm]
  | rest stopped => simp [stopped,ext.symm]

theorem driver_ended (ran : fsmDriver s fsm answer = some (next,effect)) (ended : fsm.state = s.stateT) :
    next.state = s.stateT := by
  obtain ⟨_,_,rt,_,wt,ext⟩ := s.apart
  cases driver_sound ran with
  | readEnd reading | readAgain reading | readError reading | readBytes _ reading => exact absurd (reading.symm.trans ended) rt
  | writeAgain writing | writeError writing | wrote _ writing => exact absurd (writing.symm.trans ended) wt
  | report failing => exact absurd (failing.symm.trans ended) ext
  | rest => exact ended

theorem driver_total (known : Known s fsm) (answer : Answer) :
    ∃ next effect, fsmDriver s fsm answer = some (next,effect) := by
  unfold fsmDriver
  split
  · cases answer.read <;> exact ⟨_,_,rfl⟩
  · split
    · cases answer.write <;> exact ⟨_,_,rfl⟩
    · split
      · exact ⟨_,_,rfl⟩
      · split
        · exact ⟨_,_,rfl⟩
        · rcases known with r | w | ex | t <;> contradiction

-- What a direction has read and written, from the effects of its calls.
def Effect.readBytes : Effect → List UInt8
  | .read bytes => bytes
  | _ => []
def Effect.wroteBytes : Effect → List UInt8
  | .wrote bytes => bytes
  | _ => []

def bytesRead (effects : List Effect) : List UInt8 := effects.flatMap Effect.readBytes
def bytesWritten (effects : List Effect) : List UInt8 := effects.flatMap Effect.wroteBytes

-- Entering STATE_EX is what a failed read or write does.
def EnteredEX (effects : List Effect) : Prop := ∃ call, .failed call ∈ effects

-- The bytes read and not yet written.
def pending (s : States) (fsm : RelFsmSt) : List UInt8 :=
  if fsm.state = s.stateW then fsm.buf.slice fsm.pos fsm.len else []

structure Carried (s : States) (fsm : RelFsmSt) (effects : List Effect) : Prop where
  known : Known s fsm
  window : fsm.state = s.stateW → 1 ≤ fsm.len ∧ 0 ≤ fsm.pos ∧ fsm.pos + fsm.len ≤ bufSize
  failed : fsm.state = s.stateEX → EnteredEX effects
  data : ¬EnteredEX effects → bytesWritten effects ++ pending s fsm = bytesRead effects

theorem entered_append {effects : List Effect} {effect : Effect} :
    EnteredEX (effects ++ [effect]) ↔ EnteredEX effects ∨ ∃ call, effect = .failed call := by
  constructor
  · intro ⟨call,present⟩
    rcases List.mem_append.mp present with old | new
    · exact .inl ⟨call,old⟩
    · exact .inr ⟨call,(List.mem_singleton.mp new).symm⟩
  · rintro (⟨call,old⟩ | ⟨call,rfl⟩)
    · exact ⟨call,List.mem_append_left _ old⟩
    · exact ⟨call,by simp⟩

@[simp] theorem read_append (effects : List Effect) (effect : Effect) :
    bytesRead (effects ++ [effect]) = bytesRead effects ++ effect.readBytes := by simp [bytesRead]
@[simp] theorem written_append (effects : List Effect) (effect : Effect) :
    bytesWritten (effects ++ [effect]) = bytesWritten effects ++ effect.wroteBytes := by simp [bytesWritten]

theorem fill_slice (buf : Buffer) (chunk : Chunk) : (buf.fill chunk).slice 0 chunk.val.length = chunk.val := by
  simp [Buffer.slice,Buffer.fill]

theorem slice_split (buf : Buffer) (ret : Nat) (low : 0 ≤ pos) (fits : (ret : Int) ≤ len) :
    buf.slice pos len = buf.slice pos ret ++ buf.slice (pos + ret) (len - ret) := by
  have total : len.toNat = ret + (len - ret).toNat := by omega
  have start : (pos + ret).toNat = pos.toNat + ret := by omega
  simp only [Buffer.slice,Int.toNat_natCast,start]
  rw [total,List.take_add,List.drop_drop]

theorem slice_empty (buf : Buffer) (pos : Int) : buf.slice pos 0 = [] := by simp [Buffer.slice]

theorem pending_idle (idle : fsm.state ≠ s.stateW) : pending s fsm = [] := by simp [pending,idle]
theorem pending_reading (reading : fsm.state = s.stateR) : pending s fsm = [] := pending_idle (by rw [reading]; exact s.apart.1)
theorem pending_writing (writing : fsm.state = s.stateW) : pending s fsm = fsm.buf.slice fsm.pos fsm.len := by
  simp [pending,writing]

-- A write takes its bytes from the front of what is pending.
theorem pending_wrote {fsm : RelFsmSt} {ret : Nat} (writing : fsm.state = s.stateW) (low : 0 ≤ fsm.pos) (enough : (ret : Int) ≤ fsm.len) :
    pending s fsm = fsm.buf.slice fsm.pos ret ++
      pending s {fsm with
        pos := fsm.pos + ret
        len := fsm.len - ret
        state := if fsm.len - ret = 0 then s.stateR else s.stateW} := by
  rw [pending_writing writing,slice_split _ _ low enough]
  by_cases done : fsm.len - ret = 0
  · simp only [done,if_true]
    rw [pending_idle s.apart.1,slice_empty]
  · simp only [done,if_false]
    rw [pending_writing rfl]

theorem Carried.law (carried : Carried s fsm effects) (clean : ¬EnteredEX (effects ++ [effect])) :
    bytesWritten effects ++ pending s fsm = bytesRead effects :=
  carried.data (fun entered => clean (entered_append.mpr (.inl entered)))

-- The direction has nothing pending, and the call moves no byte.
theorem Carried.settled {next : RelFsmSt} (carried : Carried s fsm effects) (nothing : pending s fsm = [])
    (still : effect.readBytes = [] ∧ effect.wroteBytes = []) (known : Known s next) (idle : next.state ≠ s.stateW)
    (failed : next.state = s.stateEX → EnteredEX (effects ++ [effect])) : Carried s next (effects ++ [effect]) := by
  refine ⟨known,fun writing => absurd writing idle,failed,?_⟩
  intro clean
  have law := carried.law clean
  rw [nothing,List.append_nil] at law
  simp only [read_append,written_append,still.1,still.2,pending_idle idle,law,List.append_nil]

theorem driver_carried (carried : Carried s fsm effects) (fits : answer.Fits fsm)
    (ran : fsmDriver s fsm answer = some (next,effect)) : Carried s next (effects ++ [effect]) := by
  obtain ⟨rw,rex,rt,wex,wt,ext⟩ := s.apart
  have failed : next.state = s.stateEX → EnteredEX (effects ++ [effect]) := fun failing =>
    entered_append.mpr (.inr ((failed_exact (driver_sound ran)).mp failing))
  cases driver_sound ran with
  | readEnd reading answered => exact carried.settled (pending_reading reading) ⟨rfl,rfl⟩ (.inr (.inr (.inr rfl))) wt.symm failed
  | readAgain reading answered => exact carried.settled (pending_reading reading) ⟨rfl,rfl⟩ (.inl rfl) rw failed
  | readError reading answered => exact carried.settled (pending_reading reading) ⟨rfl,rfl⟩ (.inr (.inr (.inl rfl))) wex.symm failed
  | readBytes chunk reading answered =>
    have bound := chunk.property
    refine ⟨.inr (.inl rfl),fun _ => ⟨?_,Int.le_refl 0,?_⟩,failed,?_⟩
    · change (1 : Int) ≤ chunk.val.length
      omega
    · change (0 : Int) + chunk.val.length ≤ bufSize
      omega
    · intro clean
      have law := carried.law clean
      rw [pending_reading reading,List.append_nil] at law
      rw [read_append,written_append,pending_writing rfl,law]
      simp [Effect.readBytes,Effect.wroteBytes,fill_slice]
  | writeAgain writing answered =>
    have same : pending s {fsm with state := s.stateW} = pending s fsm := by
      rw [pending_writing rfl,pending_writing writing]
    refine ⟨.inr (.inl rfl),fun _ => carried.window writing,failed,?_⟩
    intro clean
    have law := carried.law clean
    rw [read_append,written_append,same]
    simpa [Effect.readBytes,Effect.wroteBytes] using law
  | writeError writing answered =>
    refine ⟨.inr (.inr (.inl rfl)),fun again => absurd again.symm wex,failed,?_⟩
    exact fun clean => absurd (entered_append.mpr (.inr ⟨_,rfl⟩)) clean
  | wrote ret writing answered =>
    obtain ⟨some,low,high⟩ := carried.window writing
    have enough := fits ret answered
    refine ⟨?_,?_,failed,?_⟩
    · by_cases done : fsm.len - ret = 0
      · exact .inl (if_pos done)
      · exact .inr (.inl (if_neg done))
    · intro again
      have left : fsm.len - ret ≠ 0 := by
        intro done
        exact rw ((if_pos done).symm.trans again)
      refine ⟨?_,?_,?_⟩
      · change 1 ≤ fsm.len - ret
        omega
      · change 0 ≤ fsm.pos + ret
        omega
      · change fsm.pos + ret + (fsm.len - ret) ≤ bufSize
        omega
    · intro clean
      have law := carried.law clean
      rw [pending_wrote writing low enough] at law
      rw [read_append,written_append]
      simpa [Effect.readBytes,Effect.wroteBytes] using law
  | report failing =>
    have nothing : pending s fsm = [] := pending_idle (by rw [failing]; exact wex.symm)
    exact carried.settled nothing ⟨rfl,rfl⟩ (.inr (.inr (.inr rfl))) wt.symm failed
  | rest stopped =>
    have idle : fsm.state ≠ s.stateW := by
      rw [stopped]
      exact wt.symm
    exact carried.settled (pending_idle idle) ⟨rfl,rfl⟩ carried.known idle failed

end LinuxCoding.Relay
