import LinuxCoding.Library.Frames
import LinuxCoding.Library.Stdio
import LinuxCoding.Library.Transition

-- IPC/pipe/fifo_chat_a.c and fifo_chat_b.c: what one of them types and the other one
-- shows. Both directions run the same code, each over a pipe of its own.
namespace LinuxCoding.FifoChat
open Bytes Frames Stdio Transition

def bufferSize : Nat := 256

-- What main makes of a line of stdin: nothing, the end of the chat, or a message.
inductive Input where
  | skipped
  | exit
  | message (text : CString)

theorem until_newline (s : CString) : 0 ∉ s.val.takeWhile (· ≠ newline) :=
  fun member => s.property (List.takeWhile_subset _ member)

-- buffer[strcspn(buffer, "\n")] = '\0'
def chomp (s : CString) : CString := ⟨s.val.takeWhile (· ≠ newline),until_newline s⟩

-- The text "exit" ends the chat.
def accept (text : CString) : Input :=
  if text.val = [] then .skipped else if text.val = [101,120,105,116] then .exit else .message text

def input (buffer : List UInt8) : Input := accept (chomp (cstr buffer))

-- buffer is all zeros before a read of at most BUFFER_SIZE - 1 bytes into it.
def shown (bytes : List UInt8) : CString := cstr (bytes ++ List.replicate (bufferSize - bytes.length) 0)

structure Chat where
  stdin : List UInt8
  pipe : List UInt8
  received : List CString

inductive Event where
  | wrote (text : CString)
  | read (bytes : List UInt8)

def start (stdin : List UInt8) : Chat := ⟨stdin,[],[]⟩

-- A write of at most PIPE_BUF bytes waits until all of them fit into the pipe.
inductive Step (capacity : Nat) : Chat → List Event → Chat → Prop where
  | skips (s : Chat) (buffer rest : List UInt8) : fgets bufferSize s.stdin = some (buffer,rest) → input buffer = .skipped →
      Step capacity s [] {s with stdin := rest}
  | exits (s : Chat) (buffer rest : List UInt8) : fgets bufferSize s.stdin = some (buffer,rest) → input buffer = .exit →
      Step capacity s [] {s with stdin := []}
  | writes (s : Chat) (buffer rest : List UInt8) (text : CString) : fgets bufferSize s.stdin = some (buffer,rest) →
      input buffer = .message text → s.pipe.length + (frame text).length ≤ capacity →
      Step capacity s [.wrote text] {s with stdin := rest,pipe := s.pipe ++ frame text}
  | reads (s : Chat) (bytes rest : List UInt8) : s.pipe = bytes ++ rest → bytes ≠ [] → bytes.length ≤ bufferSize - 1 →
      Step capacity s [.read bytes] {s with pipe := rest,received := s.received ++ [shown bytes]}

def Event.sends : Event → Option CString
  | .wrote text => some text
  | .read _ => none

def Event.takes : Event → Option (List UInt8)
  | .wrote _ => none
  | .read bytes => some bytes

theorem shown_cstr (bytes : List UInt8) : shown bytes = cstr bytes := cstr_zeros bytes _

theorem message_nonempty (typed : input buffer = .message text) : text.val ≠ [] := by
  unfold input accept at typed
  split at typed
  · cases typed
  · rename_i nonempty
    split at typed
    · cases typed
    · cases typed
      exact nonempty

-- The bytes that have been written are the ones that have been read and those in the
-- pipe.
structure Delivered (log : List Event) (s : Chat) : Prop where
  bytes : (log.filterMap Event.takes).flatten ++ s.pipe = (log.filterMap Event.sends).flatMap frame
  shown : s.received = (log.filterMap Event.takes).map cstr
  nonempty : ∀ text ∈ log.filterMap Event.sends, text.val ≠ []

theorem step_delivered (delivered : Delivered log s) (step : Step capacity s emitted t) : Delivered (log ++ emitted) t := by
  obtain ⟨bytes,shown,nonempty⟩ := delivered
  cases step with
  | skips buffer rest line skipped =>
    rw [List.append_nil]
    exact ⟨bytes,shown,nonempty⟩
  | exits buffer rest line exit =>
    rw [List.append_nil]
    exact ⟨bytes,shown,nonempty⟩
  | writes buffer rest text line typed fits =>
    refine ⟨?_,?_,?_⟩
    · simp [List.filterMap_cons,Event.takes,Event.sends,← bytes]
    · simpa [List.filterMap_cons,Event.takes] using shown
    · intro other member
      rcases List.mem_append.mp (List.filterMap_append ▸ member) with old | new
      · exact nonempty other old
      · obtain rfl : other = text := by simpa [List.filterMap_cons,Event.sends,eq_comm] using new
        exact message_nonempty typed
  | reads taken rest here more short =>
    rw [here] at bytes
    refine ⟨?_,?_,?_⟩
    · simpa [List.filterMap_cons,Event.takes,Event.sends] using bytes
    · simp [Event.takes,shown,shown_cstr]
    · simpa [List.filterMap_cons,Event.sends] using nonempty

theorem start_delivered (stdin : List UInt8) : Delivered [] (start stdin) := ⟨rfl,rfl,nofun⟩

-- When the pipe has been drained, the peer has shown the messages exactly if every read
-- has returned one message with its NUL and nothing else.
theorem chat_exact (run : Runs (Step capacity) (start stdin) log s) (drained : s.pipe = []) :
    s.received = log.filterMap Event.sends ↔ ∀ bytes, .read bytes ∈ log → Whole bytes := by
  obtain ⟨bytes,shown,nonempty⟩ := run.invariant (I := Delivered) (fun _ _ _ _ => step_delivered) (start_delivered stdin)
  rw [drained,List.append_nil] at bytes
  rw [shown,pieces_exact nonempty bytes]
  constructor
  · intro whole bytes read
    exact whole bytes (List.mem_filterMap.mpr ⟨.read bytes,read,rfl⟩)
  · intro whole bytes taken
    obtain ⟨event,member,takes⟩ := List.mem_filterMap.mp taken
    cases event with
    | wrote => cases takes
    | read other =>
      cases takes
      exact whole bytes member

-- One message of one letter.
theorem chat_one : ∃ log s, Runs (Step 4096) (start [97,10]) log s ∧ s.pipe = [] ∧
    (s.received = log.filterMap Event.sends ↔ ∀ bytes, .read bytes ∈ log → Whole bytes) := by
  have writes : Step 4096 (start [97,10]) [.wrote ⟨[97],by decide⟩] ⟨[],[97,0],[]⟩ :=
    .writes (start [97,10]) [97,10] [] ⟨[97],by decide⟩ (by decide) rfl (by decide)
  have reads : Step 4096 ⟨[],[97,0],[]⟩ [.read [97,0]] ⟨[],[],[shown [97,0]]⟩ := .reads ⟨[],[97,0],[]⟩ [97,0] [] rfl (by decide) (by decide)
  have run := (Runs.one writes).step reads
  exact ⟨_,_,run,rfl,chat_exact run rfl⟩

-- Two messages of one letter in one read: the second one is lost.
theorem chat_merges : ¬ ∀ stdin log (s : Chat), Runs (Step 4096) (start stdin) log s → s.pipe = [] → s.received = log.filterMap Event.sends := by
  intro delivered
  have first : Step 4096 (start [97,10,98,10]) [.wrote ⟨[97],by decide⟩] ⟨[98,10],[97,0],[]⟩ :=
    .writes (start [97,10,98,10]) [97,10] [98,10] ⟨[97],by decide⟩ (by decide) rfl (by decide)
  have second : Step 4096 ⟨[98,10],[97,0],[]⟩ [.wrote ⟨[98],by decide⟩] ⟨[],[97,0,98,0],[]⟩ :=
    .writes ⟨[98,10],[97,0],[]⟩ [98,10] [] ⟨[98],by decide⟩ (by decide) rfl (by decide)
  have both : Step 4096 ⟨[],[97,0,98,0],[]⟩ [.read [97,0,98,0]] ⟨[],[],[shown [97,0,98,0]]⟩ :=
    .reads ⟨[],[97,0,98,0],[]⟩ [97,0,98,0] [] rfl (by decide) (by decide)
  have received := delivered _ _ _ (((Runs.one first).step second).step both) rfl
  have lengths := congrArg List.length received
  revert lengths
  decide

end LinuxCoding.FifoChat
