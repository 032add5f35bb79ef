import LinuxCoding.Library.Bytes
import LinuxCoding.Library.Stdio
import LinuxCoding.Library.Transition

-- IPC/socket/Newer/c_s: c.c and the child of s.c that serves it, over a stream that
-- delivers the bytes in pieces of any size.
namespace LinuxCoding.ClientServer
open Bytes Stdio Transition

def bufSize : Nat := 1024

-- Where the loop of c.c is: at the line of stdin, or in the fgets for the reply to a
-- line that began with "bye" or did not.
inductive ClientPlace where
  | typing
  | waiting (bye : Bool)
  | exited
  deriving DecidableEq

inductive ServerPlace where
  | waiting
  | exited
  deriving DecidableEq

-- The bytes in flight, and those that the streams of the two sides have buffered.
structure Session where
  stdin : List UInt8
  client : ClientPlace
  server : ServerPlace
  toServer : List UInt8
  toClient : List UInt8
  atServer : List UInt8
  atClient : List UInt8

def start (stdin : List UInt8) : Session := ⟨stdin,.typing,.waiting,[],[],[],[]⟩

-- buf as a string: it is all zeros before fgets, which stores nothing at the end of the
-- stream.
def bufText (buffer : List UInt8) : CString := cstr (buffer ++ List.replicate (bufSize - buffer.length) 0)

-- strncmp(buf, "bye", 3) == 0
def isBye (text : CString) : Bool := text.val.take 3 = [98,121,101]

-- "bye\n" and "server send data: ok\n"
def reply (bye : Bool) : List UInt8 :=
  if bye then [98,121,101,10]
  else [115,101,114,118,101,114,32,115,101,110,100,32,100,97,116,97,58,32,111,107,10]

-- One pass of the client up to its second fgets.
def Session.send (s : Session) : Session :=
  let (buffer,rest) := (fgets bufSize s.stdin).getD ([],s.stdin)
  {s with stdin := rest,client := .waiting (isBye (bufText buffer)),toServer := s.toServer ++ (bufText buffer).val}

-- What the server makes of what its fgets has returned.
def Session.serve (s : Session) (buffer rest : List UInt8) : Session :=
  {s with
    server := if isBye (bufText buffer) then .exited else .waiting
    toClient := s.toClient ++ reply (isBye (bufText buffer))
    atServer := rest}

-- The client has its reply.
def Session.replied (s : Session) (bye : Bool) (rest : List UInt8) : Session :=
  {s with client := if bye then .exited else .typing,atClient := rest}

-- A side that waits sees the end of its stream when the other one has exited and nothing
-- is in flight.
inductive Step : Session → List Unit → Session → Prop where
  | sends (s : Session) : s.client = .typing → Step s [] s.send
  | toServer (s : Session) (bytes rest : List UInt8) : s.toServer = bytes ++ rest → bytes ≠ [] →
      Step s [] {s with toServer := rest,atServer := s.atServer ++ bytes}
  | toClient (s : Session) (bytes rest : List UInt8) : s.toClient = bytes ++ rest → bytes ≠ [] →
      Step s [] {s with toClient := rest,atClient := s.atClient ++ bytes}
  | serves (s : Session) (buffer rest : List UInt8) : s.server = .waiting → line (bufSize - 1) s.atServer = some (buffer,rest) →
      Step s [] (s.serve buffer rest)
  | hangsUp (s : Session) : s.server = .waiting → s.client = .exited → s.toServer = [] → s.atServer = [] →
      Step s [] {s with server := .exited}
  | servesLast (s : Session) : s.server = .waiting → s.client = .exited → s.toServer = [] → s.atServer ≠ [] →
      line (bufSize - 1) s.atServer = none → Step s [] (s.serve s.atServer [])
  | reads (s : Session) (bye : Bool) (buffer rest : List UInt8) : s.client = .waiting bye →
      line (bufSize - 1) s.atClient = some (buffer,rest) → Step s [] (s.replied bye rest)
  | disconnects (s : Session) (bye : Bool) : s.client = .waiting bye → s.server = .exited → s.toClient = [] → s.atClient = [] →
      Step s [] {s with client := .exited}
  | readsLast (s : Session) (bye : Bool) : s.client = .waiting bye → s.server = .exited → s.toClient = [] → s.atClient ≠ [] →
      line (bufSize - 1) s.atClient = none → Step s [] (s.replied bye [])

-- Both wait in fgets, and nothing is in flight.
structure Deadlocked (s : Session) : Prop where
  client : ∃ bye, s.client = .waiting bye
  server : s.server = .waiting
  toServer : s.toServer = []
  toClient : s.toClient = []
  atServer : line (bufSize - 1) s.atServer = none
  atClient : line (bufSize - 1) s.atClient = none

-- The server can tell where the line ends.
def Whole (buffer : List UInt8) : Prop := 0 ∉ buffer ∧ (buffer.getLast? = some newline ∨ buffer.length = bufSize - 1)

-- Some line of stdin begins with "bye", and it and the lines before it are whole.
inductive Dismissed : List UInt8 → Prop where
  | bye (stdin buffer rest : List UInt8) : fgets bufSize stdin = some (buffer,rest) → Whole buffer → isBye (bufText buffer) = true → Dismissed stdin
  | more (stdin buffer rest : List UInt8) : fgets bufSize stdin = some (buffer,rest) → Whole buffer → Dismissed rest → Dismissed stdin

theorem bufText_cstr (buffer : List UInt8) : bufText buffer = cstr buffer := cstr_zeros buffer _

theorem whole_text (whole : Whole buffer) : (bufText buffer).val = buffer := by
  rw [bufText_cstr]
  exact congrArg Subtype.val (cstr_val ⟨buffer,whole.1⟩)

theorem reply_line (bye : Bool) : line (bufSize - 1) (reply bye) = some (reply bye,[]) := by
  cases bye <;> decide

theorem none_in_flight {bytes rest : List UInt8} (flying : bytes ≠ []) : [] ≠ bytes ++ rest := by
  intro nothing
  exact flying (List.append_eq_nil_iff.mp nothing.symm).1

-- A request and its reply are never under way at the same time.
inductive InStep : Session → Prop where
  | typing (stdin : List UInt8) : Dismissed stdin → InStep ⟨stdin,.typing,.waiting,[],[],[],[]⟩
  | asking (stdin text early late : List UInt8) : line (bufSize - 1) text = some (text,[]) → text = early ++ late →
      (isBye (bufText text) = false → Dismissed stdin) → InStep ⟨stdin,.waiting (isBye (bufText text)),.waiting,late,[],early,[]⟩
  | answering (stdin : List UInt8) (bye : Bool) (early late : List UInt8) : reply bye = early ++ late → (bye = false → Dismissed stdin) →
      InStep ⟨stdin,.waiting bye,if bye then .exited else .waiting,[],late,[],early⟩
  | exited (s : Session) : s.client = .exited → InStep s

theorem dismissed_sends (dismissed : Dismissed stdin) : InStep (Session.send ⟨stdin,.typing,.waiting,[],[],[],[]⟩) := by
  have asks : ∃ buffer rest, fgets bufSize stdin = some (buffer,rest) ∧ Whole buffer ∧ (isBye (bufText buffer) = false → Dismissed rest) := by
    cases dismissed with
    | bye _ buffer rest found whole bye => exact ⟨buffer,rest,found,whole,fun other => by rw [bye] at other; cases other⟩
    | more _ buffer rest found whole more => exact ⟨buffer,rest,found,whole,fun _ => more⟩
  obtain ⟨buffer,rest,found,whole,more⟩ := asks
  have complete : line (bufSize - 1) buffer = some (buffer,[]) := (fgets_whole found).mpr whole.2
  unfold Session.send
  simp only [found,Option.getD_some,List.nil_append,whole_text whole]
  exact .asking rest buffer [] buffer complete rfl more

theorem step_inStep (inStep : InStep s) (step : Step s emitted t) : InStep t := by
  cases inStep with
  | typing stdin dismissed =>
    cases step with
    | sends here => exact dismissed_sends dismissed
    | toServer bytes rest split flying | toClient bytes rest split flying => exact absurd split (none_in_flight flying)
    | serves buffer rest here found => cases found
    | hangsUp here other | servesLast here other | reads bye buffer rest other | disconnects bye other | readsLast bye other => cases other
  | asking stdin text early late complete split more =>
    cases step with
    | toServer bytes rest parts flying =>
      obtain rfl : late = bytes ++ rest := parts
      exact .asking stdin text (early ++ bytes) rest complete (by rw [split,List.append_assoc]) more
    | toClient bytes rest other flying => exact absurd other (none_in_flight flying)
    | serves buffer rest here found =>
      obtain ⟨rfl,rfl,rfl,rfl⟩ := line_arrived complete split found
      exact .answering stdin (isBye (bufText buffer)) [] _ rfl more
    | reads bye buffer rest here found => cases found
    | sends other | hangsUp here other | servesLast here other | disconnects bye here other | readsLast bye here other => cases other
  | answering stdin bye early late split more =>
    cases step with
    | toServer bytes rest other flying => exact absurd other (none_in_flight flying)
    | toClient bytes rest parts flying =>
      obtain rfl : late = bytes ++ rest := parts
      exact .answering stdin bye (early ++ bytes) rest (by rw [split,List.append_assoc]) more
    | serves buffer rest here found => cases found
    | reads other buffer rest here found =>
      cases here
      obtain ⟨rfl,_,_,rfl⟩ := line_arrived (reply_line bye) split found
      cases bye with
      | true => exact .exited _ rfl
      | false => exact .typing stdin (more rfl)
    | disconnects other here gone flying empty =>
      obtain rfl : late = [] := flying
      obtain rfl : early = [] := empty
      cases bye <;> cases split
    | readsLast other here gone flying more waits =>
      obtain rfl : late = [] := flying
      obtain rfl : reply bye = early := by rw [split,List.append_nil]
      have found := reply_line bye
      rw [show line (bufSize - 1) (reply bye) = none from waits] at found
      cases found
    | sends other | hangsUp here other | servesLast here other => cases other
  | exited s gone =>
    cases step with
    | sends other | reads bye buffer rest other | disconnects bye other | readsLast bye other =>
      rw [gone] at other
      cases other
    | toServer | toClient | serves | hangsUp | servesLast => exact .exited _ gone

theorem inStep_moves (inStep : InStep s) : ¬ Deadlocked s := by
  intro dead
  obtain ⟨⟨bye,waits⟩,server,toServer,toClient,atServer,atClient⟩ := dead
  cases inStep with
  | typing => cases waits
  | asking stdin text early late complete split =>
    obtain rfl : late = [] := toServer
    obtain rfl : text = early := by rw [split,List.append_nil]
    rw [show line (bufSize - 1) text = none from atServer] at complete
    cases complete
  | answering stdin bye early late split =>
    obtain rfl : late = [] := toClient
    obtain rfl : reply bye = early := by rw [split,List.append_nil]
    have found := reply_line bye
    rw [show line (bufSize - 1) (reply bye) = none from atClient] at found
    cases found
  | exited _ gone =>
    rw [gone] at waits
    cases waits

-- The lines that come before a line that is not whole, or before the end of stdin, are
-- answered, and then both sides wait.
theorem request_answered {stdin buffer rest : List UInt8} (found : fgets bufSize stdin = some (buffer,rest)) (whole : Whole buffer)
    (other : isBye (bufText buffer) = false) : ∃ log, Runs Step (start stdin) log (start rest) := by
  have complete : line (bufSize - 1) buffer = some (buffer,[]) := (fgets_whole found).mpr whole.2
  have nonempty : buffer ≠ [] := (fgets_join (by decide) found).2
  let sent : Session := ⟨rest,.waiting false,.waiting,buffer,[],[],[]⟩
  let arrived : Session := ⟨rest,.waiting false,.waiting,[],[],buffer,[]⟩
  let answered : Session := ⟨rest,.waiting false,.waiting,[],reply false,[],[]⟩
  let back : Session := ⟨rest,.waiting false,.waiting,[],[],[],reply false⟩
  have sends : Step (start stdin) [] sent := by
    have step := Step.sends (start stdin) rfl
    unfold Session.send start at step
    simp only [found,Option.getD_some,List.nil_append,whole_text whole,other] at step
    exact step
  have arrives : Step sent [] arrived := .toServer sent buffer [] (List.append_nil _).symm nonempty
  have serves : Step arrived [] answered := by
    have step := Step.serves arrived buffer [] rfl complete
    unfold Session.serve at step
    rw [other] at step
    exact step
  have returns : Step answered [] back := .toClient answered (reply false) [] (List.append_nil _).symm (by decide)
  have reads : Step back [] (start rest) := .reads back false (reply false) [] rfl (reply_line false)
  exact ⟨_,((((Runs.one sends).step arrives).step serves).step returns).step reads⟩

-- A text that does not end a line leaves both sides waiting.
theorem request_stalls {stdin text rest : List UInt8} {bye : Bool} (sent : Step (start stdin) [] ⟨rest,.waiting bye,.waiting,text,[],[],[]⟩)
    (stalls : line (bufSize - 1) text = none) : ∃ log s, Runs Step (start stdin) log s ∧ Deadlocked s := by
  by_cases nothing : text = []
  · subst nothing
    exact ⟨_,_,.one sent,⟨bye,rfl⟩,rfl,rfl,rfl,rfl,rfl⟩
  · have arrives : Step ⟨rest,.waiting bye,.waiting,text,[],[],[]⟩ [] ⟨rest,.waiting bye,.waiting,[],[],text,[]⟩ :=
      .toServer _ text [] (List.append_nil _).symm nothing
    exact ⟨_,_,(Runs.one sent).step arrives,⟨bye,rfl⟩,rfl,rfl,rfl,stalls,rfl⟩

theorem text_stalls {stdin buffer rest : List UInt8} (found : fgets bufSize stdin = some (buffer,rest)) (unfinished : ¬ Whole buffer) :
    line (bufSize - 1) (bufText buffer).val = none := by
  have split : buffer = (bufText buffer).val ++ buffer.dropWhile (· ≠ 0) := by
    rw [bufText_cstr]
    exact List.takeWhile_append_dropWhile.symm
  apply fgets_stalls found split
  by_cases ended : 0 ∈ buffer
  · left
    intro nothing
    rw [nothing,List.append_nil] at split
    rw [split] at ended
    exact (bufText buffer).property ended
  · right
    intro complete
    exact unfinished ⟨ended,line_ends complete⟩

theorem undismissed_stalls (stdin : List UInt8) (never : ¬ Dismissed stdin) : ∃ log s, Runs Step (start stdin) log s ∧ Deadlocked s := by
  induction size : stdin.length using Nat.strongRecOn generalizing stdin with
  | ind count ih =>
    have sends := Step.sends (start stdin) rfl
    unfold Session.send start at sends
    cases found : fgets bufSize stdin with
    | none =>
      simp only [found,Option.getD_none,List.nil_append] at sends
      exact request_stalls sends rfl
    | some read =>
      obtain ⟨buffer,rest⟩ := read
      simp only [found,Option.getD_some,List.nil_append] at sends
      by_cases whole : Whole buffer
      · cases bye : isBye (bufText buffer) with
        | true => exact absurd (.bye stdin buffer rest found whole bye) never
        | false =>
          obtain ⟨log,run⟩ := request_answered found whole bye
          obtain ⟨joined,nonempty⟩ := fgets_join (by decide) found
          have shorter : rest.length < count := by
            have positive := List.length_pos_iff.mpr nonempty
            rw [← size,← joined,List.length_append]
            omega
          obtain ⟨more,s,further,dead⟩ := ih rest.length shorter rest (fun later => never (.more stdin buffer rest found whole later)) rfl
          exact ⟨_,s,run.append further,dead⟩
      · exact request_stalls sends (text_stalls found whole)

-- The two loops never wait for each other exactly if some line dismisses the server
-- before one of them can get stuck.
theorem sessions_exact (stdin : List UInt8) : (∀ log s, Runs Step (start stdin) log s → ¬ Deadlocked s) ↔ Dismissed stdin := by
  constructor
  · intro live
    by_contra never
    obtain ⟨log,s,run,dead⟩ := undismissed_stalls stdin never
    exact live log s run dead
  · intro dismissed log s run
    exact inStep_moves (run.stateInvariant (I := InStep) (fun _ _ _ => step_inStep) (.typing stdin dismissed))

-- An empty stdin.
theorem session_hangs : ¬ ∀ stdin log s, Runs Step (start stdin) log s → ¬ Deadlocked s := by
  intro live
  obtain ⟨log,s,run,dead⟩ := request_stalls (Step.sends (start []) rfl) rfl
  exact live [] log s run dead

end LinuxCoding.ClientServer
