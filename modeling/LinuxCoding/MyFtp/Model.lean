import Mathlib.Logic.Function.Basic
import LinuxCoding.Library.Bytes
import LinuxCoding.Library.CInt
import LinuxCoding.Library.MsgQueue
import LinuxCoding.Library.Transition

-- IPC/xsi/msg/myftp_msg: server.c and any number of clients on one message queue. Every
-- call succeeds but open, which may fail.
namespace LinuxCoding.MyFtp
open Bytes CInt MsgQueue

def pathMax : Nat := 1024
def dataMax : Nat := 1024
def msgPath : Nat := 1
def msgData : Nat := 2
def msgEot : Nat := 3

-- msg_path_t, msg_data_t and msg_eot_t.
inductive Message where
  | path (path : List UInt8)
  | data (datalen : Int) (data : List UInt8)
  | eot
  deriving DecidableEq

def Message.mtype : Message → Nat
  | .path _ => msgPath
  | .data .. => msgData
  | .eot => msgEot

-- The size of the structure less its long; that of msg_data_t has four bytes of padding.
def Message.size : Message → Nat
  | .path _ => pathMax
  | .data .. => dataMax + 8
  | .eot => 0

def sendPathRequest (path : CString) : Message := .path (strncpy (pathMax - 1) path ++ [0])

-- `unset` is what the stack held behind the bytes that are copied.
def sendDataPacket (data unset : List UInt8) : Message := .data data.length (data ++ unset)

inductive ClientPlace where
  | requesting
  | opening
  | receiving
  | returned (ret : Int)
  deriving DecidableEq

-- `saved` is what the client has written to its save_path.
structure Client where
  path : CString
  place : ClientPlace
  saved : List UInt8
  totalBytes : Int

-- What fwrite gets of a packet.
def written (datalen : Int) (data : List UInt8) : List UInt8 := data.take datalen.toNat

-- receive_and_save_file after a packet; it ends with the test of the size on disk.
def Client.receive (client : Client) (datalen : Int) (data : List UInt8) : Client :=
  if datalen = 0 then {client with place := .returned (if client.saved = [] then -1 else if client.totalBytes > 0 then 0 else -1)}
  else if datalen > 0 then {client with saved := client.saved ++ written datalen data,totalBytes := toInt (client.totalBytes + datalen)}
  else client

-- The loop of main is at `receiving`; the rest is handle_file_request, with what read has
-- not returned of the file yet.
inductive ServerPlace where
  | receiving
  | reading (rest : List UInt8)
  | sending (buffer rest : List UInt8)
  | ending
  deriving DecidableEq

def handleFileRequest (files : CString → Option (List UInt8)) (path : List UInt8) : ServerPlace :=
  match files (cstr path) with
  | some content => .reading content
  | none => .ending

structure System (τ : Type) where
  queue : List Message
  server : ServerPlace
  clients : τ → Client

inductive Event (τ : Type) where
  | requested (client : τ)
  | received (client : τ) (bytes : List UInt8)
  | handled (path : CString)
  | sent (bytes : List UInt8)

def start (paths : τ → CString) : System τ := ⟨[],.receiving,fun c => ⟨paths c,.requesting,[],0⟩⟩

section
variable {τ : Type} [DecidableEq τ]

def System.setClient (s : System τ) (c : τ) (client : Client) : System τ := {s with clients := Function.update s.clients c client}

-- A read of at most DATAMAX bytes returns some of them, and 0 only at the end of the file.
inductive Step (qbytes : Nat) (files : CString → Option (List UInt8)) : System τ → List (Event τ) → System τ → Prop where
  | requests (s : System τ) (c : τ) (queue : List Message) : (s.clients c).place = .requesting →
      msgsnd Message.size qbytes s.queue (sendPathRequest (s.clients c).path) = some queue →
      Step qbytes files s [.requested c] ({s with queue := queue}.setClient c {s.clients c with place := .opening})
  | opens (s : System τ) (c : τ) : (s.clients c).place = .opening →
      Step qbytes files s [] (s.setClient c {s.clients c with place := .receiving,saved := []})
  | receives (s : System τ) (c : τ) (datalen : Int) (data : List UInt8) (queue : List Message) : (s.clients c).place = .receiving →
      msgrcv Message.mtype msgData s.queue = some (.data datalen data,queue) →
      Step qbytes files s [.received c (written datalen data)] ({s with queue := queue}.setClient c ((s.clients c).receive datalen data))
  | handles (s : System τ) (path : List UInt8) (queue : List Message) : s.server = .receiving →
      msgrcv Message.mtype msgPath s.queue = some (.path path,queue) →
      Step qbytes files s [.handled (cstr path)] {s with queue := queue,server := handleFileRequest files path}
  | reads (s : System τ) (buffer rest : List UInt8) : s.server = .reading (buffer ++ rest) → buffer ≠ [] → buffer.length ≤ dataMax →
      Step qbytes files s [] {s with server := .sending buffer rest}
  | endOfFile (s : System τ) : s.server = .reading [] → Step qbytes files s [] {s with server := .ending}
  | sends (s : System τ) (buffer rest unset : List UInt8) (queue : List Message) : s.server = .sending buffer rest →
      buffer.length + unset.length = dataMax →
      msgsnd Message.size qbytes s.queue (sendDataPacket buffer unset) = some queue →
      Step qbytes files s [.sent buffer] {s with queue := queue,server := .reading rest}
  | sendsEot (s : System τ) (queue : List Message) : s.server = .ending → msgsnd Message.size qbytes s.queue .eot = some queue →
      Step qbytes files s [] {s with queue := queue,server := .receiving}

end

end LinuxCoding.MyFtp
