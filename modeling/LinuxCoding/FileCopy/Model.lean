import Mathlib.Logic.Function.Basic
import LinuxCoding.Library.Bytes
import LinuxCoding.Library.CInt
import LinuxCoding.Library.Transition

-- IO/FileIO/filecopy/server.c: what main does with one connection on x86-64. Calls for
-- the digest, which nothing reads, are left out, and writes are complete.
namespace LinuxCoding.FileCopy
open Bytes CInt

def maxBufsize : Nat := 4096

-- The fields of FileHeader that the server reads: an int, four bytes of padding, a long
-- and 32 bytes of a digest.
structure FileHeader where
  nameLen : Int
  fileSize : Int

def sizeofFileHeader : Nat := 48

def FileHeader.ofBytes (bytes : List UInt8) : FileHeader where
  nameLen := toInt (Order.little.read (bytes.take 4))
  fileSize := toLong (Order.little.read ((bytes.drop 8).take 8))

-- A header as a client sends it.
def headerBytes (nameLen fileSize : Nat) (padding md : List UInt8) : List UInt8 :=
  Order.little.layout 4 nameLen ++ (padding ++ (Order.little.layout 8 fileSize ++ md))

-- What the variable header and the memory from malloc hold before recv stores to them,
-- and the paths that open does not refuse.
structure Memory where
  header : Nat → UInt8
  heap : Nat → UInt8
  opens : CString → Bool

-- A block of memory after recv has stored some bytes at its start.
def overlay (size : Nat) (old : Nat → UInt8) (bytes : List UInt8) : List UInt8 := bytes ++ ((List.range size).drop bytes.length).map old

theorem append_nonzero (s t : CString) : 0 ∉ s.val ++ t.val := by
  intro member
  exact (List.mem_append.mp member).elim s.property t.property

-- strcat(filename, "_copy")
def copyName (name : CString) : CString := ⟨name.val ++ [95,99,111,112,121],append_nonzero name ⟨[95,99,111,112,121],by decide⟩⟩

-- recv returns some of the bytes that are still to come, and nothing only if it was asked
-- for nothing or the peer has closed the connection.
def Received (limit : Nat) (stream bytes rest : List UInt8) : Prop :=
  stream = bytes ++ rest ∧ bytes.length ≤ limit ∧ (bytes = [] → limit = 0 ∨ stream = [])

def writeAt (file : List UInt8) (offset : Nat) (bytes : List UInt8) : List UInt8 :=
  file.take offset ++ (bytes ++ file.drop (offset + bytes.length))

inductive Place where
  | accepted
  | naming (header : FileHeader)
  | receiving (filename : CString) (fileSize : Int) (recvTotal : Nat)
  | finished (filename : CString)
  | refused (filename : CString)
  | crashed

structure Connection where
  place : Place
  stream : List UInt8
  files : CString → Option (List UInt8)

def start (stream : List UInt8) (files : CString → Option (List UInt8)) : Connection := ⟨.accepted,stream,files⟩

def filenameOf (memory : Memory) (nameLen : Int) (bytes : List UInt8) : CString := copyName (cstr (overlay nameLen.toNat memory.heap bytes ++ [0]))

-- malloc fails for a negative size, and filename[name_len] lies in front of the block
-- for a negative length.
def FileHeader.outside (header : FileHeader) : Prop := header.nameLen < 0 ∨ toInt (header.nameLen + 8) < 0

-- to_read
def room (fileSize : Int) (recvTotal : Nat) : Nat := if fileSize - recvTotal > maxBufsize then maxBufsize else (fileSize - recvTotal).toNat

-- open creates the file or leaves its content as it is. A run emits the results of recv.
inductive Step (memory : Memory) : Connection → List Nat → Connection → Prop where
  | header (s : Connection) (bytes rest : List UInt8) : s.place = .accepted → Received sizeofFileHeader s.stream bytes rest →
      Step memory s [bytes.length]
        {s with stream := rest,place := .naming (.ofBytes (overlay sizeofFileHeader memory.header bytes))}
  | crashes (s : Connection) (header : FileHeader) : s.place = .naming header → header.outside → Step memory s [] {s with place := .crashed}
  | opens (s : Connection) (header : FileHeader) (bytes rest : List UInt8) : s.place = .naming header → ¬ header.outside →
      Received header.nameLen.toNat s.stream bytes rest → memory.opens (filenameOf memory header.nameLen bytes) = true →
      Step memory s [bytes.length] {s with
        stream := rest
        place := .receiving (filenameOf memory header.nameLen bytes) header.fileSize 0
        files := Function.update s.files (filenameOf memory header.nameLen bytes) (some ((s.files (filenameOf memory header.nameLen bytes)).getD []))}
  | refuses (s : Connection) (header : FileHeader) (bytes rest : List UInt8) : s.place = .naming header → ¬ header.outside →
      Received header.nameLen.toNat s.stream bytes rest → memory.opens (filenameOf memory header.nameLen bytes) = false →
      Step memory s [bytes.length] {s with stream := rest,place := .refused (filenameOf memory header.nameLen bytes)}
  | receives (s : Connection) (filename : CString) (fileSize : Int) (recvTotal : Nat) (file bytes rest : List UInt8) :
      s.place = .receiving filename fileSize recvTotal → recvTotal < fileSize → s.files filename = some file →
      Received (room fileSize recvTotal) s.stream bytes rest → bytes ≠ [] →
      Step memory s [bytes.length] {s with
        stream := rest
        place := .receiving filename fileSize (recvTotal + bytes.length)
        files := Function.update s.files filename (some (writeAt file recvTotal bytes))}
  | closes (s : Connection) (filename : CString) (fileSize : Int) (recvTotal : Nat) :
      s.place = .receiving filename fileSize recvTotal → s.stream = [] → recvTotal < fileSize →
      Step memory s [0] {s with place := .finished filename}
  | finishes (s : Connection) (filename : CString) (fileSize : Int) (recvTotal : Nat) :
      s.place = .receiving filename fileSize recvTotal → fileSize ≤ recvTotal → Step memory s [] {s with place := .finished filename}

end LinuxCoding.FileCopy
