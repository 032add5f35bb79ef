import LinuxCoding.Library.CInt
import LinuxCoding.Library.Fifo
import LinuxCoding.Library.Monitor

-- mypipe/mypipe.c: a bounded byte pipe between the threads of one process.
namespace LinuxCoding.MyPipe
open CInt Monitor

def pipeSize : Nat := 1024
def mypipeReadFlag : BitVec 64 := 1
def mypipeWriteFlag : BitVec 64 := 2

-- The mutex and the condition variable are the monitor's; head and tail index data.
structure MypipeSt where
  head : Fin pipeSize
  tail : Fin pipeSize
  data : Fin pipeSize → UInt8
  datasize : Int
  countRd : Int
  countWr : Int

-- malloc either fails or yields cells of any content.
def mypipeInit (me : Option (Fin pipeSize → UInt8)) : Option MypipeSt :=
  me.map (fun cells => ⟨⟨0,by decide⟩,⟨0,by decide⟩,cells,0,0,0⟩)

-- The pipe that mypipe_init makes of zeroed memory.
def zeroed : MypipeSt := ⟨⟨0,by decide⟩,⟨0,by decide⟩,fun _ => 0,0,0,0⟩

def next (head : Nat) : Nat := head % pipeSize

def nextIndex (head : Fin pipeSize) : Fin pipeSize := ⟨next head,Nat.mod_lt _ (by decide)⟩

-- The value of a C comparison.
def ne (a b : BitVec 32) : BitVec 32 := if a = b then 0 else 1

-- opmap is an int and the flags are unsigned long, so opmap is sign extended.
def registerRefuses (opmap : BitVec 32) : Bool :=
  (opmap.signExtend 64 &&& ~~~(mypipeReadFlag ||| mypipeWriteFlag)) != 0 ||
    (opmap.signExtend 64 &&& (mypipeReadFlag ||| mypipeWriteFlag)) == 0

-- != binds more tightly than |, so each operand is opmap | (0 != constant).
def unregisterRefuses (opmap : BitVec 32) : Bool :=
  (opmap ||| ne 0x00000000 0x00000001) != 0 && (opmap ||| ne 0x00000000 0x000000010) != 0

def hasRead (opmap : BitVec 32) : Bool := (opmap.signExtend 64 &&& mypipeReadFlag) != 0
def hasWrite (opmap : BitVec 32) : Bool := (opmap.signExtend 64 &&& mypipeWriteFlag) != 0

-- What a call gives back: its value, and what a read stored in the caller's buffer.
structure Ret where
  value : Int
  bytes : List UInt8 := []
  deriving DecidableEq, Repr

def mypipeRegisterEnter (opmap : BitVec 32) (me : MypipeSt) : MypipeSt :=
  {me with
    countRd := if hasRead opmap then toInt (me.countRd + 1) else me.countRd
    countWr := if hasWrite opmap then toInt (me.countWr + 1) else me.countWr}

def mypipeRegisterWaits (me : MypipeSt) : Bool := me.countRd ≤ 0 || me.countWr ≤ 0

def mypipeUnregisterLeave (opmap : BitVec 32) (me : MypipeSt) : MypipeSt :=
  {me with
    countRd := if hasRead opmap then toInt (me.countRd - 1) else me.countRd
    countWr := if hasWrite opmap then toInt (me.countWr - 1) else me.countWr}

def mypipeReadbyteUnlocked (me : MypipeSt) : Option (UInt8 × MypipeSt) :=
  if me.datasize ≤ 0 then none
  else some (me.data me.head,{me with head := nextIndex me.head,datasize := me.datasize - 1})

def mypipeReadWaits (me : MypipeSt) : Bool := me.datasize ≤ 0 && 0 < me.countWr

-- The loop of mypipe_read with `count` iterations to go.
def readLoop : Nat → MypipeSt → List UInt8 × MypipeSt
  | 0,me => ([],me)
  | count + 1,me =>
    match mypipeReadbyteUnlocked me with
    | none => ([],me)
    | some (byte,after) => (byte :: (readLoop count after).1,(readLoop count after).2)

def mypipeReadLeave (count : Nat) (me : MypipeSt) : Exit MypipeSt Ret :=
  if me.datasize ≤ 0 && me.countWr ≤ 0 then ⟨me,⟨0,[]⟩,false⟩
  else ⟨(readLoop count me).2,⟨(readLoop count me).1.length,(readLoop count me).1⟩,true⟩

def mypipeWritebyteUnlocked (me : MypipeSt) (byte : UInt8) : Option MypipeSt :=
  if (pipeSize : Int) ≤ me.datasize then none
  else some {me with
    data := Function.update me.data me.tail byte
    tail := nextIndex me.tail
    datasize := me.datasize + 1}

def mypipeWriteWaits (me : MypipeSt) : Bool := (pipeSize : Int) ≤ me.datasize && 0 < me.countRd

-- The loop of mypipe_write over the bytes still to copy: how many it copied.
def writeLoop : List UInt8 → MypipeSt → Nat × MypipeSt
  | [],me => (0,me)
  | byte :: rest,me =>
    match mypipeWritebyteUnlocked me byte with
    | none => (0,me)
    | some after => ((writeLoop rest after).1 + 1,(writeLoop rest after).2)

def mypipeWriteLeave (buf : List UInt8) (me : MypipeSt) : Exit MypipeSt Ret :=
  if (pipeSize : Int) ≤ me.datasize && me.countRd ≤ 0 then ⟨me,⟨0,[]⟩,false⟩
  else ⟨(writeLoop buf me).2,⟨(writeLoop buf me).1,[]⟩,true⟩

-- A call with its arguments; the length of `buf` is the count of the write.
inductive Op where
  | register (opmap : BitVec 32)
  | unregister (opmap : BitVec 32)
  | read (count : Nat)
  | write (buf : List UInt8)
  deriving DecidableEq, Repr

def mypipe : Sections MypipeSt Op Ret where
  refuse
    | .register opmap => if registerRefuses opmap then some ⟨-1,[]⟩ else none
    | .unregister opmap => if unregisterRefuses opmap then some ⟨-1,[]⟩ else none
    | .read _ => none
    | .write _ => none
  enter
    | .register opmap,me => mypipeRegisterEnter opmap me
    | _,me => me
  waits
    | .register _,me => mypipeRegisterWaits me
    | .unregister _,_ => false
    | .read _,me => mypipeReadWaits me
    | .write _,me => mypipeWriteWaits me
  leave
    | .register _,me => ⟨me,⟨0,[]⟩,true⟩
    | .unregister opmap,me => ⟨mypipeUnregisterLeave opmap me,⟨0,[]⟩,true⟩
    | .read count,me => mypipeReadLeave count me
    | .write buf,me => mypipeWriteLeave buf me

end LinuxCoding.MyPipe
