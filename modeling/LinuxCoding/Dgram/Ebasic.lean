import LinuxCoding.Library.Bytes
import LinuxCoding.Library.CInt

-- IPC/socket/dgram/ebasic: a datagram of two scores and a name of any length.
namespace LinuxCoding.Dgram
open Bytes CInt

def nameMax : Nat := 512 - 8 - 8

-- struct msg_st is packed and has room for one byte of the name.
def sizeofMsgSt : Nat := 4 + 4 + 1

-- main of snder.c, whose scores are 100 and 99. The size is an int; malloc of a negative
-- one fails.
def snder (order : Order) (name : CString) (math chinese : UInt32) : Option (List UInt8) :=
  let namesize := toInt name.val.length
  let size := toInt (sizeofMsgSt + namesize)
  if namesize > nameMax ∨ size < 0 then none
  else
    let block := order.store (htonl order math) ++ (order.store (htonl order chinese) ++ (name.val ++ [0]))
    some (block.take size.toNat)

-- The buffer of rcver.c.
def rcvSize : Nat := sizeofMsgSt + nameMax - 1

-- recvfrom cuts a datagram off at the size of the buffer, and leaves the rest of the
-- buffer as it was.
def recvfrom (size : Nat) (datagram buffer : List UInt8) : List UInt8 := datagram.take size ++ buffer.drop (datagram.take size).length

structure Scores where
  name : CString
  math : UInt32
  chinese : UInt32
  deriving DecidableEq

-- What main of rcver.c prints of the memory from its buffer on.
def rcver (order : Order) (memory : List UInt8) : Scores where
  name := cstr (memory.drop 8)
  math := ntohl order (order.load (memory.take 4))
  chinese := ntohl order (order.load ((memory.drop 4).take 4))

theorem take_layout (a b c : List UInt8) (four : a.length = 4) (eight : b.length = 4) :
    (a ++ (b ++ c)).take 4 = a ∧ ((a ++ (b ++ c)).drop 4).take 4 = b ∧ (a ++ (b ++ c)).drop 8 = c := by
  refine ⟨?_,?_,?_⟩
  · rw [← four,List.take_left]
  · rw [← four,List.drop_left,four,← eight,List.take_left]
  · have both : (a ++ b).length = 8 := by rw [List.length_append,four,eight]
    rw [← List.append_assoc,← both,List.drop_left]

theorem rcver_layout (here there : Order) (name : CString) (math chinese : UInt32) (rest : List UInt8) :
    rcver there (here.store (htonl here math) ++ (here.store (htonl here chinese) ++ (name.val ++ 0 :: rest))) = ⟨name,math,chinese⟩ := by
  obtain ⟨first,second,third⟩ := take_layout _ _ (name.val ++ 0 :: rest) (store_length here (htonl here math)) (store_length here (htonl here chinese))
  rw [rcver,first,second,third,network_order,network_order,cstr_terminated]

-- What the sender accepts and sends.
theorem snder_accepts (order : Order) {name : CString} (math chinese : UInt32) (short : name.val.length ≤ nameMax) :
    snder order name math chinese = some (order.store (htonl order math) ++ (order.store (htonl order chinese) ++ (name.val ++ [0]))) := by
  have namesize : toInt name.val.length = name.val.length := by
    apply toInt_of_nonneg
    · omega
    · simp only [intMax,nameMax] at short ⊢
      omega
  have size : toInt (sizeofMsgSt + name.val.length) = sizeofMsgSt + name.val.length := by
    apply toInt_of_nonneg
    · omega
    · simp only [intMax,nameMax,sizeofMsgSt] at short ⊢
      omega
  have accepted : ¬ ((name.val.length : Int) > nameMax ∨ (sizeofMsgSt : Int) + name.val.length < 0) := by omega
  rw [snder,namesize,size,if_neg accepted]
  apply congrArg some
  apply List.take_of_length_le
  simp only [List.length_append,store_length,List.length_singleton,sizeofMsgSt]
  omega

-- The receiver shows what was sent, and the NUL of the name is among the bytes received.
def Arrives (there : Order) (datagram buffer beyond : List UInt8) (name : CString) (math chinese : UInt32) : Prop :=
  rcver there (recvfrom rcvSize datagram buffer ++ beyond) = ⟨name,math,chinese⟩ ∧
    (datagram.take rcvSize)[8 + name.val.length]? = some 0

theorem datagram_exact (here there : Order) (name : CString) (math chinese : UInt32) (buffer beyond : List UInt8)
    (accepted : name.val.length ≤ nameMax) :
    ∃ datagram, snder here name math chinese = some datagram ∧
      (Arrives there datagram buffer beyond name math chinese ↔ name.val.length < nameMax) := by
  refine ⟨_,snder_accepts here math chinese accepted,?_⟩
  constructor
  · intro arrives
    obtain ⟨inside,_⟩ := List.getElem?_eq_some_iff.mp arrives.2
    rw [List.length_take] at inside
    simp only [rcvSize,sizeofMsgSt] at inside
    omega
  · intro short
    have whole : (here.store (htonl here math) ++ (here.store (htonl here chinese) ++ (name.val ++ [0]))).length ≤ rcvSize := by
      simp only [List.length_append,store_length,List.length_singleton,rcvSize,sizeofMsgSt]
      omega
    unfold Arrives recvfrom
    rw [List.take_of_length_le whole]
    constructor
    · have terminated := rcver_layout here there name math chinese
      simpa only [List.append_assoc,List.cons_append,List.nil_append] using terminated _
    · rw [← List.append_assoc,← List.append_assoc,List.getElem?_append_right]
      · simp only [List.length_append,store_length]
        simp
      · simp only [List.length_append,store_length]
        omega

theorem datagram_short : ∃ datagram, snder .little ⟨[65],by decide⟩ 100 99 = some datagram ∧
    (Arrives .big datagram [] [] ⟨[65],by decide⟩ 100 99 ↔ 1 < nameMax) :=
  datagram_exact .little .big ⟨[65],by decide⟩ 100 99 [] [] (by decide)

-- A name of NAMEMAX bytes passes the sender's test, and its NUL is cut off.
def longName : CString := ⟨List.replicate nameMax 65,by simp⟩

theorem datagram_cut : longName.val.length ≤ nameMax ∧ ∃ datagram, snder .little longName 100 99 = some datagram ∧
    ¬ Arrives .little datagram (List.replicate rcvSize 0) [] longName 100 99 := by
  have length : longName.val.length = nameMax := List.length_replicate
  refine ⟨Nat.le_of_eq length,_,snder_accepts .little 100 99 (Nat.le_of_eq length),?_⟩
  intro arrives
  obtain ⟨inside,_⟩ := List.getElem?_eq_some_iff.mp arrives.2
  rw [List.length_take,length] at inside
  simp only [rcvSize,sizeofMsgSt,nameMax] at inside
  omega

end LinuxCoding.Dgram
