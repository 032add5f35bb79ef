import LinuxCoding.MyPipe.Model

namespace LinuxCoding.MyPipe
open CInt Monitor Fifo Transition

-- What the copy loops do: head and tail are reduced modulo the size but never
-- advanced, so every byte goes through the same two cells.
@[simp] theorem nextIndex_self (head : Fin pipeSize) : nextIndex head = head :=
  Fin.ext (Nat.mod_eq_of_lt head.isLt)

theorem readLoop_spec (count : Nat) (me : MypipeSt) (some : 0 ≤ me.datasize) :
    readLoop count me = (List.replicate (min count me.datasize.toNat) (me.data me.head),
      {me with datasize := me.datasize - min count me.datasize.toNat}) := by
  induction count generalizing me with
  | zero => simp [readLoop]
  | succ count ih =>
    by_cases empty : me.datasize ≤ 0
    · have zero : me.datasize = 0 := by omega
      simp [readLoop,mypipeReadbyteUnlocked,zero]
      rw [←zero]
    · have left : (me.datasize - 1).toNat + 1 = me.datasize.toNat := by omega
      have rest := ih {me with head := nextIndex me.head,datasize := me.datasize - 1} (by simp; omega)
      simp only [nextIndex_self] at rest
      simp only [readLoop,mypipeReadbyteUnlocked,empty,if_false,nextIndex_self,rest,←left]
      rw [Nat.succ_min_succ]
      simp [List.replicate_succ]
      omega

-- Of the bytes a write accepts only the last one is left in the cell.
def overwrite (cells : Fin pipeSize → UInt8) (tail : Fin pipeSize) (bytes : List UInt8) : Fin pipeSize → UInt8 :=
  bytes.foldl (fun cells byte => Function.update cells tail byte) cells

theorem writeLoop_spec (buf : List UInt8) (me : MypipeSt) (fits : me.datasize ≤ pipeSize) :
    writeLoop buf me = (min buf.length ((pipeSize : Int) - me.datasize).toNat,
      {me with
        data := overwrite me.data me.tail (buf.take ((pipeSize : Int) - me.datasize).toNat)
        datasize := me.datasize + min buf.length ((pipeSize : Int) - me.datasize).toNat}) := by
  induction buf generalizing me with
  | nil => simp [writeLoop,overwrite]
  | cons byte rest ih =>
    by_cases full : (pipeSize : Int) ≤ me.datasize
    · have none : ((pipeSize : Int) - me.datasize).toNat = 0 := by omega
      simp [writeLoop,mypipeWritebyteUnlocked,full,none,overwrite]
    · have left : ((pipeSize : Int) - (me.datasize + 1)).toNat + 1 = ((pipeSize : Int) - me.datasize).toNat := by omega
      have later := ih {me with
        data := Function.update me.data me.tail byte
        tail := nextIndex me.tail
        datasize := me.datasize + 1} (by simp; omega)
      simp only [nextIndex_self] at later
      simp only [writeLoop,mypipeWritebyteUnlocked,full,if_false,nextIndex_self,later,←left]
      rw [List.length_cons,Nat.succ_min_succ,List.take_succ_cons]
      simp [overwrite]
      omega

theorem readLoop_counts (count : Nat) (me : MypipeSt) :
    (readLoop count me).2.countRd = me.countRd ∧ (readLoop count me).2.countWr = me.countWr := by
  induction count generalizing me with
  | zero => exact ⟨rfl,rfl⟩
  | succ count ih =>
    by_cases empty : me.datasize ≤ 0
    · simp [readLoop,mypipeReadbyteUnlocked,empty]
    · simpa only [readLoop,mypipeReadbyteUnlocked,empty,if_false] using
        ih {me with head := nextIndex me.head,datasize := me.datasize - 1}

theorem writeLoop_counts (buf : List UInt8) (me : MypipeSt) :
    (writeLoop buf me).2.countRd = me.countRd ∧ (writeLoop buf me).2.countWr = me.countWr := by
  induction buf generalizing me with
  | nil => exact ⟨rfl,rfl⟩
  | cons byte rest ih =>
    by_cases full : (pipeSize : Int) ≤ me.datasize
    · simp [writeLoop,mypipeWritebyteUnlocked,full]
    · simpa only [writeLoop,mypipeWritebyteUnlocked,full,if_false] using
        ih {me with data := Function.update me.data me.tail byte,tail := nextIndex me.tail,datasize := me.datasize + 1}

end LinuxCoding.MyPipe
