import LinuxCoding.MyPipe.Transfer

-- How many bytes the calls move.
namespace LinuxCoding.MyPipe
open CInt Monitor Transition

theorem readbyte_falls (read : mypipeReadbyteUnlocked me = some (byte,after)) : after.datasize.toNat < me.datasize.toNat := by
  unfold mypipeReadbyteUnlocked at read
  split at read
  · cases read
  · cases read
    simp only
    omega

theorem writebyte_falls (written : mypipeWritebyteUnlocked me byte = some after) :
    ((pipeSize : Int) - after.datasize).toNat < ((pipeSize : Int) - me.datasize).toNat := by
  unfold mypipeWritebyteUnlocked at written
  split at written
  · cases written
  · cases written
    simp only
    omega

-- An int in a comparison with a size_t.
def toSize (i : Int) : Nat := (i % 18446744073709551616).toNat

-- The loop of mypipe_read with its index i: what i is behind it, the bytes and the pipe.
def readFor (count : Nat) (i : Int) (me : MypipeSt) : Int × List UInt8 × MypipeSt :=
  if toSize i < count then
    match _read : mypipeReadbyteUnlocked me with
    | none => (i,[],me)
    | some (byte,after) =>
      ((readFor count (toInt (i + 1)) after).1,byte :: (readFor count (toInt (i + 1)) after).2.1,(readFor count (toInt (i + 1)) after).2.2)
  else (i,[],me)
termination_by me.datasize.toNat
decreasing_by all_goals exact readbyte_falls ‹_›

-- The loop of mypipe_write.
def writeFor (buf : List UInt8) (i : Int) (me : MypipeSt) : Int × MypipeSt :=
  if inside : toSize i < buf.length then
    match _written : mypipeWritebyteUnlocked me (buf.get ⟨toSize i,inside⟩) with
    | none => (i,me)
    | some after => writeFor buf (toInt (i + 1)) after
  else (i,me)
termination_by ((pipeSize : Int) - me.datasize).toNat
decreasing_by exact writebyte_falls ‹_›

theorem toSize_natCast {i : Nat} (small : (i : Int) ≤ intMax) : toSize i = i := by
  simp only [intMax] at small
  unfold toSize
  rw [Int.emod_eq_of_lt] <;> omega

theorem toInt_succ {i : Nat} (small : (i : Int) + 1 ≤ intMax) : toInt (i + 1) = (i + 1 : Nat) := toInt_of_nonneg (by omega) small

-- The index does not leave int, since each pass takes a byte from the pipe.
theorem readFor_loop (todo i : Nat) (me : MypipeSt) (small : i + max 0 me.datasize ≤ intMax) :
    readFor (i + todo) i me = (((i + (readLoop todo me).1.length : Nat) : Int),readLoop todo me) := by
  induction todo generalizing i me with
  | zero =>
    unfold readFor
    rw [toSize_natCast (by omega),Nat.add_zero,if_neg (Nat.lt_irrefl i)]
    rfl
  | succ todo ih =>
    have bound : i + (todo + 1) = i + 1 + todo := by omega
    unfold readFor readLoop
    rw [toSize_natCast (by omega),bound,if_pos (by omega)]
    cases read : mypipeReadbyteUnlocked me with
    | none => rfl
    | some found =>
      obtain ⟨byte,after⟩ := found
      have falls := readbyte_falls read
      have rest := ih (i + 1) after (by omega)
      rw [toInt_succ (by omega)]
      simp only [rest,List.length_cons]
      congr 2
      omega

theorem writeFor_loop (todo : List UInt8) (done : List UInt8) (me : MypipeSt)
    (small : done.length + max 0 ((pipeSize : Int) - me.datasize) ≤ intMax) :
    writeFor (done ++ todo) done.length me = (((done.length + (writeLoop todo me).1 : Nat) : Int),(writeLoop todo me).2) := by
  induction todo generalizing done me with
  | nil =>
    unfold writeFor
    rw [dif_neg]
    · rfl
    · rw [toSize_natCast (by omega),List.append_nil]
      exact Nat.lt_irrefl _
  | cons byte todo ih =>
    have index : toSize (done.length : Int) = done.length := toSize_natCast (by omega)
    have inside : toSize (done.length : Int) < (done ++ byte :: todo).length := by
      rw [index,List.length_append,List.length_cons]
      omega
    have this : (done ++ byte :: todo).get ⟨toSize (done.length : Int),inside⟩ = byte := by
      simp [index]
    unfold writeFor writeLoop
    rw [dif_pos inside,this]
    cases written : mypipeWritebyteUnlocked me byte with
    | none => rfl
    | some after =>
      have falls := writebyte_falls written
      have rest := ih (done ++ [byte]) after (by rw [List.length_append,List.length_singleton]; omega)
      rw [List.append_assoc,List.singleton_append,List.length_append,List.length_singleton] at rest
      rw [toInt_succ (by omega)]
      simp only [rest]
      congr 2
      omega

def Sized (me : MypipeSt) : Prop := 0 ≤ me.datasize ∧ me.datasize ≤ pipeSize

-- What a read of count bytes gives back, and what it does to the pipe that it finds.
structure ReadAmount (count : Nat) (ret : Ret) (before after : MypipeSt) : Prop where
  amount : ret.value = min (count : Int) before.datasize
  taken : after.datasize = before.datasize - ret.value
  bytes : ret.bytes.length = ret.value
  nothing : 0 < count → ret.value = 0 → before.datasize = 0 ∧ before.countWr ≤ 0

structure WriteAmount (buf : List UInt8) (ret : Ret) (before after : MypipeSt) : Prop where
  amount : ret.value = min (buf.length : Int) (pipeSize - before.datasize)
  given : after.datasize = before.datasize + ret.value
  nothing : 0 < buf.length → ret.value = 0 → before.datasize = pipeSize ∧ before.countRd ≤ 0

theorem read_amount (count : Nat) (sized : Sized me) (passes : mypipeReadWaits me = false) :
    ReadAmount count (mypipeReadLeave count me).ret me (mypipeReadLeave count me).shared := by
  obtain ⟨low,_⟩ := sized
  unfold mypipeReadLeave
  split
  · rename_i none
    obtain ⟨empty,closed⟩ : me.datasize ≤ 0 ∧ me.countWr ≤ 0 := by simpa using none
    have amount : (0 : Int) = min (count : Int) me.datasize := by omega
    exact ⟨amount,(Int.sub_zero _).symm,rfl,fun _ _ => ⟨by omega,closed⟩⟩
  · rename_i some
    have holds : ¬ me.datasize ≤ 0 := by
      intro empty
      by_cases closed : me.countWr ≤ 0
      · exact some (by simp [empty,closed])
      · simp [mypipeReadWaits,empty,Int.not_le.mp closed] at passes
    have amount : ((readLoop count me).1.length : Int) = min (count : Int) me.datasize := by
      rw [readLoop_spec count me low,List.length_replicate]
      omega
    refine ⟨amount,?_,rfl,fun positive zero => ?_⟩
    · change (readLoop count me).2.datasize = me.datasize - (readLoop count me).1.length
      rw [amount,readLoop_spec count me low]
      change me.datasize - _ = _
      omega
    · change ((readLoop count me).1.length : Int) = 0 at zero
      omega

theorem write_amount (buf : List UInt8) (sized : Sized me) (passes : mypipeWriteWaits me = false) :
    WriteAmount buf (mypipeWriteLeave buf me).ret me (mypipeWriteLeave buf me).shared := by
  obtain ⟨_,high⟩ := sized
  unfold mypipeWriteLeave
  split
  · rename_i none
    obtain ⟨full,closed⟩ : (pipeSize : Int) ≤ me.datasize ∧ me.countRd ≤ 0 := by simpa using none
    have amount : (0 : Int) = min (buf.length : Int) (pipeSize - me.datasize) := by omega
    exact ⟨amount,(Int.add_zero _).symm,fun _ _ => ⟨by omega,closed⟩⟩
  · rename_i some
    have holds : ¬ (pipeSize : Int) ≤ me.datasize := by
      intro full
      by_cases closed : me.countRd ≤ 0
      · exact some (by simp [full,closed])
      · simp [mypipeWriteWaits,full,Int.not_le.mp closed] at passes
    have amount : ((writeLoop buf me).1 : Int) = min (buf.length : Int) (pipeSize - me.datasize) := by
      rw [writeLoop_spec buf me high]
      omega
    refine ⟨amount,?_,fun positive zero => ?_⟩
    · change (writeLoop buf me).2.datasize = me.datasize + (writeLoop buf me).1
      rw [amount,writeLoop_spec buf me high]
      change me.datasize + _ = _
      omega
    · change ((writeLoop buf me).1 : Int) = 0 at zero
      omega

section
variable {τ : Type} [DecidableEq τ] {c next : Config τ MypipeSt Op} {emitted : List (Event τ Op Ret)}

def Op.transfers : Op → Bool
  | .read _ => true
  | .write _ => true
  | _ => false

-- The law of the pipe in one state: its fill, also between the passes of the loops, and what
-- each call does that goes on from there.
structure Amounts (c : Config τ MypipeSt Op) : Prop where
  sized : Sized c.shared
  readPasses : ∀ count, Sized (readLoop count c.shared).2
  writePasses : ∀ buf, Sized (writeLoop buf c.shared).2
  readIndex : ∀ count, readFor count 0 c.shared = (((readLoop count c.shared).1.length : Int),readLoop count c.shared)
  writeIndex : ∀ buf, writeFor buf 0 c.shared = (((writeLoop buf c.shared).1 : Int),(writeLoop buf c.shared).2)
  reads : ∀ emitted next t count ret, Step mypipe c emitted next → .finished t (.read count) ret ∈ emitted →
    ReadAmount count ret c.shared next.shared
  writes : ∀ emitted next t buf ret, Step mypipe c emitted next → .finished t (.write buf) ret ∈ emitted →
    WriteAmount buf ret c.shared next.shared
  others : ∀ emitted next, Step mypipe c emitted next → (∀ t op ret, .finished t op ret ∈ emitted → op.transfers = false) →
    next.shared.datasize = c.shared.datasize

theorem step_read (sized : Sized c.shared) (step : Step mypipe c emitted next) (finished : .finished t (.read count) ret ∈ emitted) :
    ReadAmount count ret c.shared next.shared := by
  obtain ⟨passes,rfl,left⟩ := step_leaves rfl step finished
  rw [left]
  exact read_amount count sized passes

theorem step_write (sized : Sized c.shared) (step : Step mypipe c emitted next) (finished : .finished t (.write buf) ret ∈ emitted) :
    WriteAmount buf ret c.shared next.shared := by
  obtain ⟨passes,rfl,left⟩ := step_leaves rfl step finished
  rw [left]
  exact write_amount buf sized passes

theorem enter_datasize (op : Op) (me : MypipeSt) : (mypipe.enter op me).datasize = me.datasize := by
  cases op <;> rfl

theorem leave_datasize (op : Op) (me : MypipeSt) (other : op.transfers = false) : (mypipe.leave op me).shared.datasize = me.datasize := by
  cases op with
  | register | unregister => rfl
  | read | write => cases other

theorem step_other (step : Step mypipe c emitted next) (none : ∀ t op ret, .finished t op ret ∈ emitted → op.transfers = false) :
    next.shared.datasize = c.shared.datasize := by
  cases step with
  | refuse | resleep | spurious => rfl
  | sleep t op => exact enter_datasize op c.shared
  | pass t op =>
    have other := none t op _ (List.mem_cons_of_mem _ (List.mem_singleton_self _))
    exact (leave_datasize op _ other).trans (enter_datasize op c.shared)
  | resume t op =>
    have other := none t op _ (List.mem_singleton_self _)
    exact leave_datasize op c.shared other

theorem step_sized (sized : Sized c.shared) (step : Step mypipe c emitted next) : Sized next.shared := by
  obtain ⟨low,high⟩ := sized
  by_cases moved : ∃ t op ret, .finished t op ret ∈ emitted ∧ op.transfers = true
  · obtain ⟨t,op,ret,finished,transfers⟩ := moved
    cases op with
    | read count =>
      have read := step_read ⟨low,high⟩ step finished
      have amount := read.amount
      have taken := read.taken
      unfold Sized
      omega
    | write buf =>
      have write := step_write ⟨low,high⟩ step finished
      have amount := write.amount
      have given := write.given
      unfold Sized
      omega
    | register | unregister => cases transfers
  · have same := step_other step (fun t op ret finished => by simpa using fun transfers => moved ⟨t,op,ret,finished,transfers⟩)
    unfold Sized
    omega

theorem readLoop_sized (count : Nat) (sized : Sized me) : Sized (readLoop count me).2 := by
  obtain ⟨low,high⟩ := sized
  rw [readLoop_spec count me low]
  unfold Sized
  simp only
  omega

theorem writeLoop_sized (buf : List UInt8) (sized : Sized me) : Sized (writeLoop buf me).2 := by
  obtain ⟨low,high⟩ := sized
  rw [writeLoop_spec buf me high]
  unfold Sized
  simp only
  omega

theorem pipeSize_small : (pipeSize : Int) ≤ intMax := by decide

theorem transfer_amounts (made : mypipeInit (some cells) = some me) (run : Runs (Step mypipe) (initial me : Config τ MypipeSt Op) log c) : Amounts c := by
  have begins : Sized me := by
    cases made
    exact ⟨Int.le_refl 0,Int.natCast_nonneg _⟩
  have sized : Sized c.shared := run.stateInvariant (I := fun c => Sized c.shared) (fun _ _ _ sized step => step_sized sized step) begins
  have small := pipeSize_small
  obtain ⟨low,high⟩ := sized
  refine ⟨⟨low,high⟩,fun count => readLoop_sized count ⟨low,high⟩,fun buf => writeLoop_sized buf ⟨low,high⟩,?_,?_,?_,?_,?_⟩
  · intro count
    have index := readFor_loop count 0 c.shared (by omega)
    simpa using index
  · intro buf
    have index := writeFor_loop buf [] c.shared (by simp only [List.length_nil]; omega)
    simpa using index
  · intro emitted next t count ret step finished
    exact step_read ⟨low,high⟩ step finished
  · intro emitted next t buf ret step finished
    exact step_write ⟨low,high⟩ step finished
  · intro emitted next step none
    exact step_other step none

end

-- Two bytes are written to the pipe of zeroed memory.
theorem two_bytes : ∃ log c, Runs (Step mypipe) (initial zeroed : Config Nat MypipeSt Op) log c ∧ c.shared.datasize = 2 ∧ Amounts c := by
  have run : Runs (Step mypipe) (initial zeroed : Config Nat MypipeSt Op) _ _ := .one (.pass 0 (.write [1,2]) rfl rfl rfl)
  have made : mypipeInit (some fun _ => 0) = some zeroed := rfl
  exact ⟨_,_,run,rfl,transfer_amounts made run⟩

end LinuxCoding.MyPipe
