import LinuxCoding.MyPipe.Transfer

namespace LinuxCoding.MyPipe
open CInt Monitor Fifo Transition

-- The datasize bytes stored from head onward, modulo the size of the array.
def stored (me : MypipeSt) : List UInt8 := window me.data me.head me.datasize.toNat

-- A finished call as a move of the abstract queue: a read takes the bytes it
-- put in the caller's buffer, a write puts the first `ret` bytes of its own.
def moveOf : Event τ Op Ret → List (Move UInt8)
  | .finished _ (.read _) ret => [.take ret.bytes]
  | .finished _ (.write buf) ret => [.put (buf.take ret.value.toNat)]
  | _ => []

def moves (log : List (Event τ Op Ret)) : List (Move UInt8) := log.flatMap moveOf

def delivered (log : List (Event τ Op Ret)) : List UInt8 := takenBy (moves log)
def accepted (log : List (Event τ Op Ret)) : List UInt8 := putBy (moves log)

-- The copy loop of the write stays out of the second cell: it copies nothing,
-- or one byte into an empty pipe.
def CopiesOneByte (me : MypipeSt) : Op → Prop
  | .write buf => buf = [] ∨ (me.datasize ≤ 0 ∧ buf.length = 1)
  | _ => True

def FinishesWhen (allowed : MypipeSt → Op → Prop) (c : Config τ MypipeSt Op)
    (emitted : List (Event τ Op Ret)) : Prop :=
  ∀ t op ret, .finished t op ret ∈ emitted → allowed c.shared op

structure AtMostOne (me : MypipeSt) : Prop where
  sameCell : me.head = me.tail
  low : 0 ≤ me.datasize
  high : me.datasize ≤ 1

theorem init_one (cells : Fin pipeSize → UInt8) (made : mypipeInit (some cells) = some me) :
    AtMostOne me ∧ stored me = [] := by
  cases Option.some.inj made
  exact ⟨⟨rfl,Int.le_refl _,Int.zero_le_ofNat 1⟩,rfl⟩

theorem enter_stored (op : Op) (me : MypipeSt) : stored (mypipe.enter op me) = stored me := by
  cases op <;> rfl

theorem enter_one (op : Op) (one : AtMostOne me) : AtMostOne (mypipe.enter op me) := by
  cases op <;> exact ⟨one.sameCell,one.low,one.high⟩

theorem read_moves (count : Nat) (one : AtMostOne me) :
    stored me = (mypipeReadLeave count me).ret.bytes ++ stored (mypipeReadLeave count me).shared ∧
      AtMostOne (mypipeReadLeave count me).shared := by
  unfold mypipeReadLeave
  split
  · exact ⟨rfl,one⟩
  · rw [readLoop_spec count me one.low]
    have cases01 : me.datasize = 0 ∨ me.datasize = 1 := by have := one.low; have := one.high; omega
    rcases cases01 with empty | single
    · exact ⟨by simp [stored,empty],one.sameCell,by simp [empty],by simp [empty]⟩
    · cases count with
      | zero => exact ⟨by simp [stored,single],one.sameCell,by simp [single],by simp [single]⟩
      | succ count => exact ⟨by simp [stored,single],one.sameCell,by simp [single],by simp [single]⟩

theorem write_moves (buf : List UInt8) (one : AtMostOne me) (copies : CopiesOneByte me (.write buf)) :
    stored (mypipeWriteLeave buf me).shared =
        stored me ++ buf.take (mypipeWriteLeave buf me).ret.value.toNat ∧
      AtMostOne (mypipeWriteLeave buf me).shared := by
  have room : me.datasize ≤ pipeSize := Int.le_trans one.high (by decide)
  unfold mypipeWriteLeave
  split
  · exact ⟨by simp,one⟩
  · rw [writeLoop_spec buf me room]
    rcases copies with rfl | ⟨empty,single⟩
    · exact ⟨by simp [stored,overwrite],one.sameCell,by simpa using one.low,by simpa using one.high⟩
    · obtain ⟨byte,rfl⟩ := List.length_eq_one_iff.mp single
      have zero : me.datasize = 0 := Int.le_antisymm empty one.low
      have size : ((pipeSize : Int) - me.datasize).toNat = 1023 + 1 := by rw [zero]; rfl
      rw [size]
      exact ⟨by simp [stored,zero,overwrite,one.sameCell],one.sameCell,by simp [zero],by simp [zero]⟩

theorem leave_moves (op : Op) (one : AtMostOne me) (copies : CopiesOneByte me op) (t : τ) :
    Runs Step (stored me) (moveOf (.finished t op (mypipe.leave op me).ret)) (stored (mypipe.leave op me).shared) ∧
      AtMostOne (mypipe.leave op me).shared := by
  cases op with
  | register => exact ⟨.nil,one⟩
  | unregister => exact ⟨.nil,one.sameCell,one.low,one.high⟩
  | read count =>
    obtain ⟨split,after⟩ := read_moves count one
    refine ⟨Runs.one ?_,after⟩
    rw [split]
    exact .take
  | write buf =>
    obtain ⟨joined,after⟩ := write_moves buf one copies
    refine ⟨Runs.one ?_,after⟩
    simp only [mypipe]
    rw [joined]
    exact .put

theorem moves_append (earlier later : List (Event τ Op Ret)) :
    moves (earlier ++ later) = moves earlier ++ moves later := List.flatMap_append

def Lawful (c : Config τ MypipeSt Op) (queue : List UInt8) : Prop :=
  stored c.shared = queue ∧ AtMostOne c.shared

section
variable {τ : Type} [DecidableEq τ]

-- One critical section of the pipe is one move of the abstract queue.
theorem step_refines {c next : Config τ MypipeSt Op} (lawful : Lawful c queue)
    (step : Step mypipe c emitted next) (copies : FinishesWhen CopiesOneByte c emitted) :
    ∃ after, Runs Fifo.Step queue (moves emitted) after ∧ Lawful next after := by
  obtain ⟨rfl,one⟩ := lawful
  cases step with
  | refuse => exact ⟨_,.nil,rfl,one⟩
  | sleep t op outside admitted waits =>
    exact ⟨_,.nil,enter_stored op _,enter_one op one⟩
  | pass t op outside admitted passes =>
    have fits : CopiesOneByte (mypipe.enter op c.shared) op := by
      have before := copies t op (mypipe.leave op (mypipe.enter op c.shared)).ret (by simp)
      cases op <;> exact before
    obtain ⟨path,after⟩ := leave_moves op (enter_one op one) fits t
    rw [enter_stored] at path
    exact ⟨_,by simpa only [moves,List.flatMap_cons,moveOf,List.nil_append,List.flatMap_nil,List.append_nil,exit_shared] using path,rfl,after⟩
  | resleep => exact ⟨_,.nil,rfl,one⟩
  | resume t op notified passes =>
    have fits := copies t op (mypipe.leave op c.shared).ret (by simp)
    obtain ⟨path,after⟩ := leave_moves op one fits t
    exact ⟨_,by simpa only [moves,List.flatMap_cons,List.flatMap_nil,List.append_nil,exit_shared] using path,rfl,after⟩
  | spurious => exact ⟨_,.nil,rfl,one⟩

theorem run_refines {c : Config τ MypipeSt Op} (made : mypipeInit (some cells) = some me)
    (run : Runs (Where (Step mypipe) (FinishesWhen CopiesOneByte)) (initial me) log c) :
    Runs Fifo.Step [] (moves log) (stored c.shared) := by
  obtain ⟨one,empty⟩ := init_one cells made
  obtain ⟨queue,path,rfl,_⟩ := run.simulation (f := moves) (R := Lawful) rfl moves_append
    (fun _ _ _ _ lawful taken => step_refines lawful taken.1 taken.2) ⟨empty,one⟩
  exact path

theorem fifo_when_one_byte {c : Config τ MypipeSt Op} (made : mypipeInit (some cells) = some me)
    (run : Runs (Where (Step mypipe) (FinishesWhen CopiesOneByte)) (initial me) log c) :
    delivered log ++ stored c.shared = accepted log :=
  runs_law (run_refines made run)

end

theorem fifo_write_then_read : ∃ log c, Runs (Where (Step mypipe) (FinishesWhen CopiesOneByte))
      (initial zeroed : Config Bool MypipeSt Op) log c ∧ accepted log = [7] ∧ delivered log = [7] ∧
      delivered log ++ stored c.shared = accepted log := by
  have write : Step mypipe (initial zeroed : Config Bool MypipeSt Op) _ _ := .pass true (.write [7]) rfl rfl rfl
  have read : Step mypipe _ _ _ := .pass (c := (initial zeroed : Config Bool MypipeSt Op).exit true
    (mypipeWriteLeave [7] zeroed)) false (.read 4) rfl rfl rfl
  have path : Runs (Where (Step mypipe) (FinishesWhen CopiesOneByte)) (initial zeroed) _ _ :=
    .step (Runs.one ⟨write,by intro t op ret finished; simp at finished; simp [finished,CopiesOneByte,initial,zeroed]⟩)
      ⟨read,by intro t op ret finished; simp at finished; simp [finished,CopiesOneByte]⟩
  exact ⟨_,_,path,rfl,rfl,fifo_when_one_byte (show mypipeInit (some fun _ => 0) = _ from rfl) path⟩

theorem fifo_broken : ¬ ∀ (cells : Fin pipeSize → UInt8) (me : MypipeSt) (log : List (Event Nat Op Ret))
    (c : Config Nat MypipeSt Op), mypipeInit (some cells) = some me →
    Runs (Step mypipe) (initial me) log c → delivered log ++ stored c.shared = accepted log := by
  intro fifo
  have write : Step mypipe (initial zeroed : Config Nat MypipeSt Op) _ _ := .pass 0 (.write [97,98]) rfl rfl rfl
  have law := fifo (fun _ => 0) zeroed _ _ rfl (.one write)
  exact absurd law (by decide)

end LinuxCoding.MyPipe
