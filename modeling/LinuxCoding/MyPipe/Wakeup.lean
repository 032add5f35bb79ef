import LinuxCoding.MyPipe.Model

namespace LinuxCoding.MyPipe
open CInt Monitor Transition

-- A registration finds room in the counters it increments.
def CounterRoom (me : MypipeSt) : Op → Prop
  | .register opmap => (hasRead opmap = true → me.countRd < intMax) ∧ (hasWrite opmap = true → me.countWr < intMax)
  | _ => True

theorem increment_positive (positive : 0 < count) (room : flag = true → count < intMax) :
    0 < if flag = true then toInt (count + 1) else count := by
  split
  · rename_i set
    have below := room set
    rw [toInt_of_nonneg (by omega) (by omega)]
    omega
  · exact positive

-- A registration may go to sleep after it incremented a counter, without a
-- broadcast; the counters it leaves positive are those that readers and writers sleep on.
theorem register_sleeping (opmap : BitVec 32) (other : Op) (room : CounterRoom me (.register opmap))
    (waiting : mypipe.waits other me = true)
    (sleeps : mypipe.waits (.register opmap) (mypipe.enter (.register opmap) me) = true) :
    mypipe.waits other (mypipe.enter (.register opmap) me) = true := by
  cases other with
  | register => exact sleeps
  | unregister => cases waiting
  | read count =>
    simp only [mypipe,mypipeReadWaits,mypipeRegisterEnter,Bool.and_eq_true,decide_eq_true_eq] at waiting ⊢
    exact ⟨waiting.1,increment_positive waiting.2 room.2⟩
  | write buf =>
    simp only [mypipe,mypipeWriteWaits,mypipeRegisterEnter,Bool.and_eq_true,decide_eq_true_eq] at waiting ⊢
    exact ⟨waiting.1,increment_positive waiting.2 room.1⟩

-- A return without a broadcast is an early return, which changes nothing.
theorem quiet_leave (op : Op) (me : MypipeSt) (quiet : (mypipe.leave op me).broadcast = false) :
    (mypipe.leave op me).shared = me := by
  cases op with
  | register => cases quiet
  | unregister => cases quiet
  | read count =>
    simp only [mypipe,mypipeReadLeave] at quiet ⊢
    split at quiet
    · rename_i ended
      simp [ended]
    · cases quiet
  | write buf =>
    simp only [mypipe,mypipeWriteLeave] at quiet ⊢
    split at quiet
    · rename_i broken
      simp [broken]
    · cases quiet

theorem mypipe_wakes : Wakes mypipe CounterRoom := by
  refine ⟨?_,?_,?_⟩
  · intro op other me room waiting sleeps
    cases op with
    | register opmap => exact register_sleeping opmap other room waiting sleeps
    | unregister => cases sleeps
    | read => exact waiting
    | write => exact waiting
  · intro op other me room waiting passes quiet
    rw [quiet_leave op _ quiet]
    cases op with
    | register => cases quiet
    | unregister => cases quiet
    | read => exact waiting
    | write => exact waiting
  · intro op other me waiting passes quiet
    rw [quiet_leave op _ quiet]
    exact waiting

section
variable {τ : Type} [DecidableEq τ]

theorem no_lost_wakeup {c : Config τ MypipeSt Op}
    (run : Runs (Where (Step mypipe) (EntersWhen CounterRoom)) (initial me) log c) :
    (∀ t opmap, c.status t = .asleep (.register opmap) → c.shared.countRd ≤ 0 ∨ c.shared.countWr ≤ 0) ∧
    (∀ t count, c.status t = .asleep (.read count) → c.shared.datasize ≤ 0 ∧ 0 < c.shared.countWr) ∧
    (∀ t buf, c.status t = .asleep (.write buf) → (pipeSize : Int) ≤ c.shared.datasize ∧ 0 < c.shared.countRd) ∧
    (∀ t opmap, c.status t ≠ .asleep (.unregister opmap)) ∧
    ¬∃ t u count buf, c.status t = .asleep (.read count) ∧ c.status u = .asleep (.write buf) := by
  have waiting := runs_sleepers mypipe_wakes run
  have reads : ∀ t count, c.status t = .asleep (.read count) → c.shared.datasize ≤ 0 ∧ 0 < c.shared.countWr := by
    intro t count asleep
    simpa [mypipe,mypipeReadWaits] using waiting t _ asleep
  have writes : ∀ t buf, c.status t = .asleep (.write buf) →
      (pipeSize : Int) ≤ c.shared.datasize ∧ 0 < c.shared.countRd := by
    intro t buf asleep
    simpa [mypipe,mypipeWriteWaits] using waiting t _ asleep
  refine ⟨?_,reads,writes,?_,?_⟩
  · intro t opmap asleep
    simpa [mypipe,mypipeRegisterWaits] using waiting t _ asleep
  · intro t opmap asleep
    cases waiting t _ asleep
  · intro ⟨t,u,count,buf,reader,writer⟩
    have empty := (reads t count reader).1
    have full := (writes u buf writer).1
    simp only [pipeSize] at full
    omega

end

-- One handle registers both ways, then a read finds the pipe empty and sleeps.
theorem reader_sleeps : ∃ log c, Runs (Where (Step mypipe) (EntersWhen CounterRoom))
    (initial zeroed : Config Bool MypipeSt Op) log c ∧ c.status false = .asleep (.read 1) ∧
      c.shared.datasize ≤ 0 ∧ 0 < c.shared.countWr := by
  have registers : Step mypipe (initial zeroed : Config Bool MypipeSt Op) _ _ :=
    .pass true (.register 3#32) rfl (by decide) (by decide)
  have sleeps : Step mypipe _ _ _ := .sleep (c := (initial zeroed : Config Bool MypipeSt Op).exit true
    (mypipe.leave (.register 3#32) (mypipeRegisterEnter 3#32 zeroed))) false (.read 1) rfl rfl (by decide)
  have path : Runs (Where (Step mypipe) (EntersWhen CounterRoom)) (initial zeroed) _ _ :=
    .step (Runs.one ⟨registers,by simp [EntersWhen,CounterRoom,initial,zeroed,intMax]⟩)
      ⟨sleeps,by simp [EntersWhen,CounterRoom]⟩
  exact ⟨_,_,path,rfl,(no_lost_wakeup path).2.1 false 1 rfl⟩

end LinuxCoding.MyPipe
