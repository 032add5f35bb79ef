import LinuxCoding.MyPipe.Transfer

namespace LinuxCoding.MyPipe
open CInt Monitor Transition

theorem and_small (a : BitVec 64) (clear : a &&& ~~~3#64 = 0#64) : a.toNat < 4 := by
  have low : a = a &&& 3#64 := by
    calc a = a &&& (3#64 ||| ~~~3#64) := by
          rw [show 3#64 ||| ~~~3#64 = BitVec.allOnes 64 from by decide,BitVec.and_allOnes]
      _ = (a &&& 3#64) ||| (a &&& ~~~3#64) := BitVec.and_or_distrib_left ..
      _ = a &&& 3#64 := by rw [clear]; simp
  have bound : (a &&& 3#64).toNat ≤ (3#64).toNat := by
    rw [BitVec.toNat_and]
    exact Nat.and_le_right
  rw [←low] at bound
  simp at bound
  omega

theorem extended_small (opmap : BitVec 32) (clear : opmap.signExtend 64 &&& ~~~3#64 = 0#64) :
    opmap.toNat < 4 := by
  have small := and_small _ clear
  have same : (opmap.signExtend 64).toInt = opmap.toInt := BitVec.toInt_signExtend_of_le (by decide)
  have bound := opmap.isLt
  rw [BitVec.toInt_eq_toNat_cond,BitVec.toInt_eq_toNat_cond] at same
  split at same <;> split at same <;> omega

-- READ, WRITE or READ|WRITE.
def ValidMask (opmap : BitVec 32) : Prop := opmap = 1#32 ∨ opmap = 2#32 ∨ opmap = 3#32

instance (opmap : BitVec 32) : Decidable (ValidMask opmap) :=
  inferInstanceAs (Decidable (opmap = 1#32 ∨ opmap = 2#32 ∨ opmap = 3#32))

theorem registerRefuses_iff (opmap : BitVec 32) : registerRefuses opmap = false ↔ ValidMask opmap := by
  constructor
  · intro admitted
    simp only [registerRefuses,Bool.or_eq_false_iff,bne_eq_false_iff_eq,beq_eq_false_iff_ne] at admitted
    have small := extended_small opmap admitted.1
    have nonzero : opmap ≠ 0#32 := by rintro rfl; exact admitted.2 (by decide)
    have positive : opmap.toNat ≠ 0 := fun zero => nonzero (BitVec.eq_of_toNat_eq zero)
    have three : opmap.toNat = 1 ∨ opmap.toNat = 2 ∨ opmap.toNat = 3 := by omega
    exact three.imp (BitVec.eq_of_toNat_eq ·) (Or.imp (BitVec.eq_of_toNat_eq ·) (BitVec.eq_of_toNat_eq ·))
  · rintro (rfl | rfl | rfl) <;> decide

-- Each operand of the check has bit 0 set, whatever the mask.
theorem unregisterRefuses_true (opmap : BitVec 32) : unregisterRefuses opmap = true := by
  have bit : opmap ||| 1#32 ≠ 0#32 := by
    intro zero
    have := congrArg (·.getLsbD 0) zero
    simp at this
  simp [unregisterRefuses,ne,bit]

theorem unregister_refused (opmap : BitVec 32) : mypipe.refuse (.unregister opmap) = some ⟨-1,[]⟩ := by
  simp [mypipe,unregisterRefuses_true]

theorem register_refused (opmap : BitVec 32) (invalid : ¬ValidMask opmap) :
    mypipe.refuse (.register opmap) = some ⟨-1,[]⟩ := by
  have refuses : registerRefuses opmap = true := by
    cases answer : registerRefuses opmap with
    | true => rfl
    | false => exact absurd ((registerRefuses_iff opmap).mp answer) invalid
  simp [mypipe,refuses]

-- The handles that took their registration and have not made their unregister
-- call; a handle belongs to one thread at a time, and t names it.
def liveStep [DecidableEq τ] (live : List (τ × BitVec 32)) : Event τ Op Ret → List (τ × BitVec 32)
  | .entered t (.register opmap) => (t,opmap) :: live
  | .refused t (.unregister opmap) _ => if ValidMask opmap then live.erase (t,opmap) else live
  | .finished t (.unregister opmap) _ => live.erase (t,opmap)
  | _ => live

def live [DecidableEq τ] (log : List (Event τ Op Ret)) : List (τ × BitVec 32) := log.foldl liveStep []

def readers (handles : List (τ × BitVec 32)) : Nat := handles.countP (fun handle => hasRead handle.2)
def writers (handles : List (τ × BitVec 32)) : Nat := handles.countP (fun handle => hasWrite handle.2)

-- Every handle unregisters at most once and with the mask it registered.
def MayUnregister (handles : List (τ × BitVec 32)) : Event τ Op Ret → Prop
  | .refused t (.unregister opmap) _ => ValidMask opmap → (t,opmap) ∈ handles
  | .finished t (.unregister opmap) _ => (t,opmap) ∈ handles
  | _ => True

def DisciplinedFrom [DecidableEq τ] (handles : List (τ × BitVec 32)) : List (Event τ Op Ret) → Prop
  | [] => True
  | event :: rest => MayUnregister handles event ∧ DisciplinedFrom (liveStep handles event) rest

def Disciplined [DecidableEq τ] (log : List (Event τ Op Ret)) : Prop := DisciplinedFrom [] log

-- What the registration interface promises in a state reached with a log.
structure Accounted [DecidableEq τ] (log : List (Event τ Op Ret)) (c : Config τ MypipeSt Op) : Prop where
  returns : ∀ t opmap ret, ValidMask opmap → .refused t (.unregister opmap) ret ∈ log ∨
    .finished t (.unregister opmap) ret ∈ log → ret.value = 0
  countRd : c.shared.countRd = readers (live log)
  countWr : c.shared.countWr = writers (live log)
  invalid : ∀ opmap, ¬ValidMask opmap → mypipe.refuse (.register opmap) = some ⟨-1,[]⟩ ∧
    mypipe.refuse (.unregister opmap) = some ⟨-1,[]⟩
  endOfFile : writers (live log) = 0 → c.shared.datasize ≤ 0 → ∀ count,
    mypipe.waits (.read count) c.shared = false ∧ (mypipe.leave (.read count) c.shared).ret = ⟨0,[]⟩

-- No unregister call with a mask that register accepts, and no registration
-- that overflows the counter it increments.
structure CountersKept (c : Config τ MypipeSt Op) (emitted : List (Event τ Op Ret)) : Prop where
  unregister : ∀ t opmap ret, .refused t (.unregister opmap) ret ∈ emitted → ¬ValidMask opmap
  countRd : ∀ t opmap, .entered t (.register opmap) ∈ emitted → hasRead opmap = true → c.shared.countRd < intMax
  countWr : ∀ t opmap, .entered t (.register opmap) ∈ emitted → hasWrite opmap = true → c.shared.countWr < intMax

structure Counted [DecidableEq τ] (log : List (Event τ Op Ret)) (c : Config τ MypipeSt Op) : Prop where
  countRd : c.shared.countRd = readers (live log)
  countWr : c.shared.countWr = writers (live log)
  highRd : c.shared.countRd ≤ intMax
  highWr : c.shared.countWr ≤ intMax
  queued : QueuedAdmitted mypipe c
  finished : ∀ t opmap ret, .finished t (.unregister opmap) ret ∉ log
  refused : ∀ t opmap ret, .refused t (.unregister opmap) ret ∈ log → ¬ValidMask opmap

theorem leave_counts (op : Op) (admitted : mypipe.refuse op = none) (me : MypipeSt) :
    (mypipe.leave op me).shared.countRd = me.countRd ∧ (mypipe.leave op me).shared.countWr = me.countWr := by
  cases op with
  | register => exact ⟨rfl,rfl⟩
  | unregister opmap => simp [unregister_refused] at admitted
  | read count =>
    simp only [mypipe,mypipeReadLeave]
    split
    · exact ⟨rfl,rfl⟩
    · exact readLoop_counts count me
  | write buf =>
    simp only [mypipe,mypipeWriteLeave]
    split
    · exact ⟨rfl,rfl⟩
    · exact writeLoop_counts buf me

-- The increments of the two counters that a call makes when it takes the lock.
def addsRd : Op → Nat
  | .register opmap => if hasRead opmap then 1 else 0
  | _ => 0
def addsWr : Op → Nat
  | .register opmap => if hasWrite opmap then 1 else 0
  | _ => 0

theorem enter_counts (op : Op) {me : MypipeSt} (lowRd : 0 ≤ me.countRd) (lowWr : 0 ≤ me.countWr)
    (roomRd : me.countRd + addsRd op ≤ intMax) (roomWr : me.countWr + addsWr op ≤ intMax) :
    (mypipe.enter op me).countRd = me.countRd + addsRd op ∧
      (mypipe.enter op me).countWr = me.countWr + addsWr op := by
  cases op with
  | register opmap =>
    simp only [addsRd,addsWr] at roomRd roomWr
    simp only [mypipe,mypipeRegisterEnter,addsRd,addsWr]
    constructor
    · split
      · rename_i reads
        simp only [reads,if_true,Int.natCast_one] at roomRd ⊢
        exact toInt_of_nonneg (by omega) roomRd
      · simp
    · split
      · rename_i writes
        simp only [writes,if_true,Int.natCast_one] at roomWr ⊢
        exact toInt_of_nonneg (by omega) roomWr
      · simp
  | unregister | read | write => simp [mypipe,addsRd,addsWr]

theorem entered_live [DecidableEq τ] (handles : List (τ × BitVec 32)) (t : τ) (op : Op) :
    readers (liveStep handles (.entered t op)) = readers handles + addsRd op ∧
      writers (liveStep handles (.entered t op)) = writers handles + addsWr op := by
  cases op <;> simp [liveStep,readers,writers,addsRd,addsWr,List.countP_cons]

theorem room_kept {flag : Bool} (below : flag = true → n < intMax) (high : n ≤ intMax) :
    n + (if flag then 1 else 0 : Nat) ≤ intMax := by
  cases flag with
  | true => exact below rfl
  | false => simpa using high

theorem kept_room {c : Config τ MypipeSt Op} (kept : CountersKept c emitted)
    (entered : .entered t op ∈ emitted) (highRd : c.shared.countRd ≤ intMax)
    (highWr : c.shared.countWr ≤ intMax) :
    c.shared.countRd + addsRd op ≤ intMax ∧ c.shared.countWr + addsWr op ≤ intMax := by
  cases op with
  | register opmap =>
    have rd := kept.countRd t opmap entered
    have wr := kept.countWr t opmap entered
    simp only [addsRd,addsWr]
    exact ⟨room_kept rd highRd,room_kept wr highWr⟩
  | unregister | read | write => simpa [addsRd,addsWr] using ⟨highRd,highWr⟩

section
variable {τ : Type} [DecidableEq τ]

theorem live_append (log emitted : List (Event τ Op Ret)) :
    live (log ++ emitted) = emitted.foldl liveStep (live log) := List.foldl_append

theorem finished_live (handles : List (τ × BitVec 32)) (t : τ) (admitted : mypipe.refuse op = none) :
    liveStep handles (.finished t op ret) = handles := by
  cases op with
  | unregister opmap => simp [unregister_refused] at admitted
  | register | read | write => rfl

-- A call that takes the lock, up to the point where it sleeps or leaves.
theorem entered_counted {c : Config τ MypipeSt Op} (t : τ) (op : Op) (counted : Counted log c)
    (kept : CountersKept c emitted) (entered : .entered t op ∈ emitted) :
    (mypipe.enter op c.shared).countRd = readers (liveStep (live log) (.entered t op)) ∧
      (mypipe.enter op c.shared).countWr = writers (liveStep (live log) (.entered t op)) ∧
      (mypipe.enter op c.shared).countRd ≤ intMax ∧ (mypipe.enter op c.shared).countWr ≤ intMax := by
  obtain ⟨roomRd,roomWr⟩ := kept_room kept entered counted.highRd counted.highWr
  have rd := counted.countRd
  have wr := counted.countWr
  obtain ⟨afterRd,afterWr⟩ := enter_counts op (by omega) (by omega) roomRd roomWr
  obtain ⟨liveRd,liveWr⟩ := entered_live (live log) t op
  rw [afterRd,afterWr,liveRd,liveWr]
  exact ⟨by omega,by omega,roomRd,roomWr⟩

theorem step_counted {c next : Config τ MypipeSt Op} (counted : Counted log c)
    (step : Step mypipe c emitted next) (kept : CountersKept c emitted) : Counted (log ++ emitted) next := by
  have queued := step_admitted counted.queued step
  have refused : ∀ t opmap ret, .refused t (.unregister opmap) ret ∈ log ++ emitted → ¬ValidMask opmap := by
    intro t opmap ret present
    rcases List.mem_append.mp present with old | new
    · exact counted.refused t opmap ret old
    · exact kept.unregister t opmap ret new
  have unfinished : ∀ t opmap ret, .finished t (.unregister opmap) ret ∉ log ++ emitted := by
    intro t opmap ret present
    rcases List.mem_append.mp present with old | new
    · exact counted.finished t opmap ret old
    · simpa [unregister_refused] using step_finished counted.queued step new
  cases step with
  | refuse t op ret outside refuses =>
    have same : live (log ++ [.refused t op ret]) = live log := by
      rw [live_append]
      cases op with
      | unregister opmap => simp [liveStep,kept.unregister t opmap ret (by simp)]
      | register | read | write => rfl
    exact ⟨by rw [same]; exact counted.countRd,by rw [same]; exact counted.countWr,
      counted.highRd,counted.highWr,queued,unfinished,refused⟩
  | sleep t op outside admitted waits =>
    obtain ⟨rd,wr,highRd,highWr⟩ := entered_counted t op counted kept (by simp)
    exact ⟨by rw [live_append]; exact rd,by rw [live_append]; exact wr,highRd,highWr,queued,unfinished,refused⟩
  | pass t op outside admitted passes =>
    obtain ⟨rd,wr,highRd,highWr⟩ := entered_counted t op counted kept (by simp)
    obtain ⟨keepRd,keepWr⟩ := leave_counts op admitted (mypipe.enter op c.shared)
    have same : live (log ++ [.entered t op,.finished t op (mypipe.leave op (mypipe.enter op c.shared)).ret]) =
        liveStep (live log) (.entered t op) := by
      rw [live_append]
      exact finished_live _ t admitted
    exact ⟨by rw [same,exit_shared,keepRd]; exact rd,by rw [same,exit_shared,keepWr]; exact wr,
      by rw [exit_shared,keepRd]; exact highRd,by rw [exit_shared,keepWr]; exact highWr,queued,unfinished,refused⟩
  | resleep t op notified waits =>
    exact ⟨by rw [live_append]; exact counted.countRd,by rw [live_append]; exact counted.countWr,
      counted.highRd,counted.highWr,queued,unfinished,refused⟩
  | resume t op notified passes =>
    have admitted := counted.queued t op (.inr notified)
    obtain ⟨keepRd,keepWr⟩ := leave_counts op admitted c.shared
    have same : live (log ++ [.finished t op (mypipe.leave op c.shared).ret]) = live log := by
      rw [live_append]
      exact finished_live _ t admitted
    exact ⟨by rw [same,exit_shared,keepRd]; exact counted.countRd,by rw [same,exit_shared,keepWr]; exact counted.countWr,
      by rw [exit_shared,keepRd]; exact counted.highRd,by rw [exit_shared,keepWr]; exact counted.highWr,
      queued,unfinished,refused⟩
  | spurious t op asleep =>
    exact ⟨by rw [live_append]; exact counted.countRd,by rw [live_append]; exact counted.countWr,
      counted.highRd,counted.highWr,queued,unfinished,refused⟩

theorem init_counted (made : mypipeInit (some cells) = some me) :
    Counted [] (initial me : Config τ MypipeSt Op) := by
  cases Option.some.inj made
  have low : (0 : Int) ≤ intMax := by decide
  exact ⟨rfl,rfl,low,low,by simp [QueuedAdmitted,initial],by simp,by simp⟩

theorem run_counted {c : Config τ MypipeSt Op} (made : mypipeInit (some cells) = some me)
    (run : Runs (Where (Step mypipe) CountersKept) (initial me) log c) : Counted log c :=
  run.invariant (I := Counted) (fun _ _ _ _ counted taken => step_counted counted taken.1 taken.2) (init_counted made)

theorem counted_accounted {c : Config τ MypipeSt Op} (counted : Counted log c) : Accounted log c := by
  refine ⟨?_,counted.countRd,counted.countWr,?_,?_⟩
  · rintro t opmap ret valid (refused | finished)
    · exact absurd valid (counted.refused t opmap ret refused)
    · exact absurd finished (counted.finished t opmap ret)
  · exact fun opmap invalid => ⟨register_refused opmap invalid,unregister_refused opmap⟩
  · intro none empty count
    have writers0 : c.shared.countWr ≤ 0 := by rw [counted.countWr,none]; exact Int.le_refl _
    simp [mypipe,mypipeReadWaits,mypipeReadLeave,empty,writers0]

theorem overflow_negative : toInt (intMax + 1) < 0 := by decide

-- The converse: one step outside the condition breaks the promise.
theorem accounted_kept {c next : Config τ MypipeSt Op} (counted : Counted log c)
    (step : Step mypipe c emitted next) (accounted : Accounted (log ++ emitted) next) : CountersKept c emitted := by
  have registered : ∀ t opmap, .entered t (.register opmap) ∈ emitted →
      next.shared = mypipeRegisterEnter opmap c.shared := fun t opmap entered =>
    (step_entered step entered).elim id id
  refine ⟨?_,?_,?_⟩
  · intro t opmap ret refused valid
    have zero := accounted.returns t opmap ret valid (.inl (List.mem_append_right _ refused))
    have minus := step_refused step refused
    rw [unregister_refused] at minus
    cases Option.some.inj minus
    exact absurd zero (by decide)
  · intro t opmap entered reads
    apply Classical.byContradiction
    intro above
    have top : c.shared.countRd = intMax := Int.le_antisymm counted.highRd (Int.not_lt.mp above)
    have exactly := accounted.countRd
    simp only [registered t opmap entered,mypipeRegisterEnter,reads,if_true,top] at exactly
    have := overflow_negative
    omega
  · intro t opmap entered writes
    apply Classical.byContradiction
    intro above
    have top : c.shared.countWr = intMax := Int.le_antisymm counted.highWr (Int.not_lt.mp above)
    have exactly := accounted.countWr
    simp only [registered t opmap entered,mypipeRegisterEnter,writes,if_true,top] at exactly
    have := overflow_negative
    omega

theorem registration_accounting {c : Config τ MypipeSt Op} (made : mypipeInit (some cells) = some me)
    (run : Runs (Where (Step mypipe) CountersKept) (initial me) log c) :
    Accounted log c ∧ ∀ emitted next, Step mypipe c emitted next →
      (Accounted (log ++ emitted) next ↔ CountersKept c emitted) := by
  have counted := run_counted made run
  refine ⟨counted_accounted counted,fun emitted next step => ⟨accounted_kept counted step,?_⟩⟩
  exact fun kept => counted_accounted (step_counted counted step kept)

end

-- A reader registers and sleeps, then a writer registers and both are counted.
theorem registration_pair : ∃ log c, Runs (Where (Step mypipe) CountersKept)
    (initial zeroed : Config Bool MypipeSt Op) log c ∧ readers (live log) = 1 ∧ writers (live log) = 1 ∧
      Accounted log c := by
  have reader : Step mypipe (initial zeroed : Config Bool MypipeSt Op) _ _ :=
    .sleep true (.register 1#32) rfl (by decide) (by decide)
  have writer : Step mypipe _ _ _ := .pass (c := (initial zeroed : Config Bool MypipeSt Op).put true
    (mypipeRegisterEnter 1#32 zeroed) (.asleep (.register 1#32))) false (.register 2#32) rfl (by decide) (by decide)
  have path : Runs (Where (Step mypipe) CountersKept) (initial zeroed) _ _ :=
    .step (Runs.one ⟨reader,⟨by simp,by simp [initial,zeroed,intMax],by simp [initial,zeroed,intMax]⟩⟩)
      ⟨writer,⟨by simp,by simp [zeroed,mypipeRegisterEnter,intMax] ; decide,by simp [zeroed,mypipeRegisterEnter,intMax] ; decide⟩⟩
  exact ⟨_,_,path,by decide,by decide,(registration_accounting (show mypipeInit (some fun _ => 0) = _ from rfl) path).1⟩

theorem unregister_broken : ¬ ∀ (cells : Fin pipeSize → UInt8) (me : MypipeSt) (log : List (Event Nat Op Ret))
    (c : Config Nat MypipeSt Op), mypipeInit (some cells) = some me → Runs (Step mypipe) (initial me) log c →
    Disciplined log → Accounted log c := by
  intro accounting
  have both : Step mypipe (initial zeroed : Config Nat MypipeSt Op) _ _ :=
    .pass 0 (.register 3#32) rfl (by decide) (by decide)
  have leaves : Step mypipe _ _ _ := .refuse (c := (initial zeroed : Config Nat MypipeSt Op).exit 0
    (mypipe.leave (.register 3#32) (mypipeRegisterEnter 3#32 zeroed))) 0 (.unregister 3#32) ⟨-1,[]⟩ rfl (by decide)
  have accounted := accounting (fun _ => 0) zeroed _ _ rfl (.step (.one both) leaves)
    ⟨trivial,trivial,fun _ => by decide,trivial⟩
  exact absurd (accounted.returns 0 3#32 ⟨-1,[]⟩ (by decide) (.inl (by simp))) (by decide)

end LinuxCoding.MyPipe
