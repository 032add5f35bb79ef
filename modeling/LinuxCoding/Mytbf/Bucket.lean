import LinuxCoding.Library.CInt

-- The token bucket of mytbf/mytbf.c and thread/posix/mytbf_multithread/mytbf.c.
namespace LinuxCoding.Mytbf
open CInt

def mytbfMax : Nat := 1024
def einval : Int := 22

abbrev Slot : Type := Fin mytbfMax

structure MytbfSt where
  cps : IntValue
  burst : IntValue
  token : IntValue
  pos : Slot
  deriving DecidableEq

def newBucket (cps burst : IntValue) (pos : Slot) : MytbfSt := ⟨cps,burst,store 0,pos⟩

-- if(me->token > me->burst) me->token = me->burst;
def MytbfSt.cap (me : MytbfSt) : MytbfSt := if me.token.val > me.burst.val then {me with token := me.burst} else me

-- The body of the loop of alrm_handler and of thr_alarm.
def MytbfSt.refill (me : MytbfSt) : MytbfSt := {me with token := store (me.token.val + me.cps.val)}.cap

-- none: it waits for a token.
def fetchToken (size : IntValue) (me : MytbfSt) : Option (MytbfSt × Int) :=
  if size.val ≤ 0 then some (me,-einval)
  else if me.token.val ≤ 0 then none
  else
    let n := min me.token.val size.val
    some ({me with token := store (me.token.val - n)},n)

def returnToken (size : IntValue) (me : MytbfSt) : MytbfSt × Int :=
  if size.val ≤ 0 then (me,-einval) else ({me with token := store (me.token.val + size.val)}.cap,size.val)

-- A bucket created with cps > 0 and burst > 0 that nothing has overflowed.
structure MytbfSt.Level (me : MytbfSt) : Prop where
  rate : 0 < me.cps.val
  room : 0 < me.burst.val
  low : 0 ≤ me.token.val
  high : me.token.val ≤ me.burst.val

theorem cap_level {me : MytbfSt} (rate : 0 < me.cps.val) (room : 0 < me.burst.val) (low : 0 ≤ me.token.val) :
    me.cap.Level ∧ me.cap.token.val ≤ me.token.val := by
  unfold MytbfSt.cap
  split
  · exact ⟨⟨rate,room,by simp only; omega,Int.le_refl _⟩,by simp only; omega⟩
  · exact ⟨⟨rate,room,low,by omega⟩,Int.le_refl _⟩

-- Both ways in which tokens come into a bucket.
theorem pour_level {me : MytbfSt} (level : me.Level) (positive : 0 < n) (fits : me.token.val + n ≤ intMax) :
    {me with token := store (me.token.val + n)}.cap.Level ∧
      {me with token := store (me.token.val + n)}.cap.token.val ≤ me.token.val + n := by
  have low := level.low
  have sum : (store (me.token.val + n)).val = me.token.val + n := by
    apply store_of_nonneg _ fits
    omega
  have poured : 0 ≤ (store (me.token.val + n)).val := by omega
  have capped : {me with token := store (me.token.val + n)}.cap.Level ∧
      {me with token := store (me.token.val + n)}.cap.token.val ≤ (store (me.token.val + n)).val :=
    cap_level level.rate level.room poured
  rwa [sum] at capped

theorem refill_level {me : MytbfSt} (level : me.Level) (fits : me.token.val + me.cps.val ≤ intMax) :
    me.refill.Level ∧ me.refill.token.val ≤ me.token.val + me.cps.val := pour_level level level.rate fits

theorem returnToken_level {me : MytbfSt} (level : me.Level) (positive : 0 < size.val) (fits : me.token.val + size.val ≤ intMax) :
    (returnToken size me).1.Level ∧ (returnToken size me).1.token.val ≤ me.token.val + (returnToken size me).2 := by
  unfold returnToken
  rw [if_neg (by omega)]
  exact pour_level level positive fits

-- Only the tokens of a bucket change.
def MytbfSt.Is (after me : MytbfSt) : Prop := after.cps = me.cps ∧ after.burst = me.burst ∧ after.pos = me.pos

theorem cap_is (me : MytbfSt) : me.cap.Is me := by
  unfold MytbfSt.cap
  split <;> exact ⟨rfl,rfl,rfl⟩

theorem refill_is (me : MytbfSt) : me.refill.Is me := cap_is {me with token := store (me.token.val + me.cps.val)}

theorem fetchToken_is (fetched : fetchToken size me = some (after,ret)) : after.Is me := by
  unfold fetchToken at fetched
  split at fetched
  · cases fetched
    exact ⟨rfl,rfl,rfl⟩
  · split at fetched <;> cases fetched
    exact ⟨rfl,rfl,rfl⟩

-- What an accepted size takes.
theorem fetchToken_takes {me : MytbfSt} (positive : 0 < size.val) (fetched : fetchToken size me = some (after,ret)) :
    0 < me.token.val ∧ ret = min me.token.val size.val ∧ after.token.val = me.token.val - ret := by
  unfold fetchToken at fetched
  rw [if_neg (by omega)] at fetched
  split at fetched
  · cases fetched
  · rename_i some
    cases fetched
    have high := me.token.property.2
    have left : (store (me.token.val - min me.token.val size.val)).val = me.token.val - min me.token.val size.val := by
      apply store_of_nonneg
      · omega
      · omega
    exact ⟨by omega,rfl,left⟩

theorem fetchToken_level {me : MytbfSt} (level : me.Level) (positive : 0 < size.val)
    (fetched : fetchToken size me = some (after,ret)) :
    1 ≤ ret ∧ ret ≤ size.val ∧ after.Level ∧ ret + after.token.val = me.token.val := by
  obtain ⟨some,took,left⟩ := fetchToken_takes positive fetched
  obtain ⟨cps,burst,_⟩ := fetchToken_is fetched
  have high := level.high
  refine ⟨by omega,by omega,⟨cps ▸ level.rate,burst ▸ level.room,by omega,?_⟩,by omega⟩
  rw [burst]
  omega

theorem returnToken_is (size : IntValue) (me : MytbfSt) : (returnToken size me).1.Is me := by
  unfold returnToken
  split
  · exact ⟨rfl,rfl,rfl⟩
  · exact cap_is {me with token := store (me.token.val + size.val)}

end LinuxCoding.Mytbf
