import LinuxCoding.Library.Total
import LinuxCoding.Library.Transition

-- Critical sections under one mutex with several condition variables, in the shape
--   lock; while (waits) cond_wait; leave; unlock
-- where a section may signal or broadcast a condition variable before it unlocks.
namespace LinuxCoding.Signals
open Total Transition

inductive Notice (κ : Type) where
  | silent
  | signal (k : κ)
  | broadcast (k : κ)
  deriving DecidableEq

structure Exit (σ ρ κ : Type) where
  shared : σ
  ret : ρ
  notice : Notice κ

-- `cond` is the condition variable in the loop of an operation that has one.
structure Sections (σ ω ρ κ : Type) where
  cond : ω → κ
  waits : ω → σ → Bool
  leave : ω → σ → Exit σ ρ κ

-- A notified thread has left the wait queue and has yet to take the mutex again; a
-- roused one has too, but nobody notified it.
inductive Status (ω : Type) where
  | outside
  | asleep (op : ω)
  | notified (op : ω)
  | roused (op : ω)
  deriving DecidableEq

structure Config (τ σ ω : Type) where
  shared : σ
  status : τ → Status ω

inductive Outcome (ρ : Type) where
  | slept
  | roused
  | returned (ret : ρ)
  deriving DecidableEq

structure Event (τ ω ρ : Type) where
  thread : τ
  op : ω
  outcome : Outcome ρ
  deriving DecidableEq

-- A thread that can run the test of the loop of `op`: it calls, or it waited.
def Status.Ready (op : ω) : Status ω → Prop
  | .outside => True
  | .asleep _ => False
  | .notified other => other = op
  | .roused other => other = op

section
variable {τ σ ω ρ κ : Type} [DecidableEq κ]

def Status.wake (cond : ω → κ) (k : κ) : Status ω → Status ω
  | .asleep op => if cond op = k then .notified op else .asleep op
  | status => status

def Status.notifiedOn (cond : ω → κ) (k : κ) : Status ω → Bool
  | .notified op => cond op = k
  | _ => false

-- The waiters of k a notice wakes, if any are asleep and it is no broadcast.
def Notice.gain (k : κ) (notice : Notice κ) : Nat := if notice = .signal k then 1 else 0

def initial (shared : σ) : Config τ σ ω := ⟨shared,fun _ => .outside⟩

variable [DecidableEq τ]

def Config.put (c : Config τ σ ω) (t : τ) (status : Status ω) : Config τ σ ω :=
  ⟨c.shared,Function.update c.status t status⟩

-- A signal wakes one of the threads asleep on its condition variable, if there is one.
inductive Notified (cond : ω → κ) : Notice κ → (τ → Status ω) → (τ → Status ω) → Prop where
  | silent : Notified cond .silent status status
  | signal (t : τ) (op : ω) : status t = .asleep op →
      Notified cond (.signal (cond op)) status (Function.update status t (.notified op))
  | unheard (k : κ) : (∀ t op, status t = .asleep op → cond op ≠ k) → Notified cond (.signal k) status status
  | broadcast (k : κ) : Notified cond (.broadcast k) status (fun t => (status t).wake cond k)

-- Every critical section is one step, so the mutex is free in every state.
inductive Step (m : Sections σ ω ρ κ) : Config τ σ ω → List (Event τ ω ρ) → Config τ σ ω → Prop where
  | sleep (t : τ) (op : ω) : (c.status t).Ready op → m.waits op c.shared = true →
      Step m c [⟨t,op,.slept⟩] (c.put t (.asleep op))
  | leave (t : τ) (op : ω) : (c.status t).Ready op → m.waits op c.shared = false →
      Notified m.cond (m.leave op c.shared).notice (Function.update c.status t .outside) status →
      Step m c [⟨t,op,.returned (m.leave op c.shared).ret⟩] ⟨(m.leave op c.shared).shared,status⟩
  | rouse (t : τ) (op : ω) : c.status t = .asleep op → Step m c [⟨t,op,.roused⟩] (c.put t (.roused op))

theorem Notified.unasked {cond : ω → κ} {status : τ → Status ω} (notice : Notice κ)
    (none : ∀ t op, status t ≠ .asleep op) : Notified cond notice status status := by
  cases notice with
  | silent => exact .silent
  | signal k => exact .unheard k (fun t op asleep => absurd asleep (none t op))
  | broadcast k =>
    have same : (fun t => (status t).wake cond k) = status := by
      funext t
      cases queued : status t with
      | asleep op => exact absurd queued (none t op)
      | outside | notified | roused => rfl
    have told : Notified cond (.broadcast k) status (fun t => (status t).wake cond k) := .broadcast k
    rwa [same] at told

theorem Notified.reaches (cond : ω → κ) (notice : Notice κ) (before : τ → Status ω) : ∃ after, Notified cond notice before after := by
  cases notice with
  | silent => exact ⟨before,.silent⟩
  | broadcast k => exact ⟨_,.broadcast k⟩
  | signal k =>
    by_cases waiter : ∃ t op, before t = .asleep op ∧ cond op = k
    · obtain ⟨t,op,asleep,rfl⟩ := waiter
      exact ⟨_,.signal t op asleep⟩
    · exact ⟨before,.unheard k (fun t op asleep on => waiter ⟨t,op,asleep,on⟩)⟩

theorem Step.leaves {m : Sections σ ω ρ κ} {c : Config τ σ ω} (t : τ) (op : ω) (ready : (c.status t).Ready op)
    (passes : m.waits op c.shared = false) : ∃ status,
    Step m c [⟨t,op,.returned (m.leave op c.shared).ret⟩] ⟨(m.leave op c.shared).shared,status⟩ := by
  obtain ⟨status,notified⟩ := Notified.reaches m.cond (m.leave op c.shared).notice (Function.update c.status t .outside)
  exact ⟨status,.leave t op ready passes notified⟩

-- A call while every thread is outside.
theorem Step.unheard {m : Sections σ ω ρ κ} {c : Config τ σ ω} (t : τ) (op : ω) (calm : ∀ u, c.status u = .outside)
    (passes : m.waits op c.shared = false) :
    Step m c [⟨t,op,.returned (m.leave op c.shared).ret⟩] ⟨(m.leave op c.shared).shared,c.status⟩ := by
  have same : Function.update c.status t .outside = c.status := by
    rw [← calm t]
    exact Function.update_eq_self t _
  refine .leave t op (by rw [calm t]; trivial) passes ?_
  rw [same]
  exact .unasked _ (by simp [calm])

theorem Step.alone {m : Sections σ ω ρ κ} {shared : σ} (t : τ) (op : ω) (passes : m.waits op shared = false) :
    Step m (initial shared) [⟨t,op,.returned (m.leave op shared).ret⟩] (initial (m.leave op shared).shared) :=
  .unheard (c := initial shared) t op (fun _ => rfl) passes

-- The call that a thread waits in or has waited in.
def Status.pending : Status ω → Option ω
  | .outside => none
  | .asleep op => some op
  | .notified op => some op
  | .roused op => some op

omit [DecidableEq τ] in
theorem wake_pending (cond : ω → κ) (k : κ) (status : Status ω) : (status.wake cond k).pending = status.pending := by
  cases status with
  | asleep op =>
    simp only [Status.wake]
    split <;> rfl
  | outside | notified | roused => rfl

theorem notified_pending {cond : ω → κ} {before after : τ → Status ω} (notified : Notified cond notice before after) (t : τ) :
    (after t).pending = (before t).pending := by
  cases notified with
  | silent | unheard => rfl
  | signal u op asleep =>
    by_cases same : t = u
    · subst same
      simp [asleep,Status.pending]
    · rw [Function.update_of_ne same]
  | broadcast k => exact wake_pending cond k (before t)

-- A step changes no other thread's call, and its own is over or as it was.
theorem step_pending {m : Sections σ ω ρ κ} {c after : Config τ σ ω} (step : Step m c [⟨t,op,outcome⟩] after) :
    (∀ u, u ≠ t → (after.status u).pending = (c.status u).pending) ∧
    ((after.status t).pending = none ∨ (after.status t).pending = some op ∧ ∀ ret, outcome ≠ .returned ret) := by
  cases step with
  | sleep | rouse =>
    refine ⟨fun u apart => ?_,.inr ⟨?_,nofun⟩⟩
    · simp [Config.put,apart]
    · simp [Config.put,Status.pending]
  | leave _ _ ready passes notified =>
    refine ⟨fun u apart => ?_,.inl ?_⟩
    · rw [notified_pending notified,Function.update_of_ne apart]
    · rw [notified_pending notified,Function.update_self]
      rfl

-- What the sections owe to the sleepers of a condition variable: `supply` is what it
-- stands for. Nobody sleeps while there is some, a section adds at most one unit and
-- then signals unless it broadcasts, and who may have waited takes a unit if there is one.
structure Supplies (m : Sections σ ω ρ κ) (sound : σ → Prop) (k : κ) (supply : σ → Int) : Prop where
  sleeping : ∀ op s, sound s → m.cond op = k → m.waits op s = true → supply s ≤ 0
  leaving : ∀ op s, sound s → m.waits op s = false → (m.leave op s).notice ≠ .broadcast k →
    supply (m.leave op s).shared ≤ supply s + (m.leave op s).notice.gain k
  resuming : ∀ op s, sound s → m.cond op = k → m.waits op s = false → (m.leave op s).notice ≠ .broadcast k →
    supply (m.leave op s).shared ≤ 0 ∨
      supply (m.leave op s).shared + 1 ≤ supply s + (m.leave op s).notice.gain k

variable [Fintype τ]

-- The notified waiters of a condition variable that have yet to take the mutex.
def waking (cond : ω → κ) (k : κ) (status : τ → Status ω) : Nat := tally (Status.notifiedOn cond k) status

-- Nothing is left over for an un-notified sleeper: every unit has a notified waiter.
def Supplied (m : Sections σ ω ρ κ) (k : κ) (supply : σ → Int) (c : Config τ σ ω) : Prop :=
  ∀ t op, c.status t = .asleep op → m.cond op = k → supply c.shared ≤ waking m.cond k c.status

-- Where there is some for a sleeper, a notified waiter is about to take it.
omit [DecidableEq τ] in
theorem Supplied.notified {m : Sections σ ω ρ κ} {supply : σ → Int} {c : Config τ σ ω} (supplied : Supplied m k supply c)
    (asleep : c.status t = .asleep op) (on : m.cond op = k) (more : 0 < supply c.shared) :
    ∃ u other, c.status u = .notified other ∧ m.cond other = k := by
  have enough := supplied t op asleep on
  obtain ⟨u,counted⟩ := @tally_found τ _ _ (Status.notifiedOn m.cond k) c.status (by simp only [waking] at enough; omega)
  cases status : c.status u with
  | notified other => exact ⟨u,other,status,by simpa [status,Status.notifiedOn] using counted⟩
  | outside | asleep | roused => simp [status,Status.notifiedOn] at counted

theorem waking_put (cond : ω → κ) (k : κ) (status : τ → Status ω) (t : τ) (new : Status ω) :
    waking cond k (Function.update status t new) + ((status t).notifiedOn cond k).toNat =
      waking cond k status + (new.notifiedOn cond k).toNat := tally_update ..

omit [DecidableEq τ] in
theorem waking_wake (cond : ω → κ) (other : κ) (status : τ → Status ω) (apart : other ≠ k) :
    waking cond k (fun t => (status t).wake cond other) = waking cond k status := by
  have same : ∀ t, ((status t).wake cond other).notifiedOn cond k = (status t).notifiedOn cond k := by
    intro t
    cases status t with
    | asleep op =>
      by_cases woken : cond op = other
      · simp [Status.wake,Status.notifiedOn,woken,apart]
      · simp [Status.wake,Status.notifiedOn,woken]
    | outside | notified | roused => rfl
  simp only [waking,tally,total,same]

-- A thread still asleep after a notice was asleep before it, and a signal to its
-- condition variable woke another.
theorem notified_asleep {cond : ω → κ} {before after : τ → Status ω} (notified : Notified cond notice before after)
    (asleep : after t = .asleep op) :
    before t = .asleep op ∧ notice ≠ .broadcast (cond op) ∧
      waking cond (cond op) after = waking cond (cond op) before + notice.gain (cond op) := by
  cases notified with
  | silent => exact ⟨asleep,by simp,by simp [Notice.gain]⟩
  | signal u queued woken =>
    have apart : t ≠ u := by
      intro same
      simp [same] at asleep
    have count := waking_put cond (cond op) before u (.notified queued)
    rw [Function.update_of_ne apart] at asleep
    refine ⟨asleep,by simp,?_⟩
    simp only [woken,Status.notifiedOn,Bool.toNat_false,Nat.add_zero] at count
    by_cases same : cond queued = cond op
    · simp only [same,decide_true,Bool.toNat_true] at count
      simpa [same,Notice.gain] using count
    · simp only [same,decide_false,Bool.toNat_false] at count
      simpa [same,Notice.gain] using count
  | unheard k none =>
    have other : k ≠ cond op := fun same => none t op asleep same.symm
    exact ⟨asleep,by simp,by simp [other,Notice.gain]⟩
  | broadcast k =>
    cases queued : before t with
    | asleep op' =>
      simp only [queued,Status.wake] at asleep
      split at asleep
      · cases asleep
      · rename_i apart
        cases asleep
        have other : k ≠ cond op := Ne.symm apart
        exact ⟨rfl,by simp [other],by simp [waking_wake cond k before other,Notice.gain]⟩
    | outside | notified | roused => simp [queued,Status.wake] at asleep

omit [Fintype τ] in
theorem update_asleep {status : τ → Status ω} (asleep : Function.update status t new u = .asleep op) :
    u = t ∧ new = .asleep op ∨ u ≠ t ∧ status u = .asleep op := by
  by_cases same : u = t
  · subst same
    rw [Function.update_self] at asleep
    exact .inl ⟨rfl,asleep⟩
  · rw [Function.update_of_ne same] at asleep
    exact .inr ⟨same,asleep⟩

-- Who sleeps after a step slept before it, or has just gone to sleep.
theorem step_asleep {m : Sections σ ω ρ κ} {c after : Config τ σ ω} (step : Step m c [⟨t,op,outcome⟩] after)
    (asleep : after.status u = .asleep other) :
    c.status u = .asleep other ∨ u = t ∧ other = op ∧ m.waits op c.shared = true := by
  cases step with
  | sleep _ _ ready waits =>
    rcases update_asleep asleep with ⟨here,own⟩ | ⟨-,before⟩
    · exact .inr ⟨here,(Status.asleep.inj own).symm,waits⟩
    · exact .inl before
  | rouse _ _ queued =>
    rcases update_asleep asleep with ⟨-,own⟩ | ⟨-,before⟩
    · cases own
    · exact .inl before
  | leave _ _ ready passes notified =>
    obtain ⟨still,-,-⟩ := notified_asleep notified asleep
    rcases update_asleep still with ⟨-,own⟩ | ⟨-,before⟩
    · cases own
    · exact .inl before

theorem ready_notified {cond : ω → κ} {status : Status ω} (ready : status.Ready op) (counted : status.notifiedOn cond k = true) : cond op = k := by
  cases status with
  | notified old =>
    cases ready
    simpa [Status.notifiedOn] using counted
  | outside | asleep | roused => cases counted

theorem waking_same {cond : ω → κ} {status : τ → Status ω} (before : (status t).notifiedOn cond k = false)
    (after : new.notifiedOn cond k = false) : waking cond k (Function.update status t new) = waking cond k status := by
  have count := waking_put cond k status t new
  rw [before,after] at count
  simpa using count

theorem step_supplied {m : Sections σ ω ρ κ} {supply : σ → Int} {c next : Config τ σ ω}
    (supplies : Supplies m sound k supply) (holds : sound c.shared) (supplied : Supplied m k supply c)
    (step : Step m c emitted next) : Supplied m k supply next := by
  cases step with
  | sleep t op ready waits =>
    intro u other asleep on
    change supply c.shared ≤ (waking m.cond k (Function.update c.status t (.asleep op)) : Int)
    by_cases same : m.cond op = k
    · have none := supplies.sleeping op c.shared holds same waits
      omega
    · have unnotified : (c.status t).notifiedOn m.cond k = false :=
        Bool.eq_false_iff.mpr (fun counted => same (ready_notified ready counted))
      rw [waking_same unnotified rfl]
      rcases update_asleep asleep with ⟨-,own⟩ | ⟨-,before⟩
      · cases own
        exact absurd on same
      · exact supplied u other before on
  | leave t op ready passes notified =>
    rename_i status
    intro u other asleep on
    change supply (m.leave op c.shared).shared ≤ (waking m.cond k status : Int)
    obtain ⟨still,loud,woken⟩ := notified_asleep notified asleep
    rw [on] at loud woken
    have leaving := supplies.leaving op c.shared holds passes loud
    rcases update_asleep still with ⟨-,own⟩ | ⟨-,before⟩
    · cases own
    · have bound := supplied u other before on
      cases counted : (c.status t).notifiedOn m.cond k with
      | true =>
        -- The leaving thread was one of the notified, and what it was notified of it takes.
        have resuming := supplies.resuming op c.shared holds (ready_notified ready counted) passes loud
        have count := waking_put m.cond k c.status t .outside
        rw [counted] at count
        simp only [Status.notifiedOn,Bool.toNat_true,Bool.toNat_false] at count
        omega
      | false =>
        rw [waking_same counted rfl] at woken
        omega
  | rouse t op queued =>
    intro u other asleep on
    change supply c.shared ≤ (waking m.cond k (Function.update c.status t (.roused op)) : Int)
    rw [waking_same (by rw [queued]; rfl) rfl]
    rcases update_asleep asleep with ⟨-,own⟩ | ⟨-,before⟩
    · cases own
    · exact supplied u other before on

theorem run_supplied {m : Sections σ ω ρ κ} {supply : σ → Int} {shared : σ} {c : Config τ σ ω}
    (supplies : Supplies m (fun _ => True) k supply) (run : Runs (Step m) (initial shared) log c) : Supplied m k supply c :=
  run.stateInvariant (fun _ _ _ supplied step => step_supplied supplies trivial supplied step) (by simp [Supplied,initial])

end
end LinuxCoding.Signals
