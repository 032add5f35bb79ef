import Mathlib.Logic.Function.Basic
import LinuxCoding.Library.Transition

namespace LinuxCoding.Monitor
open Transition

structure Exit (σ ρ : Type) where
  shared : σ
  ret : ρ
  broadcast : Bool

-- Operations of one mutex with one condition variable, in the shape
--   checks; lock; enter; while (waits) cond_wait; leave; unlock.
-- `refuse` is a return before the lock is taken.
structure Sections (σ ω ρ : Type) where
  refuse : ω → Option ρ
  enter : ω → σ → σ
  waits : ω → σ → Bool
  leave : ω → σ → Exit σ ρ

-- A notified thread has left the wait queue and has yet to take the mutex again.
inductive Status (ω : Type) where
  | outside
  | asleep (op : ω)
  | notified (op : ω)
  deriving DecidableEq, Repr

def Status.wake : Status ω → Status ω
  | .asleep op => .notified op
  | status => status

structure Config (τ σ ω : Type) where
  shared : σ
  status : τ → Status ω

inductive Event (τ ω ρ : Type) where
  | refused (t : τ) (op : ω) (ret : ρ)
  | entered (t : τ) (op : ω)
  | slept (t : τ) (op : ω)
  | finished (t : τ) (op : ω) (ret : ρ)
  | woken (t : τ)
  deriving DecidableEq, Repr

section
variable {τ σ ω ρ : Type} [DecidableEq τ]

def initial (shared : σ) : Config τ σ ω := ⟨shared,fun _ => .outside⟩

def Config.put (c : Config τ σ ω) (t : τ) (shared : σ) (status : Status ω) : Config τ σ ω :=
  ⟨shared,Function.update c.status t status⟩

def Config.exit (c : Config τ σ ω) (t : τ) (result : Exit σ ρ) : Config τ σ ω :=
  ⟨result.shared,Function.update (fun u => if result.broadcast then (c.status u).wake else c.status u) t .outside⟩

@[simp] theorem exit_shared (c : Config τ σ ω) (t : τ) (result : Exit σ ρ) :
    (c.exit t result).shared = result.shared := rfl

-- Every critical section is one step, so the mutex is free in every state.
-- A notified thread may find that its condition became true again.
inductive Step (m : Sections σ ω ρ) : Config τ σ ω → List (Event τ ω ρ) → Config τ σ ω → Prop where
  | refuse (t : τ) (op : ω) (ret : ρ) : c.status t = .outside → m.refuse op = some ret →
      Step m c [.refused t op ret] c
  | sleep (t : τ) (op : ω) : c.status t = .outside → m.refuse op = none →
      m.waits op (m.enter op c.shared) = true →
      Step m c [.entered t op,.slept t op] (c.put t (m.enter op c.shared) (.asleep op))
  | pass (t : τ) (op : ω) : c.status t = .outside → m.refuse op = none →
      m.waits op (m.enter op c.shared) = false →
      Step m c [.entered t op,.finished t op (m.leave op (m.enter op c.shared)).ret]
        (c.exit t (m.leave op (m.enter op c.shared)))
  | resleep (t : τ) (op : ω) : c.status t = .notified op → m.waits op c.shared = true →
      Step m c [.slept t op] (c.put t c.shared (.asleep op))
  | resume (t : τ) (op : ω) : c.status t = .notified op → m.waits op c.shared = false →
      Step m c [.finished t op (m.leave op c.shared).ret] (c.exit t (m.leave op c.shared))
  | spurious (t : τ) (op : ω) : c.status t = .asleep op →
      Step m c [.woken t] (c.put t c.shared (.notified op))

-- Only calls that took the lock are ever queued.
def QueuedAdmitted (m : Sections σ ω ρ) (c : Config τ σ ω) : Prop :=
  ∀ t op, c.status t = .asleep op ∨ c.status t = .notified op → m.refuse op = none

theorem put_admitted {m : Sections σ ω ρ} {c : Config τ σ ω} {status : Status ω}
    (old : QueuedAdmitted m c)
    (new : ∀ op, status = .asleep op ∨ status = .notified op → m.refuse op = none) :
    QueuedAdmitted m (c.put t shared status) := by
  intro u op queued
  by_cases same : u = t
  · subst same
    exact new op (by simpa [Config.put] using queued)
  · exact old u op (by simpa [Config.put,same] using queued)

theorem exit_admitted {m : Sections σ ω ρ} {c : Config τ σ ω} {result : Exit σ ρ}
    (old : QueuedAdmitted m c) : QueuedAdmitted m (c.exit t result) := by
  intro u op queued
  by_cases same : u = t
  · simp [Config.exit,same] at queued
  · apply old u op
    cases broadcast : result.broadcast with
    | false => simpa [Config.exit,same,broadcast] using queued
    | true => cases status : c.status u <;> simp [Config.exit,same,broadcast,status,Status.wake] at queued ⊢ <;> exact queued

theorem step_admitted {m : Sections σ ω ρ} {c next : Config τ σ ω} (old : QueuedAdmitted m c)
    (step : Step m c emitted next) : QueuedAdmitted m next := by
  cases step with
  | refuse => exact old
  | sleep t op outside admitted waits =>
    refine put_admitted old ?_
    intro other queued
    obtain rfl : op = other := by simpa using queued
    exact admitted
  | pass => exact exit_admitted old
  | resleep t op notified waits =>
    refine put_admitted old ?_
    intro other queued
    obtain rfl : op = other := by simpa using queued
    exact old t op (.inr notified)
  | resume => exact exit_admitted old
  | spurious t op asleep =>
    refine put_admitted old ?_
    intro other queued
    obtain rfl : op = other := by simpa using queued
    exact old t op (.inl asleep)

theorem step_finished {m : Sections σ ω ρ} {c next : Config τ σ ω} (old : QueuedAdmitted m c)
    (step : Step m c emitted next) (finished : .finished t op ret ∈ emitted) : m.refuse op = none := by
  cases step with
  | pass u other outside admitted passes =>
    obtain ⟨-,rfl,-⟩ : t = u ∧ op = other ∧ _ := by simpa using finished
    exact admitted
  | resume u other notified passes =>
    obtain ⟨-,rfl,-⟩ : t = u ∧ op = other ∧ _ := by simpa using finished
    exact old u op (.inr notified)
  | refuse | sleep | resleep | spurious => simp at finished

-- A call leaves the state that it finds when it need not wait, at once or after a sleep.
theorem step_left {m : Sections σ ω ρ} {c next : Config τ σ ω} (step : Step m c emitted next) (finished : .finished t op ret ∈ emitted) :
    ∃ found, (found = m.enter op c.shared ∨ found = c.shared) ∧ m.waits op found = false ∧
      ret = (m.leave op found).ret ∧ next.shared = (m.leave op found).shared := by
  cases step with
  | pass u other outside admitted passes =>
    obtain ⟨-,rfl,rfl⟩ : t = u ∧ op = other ∧ ret = _ := by simpa using finished
    exact ⟨_,.inl rfl,passes,rfl,rfl⟩
  | resume u other notified passes =>
    obtain ⟨-,rfl,rfl⟩ : t = u ∧ op = other ∧ ret = _ := by simpa using finished
    exact ⟨_,.inr rfl,passes,rfl,rfl⟩
  | refuse | sleep | resleep | spurious => simp at finished

-- So does one that changes nothing before its test.
theorem step_leaves {m : Sections σ ω ρ} {c next : Config τ σ ω} (still : m.enter op c.shared = c.shared) (step : Step m c emitted next)
    (finished : .finished t op ret ∈ emitted) :
    m.waits op c.shared = false ∧ ret = (m.leave op c.shared).ret ∧ next.shared = (m.leave op c.shared).shared := by
  obtain ⟨found,origin,passes,result,left⟩ := step_left step finished
  have same : found = c.shared := by
    rcases origin with entered | asleep
    · exact entered.trans still
    · exact asleep
  subst same
  exact ⟨passes,result,left⟩

theorem step_refused {m : Sections σ ω ρ} {c next : Config τ σ ω} (step : Step m c emitted next)
    (refused : .refused t op ret ∈ emitted) : m.refuse op = some ret := by
  cases step with
  | refuse u other result outside refuses =>
    obtain ⟨-,rfl,rfl⟩ : t = u ∧ op = other ∧ ret = result := by simpa using refused
    exact refuses
  | sleep | pass | resleep | resume | spurious => simp at refused

theorem step_entered {m : Sections σ ω ρ} {c next : Config τ σ ω} (step : Step m c emitted next)
    (entered : .entered t op ∈ emitted) :
    next.shared = m.enter op c.shared ∨ next.shared = (m.leave op (m.enter op c.shared)).shared := by
  cases step with
  | sleep u other outside admitted waits =>
    obtain ⟨-,rfl⟩ : t = u ∧ op = other := by simpa using entered
    exact .inl rfl
  | pass u other outside admitted passes =>
    obtain ⟨-,rfl⟩ : t = u ∧ op = other := by simpa using entered
    exact .inr rfl
  | refuse | resleep | resume | spurious => simp at entered

-- A condition on the shared state in which a call takes the lock.
def EntersWhen (allowed : σ → ω → Prop) (c : Config τ σ ω) (emitted : List (Event τ ω ρ)) : Prop :=
  ∀ t op, .entered t op ∈ emitted → allowed c.shared op

-- What the operations owe to a thread asleep on `other`: whoever changes the
-- shared state so that `other` need not wait any more also broadcasts.
structure Wakes (m : Sections σ ω ρ) (allowed : σ → ω → Prop) : Prop where
  sleeping : ∀ op other s, allowed s op → m.waits other s = true →
    m.waits op (m.enter op s) = true → m.waits other (m.enter op s) = true
  passing : ∀ op other s, allowed s op → m.waits other s = true → m.waits op (m.enter op s) = false →
    (m.leave op (m.enter op s)).broadcast = false → m.waits other (m.leave op (m.enter op s)).shared = true
  resuming : ∀ op other s, m.waits other s = true → m.waits op s = false →
    (m.leave op s).broadcast = false → m.waits other (m.leave op s).shared = true

def SleepersWait (m : Sections σ ω ρ) (c : Config τ σ ω) : Prop :=
  ∀ t op, c.status t = .asleep op → m.waits op c.shared = true

theorem put_sleepers {m : Sections σ ω ρ} {c : Config τ σ ω} {status : Status ω}
    (old : ∀ u other, c.status u = .asleep other → m.waits other shared = true)
    (new : ∀ other, status = .asleep other → m.waits other shared = true) :
    SleepersWait m (c.put t shared status) := by
  intro u other asleep
  by_cases same : u = t
  · subst same
    exact new other (by simpa [Config.put] using asleep)
  · exact old u other (by simpa [Config.put,same] using asleep)

theorem exit_sleepers {m : Sections σ ω ρ} {c : Config τ σ ω} {result : Exit σ ρ}
    (old : result.broadcast = false → ∀ u other, c.status u = .asleep other → m.waits other result.shared = true) :
    SleepersWait m (c.exit t result) := by
  intro u other asleep
  by_cases same : u = t
  · simp [Config.exit,same] at asleep
  · cases broadcast : result.broadcast with
    | false => exact old broadcast u other (by simpa [Config.exit,same,broadcast] using asleep)
    | true =>
      cases status : c.status u <;> simp [Config.exit,same,broadcast,status,Status.wake] at asleep

theorem step_sleepers {m : Sections σ ω ρ} {allowed : σ → ω → Prop} {c next : Config τ σ ω}
    (wakes : Wakes m allowed) (waiting : SleepersWait m c) (step : Step m c emitted next) (enters : EntersWhen allowed c emitted) :
    SleepersWait m next := by
  cases step with
  | refuse => exact waiting
  | sleep t op outside admitted waits =>
    have fits := enters t op (by simp)
    refine put_sleepers (fun u other asleep => wakes.sleeping _ _ _ fits (waiting u other asleep) waits) ?_
    rintro other ⟨⟩
    exact waits
  | pass t op outside admitted passes =>
    have fits := enters t op (by simp)
    exact exit_sleepers (fun quiet u other asleep =>
      wakes.passing _ _ _ fits (waiting u other asleep) passes quiet)
  | resleep t op notified waits =>
    refine put_sleepers waiting ?_
    rintro other ⟨⟩
    exact waits
  | resume t op notified passes =>
    exact exit_sleepers (fun quiet u other asleep => wakes.resuming _ _ _ (waiting u other asleep) passes quiet)
  | spurious t op asleep => exact put_sleepers waiting (by simp)

-- No wakeup is lost: a thread that is asleep with no notification pending still
-- has to wait.
theorem runs_sleepers {m : Sections σ ω ρ} {allowed : σ → ω → Prop} (wakes : Wakes m allowed)
    (run : Runs (Where (Step m) (EntersWhen allowed)) (initial shared : Config τ σ ω) log c) : SleepersWait m c := by
  refine run.stateInvariant ?_ (by simp [SleepersWait,initial])
  exact fun _ _ _ waiting taken => step_sleepers wakes waiting taken.1 taken.2

end
end LinuxCoding.Monitor
