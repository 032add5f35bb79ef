import LinuxCoding.Library.CInt
import LinuxCoding.Library.Mutex
import LinuxCoding.Library.Transition

-- thread/posix/mytbf_multithread/primer_pool_notice.c: main hands the numbers from LEFT to
-- RIGHT through one int to its workers, one step a statement under their mutex.
namespace LinuxCoding.PrimePool
open CInt Mutex Transition

-- The loop of main: its test, before its lock, at the test of num, in pthread_cond_wait
-- without and with a wakeup, before its signal, before its unlock. After it: before the lock,
-- at the test of num, before the broadcast, before the unlock, in pthread_join.
inductive MainPlace where
  | forTest (i : Int)
  | locking (i : Int)
  | testing (i : Int)
  | asleep (i : Int)
  | notified (i : Int)
  | signaling (i : Int)
  | posted (i : Int)
  | lockingEnd
  | testingEnd
  | broadcasting
  | closing
  | joining
  | exited

-- A worker leaves when it finds -1, and otherwise tests the number it has taken.
inductive WorkerPlace where
  | locking
  | testing
  | asleep
  | notified
  | broadcasting (i : Int)
  | unlocking (i : Int)
  | computing (i : Int)
  | leaving
  | exited

def MainPlace.holds : MainPlace → Bool
  | .testing _ => true
  | .signaling _ => true
  | .posted _ => true
  | .testingEnd => true
  | .broadcasting => true
  | .closing => true
  | _ => false

def WorkerPlace.holds : WorkerPlace → Bool
  | .testing => true
  | .broadcasting _ => true
  | .unlocking _ => true
  | .leaving => true
  | _ => false

def MainPlace.wake : MainPlace → MainPlace
  | .asleep i => .notified i
  | place => place

def WorkerPlace.wake : WorkerPlace → WorkerPlace
  | .asleep => .notified
  | place => place

-- Thread none is main.
structure State (n : Nat) where
  num : Int
  owner : Option (Option (Fin n))
  main : MainPlace
  worker : Fin n → WorkerPlace

inductive Event (n : Nat) where
  | stirred
  | taken (w : Fin n) (i : Int)
  | printed (w : Fin n) (i : Int)

-- for(j = 2;j <= i/2;j++) if(i % j == 0) mark = 0
def mark (i : Int) : Bool := (List.range' 2 (i.toNat / 2 - 1)).all fun j => i.toNat % j != 0

section
variable {n : Nat}

def State.goMain (s : State n) (place : MainPlace) : State n := {s with main := place}
def State.goto (s : State n) (w : Fin n) (place : WorkerPlace) : State n := {s with worker := Function.update s.worker w place}
def State.wakeAll (s : State n) : State n := {s with main := s.main.wake,worker := fun w => (s.worker w).wake}

def start (left : Int) : State n := ⟨0,none,.forTest left,fun _ => .locking⟩

-- All workers have been created. pthread_cond_signal wakes one waiter, and any waiter may
-- wake up by itself; the pthread_join calls are one step.
inductive Step (right : Int) : State n → List (Event n) → State n → Prop where
  | enters (i : Int) : s.main = .forTest i → i ≤ right → Step right s [] (s.goMain (.locking i))
  | ends (i : Int) : s.main = .forTest i → right < i → Step right s [] (s.goMain .lockingEnd)
  | locks (i : Int) : s.main = .locking i ∨ s.main = .notified i → s.owner = none →
      Step right s [] {s.goMain (.testing i) with owner := some none}
  | waits (i : Int) : s.main = .testing i → s.num ≠ 0 → Step right s [] {s.goMain (.asleep i) with owner := none}
  | stirs (i : Int) : s.main = .asleep i → Step right s [.stirred] (s.goMain (.notified i))
  | posts (i : Int) : s.main = .testing i → s.num = 0 → Step right s [] {s.goMain (.signaling i) with num := i}
  | signals (i : Int) (w : Fin n) : s.main = .signaling i → s.worker w = .asleep →
      Step right s [] ((s.goto w .notified).goMain (.posted i))
  | signalsNobody (i : Int) : s.main = .signaling i → (∀ w, s.worker w ≠ .asleep) → Step right s [] (s.goMain (.posted i))
  | unlocks (i : Int) : s.main = .posted i → Step right s [] {s.goMain (.forTest (toInt (i + 1))) with owner := none}
  | locksEnd : s.main = .lockingEnd → s.owner = none → Step right s [] {s.goMain .testingEnd with owner := some none}
  | yields : s.main = .testingEnd → s.num ≠ 0 → Step right s [] {s.goMain .lockingEnd with owner := none}
  | closes : s.main = .testingEnd → s.num = 0 → Step right s [] {s.goMain .broadcasting with num := -1}
  | broadcasts : s.main = .broadcasting → Step right s [] (s.wakeAll.goMain .closing)
  | unlocksEnd : s.main = .closing → Step right s [] {s.goMain .joining with owner := none}
  | joins : s.main = .joining → (∀ w, s.worker w = .exited) → Step right s [] (s.goMain .exited)
  | workerLocks (w : Fin n) : s.worker w = .locking ∨ s.worker w = .notified → s.owner = none →
      Step right s [] {s.goto w .testing with owner := some (some w)}
  | workerWaits (w : Fin n) : s.worker w = .testing → s.num = 0 → Step right s [] {s.goto w .asleep with owner := none}
  | workerStirs (w : Fin n) : s.worker w = .asleep → Step right s [.stirred] (s.goto w .notified)
  | leaves (w : Fin n) : s.worker w = .testing → s.num = -1 → Step right s [] (s.goto w .leaving)
  | takes (w : Fin n) : s.worker w = .testing → s.num ≠ 0 → s.num ≠ -1 →
      Step right s [.taken w s.num] {s.goto w (.broadcasting s.num) with num := 0}
  | workerBroadcasts (w : Fin n) (i : Int) : s.worker w = .broadcasting i → Step right s [] (s.wakeAll.goto w (.unlocking i))
  | workerUnlocks (w : Fin n) (i : Int) : s.worker w = .unlocking i → Step right s [] {s.goto w (.computing i) with owner := none}
  | prints (w : Fin n) (i : Int) : s.worker w = .computing i →
      Step right s (if mark i then [.printed w i] else []) (s.goto w .locking)
  | exits (w : Fin n) : s.worker w = .leaving → Step right s [] {s.goto w .exited with owner := none}

-- Who is in a critical section.
def places (main : MainPlace) (worker : Fin n → WorkerPlace) : Option (Fin n) → MainPlace ⊕ WorkerPlace
  | none => .inl main
  | some w => .inr (worker w)

def Locked (s : State n) : Prop := Owned (Sum.elim MainPlace.holds WorkerPlace.holds) s.owner (places s.main s.worker)

theorem places_main (s : State n) (place : MainPlace) :
    places (s.goMain place).main (s.goMain place).worker = Function.update (places s.main s.worker) none (.inl place) := by
  funext t
  cases t with
  | none => rw [Function.update_self]; rfl
  | some w => rw [Function.update_of_ne (Option.some_ne_none w)]; rfl

theorem places_worker (s : State n) (w : Fin n) (place : WorkerPlace) :
    places (s.goto w place).main (s.goto w place).worker = Function.update (places s.main s.worker) (some w) (.inr place) := by
  funext t
  cases t with
  | none => rw [Function.update_of_ne (Option.some_ne_none w).symm]; rfl
  | some u =>
    by_cases same : u = w
    · subst same
      rw [Function.update_self]
      exact congrArg Sum.inr (Function.update_self ..)
    · rw [Function.update_of_ne (fun equal => same (Option.some.inj equal))]
      exact congrArg Sum.inr (Function.update_of_ne same ..)

theorem Locked.goMain {s : State n} (locked : Locked s) (same : place.holds = s.main.holds) : Locked (s.goMain place) := by
  rw [Locked,places_main]
  exact owned_stay locked rfl same

theorem Locked.goto {s : State n} (locked : Locked s) (same : place.holds = (s.worker w).holds) : Locked (s.goto w place) := by
  rw [Locked,places_worker]
  exact owned_stay locked rfl same

theorem Locked.mainTakes {s : State n} (locked : Locked s) (free : s.owner = none) (held : place.holds = true) :
    Locked {s.goMain place with owner := some none} := by
  change Owned _ _ (places (s.goMain place).main (s.goMain place).worker)
  rw [places_main]
  exact owned_take locked free held

theorem Locked.workerTakes {s : State n} (locked : Locked s) (free : s.owner = none) (held : place.holds = true) :
    Locked {s.goto w place with owner := some (some w)} := by
  change Owned _ _ (places (s.goto w place).main (s.goto w place).worker)
  rw [places_worker]
  exact owned_take locked free held

theorem Locked.mainDrops {s : State n} (locked : Locked s) (held : s.main.holds = true) (released : place.holds = false) :
    Locked {s.goMain place with owner := none} := by
  change Owned _ _ (places (s.goMain place).main (s.goMain place).worker)
  rw [places_main]
  exact owned_drop locked rfl held released

theorem Locked.workerDrops {s : State n} (locked : Locked s) (held : (s.worker w).holds = true) (released : place.holds = false) :
    Locked {s.goto w place with owner := none} := by
  change Owned _ _ (places (s.goto w place).main (s.goto w place).worker)
  rw [places_worker]
  exact owned_drop locked rfl held released

theorem wake_holds (place : WorkerPlace) : place.wake.holds = place.holds := by
  cases place <;> rfl

theorem wake_holdsMain (place : MainPlace) : place.wake.holds = place.holds := by
  cases place <;> rfl

theorem Locked.wakeAll {s : State n} (locked : Locked s) : Locked s.wakeAll := by
  have woken : places s.wakeAll.main s.wakeAll.worker = fun t => (places s.main s.worker t).map MainPlace.wake WorkerPlace.wake := by
    funext t
    cases t <;> rfl
  rw [Locked,woken]
  refine owned_map locked _ ?_
  intro place
  cases place with
  | inl place => exact wake_holdsMain place
  | inr place => exact wake_holds place

theorem step_locked {s u : State n} (locked : Locked s) (step : Step right s emitted u) : Locked u := by
  cases step with
  | enters _ here | ends _ here | stirs _ here | posts _ here | signalsNobody _ here | closes here | joins here =>
    exact locked.goMain (by rw [here]; rfl)
  | locks _ here free | locksEnd here free => exact locked.mainTakes free rfl
  | waits _ here | unlocks _ here | yields here | unlocksEnd here => exact locked.mainDrops (by rw [here]; rfl) rfl
  | signals i w here asleep =>
    have told : Locked (s.goto w .notified) := locked.goto (by rw [asleep]; rfl)
    exact told.goMain (by change _ = s.main.holds; rw [here]; rfl)
  | broadcasts here => exact locked.wakeAll.goMain (by change _ = s.main.wake.holds; rw [here]; rfl)
  | workerLocks w here free => exact locked.workerTakes free rfl
  | workerStirs w here | leaves w here | takes w here | prints w _ here => exact locked.goto (by rw [here]; rfl)
  | workerWaits w here | workerUnlocks w _ here | exits w here => exact locked.workerDrops (by rw [here]; rfl) rfl
  | workerBroadcasts w _ here => exact locked.wakeAll.goto (by change _ = (s.worker w).wake.holds; rw [here]; rfl)

theorem start_locked (left : Int) : Locked (start left : State n) := by
  intro t
  cases t with
  | none => constructor <;> nofun
  | some w => constructor <;> nofun

end

end LinuxCoding.PrimePool
