import LinuxCoding.Library.Locks
import LinuxCoding.Mytbf.Table

-- thread/posix/mytbf_multithread/mytbf.c with its threads: one step from each lock or
-- unlock to the next.
namespace LinuxCoding.Mytbf.Threads
open CInt Locks Slots Transition

inductive Agent (τ : Type) where
  | alarm
  | caller (t : τ)
  deriving DecidableEq

inductive Mutex where
  | job
  | bucket (ptr : Ptr)
  deriving DecidableEq

-- What may be done with a bucket, and by whom; no code reads it. `leaving` is passed to
-- mytbf_destroy and still in the table, `unlinked` is out of it and not yet freed.
inductive Role (τ : Type) where
  | fresh
  | building (t : τ)
  | usable
  | leaving (t : τ)
  | unlinked (t : τ)

inductive AlarmPc where
  | off
  | top
  | scanning (i : Nat)
  | locking (i : Slot)
  | inside (i : Slot) (ptr : Ptr)
  | sleeping
  | crashed
  deriving DecidableEq

-- Where a caller is; the states in -ing are before a lock, and `crashed` is a use of
-- memory that was freed.
inductive Pc where
  | idle
  | entered (cps burst : IntValue)
  | initing (ptr : Ptr)
  | inited (ptr : Ptr)
  | fetching (ptr : Ptr) (size : IntValue)
  | fetched (ptr : Ptr) (size : IntValue)
  | asleep (ptr : Ptr) (size : IntValue)
  | returning (ptr : Ptr) (size : IntValue)
  | returned (ptr : Ptr) (size : IntValue)
  | destroying (ptr : Ptr)
  | removing (ptr : Ptr)
  | freeing (ptr : Ptr)
  | crashed
  deriving DecidableEq

def Pc.wants : Pc → Option Mutex
  | .initing _ => some .job
  | .destroying _ => some .job
  | .fetching ptr _ => some (.bucket ptr)
  | .returning ptr _ => some (.bucket ptr)
  | _ => none

def Pc.holds : Pc → Option Mutex
  | .inited _ => some .job
  | .removing _ => some .job
  | .fetched ptr _ => some (.bucket ptr)
  | .returned ptr _ => some (.bucket ptr)
  | _ => none

def Pc.locked : Pc → Pc
  | .initing ptr => .inited ptr
  | .destroying ptr => .removing ptr
  | .fetching ptr size => .fetched ptr size
  | .returning ptr size => .returned ptr size
  | pc => pc

-- The bucket a call is about.
def Pc.ptr : Pc → Option Ptr
  | .initing ptr => some ptr
  | .inited ptr => some ptr
  | .fetching ptr _ => some ptr
  | .fetched ptr _ => some ptr
  | .asleep ptr _ => some ptr
  | .returning ptr _ => some ptr
  | .returned ptr _ => some ptr
  | .destroying ptr => some ptr
  | .removing ptr => some ptr
  | .freeing ptr => some ptr
  | _ => none

-- pthread_cond_broadcast: the waiters go on to take the mutex again.
def Pc.wake (ptr : Ptr) : Pc → Pc
  | .asleep other size => if other = ptr then .fetching other size else .asleep other size
  | pc => pc

def AlarmPc.wants (job : Slot → Option Ptr) : AlarmPc → Option Mutex
  | .top => some .job
  | .locking i => (job i).map .bucket
  | _ => none

def AlarmPc.Holds (m : Mutex) : AlarmPc → Prop
  | .scanning _ => m = .job
  | .locking _ => m = .job
  | .inside _ ptr => m = .job ∨ m = .bucket ptr
  | _ => False

structure State (τ : Type) where
  memory : Buckets
  owner : Mutex → Option (Agent τ)
  alarm : AlarmPc
  pc : τ → Pc
  role : Ptr → Role τ

inductive Event where
  | began
  | refilled (ptr : Ptr)
  | ended
  | inited (ret : Option Ptr)
  | fetched (ptr : Ptr) (size : IntValue) (ret : Int)
  | gaveBack (ptr : Ptr) (size : IntValue) (ret : Int)
  | destroyed (ptr : Ptr)
  deriving DecidableEq

def start : State τ := ⟨noBuckets,fun _ => none,.off,fun _ => .idle,fun _ => .fresh⟩

section
variable {τ : Type}

def State.at (s : State τ) (alarm : AlarmPc) : State τ := {s with alarm := alarm}
def State.become (s : State τ) (ptr : Ptr) (role : Role τ) : State τ := {s with role := Function.update s.role ptr role}
def State.lock (s : State τ) (m : Mutex) (a : Agent τ) : State τ := {s with owner := Function.update s.owner m (some a)}
def State.unlock (s : State τ) (m : Mutex) : State τ := {s with owner := Function.update s.owner m none}
def State.broadcast (s : State τ) (ptr : Ptr) : State τ := {s with pc := fun t => (s.pc t).wake ptr}
def State.write (s : State τ) (ptr : Ptr) (me : MytbfSt) : State τ := {s with memory := s.memory.write ptr me}
def State.release (s : State τ) (ptr : Ptr) : State τ := {s with memory := {s.memory with heap := Function.update s.memory.heap ptr none}}
def State.setJob (s : State τ) (i : Slot) (entry : Option Ptr) : State τ :=
  {s with memory := {s.memory with job := Function.update s.memory.job i entry}}

-- pthread_once: the first mytbf_init creates the thread of thr_alarm.
def AlarmPc.created : AlarmPc → AlarmPc
  | .off => .top
  | alarm => alarm

-- The tests of the loop of thr_alarm.
def scan (i : Nat) (s : State τ) : State τ × List Event :=
  if bound : i < mytbfMax then
    match s.memory.job ⟨i,bound⟩ with
    | none => (s.at (.scanning (i + 1)),[])
    | some _ => (s.at (.locking ⟨i,bound⟩),[])
  else ((s.unlock .job).at .sleeping,[.ended])

-- The body, with the mutex of the bucket held.
def refill (i : Slot) (s : State τ) : State τ × List Event :=
  match s.memory.job i with
  | none => (s.at .crashed,[])
  | some ptr =>
    match s.memory.heap ptr with
    | none => (s.at .crashed,[])
    | some me => ((((s.write ptr me.refill).broadcast ptr).unlock (.bucket ptr)).at (.scanning (i + 1)),[.refilled ptr])

variable [DecidableEq τ]

def State.goto (s : State τ) (t : τ) (pc : Pc) : State τ := {s with pc := Function.update s.pc t pc}

-- malloc and the stores before the first lock; pos is what malloc left there.
def malloc (t : τ) (cps burst : IntValue) (memory : Option Ptr) (garbage : Slot) (s : State τ) : State τ × List Event :=
  match memory with
  | none => (s.goto t .idle,[.inited none])
  | some ptr => (((s.write ptr (newBucket cps burst garbage)).become ptr (.building t)).goto t (.initing ptr),[])

def place (t : τ) (ptr : Ptr) (s : State τ) : State τ × List Event :=
  match getFreePos s.memory with
  | none => ((((s.unlock .job).release ptr).become ptr .fresh).goto t .idle,[.inited none])
  | some pos =>
    match s.memory.heap ptr with
    | none => (s.goto t .crashed,[])
    | some me =>
      (((((s.write ptr {me with pos := pos}).setJob pos (some ptr)).become ptr .usable).unlock .job).goto t .idle,[.inited (some ptr)])

def callFetch (t : τ) (ptr : Ptr) (size : IntValue) (s : State τ) : State τ × List Event :=
  if size.val ≤ 0 then (s,[.fetched ptr size (-einval)]) else (s.goto t (.fetching ptr size),[])

-- The test of the loop in mytbf_fetchToken, and what follows it.
def take (t : τ) (ptr : Ptr) (size : IntValue) (s : State τ) : State τ × List Event :=
  match s.memory.heap ptr with
  | none => (s.goto t .crashed,[])
  | some me =>
    match fetchToken size me with
    | none => ((s.unlock (.bucket ptr)).goto t (.asleep ptr size),[])
    | some (after,n) => (((s.write ptr after).unlock (.bucket ptr)).goto t .idle,[.fetched ptr size n])

def callReturn (t : τ) (ptr : Ptr) (size : IntValue) (s : State τ) : State τ × List Event :=
  if size.val ≤ 0 then (s,[.gaveBack ptr size (-einval)]) else (s.goto t (.returning ptr size),[])

def give (t : τ) (ptr : Ptr) (size : IntValue) (s : State τ) : State τ × List Event :=
  match s.memory.heap ptr with
  | none => (s.goto t .crashed,[])
  | some me =>
    ((((s.write ptr (returnToken size me).1).broadcast ptr).unlock (.bucket ptr)).goto t .idle,[.gaveBack ptr size (returnToken size me).2])

def remove (t : τ) (ptr : Ptr) (s : State τ) : State τ :=
  match s.memory.heap ptr with
  | none => s.goto t .crashed
  | some me => (((s.setJob me.pos none).become ptr (.unlinked t)).unlock .job).goto t (.freeing ptr)

-- pthread_mutex_destroy and free; the mutex must not be locked.
def free (t : τ) (ptr : Ptr) (s : State τ) : State τ × List Event :=
  match s.owner (.bucket ptr),s.memory.heap ptr with
  | none,some _ => (((s.release ptr).become ptr .fresh).goto t .idle,[.destroyed ptr])
  | _,_ => (s.goto t .crashed,[])

-- A bucket can be used from when mytbf_init returned it until mytbf_destroy is called, and
-- it is destroyed when no call is about it.
inductive Moves : Agent τ → State τ → List Event → State τ → Prop where
  | once (t : τ) (cps burst : IntValue) : s.pc t = .idle →
      Moves (.caller t) s [] ((s.at s.alarm.created).goto t (.entered cps burst))
  | malloc (t : τ) (memory : Option Ptr) (garbage : Slot) : s.pc t = .entered cps burst →
      (∀ ptr, memory = some ptr → s.memory.heap ptr = none) →
      Moves (.caller t) s (malloc t cps burst memory garbage s).2 (malloc t cps burst memory garbage s).1
  | lock (t : τ) (m : Mutex) : (s.pc t).wants = some m → s.owner m = none →
      (∀ ptr, m = .bucket ptr → s.memory.heap ptr ≠ none) →
      Moves (.caller t) s [] ((s.lock m (.caller t)).goto t (s.pc t).locked)
  | lockFreed (t : τ) : (s.pc t).wants = some (.bucket ptr) → s.memory.heap ptr = none →
      Moves (.caller t) s [] (s.goto t .crashed)
  | place (t : τ) : s.pc t = .inited ptr → Moves (.caller t) s (place t ptr s).2 (place t ptr s).1
  | callFetch (t : τ) (ptr : Ptr) (size : IntValue) : s.pc t = .idle → s.role ptr = .usable →
      Moves (.caller t) s (callFetch t ptr size s).2 (callFetch t ptr size s).1
  | take (t : τ) : s.pc t = .fetched ptr size → Moves (.caller t) s (take t ptr size s).2 (take t ptr size s).1
  | spurious (t : τ) : s.pc t = .asleep ptr size → Moves (.caller t) s [] (s.goto t (.fetching ptr size))
  | callReturn (t : τ) (ptr : Ptr) (size : IntValue) : s.pc t = .idle → s.role ptr = .usable →
      Moves (.caller t) s (callReturn t ptr size s).2 (callReturn t ptr size s).1
  | give (t : τ) : s.pc t = .returned ptr size → Moves (.caller t) s (give t ptr size s).2 (give t ptr size s).1
  | callDestroy (t : τ) (ptr : Ptr) : s.pc t = .idle → s.role ptr = .usable → (∀ u, (s.pc u).ptr ≠ some ptr) →
      Moves (.caller t) s [] ((s.become ptr (.leaving t)).goto t (.destroying ptr))
  | remove (t : τ) : s.pc t = .removing ptr → Moves (.caller t) s [] (remove t ptr s)
  | free (t : τ) : s.pc t = .freeing ptr → Moves (.caller t) s (free t ptr s).2 (free t ptr s).1
  | begin : s.alarm = .top → s.owner .job = none → Moves .alarm s [.began] ((s.lock .job .alarm).at (.scanning 0))
  | scan : s.alarm = .scanning i → Moves .alarm s (scan i s).2 (scan i s).1
  | lockBucket : s.alarm = .locking i → s.memory.job i = some ptr → s.memory.heap ptr ≠ none → s.owner (.bucket ptr) = none →
      Moves .alarm s [] ((s.lock (.bucket ptr) .alarm).at (.inside i ptr))
  | lockGone : s.alarm = .locking i → (∀ ptr, s.memory.job i = some ptr → s.memory.heap ptr = none) →
      Moves .alarm s [] (s.at .crashed)
  | refill : s.alarm = .inside i ptr → Moves .alarm s (refill i s).2 (refill i s).1
  | sleep : s.alarm = .sleeping → Moves .alarm s [] (s.at .top)

def Step (s : State τ) (emitted : List Event) (after : State τ) : Prop := ∃ a, Moves a s emitted after

def State.Wants (s : State τ) : Agent τ → Mutex → Prop
  | .alarm,m => s.alarm.wants s.memory.job = some m
  | .caller t,m => (s.pc t).wants = some m

def State.Holds (s : State τ) : Agent τ → Mutex → Prop
  | .alarm,m => s.alarm.Holds m
  | .caller t,m => (s.pc t).holds = some m

end
end LinuxCoding.Mytbf.Threads
