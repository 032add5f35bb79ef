import LinuxCoding.Library.CInt
import LinuxCoding.Library.Mutex
import LinuxCoding.Library.Total
import LinuxCoding.Library.Transition

-- thread/posix/Newer/spin_lock/spin_lock.c: threads count by themselves and add up under a lock.
namespace LinuxCoding.SpinLock
open CInt Mutex Total Transition

-- The initialisation of t, the loop, the lock, n += t before and after n is loaded, the
-- unlock, the end of task.
inductive Place where
  | reading
  | looping (i : Nat) (t : Int)
  | locking (t : Int)
  | adding (t : Int)
  | storing (loaded t : Int)
  | unlocking
  | exited

def Place.holds : Place → Bool
  | .adding _ => true
  | .storing _ _ => true
  | .unlocking => true
  | _ => false

structure State (threads : Nat) where
  n : Int
  owner : Option (Fin threads)
  pc : Fin threads → Place

-- The sums are those of the numbers; int arithmetic is defined where they are ints.
inductive Event (threads : Nat) where
  | read (k : Fin threads) (found : Int)
  | counted (k : Fin threads) (sum : Int)
  | left (k : Fin threads)
  | locked (k : Fin threads)
  | loaded (k : Fin threads)
  | added (k : Fin threads) (sum : Int)
  | unlocked (k : Fin threads)

abbrev Loops : Type := {loops : Nat // (loops : Int) ≤ intMax}

section
variable {threads : Nat}

def start (threads : Nat) : State threads := ⟨0,none,fun _ => .reading⟩

def State.go (s : State threads) (k : Fin threads) (place : Place) : State threads := {s with pc := Function.update s.pc k place}

-- task
inductive Step (loops : Loops) : State threads → List (Event threads) → State threads → Prop where
  | reads : s.pc k = .reading → Step loops s [.read k s.n] (s.go k (.looping 0 s.n))
  | counts : s.pc k = .looping i t → i < loops.val → Step loops s [.counted k (t + 1)] (s.go k (.looping (i + 1) (toInt (t + 1))))
  | leaves : s.pc k = .looping i t → ¬ i < loops.val → Step loops s [.left k] (s.go k (.locking t))
  | locks : s.pc k = .locking t → s.owner = none → Step loops s [.locked k] {s.go k (.adding t) with owner := some k}
  | loads : s.pc k = .adding t → Step loops s [.loaded k] (s.go k (.storing s.n t))
  | stores : s.pc k = .storing loaded t →
      Step loops s [.added k (loaded + t)] {s.go k .unlocking with n := toInt (loaded + t)}
  | unlocks : s.pc k = .unlocking → Step loops s [.unlocked k] {s.go k .exited with owner := none}

def Event.sum : Event threads → Option Int
  | .counted _ sum => some sum
  | .added _ sum => some sum
  | _ => none

def Event.reads : Event threads → Bool
  | .read _ _ => true
  | _ => false

def Event.adds : Event threads → Bool
  | .added _ _ => true
  | _ => false

-- No addition leaves int.
def Fits (log : List (Event threads)) : Prop := ∀ e ∈ log, ∀ sum ∈ e.sum, intMin ≤ sum ∧ sum ≤ intMax

-- No thread reads n after a thread has added to it.
def Early (log : List (Event threads)) : Prop := log.Pairwise (fun earlier later => ¬ (earlier.adds = true ∧ later.reads = true))

structure Exact (loops : Loops) (log : List (Event threads)) (s : State threads) : Prop where
  fits : Fits log
  total : s.n = (threads * loops.val : Nat)

end

end LinuxCoding.SpinLock
