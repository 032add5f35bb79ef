import LinuxCoding.Library.CInt
import LinuxCoding.Library.Mutex
import LinuxCoding.Library.Total
import LinuxCoding.Library.Transition

-- homework/sem_prod_cons.c: producers and consumers that count under one mutex, between two semaphores.
namespace LinuxCoding.SemProdCons
open CInt Mutex Total Transition

def sizeOfSem : Nat := 2

inductive Sem where
  | empty
  | full
  deriving DecidableEq

-- The two thread functions differ in the semaphores and in the counter they name.
inductive Task where
  | productor
  | consumer
  deriving DecidableEq

def Task.waits : Task → Sem
  | .productor => .empty
  | .consumer => .full

def Task.posts : Task → Sem
  | .productor => .full
  | .consumer => .empty

-- The test of the for, sem_wait, the lock section before and after the counter goes up,
-- sem_post, usleep, behind the loop.
inductive Place where
  | looping (i : Nat)
  | waiting (i : Nat)
  | locking (i : Nat)
  | counting (i : Nat)
  | unlocking (i : Nat)
  | posting (i : Nat)
  | sleeping (i : Nat)
  | exited

structure Thread where
  task : Task
  rounds : Nat
  place : Place

def Thread.goes (thread : Thread) (place : Place) : Thread := {thread with place := place}

-- sem_empty and sem_full, produced_count and consumed_count, the mutex.
structure State (τ : Type) where
  sems : Sem → Nat
  counts : Task → Int
  owner : Option τ
  threads : τ → Thread

inductive Event (τ : Type) where
  | printed (t : τ) (count : Int)

-- What sem_init gives the semaphores.
def slots : Sem → Nat
  | .empty => sizeOfSem
  | .full => 0

def start (task : τ → Task) (rounds : τ → Nat) : State τ := ⟨slots,fun _ => 0,none,fun t => ⟨task t,rounds t,.looping 0⟩⟩

section
variable {τ : Type} [DecidableEq τ]

def State.go (s : State τ) (t : τ) (place : Place) : State τ :=
  {s with threads := Function.update s.threads t ((s.threads t).goes place)}

abbrev State.task (s : State τ) (t : τ) : Task := (s.threads t).task

-- productor and consumer
inductive Step : State τ → List (Event τ) → State τ → Prop where
  | enters : (s.threads t).place = .looping i → i < (s.threads t).rounds → Step s [] (s.go t (.waiting i))
  | exits : (s.threads t).place = .looping i → ¬ i < (s.threads t).rounds → Step s [] (s.go t .exited)
  | waits : (s.threads t).place = .waiting i → 0 < s.sems (s.task t).waits →
      Step s [] {s.go t (.locking i) with sems := Function.update s.sems (s.task t).waits (s.sems (s.task t).waits - 1)}
  | locks : (s.threads t).place = .locking i → s.owner = none → Step s [] {s.go t (.counting i) with owner := some t}
  | counts : (s.threads t).place = .counting i →
      Step s [.printed t (toInt (s.counts (s.task t) + 1))]
        {s.go t (.unlocking i) with counts := Function.update s.counts (s.task t) (toInt (s.counts (s.task t) + 1))}
  | unlocks : (s.threads t).place = .unlocking i → Step s [] {s.go t (.posting i) with owner := none}
  | posts : (s.threads t).place = .posting i →
      Step s [] {s.go t (.sleeping i) with sems := Function.update s.sems (s.task t).posts (s.sems (s.task t).posts + 1)}
  | sleeps : (s.threads t).place = .sleeping i → Step s [] (s.go t (.looping (i + 1)))

end

end LinuxCoding.SemProdCons
