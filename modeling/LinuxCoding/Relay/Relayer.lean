import LinuxCoding.Library.Slots
import LinuxCoding.Library.Transition
import LinuxCoding.Relay.Driver

-- proIO/non-blocked/relayer/relayer.c: one thread drives the jobs of a table.
namespace LinuxCoding.Relay.Relayer
open Slots Transition

def relJobMax : Nat := 10000

def stateRunning : Int := 1
def stateOver : Int := 3

def states : States := ⟨1,2,3,4,by decide⟩

def enomem : Int := 12
def enospc : Int := 28
def oNonblock : BitVec 32 := 0x800

structure RelJobSt where
  jobState : Int
  fd1 : Int
  fd2 : Int
  fsm12 : RelFsmSt
  fsm21 : RelFsmSt
  fd1Save : BitVec 32
  fd2Save : BitVec 32

def RelJobSt.fsm (job : RelJobSt) : Direction → RelFsmSt
  | .fsm12 => job.fsm12
  | .fsm21 => job.fsm21

-- fcntl over the descriptors of the process, for any kernel state.
structure Fcntl (κ : Type) where
  getfl : Int → κ → BitVec 32
  setfl : Int → BitVec 32 → κ → κ

abbrev Slot : Type := Fin relJobMax
abbrev Jobs : Type := Table relJobMax RelJobSt

-- What one call of fsm_driver in a pass did, for the job of a slot.
structure Moved where
  slot : Slot
  direction : Direction
  effect : Effect
  deriving DecidableEq, Repr

-- The body of the loop of thr_relayer; none is abort().
def relayJob (i : Slot) (answers : Direction → Answer) : Option RelJobSt → Option (Option RelJobSt × List Moved)
  | none => some (none,[])
  | some job =>
    if job.jobState = stateRunning then do
      let (fsm12,effect12) ← fsmDriver states job.fsm12 (answers .fsm12)
      let (fsm21,effect21) ← fsmDriver states job.fsm21 (answers .fsm21)
      let bothEnded := fsm12.state = states.stateT ∧ fsm21.state = states.stateT
      some (some {job with
        fsm12 := fsm12
        fsm21 := fsm21
        jobState := if bothEnded then stateOver else job.jobState},[⟨i,.fsm12,effect12⟩,⟨i,.fsm21,effect21⟩])
    else some (some job,[])

def relayJobs (answers : Slot → Direction → Answer) : List Slot → Jobs → Option (Jobs × List Moved)
  | [],relJob => some (relJob,[])
  | i :: rest,relJob => do
    let (job,moved) ← relayJob i (answers i) (relJob i)
    let (after,later) ← relayJobs answers rest (Function.update relJob i job)
    some (after,moved ++ later)

-- One turn of the endless loop, under the mutex.
def thrRelayer (answers : Slot → Direction → Answer) (relJob : Jobs) : Option (Jobs × List Moved) :=
  relayJobs answers (List.finRange relJobMax) relJob

def getFreePosUnlocked (relJob : Jobs) : Option Slot := firstFree relJob

structure Added (κ : Type) where
  relJob : Jobs
  files : κ
  ret : Option Int

-- `me` is the memory malloc returned, of any content. After the job is stored
-- the function ends without a return statement: ret is none.
def relAddjob (fcntl : Fcntl κ) (me : Option RelJobSt) (fd1 fd2 : Int) (relJob : Jobs) (files : κ) : Added κ :=
  match me with
  | none => ⟨relJob,files,some (-enomem)⟩
  | some me =>
    let fd1Save := fcntl.getfl fd1 files
    let files := fcntl.setfl fd1 (fd1Save ||| oNonblock) files
    let fd2Save := fcntl.getfl fd2 files
    let files := fcntl.setfl fd2 (fd2Save ||| oNonblock) files
    let me := {me with
      fd1 := fd1
      fd2 := fd2
      jobState := stateRunning
      fd1Save := fd1Save
      fd2Save := fd2Save
      fsm12 := {me.fsm12 with state := states.stateR,sfd := fd1,dfd := fd2}
      fsm21 := {me.fsm21 with state := states.stateR,sfd := fd2,dfd := fd1}}
    match getFreePosUnlocked relJob with
    | none => ⟨relJob,fcntl.setfl fd2 fd2Save (fcntl.setfl fd1 fd1Save files),some (-enospc)⟩
    | some pos => ⟨Function.update relJob pos (some me),files,none⟩

-- The mutex makes a pass and the table part of rel_addjob atomic. The kernel
-- answers each call of a pass as it likes, within what the call asked for.
inductive Step : Jobs → List Moved → Jobs → Prop where
  | pass (answers : Slot → Direction → Answer) :
      (∀ i job, relJob i = some job → ∀ d, (answers i d).Fits (job.fsm d)) →
      thrRelayer answers relJob = some (after,moved) → Step relJob moved after
  | add {κ : Type} (fcntl : Fcntl κ) (me : Option RelJobSt) (fd1 fd2 : Int) (files : κ) :
      Step relJob [] (relAddjob fcntl me fd1 fd2 relJob files).relJob

def empty : Jobs := fun _ => none

-- The effects of the calls on one direction of the job in a slot.
def effectsOf (i : Slot) (d : Direction) (log : List Moved) : List Effect :=
  log.filterMap (fun moved => if moved.slot = i ∧ moved.direction = d then some moved.effect else none)

end LinuxCoding.Relay.Relayer
