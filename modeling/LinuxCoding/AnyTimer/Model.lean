import LinuxCoding.Library.CInt
import LinuxCoding.Library.Slots
import LinuxCoding.Library.Transition

-- anytimer/anytimer.c: one interval timer drives the jobs of a table.
namespace LinuxCoding.AnyTimer
open CInt Slots Transition

def jobMax : Nat := 1024

def einval : Int := 22
def ebusy : Int := 16
def enomem : Int := 12
def enospc : Int := 28
def ecanceled : Int := 125
def siKernel : Int := 0x80

inductive JobState where
  | running
  | canceled
  | isOver
  deriving DecidableEq, Repr

abbrev Pointer : Type := BitVec 64

structure AtJobSt where
  jobState : JobState
  sec : IntValue
  timeRemain : IntValue
  jobp : Pointer
  arg : Pointer
  repeats : Int

abbrev Slot : Type := Fin jobMax
abbrev Jobs : Type := Table jobMax AtJobSt

structure Timer where
  job : Jobs
  initied : Bool

def getFreePos (job : Jobs) : Option Slot := firstFree job

def newJob (repeats : Int) (sec : IntValue) (jobp arg : Pointer) : AtJobSt := ⟨.running,sec,sec,jobp,arg,repeats⟩

-- `loads` and `memory` are whether module_load and malloc succeed; none is the exit
-- of a failed module_load.
def addjob (repeats : Int) (loads memory : Bool) (sec : IntValue) (jobp arg : Pointer) (t : Timer) : Option (Timer × Int) :=
  if sec.val < 0 then some (t,-einval)
  else if !t.initied && !loads then none
  else
    let t := {t with initied := true}
    match getFreePos t.job with
    | none => some (t,-enospc)
    | some pos =>
      if !memory then some (t,-enomem)
      else some ({t with job := Function.update t.job pos (some (newJob repeats sec jobp arg))},(pos : Nat))

def atAddjob : Bool → Bool → IntValue → Pointer → Pointer → Timer → Option (Timer × Int) := addjob 0
def atAddjobRepeat : Bool → Bool → IntValue → Pointer → Pointer → Timer → Option (Timer × Int) := addjob 1

-- id < 0 || id >= JOB_MAX || job[id] == NULL
def lookup (id : Int) (job : Jobs) : Option (Slot × AtJobSt) :=
  if valid : 0 ≤ id ∧ id < jobMax then
    let i : Slot := ⟨id.toNat,by omega⟩
    (job i).map (fun me => (i,me))
  else none

def atCanceljob (id : Int) (t : Timer) : Timer × Int :=
  match lookup id t.job with
  | none => (t,-einval)
  | some (i,me) =>
    if me.jobState = .canceled then (t,-ecanceled)
    else if me.jobState = .isOver then (t,-ebusy)
    else ({t with job := Function.update t.job i (some {me with jobState := .canceled})},0)

-- The loop of at_waitjob and what follows it; none is another pause().
def reap (i : Slot) (me : AtJobSt) (t : Timer) : Option (Timer × Int) :=
  if me.jobState = .running then none
  else if me.jobState = .canceled ∨ me.jobState = .isOver then some ({t with job := Function.update t.job i none},0)
  else some (t,0)

def atWaitjob (id : Int) (t : Timer) : Option (Timer × Int) :=
  match lookup id t.job with
  | none => some (t,-einval)
  | some (i,me) => if me.repeats = 1 then some (t,-ebusy) else reap i me t

inductive Call where
  | addjob (sec : IntValue) (jobp arg : Pointer)
  | addjobRepeat (sec : IntValue) (jobp arg : Pointer)
  | canceljob (id : Int)
  | waitjob (id : Int)
  deriving DecidableEq

-- none is a call that does not return now: it exits or pauses.
def perform (loads memory : Bool) : Call → Timer → Option (Timer × Int)
  | .addjob sec jobp arg,t => atAddjob loads memory sec jobp arg t
  | .addjobRepeat sec jobp arg,t => atAddjobRepeat loads memory sec jobp arg t
  | .canceljob id,t => some (atCanceljob id t)
  | .waitjob id,t => atWaitjob id t

-- Where alrm_action is: before the test of slot i, in the callback of slot i, or at
-- a dereference of job[i] after the callback left the slot empty.
inductive Handler where
  | off
  | scan (i : Nat)
  | callback (i : Slot)
  | crashed (i : Slot)
  deriving DecidableEq

-- The program outside the handler; `crashed` is at_waitjob finding its slot empty
-- after a pause.
inductive Main where
  | ready
  | waiting (i : Slot)
  | crashed
  deriving DecidableEq

inductive Event where
  | tick
  | fired (i : Slot) (jobp arg : Pointer)
  | returned (call : Call) (ret : Int)
  deriving DecidableEq

structure State where
  timer : Timer
  main : Main
  handler : Handler

def State.withJob (s : State) (job : Jobs) : State := {s with timer := {s.timer with job := job}}

def start : State := ⟨⟨fun _ => none,false⟩,.ready,.off⟩

def alrmAction (siCode : Int) (s : State) : State × List Event :=
  if siCode ≠ siKernel then (s,[]) else ({s with handler := .scan 0},[.tick])

-- The body of the loop of alrm_action up to the call of jobp.
def visit (i : Slot) (s : State) : State × List Event :=
  match s.timer.job i with
  | none => ({s with handler := .scan (i + 1)},[])
  | some me =>
    if me.jobState = .running then
      let me := {me with timeRemain := store (me.timeRemain.val - 1)}
      let s := s.withJob (Function.update s.timer.job i (some me))
      if me.timeRemain.val = 0 then ({s with handler := .callback i},[.fired i me.jobp me.arg])
      else ({s with handler := .scan (i + 1)},[])
    else ({s with handler := .scan (i + 1)},[])

def rearm (me : AtJobSt) : AtJobSt :=
  if me.repeats = 1 then {me with timeRemain := me.sec} else {me with jobState := .isOver}

-- The rest of the body, which reads job[i] again.
def comeBack (i : Slot) (s : State) : State :=
  match s.timer.job i with
  | none => {s with handler := .crashed i}
  | some me => {s.withJob (Function.update s.timer.job i (some (rearm me))) with handler := .scan (i + 1)}

-- at_waitjob after pause() has returned.
def resume (i : Slot) (s : State) : State × List Event :=
  match s.timer.job i with
  | none => ({s with main := .crashed},[])
  | some me =>
    match reap i me s.timer with
    | none => (s,[])
    | some (timer,ret) => ({s with timer := timer,main := .ready},[.returned (.waitjob (i : Nat)) ret])

-- The handler runs with SIGALRM blocked, and the program outside it only while the
-- handler is off. A call takes one step except for the pauses of at_waitjob.
inductive Step : State → List Event → State → Prop where
  | alarm (siCode : Int) : s.handler = .off → s.main ≠ .crashed → s.timer.initied = true →
      Step s (alrmAction siCode s).2 (alrmAction siCode s).1
  | visit (i : Slot) : s.handler = .scan i → Step s (visit i s).2 (visit i s).1
  | finish : s.handler = .scan jobMax → Step s [] {s with handler := .off}
  | inside (i : Slot) (loads memory : Bool) (call : Call) : s.handler = .callback i →
      perform loads memory call s.timer = some (timer,ret) → Step s [.returned call ret] {s with timer := timer}
  | comeBack (i : Slot) : s.handler = .callback i → Step s [] (comeBack i s)
  | call (loads memory : Bool) (call : Call) : s.handler = .off → s.main = .ready →
      perform loads memory call s.timer = some (timer,ret) → Step s [.returned call ret] {s with timer := timer}
  | pause (id : Int) : s.handler = .off → s.main = .ready → lookup id s.timer.job = some (i,me) →
      atWaitjob id s.timer = none → Step s [] {s with main := .waiting i}
  | resume (i : Slot) : s.handler = .off → s.main = .waiting i → Step s (resume i s).2 (resume i s).1

end LinuxCoding.AnyTimer
