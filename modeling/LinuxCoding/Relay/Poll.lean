import LinuxCoding.Library.Transition
import LinuxCoding.Relay.Readiness

-- proIO/epoll/relay.c.
namespace LinuxCoding.Relay.Poll
open Transition CInt Readiness

-- revents of pfd[0] and pfd[1] stay as the last poll left them.
structure State where
  machines : Machines
  revents0 : Events
  revents1 : Events

structure Input where
  poll : List (WaitAnswer (Events × Events))
  answer12 : Answer
  answer21 : Answer

def start (fd1 fd2 : Int) (stack : State) : State :=
  {stack with machines := Relay.start states fd1 fd2 stack.machines}

def events0 (m : Machines) : Events := interest m.fsm12 m.fsm21
def events1 (m : Machines) : Events := interest m.fsm21 m.fsm12

-- poll counts the descriptors with events, and without a timeout it returns only
-- when there is one.
def Polled (m : Machines) (revents : Events × Events) : Prop :=
  (revents.1 = 0 ∨ Reported (events0 m) revents.1) ∧ (revents.2 = 0 ∨ Reported (events1 m) revents.2) ∧
    (revents.1 ≠ 0 ∨ revents.2 ≠ 0)

structure Input.Fits (input : Input) (m : Machines) : Prop where
  polled : ∀ revents, .ready revents ∈ input.poll → Polled m revents
  answer12 : input.answer12.Fits m.fsm12
  answer21 : input.answer21.Fits m.fsm21

def observe (s : State) (input : Input) : Waited (Events × Events) :=
  if Waits s.machines then wait input.poll else .ready (s.revents0,s.revents1)

def inspect (m : Machines) (revents : Events × Events) (input : Input) : Pass Machines :=
  driveBoth states m
    ((any revents.1 eventIn || any revents.2 eventOut) || m.fsm12.state > stateAuto)
    ((any revents.2 eventIn || any revents.1 eventOut) || m.fsm21.state > stateAuto)
    input.answer12 input.answer21

-- The body of the loop.
def pass (s : State) (input : Input) : Pass State :=
  match observe s input with
  | .blocked => .blocked
  | .exited => .exited
  | .ready revents => (inspect s.machines revents input).map (⟨·,revents.1,revents.2⟩)

inductive Step : State → List Direction → State → Prop where
  | pass (input : Input) : ¬Finished states s.machines → input.Fits s.machines →
      Poll.pass s input = .again after calls → Step s calls after

theorem pass_wired (wired : Wired states fd1 fd2 s.machines) (ran : pass s input = .again after calls) :
    Wired states fd1 fd2 after.machines := by
  unfold pass at ran
  cases observed : observe s input with
  | blocked => simp [observed] at ran
  | exited => simp [observed] at ran
  | ready revents =>
    simp only [observed] at ran
    obtain ⟨machines,drove,rfl⟩ := Pass.map_again ran
    exact driveBoth_wired wired drove

theorem step_wired (wired : Wired states fd1 fd2 s.machines) (step : Step s calls after) :
    Wired states fd1 fd2 after.machines := by
  cases step with
  | pass input running fits ran => exact pass_wired wired ran

theorem reached_wired (run : Runs Step (start fd1 fd2 stack) log s) : Wired states fd1 fd2 s.machines :=
  run.stateInvariant (I := fun s => Wired states fd1 fd2 s.machines)
    (fun _ _ _ wired step => step_wired wired step) (start_wired states fd1 fd2 stack.machines)

-- The IN and OUT bits of a result; everything else in it is an error or a hang-up.
def Ready (revents : Events × Events) : Prop :=
  any revents.1 eventIn = true ∨ any revents.1 eventOut = true ∨
    any revents.2 eventIn = true ∨ any revents.2 eventOut = true

theorem polled_set (polled : revents = 0 ∨ Reported asked revents) (set : any revents bits = true) : Reported asked revents := by
  rcases polled with zero | reported
  · rw [zero] at set
    simp [any] at set
  · exact reported

theorem inspect_exact (known : ∀ d, Known states (m.fsm d)) (polled : Polled m revents) (input : Input) :
    ∃ after calls, inspect m revents input = .again after calls ∧
      ((∃ d ∈ calls, (m.fsm d).state ≠ states.stateT) ↔
        Ready revents ∨ m.fsm12.state = states.stateEX ∨ m.fsm21.state = states.stateEX) := by
  obtain ⟨polled0,polled1,_⟩ := polled
  apply guards_exact known
  · intro ready
    simp only [Bool.or_eq_true] at ready
    rcases ready with (in0 | out1) | in1 | out0
    · exact .inl in0
    · exact .inr (.inr (.inr out1))
    · exact .inr (.inr (.inl in1))
    · exact .inr (.inl out0)
  · rintro (in0 | out0 | in1 | out1)
    · have reading : m.fsm12.state = states.stateR := reported_in (polled_set polled0 in0) in0
      exact .inl ⟨by rw [in0,Bool.true_or],reading_live reading⟩
    · have writing : m.fsm21.state = states.stateW := reported_out (polled_set polled0 out0) out0
      exact .inr ⟨by rw [out0,Bool.or_true],writing_live writing⟩
    · have reading : m.fsm21.state = states.stateR := reported_in (polled_set polled1 in1) in1
      exact .inr ⟨by rw [in1,Bool.true_or],reading_live reading⟩
    · have writing : m.fsm12.state = states.stateW := reported_out (polled_set polled1 out1) out1
      exact .inl ⟨by rw [out1,Bool.or_true],writing_live writing⟩

theorem pass_exact (run : Runs Step (start fd1 fd2 stack) log s) (waits : Waits s.machines)
    (fits : input.Fits s.machines) (returned : wait input.poll = .ready revents) :
    ∃ after calls, pass s input = .again after calls ∧
      ((∃ d ∈ calls, (s.machines.fsm d).state ≠ states.stateT) ↔
        Ready revents ∨ s.machines.fsm12.state = states.stateEX ∨ s.machines.fsm21.state = states.stateEX) := by
  have polled := fits.polled revents (wait_ready returned)
  obtain ⟨after,calls,ran,exactly⟩ := inspect_exact (reached_wired run).known polled input
  refine ⟨⟨after,revents.1,revents.2⟩,calls,?_,exactly⟩
  simp only [pass,observe,if_pos waits,returned,ran,Pass.map]

end LinuxCoding.Relay.Poll
