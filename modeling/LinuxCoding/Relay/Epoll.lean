import LinuxCoding.Relay.Poll

-- proIO/poll/relay.c.
namespace LinuxCoding.Relay.Epoll
open Transition CInt Readiness

-- data.fd of the union is the one member the program uses.
structure EpollEvent where
  events : Events
  fd : Int

-- The interest list of an epoll descriptor.
abbrev EpollSet : Type := Int → Option EpollEvent

-- Both results are ignored by the caller. EPOLL_CTL_ADD fails on a descriptor that is
-- already there or that the kernel does not accept, EPOLL_CTL_MOD on one that is not there.
def ctlAdd (accepted : Bool) (fd : Int) (ev : EpollEvent) (watched : EpollSet) : EpollSet := fun other =>
  if other = fd ∧ accepted = true ∧ watched fd = none then some ev else watched other
def ctlMod (fd : Int) (ev : EpollEvent) (watched : EpollSet) : EpollSet := fun other =>
  if other = fd ∧ watched fd ≠ none then some ev else watched other

structure State where
  machines : Machines
  ev : EpollEvent
  set : EpollSet

structure Input where
  epollWait : List (WaitAnswer EpollEvent)
  answer12 : Answer
  answer21 : Answer

def start (fd1 fd2 : Int) (accepted1 accepted2 : Bool) (stack : Machines) : State :=
  let set : EpollSet := fun _ => none
  let set := ctlAdd accepted1 fd1 ⟨0,fd1⟩ set
  let ev : EpollEvent := ⟨0,fd2⟩
  ⟨Relay.start states fd1 fd2 stack,ev,ctlAdd accepted2 fd2 ev set⟩

def register (fd1 fd2 : Int) (s : State) : State :=
  let set := ctlMod fd1 ⟨interest s.machines.fsm12 s.machines.fsm21,fd1⟩ s.set
  let ev : EpollEvent := ⟨interest s.machines.fsm21 s.machines.fsm12,fd2⟩
  ⟨s.machines,ev,ctlMod fd2 ev set⟩

-- epoll_wait fills in one event of a descriptor of the set, with the data given for it.
def Delivers (watched : EpollSet) (ev : EpollEvent) : Prop :=
  ∃ fd asked, watched fd = some asked ∧ ev.fd = asked.fd ∧ Reported asked.events ev.events

structure Input.Fits (fd1 fd2 : Int) (input : Input) (s : State) : Prop where
  delivers : ∀ ev, .ready ev ∈ input.epollWait → Delivers (register fd1 fd2 s).set ev
  answer12 : input.answer12.Fits s.machines.fsm12
  answer21 : input.answer21.Fits s.machines.fsm21

def observe (s : State) (input : Input) : Waited EpollEvent :=
  if Waits s.machines then wait input.epollWait else .ready s.ev

def inspect (fd1 fd2 : Int) (m : Machines) (ev : EpollEvent) (input : Input) : Pass Machines :=
  driveBoth states m
    ((ev.fd == fd1 && any ev.events eventIn || ev.fd == fd2 && any ev.events eventOut) || m.fsm12.state > stateAuto)
    ((ev.fd == fd1 && any ev.events eventOut || ev.fd == fd2 && any ev.events eventIn) || m.fsm21.state > stateAuto)
    input.answer12 input.answer21

-- The body of the loop.
def pass (fd1 fd2 : Int) (s : State) (input : Input) : Pass State :=
  let s := register fd1 fd2 s
  match observe s input with
  | .blocked => .blocked
  | .exited => .exited
  | .ready ev => (inspect fd1 fd2 s.machines ev input).map (⟨·,ev,s.set⟩)

inductive Step (fd1 fd2 : Int) : State → List Direction → State → Prop where
  | pass (input : Input) : ¬Finished states s.machines → input.Fits fd1 fd2 s →
      Epoll.pass fd1 fd2 s input = .again after calls → Step fd1 fd2 s calls after

-- Only the two descriptors are in the set, each under its own number.
def Tagged (fd1 fd2 : Int) (watched : EpollSet) : Prop := ∀ fd ev, watched fd = some ev → (fd = fd1 ∨ fd = fd2) ∧ ev.fd = fd

theorem ctlAdd_tagged (tagged : Tagged fd1 fd2 watched) (named : fd = fd1 ∨ fd = fd2) (own : ev.fd = fd) (accepted : Bool) :
    Tagged fd1 fd2 (ctlAdd accepted fd ev watched) := by
  intro other entry found
  unfold ctlAdd at found
  split at found
  · rename_i hit
    cases found
    obtain ⟨rfl,_,_⟩ := hit
    exact ⟨named,own⟩
  · exact tagged other entry found

theorem ctlMod_entry (found : ctlMod fd ev watched other = some entry) :
    (other = fd ∧ entry = ev ∧ ∃ old, watched fd = some old) ∨ (other ≠ fd ∧ watched other = some entry) := by
  unfold ctlMod at found
  split at found
  · rename_i hit
    cases found
    exact .inl ⟨hit.1,rfl,Option.ne_none_iff_exists'.mp hit.2⟩
  · rename_i missed
    refine .inr ⟨?_,found⟩
    intro same
    subst same
    exact missed ⟨rfl,by rw [found]; exact Option.some_ne_none entry⟩

theorem ctlMod_tagged (tagged : Tagged fd1 fd2 watched) (own : ev.fd = fd) : Tagged fd1 fd2 (ctlMod fd ev watched) := by
  intro other entry found
  rcases ctlMod_entry found with ⟨rfl,rfl,old,was⟩ | ⟨_,kept⟩
  · exact ⟨(tagged other old was).1,own⟩
  · exact tagged other entry kept

theorem register_tagged (tagged : Tagged fd1 fd2 s.set) : Tagged fd1 fd2 (register fd1 fd2 s).set :=
  ctlMod_tagged (ctlMod_tagged tagged rfl) rfl

-- Where fd1 = fd2 the second EPOLL_CTL_MOD overwrites the first.
theorem register_entry (tagged : Tagged fd1 fd2 s.set) (found : (register fd1 fd2 s).set fd = some asked) :
    asked = ⟨interest s.machines.fsm21 s.machines.fsm12,fd2⟩ ∨
      asked = ⟨interest s.machines.fsm12 s.machines.fsm21,fd1⟩ := by
  rcases ctlMod_entry found with ⟨_,second,_⟩ | ⟨not2,found⟩
  · exact .inl second
  · rcases ctlMod_entry found with ⟨_,first,_⟩ | ⟨not1,found⟩
    · exact .inr first
    · rcases (tagged fd asked found).1 with is1 | is2
      · exact absurd is1 not1
      · exact absurd is2 not2

structure Reaches (fd1 fd2 : Int) (s : State) : Prop where
  wired : Wired states fd1 fd2 s.machines
  tagged : Tagged fd1 fd2 s.set

theorem start_reaches (fd1 fd2 : Int) (accepted1 accepted2 : Bool) (stack : Machines) :
    Reaches fd1 fd2 (start fd1 fd2 accepted1 accepted2 stack) := by
  have empty : Tagged fd1 fd2 (fun _ => none) := by
    intro fd ev found
    cases found
  have first : Tagged fd1 fd2 (ctlAdd accepted1 fd1 ⟨0,fd1⟩ (fun _ => none)) := ctlAdd_tagged empty (.inl rfl) rfl accepted1
  exact ⟨start_wired states fd1 fd2 stack,ctlAdd_tagged first (.inr rfl) rfl accepted2⟩

theorem pass_reaches (reached : Reaches fd1 fd2 s) (ran : pass fd1 fd2 s input = .again after calls) : Reaches fd1 fd2 after := by
  unfold pass at ran
  cases observed : observe (register fd1 fd2 s) input with
  | blocked => simp [observed] at ran
  | exited => simp [observed] at ran
  | ready ev =>
    simp only [observed] at ran
    obtain ⟨machines,drove,rfl⟩ := Pass.map_again ran
    exact ⟨driveBoth_wired reached.wired drove,register_tagged reached.tagged⟩

theorem step_reaches (reached : Reaches fd1 fd2 s) (step : Step fd1 fd2 s calls after) : Reaches fd1 fd2 after := by
  cases step with
  | pass input running fits ran => exact pass_reaches reached ran

theorem reached_reaches (run : Runs (Step fd1 fd2) (start fd1 fd2 accepted1 accepted2 stack) log s) : Reaches fd1 fd2 s :=
  run.stateInvariant (fun _ _ _ reached step => step_reaches reached step) (start_reaches fd1 fd2 accepted1 accepted2 stack)

def Ready (ev : EpollEvent) : Prop := any ev.events eventIn = true ∨ any ev.events eventOut = true

theorem inspect_exact (reached : Reaches fd1 fd2 s) (delivers : Delivers (register fd1 fd2 s).set ev) (input : Input) :
    ∃ after calls, inspect fd1 fd2 s.machines ev input = .again after calls ∧
      ((∃ d ∈ calls, (s.machines.fsm d).state ≠ states.stateT) ↔
        Ready ev ∨ s.machines.fsm12.state = states.stateEX ∨ s.machines.fsm21.state = states.stateEX) := by
  obtain ⟨fd,asked,found,data,reported⟩ := delivers
  apply guards_exact reached.wired.known
  · intro ready
    simp only [Bool.or_eq_true,Bool.and_eq_true] at ready
    rcases ready with (⟨_,bits⟩ | ⟨_,bits⟩) | ⟨_,bits⟩ | ⟨_,bits⟩
    · exact .inl bits
    · exact .inr bits
    · exact .inr bits
    · exact .inl bits
  · intro ready
    rcases register_entry reached.tagged found with rfl | rfl
    · rcases ready with bits | bits
      · have reading : s.machines.fsm21.state = states.stateR := reported_in reported bits
        exact .inr ⟨by simp [data,bits],reading_live reading⟩
      · have writing : s.machines.fsm12.state = states.stateW := reported_out reported bits
        exact .inl ⟨by simp [data,bits],writing_live writing⟩
    · rcases ready with bits | bits
      · have reading : s.machines.fsm12.state = states.stateR := reported_in reported bits
        exact .inl ⟨by simp [data,bits],reading_live reading⟩
      · have writing : s.machines.fsm21.state = states.stateW := reported_out reported bits
        exact .inr ⟨by simp [data,bits],writing_live writing⟩

theorem pass_exact (run : Runs (Step fd1 fd2) (start fd1 fd2 accepted1 accepted2 stack) log s)
    (waits : Waits s.machines) (fits : input.Fits fd1 fd2 s) (returned : wait input.epollWait = .ready ev) :
    ∃ after calls, pass fd1 fd2 s input = .again after calls ∧
      ((∃ d ∈ calls, (s.machines.fsm d).state ≠ states.stateT) ↔
        Ready ev ∨ s.machines.fsm12.state = states.stateEX ∨ s.machines.fsm21.state = states.stateEX) := by
  have delivers := fits.delivers ev (wait_ready returned)
  obtain ⟨after,calls,ran,exactly⟩ := inspect_exact (reached_reaches run) delivers input
  refine ⟨⟨after,ev,(register fd1 fd2 s).set⟩,calls,?_,exactly⟩
  have waits : Waits (register fd1 fd2 s).machines := waits
  have ran : inspect fd1 fd2 (register fd1 fd2 s).machines ev input = .again after calls := ran
  simp only [pass,observe,if_pos waits,returned,ran,Pass.map]

end LinuxCoding.Relay.Epoll
