import LinuxCoding.Relay.Epoll

-- Which readiness lets the loops over poll and epoll_wait call fsm_driver.
namespace LinuxCoding.Relay
open Transition CInt Readiness

-- `reported fd bits` is what the wait of the pass has said of a descriptor.
def Disciplined (m : Machines) (calls : List Direction) (reported : Int → Events → Prop) : Prop :=
  ∀ d ∈ calls, ((m.fsm d).state = states.stateR → reported (m.fsm d).sfd eventIn) ∧
    ((m.fsm d).state = states.stateW → reported (m.fsm d).dfd eventOut)

-- What a guard may hear for one machine.
def Heard (fsm : RelFsmSt) (reported : Int → Events → Prop) : Prop :=
  (fsm.state = states.stateR ∧ reported fsm.sfd eventIn) ∨ (fsm.state = states.stateW ∧ reported fsm.dfd eventOut)

theorem heard_in {reported : Int → Events → Prop} (heard : Heard fsm reported) (reading : fsm.state = states.stateR) : reported fsm.sfd eventIn := by
  rcases heard with ⟨_,readable⟩ | ⟨writing,_⟩
  · exact readable
  · exact absurd (reading.symm.trans writing) states.apart.1

theorem heard_out {reported : Int → Events → Prop} (heard : Heard fsm reported) (writing : fsm.state = states.stateW) : reported fsm.dfd eventOut := by
  rcases heard with ⟨reading,_⟩ | ⟨_,writable⟩
  · exact absurd (reading.symm.trans writing) states.apart.1
  · exact writable

theorem moving_waits (d : Direction) (moving : (m.fsm d).state = states.stateR ∨ (m.fsm d).state = states.stateW) :
    Waits m ∧ ¬ (m.fsm d).state > stateAuto := by
  have below : (m.fsm d).state < stateAuto := by
    rcases moving with reading | writing
    · rw [reading]
      decide
    · rw [writing]
      decide
  refine ⟨?_,by omega⟩
  cases d with
  | fsm12 => exact .inl below
  | fsm21 => exact .inr below

-- A pass that does not wait drives only machines past STATE_AUTO, whatever is left over
-- from an earlier pass.
theorem skipped_disciplined (skipped : ¬ Waits m) (calls : List Direction) (reported : Int → Events → Prop) : Disciplined m calls reported :=
  fun d _ => ⟨fun reading => absurd (moving_waits d (.inl reading)).1 skipped,fun writing => absurd (moving_waits d (.inr writing)).1 skipped⟩

theorem guards_disciplined (heard12 : ready12 = true → Heard m.fsm12 reported) (heard21 : ready21 = true → Heard m.fsm21 reported)
    (ran : driveBoth states m (ready12 || m.fsm12.state > stateAuto) (ready21 || m.fsm21.state > stateAuto) answer12 answer21 = .again after calls) :
    Disciplined m calls reported := by
  obtain ⟨_,_,called12,called21⟩ := driveBoth_parts ran
  simp only [Bool.or_eq_true,decide_eq_true_eq] at called12 called21
  have heard : ∀ d ∈ calls, (m.fsm d).state = states.stateR ∨ (m.fsm d).state = states.stateW → Heard (m.fsm d) reported := by
    intro d called moving
    have low := (moving_waits d moving).2
    cases d with
    | fsm12 => exact heard12 ((called12.mp called).resolve_right low)
    | fsm21 => exact heard21 ((called21.mp called).resolve_right low)
  intro d called
  exact ⟨fun reading => heard_in (heard d called (.inl reading)) reading,fun writing => heard_out (heard d called (.inr writing)) writing⟩

-- The IN and OUT bits are among those asked for; the other bits may be any.
def Asked (asked events : Events) : Prop :=
  (any events eventIn = true → any asked eventIn = true) ∧ (any events eventOut = true → any asked eventOut = true)

namespace Poll

def Input.Asked (input : Input) (m : Machines) : Prop :=
  ∀ revents, .ready revents ∈ input.poll → Relay.Asked (events0 m) revents.1 ∧ Relay.Asked (events1 m) revents.2

inductive AskedStep : State → List Direction → State → Prop where
  | pass (input : Input) : ¬Finished states s.machines → input.Asked s.machines → Poll.pass s input = .again after calls → AskedStep s calls after

-- What poll has said in this pass.
def Said (fd1 fd2 : Int) (s : State) (input : Input) (fd : Int) (bits : Events) : Prop :=
  Waits s.machines ∧ ∃ revents, wait input.poll = .ready revents ∧ (fd = fd1 ∧ any revents.1 bits = true ∨ fd = fd2 ∧ any revents.2 bits = true)

theorem asked_wired (wired : Wired states fd1 fd2 s.machines) (step : AskedStep s calls after) : Wired states fd1 fd2 after.machines := by
  cases step with
  | pass input running asked ran => exact pass_wired wired ran

theorem inspect_disciplined (wired : Wired states fd1 fd2 m) (asked : Relay.Asked (events0 m) revents.1 ∧ Relay.Asked (events1 m) revents.2)
    (ran : inspect m revents input = .again after calls) :
    Disciplined m calls (fun fd bits => fd = fd1 ∧ any revents.1 bits = true ∨ fd = fd2 ∧ any revents.2 bits = true) := by
  obtain ⟨⟨in0,out0⟩,in1,out1⟩ := asked
  refine guards_disciplined ?_ ?_ ran
  · intro ready
    rcases Bool.or_eq_true_iff.mp ready with readable | writable
    · exact .inl ⟨interest_in.mp (in0 readable),.inl ⟨wired.sfd12,readable⟩⟩
    · exact .inr ⟨interest_out.mp (out1 writable),.inr ⟨wired.dfd12,writable⟩⟩
  · intro ready
    rcases Bool.or_eq_true_iff.mp ready with readable | writable
    · exact .inl ⟨interest_in.mp (in1 readable),.inr ⟨wired.sfd21,readable⟩⟩
    · exact .inr ⟨interest_out.mp (out0 writable),.inl ⟨wired.dfd21,writable⟩⟩

theorem pass_disciplined (wired : Wired states fd1 fd2 s.machines) (asked : input.Asked s.machines) (ran : pass s input = .again after calls) :
    Disciplined s.machines calls (Said fd1 fd2 s input) := by
  by_cases waits : Waits s.machines
  · unfold pass observe at ran
    rw [if_pos waits] at ran
    cases returned : wait input.poll with
    | blocked => simp [returned] at ran
    | exited => simp [returned] at ran
    | ready revents =>
      simp only [returned] at ran
      obtain ⟨machines,drove,rfl⟩ := Pass.map_again ran
      have disciplined := inspect_disciplined wired (asked revents (wait_ready returned)) drove
      intro d called
      exact ⟨fun reading => ⟨waits,revents,returned,(disciplined d called).1 reading⟩,
        fun writing => ⟨waits,revents,returned,(disciplined d called).2 writing⟩⟩
  · exact skipped_disciplined waits calls _

end Poll

namespace Epoll

def Input.Asked (fd1 fd2 : Int) (input : Input) (s : State) : Prop :=
  ∀ ev, .ready ev ∈ input.epollWait → Relay.Asked (((register fd1 fd2 s).set ev.fd).elim 0 EpollEvent.events) ev.events

inductive AskedStep (fd1 fd2 : Int) : State → List Direction → State → Prop where
  | pass (input : Input) : ¬Finished states s.machines → input.Asked fd1 fd2 s → Epoll.pass fd1 fd2 s input = .again after calls →
      AskedStep fd1 fd2 s calls after

-- What epoll_wait has said in this pass.
def Said (s : State) (input : Input) (fd : Int) (bits : Events) : Prop :=
  Waits s.machines ∧ ∃ ev, wait input.epollWait = .ready ev ∧ ev.fd = fd ∧ any ev.events bits = true

theorem asked_reaches (reached : Reaches fd1 fd2 s) (step : AskedStep fd1 fd2 s calls after) : Reaches fd1 fd2 after := by
  cases step with
  | pass input running asked ran => exact pass_reaches reached ran

-- With two descriptors each has its own entry in the set.
theorem register_own (distinct : fd1 ≠ fd2) (tagged : Tagged fd1 fd2 s.set) (fd : Int) (bits : Events)
    (asked : any (((register fd1 fd2 s).set fd).elim 0 EpollEvent.events) bits = true) :
    (fd = fd1 → any (interest s.machines.fsm12 s.machines.fsm21) bits = true) ∧
      (fd = fd2 → any (interest s.machines.fsm21 s.machines.fsm12) bits = true) := by
  cases found : (register fd1 fd2 s).set fd with
  | none =>
    rw [found] at asked
    simp [any] at asked
  | some entry =>
    rw [found] at asked
    have own := (register_tagged tagged fd entry found).2
    rcases register_entry tagged found with rfl | rfl
    · exact ⟨fun first => absurd (first.symm.trans own.symm) distinct,fun _ => asked⟩
    · exact ⟨fun _ => asked,fun second => absurd (own.trans second) distinct⟩

theorem inspect_disciplined (distinct : fd1 ≠ fd2) (reached : Reaches fd1 fd2 s)
    (asked : Relay.Asked (((register fd1 fd2 s).set ev.fd).elim 0 EpollEvent.events) ev.events)
    (ran : inspect fd1 fd2 s.machines ev input = .again after calls) :
    Disciplined s.machines calls (fun fd bits => ev.fd = fd ∧ any ev.events bits = true) := by
  have own := fun bits => register_own distinct reached.tagged ev.fd bits
  obtain ⟨_,s12,d12,s21,d21⟩ := reached.wired
  refine guards_disciplined ?_ ?_ ran
  · intro ready
    simp only [Bool.or_eq_true,Bool.and_eq_true,beq_iff_eq] at ready
    rcases ready with ⟨first,readable⟩ | ⟨second,writable⟩
    · exact .inl ⟨interest_in.mp ((own eventIn (asked.1 readable)).1 first),first.trans s12.symm,readable⟩
    · exact .inr ⟨interest_out.mp ((own eventOut (asked.2 writable)).2 second),second.trans d12.symm,writable⟩
  · intro ready
    simp only [Bool.or_eq_true,Bool.and_eq_true,beq_iff_eq] at ready
    rcases ready with ⟨first,writable⟩ | ⟨second,readable⟩
    · exact .inr ⟨interest_out.mp ((own eventOut (asked.2 writable)).1 first),first.trans d21.symm,writable⟩
    · exact .inl ⟨interest_in.mp ((own eventIn (asked.1 readable)).2 second),second.trans s21.symm,readable⟩

theorem pass_disciplined (distinct : fd1 ≠ fd2) (reached : Reaches fd1 fd2 s) (asked : input.Asked fd1 fd2 s)
    (ran : pass fd1 fd2 s input = .again after calls) : Disciplined s.machines calls (Said s input) := by
  by_cases waits : Waits s.machines
  · have registered : Waits (register fd1 fd2 s).machines := waits
    unfold pass observe at ran
    simp only [if_pos registered] at ran
    cases returned : wait input.epollWait with
    | blocked => simp [returned] at ran
    | exited => simp [returned] at ran
    | ready ev =>
      simp only [returned] at ran
      obtain ⟨machines,drove,rfl⟩ := Pass.map_again ran
      have disciplined := inspect_disciplined distinct reached (asked ev (wait_ready returned)) drove
      intro d called
      exact ⟨fun reading => ⟨waits,ev,returned,(disciplined d called).1 reading⟩,
        fun writing => ⟨waits,ev,returned,(disciplined d called).2 writing⟩⟩
  · exact skipped_disciplined waits calls _

end Epoll

theorem readiness_discipline (fd1 fd2 : Int) :
    (∀ stack log s input after calls,
      Runs Poll.AskedStep (Poll.start fd1 fd2 stack) log s → input.Asked s.machines → Poll.pass s input = .again after calls →
      Disciplined s.machines calls (Poll.Said fd1 fd2 s input)) ∧
    (fd1 ≠ fd2 → ∀ accepted1 accepted2 stack log s input after calls,
      Runs (Epoll.AskedStep fd1 fd2) (Epoll.start fd1 fd2 accepted1 accepted2 stack) log s → input.Asked fd1 fd2 s →
      Epoll.pass fd1 fd2 s input = .again after calls → Disciplined s.machines calls (Epoll.Said s input)) := by
  constructor
  · intro stack log s input after calls run asked ran
    have wired := run.stateInvariant (I := fun s => Wired states fd1 fd2 s.machines)
      (fun _ _ _ holds step => Poll.asked_wired holds step) (start_wired states fd1 fd2 stack.machines)
    exact Poll.pass_disciplined wired asked ran
  · intro distinct accepted1 accepted2 stack log s input after calls run asked ran
    have reached := run.stateInvariant (I := Epoll.Reaches fd1 fd2) (fun _ _ _ holds step => Epoll.asked_reaches holds step)
      (Epoll.start_reaches fd1 fd2 accepted1 accepted2 stack)
    exact Epoll.pass_disciplined distinct reached asked ran

-- The first passes of relay(3, 4) when descriptor 3 is readable and at its end.
def readable3 : Poll.Input := ⟨[.ready (eventIn,0)],⟨.endOfFile,.again⟩,⟨.again,.again⟩⟩
def event3 : Epoll.Input := ⟨[.ready ⟨eventIn,3⟩],⟨.endOfFile,.again⟩,⟨.again,.again⟩⟩

theorem first_disciplined :
    (∃ after calls, Poll.pass (Poll.start 3 4 ⟨blank,0,0⟩) readable3 = .again after calls ∧ calls = [.fsm12] ∧
      Disciplined (start states 3 4 blank) calls (Poll.Said 3 4 (Poll.start 3 4 ⟨blank,0,0⟩) readable3)) ∧
    ∃ after calls, Epoll.pass 3 4 (Epoll.start 3 4 true true blank) event3 = .again after calls ∧ calls = [.fsm12] ∧
      Disciplined (start states 3 4 blank) calls (Epoll.Said (Epoll.start 3 4 true true blank) event3) := by
  obtain ⟨poll,epoll⟩ := readiness_discipline 3 4
  refine ⟨⟨_,_,rfl,rfl,?_⟩,⟨_,_,rfl,rfl,?_⟩⟩
  · refine poll ⟨blank,0,0⟩ [] _ readable3 _ _ .nil ?_ rfl
    intro revents present
    cases List.mem_singleton.mp present
    exact ⟨⟨by decide,by decide⟩,by decide,by decide⟩
  · refine epoll (by decide) true true blank [] _ event3 _ _ .nil ?_ rfl
    intro ev present
    cases List.mem_singleton.mp present
    exact ⟨by decide,by decide⟩

end LinuxCoding.Relay
