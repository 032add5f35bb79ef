import LinuxCoding.Relay.Epoll

-- Which results of poll and epoll_wait make a pass of the loop do anything. The guards
-- look at the IN and OUT bits alone, so a hang-up reported by itself wakes the loop up
-- and drives nobody.
namespace LinuxCoding.Relay
open Transition Readiness

def NotEnded (m : Machines) (d : Direction) : Prop := (m.fsm d).state ≠ states.stateT

theorem hangup_drives_exact (fd1 fd2 : Int) :
    (∀ stack log s input revents,
      Runs Poll.Step (Poll.start fd1 fd2 stack) log s → Waits s.machines →
      input.Fits s.machines → wait input.poll = .ready revents →
      ∃ after calls, Poll.pass s input = .again after calls ∧
        ((∃ d ∈ calls, NotEnded s.machines d) ↔
          Poll.Ready revents ∨ s.machines.fsm12.state = states.stateEX ∨ s.machines.fsm21.state = states.stateEX)) ∧
    (∀ accepted1 accepted2 stack log s input ev,
      Runs (Epoll.Step fd1 fd2) (Epoll.start fd1 fd2 accepted1 accepted2 stack) log s → Waits s.machines →
      input.Fits fd1 fd2 s → wait input.epollWait = .ready ev →
      ∃ after calls, Epoll.pass fd1 fd2 s input = .again after calls ∧
        ((∃ d ∈ calls, NotEnded s.machines d) ↔
          Epoll.Ready ev ∨ s.machines.fsm12.state = states.stateEX ∨ s.machines.fsm21.state = states.stateEX)) := by
  constructor
  · intro stack log s input revents run waits fits returned
    exact Poll.pass_exact run waits fits returned
  · intro accepted1 accepted2 stack log s input ev run waits fits returned
    exact Epoll.pass_exact run waits fits returned

-- relay(3, 4) before its first pass, and what the two calls report there.
def pollStart : Poll.State := Poll.start 3 4 ⟨blank,0,0⟩
def epollStart : Epoll.State := Epoll.start 3 4 true true blank

def pollInput (events : Events) : Poll.Input := ⟨[.ready (events,0)],⟨.again,.again⟩,⟨.again,.again⟩⟩
def epollInput (events : Events) : Epoll.Input := ⟨[.ready ⟨events,3⟩],⟨.again,.again⟩,⟨.again,.again⟩⟩

theorem again_fits (fsm : RelFsmSt) : Answer.Fits ⟨.again,.again⟩ fsm := by
  intro ret wrote
  cases wrote

theorem pollInput_fits (reported : Reported (Poll.events0 pollStart.machines) events) :
    (pollInput events).Fits pollStart.machines := by
  refine ⟨?_,again_fits _,again_fits _⟩
  intro revents present
  cases List.mem_singleton.mp present
  exact ⟨.inr reported,.inl rfl,.inl reported.1⟩

theorem epollInput_fits (reported : Reported (Poll.events0 epollStart.machines) events) :
    (epollInput events).Fits 3 4 epollStart := by
  refine ⟨?_,again_fits _,again_fits _⟩
  intro ev present
  cases List.mem_singleton.mp present
  exact ⟨3,⟨Poll.events0 epollStart.machines,3⟩,rfl,rfl,reported⟩

theorem hangup_drives_readable :
    (∃ after calls, Poll.pass pollStart (pollInput eventIn) = .again after calls ∧
      ∃ d ∈ calls, NotEnded pollStart.machines d) ∧
    (∃ after calls, Epoll.pass 3 4 epollStart (epollInput eventIn) = .again after calls ∧
      ∃ d ∈ calls, NotEnded epollStart.machines d) := by
  constructor
  · obtain ⟨after,calls,ran,exactly⟩ := (hangup_drives_exact 3 4).1 ⟨blank,0,0⟩ [] pollStart (pollInput eventIn) (eventIn,0)
      .nil (by decide) (pollInput_fits ⟨by decide,by decide⟩) rfl
    exact ⟨after,calls,ran,exactly.mpr (.inl (.inl (by decide)))⟩
  · obtain ⟨after,calls,ran,exactly⟩ := (hangup_drives_exact 3 4).2 true true blank [] epollStart (epollInput eventIn) ⟨eventIn,3⟩
      .nil (by decide) (epollInput_fits ⟨by decide,by decide⟩) rfl
    exact ⟨after,calls,ran,exactly.mpr (.inl (.inl (by decide)))⟩

-- POLLHUP or EPOLLHUP alone in the first pass: no call, and the next pass is the same.
theorem hangup_broken :
    (¬ ∀ fd1 fd2 stack log s input revents after calls,
      Runs Poll.Step (Poll.start fd1 fd2 stack) log s → Waits s.machines →
      input.Fits s.machines → wait input.poll = .ready revents → Poll.pass s input = .again after calls →
      ∃ d ∈ calls, NotEnded s.machines d) ∧
    (¬ ∀ fd1 fd2 accepted1 accepted2 stack log s input ev after calls,
      Runs (Epoll.Step fd1 fd2) (Epoll.start fd1 fd2 accepted1 accepted2 stack) log s → Waits s.machines →
      input.Fits fd1 fd2 s → wait input.epollWait = .ready ev → Epoll.pass fd1 fd2 s input = .again after calls →
      ∃ d ∈ calls, NotEnded s.machines d) := by
  constructor
  · intro drives
    obtain ⟨d,called,_⟩ := drives 3 4 ⟨blank,0,0⟩ [] pollStart (pollInput eventHup) (eventHup,0) _ _
      .nil (by decide) (pollInput_fits ⟨by decide,by decide⟩) rfl rfl
    cases called
  · intro drives
    obtain ⟨d,called,_⟩ := drives 3 4 true true blank [] epollStart (epollInput eventHup) ⟨eventHup,3⟩ _ _
      .nil (by decide) (epollInput_fits ⟨by decide,by decide⟩) rfl rfl
    cases called

end LinuxCoding.Relay
