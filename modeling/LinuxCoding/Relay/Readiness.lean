import LinuxCoding.Library.CInt
import LinuxCoding.Relay.Loop

-- What the relays over select, poll and epoll share. proIO/epoll/relay.c is the one
-- over poll(2) and proIO/poll/relay.c the one over epoll(7).
namespace LinuxCoding.Relay.Readiness
open CInt

def stateAuto : Int := 3

def states : States := ⟨1,2,4,5,by decide⟩

-- POLLIN and EPOLLIN are the same bit, and so are the other three.
abbrev Events : Type := BitVec 32

def eventIn : Events := 0x1
def eventOut : Events := 0x4
def eventErr : Events := 0x8
def eventHup : Events := 0x10

-- The events asked for on the descriptor that one machine reads and the other writes.
def interest (reader writer : RelFsmSt) : Events :=
  let events : Events := 0
  let events := if reader.state = states.stateR then events ||| eventIn else events
  if writer.state = states.stateW then events ||| eventOut else events

-- Errors and hang-ups are reported without being asked for.
def Reported (asked events : Events) : Prop := events ≠ 0 ∧ Within events (asked ||| (eventErr ||| eventHup))

-- The condition under which the loop waits at all.
def Waits (m : Machines) : Prop := m.fsm12.state < stateAuto ∨ m.fsm21.state < stateAuto

instance (m : Machines) : Decidable (Waits m) :=
  inferInstanceAs (Decidable (m.fsm12.state < stateAuto ∨ m.fsm21.state < stateAuto))

inductive WaitAnswer (ρ : Type) where
  | interrupted
  | failed
  | ready (result : ρ)

inductive Waited (ρ : Type) where
  | blocked
  | exited
  | ready (result : ρ)

-- The call is repeated on EINTR, and any other error exits.
def wait : List (WaitAnswer ρ) → Waited ρ
  | [] => .blocked
  | .interrupted :: rest => wait rest
  | .failed :: _ => .exited
  | .ready result :: _ => .ready result

theorem wait_ready {answers : List (WaitAnswer ρ)} (returned : wait answers = .ready result) :
    .ready result ∈ answers := by
  induction answers with
  | nil => cases returned
  | cons answer rest ih =>
    cases answer with
    | interrupted => exact List.mem_cons_of_mem _ (ih returned)
    | failed => cases returned
    | ready other =>
      cases returned
      exact List.mem_cons_self

theorem interest_in : any (interest reader writer) eventIn = true ↔ reader.state = states.stateR := by
  unfold interest
  by_cases reading : reader.state = states.stateR
  · by_cases writing : writer.state = states.stateW
    · simp only [reading,writing,if_true]
      decide
    · simp only [reading,writing,if_true,if_false]
      decide
  · by_cases writing : writer.state = states.stateW
    · simp only [reading,writing,if_true,if_false]
      decide
    · simp only [reading,writing,if_false]
      decide

theorem interest_out : any (interest reader writer) eventOut = true ↔ writer.state = states.stateW := by
  unfold interest
  by_cases writing : writer.state = states.stateW
  · by_cases reading : reader.state = states.stateR
    · simp only [reading,writing,if_true]
      decide
    · simp only [reading,writing,if_true,if_false]
      decide
  · by_cases reading : reader.state = states.stateR
    · simp only [reading,writing,if_true,if_false]
      decide
    · simp only [reading,writing,if_false]
      decide

theorem reported_in (reported : Reported (interest reader writer) events) (set : any events eventIn = true) :
    reader.state = states.stateR := by
  have allowed := any_within reported.2 set
  rw [any_or,show any (eventErr ||| eventHup) eventIn = false by decide,Bool.or_false] at allowed
  exact interest_in.mp allowed

theorem reported_out (reported : Reported (interest reader writer) events) (set : any events eventOut = true) :
    writer.state = states.stateW := by
  have allowed := any_within reported.2 set
  rw [any_or,show any (eventErr ||| eventHup) eventOut = false by decide,Bool.or_false] at allowed
  exact interest_out.mp allowed

theorem past_auto (known : Known states fsm) (live : fsm.state ≠ states.stateT) :
    fsm.state > stateAuto ↔ fsm.state = states.stateEX := by
  rcases known with reading | writing | failing | ended
  · rw [reading]
    decide
  · rw [writing]
    decide
  · rw [failing]
    decide
  · exact absurd ended live

-- `seen` is whether the result holds an IN or OUT bit, `ready12` and `ready21` what
-- each guard makes of the result.
theorem guards_exact (known : ∀ d, Known states (m.fsm d)) (answer12 answer21 : Answer)
    (only : ready12 = true ∨ ready21 = true → seen)
    (heard : seen → (ready12 = true ∧ m.fsm12.state ≠ states.stateT) ∨ (ready21 = true ∧ m.fsm21.state ≠ states.stateT)) :
    ∃ after calls, driveBoth states m (ready12 || m.fsm12.state > stateAuto) (ready21 || m.fsm21.state > stateAuto)
        answer12 answer21 = .again after calls ∧
      ((∃ d ∈ calls, (m.fsm d).state ≠ states.stateT) ↔
        seen ∨ m.fsm12.state = states.stateEX ∨ m.fsm21.state = states.stateEX) := by
  obtain ⟨after,calls,ran⟩ := driveBoth_total known (ready12 || m.fsm12.state > stateAuto)
    (ready21 || m.fsm21.state > stateAuto) answer12 answer21
  obtain ⟨_,_,called12,called21⟩ := driveBoth_parts ran
  simp only [Bool.or_eq_true,decide_eq_true_eq] at called12 called21
  refine ⟨after,calls,ran,?_,?_⟩
  · intro ⟨d,called,live⟩
    cases d with
    | fsm12 =>
      rcases called12.mp called with ready | past
      · exact .inl (only (.inl ready))
      · exact .inr (.inl ((past_auto (known .fsm12) live).mp past))
    | fsm21 =>
      rcases called21.mp called with ready | past
      · exact .inl (only (.inr ready))
      · exact .inr (.inr ((past_auto (known .fsm21) live).mp past))
  · rintro (bits | failing | failing)
    · rcases heard bits with ⟨ready,live⟩ | ⟨ready,live⟩
      · exact ⟨.fsm12,called12.mpr (.inl ready),live⟩
      · exact ⟨.fsm21,called21.mpr (.inl ready),live⟩
    · have live : m.fsm12.state ≠ states.stateT := failing_live failing
      exact ⟨.fsm12,called12.mpr (.inr ((past_auto (known .fsm12) live).mpr failing)),live⟩
    · have live : m.fsm21.state ≠ states.stateT := failing_live failing
      exact ⟨.fsm21,called21.mpr (.inr ((past_auto (known .fsm21) live).mpr failing)),live⟩

end LinuxCoding.Relay.Readiness
