import LinuxCoding.Library.Pump
import LinuxCoding.Relay.Epoll
import LinuxCoding.Relay.NonBlocked
import LinuxCoding.Relay.Select

-- The four relay() loops against one abstract relay: a pump for each direction.
namespace LinuxCoding.Relay
open Transition Readiness

def Effect.event : Effect → Pump.Event UInt8 String
  | .quiet => .idle
  | .read bytes => .took bytes
  | .wrote bytes => .gave bytes
  | .failed call => .failed call
  | .reported strerr => .complained strerr

def RelFsmSt.phase (s : States) (fsm : RelFsmSt) : Pump.Phase UInt8 String :=
  if fsm.state = s.stateR then .ready
  else if fsm.state = s.stateW then .holding (fsm.buf.slice fsm.pos fsm.len)
  else if fsm.state = s.stateEX then .failing fsm.strerr
  else .finished

section
variable {s : States} {fsm : RelFsmSt}

theorem phase_reading (reading : fsm.state = s.stateR) : fsm.phase s = .ready := if_pos reading

theorem phase_writing (writing : fsm.state = s.stateW) : fsm.phase s = .holding (fsm.buf.slice fsm.pos fsm.len) := by
  simp [RelFsmSt.phase,writing,s.apart.1.symm]

theorem phase_failing (failing : fsm.state = s.stateEX) : fsm.phase s = .failing fsm.strerr := by
  simp [RelFsmSt.phase,failing,s.apart.2.1.symm,s.apart.2.2.2.1.symm]

theorem phase_ended (ended : fsm.state = s.stateT) : fsm.phase s = .finished := by
  simp [RelFsmSt.phase,ended,s.apart.2.2.1.symm,s.apart.2.2.2.2.1.symm,s.apart.2.2.2.2.2.symm]

theorem slice_some {pos len : Int} (buf : Buffer) (some : 1 ≤ len) (low : 0 ≤ pos) (fits : pos + len ≤ bufSize) : buf.slice pos len ≠ [] := by
  have size := buf.property
  intro empty
  have none := congrArg List.length empty
  simp only [Buffer.slice,List.length_take,List.length_drop,List.length_nil] at none
  omega

-- One call of fsm_driver is one step of the pump.
theorem driver_pumps {effects : List Effect} (carried : Carried s fsm effects) (fits : answer.Fits fsm)
    (ran : fsmDriver s fsm answer = some (next,effect)) : Pump.Pumps bufSize (fsm.phase s) [effect.event] (next.phase s) := by
  cases driver_sound ran with
  | readEnd reading =>
    rw [phase_reading reading,phase_ended rfl]
    exact .ends
  | readAgain reading =>
    rw [phase_reading reading,phase_reading rfl]
    exact .idle _
  | readError reading =>
    rw [phase_reading reading,phase_failing rfl]
    exact .failsTaking _
  | readBytes chunk reading =>
    obtain ⟨some,few⟩ := chunk.property
    rw [phase_reading reading,phase_writing rfl]
    simp only [fill_slice]
    exact .takes _ (List.ne_nil_of_length_pos some) few
  | writeAgain writing =>
    rw [phase_writing writing,phase_writing rfl]
    exact .idle _
  | writeError writing =>
    rw [phase_writing writing,phase_failing rfl]
    exact .failsGiving _ _
  | wrote ret writing answered =>
    obtain ⟨some,low,high⟩ := carried.window writing
    have enough := fits ret answered
    rw [phase_writing writing,slice_split _ _ low enough]
    by_cases done : fsm.len - ret = 0
    · rw [phase_reading (if_pos done),done,slice_empty,List.append_nil]
      exact .empties _
    · have more : 1 ≤ fsm.len - ret := by omega
      have past : 0 ≤ fsm.pos + ret := by omega
      have inside : fsm.pos + ret + (fsm.len - ret) ≤ bufSize := by omega
      rw [phase_writing (if_neg done)]
      exact .gives _ _ (slice_some _ more past inside)
  | report failing =>
    rw [phase_failing failing,phase_ended rfl]
    exact .complains _
  | rest => exact .idle _

end

-- What the calls of a pass have done, in their order.
def moved (s : States) (m : Machines) (answers : Direction → Answer) (calls : List Direction) : List (Direction × Effect) :=
  calls.filterMap (fun d => (fsmDriver s (m.fsm d) (answers d)).map (fun result => (d,result.2)))

def flow (d : Direction) (log : List (Direction × Effect)) : List Effect := log.filterMap (fun move => if move.1 = d then some move.2 else none)

@[simp] theorem flow_append (d : Direction) (earlier later : List (Direction × Effect)) : flow d (earlier ++ later) = flow d earlier ++ flow d later :=
  List.filterMap_append

-- A loop by the body of it; `fits` is what the kernel keeps to. The body is the two guarded
-- calls of fsm_driver, whatever the guards are.
structure Loop (σ ι : Type) where
  states : States
  machines : σ → Machines
  fits : ι → σ → Prop
  answers : ι → Direction → Answer
  pass : σ → ι → Pass σ
  truthful : ∀ input x, fits input x → ∀ d, (answers input d).Fits ((machines x).fsm d)
  drives : ∀ input x y calls, fits input x → pass x input = .again y calls → ∃ test12 test21,
    driveBoth states (machines x) test12 test21 (answers input .fsm12) (answers input .fsm21) = .again (machines y) calls

def choose (first second : α) : Direction → α
  | .fsm12 => first
  | .fsm21 => second

inductive Loop.Step (loop : Loop σ ι) : σ → List (Direction × Effect) → σ → Prop where
  | pass (input : ι) : ¬Finished loop.states (loop.machines x) → loop.fits input x → loop.pass x input = .again y calls →
      Step loop x (moved loop.states (loop.machines x) (loop.answers input) calls) y

theorem driveBoth_calls (ran : driveBoth s m test12 test21 answer12 answer21 = .again after calls) :
    calls = (if test12 then [.fsm12] else []) ++ if test21 then [.fsm21] else [] := by
  unfold driveBoth at ran
  split at ran
  · cases ran
  · split at ran
    · cases ran
    · cases ran
      rfl

-- What one direction does in a pass: nothing, or one call.
theorem driven {answers : Direction → Answer} (ran : driveBoth s m test12 test21 (answers .fsm12) (answers .fsm21) = .again after calls) (d : Direction) :
    flow d (moved s m answers calls) = [] ∧ after.fsm d = m.fsm d ∨
      ∃ effect, fsmDriver s (m.fsm d) (answers d) = some (after.fsm d,effect) ∧ flow d (moved s m answers calls) = [effect] := by
  obtain ⟨ran12,ran21,_,_⟩ := driveBoth_parts ran
  rw [driveBoth_calls ran]
  rcases driveIf_cases ran12 with ⟨rfl,same12⟩ | ⟨rfl,effect12,drove12⟩ <;> rcases driveIf_cases ran21 with ⟨rfl,same21⟩ | ⟨rfl,effect21,drove21⟩
  · cases d with
    | fsm12 => exact .inl ⟨rfl,same12⟩
    | fsm21 => exact .inl ⟨rfl,same21⟩
  · cases d with
    | fsm12 => exact .inl ⟨by simp [moved,flow,Machines.fsm,drove21],same12⟩
    | fsm21 => exact .inr ⟨effect21,drove21,by simp [moved,flow,Machines.fsm,drove21]⟩
  · cases d with
    | fsm12 => exact .inr ⟨effect12,drove12,by simp [moved,flow,Machines.fsm,drove12]⟩
    | fsm21 => exact .inl ⟨by simp [moved,flow,Machines.fsm,drove12],same21⟩
  · cases d with
    | fsm12 => exact .inr ⟨effect12,drove12,by simp [moved,flow,Machines.fsm,drove12,drove21]⟩
    | fsm21 => exact .inr ⟨effect21,drove21,by simp [moved,flow,Machines.fsm,drove12,drove21]⟩

-- What a direction has done, as a run of its pump.
structure Flows (s : States) (log : List (Direction × Effect)) (m : Machines) : Prop where
  carried : ∀ d, Carried s (m.fsm d) (flow d log)
  pumped : ∀ d, Runs (Pump.Pumps bufSize) .ready ((flow d log).map Effect.event) ((m.fsm d).phase s)

theorem start_flows (s : States) (fd1 fd2 : Int) (stack : Machines) : Flows s [] (start s fd1 fd2 stack) := by
  have reading : ∀ d, ((start s fd1 fd2 stack).fsm d).state = s.stateR := by
    intro d
    cases d <;> rfl
  refine ⟨?_,?_⟩
  · intro d
    refine ⟨.inl (reading d),?_,?_,?_⟩
    · intro writing
      exact absurd ((reading d).symm.trans writing) s.apart.1
    · intro failing
      exact absurd ((reading d).symm.trans failing) s.apart.2.1
    · intro _
      rw [pending_reading (reading d)]
      rfl
  · intro d
    rw [phase_reading (reading d)]
    exact .nil

theorem step_flows {loop : Loop σ ι} (flows : Flows loop.states log (loop.machines x)) (step : loop.Step x moves y) :
    Flows loop.states (log ++ moves) (loop.machines y) := by
  cases step with
  | pass input running fits ran =>
    obtain ⟨test12,test21,drove⟩ := loop.drives input x y _ fits ran
    have truthful := loop.truthful input x fits
    refine ⟨?_,?_⟩
    · intro d
      rcases driven drove d with ⟨nothing,same⟩ | ⟨effect,called,one⟩
      · rw [flow_append,nothing,List.append_nil,same]
        exact flows.carried d
      · rw [flow_append,one]
        exact driver_carried (flows.carried d) (truthful d) called
    · intro d
      rcases driven drove d with ⟨nothing,same⟩ | ⟨effect,called,one⟩
      · rw [flow_append,nothing,List.append_nil,same]
        exact flows.pumped d
      · rw [flow_append,one,List.map_append]
        exact (flows.pumped d).step (driver_pumps (flows.carried d) (truthful d) called)

theorem run_flows (loop : Loop σ ι) (begins : loop.machines x = start loop.states fd1 fd2 stack) (run : Runs loop.Step x log y) :
    Flows loop.states log (loop.machines y) := by
  refine run.invariant (I := fun log y => Flows loop.states log (loop.machines y)) (fun _ _ _ _ flows step => step_flows flows step) ?_
  rw [begins]
  exact start_flows loop.states fd1 fd2 stack

def happened (d : Direction) (log : List (Direction × Effect)) : List (Pump.Event UInt8 String) := (flow d log).map Effect.event

theorem taken_read (d : Direction) (log : List (Direction × Effect)) : Pump.taken (happened d log) = bytesRead (flow d log) := by
  rw [Pump.taken,happened,List.flatMap_map]
  exact congrArg (List.flatMap · (flow d log)) (funext (fun effect => by cases effect <;> rfl))

theorem given_wrote (d : Direction) (log : List (Direction × Effect)) : Pump.given (happened d log) = bytesWritten (flow d log) := by
  rw [Pump.given,happened,List.flatMap_map]
  exact congrArg (List.flatMap · (flow d log)) (funext (fun effect => by cases effect <;> rfl))

-- A direction is a run of its pump, and where relay() returns it has written all that it has
-- read, or perror has named the one call that failed.
structure Relayed (s : States) (log : List (Direction × Effect)) (m : Machines) : Prop where
  refines : ∀ d, Runs (Pump.Pumps bufSize) .ready (happened d log) ((m.fsm d).phase s)
  order : ∀ d, ∃ rest, bytesWritten (flow d log) ++ rest = bytesRead (flow d log) ∧ rest.length ≤ bufSize
  returned : Finished s m → ∀ d, bytesWritten (flow d log) = bytesRead (flow d log) ∧ Pump.failures (happened d log) = [] ∧
      Pump.complaints (happened d log) = [] ∨
    ∃ call, Pump.failures (happened d log) = [call] ∧ Pump.complaints (happened d log) = [call]

theorem flows_relayed (flows : Flows s log m) : Relayed s log m := by
  have ledger : ∀ d, Pump.Ledger bufSize (happened d log) ((m.fsm d).phase s) := fun d => Pump.run_ledger (flows.pumped d)
  refine ⟨flows.pumped,?_,?_⟩
  · intro d
    obtain ⟨rest,stream,few⟩ := Pump.ledger_stream (ledger d)
    rw [taken_read,given_wrote] at stream
    exact ⟨rest,stream,few⟩
  · intro ⟨ended12,ended21⟩ d
    have finished : (m.fsm d).phase s = .finished := by
      cases d with
      | fsm12 => exact phase_ended ended12
      | fsm21 => exact phase_ended ended21
    have ends := ledger d
    rw [finished] at ends
    rcases ends with smooth | ⟨call,broken,complaint⟩
    · have stream := smooth.stream
      rw [taken_read,given_wrote,List.append_nil] at stream
      exact .inl ⟨stream,smooth.failures,smooth.complaints⟩
    · exact .inr ⟨call,broken.failures,complaint⟩

def nonBlocked : Loop Machines NonBlocked.Input where
  states := NonBlocked.states
  machines := id
  fits := NonBlocked.Input.Fits
  answers input := choose input.answer12 input.answer21
  pass := NonBlocked.pass
  truthful := by
    intro input m fits d
    cases d with
    | fsm12 => exact fits.answer12
    | fsm21 => exact fits.answer21
  drives := fun input m after calls fits ran => ⟨true,true,ran⟩

def select (fd1 fd2 : Int) : Loop Machines Select.Input where
  states := Readiness.states
  machines := id
  fits := Select.Input.Fits
  answers input := choose input.answer12 input.answer21
  pass := Select.pass fd1 fd2
  truthful := by
    intro input m fits d
    cases d with
    | fsm12 => exact fits.answer12
    | fsm21 => exact fits.answer21
  drives := by
    intro input m after calls fits ran
    obtain ⟨sets,_,_,drove⟩ := Select.pass_parts fits ran
    exact ⟨_,_,drove⟩

def poll : Loop Poll.State Poll.Input where
  states := Readiness.states
  machines := Poll.State.machines
  fits input s := input.Fits s.machines
  answers input := choose input.answer12 input.answer21
  pass := Poll.pass
  truthful := by
    intro input s fits d
    cases d with
    | fsm12 => exact fits.answer12
    | fsm21 => exact fits.answer21
  drives := by
    intro input s after calls fits ran
    unfold Poll.pass at ran
    cases observed : Poll.observe s input with
    | blocked => simp [observed] at ran
    | exited => simp [observed] at ran
    | ready revents =>
      simp only [observed] at ran
      obtain ⟨machines,drove,rfl⟩ := Pass.map_again ran
      exact ⟨_,_,drove⟩

def epoll (fd1 fd2 : Int) : Loop Epoll.State Epoll.Input where
  states := Readiness.states
  machines := Epoll.State.machines
  fits := Epoll.Input.Fits fd1 fd2
  answers input := choose input.answer12 input.answer21
  pass := Epoll.pass fd1 fd2
  truthful := by
    intro input s fits d
    cases d with
    | fsm12 => exact fits.answer12
    | fsm21 => exact fits.answer21
  drives := by
    intro input s after calls fits ran
    unfold Epoll.pass at ran
    cases observed : Epoll.observe (Epoll.register fd1 fd2 s) input with
    | blocked => simp [observed] at ran
    | exited => simp [observed] at ran
    | ready ev =>
      simp only [observed] at ran
      obtain ⟨machines,drove,rfl⟩ := Pass.map_again ran
      exact ⟨_,_,drove⟩

-- Whatever the kernel makes ready and answers, the four loops are the same abstract relay.
theorem loops_relay (fd1 fd2 : Int) :
    (∀ stack log m, Runs nonBlocked.Step (start NonBlocked.states fd1 fd2 stack) log m → Relayed NonBlocked.states log m) ∧
      (∀ stack log m, Runs (select fd1 fd2).Step (start Readiness.states fd1 fd2 stack) log m → Relayed Readiness.states log m) ∧
      (∀ stack log s, Runs poll.Step (Poll.start fd1 fd2 stack) log s → Relayed Readiness.states log s.machines) ∧
      ∀ accepted1 accepted2 stack log s, Runs (epoll fd1 fd2).Step (Epoll.start fd1 fd2 accepted1 accepted2 stack) log s →
        Relayed Readiness.states log s.machines := by
  refine ⟨?_,?_,?_,?_⟩
  · intro stack log m run
    exact flows_relayed (run_flows nonBlocked rfl run)
  · intro stack log m run
    exact flows_relayed (run_flows (select fd1 fd2) rfl run)
  · intro stack log s run
    exact flows_relayed (run_flows poll rfl run)
  · intro accepted1 accepted2 stack log s run
    exact flows_relayed (run_flows (epoll fd1 fd2) rfl run)

end LinuxCoding.Relay
