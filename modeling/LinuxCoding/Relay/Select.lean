import LinuxCoding.Library.Transition
import LinuxCoding.Relay.Readiness

-- proIO/select/relay.c.
namespace LinuxCoding.Relay.Select
open Transition Readiness

-- fd_set, by FD_ISSET.
abbrev FdSet : Type := Int → Bool

def fdZero : FdSet := fun _ => false
def fdSet (fd : Int) (set : FdSet) : FdSet := fun other => other == fd || set other

structure FdSets where
  rset : FdSet
  wset : FdSet

def requests (m : Machines) : FdSets :=
  let sets : FdSets := ⟨fdZero,fdZero⟩
  let sets := if m.fsm12.state = states.stateR then {sets with rset := fdSet m.fsm12.sfd sets.rset} else sets
  let sets := if m.fsm12.state = states.stateW then {sets with wset := fdSet m.fsm12.dfd sets.wset} else sets
  let sets := if m.fsm21.state = states.stateR then {sets with rset := fdSet m.fsm21.sfd sets.rset} else sets
  if m.fsm21.state = states.stateW then {sets with wset := fdSet m.fsm21.dfd sets.wset} else sets

inductive SelectAnswer where
  | interrupted
  | failed
  | ready (sets : FdSets)

-- What the kernel may decide in one pass.
structure Input where
  select : SelectAnswer
  answer12 : Answer
  answer21 : Answer

-- select only clears descriptors from the sets it is given.
structure Input.Fits (input : Input) (m : Machines) : Prop where
  rset : ∀ sets, input.select = .ready sets → ∀ fd, sets.rset fd = true → (requests m).rset fd = true
  wset : ∀ sets, input.select = .ready sets → ∀ fd, sets.wset fd = true → (requests m).wset fd = true
  answer12 : input.answer12.Fits m.fsm12
  answer21 : input.answer21.Fits m.fsm21

def inspect (fd1 fd2 : Int) (m : Machines) (sets : FdSets) (input : Input) : Pass Machines :=
  driveBoth states m
    (sets.rset fd1 || sets.wset fd2 || m.fsm12.state > stateAuto)
    (sets.rset fd2 || sets.wset fd1 || m.fsm21.state < stateAuto)
    input.answer12 input.answer21

-- The body of the loop.
def pass (fd1 fd2 : Int) (m : Machines) (input : Input) : Pass Machines :=
  if Waits m then
    match input.select with
    | .interrupted => .interrupted
    | .failed => .exited
    | .ready sets => inspect fd1 fd2 m sets input
  else inspect fd1 fd2 m (requests m) input

inductive Step (fd1 fd2 : Int) : Machines → List Direction → Machines → Prop where
  | pass (input : Input) : ¬Finished states m → input.Fits m →
      Select.pass fd1 fd2 m input = .again after calls → Step fd1 fd2 m calls after

-- The loop over the kernel's next decisions; none when it has not ended normally.
def relayLoop (fd1 fd2 : Int) : List Input → Machines → Option Machines
  | inputs,m =>
    if Finished states m then some m
    else match inputs with
      | [] => none
      | input :: rest =>
        match pass fd1 fd2 m input with
        | .again after _ => relayLoop fd1 fd2 rest after
        | .interrupted => relayLoop fd1 fd2 rest m
        | .blocked => none
        | .exited => none
        | .aborted => none

theorem pass_parts (fits : input.Fits m) (ran : pass fd1 fd2 m input = .again after calls) :
    ∃ sets, (∀ fd, sets.rset fd = true → (requests m).rset fd = true) ∧
      (∀ fd, sets.wset fd = true → (requests m).wset fd = true) ∧ inspect fd1 fd2 m sets input = .again after calls := by
  unfold pass at ran
  split at ran
  · cases answered : input.select with
    | interrupted => simp [answered] at ran
    | failed => simp [answered] at ran
    | ready sets =>
      simp only [answered] at ran
      exact ⟨sets,fits.rset sets answered,fits.wset sets answered,ran⟩
  · exact ⟨requests m,fun _ set => set,fun _ set => set,ran⟩

theorem step_wired (wired : Wired states fd1 fd2 m) (step : Step fd1 fd2 m calls after) : Wired states fd1 fd2 after := by
  cases step with
  | pass input running fits ran =>
    obtain ⟨sets,_,_,ran⟩ := pass_parts fits ran
    exact driveBoth_wired wired ran

theorem reached_wired (run : Runs (Step fd1 fd2) (start states fd1 fd2 stack) log m) : Wired states fd1 fd2 m :=
  run.stateInvariant (fun _ _ _ wired step => step_wired wired step) (start_wired states fd1 fd2 stack)

def Idle (fsm : RelFsmSt) : Prop := fsm.state ≠ states.stateR ∧ fsm.state ≠ states.stateW

instance (fsm : RelFsmSt) : Decidable (Idle fsm) :=
  inferInstanceAs (Decidable (fsm.state ≠ states.stateR ∧ fsm.state ≠ states.stateW))

theorem idle_cases (known : Known states fsm) (idle : Idle fsm) :
    fsm.state = states.stateEX ∨ fsm.state = states.stateT := by
  rcases known with reading | writing | past
  · exact absurd reading idle.1
  · exact absurd writing idle.2
  · exact past

theorem above_auto {fsm : RelFsmSt} (past : fsm.state = states.stateEX ∨ fsm.state = states.stateT) : stateAuto < fsm.state := by
  rcases past with failing | ended
  · rw [failing]
    decide
  · rw [ended]
    decide

theorem failing_idle {fsm : RelFsmSt} (failing : fsm.state = states.stateEX) : Idle fsm := by
  unfold Idle
  rw [failing]
  decide

theorem ended_idle {fsm : RelFsmSt} (ended : fsm.state = states.stateT) : Idle fsm := by
  unfold Idle
  rw [ended]
  decide

-- While fsm21 is in STATE_EX nothing is requested on the descriptors that drive it.
theorem failing21_unrequested (distinct : fd1 ≠ fd2) (wired : Wired states fd1 fd2 m)
    (failing : m.fsm21.state = states.stateEX) :
    (requests m).rset fd2 = false ∧ (requests m).wset fd1 = false := by
  obtain ⟨notR,notW⟩ := failing_idle failing
  unfold requests
  simp only [notR,notW,if_false,wired.sfd12,wired.dfd12]
  by_cases reading : m.fsm12.state = states.stateR
  · have other : m.fsm12.state ≠ states.stateW := by rw [reading]; decide
    simp only [if_pos reading,if_neg other]
    exact ⟨by simp [fdSet,fdZero,distinct.symm],rfl⟩
  · by_cases writing : m.fsm12.state = states.stateW
    · simp only [if_neg reading,if_pos writing]
      exact ⟨rfl,by simp [fdSet,fdZero,distinct]⟩
    · simp only [if_neg reading,if_neg writing]
      exact ⟨rfl,rfl⟩

theorem inspect_leavesEX (ran : inspect fd1 fd2 m sets input = .again after calls)
    (failing : m.fsm12.state = states.stateEX) : after.fsm12.state = states.stateT := by
  obtain ⟨ran12,_,_,_⟩ := driveBoth_parts ran
  rcases driveIf_cases ran12 with ⟨off,_⟩ | ⟨_,effect,drove⟩
  · have past : m.fsm12.state > stateAuto := above_auto (.inl failing)
    simp [past] at off
  · exact driver_leavesEX drove failing

-- The guard of fsm21 tests < STATE_AUTO where that of fsm12 tests > STATE_AUTO.
theorem inspect_keepsEX (ran : inspect fd1 fd2 m sets input = .again after calls)
    (failing : m.fsm21.state = states.stateEX) (noRead : sets.rset fd2 = false) (noWrite : sets.wset fd1 = false) :
    after.fsm21 = m.fsm21 := by
  obtain ⟨_,ran21,_,_⟩ := driveBoth_parts ran
  rcases driveIf_cases ran21 with ⟨_,same⟩ | ⟨on,_⟩
  · exact same
  · have above : stateAuto < m.fsm21.state := above_auto (.inl failing)
    have past : ¬m.fsm21.state < stateAuto := by omega
    simp [noRead,noWrite,past] at on

theorem unset {before after : FdSet} (subset : ∀ fd, after fd = true → before fd = true) (clear : before fd = false) : after fd = false := by
  cases found : after fd with
  | false => rfl
  | true => rw [subset fd found] at clear; cases clear

theorem pass_keepsEX (distinct : fd1 ≠ fd2) (wired : Wired states fd1 fd2 m) (fits : input.Fits m)
    (ran : pass fd1 fd2 m input = .again after calls) (failing : m.fsm21.state = states.stateEX) :
    after.fsm21 = m.fsm21 := by
  obtain ⟨sets,rset,wset,ran⟩ := pass_parts fits ran
  obtain ⟨noRead,noWrite⟩ := failing21_unrequested distinct wired failing
  exact inspect_keepsEX ran failing (unset rset noRead) (unset wset noWrite)

theorem pass_exact (distinct : fd1 ≠ fd2) (wired : Wired states fd1 fd2 m) (fits : input.Fits m)
    (ran : pass fd1 fd2 m input = .again after calls) :
    (∀ d, (m.fsm d).state = states.stateEX → (after.fsm d).state ≠ states.stateEX) ↔
      m.fsm21.state ≠ states.stateEX := by
  constructor
  · intro leaves failing
    have kept := pass_keepsEX distinct wired fits ran failing
    exact leaves .fsm21 failing (by rw [show after.fsm .fsm21 = after.fsm21 from rfl,kept]; exact failing)
  · intro clean d failing
    cases d with
    | fsm12 =>
      obtain ⟨sets,_,_,ran⟩ := pass_parts fits ran
      have ended := inspect_leavesEX ran failing
      rw [show after.fsm .fsm12 = after.fsm12 from rfl,ended]
      decide
    | fsm21 => exact absurd failing clean

-- With both directions past STATE_AUTO select is skipped and fsm12 alone is driven.
theorem idle_pass (wired : Wired states fd1 fd2 m) (idle12 : Idle m.fsm12) (idle21 : Idle m.fsm21) (input : Input) :
    ∃ after calls, pass fd1 fd2 m input = .again after calls ∧ Wired states fd1 fd2 after ∧
      after.fsm12.state = states.stateT ∧ after.fsm21 = m.fsm21 := by
  have past12 : m.fsm12.state = states.stateEX ∨ m.fsm12.state = states.stateT := idle_cases (wired.known .fsm12) idle12
  have high12 := above_auto past12
  have high21 : stateAuto < m.fsm21.state := above_auto (idle_cases (wired.known .fsm21) idle21)
  have low21 : ¬m.fsm21.state < stateAuto := by omega
  have skipped : ¬Waits m := by
    unfold Waits
    omega
  have none : requests m = ⟨fdZero,fdZero⟩ := by
    simp only [requests,if_neg idle12.1,if_neg idle12.2,if_neg idle21.1,if_neg idle21.2]
  obtain ⟨next,effect,drove⟩ : ∃ next effect, fsmDriver states m.fsm12 input.answer12 = some (next,effect) :=
    driver_total (wired.known .fsm12) input.answer12
  have ran : inspect fd1 fd2 m ⟨fdZero,fdZero⟩ input = .again ⟨next,m.fsm21⟩ [.fsm12] := by
    simp [inspect,fdZero,driveBoth,driveIf,high12,low21,drove]
  refine ⟨⟨next,m.fsm21⟩,[.fsm12],?_,driveBoth_wired wired ran,?_,rfl⟩
  · unfold pass
    rw [if_neg skipped,none]
    exact ran
  · rcases past12 with failing | ended
    · exact driver_leavesEX drove failing
    · exact driver_ended drove ended

theorem relayLoop_finished (finished : Finished states m) (inputs : List Input) :
    relayLoop fd1 fd2 inputs m = some m := by
  cases inputs <;> simp [relayLoop,finished]

theorem relayLoop_again (running : ¬Finished states m) (ran : pass fd1 fd2 m input = .again after calls)
    (rest : List Input) : relayLoop fd1 fd2 (input :: rest) m = relayLoop fd1 fd2 rest after := by
  rw [relayLoop,if_neg running]
  simp [ran]

theorem failing21_unfinished (failing : m.fsm21.state = states.stateEX) : ¬Finished states m := by
  intro ⟨_,ended⟩
  rw [failing] at ended
  exact absurd ended (by decide)

-- fsm21 in STATE_EX with fsm12 past its input and output: the loop spins for ever.
theorem relayLoop_spins (inputs : List Input) (wired : Wired states fd1 fd2 m) (idle12 : Idle m.fsm12)
    (failing : m.fsm21.state = states.stateEX) : relayLoop fd1 fd2 inputs m = none := by
  have running : ¬Finished states m := failing21_unfinished failing
  have idle21 : Idle m.fsm21 := failing_idle failing
  induction inputs generalizing m with
  | nil => simp [relayLoop,running]
  | cons input rest ih =>
    obtain ⟨after,calls,ran,stillWired,ended,kept⟩ := idle_pass wired idle12 idle21 input
    rw [relayLoop_again running ran]
    have stillFailing : after.fsm21.state = states.stateEX := by rw [kept]; exact failing
    exact ih stillWired (ended_idle ended) stillFailing (failing21_unfinished stillFailing) (failing_idle stillFailing)

theorem idle_exits (wired : Wired states fd1 fd2 m) (idle12 : Idle m.fsm12) (idle21 : Idle m.fsm21)
    (clean : m.fsm21.state ≠ states.stateEX) (first second : Input) :
    ∃ final, relayLoop fd1 fd2 [first,second] m = some final := by
  have ended21 : m.fsm21.state = states.stateT := (idle_cases (wired.known .fsm21) idle21).resolve_left clean
  by_cases finished : Finished states m
  · exact ⟨m,relayLoop_finished finished _⟩
  · obtain ⟨after,calls,ran,_,ended12,kept⟩ := idle_pass wired idle12 idle21 first
    rw [relayLoop_again finished ran]
    exact ⟨after,relayLoop_finished ⟨ended12,by rw [kept]; exact ended21⟩ _⟩

theorem select_ends_exact (distinct : fd1 ≠ fd2) (run : Runs (Step fd1 fd2) (start states fd1 fd2 stack) log m) :
    (∀ input after calls, input.Fits m → pass fd1 fd2 m input = .again after calls →
      ((∀ d, (m.fsm d).state = states.stateEX → (after.fsm d).state ≠ states.stateEX) ↔
        m.fsm21.state ≠ states.stateEX)) ∧
    (Idle m.fsm12 → Idle m.fsm21 →
      ((∀ first second, ∃ final, relayLoop fd1 fd2 [first,second] m = some final) ↔ m.fsm21.state ≠ states.stateEX)) := by
  have wired := reached_wired run
  refine ⟨fun input after calls fits ran => pass_exact distinct wired fits ran,fun idle12 idle21 => ⟨?_,?_⟩⟩
  · intro exits failing
    let input : Input := ⟨.failed,⟨.again,.again⟩,⟨.again,.again⟩⟩
    obtain ⟨final,ended⟩ := exits input input
    rw [relayLoop_spins _ wired idle12 failing] at ended
    cases ended
  · exact fun clean first second => idle_exits wired idle12 idle21 clean first second

-- The first pass of relay(3, 4) when both descriptors are readable.
def firstPass (answer12 answer21 : ReadAnswer) : Input :=
  ⟨.ready (requests (start states 3 4 blank)),⟨answer12,.again⟩,⟨answer21,.again⟩⟩

theorem firstPass_step (answer12 answer21 : ReadAnswer)
    (ran : pass 3 4 (start states 3 4 blank) (firstPass answer12 answer21) = .again after calls) :
    Step 3 4 (start states 3 4 blank) calls after := by
  refine .pass (firstPass answer12 answer21) (by decide) ⟨?_,?_,?_,?_⟩ ran
  · intro sets same
    cases same
    exact fun _ set => set
  · intro sets same
    cases same
    exact fun _ set => set
  · intro ret wrote
    cases wrote
  · intro ret wrote
    cases wrote

-- fsm12 fails in the first pass and fsm21 reads end of file.
theorem select_ends_after_error : ∃ log m, Runs (Step 3 4) (start states 3 4 blank) log m ∧
    m.fsm12.state = states.stateEX ∧
    ∀ first second, ∃ final, relayLoop 3 4 [first,second] m = some final := by
  have step := firstPass_step .error .endOfFile rfl
  have exact2 := select_ends_exact (by decide) (.one step)
  refine ⟨_,_,.one step,rfl,(exact2.2 (by decide) (by decide)).mpr (by decide)⟩

theorem select_broken : ¬ ∀ (fd1 fd2 : Int) (stack m : Machines) (log : List Direction), fd1 ≠ fd2 →
    Runs (Step fd1 fd2) (start states fd1 fd2 stack) log m →
    (∀ input after calls, input.Fits m → pass fd1 fd2 m input = .again after calls →
      ∀ d, (m.fsm d).state = states.stateEX → (after.fsm d).state ≠ states.stateEX) ∧
    (Idle m.fsm12 → Idle m.fsm21 → ∀ first second, ∃ final, relayLoop fd1 fd2 [first,second] m = some final) := by
  intro ends
  have step := firstPass_step .endOfFile .error rfl
  obtain ⟨final,ended⟩ := (ends 3 4 blank _ _ (by decide) (.one step)).2 (by decide) (by decide)
    (firstPass .again .again) (firstPass .again .again)
  have wired := reached_wired (.one step)
  rw [relayLoop_spins _ wired (by decide) rfl] at ended
  cases ended

end LinuxCoding.Relay.Select
