import LinuxCoding.Relay.Epoll
import LinuxCoding.Relay.NonBlocked
import LinuxCoding.Relay.Relayer
import LinuxCoding.Relay.Select

-- The status flags of the descriptors that relay() and rel_addjob set and put back.
namespace LinuxCoding.Relay.Flags
open Transition CInt Relayer

-- The flags F_SETFL changes: O_APPEND, O_NONBLOCK, O_ASYNC, O_DIRECT and O_NOATIME.
def settable : BitVec 32 := 0x46c00

def merge (flags word : BitVec 32) : BitVec 32 := (flags &&& ~~~settable) ||| (word &&& settable)

section
variable {D : Type} [DecidableEq D]

-- Flags belong to the open file description behind a descriptor, if there is one.
def kernel (description : Int → Option D) : Fcntl (D → BitVec 32) where
  getfl fd flags := (description fd).elim (-1) flags
  setfl fd word flags := (description fd).elim flags (fun d => Function.update flags d (merge (flags d) word))

end

-- What relay() does to the flags before and after its loop.
def relayed (fcntl : Fcntl κ) (fd1 fd2 : Int) (files : κ) : κ :=
  let fd1Save := fcntl.getfl fd1 files
  let files := fcntl.setfl fd1 (fd1Save ||| oNonblock) files
  let fd2Save := fcntl.getfl fd2 files
  let files := fcntl.setfl fd2 (fd2Save ||| oNonblock) files
  let files := fcntl.setfl fd1 fd1Save files
  fcntl.setfl fd2 fd2Save files

inductive Caller where
  | nonBlocked
  | select
  | poll
  | epoll
  | relAddjob

-- The flags that a call leaves when it returns: at the end of the loop of relay(), and
-- from rel_addjob when the table is full.
inductive Leaves (fcntl : Fcntl κ) (fd1 fd2 : Int) (files : κ) : Caller → κ → Prop where
  | nonBlocked (stack m : Machines) (log : List Direction) : Runs NonBlocked.Step (start NonBlocked.states fd1 fd2 stack) log m →
      Finished NonBlocked.states m → Leaves fcntl fd1 fd2 files .nonBlocked (relayed fcntl fd1 fd2 files)
  | select (stack m : Machines) (log : List Direction) : Runs (Select.Step fd1 fd2) (start Readiness.states fd1 fd2 stack) log m →
      Finished Readiness.states m → Leaves fcntl fd1 fd2 files .select (relayed fcntl fd1 fd2 files)
  | poll (stack s : Poll.State) (log : List Direction) : Runs Poll.Step (Poll.start fd1 fd2 stack) log s →
      Finished Readiness.states s.machines → Leaves fcntl fd1 fd2 files .poll (relayed fcntl fd1 fd2 files)
  | epoll (accepted1 accepted2 : Bool) (stack : Machines) (s : Epoll.State) (log : List Direction) :
      Runs (Epoll.Step fd1 fd2) (Epoll.start fd1 fd2 accepted1 accepted2 stack) log s →
      Finished Readiness.states s.machines → Leaves fcntl fd1 fd2 files .epoll (relayed fcntl fd1 fd2 files)
  | relAddjob (me : RelJobSt) (relJob : Jobs) : getFreePosUnlocked relJob = none →
      Leaves fcntl fd1 fd2 files .relAddjob (relAddjob fcntl (some me) fd1 fd2 relJob files).files

theorem leaves_relayed (leaves : Leaves fcntl fd1 fd2 files caller after) : after = relayed fcntl fd1 fd2 files := by
  cases leaves with
  | nonBlocked | select | poll | epoll => rfl
  | relAddjob me relJob full =>
    unfold relAddjob
    dsimp only
    rw [full]
    rfl

-- Two reads that come to the end of their files end each of the loops.
def ended : Answer := ⟨.endOfFile,.again⟩

theorem ended_fits (fsm : RelFsmSt) : ended.Fits fsm := by
  intro ret wrote
  cases wrote

theorem start_unfinished (s : States) (fd1 fd2 : Int) (stack : Machines) : ¬ Finished s (start s fd1 fd2 stack) :=
  fun finished => s.apart.2.2.1 finished.1

theorem nonBlocked_returns (fcntl : Fcntl κ) (fd1 fd2 : Int) (files : κ) : Leaves fcntl fd1 fd2 files .nonBlocked (relayed fcntl fd1 fd2 files) := by
  have step := NonBlocked.Step.pass ⟨ended,ended⟩ (start_unfinished NonBlocked.states fd1 fd2 blank) ⟨ended_fits _,ended_fits _⟩ rfl
  exact .nonBlocked blank _ _ (.one step) ⟨rfl,rfl⟩

theorem readable_asked : Readiness.Reported Readiness.eventIn Readiness.eventIn := ⟨by decide,by decide⟩

theorem poll_returns (fcntl : Fcntl κ) (fd1 fd2 : Int) (files : κ) : Leaves fcntl fd1 fd2 files .poll (relayed fcntl fd1 fd2 files) := by
  let s := Poll.start fd1 fd2 ⟨blank,0,0⟩
  let input : Poll.Input := ⟨[.ready (Readiness.eventIn,Readiness.eventIn)],ended,ended⟩
  have fits : input.Fits s.machines := by
    refine ⟨?_,ended_fits _,ended_fits _⟩
    intro revents present
    cases List.mem_singleton.mp present
    exact ⟨.inr readable_asked,.inr readable_asked,.inl readable_asked.1⟩
  have step := Poll.Step.pass (s := s) input (start_unfinished Readiness.states fd1 fd2 blank) fits rfl
  exact .poll _ _ _ (.one step) ⟨rfl,rfl⟩

theorem select_returns (fcntl : Fcntl κ) (fd1 fd2 : Int) (files : κ) : Leaves fcntl fd1 fd2 files .select (relayed fcntl fd1 fd2 files) := by
  let m := start Readiness.states fd1 fd2 blank
  let sets : Select.FdSets := ⟨Select.fdSet fd2 (Select.fdSet fd1 Select.fdZero),Select.fdZero⟩
  have asked : Select.requests m = sets := rfl
  let input : Select.Input := ⟨.ready sets,ended,ended⟩
  have fits : input.Fits m := by
    refine ⟨?_,?_,ended_fits _,ended_fits _⟩
    · intro answered same fd set
      cases same
      rwa [asked]
    · intro answered same fd set
      cases same
      rwa [asked]
  have readable1 : sets.rset fd1 = true := by simp [sets,Select.fdSet]
  have readable2 : sets.rset fd2 = true := by simp [sets,Select.fdSet]
  have ran : Select.inspect fd1 fd2 m sets input = driveBoth Readiness.states m true true ended ended := by
    rw [Select.inspect,readable1,readable2]
    rfl
  have step := Select.Step.pass (m := m) input (start_unfinished Readiness.states fd1 fd2 blank) fits ran
  exact .select _ _ _ (.one step) ⟨rfl,rfl⟩

theorem mod_listed {watched : Epoll.EpollSet} (listed : watched fd ≠ none) (other : Int) (ev : Epoll.EpollEvent) : Epoll.ctlMod other ev watched fd ≠ none := by
  unfold Epoll.ctlMod
  split
  · exact nofun
  · exact listed

-- A pass in which epoll_wait gives an event of a descriptor that is readable.
theorem epoll_pass {s : Epoll.State} (running : ¬ Finished Readiness.states s.machines) (waits : Readiness.Waits s.machines)
    (found : (Epoll.register fd1 fd2 s).set fd = some ⟨Readiness.eventIn,fd⟩)
    (ran : Epoll.inspect fd1 fd2 s.machines ⟨Readiness.eventIn,fd⟩ ⟨[.ready ⟨Readiness.eventIn,fd⟩],ended,ended⟩ = .again after calls) :
    Epoll.Step fd1 fd2 s calls ⟨after,⟨Readiness.eventIn,fd⟩,(Epoll.register fd1 fd2 s).set⟩ := by
  refine .pass ⟨[.ready ⟨Readiness.eventIn,fd⟩],ended,ended⟩ running ⟨?_,ended_fits _,ended_fits _⟩ ?_
  · intro ev present
    cases List.mem_singleton.mp present
    exact ⟨fd,_,found,rfl,readable_asked⟩
  · have same : (Epoll.register fd1 fd2 s).machines = s.machines := rfl
    simp only [Epoll.pass,Epoll.observe,same,if_pos waits,Readiness.wait,ran,Pass.map]

-- A machine after it has read to the end.
def atEnd (fsm : RelFsmSt) : RelFsmSt := {fsm with len := 0,state := Readiness.states.stateT}

-- One descriptor takes one pass, two take a pass each.
theorem epoll_returns (fcntl : Fcntl κ) (fd1 fd2 : Int) (files : κ) : Leaves fcntl fd1 fd2 files .epoll (relayed fcntl fd1 fd2 files) := by
  let s := Epoll.start fd1 fd2 true true blank
  have running := start_unfinished Readiness.states fd1 fd2 blank
  have below : (1 : Int) < Readiness.stateAuto := by decide
  have waits : Readiness.Waits s.machines := .inl below
  have self1 : (fd1 == fd1) = true := beq_self_eq_true fd1
  have self2 : (fd2 == fd2) = true := beq_self_eq_true fd2
  have listed2 : s.set fd2 ≠ none := by
    by_cases same : fd2 = fd1 <;> simp [s,Epoll.start,Epoll.ctlAdd,same]
  by_cases same : fd1 = fd2
  · subst same
    have found : (Epoll.register fd1 fd1 s).set fd1 = some ⟨Readiness.eventIn,fd1⟩ := if_pos ⟨rfl,mod_listed listed2 _ _⟩
    have step : Epoll.Step fd1 fd1 s [.fsm12,.fsm21] ⟨⟨atEnd s.machines.fsm12,atEnd s.machines.fsm21⟩,_,_⟩ := epoll_pass running waits found (by
      simp only [Epoll.inspect,self1]
      rfl)
    exact .epoll true true blank _ _ (.one step) ⟨rfl,rfl⟩
  · have apart : (fd1 == fd2) = false := beq_eq_false_iff_ne.mpr same
    have apart' : (fd2 == fd1) = false := beq_eq_false_iff_ne.mpr (Ne.symm same)
    have listed1 : s.set fd1 ≠ none := by simp [s,Epoll.start,Epoll.ctlAdd,same]
    have found : (Epoll.register fd1 fd2 s).set fd1 = some ⟨Readiness.eventIn,fd1⟩ :=
      (if_neg (fun both => same both.1)).trans (if_pos ⟨rfl,listed1⟩)
    have first : Epoll.Step fd1 fd2 s [.fsm12] ⟨⟨atEnd s.machines.fsm12,s.machines.fsm21⟩,_,_⟩ := epoll_pass running waits found (by
      simp only [Epoll.inspect,self1,apart]
      rfl)
    let s' : Epoll.State := ⟨⟨atEnd s.machines.fsm12,s.machines.fsm21⟩,⟨Readiness.eventIn,fd1⟩,(Epoll.register fd1 fd2 s).set⟩
    have stillListed : s'.set fd2 ≠ none := mod_listed (mod_listed listed2 _ _) _ _
    have found' : (Epoll.register fd1 fd2 s').set fd2 = some ⟨Readiness.eventIn,fd2⟩ := if_pos ⟨rfl,mod_listed stillListed _ _⟩
    have second : Epoll.Step fd1 fd2 s' [.fsm12,.fsm21] ⟨⟨s'.machines.fsm12,atEnd s'.machines.fsm21⟩,_,_⟩ := epoll_pass
      (fun finished => Readiness.states.apart.2.2.1 finished.2) (.inr below) found' (by
        simp only [Epoll.inspect,self2,apart']
        rfl)
    exact .epoll true true blank _ _ ((Runs.one first).append (.one second)) ⟨rfl,rfl⟩

theorem caller_returns (fcntl : Fcntl κ) (fd1 fd2 : Int) (files : κ) (caller : Caller) : Leaves fcntl fd1 fd2 files caller (relayed fcntl fd1 fd2 files) := by
  cases caller with
  | nonBlocked => exact nonBlocked_returns fcntl fd1 fd2 files
  | select => exact select_returns fcntl fd1 fd2 files
  | poll => exact poll_returns fcntl fd1 fd2 files
  | epoll => exact epoll_returns fcntl fd1 fd2 files
  | relAddjob =>
    let me : RelJobSt := ⟨0,0,0,blankFsm,blankFsm,0,0⟩
    have full : getFreePosUnlocked (fun _ => some me) = none := Slots.firstFree_full.mpr (fun _ => nofun)
    have leaves : Leaves fcntl fd1 fd2 files .relAddjob _ := .relAddjob me _ full
    exact leaves_relayed leaves ▸ leaves

theorem merge_bit (flags word : BitVec 32) (below : i < 32) :
    (merge flags word).getLsbD i = if settable.getLsbD i then word.getLsbD i else flags.getLsbD i := by
  simp only [merge,BitVec.getLsbD_or,BitVec.getLsbD_and,BitVec.getLsbD_not,below,decide_true,Bool.true_and]
  cases settable.getLsbD i <;> simp

theorem merge_merge (flags word other : BitVec 32) : merge (merge flags word) other = merge flags other := by
  apply BitVec.eq_of_getLsbD_eq
  intro i below
  rw [merge_bit _ _ below,merge_bit _ _ below,merge_bit _ _ below]
  split <;> rfl

theorem merge_again (flags word : BitVec 32) : merge flags (merge flags word) = merge flags word := by
  apply BitVec.eq_of_getLsbD_eq
  intro i below
  rw [merge_bit _ _ below,merge_bit _ _ below]
  split <;> rfl

theorem merge_self (flags : BitVec 32) : merge flags flags = flags := by
  apply BitVec.eq_of_getLsbD_eq
  intro i below
  rw [merge_bit _ _ below,ite_self]

theorem merge_nonblock (flags : BitVec 32) : merge flags (flags ||| oNonblock) = oNonblock ||| flags := by
  have settles : ∀ i < 32, oNonblock.getLsbD i = true → settable.getLsbD i = true := by decide
  apply BitVec.eq_of_getLsbD_eq
  intro i below
  rw [merge_bit _ _ below,BitVec.getLsbD_or,BitVec.getLsbD_or]
  split
  · exact Bool.or_comm _ _
  · rename_i fixed
    have clear : oNonblock.getLsbD i = false := Bool.eq_false_iff.mpr (fun set => fixed (settles i below set))
    rw [clear,Bool.false_or]

section
variable {D : Type} [DecidableEq D]

-- Both descriptors have the status flags they had.
def Kept (description : Int → Option D) (fd1 fd2 : Int) (before after : D → BitVec 32) : Prop :=
  ∀ fd, fd = fd1 ∨ fd = fd2 → (kernel description).getfl fd after = (kernel description).getfl fd before

theorem getfl_open {description : Int → Option D} (opened : description fd = some d) (flags : D → BitVec 32) :
    (kernel description).getfl fd flags = flags d := by
  simp [kernel,opened]

theorem setfl_open {description : Int → Option D} (opened : description fd = some d) (word : BitVec 32) (flags : D → BitVec 32) :
    (kernel description).setfl fd word flags = Function.update flags d (merge (flags d) word) := by
  simp [kernel,opened]

theorem setfl_closed {description : Int → Option D} (closed : description fd = none) (word : BitVec 32) (flags : D → BitVec 32) :
    (kernel description).setfl fd word flags = flags := by
  simp [kernel,closed]

-- With one description the flags saved for fd2 are those set for fd1.
theorem relayed_shared {description : Int → Option D} (opened1 : description fd1 = some d) (opened2 : description fd2 = some d)
    (flags : D → BitVec 32) : relayed (kernel description) fd1 fd2 flags = Function.update flags d (oNonblock ||| flags d) := by
  simp only [relayed,getfl_open opened1,getfl_open opened2,setfl_open opened1,setfl_open opened2,Function.update_self,
    Function.update_idem,merge_merge,merge_self,merge_again]
  rw [merge_nonblock]

theorem relayed_apart {description : Int → Option D} (apart : ∀ d, description fd1 = some d → description fd2 ≠ some d) (flags : D → BitVec 32) :
    relayed (kernel description) fd1 fd2 flags = flags := by
  cases opened1 : description fd1 with
  | none =>
    cases opened2 : description fd2 with
    | none => simp only [relayed,setfl_closed opened1,setfl_closed opened2]
    | some d2 =>
      simp only [relayed,getfl_open opened2,setfl_closed opened1,setfl_open opened2,Function.update_self,Function.update_idem,
        merge_merge,merge_self,Function.update_eq_self]
  | some d1 =>
    cases opened2 : description fd2 with
    | none =>
      simp only [relayed,getfl_open opened1,setfl_open opened1,setfl_closed opened2,Function.update_self,Function.update_idem,
        merge_merge,merge_self,Function.update_eq_self]
    | some d2 =>
      have different : d1 ≠ d2 := fun same => apart d1 opened1 (same ▸ opened2)
      -- Each description is set and put back by itself.
      simp only [relayed,getfl_open opened1,getfl_open opened2,setfl_open opened1,setfl_open opened2,Function.update_self,
        Function.update_of_ne different,Function.update_of_ne different.symm,merge_merge,merge_self]
      rw [Function.update_comm different.symm,Function.update_idem,Function.update_idem,Function.update_eq_self,Function.update_eq_self]

theorem flags_exact (caller : Caller) (description : Int → Option D) (fd1 fd2 : Int) (flags : D → BitVec 32) :
    (∀ after, Leaves (kernel description) fd1 fd2 flags caller after → Kept description fd1 fd2 flags after) ↔
      ∀ d, description fd1 = some d → description fd2 = some d → Within oNonblock (flags d) := by
  constructor
  · intro kept d opened1 opened2
    have same := kept _ (caller_returns (kernel description) fd1 fd2 flags caller) fd1 (.inl rfl)
    rw [relayed_shared opened1 opened2,getfl_open opened1,getfl_open opened1,Function.update_self] at same
    exact same
  · intro shared after leaves
    have unchanged : after = flags := by
      rw [leaves_relayed leaves]
      by_cases both : ∃ d, description fd1 = some d ∧ description fd2 = some d
      · obtain ⟨d,opened1,opened2⟩ := both
        have already : oNonblock ||| flags d = flags d := shared d opened1 opened2
        rw [relayed_shared opened1 opened2,already,Function.update_eq_self]
      · exact relayed_apart (fun d opened1 opened2 => both ⟨d,opened1,opened2⟩) flags
    intro fd _
    rw [unchanged]

end

-- One terminal, opened for reading and writing, under both numbers.
theorem nonblock_leaks : ¬ ∀ (caller : Caller) (description : Int → Option Unit) (fd1 fd2 : Int) (flags after : Unit → BitVec 32),
    Leaves (kernel description) fd1 fd2 flags caller after → Kept description fd1 fd2 flags after := by
  intro kept
  have opened : (fun _ : Int => some ()) 3 = some () := rfl
  have same := kept .nonBlocked (fun _ => some ()) 3 4 (fun _ => 2) _ (nonBlocked_returns _ 3 4 _) 3 (.inl rfl)
  rw [relayed_shared opened opened,getfl_open opened,getfl_open opened] at same
  exact absurd same (by decide)

end LinuxCoding.Relay.Flags
