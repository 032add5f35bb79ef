import Mathlib.Logic.Function.Basic
import LinuxCoding.ClientServer.Session

-- IPC/socket/Newer/c_s/s.c as a tree of processes, each a copy of the same loop.
namespace LinuxCoding.ClientServer.Server
open Bytes Stdio Transition

abbrev Pid : Type := Nat
abbrev Conn : Type := Nat

-- Where a process is in the loop of main, with its value of sd_client. Both sides of the
-- fork come to `closing`.
inductive Place where
  | accepting
  | opened (c : Conn)
  | forking (c : Conn)
  | serving (c : Conn)
  | closing (c : Conn)
  deriving DecidableEq

-- A session is `running` from the fork of its child until that child has closed the
-- connection, or has died.
inductive Status where
  | fresh
  | pending
  | accepted
  | running
  | ended
  deriving DecidableEq

-- `job` is the connection a process was forked for; `stream` is what its client has sent
-- and nobody has read, and `closed` whether the client has closed it.
structure State where
  process : Pid → Option Place
  job : Pid → Option Conn
  status : Conn → Status
  stream : Conn → List UInt8
  closed : Conn → Bool

def original : Pid := 0

def start : State := ⟨Function.update (fun _ => none) original (some .accepting),fun _ => none,fun _ => .fresh,fun _ => [],fun _ => false⟩

def State.goto (s : State) (p : Pid) (place : Option Place) : State := {s with process := Function.update s.process p place}
def State.mark (s : State) (c : Conn) (status : Status) : State := {s with status := Function.update s.status c status}
def State.read (s : State) (c : Conn) (rest : List UInt8) : State := {s with stream := Function.update s.stream c rest}

def State.forked (s : State) (p child : Pid) (c : Conn) : State :=
  {((s.goto p (some (.closing c))).goto child (some (.serving c))).mark c .running with job := Function.update s.job child (some c)}

-- fclose and close: the child of the connection ends its session.
def State.close (s : State) (p : Pid) (c : Conn) : State :=
  (if s.job p = some c then s.mark c .ended else s).goto p (some .accepting)

-- fgets has a whole line, or what is left at the end of the stream.
def State.Gets (s : State) (c : Conn) (buffer rest : List UInt8) : Prop :=
  line (bufSize - 1) (s.stream c) = some (buffer,rest) ∨ s.closed c = true ∧ fgets bufSize (s.stream c) = some (buffer,rest)

-- A process leaves the loop of its session, or ends itself because a call has failed.
inductive Event where
  | left (p : Pid)
  | failed (p : Pid)
  deriving DecidableEq

-- fgets returns NULL when the client has closed the connection, a reply on it may raise
-- SIGPIPE, and fork returns a pid that is not in use.
inductive Step : State → List Event → State → Prop where
  | connect (c : Conn) : s.status c = .fresh → Step s [] (s.mark c .pending)
  | send (c : Conn) (bytes : List UInt8) : s.status c ≠ .fresh → s.closed c = false → Step s [] (s.read c (s.stream c ++ bytes))
  | disconnect (c : Conn) : s.status c ≠ .fresh → Step s [] {s with closed := Function.update s.closed c true}
  | accept (p : Pid) (c : Conn) : s.process p = some .accepting → s.status c = .pending →
      Step s [] ((s.goto p (some (.opened c))).mark c .accepted)
  | acceptFails (p : Pid) : s.process p = some .accepting → Step s [.failed p] (s.goto p none)
  | fdopen (p : Pid) (c : Conn) : s.process p = some (.opened c) → Step s [] (s.goto p (some (.forking c)))
  | fdopenFails (p : Pid) (c : Conn) : s.process p = some (.opened c) → Step s [.failed p] (s.goto p none)
  | fork (p child : Pid) (c : Conn) : s.process p = some (.forking c) → s.process child = none → child ≠ original →
      Step s [] (s.forked p child c)
  | forkFails (p : Pid) (c : Conn) : s.process p = some (.forking c) → Step s [.failed p] (s.goto p none)
  | serve (p : Pid) (c : Conn) (buffer rest : List UInt8) : s.process p = some (.serving c) → s.Gets c buffer rest →
      isBye (bufText buffer) = false → Step s [] (s.read c rest)
  | bye (p : Pid) (c : Conn) (buffer rest : List UInt8) : s.process p = some (.serving c) → s.Gets c buffer rest →
      isBye (bufText buffer) = true → Step s [.left p] ((s.read c rest).goto p (some (.closing c)))
  | eof (p : Pid) (c : Conn) : s.process p = some (.serving c) → s.closed c = true → Step s [.left p] (s.goto p (some (.closing c)))
  | sigpipe (p : Pid) (c : Conn) : s.process p = some (.serving c) → s.closed c = true →
      Step s [] ((s.goto p none).mark c .ended)
  | close (p : Pid) (c : Conn) : s.process p = some (.closing c) → Step s [] (s.close p c)

@[simp] theorem goto_self (s : State) (p : Pid) (place : Option Place) : (s.goto p place).process p = place := by simp [State.goto]
theorem goto_others (s : State) (place : Option Place) (apart : p ≠ q) : (s.goto q place).process p = s.process p :=
  by simp [State.goto,apart]

@[simp] theorem mark_self (s : State) (c : Conn) (status : Status) : (s.mark c status).status c = status := by simp [State.mark]
theorem mark_others (s : State) (status : Status) (apart : d ≠ c) : (s.mark c status).status d = s.status d :=
  by simp [State.mark,apart]

-- The live processes are the original one and a child for each running session.
structure OneEach (s : State) : Prop where
  parent : s.process original ≠ none
  children : ∀ p, p ≠ original → s.process p ≠ none → ∃ c, s.job p = some c ∧ s.status c = .running
  each : ∀ c, s.status c = .running → ∃ p, (p ≠ original ∧ s.process p ≠ none ∧ s.job p = some c) ∧
    ∀ other, other ≠ original → s.process other ≠ none → s.job other = some c → other = p
  acceptor : ∀ p, s.process p = some .accepting → p = original

-- No child leaves its loop, and no call fails.
def Lasting (_ : State) (emitted : List Event) : Prop := emitted = []

-- The connection the original process has at hand is not yet, or no longer, its own to
-- serve.
def Place.Parental (status : Conn → Status) : Place → Prop
  | .accepting => True
  | .opened c => status c = .accepted
  | .forking c => status c = .accepted
  | .serving _ => False
  | .closing _ => True

structure Orderly (s : State) : Prop where
  parent : ∃ place, s.process original = some place ∧ place.Parental s.status
  orphan : s.job original = none
  child : ∀ p, p ≠ original → ∀ place, s.process p = some place → ∃ c, place = .serving c ∧ s.job p = some c ∧ s.status c = .running
  served : ∀ c, s.status c = .running → ∃ p, p ≠ original ∧ s.process p = some (.serving c)
  alone : ∀ p other c, s.process p = some (.serving c) → s.process other = some (.serving c) → p = other

theorem orderly_each {s : State} (orderly : Orderly s) : OneEach s := by
  obtain ⟨⟨place,there,parental⟩,orphan,child,served,alone⟩ := orderly
  refine ⟨?_,?_,?_,?_⟩
  · rw [there]
    exact Option.some_ne_none _
  · intro p apart live
    obtain ⟨at_,present⟩ := Option.ne_none_iff_exists'.mp live
    obtain ⟨c,_,job,running⟩ := child p apart at_ present
    exact ⟨c,job,running⟩
  · intro c running
    obtain ⟨p,apart,serves⟩ := served c running
    obtain ⟨_,⟨⟩,job,_⟩ := child p apart _ serves
    refine ⟨p,⟨apart,by rw [serves]; exact Option.some_ne_none _,job⟩,?_⟩
    intro other elsewhere live same
    obtain ⟨at_,present⟩ := Option.ne_none_iff_exists'.mp live
    obtain ⟨d,rfl,named,_⟩ := child other elsewhere at_ present
    cases Option.some.inj (named.symm.trans same)
    exact alone other p c present serves
  · intro p accepting
    by_contra apart
    obtain ⟨_,⟨⟩,_⟩ := child p apart _ accepting

theorem start_orderly : Orderly start := by
  have others : ∀ p, p ≠ original → start.process p = none := by
    intro p apart
    simp [start,Function.update_of_ne apart]
  refine ⟨⟨.accepting,by simp [start],trivial⟩,rfl,?_,?_,?_⟩
  · intro p apart place present
    rw [others p apart] at present
    cases present
  · intro c running
    cases running
  · intro p other c serves
    by_cases same : p = original
    · subst same
      cases serves
    · rw [others p same] at serves
      cases serves

-- Only the original process is elsewhere than in the session it was forked for.
theorem orderly_original {s : State} (orderly : Orderly s) (present : s.process p = some place) (idle : ∀ c, place ≠ .serving c) : p = original := by
  by_contra apart
  obtain ⟨c,serves,_⟩ := orderly.child p apart place present
  exact idle c serves

theorem orderly_child {s : State} (orderly : Orderly s) (serves : s.process p = some (.serving c)) : p ≠ original := by
  rintro rfl
  obtain ⟨place,there,parental⟩ := orderly.parent
  cases Option.some.inj (there.symm.trans serves)
  exact parental

-- A step of the original process that starts and ends no session.
theorem parent_orderly {s t : State} (orderly : Orderly s) (others : ∀ p, p ≠ original → t.process p = s.process p) (job : t.job = s.job)
    (running : ∀ c, t.status c = .running ↔ s.status c = .running)
    (parent : ∃ place, t.process original = some place ∧ place.Parental t.status) : Orderly t := by
  have serving : ∀ p c, t.process p = some (.serving c) → p ≠ original := by
    rintro p c serves rfl
    obtain ⟨place,there,parental⟩ := parent
    cases Option.some.inj (there.symm.trans serves)
    exact parental
  refine ⟨parent,by rw [job]; exact orderly.orphan,?_,?_,?_⟩
  · intro p apart place present
    rw [others p apart] at present
    obtain ⟨c,at_,named,runs⟩ := orderly.child p apart place present
    exact ⟨c,at_,by rw [job]; exact named,(running c).mpr runs⟩
  · intro c runs
    obtain ⟨p,apart,serves⟩ := orderly.served c ((running c).mp runs)
    exact ⟨p,apart,(others p apart).trans serves⟩
  · intro p other c here there
    have first := serving p c here
    have second := serving other c there
    rw [others p first] at here
    rw [others other second] at there
    exact orderly.alone p other c here there

-- Marking a connection that is and stays without a session.
theorem mark_running {s : State} (before : s.status c ≠ .running) (new : status ≠ .running) (d : Conn) :
    (s.mark c status).status d = .running ↔ s.status d = .running := by
  by_cases same : d = c
  · subst same
    exact iff_of_false (by simpa [State.mark] using new) before
  · rw [mark_others s status same]

theorem parental_mark {place : Place} {status : Conn → Status} (parental : place.Parental status) (untaken : status c ≠ .accepted) (new : Status) :
    place.Parental (Function.update status c new) := by
  cases place with
  | accepting | closing => trivial
  | serving => exact parental
  | opened d | forking d =>
    have apart : d ≠ c := by
      rintro rfl
      exact untaken parental
    exact (Function.update_of_ne apart ..).trans parental

theorem connect_orderly {s : State} (orderly : Orderly s) (fresh : s.status c = .fresh) : Orderly (s.mark c .pending) := by
  obtain ⟨place,there,parental⟩ := orderly.parent
  exact parent_orderly orderly (fun _ _ => rfl) rfl (mark_running (by rw [fresh]; simp) (by simp))
    ⟨place,there,parental_mark parental (by rw [fresh]; simp) .pending⟩

theorem accept_orderly {s : State} (orderly : Orderly s) (accepting : s.process p = some .accepting) (pending : s.status c = .pending) :
    Orderly ((s.goto p (some (.opened c))).mark c .accepted) := by
  cases orderly_original orderly accepting (fun _ => by simp)
  exact parent_orderly orderly (fun _ apart => goto_others s _ apart) rfl (mark_running (s := s.goto original _) (by rw [State.goto,pending]; simp) (by simp))
    ⟨.opened c,goto_self s original _,mark_self (s.goto original _) c _⟩

theorem fdopen_orderly {s : State} (orderly : Orderly s) (opened : s.process p = some (.opened c)) :
    Orderly (s.goto p (some (.forking c))) := by
  cases orderly_original orderly opened (fun _ => by simp)
  obtain ⟨place,there,parental⟩ := orderly.parent
  cases Option.some.inj (there.symm.trans opened)
  exact parent_orderly orderly (fun _ apart => goto_others s _ apart) rfl (fun _ => Iff.rfl) ⟨.forking c,goto_self ..,parental⟩

theorem close_orderly {s : State} (orderly : Orderly s) (closing : s.process p = some (.closing c)) : Orderly (s.close p c) := by
  cases orderly_original orderly closing (fun _ => by simp)
  have other : s.job original ≠ some c := by
    rw [orderly.orphan]
    simp
  rw [State.close,if_neg other]
  exact parent_orderly orderly (fun _ apart => goto_others s _ apart) rfl (fun _ => Iff.rfl) ⟨.accepting,goto_self ..,trivial⟩

theorem quiet_orderly {s t : State} (orderly : Orderly s) (process : t.process = s.process) (job : t.job = s.job) (status : t.status = s.status) :
    Orderly t := by
  obtain ⟨place,there,parental⟩ := orderly.parent
  refine parent_orderly orderly (fun _ _ => by rw [process]) job (fun _ => by rw [status]) ⟨place,?_,?_⟩
  · rw [process]
    exact there
  · rw [status]
    exact parental

section
variable {s : State}

theorem forked_original (apart : child ≠ original) : (s.forked original child c).process original = some (.closing c) := by
  simp [State.forked,State.mark,State.goto,Ne.symm apart]

theorem forked_child (s : State) (p : Pid) (c : Conn) : (s.forked p child c).process child = some (.serving c) := by
  simp [State.forked,State.mark,State.goto]

theorem forked_others (first : q ≠ p) (second : q ≠ child) : (s.forked p child c).process q = s.process q := by
  simp [State.forked,State.mark,State.goto,first,second]

theorem forked_jobs (other : q ≠ child) : (s.forked p child c).job q = s.job q := by
  simp [State.forked,State.mark,State.goto,other]

theorem forked_status (other : d ≠ c) : (s.forked p child c).status d = s.status d := by
  simp [State.forked,State.mark,State.goto,other]

-- The child's session is new, and the parent has none.
theorem forked_serving (apart : child ≠ original) (serves : (s.forked original child c).process p = some (.serving d)) :
    p = child ∧ d = c ∨ p ≠ original ∧ s.process p = some (.serving d) := by
  by_cases first : p = original
  · subst first
    rw [forked_original apart] at serves
    cases serves
  · by_cases second : p = child
    · subst second
      rw [forked_child] at serves
      cases serves
      exact .inl ⟨rfl,rfl⟩
    · exact .inr ⟨first,(forked_others first second).symm.trans serves⟩

end

-- The connection of the child is new to the children, so it is the only one that serves
-- it.
theorem fork_orderly {s : State} (orderly : Orderly s) (forking : s.process p = some (.forking c)) (free : s.process child = none)
    (apart : child ≠ original) : Orderly (s.forked p child c) := by
  cases orderly_original orderly forking (fun _ => by simp)
  obtain ⟨⟨place,there,parental⟩,orphan,children,served,alone⟩ := orderly
  cases Option.some.inj (there.symm.trans forking)
  have accepted : s.status c = .accepted := parental
  have job : (s.forked original child c).job child = some c := by simp [State.forked]
  have running : (s.forked original child c).status c = .running := by simp [State.forked,State.mark]
  -- A session that ran before is of another connection.
  have elsewhere : ∀ p, p ≠ original → ∀ d, s.process p = some (.serving d) → d ≠ c := by
    rintro p first d serves rfl
    obtain ⟨_,⟨⟩,_,runs⟩ := children p first _ serves
    rw [accepted] at runs
    cases runs
  refine ⟨⟨_,forked_original apart,trivial⟩,(forked_jobs (Ne.symm apart)).trans orphan,?_,?_,?_⟩
  · intro p first place present
    by_cases second : p = child
    · subst second
      rw [forked_child] at present
      cases present
      exact ⟨c,rfl,job,running⟩
    · rw [forked_others first second] at present
      obtain ⟨d,rfl,named,runs⟩ := children p first place present
      exact ⟨d,rfl,(forked_jobs second).trans named,(forked_status (elsewhere p first d present)).trans runs⟩
  · intro d runs
    by_cases same : d = c
    · subst same
      exact ⟨child,apart,forked_child s original d⟩
    · obtain ⟨p,first,serves⟩ := served d ((forked_status same).symm.trans runs)
      have second : p ≠ child := by
        rintro rfl
        rw [free] at serves
        cases serves
      exact ⟨p,first,(forked_others first second).trans serves⟩
  · intro p other d here there
    rcases forked_serving apart here with ⟨rfl,rfl⟩ | ⟨first,old⟩
    · rcases forked_serving apart there with ⟨rfl,_⟩ | ⟨second,older⟩
      · rfl
      · exact absurd rfl (elsewhere other second d older)
    · rcases forked_serving apart there with ⟨_,rfl⟩ | ⟨_,older⟩
      · exact absurd rfl (elsewhere p first d old)
      · exact alone p other d old older

theorem sigpipe_orderly {s : State} (orderly : Orderly s) (serves : s.process p = some (.serving c)) : Orderly ((s.goto p none).mark c .ended) := by
  have apart := orderly_child orderly serves
  obtain ⟨⟨place,there,parental⟩,orphan,children,served,alone⟩ := orderly
  have others : ∀ q, q ≠ p → ((s.goto p none).mark c .ended).process q = s.process q := fun q other => goto_others s none other
  have gone : ((s.goto p none).mark c .ended).process p = none := goto_self s p none
  have statuses : ∀ d, d ≠ c → ((s.goto p none).mark c .ended).status d = s.status d := fun d other => mark_others (s.goto p none) .ended other
  obtain ⟨_,⟨⟩,_,running⟩ := children p apart _ serves
  refine ⟨⟨place,(others _ (Ne.symm apart)).trans there,?_⟩,orphan,?_,?_,?_⟩
  · exact parental_mark parental (by rw [running]; simp) .ended
  · intro q first at_ present
    by_cases same : q = p
    · subst same
      rw [gone] at present
      cases present
    · rw [others q same] at present
      obtain ⟨d,rfl,named,runs⟩ := children q first at_ present
      have elsewhere : d ≠ c := by
        rintro rfl
        exact same (alone q p d present serves)
      exact ⟨d,rfl,named,(statuses d elsewhere).trans runs⟩
  · intro d runs
    have elsewhere : d ≠ c := by
      rintro rfl
      rw [mark_self] at runs
      cases runs
    obtain ⟨q,first,serving⟩ := served d ((statuses d elsewhere).symm.trans runs)
    have same : q ≠ p := by
      rintro rfl
      cases Option.some.inj (serving.symm.trans serves)
      exact elsewhere rfl
    exact ⟨q,first,(others q same).trans serving⟩
  · intro q other d here there
    have first : q ≠ p := by
      rintro rfl
      rw [gone] at here
      cases here
    have second : other ≠ p := by
      rintro rfl
      rw [gone] at there
      cases there
    rw [others q first] at here
    rw [others other second] at there
    exact alone q other d here there

theorem step_orderly {s : State} (orderly : Orderly s) (step : Where Step Lasting s emitted after) : Orderly after := by
  obtain ⟨taken,lasting⟩ := step
  cases taken with
  | connect c fresh => exact connect_orderly orderly fresh
  | send | disconnect | serve => exact quiet_orderly orderly rfl rfl rfl
  | accept p c accepting pending => exact accept_orderly orderly accepting pending
  | fdopen p c opened => exact fdopen_orderly orderly opened
  | fork p child c forking free apart => exact fork_orderly orderly forking free apart
  | sigpipe p c serves closed => exact sigpipe_orderly orderly serves
  | close p c closing => exact close_orderly orderly closing
  | acceptFails | fdopenFails | forkFails | bye | eof => cases lasting

-- A child that leaves its loop comes back to accept, and without the original process
-- there is nobody to accept.
theorem left_accepts {s : State} (orderly : Orderly s) (serves : s.process p = some (.serving c)) (moved : after.process p = some (.closing c)) :
    ∃ log t, Runs Step after log t ∧ ¬ OneEach t := by
  refine ⟨_,_,.one (.close p c moved),?_⟩
  intro each
  exact orderly_child orderly serves (each.acceptor p (goto_self _ p _))

theorem failed_exits {s : State} (orderly : Orderly s) (present : s.process p = some place) (idle : ∀ c, place ≠ .serving c) :
    ∃ log t, Runs Step (s.goto p none) log t ∧ ¬ OneEach t := by
  refine ⟨_,_,.nil,?_⟩
  intro each
  cases orderly_original orderly present idle
  exact each.parent (goto_self s _ none)

theorem step_breaks {s : State} (orderly : Orderly s) (step : Step s emitted after) (unlasting : ¬ Lasting s emitted) :
    ∃ log t, Runs Step after log t ∧ ¬ OneEach t := by
  cases step with
  | connect | send | disconnect | accept | fdopen | fork | serve | sigpipe | close => exact absurd rfl unlasting
  | acceptFails p accepting => exact failed_exits orderly accepting (fun _ => by simp)
  | fdopenFails p c opened => exact failed_exits orderly opened (fun _ => by simp)
  | forkFails p c forking => exact failed_exits orderly forking (fun _ => by simp)
  | bye p c buffer rest serves => exact left_accepts orderly serves (goto_self _ p _)
  | eof p c serves => exact left_accepts orderly serves (goto_self _ p _)

theorem run_orderly (run : Runs (Where Step Lasting) start log s) : Orderly s :=
  run.stateInvariant (fun _ _ _ orderly step => step_orderly orderly step) start_orderly

end LinuxCoding.ClientServer.Server
