import LinuxCoding.AnyTimer.Schedule

-- at_addjob and at_addjob_repeat statement by statement: SIGALRM is not blocked in them,
-- so the handler and its callbacks run between any two of them.
namespace LinuxCoding.AnyTimer
open CInt Slots Transition

-- What an add does next: the test of sec, module_load, initied = 1, the test of job[i] in
-- get_free_pos, malloc, and job[pos] = me. Only the add sees *me until that last store.
inductive Stage where
  | checking
  | loading
  | loaded
  | scanning (i : Nat)
  | found (pos : Slot)
  | filled (pos : Slot)
  deriving DecidableEq

structure Adding where
  call : Call
  me : AtJobSt
  request : call.request = some me
  stage : Stage

structure Program where
  timer : State
  adding : Option Adding

def Adding.goes (add : Adding) (s : State) (stage : Stage) : Program × List Event := (⟨s,some {add with stage := stage}⟩,[])
def Adding.done (add : Adding) (s : State) (ret : Int) : Program × List Event := (⟨s,none⟩,[.returned add.call ret])

def withInitied (s : State) : State := {s with timer := {s.timer with initied := true}}

-- The next statement; none is the exit of a failed module_load.
def advance (loads memory : Bool) (add : Adding) (s : State) : Option (Program × List Event) :=
  match add.stage with
  | .checking =>
    if add.me.sec.val < 0 then some (add.done s (-einval))
    else if s.timer.initied then some (add.goes s (.scanning 0))
    else some (add.goes s .loading)
  | .loading => if loads then some (add.goes s .loaded) else none
  | .loaded => some (add.goes (withInitied s) (.scanning 0))
  | .scanning i =>
    if bound : i < jobMax then
      if (s.timer.job ⟨i,bound⟩).isNone then some (add.goes s (.found ⟨i,bound⟩))
      else some (add.goes s (.scanning (i + 1)))
    else some (add.done s (-enospc))
  | .found pos => if memory then some (add.goes s (.filled pos)) else some (add.done s (-enomem))
  | .filled pos => some (add.done (s.withJob (Function.update s.timer.job pos (some add.me))) (pos : Nat))

-- The timer runs from the end of module_load on.
def Program.Ticking (p : Program) : Prop :=
  p.timer.timer.initied = true ∨ ∃ add, p.adding = some add ∧ add.stage = .loaded

def begin : Program := ⟨start,none⟩

-- An add outside the handler takes its statements one at a time. While the handler runs
-- nothing else does, and SIGALRM is blocked, so an add of a callback is one step.
inductive Program.Step : Program → List Event → Program → Prop where
  | alarm (siCode : Int) : p.timer.handler = .off → p.timer.main ≠ .crashed → p.Ticking →
      Program.Step p (alrmAction siCode p.timer).2 {p with timer := (alrmAction siCode p.timer).1}
  | handler : p.timer.handler ≠ .off → AnyTimer.Step p.timer emitted t → Program.Step p emitted {p with timer := t}
  | outside : p.timer.handler = .off → p.adding = none → AnyTimer.Step p.timer emitted t →
      Program.Step p emitted {p with timer := t}
  | enter (call : Call) (request : call.request = some me) : p.timer.handler = .off → p.timer.main = .ready →
      p.adding = none → Program.Step p [] {p with adding := some ⟨call,me,request,.checking⟩}
  | add (loads memory : Bool) (add : Adding) : p.timer.handler = .off → p.adding = some add →
      advance loads memory add p.timer = some (next,emitted) → Program.Step p emitted next

-- The job an event says was added to a slot.
def Event.adds (i : Slot) : Event → Option AtJobSt
  | .returned call ret => if ret = (i : Nat) then call.request else none
  | _ => none

-- Whose a slot is: of the last add that returned its index, until that job is reaped.
def holds (i : Slot) (before : Option AtJobSt) (event : Event) : Option AtJobSt :=
  match event with
  | .returned (.waitjob id) ret => if id = (i : Nat) ∧ ret = 0 then none else before
  | event => (event.adds i).or before

def tenant (i : Slot) (log : List Event) : Option AtJobSt := log.foldl (holds i) none

-- No add returns the index of a slot whose job has not been reaped.
def Distinct (i : Slot) (before : Option AtJobSt) : List Event → Prop
  | [] => True
  | event :: rest => (event.adds i ≠ none → before = none) ∧ Distinct i (holds i before event) rest

-- now is the job that an add stored as me: what the add was given does not change.
def AtJobSt.Is (now me : AtJobSt) : Prop :=
  now.sec = me.sec ∧ now.jobp = me.jobp ∧ now.arg = me.arg ∧ now.repeats = me.repeats

structure Keeps (log : List Event) (job : Jobs) : Prop where
  distinct : ∀ i, Distinct i none log
  present : ∀ i me, tenant i log = some me → ∃ now, job i = some now ∧ now.Is me

-- An interrupted add that comes to job[pos] = me finds the slot as get_free_pos found it.
def StillFree (p : Program) (emitted : List Event) : Prop :=
  ∀ add pos ret, p.adding = some add → add.stage = .filled pos → p.timer.handler = .off → .returned add.call ret ∈ emitted →
    p.timer.timer.job pos = none

def Tracks : Option AtJobSt → Option AtJobSt → Prop
  | none,none => True
  | some me,some now => now.Is me
  | _,_ => False

theorem distinct_append {i : Slot} {left right : List Event} :
    Distinct i before (left ++ right) ↔ Distinct i before left ∧ Distinct i (left.foldl (holds i) before) right := by
  induction left generalizing before with
  | nil => simp [Distinct]
  | cons event rest ih => simp [Distinct,ih,and_assoc]

theorem adds_unconcerned {event : Event} (apart : ¬event.Concerns i) : event.adds i = none := by
  cases event with
  | tick | fired => rfl
  | returned call ret =>
    cases call with
    | addjob | addjobRepeat => exact if_neg apart
    | canceljob | waitjob => simp [Event.adds,Call.request]

theorem adds_none {call : Call} (request : call.request = none) (i : Slot) (ret : Int) : (Event.returned call ret).adds i = none := by
  simp [Event.adds,request]

theorem holds_unconcerned (before : Option AtJobSt) (event : Event) (apart : ¬event.Concerns i) : holds i before event = before := by
  unfold holds
  split
  · exact if_neg apart
  · rw [adds_unconcerned apart,Option.none_or]

theorem distinct_unconcerned {emitted : List Event} (apart : ∀ event ∈ emitted, ¬event.Concerns i) : Distinct i before emitted := by
  induction emitted generalizing before with
  | nil => trivial
  | cons event rest ih =>
    refine ⟨?_,ih (fun other present => apart other (List.mem_cons_of_mem _ present))⟩
    intro added
    exact absurd (adds_unconcerned (apart event List.mem_cons_self)) added

theorem holds_added {call : Call} (request : call.request = some me) (i : Slot) (before : Option AtJobSt) :
    holds i before (.returned call (i : Nat)) = some me := by
  cases call with
  | addjob | addjobRepeat => simp [holds,Event.adds,request]
  | canceljob | waitjob => cases request

theorem tracks_some (tracks : Tracks held (some now)) : ∃ me, held = some me ∧ now.Is me := by
  cases held with
  | none => cases tracks
  | some me => exact ⟨me,rfl,tracks⟩

theorem tracks_none (tracks : Tracks held none) : held = none := by
  cases held with
  | none => rfl
  | some me => cases tracks

theorem tracks_cell (tracks : Tracks held c.job) (step : Cell.Step i c emitted after) :
    Distinct i held emitted ∧ Tracks (emitted.foldl (holds i) held) after.job := by
  cases step with
  | other apart =>
    rw [fold_unconcerned holds_unconcerned apart]
    exact ⟨distinct_unconcerned apart,tracks⟩
  | tick | passed => exact ⟨by simp [Distinct,Event.adds],tracks⟩
  | counted me _ present _ =>
    rw [present] at tracks
    obtain ⟨owner,rfl,same⟩ := tracks_some tracks
    exact ⟨trivial,same⟩
  | fired me _ present _ =>
    rw [present] at tracks
    obtain ⟨owner,rfl,same⟩ := tracks_some tracks
    exact ⟨by simp [Distinct,Event.adds],same⟩
  | back me _ present =>
    rw [present] at tracks
    obtain ⟨owner,rfl,same⟩ := tracks_some tracks
    refine ⟨trivial,?_⟩
    change (rearm me).Is owner
    unfold rearm
    split <;> exact same
  | crashed _ empty =>
    rw [empty] at tracks
    exact ⟨trivial,tracks⟩
  | added me empty request _ =>
    rw [empty] at tracks
    have vacant := tracks_none tracks
    subst vacant
    refine ⟨⟨fun _ => rfl,trivial⟩,?_⟩
    rw [List.foldl_cons,holds_added request]
    exact ⟨rfl,rfl,rfl,rfl⟩
  | canceled me present _ =>
    rw [present] at tracks
    obtain ⟨owner,rfl,same⟩ := tracks_some tracks
    refine ⟨by simp [Distinct,Event.adds,Call.request],?_⟩
    have kept : holds i (some owner) (.returned (.canceljob (i : Nat)) 0) = some owner := by
      change ((Event.returned (.canceljob (i : Nat)) 0).adds i).or (some owner) = some owner
      rw [adds_none rfl,Option.none_or]
    rw [List.foldl_cons,kept]
    exact same
  | reaped me present _ _ =>
    refine ⟨by simp [Distinct,Event.adds,Call.request],?_⟩
    simp [holds,Tracks]

theorem advance_cases (ran : advance loads memory add s = some (next,emitted)) :
    (next.timer.timer.job = s.timer.job ∧ ∀ i, ∀ event ∈ emitted, ¬event.Concerns i) ∨
      ∃ pos, add.stage = .filled pos ∧ next.timer.timer.job = Function.update s.timer.job pos (some add.me) ∧
        emitted = [.returned add.call (pos : Nat)] := by
  have refused : ∀ ret, ret < 0 → ∀ i, ∀ event ∈ [Event.returned add.call ret], ¬event.Concerns i := by
    intro ret negative i event member
    cases List.mem_singleton.mp member
    exact refused_unconcerned negative
  unfold advance at ran
  cases stage : add.stage with
  | checking =>
    simp only [stage] at ran
    split at ran
    · cases ran
      exact .inl ⟨rfl,refused _ (by decide)⟩
    · split at ran <;> cases ran <;> exact .inl ⟨rfl,by simp⟩
  | loading =>
    simp only [stage] at ran
    split at ran
    · cases ran
      exact .inl ⟨rfl,by simp⟩
    · cases ran
  | loaded =>
    simp only [stage] at ran
    cases ran
    exact .inl ⟨rfl,by simp⟩
  | scanning i =>
    simp only [stage] at ran
    split at ran
    · split at ran <;> cases ran <;> exact .inl ⟨rfl,by simp⟩
    · cases ran
      exact .inl ⟨rfl,refused _ (by decide)⟩
  | found pos =>
    simp only [stage] at ran
    split at ran
    · cases ran
      exact .inl ⟨rfl,by simp⟩
    · cases ran
      exact .inl ⟨rfl,refused _ (by decide)⟩
  | filled pos =>
    simp only [stage] at ran
    cases ran
    exact .inr ⟨pos,rfl,rfl,rfl⟩

-- The slots and whose they are, whatever steps were taken.
structure Owned (log : List Event) (job : Jobs) : Prop where
  distinct : ∀ i, Distinct i none log
  tracks : ∀ i, Tracks (tenant i log) (job i)

theorem owned_keeps (owned : Owned log job) : Keeps log job := by
  refine ⟨owned.distinct,?_⟩
  intro i me own
  have tracks := owned.tracks i
  rw [own] at tracks
  cases present : job i with
  | none =>
    rw [present] at tracks
    cases tracks
  | some now =>
    rw [present] at tracks
    exact ⟨now,rfl,tracks⟩

theorem owned_step (owned : Owned log s.timer.job) (step : AnyTimer.Step s emitted t) : Owned (log ++ emitted) t.timer.job := by
  refine ⟨fun i => ?_,fun i => ?_⟩
  · exact distinct_append.mpr ⟨owned.distinct i,(tracks_cell (owned.tracks i) (step_cell step i)).1⟩
  · rw [tenant,List.foldl_append]
    exact (tracks_cell (owned.tracks i) (step_cell step i)).2

theorem owned_unconcerned (owned : Owned log job) (apart : ∀ i, ∀ event ∈ emitted, ¬event.Concerns i) : Owned (log ++ emitted) job := by
  refine ⟨fun i => ?_,fun i => ?_⟩
  · exact distinct_append.mpr ⟨owned.distinct i,distinct_unconcerned (apart i)⟩
  · rw [tenant,List.foldl_append,fold_unconcerned holds_unconcerned (apart i)]
    exact owned.tracks i

theorem owned_stores (owned : Owned log job) (empty : job pos = none) (request : call.request = some me) :
    Owned (log ++ [.returned call (pos : Nat)]) (Function.update job pos (some me)) := by
  have vacant : tenant pos log = none := by
    have tracks := owned.tracks pos
    rw [empty] at tracks
    exact tracks_none tracks
  refine ⟨fun i => distinct_append.mpr ⟨owned.distinct i,?_,trivial⟩,fun i => ?_⟩
  · intro added
    by_cases same : i = pos
    · rw [same]
      exact vacant
    · exact absurd (if_neg (fun index => same (slot_cast index).symm)) added
  · rw [tenant,List.foldl_append,List.foldl_cons,List.foldl_nil]
    by_cases same : i = pos
    · rw [same,holds_added request,Function.update_self]
      exact ⟨rfl,rfl,rfl,rfl⟩
    · have apart : ¬(Event.returned call (pos : Nat)).Concerns i := by
        intro concerns
        exact same (slot_cast (request_concerns request concerns)).symm
      rw [holds_unconcerned _ _ apart,Function.update_of_ne same]
      exact owned.tracks i

theorem owned_program {p : Program} (owned : Owned log p.timer.timer.job) (step : Program.Step p emitted next)
    (free : StillFree p emitted) : Owned (log ++ emitted) next.timer.timer.job := by
  cases step with
  | alarm siCode off alive ticking =>
    unfold alrmAction
    split
    · exact owned_unconcerned owned (by simp)
    · refine ⟨fun i => distinct_append.mpr ⟨owned.distinct i,by simp [Distinct,Event.adds]⟩,fun i => ?_⟩
      rw [tenant,List.foldl_append]
      exact owned.tracks i
  | handler busy inner => exact owned_step owned inner
  | outside off idle inner => exact owned_step owned inner
  | enter call request off ready idle => exact owned_unconcerned owned (by simp)
  | add loads memory add off adding ran =>
    rcases advance_cases ran with ⟨same,apart⟩ | ⟨pos,stage,stored,rfl⟩
    · rw [same]
      exact owned_unconcerned owned apart
    · rw [stored]
      exact owned_stores owned (free add pos _ adding stage off List.mem_cons_self) add.request

theorem run_owned (run : Runs (Where Program.Step StillFree) begin log p) : Owned log p.timer.timer.job := by
  apply run.invariant (I := fun log p => Owned log p.timer.timer.job)
  · exact fun _ _ _ _ owned step => owned_program owned step.1 step.2
  · exact ⟨fun _ => trivial,fun _ => trivial⟩

-- The store over a job: its slot has two.
theorem kept_free {p : Program} (owned : Owned log p.timer.timer.job) (step : Program.Step p emitted next)
    (keeps : Keeps (log ++ emitted) next.timer.timer.job) : StillFree p emitted := by
  intro add pos ret adding stage off returned
  cases step with
  | alarm siCode =>
    unfold alrmAction at returned
    split at returned
    · cases returned
    · cases List.mem_singleton.mp returned
  | handler busy => exact absurd off busy
  | outside _ idle | enter _ _ _ _ idle =>
    rw [idle] at adding
    cases adding
  | add loads memory other _ same ran =>
    rw [same] at adding
    cases adding
    have stores : emitted = [.returned add.call (pos : Nat)] := by
      simp only [advance,stage] at ran
      cases ran
      rfl
    subst stores
    have taken : (Event.returned add.call (pos : Nat)).adds pos ≠ none := by simp [Event.adds,add.request]
    have vacant := (distinct_append.mp (keeps.distinct pos)).2.1 taken
    have tracks := owned.tracks pos
    cases present : p.timer.timer.job pos with
    | none => rfl
    | some now =>
      rw [present] at tracks
      obtain ⟨me,own,_⟩ := tracks_some tracks
      rw [tenant] at own
      rw [vacant] at own
      cases own

theorem adds_preempted (run : Runs (Where Program.Step StillFree) begin log p) :
    Keeps log p.timer.timer.job ∧
      ∀ emitted next, Program.Step p emitted next → (Keeps (log ++ emitted) next.timer.timer.job ↔ StillFree p emitted) := by
  have owned := run_owned run
  refine ⟨owned_keeps owned,?_⟩
  intro emitted next step
  exact ⟨kept_free owned step,fun free => owned_keeps (owned_program owned step free)⟩

-- A run of the handler while an add is interrupted.
theorem handler_run {s t : State} (run : Runs (Where AnyTimer.Step (fun s _ => s.handler ≠ .off)) s log t) (adding : Option Adding) :
    Runs (Where Program.Step StillFree) ⟨s,adding⟩ log ⟨t,adding⟩ := by
  induction run with
  | nil => exact .nil
  | step prior taken ih =>
    refine .step ih ⟨.handler taken.2 taken.1,?_⟩
    intro add pos ret _ _ off
    exact absurd off taken.2

def slot1 : Slot := ⟨1,by decide⟩

-- at_addjob(1, g, b) of the program while slot 0 holds the job of one tick.
def second1 : Adding := ⟨.addjob second 3 4,newJob 0 second 3 4,rfl,.checking⟩

theorem early_free {p : Program} (before : ∀ add pos, p.adding = some add → add.stage ≠ .filled pos) : StillFree p emitted :=
  fun add pos _ adding stage => absurd stage (before add pos adding)

theorem second1_moves (me : AtJobSt) (memory : Bool) (stage next : Stage) (early : ∀ pos, stage ≠ .filled pos)
    (moves : advance true memory {second1 with stage := stage} ⟨oneJob me,.ready,.off⟩ =
      some ({second1 with stage := stage}.goes ⟨oneJob me,.ready,.off⟩ next)) :
    Runs (Where Program.Step StillFree) ⟨⟨oneJob me,.ready,.off⟩,some {second1 with stage := stage}⟩ []
      ⟨⟨oneJob me,.ready,.off⟩,some {second1 with stage := next}⟩ := by
  refine .one ⟨.add true memory _ rfl rfl moves,early_free ?_⟩
  rintro add pos ⟨⟩
  exact early pos

-- It has found slot 1 when the signal comes and the callback of slot 0 is called.
theorem interrupted : Runs (Where Program.Step StillFree) begin
    [.returned (.addjob second 7 9) (slot0 : Nat),.tick,.fired slot0 7 9]
    ⟨⟨oneJob onceFired,.ready,.callback slot0⟩,some {second1 with stage := .found slot1}⟩ := by
  have first : Runs (Where Program.Step StillFree) begin _ ⟨⟨oneJob once,.ready,.off⟩,none⟩ :=
    .one ⟨.outside rfl rfl once_added,early_free (fun _ _ none => by cases none)⟩
  have entered : Runs (Where Program.Step StillFree) ⟨⟨oneJob once,.ready,.off⟩,none⟩ _ ⟨⟨oneJob once,.ready,.off⟩,some second1⟩ :=
    .one ⟨.enter (.addjob second 3 4) rfl rfl rfl rfl,early_free (fun _ _ none => by cases none)⟩
  have checked := second1_moves once true .checking (.scanning 0) (by simp) rfl
  have passed := second1_moves once true (.scanning 0) (.scanning 1) (by simp) rfl
  have found := second1_moves once true (.scanning 1) (.found slot1) (by simp) rfl
  have ticked : Runs (Where Program.Step StillFree) ⟨⟨oneJob once,.ready,.off⟩,some {second1 with stage := .found slot1}⟩ [.tick]
      ⟨⟨oneJob once,.ready,.scan 0⟩,some {second1 with stage := .found slot1}⟩ :=
    .one ⟨.alarm siKernel rfl (by simp) (.inl rfl),early_free (fun _ _ same => by cases same; simp)⟩
  have fired := handler_run (.one ⟨once_fired,by simp⟩) (some {second1 with stage := .found slot1})
  exact ((((((first.append entered).append checked).append passed).append found).append ticked).append fired)

-- The callback adds nothing, and the add gets the slot it found.
theorem interrupted_add : ∃ log p, Runs (Where Program.Step StillFree) begin log p ∧
    p.timer.timer.job slot1 = some (newJob 0 second 3 4) ∧ Keeps log p.timer.timer.job := by
  have back := handler_run (.one ⟨once_back,by simp⟩) (some {second1 with stage := .found slot1})
  have ends : Runs (Where AnyTimer.Step (fun s _ => s.handler ≠ .off)) _ _ _ := once_finishes (fun _ _ at_ => by simp [at_])
  have finished := handler_run ends (some {second1 with stage := .found slot1})
  have filled := second1_moves (rearm onceFired) true (.found slot1) (.filled slot1) (by simp) rfl
  have stored : Runs (Where Program.Step StillFree)
      ⟨⟨oneJob (rearm onceFired),.ready,.off⟩,some {second1 with stage := .filled slot1}⟩ _ _ :=
    .one ⟨.add true true _ rfl rfl rfl,by
      rintro add pos ret ⟨⟩ ⟨⟩ _ _
      rfl⟩
  have run := ((((interrupted.append back).append finished).append filled).append stored)
  exact ⟨_,_,run,rfl,(adds_preempted run).1⟩

-- The callback adds a job of two ticks, which gets slot 1 too.
def nested : AtJobSt := newJob 0 ⟨2,by decide,by decide⟩ 5 6
def nestedTicked : AtJobSt := {nested with timeRemain := store 1}

def twoJobs (me other : AtJobSt) : Timer := ⟨Function.update (oneJob me).job slot1 (some other),true⟩

theorem slots_apart : slot0 ≠ slot1 := by decide

theorem twoJobs_slot0 (me other : AtJobSt) : (twoJobs me other).job slot0 = some me := by
  simp [twoJobs,oneJob,slots_apart]

theorem twoJobs_slot1 (me other : AtJobSt) : (twoJobs me other).job slot1 = some other := by simp [twoJobs]

theorem twoJobs_first (me other new : AtJobSt) : Function.update (twoJobs me other).job slot0 (some new) = (twoJobs new other).job := by
  simp only [twoJobs,oneJob]
  rw [Function.update_comm slots_apart.symm,Function.update_idem]

theorem twoJobs_second (me other new : AtJobSt) : Function.update (twoJobs me other).job slot1 (some new) = (twoJobs me new).job := by
  simp only [twoJobs]
  rw [Function.update_idem]

theorem nested_added : AnyTimer.Step ⟨oneJob onceFired,.ready,.callback slot0⟩
    [.returned (.addjob ⟨2,by decide,by decide⟩ 5 6) (slot1 : Nat)] ⟨twoJobs onceFired nested,.ready,.callback slot0⟩ := by
  have second : getFreePos (oneJob onceFired).job = some slot1 := by
    apply firstFree_least
    · rfl
    · intro k less
      have first : k = slot0 := Fin.ext (Nat.lt_one_iff.mp less)
      rw [first,oneJob_slot]
      exact Option.some_ne_none _
  refine .inside slot0 true true (.addjob ⟨2,by decide,by decide⟩ 5 6) rfl ?_
  have accepted : ¬(2 : Int) < 0 := by decide
  have initied : (oneJob onceFired).initied = true := rfl
  simp only [perform,atAddjob,addjob,if_neg accepted,initied,Bool.not_true,Bool.false_and,Bool.false_eq_true,if_false,second]
  rfl

theorem nested_back : AnyTimer.Step ⟨twoJobs onceFired nested,.ready,.callback slot0⟩ []
    ⟨twoJobs (rearm onceFired) nested,.ready,.scan 1⟩ := by
  have step := AnyTimer.Step.comeBack (s := ⟨twoJobs onceFired nested,.ready,.callback slot0⟩) slot0 rfl
  simp only [comeBack,twoJobs_slot0,State.withJob,twoJobs_first] at step
  exact step

theorem nested_counted : AnyTimer.Step ⟨twoJobs (rearm onceFired) nested,.ready,.scan 1⟩ []
    ⟨twoJobs (rearm onceFired) nestedTicked,.ready,.scan 2⟩ := by
  have step := AnyTimer.Step.visit (s := ⟨twoJobs (rearm onceFired) nested,.ready,.scan 1⟩) slot1 rfl
  have running : nested.jobState = .running := rfl
  have left : (store (nested.timeRemain.val - 1)).val ≠ 0 := by decide
  simp only [visit,twoJobs_slot1,if_pos running,if_neg left,State.withJob,twoJobs_second] at step
  exact step

theorem nested_finishes : Runs (Where AnyTimer.Step (fun s _ => s.handler ≠ .off))
    ⟨twoJobs (rearm onceFired) nestedTicked,.ready,.scan 2⟩ [] ⟨twoJobs (rearm onceFired) nestedTicked,.ready,.off⟩ := by
  apply scan_finishes (p := 2) (n := 1022) (fun _ _ at_ => by simp [at_]) rfl rfl
  intro i me past present
  have first : i ≠ slot0 := fun same => absurd past (by rw [same]; decide)
  have second : i ≠ slot1 := fun same => absurd past (by rw [same]; decide)
  simp [twoJobs,oneJob,first,second] at present

theorem adds_clash : ¬ ∀ log p, Runs Program.Step begin log p → Keeps log p.timer.timer.job := by
  intro keeps
  have inside := handler_run (((((Runs.one ⟨nested_added,by simp⟩).append (.one ⟨nested_back,by simp⟩)).append
    (.one ⟨nested_counted,by simp⟩)).append nested_finishes)) (some {second1 with stage := .found slot1})
  have filled : Program.Step ⟨⟨twoJobs (rearm onceFired) nestedTicked,.ready,.off⟩,some {second1 with stage := .found slot1}⟩ []
      ⟨⟨twoJobs (rearm onceFired) nestedTicked,.ready,.off⟩,some {second1 with stage := .filled slot1}⟩ :=
    .add true true _ rfl rfl rfl
  have stored : Program.Step ⟨⟨twoJobs (rearm onceFired) nestedTicked,.ready,.off⟩,some {second1 with stage := .filled slot1}⟩
      [.returned (.addjob second 3 4) (slot1 : Nat)] _ := .add true true _ rfl rfl rfl
  have both := keeps _ _ (((interrupted.append inside).unrestricted.append (.one filled)).append (.one stored))
  have vacant := (distinct_append.mp (both.distinct slot1)).2.1 (by simp [Event.adds,Call.request])
  simp [holds,Event.adds,Call.request] at vacant

end LinuxCoding.AnyTimer
