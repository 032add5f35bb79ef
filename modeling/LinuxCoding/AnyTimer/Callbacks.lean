import LinuxCoding.AnyTimer.Schedule

-- Callbacks that use the timer: alrm_action reads job[i] again after the callback and
-- then writes to it whatever the callback did to that job.
namespace LinuxCoding.AnyTimer
open CInt Slots Transition

-- Whether the last thing a log says of the job in a slot is that at_canceljob
-- returned 0 for it and it was not reaped since.
def stands (i : Slot) (before : Bool) : Event → Bool
  | .returned (.canceljob id) ret => if id = (i : Nat) ∧ ret = 0 then true else before
  | .returned (.waitjob id) ret => if id = (i : Nat) ∧ ret = 0 then false else before
  | _ => before

def canceledIn (i : Slot) (log : List Event) : Bool := log.foldl (stands i) false

def Sound (log : List Event) (s : State) : Prop :=
  (∀ i, s.handler ≠ .crashed i) ∧
    ∀ i, canceledIn i log = true → ∃ me, s.timer.job i = some me ∧ me.jobState = .canceled

-- No callback of a one-shot job cancels its own job.
def Spares (s : State) (emitted : List Event) : Prop :=
  ∀ i me ret, s.handler = .callback i → s.timer.job i = some me → me.repeats ≠ 1 →
    .returned (.canceljob (i : Nat)) ret ∉ emitted

theorem stands_unconcerned (before : Bool) (event : Event) (apart : ¬event.Concerns i) : stands i before event = before := by
  cases event with
  | tick | fired => rfl
  | returned call ret =>
    cases call with
    | addjob | addjobRepeat => rfl
    | canceljob id | waitjob id => exact if_neg apart

theorem stands_added {call : Call} (request : call.request = some me) (before : Bool) (ret : Int) :
    stands i before (.returned call ret) = before := by
  cases call with
  | addjob | addjobRepeat => rfl
  | canceljob | waitjob => cases request

-- While a callback runs its slot still holds the job it was called for: a one-shot
-- job that nobody has cancelled, or a repeating one, which cannot be reaped.
structure Kept (standing : Bool) (c : Cell) : Prop where
  alive : c.phase ≠ .crashed
  own : c.phase = .called → ∃ me, c.job = some me ∧ (me.repeats ≠ 1 → me.jobState = .running)
  canceled : standing = true → ∃ me, c.job = some me ∧ me.jobState = .canceled

theorem Kept.ofJob (kept : Kept standing c) (present : c.job = some me) :
    (c.phase = .called → me.repeats ≠ 1 → me.jobState = .running) ∧ (standing = true → me.jobState = .canceled) := by
  constructor
  · intro called single
    obtain ⟨other,same,running⟩ := kept.own called
    rw [present] at same
    cases same
    exact running single
  · intro stood
    obtain ⟨other,same,canceled⟩ := kept.canceled stood
    rw [present] at same
    cases same
    exact canceled

theorem Kept.ofEmpty (kept : Kept standing c) (empty : c.job = none) : c.phase ≠ .called ∧ standing ≠ true := by
  constructor
  · intro called
    obtain ⟨me,present,_⟩ := kept.own called
    rw [empty] at present
    cases present
  · intro stood
    obtain ⟨me,present,_⟩ := kept.canceled stood
    rw [empty] at present
    cases present

theorem Kept.away (away : Away now) (canceled : standing = true → ∃ me, job = some me ∧ me.jobState = .canceled) :
    Kept standing ⟨job,now⟩ :=
  ⟨away.alive,fun called => absurd called away.uncalled,canceled⟩

theorem Kept.unclaimed (kept : Kept standing c) (present : c.job = some me) (running : me.jobState = .running) :
    standing ≠ true := by
  intro stood
  have canceled := (kept.ofJob present).2 stood
  rw [running] at canceled
  cases canceled

theorem kept_step (kept : Kept standing c) (step : Cell.Step i c emitted after)
    (spares : ∀ me ret, c.phase = .called → c.job = some me → me.repeats ≠ 1 → .returned (.canceljob (i : Nat)) ret ∉ emitted) :
    Kept (emitted.foldl (stands i) standing) after := by
  cases step with
  | other apart =>
    rw [fold_unconcerned stands_unconcerned apart]
    exact kept
  | tick => exact .away (.inr rfl) kept.canceled
  | passed => exact .away (.inl rfl) kept.canceled
  | counted me _ present running =>
    exact .away (.inl rfl) (fun stood => absurd stood (kept.unclaimed present running))
  | fired me _ present running =>
    exact ⟨by simp,fun _ => ⟨_,rfl,fun _ => running⟩,fun stood => absurd stood (kept.unclaimed present running)⟩
  | back me called present =>
    obtain ⟨own,standing⟩ := kept.ofJob present
    refine .away (.inl rfl) ?_
    intro stood
    have canceled := standing stood
    by_cases again : me.repeats = 1
    · exact ⟨_,rfl,by simp [rearm,again,canceled]⟩
    · rw [own called again] at canceled
      cases canceled
  | crashed called empty => exact absurd called (kept.ofEmpty empty).1
  | added me empty request =>
    obtain ⟨uncalled,unclaimed⟩ := kept.ofEmpty empty
    rw [List.foldl_cons,stands_added request]
    exact ⟨kept.alive,fun called => absurd called uncalled,fun stood => absurd stood unclaimed⟩
  | canceled me present running =>
    refine ⟨kept.alive,?_,fun _ => ⟨_,rfl,rfl⟩⟩
    intro called
    refine ⟨_,rfl,?_⟩
    intro single
    exact absurd List.mem_cons_self (spares me 0 called present single)
  | reaped me present single ended =>
    have cleared : [Event.returned (.waitjob (i : Nat)) 0].foldl (stands i) standing = false := by simp [stands]
    rw [cleared]
    refine ⟨kept.alive,?_,fun stood => by cases stood⟩
    intro called
    have called : c.phase = .called := called
    have once : me.repeats ≠ 1 := single (by rw [called]; decide)
    exact absurd ((kept.ofJob present).1 called once) ended

theorem reached_kept (run : Runs (Where Step Spares) start log s) (i : Slot) : Kept (canceledIn i log) (cell i s) := by
  apply run.invariant (I := fun log s => Kept (canceledIn i log) (cell i s))
  · intro log s emitted t kept step
    have appended : canceledIn i (log ++ emitted) = emitted.foldl (stands i) (canceledIn i log) := by simp [canceledIn]
    rw [appended]
    apply kept_step kept (step_cell step.1 i)
    intro me ret called present single
    exact step.2 i me ret (handler_called called) present single
  · exact .away (.inl rfl) (fun stood => by cases stood)

theorem reached_sound (run : Runs (Where Step Spares) start log s) : Sound log s := by
  constructor
  · intro i crashed
    exact (reached_kept run i).alive (by simp [cell,crashed])
  · intro i standing
    exact (reached_kept run i).canceled standing

-- A one-shot callback that does cancel its own job is enough to break this.
theorem spares_needed (run : Runs (Where Step Spares) start log s) (at_ : s.handler = .callback i)
    (present : s.timer.job i = some me) (single : me.repeats ≠ 1) :
    ∃ more t, Runs Step s more t ∧ ¬Sound (log ++ more) t := by
  obtain ⟨other,same,running⟩ := (reached_kept run i).own (by simp [cell,at_])
  have same : s.timer.job i = some other := same
  rw [present] at same
  cases same
  let canceled : State := s.withJob (Function.update s.timer.job i (some {me with jobState := .canceled}))
  have cancel : Step s [.returned (.canceljob (i : Nat)) 0] canceled := by
    refine .inside i true true (.canceljob (i : Nat)) at_ ?_
    change some (atCanceljob (i : Nat) s.timer) = some (canceled.timer,0)
    rw [canceljob_running present (running single)]
    rfl
  have back : Step canceled [] (comeBack i canceled) := .comeBack i at_
  refine ⟨_,_,(Runs.one cancel).append (.one back),?_⟩
  intro sound
  have standing : canceledIn i (log ++ ([.returned (.canceljob (i : Nat)) 0] ++ [])) = true := by
    simp [canceledIn,stands]
  obtain ⟨after,holds,state⟩ := sound.2 i standing
  have ended : (comeBack i canceled).timer.job i = some {me with jobState := .isOver} := by
    simp [comeBack,canceled,State.withJob,rearm,single]
  rw [ended] at holds
  cases holds
  cases state

theorem callbacks_sound (run : Runs (Where Step Spares) start log s) :
    Sound log s ∧ ∀ i me, s.handler = .callback i → s.timer.job i = some me → me.repeats ≠ 1 →
      ∃ more t, Runs Step s more t ∧ ¬Sound (log ++ more) t :=
  ⟨reached_sound run,fun _ _ at_ present single => spares_needed run at_ present single⟩

theorem spares_outside (outside : ∀ i, s.handler ≠ .callback i) : Spares s emitted :=
  fun i _ _ at_ => absurd at_ (outside i)

theorem once_fires : Runs (Where Step Spares) start
    ((([Event.returned (.addjob second 7 9) (slot0 : Nat)] ++ [Event.tick]) ++ [Event.fired slot0 7 9]))
    ⟨oneJob onceFired,.ready,.callback slot0⟩ := by
  refine ((Runs.one ⟨once_added,?_⟩).append (.one ⟨once_ticked,?_⟩)).append (.one ⟨once_fired,?_⟩)
  · exact spares_outside (fun _ same => by cases same)
  · exact spares_outside (fun _ same => by cases same)
  · exact spares_outside (fun _ same => by cases same)

-- The callback tries to cancel a job that does not exist.
theorem callbacks_sound_once : ∃ log s, Runs (Where Step Spares) start log s ∧ Sound log s := by
  have call : Step ⟨oneJob onceFired,.ready,.callback slot0⟩ [.returned (.canceljob (-1)) (-einval)]
      ⟨oneJob onceFired,.ready,.callback slot0⟩ := .inside slot0 true true (.canceljob (-1)) rfl rfl
  have spares : Spares ⟨oneJob onceFired,.ready,.callback slot0⟩ [.returned (.canceljob (-1)) (-einval)] := by
    intro i me ret at_ present single returned
    cases at_
    cases List.mem_singleton.mp returned
  have run := once_fires.append (.one ⟨call,spares⟩)
  exact ⟨_,_,run,(callbacks_sound run).1⟩

-- The callback of that job cancels it, and then also reaps it.
def onceCanceled : AtJobSt := {onceFired with jobState := .canceled}

theorem once_cancels : Step ⟨oneJob onceFired,.ready,.callback slot0⟩ [.returned (.canceljob (slot0 : Nat)) 0]
    ⟨oneJob onceCanceled,.ready,.callback slot0⟩ := by
  refine .inside slot0 true true (.canceljob (slot0 : Nat)) rfl ?_
  change some (atCanceljob (slot0 : Nat) (oneJob onceFired)) = some (oneJob onceCanceled,0)
  rw [canceljob_running (oneJob_slot onceFired) rfl]
  simp [oneJob,onceCanceled]

theorem once_reaps : Step ⟨oneJob onceCanceled,.ready,.callback slot0⟩ [.returned (.waitjob (slot0 : Nat)) 0]
    ⟨⟨fun _ => none,true⟩,.ready,.callback slot0⟩ := by
  refine .inside slot0 true true (.waitjob (slot0 : Nat)) rfl ?_
  change atWaitjob (slot0 : Nat) (oneJob onceCanceled) = some (⟨fun _ => none,true⟩,0)
  rw [waitjob_ended (oneJob_slot onceCanceled) (by decide) (by decide)]
  simp [oneJob]

theorem once_crashes : Step ⟨⟨fun _ => none,true⟩,.ready,.callback slot0⟩ [] ⟨⟨fun _ => none,true⟩,.ready,.crashed slot0⟩ := by
  have back := Step.comeBack (s := ⟨⟨fun _ => none,true⟩,.ready,.callback slot0⟩) slot0 rfl
  rw [comeBack] at back
  exact back

theorem callbacks_broken :
    (¬ ∀ log s, Runs Step start log s → ∀ i, s.handler ≠ .crashed i) ∧
    (¬ ∀ log s, Runs Step start log s → ∀ i, canceledIn i log = true →
      ∃ me, s.timer.job i = some me ∧ me.jobState = .canceled) := by
  constructor
  · intro alive
    exact alive _ _ (((once_fires.unrestricted.append (.one once_cancels)).append (.one once_reaps)).append (.one once_crashes)) slot0 rfl
  · intro keeps
    have back : Step ⟨oneJob onceCanceled,.ready,.callback slot0⟩ [] (comeBack slot0 ⟨oneJob onceCanceled,.ready,.callback slot0⟩) :=
      .comeBack slot0 rfl
    rw [comeBack_oneJob] at back
    have standing : canceledIn slot0 ((([Event.returned (.addjob second 7 9) (slot0 : Nat)] ++ [Event.tick]) ++ [Event.fired slot0 7 9]) ++
        [Event.returned (.canceljob (slot0 : Nat)) 0] ++ []) = true := by simp [canceledIn,stands]
    obtain ⟨me,present,canceled⟩ := keeps _ _ ((once_fires.unrestricted.append (.one once_cancels)).append (.one back)) slot0 standing
    have rearmed := oneJob_slot (rearm onceCanceled)
    have present := rearmed.symm.trans present
    cases present
    cases canceled

end LinuxCoding.AnyTimer
