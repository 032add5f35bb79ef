import LinuxCoding.Relay.Relayer

namespace LinuxCoding.Relay.Relayer
open Slots Transition

theorem effectsOf_append (i : Slot) (d : Direction) (log moved : List Moved) :
    effectsOf i d (log ++ moved) = effectsOf i d log ++ effectsOf i d moved := List.filterMap_append

theorem effectsOf_elsewhere (elsewhere : ∀ m ∈ moved, m.slot = j) (other : i ≠ j) (d : Direction) :
    effectsOf i d moved = [] := by
  unfold effectsOf
  rw [List.filterMap_eq_nil_iff]
  intro m present
  have at_j := elsewhere m present
  have differs : m.slot ≠ i := fun same => other (same.symm.trans at_j)
  simp [differs]

-- One turn for a job: nothing, or one call on each direction.
theorem relayJob_parts (ran : relayJob i answers (some job) = some (after,moved)) :
    (after = some job ∧ moved = [] ∧ job.jobState ≠ stateRunning) ∨
    ∃ fsm12 effect12 fsm21 effect21, job.jobState = stateRunning ∧
      fsmDriver states job.fsm12 (answers .fsm12) = some (fsm12,effect12) ∧
      fsmDriver states job.fsm21 (answers .fsm21) = some (fsm21,effect21) ∧
      moved = [⟨i,.fsm12,effect12⟩,⟨i,.fsm21,effect21⟩] ∧
      after = some {job with
        fsm12 := fsm12
        fsm21 := fsm21
        jobState := if fsm12.state = states.stateT ∧ fsm21.state = states.stateT then stateOver else job.jobState} := by
  unfold relayJob at ran
  dsimp only at ran
  split at ran
  · rename_i running
    cases ran12 : fsmDriver states job.fsm12 (answers .fsm12) with
    | none => simp [ran12] at ran
    | some result12 =>
      cases ran21 : fsmDriver states job.fsm21 (answers .fsm21) with
      | none => simp [ran12,ran21] at ran
      | some result21 =>
        simp only [ran12,ran21,Option.bind_eq_bind,Option.bind_some] at ran
        cases Option.some.inj ran
        exact .inr ⟨_,_,_,_,running,rfl,rfl,rfl,rfl⟩
  · rename_i stopped
    cases Option.some.inj ran
    exact .inl ⟨rfl,rfl,stopped⟩

theorem relayJob_slot (ran : relayJob i answers job = some (after,moved)) : ∀ m ∈ moved, m.slot = i := by
  cases job with
  | none => cases Option.some.inj ran; simp
  | some job =>
    rcases relayJob_parts ran with ⟨_,rfl,_⟩ | ⟨_,_,_,_,_,_,_,rfl,_⟩
    · simp
    · simp

-- The loop turns each slot once, and a turn touches its own slot only.
theorem relayJobs_slot (order : List Slot) (once : order.Nodup) (relJob : Jobs)
    (ran : relayJobs answers order relJob = some (after,log)) (i : Slot) :
    (i ∉ order → after i = relJob i ∧ ∀ d, effectsOf i d log = []) ∧
    (i ∈ order → ∃ moved, relayJob i (answers i) (relJob i) = some (after i,moved) ∧
      ∀ d, effectsOf i d log = effectsOf i d moved) := by
  induction order generalizing relJob after log with
  | nil =>
    cases Option.some.inj ran
    exact ⟨fun _ => ⟨rfl,fun _ => rfl⟩,fun present => absurd present List.not_mem_nil⟩
  | cons j rest ih =>
    obtain ⟨fresh,once⟩ := List.nodup_cons.mp once
    cases turned : relayJob j (answers j) (relJob j) with
    | none => simp [relayJobs,turned] at ran
    | some result =>
      obtain ⟨job,moved⟩ := result
      cases looped : relayJobs answers rest (Function.update relJob j job) with
      | none => simp [relayJobs,turned,looped] at ran
      | some result =>
        obtain ⟨final,later⟩ := result
        simp only [relayJobs,turned,looped,Option.bind_eq_bind,Option.bind_some] at ran
        cases Option.some.inj ran
        obtain ⟨away,here⟩ := ih once _ looped
        have slots := relayJob_slot turned
        by_cases same : i = j
        · subst same
          obtain ⟨kept,silent⟩ := away fresh
          refine ⟨fun absent => absurd List.mem_cons_self absent,fun _ => ⟨moved,?_,?_⟩⟩
          · rw [kept,Function.update_self]
            exact turned
          · intro d
            rw [effectsOf_append,silent d,List.append_nil]
        · have unchanged : Function.update relJob j job i = relJob i := Function.update_of_ne same _ _
          refine ⟨?_,?_⟩
          · intro absent
            obtain ⟨kept,silent⟩ := away (fun present => absent (List.mem_cons_of_mem _ present))
            refine ⟨kept.trans unchanged,fun d => ?_⟩
            rw [effectsOf_append,effectsOf_elsewhere slots same,silent d,List.nil_append]
          · intro present
            obtain ⟨mine,turn,effects⟩ := here ((List.mem_cons.mp present).resolve_left same)
            rw [unchanged] at turn
            refine ⟨mine,turn,fun d => ?_⟩
            rw [effectsOf_append,effectsOf_elsewhere slots same,effects d,List.nil_append]

theorem thrRelayer_slot (ran : thrRelayer answers relJob = some (after,log)) (i : Slot) :
    ∃ moved, relayJob i (answers i) (relJob i) = some (after i,moved) ∧ ∀ d, effectsOf i d log = effectsOf i d moved := by
  unfold thrRelayer at ran
  exact (relayJobs_slot (List.finRange relJobMax) (List.nodup_finRange relJobMax) relJob ran i).2 (List.mem_finRange i)

structure JobCarried (i : Slot) (log : List Moved) (job : RelJobSt) : Prop where
  carried : ∀ d, Carried states (job.fsm d) (effectsOf i d log)
  stopped : job.jobState = stateOver → ∀ d, (job.fsm d).state = states.stateT

structure TableCarried (log : List Moved) (relJob : Jobs) : Prop where
  vacant : ∀ i, relJob i = none → ∀ d, effectsOf i d log = []
  jobs : ∀ i job, relJob i = some job → JobCarried i log job

theorem empty_carried : TableCarried [] empty :=
  ⟨fun _ _ _ => rfl,fun _ _ present => by cases present⟩

theorem relayJob_carried (old : JobCarried i log job) (fits : ∀ d, (answers d).Fits (job.fsm d))
    (ran : relayJob i answers (some job) = some (after,moved)) (silent : ∀ d, effectsOf i d later = effectsOf i d moved) :
    ∃ next, after = some next ∧ JobCarried i (log ++ later) next ∧
      ∀ d, (job.fsm d).state = states.stateT → (next.fsm d).state = states.stateT := by
  have effects : ∀ d, effectsOf i d (log ++ later) = effectsOf i d log ++ effectsOf i d moved := by
    intro d
    rw [effectsOf_append,silent d]
  rcases relayJob_parts ran with ⟨rfl,rfl,stopped⟩ |
    ⟨fsm12,effect12,fsm21,effect21,running,ran12,ran21,rfl,rfl⟩
  · refine ⟨job,rfl,⟨fun d => ?_,old.stopped⟩,fun _ ended => ended⟩
    rw [effects d]
    simpa [effectsOf] using old.carried d
  · have carried12 := driver_carried (old.carried .fsm12) (fits .fsm12) ran12
    have carried21 := driver_carried (old.carried .fsm21) (fits .fsm21) ran21
    refine ⟨_,rfl,⟨?_,?_⟩,?_⟩
    · intro d
      rw [effects d]
      cases d with
      | fsm12 =>
        have mine : effectsOf i .fsm12 [⟨i,.fsm12,effect12⟩,⟨i,.fsm21,effect21⟩] = [effect12] := by simp [effectsOf]
        rw [mine]
        exact carried12
      | fsm21 =>
        have mine : effectsOf i .fsm21 [⟨i,.fsm12,effect12⟩,⟨i,.fsm21,effect21⟩] = [effect21] := by simp [effectsOf]
        rw [mine]
        exact carried21
    · intro stopped d
      by_cases both : fsm12.state = states.stateT ∧ fsm21.state = states.stateT
      · cases d with
        | fsm12 => exact both.1
        | fsm21 => exact both.2
      · simp only [both,if_false,running] at stopped
        exact absurd stopped (by decide)
    · intro d ended
      cases d with
      | fsm12 => exact driver_ended ran12 ended
      | fsm21 => exact driver_ended ran21 ended

theorem pass_carried (old : TableCarried log relJob)
    (fits : ∀ i job, relJob i = some job → ∀ d, (answers i d).Fits (job.fsm d))
    (ran : thrRelayer answers relJob = some (after,moved)) : TableCarried (log ++ moved) after := by
  refine ⟨?_,?_⟩
  · intro i none d
    obtain ⟨turn,ran,effects⟩ := thrRelayer_slot ran i
    cases slot : relJob i with
    | none =>
      rw [slot] at ran
      obtain ⟨_,rfl⟩ := Prod.mk.inj (Option.some.inj ran)
      rw [effectsOf_append,effects d,old.vacant i slot d]
      rfl
    | some job =>
      rw [slot] at ran
      obtain ⟨next,kept,_⟩ := relayJob_carried (old.jobs i job slot) (fits i job slot) ran effects
      rw [none] at kept
      cases kept
  · intro i job present
    obtain ⟨turn,ran,effects⟩ := thrRelayer_slot ran i
    cases slot : relJob i with
    | none =>
      rw [slot] at ran
      obtain ⟨gone,_⟩ := Prod.mk.inj (Option.some.inj ran)
      rw [present] at gone
      cases gone
    | some before =>
      rw [slot] at ran
      obtain ⟨next,kept,carried,_⟩ := relayJob_carried (old.jobs i before slot) (fits i before slot) ran effects
      rw [present] at kept
      cases kept
      exact carried

-- rel_addjob stores a fresh running job in a vacant slot, or leaves the table alone.
theorem addjob_parts (fcntl : Fcntl κ) (me : Option RelJobSt) (fd1 fd2 : Int) (relJob : Jobs) (files : κ) :
    (relAddjob fcntl me fd1 fd2 relJob files).relJob = relJob ∨
    ∃ pos job, relJob pos = none ∧ (relAddjob fcntl me fd1 fd2 relJob files).relJob = Function.update relJob pos (some job) ∧
      job.jobState = stateRunning ∧ ∀ d, (job.fsm d).state = states.stateR := by
  unfold relAddjob
  cases me with
  | none => exact .inl rfl
  | some me =>
    cases free : getFreePosUnlocked relJob with
    | none => exact .inl rfl
    | some pos =>
      refine .inr ⟨pos,_,firstFree_empty free,rfl,rfl,?_⟩
      intro d
      cases d <;> rfl

theorem fresh_carried (ready : fsm.state = states.stateR) : Carried states fsm [] := by
  obtain ⟨rw,rex,_,_,_,_⟩ := states.apart
  refine ⟨.inl ready,fun writing => absurd (ready.symm.trans writing) rw,
    fun failing => absurd (ready.symm.trans failing) rex,fun _ => ?_⟩
  rw [pending_idle (by rw [ready]; exact rw)]
  rfl

theorem add_carried (old : TableCarried log relJob) (fcntl : Fcntl κ) (me : Option RelJobSt)
    (fd1 fd2 : Int) (files : κ) : TableCarried log (relAddjob fcntl me fd1 fd2 relJob files).relJob := by
  rcases addjob_parts fcntl me fd1 fd2 relJob files with same | ⟨pos,job,vacant,stored,running,ready⟩
  · rw [same]
    exact old
  · rw [stored]
    refine ⟨?_,?_⟩
    · intro i none
      by_cases same : i = pos
      · simp [same] at none
      · exact old.vacant i (by simpa [same] using none)
    · intro i found present
      by_cases same : i = pos
      · subst same
        obtain rfl : job = found := by simpa using present
        refine ⟨fun d => ?_,fun stopped => ?_⟩
        · rw [old.vacant i vacant d]
          exact fresh_carried (ready d)
        · rw [running] at stopped
          exact absurd stopped (by decide)
      · exact old.jobs i found (by simpa [same] using present)

theorem step_carried (old : TableCarried log relJob) (step : Step relJob moved after) :
    TableCarried (log ++ moved) after := by
  cases step with
  | pass answers fits ran => exact pass_carried old fits ran
  | add fcntl me fd1 fd2 files =>
    rw [List.append_nil]
    exact add_carried old fcntl me fd1 fd2 files

theorem runs_carried (run : Runs Step empty log relJob) : TableCarried log relJob :=
  run.invariant (I := TableCarried) (fun _ _ _ _ old step => step_carried old step) empty_carried

theorem relayJob_total (known : ∀ job, slot = some job → ∀ d, Known states (job.fsm d))
    (i : Slot) (answers : Direction → Answer) : ∃ after moved, relayJob i answers slot = some (after,moved) := by
  cases slot with
  | none => exact ⟨_,_,rfl⟩
  | some job =>
    obtain ⟨fsm12,effect12,ran12⟩ := driver_total (known job rfl .fsm12) (answers .fsm12)
    obtain ⟨fsm21,effect21,ran21⟩ := driver_total (known job rfl .fsm21) (answers .fsm21)
    dsimp only [RelJobSt.fsm] at ran12 ran21
    by_cases running : job.jobState = stateRunning
    · simp only [relayJob,running,if_true,ran12,ran21,Option.bind_eq_bind,Option.bind_some]
      exact ⟨_,_,rfl⟩
    · simp only [relayJob,running,if_false]
      exact ⟨_,_,rfl⟩

theorem relayJobs_total (order : List Slot) (once : order.Nodup) (relJob : Jobs)
    (known : ∀ i ∈ order, ∀ job, relJob i = some job → ∀ d, Known states (job.fsm d))
    (answers : Slot → Direction → Answer) : ∃ after moved, relayJobs answers order relJob = some (after,moved) := by
  induction order generalizing relJob with
  | nil => exact ⟨_,_,rfl⟩
  | cons j rest ih =>
    obtain ⟨fresh,once⟩ := List.nodup_cons.mp once
    obtain ⟨job,moved,turned⟩ := relayJob_total (known j List.mem_cons_self) j (answers j)
    have others : ∀ i ∈ rest, ∀ found, Function.update relJob j job i = some found → ∀ d, Known states (found.fsm d) := by
      intro i present found stored
      have differs : i ≠ j := fun same => fresh (same ▸ present)
      rw [Function.update_of_ne differs] at stored
      exact known i (List.mem_cons_of_mem _ present) found stored
    obtain ⟨after,later,looped⟩ := ih once _ others
    exact ⟨after,moved ++ later,by simp [relayJobs,turned,looped]⟩

theorem step_ended (old : TableCarried log relJob) (step : Step relJob moved after) (present : relJob i = some job)
    (ended : (job.fsm d).state = states.stateT) :
    ∃ next, after i = some next ∧ (next.fsm d).state = states.stateT := by
  cases step with
  | pass answers fits ran =>
    obtain ⟨turn,ran,effects⟩ := thrRelayer_slot ran i
    rw [present] at ran
    obtain ⟨next,kept,_,stays⟩ := relayJob_carried (old.jobs i job present) (fits i job present) ran effects
    exact ⟨next,kept,stays d ended⟩
  | add fcntl me fd1 fd2 files =>
    rcases addjob_parts fcntl me fd1 fd2 relJob files with same | ⟨pos,fresh,vacant,stored,_,_⟩
    · exact ⟨job,by rw [same]; exact present,ended⟩
    · have differs : i ≠ pos := by
        intro same
        rw [same,vacant] at present
        cases present
      exact ⟨job,by rw [stored,Function.update_of_ne differs]; exact present,ended⟩

theorem relay_integrity (run : Runs Step empty log relJob) :
    (∀ i job, relJob i = some job →
      (∀ d, Known states (job.fsm d) ∧
        ((job.fsm d).state = states.stateW → 1 ≤ (job.fsm d).len ∧ 0 ≤ (job.fsm d).pos ∧
          (job.fsm d).pos + (job.fsm d).len ≤ bufSize) ∧
        ((job.fsm d).state = states.stateEX → EnteredEX (effectsOf i d log)) ∧
        (¬EnteredEX (effectsOf i d log) → bytesWritten (effectsOf i d log) ++ pending states (job.fsm d) =
          bytesRead (effectsOf i d log)) ∧
        ((job.fsm d).state = states.stateT → ¬EnteredEX (effectsOf i d log) →
          bytesWritten (effectsOf i d log) = bytesRead (effectsOf i d log))) ∧
      (job.jobState = stateOver → ∀ d, (job.fsm d).state = states.stateT)) ∧
    (∀ answers, ∃ after moved, thrRelayer answers relJob = some (after,moved)) ∧
    (∀ moved after, Step relJob moved after → ∀ i job d, relJob i = some job → (job.fsm d).state = states.stateT →
      ∃ next, after i = some next ∧ (next.fsm d).state = states.stateT) := by
  have valid := runs_carried run
  refine ⟨?_,?_,?_⟩
  · intro i job present
    refine ⟨fun d => ?_,(valid.jobs i job present).stopped⟩
    have carried := (valid.jobs i job present).carried d
    refine ⟨carried.known,carried.window,carried.failed,carried.data,?_⟩
    intro ended clean
    have law := carried.data clean
    rwa [pending_idle (by rw [ended]; exact states.apart.2.2.2.2.1.symm),List.append_nil] at law
  · intro answers
    unfold thrRelayer
    exact relayJobs_total (List.finRange relJobMax) (List.nodup_finRange relJobMax) relJob
      (fun i _ job present d => ((valid.jobs i job present).carried d).known) answers
  · exact fun moved after step i job d present ended => step_ended valid step present ended

def first : Slot := ⟨0,by decide⟩

theorem empty_free : getFreePosUnlocked empty = some first := firstFree_first (by decide) rfl

def blankJob : RelJobSt := ⟨0,0,0,blankFsm,blankFsm,0,0⟩
def helloAnswer : Answer := ⟨.bytes ⟨[104,105],by decide⟩,.again⟩

-- A job is added and one pass reads two bytes on each direction.
theorem integrity_after_read : ∃ log relJob job, Runs Step empty log relJob ∧ relJob first = some job ∧
    bytesRead (effectsOf first .fsm12 log) = [104,105] ∧
    bytesWritten (effectsOf first .fsm12 log) ++ pending states job.fsm12 = bytesRead (effectsOf first .fsm12 log) := by
  let fcntl : Fcntl Unit := ⟨fun _ _ => 0,fun _ _ files => files⟩
  have adds : Step empty [] (relAddjob fcntl (some blankJob) 3 4 empty ()).relJob := .add fcntl (some blankJob) 3 4 ()
  have added := Runs.one adds
  obtain ⟨relJob,table⟩ : ∃ relJob, (relAddjob fcntl (some blankJob) 3 4 empty ()).relJob = relJob := ⟨_,rfl⟩
  have stored : ∃ job, relJob first = some job ∧ job.jobState = stateRunning ∧ job.fsm12.state = states.stateR ∧
      job.fsm21.state = states.stateR := by
    unfold relAddjob at table
    simp only [empty_free] at table
    rw [←table,Function.update_self]
    exact ⟨_,rfl,rfl,rfl,rfl⟩
  rw [table] at added
  obtain ⟨job,present,running,ready12,ready21⟩ := stored
  obtain ⟨after,moved,ran⟩ := (relay_integrity added).2.1 (fun _ _ => helloAnswer)
  have passed : Runs Step empty ([] ++ moved) after :=
    .step added (.pass _ (fun _ _ _ _ ret wrote => by cases wrote) ran)
  obtain ⟨turn,turned,effects⟩ := thrRelayer_slot ran first
  rw [present] at turned
  rcases relayJob_parts turned with ⟨_,_,stopped⟩ | ⟨fsm12,effect12,fsm21,effect21,_,ran12,ran21,rfl,kept⟩
  · exact absurd running stopped
  · have law := ((relay_integrity passed).1 first _ kept).1 .fsm12
    cases driver_sound ran12 with
    | readBytes chunk reading answered =>
      cases answered
      have mine : effectsOf first .fsm12 ([] ++ moved) = [.read [104,105]] := by
        rw [List.nil_append,effects .fsm12]
        simp [effectsOf]
      rw [mine] at law
      exact ⟨_,after,_,passed,kept,by rw [mine]; rfl,by rw [mine]; exact law.2.2.2.1 (by simp [EnteredEX])⟩
    | readEnd _ answered | readAgain _ answered | readError _ answered => cases answered
    | writeAgain writing | writeError writing | wrote _ writing => exact absurd (ready12.symm.trans writing) states.apart.1
    | report failing => exact absurd (ready12.symm.trans failing) states.apart.2.1
    | rest stopped => exact absurd (ready12.symm.trans stopped) states.apart.2.2.1

end LinuxCoding.Relay.Relayer
