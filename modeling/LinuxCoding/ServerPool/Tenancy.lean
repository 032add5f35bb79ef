import LinuxCoding.ServerPool.Children

-- Whose state a slot of serverpool shows.
namespace LinuxCoding.ServerPool
open Transition

-- What a step of the parent does to a slot.
theorem statement_slot {minSpare maxSpare : Nat} {p after : Pool n} (ran : statement minSpare maxSpare p place = some (after,next,calls))
    (slot : Fin n) : ((after.serverpool slot).state = (p.serverpool slot).state ∨ calls = [.stored slot]) ∧
      ((after.serverpool slot).pid = (p.serverpool slot).pid ∨ ∃ pid : Pid, calls = [.recorded slot pid] ∧ (after.serverpool slot).pid = pid) := by
  rcases statement_cases ran with ⟨_,same,_⟩ | ⟨_,_,_,rfl,_,_⟩ | ⟨caller,chosen,_,rfl,_,rfl⟩ | ⟨caller,chosen,pid,_,rfl,_,rfl⟩
  · rw [same]
    exact ⟨.inl rfl,.inl rfl⟩
  · exact ⟨.inl rfl,.inl rfl⟩
  · by_cases same : slot = chosen
    · subst same
      exact ⟨.inr rfl,.inl (by simp [Pool.put])⟩
    · exact ⟨.inl (by simp [Pool.put,same]),.inl (by simp [Pool.put,same])⟩
  · by_cases same : slot = chosen
    · subst same
      exact ⟨.inl (by simp [Pool.add,Pool.put]),.inr ⟨pid,rfl,by simp [Pool.add,Pool.put]⟩⟩
    · exact ⟨.inl (by simp [Pool.add,Pool.put,same]),.inl (by simp [Pool.add,Pool.put,same])⟩

theorem clear_slot (p : Pool n) (chosen slot : Fin n) :
    ((p.put chosen (p.serverpool chosen).clear).serverpool slot).state = (p.serverpool slot).state ∧
      (((p.put chosen (p.serverpool chosen).clear).serverpool slot).pid = (p.serverpool slot).pid ∨
        ((p.put chosen (p.serverpool chosen).clear).serverpool slot).pid = -1) := by
  by_cases same : slot = chosen
  · subst same
    simp [Pool.put,ServerSt.clear]
  · simp [Pool.put,same]

theorem parent_slot {minSpare maxSpare : Nat} {me after : Parent n} (step : ParentStep minSpare maxSpare me calls after) (slot : Fin n) :
    ((after.pool.serverpool slot).state = (me.pool.serverpool slot).state ∨ calls = [.stored slot]) ∧
      ((after.pool.serverpool slot).pid = (me.pool.serverpool slot).pid ∨ (after.pool.serverpool slot).pid = -1 ∨
        ∃ pid : Pid, calls = [.recorded slot pid] ∧ (after.pool.serverpool slot).pid = pid) := by
  cases step with
  | statement p place after next calls ran =>
    obtain ⟨state,pid⟩ := statement_slot ran slot
    exact ⟨state,pid.imp id .inr⟩
  | woken | alive | fork | forkFails => exact ⟨.inl rfl,.inl rfl⟩
  | dead p chosen rest idle busy present =>
    obtain ⟨state,pid⟩ := clear_slot p chosen slot
    exact ⟨.inl state,pid.imp id .inl⟩
  | kill p i chosen =>
    obtain ⟨state,pid⟩ := clear_slot p chosen slot
    exact ⟨.inl state,pid.imp id .inl⟩

theorem step_churns {s t : System n} (step : Step minSpare maxSpare s emitted t) :
    ∃ calls, Runs (Churn minSpare maxSpare) s.parent calls t.parent := by
  cases step with
  | alone after step => exact ⟨_,.one (.parent step)⟩
  | call call after next step answered => exact ⟨_,.one (.parent step)⟩
  | child pid child got present =>
    cases place : child.place with
    | idling =>
      rw [serverJob,place]
      exact ⟨_,.one (.flip s.parent child.pos stateIdle)⟩
    | marking client =>
      rw [serverJob,place]
      exact ⟨_,.one (.flip s.parent child.pos stateBusy)⟩
    | reporting | accepting | telling | replying | closing =>
      rw [serverJob,place]
      exact ⟨_,.nil⟩
  | delivered | dies => exact ⟨_,.nil⟩

theorem step_accounted {s t : System n} (accounted : Accounted s.parent) (step : Step minSpare maxSpare s emitted t) : Accounted t.parent := by
  obtain ⟨calls,churned⟩ := step_churns step
  exact churned.stateInvariant (fun _ _ _ kept step => churn_accounted kept step) accounted

theorem reached_accounted {s : System n} (run : Runs (Step minSpare maxSpare) (start n) log s) : Accounted s.parent :=
  run.stateInvariant (I := fun s => Accounted s.parent) (fun _ _ _ accounted step => step_accounted accounted step) (boot_accounted n)

def ChildPlace.working : ChildPlace → Bool
  | .telling _ => true
  | .replying _ => true
  | .closing => true
  | _ => false

-- The author of a state lives in its slot, and is not at work unless the state says so.
structure Tenancy (s : System n) : Prop where
  named : ∀ pid child, s.children pid = some child → 0 < pid
  tenant : ∀ slot pid, s.author slot = .tenant pid → ∃ child, s.children pid = some child ∧ child.pos = slot ∧
    (child.place.working = true → (s.parent.pool.serverpool slot).state = stateBusy)

theorem start_tenancy (n : Nat) : Tenancy (start n) := by
  refine ⟨?_,?_⟩
  · intro pid child present
    cases present
  · intro slot pid author
    cases author

def System.state (s : System n) (slot : Fin n) : Int := (s.parent.pool.serverpool slot).state

-- A step that makes no store, and moves nobody.
theorem Tenancy.kept {s t : System n} (tenancy : Tenancy s) (children : t.children = s.children)
    (author : ∀ slot pid, t.author slot = .tenant pid → s.author slot = .tenant pid ∧ t.state slot = s.state slot) : Tenancy t := by
  refine ⟨?_,?_⟩
  · intro pid child present
    rw [children] at present
    exact tenancy.named pid child present
  · intro slot pid tenant
    obtain ⟨before,state⟩ := author slot pid tenant
    obtain ⟨child,present,pos,shown⟩ := tenancy.tenant slot pid before
    exact ⟨child,by rw [children]; exact present,pos,fun working => state.trans (shown working)⟩

theorem Tenancy.goto {s : System n} (tenancy : Tenancy s) (present : s.children pid = some child)
    (working : place.working = true → child.place.working = true) : Tenancy (s.goto pid child place) := by
  refine ⟨?_,?_⟩
  · intro other late found
    by_cases same : other = pid
    · subst same
      exact tenancy.named other child present
    · exact tenancy.named other late (by simpa [System.goto,System.setChild,same] using found)
  · intro slot other author
    obtain ⟨tenant,lives,pos,shown⟩ := tenancy.tenant slot other author
    by_cases same : other = pid
    · subst same
      cases present.symm.trans lives
      exact ⟨_,Function.update_self ..,pos,fun busy => shown (working busy)⟩
    · exact ⟨tenant,by simpa [System.goto,System.setChild,same] using lives,pos,shown⟩

theorem Tenancy.store {s : System n} (tenancy : Tenancy s) (present : s.children pid = some child)
    (working : place.working = true → state = stateBusy) : Tenancy ((s.store pid child.pos state).goto pid child place) := by
  refine ⟨?_,?_⟩
  · intro other late found
    by_cases same : other = pid
    · subst same
      exact tenancy.named other child present
    · exact tenancy.named other late (by simpa [System.goto,System.setChild,System.store,same] using found)
  · intro slot other author
    by_cases here : slot = child.pos
    · subst here
      have own : Author.tenant pid = .tenant other := by simpa [System.goto,System.setChild,System.store] using author
      cases own
      refine ⟨_,Function.update_self ..,rfl,?_⟩
      intro busy
      simpa [System.goto,System.setChild,System.store,Pool.put] using working busy
    · have before : s.author slot = .tenant other := by simpa [System.goto,System.setChild,System.store,here] using author
      obtain ⟨tenant,lives,pos,shown⟩ := tenancy.tenant slot other before
      have apart : other ≠ pid := by
        rintro rfl
        cases present.symm.trans lives
        exact here pos.symm
      refine ⟨tenant,by simpa [System.goto,System.setChild,System.store,apart] using lives,pos,?_⟩
      intro busy
      simpa [System.goto,System.setChild,System.store,Pool.put,here] using shown busy

theorem Tenancy.bury {s : System n} (tenancy : Tenancy s) : Tenancy (s.bury pid) := by
  refine ⟨?_,?_⟩
  · intro other child found
    by_cases same : other = pid
    · subst same
      simp [System.bury,System.setChild] at found
    · exact tenancy.named other child (by simpa [System.bury,System.setChild,same] using found)
  · intro slot other author
    simp only [System.bury,Author.leave] at author
    split at author
    · cases author
    · rename_i living
      obtain ⟨child,present,pos,shown⟩ := tenancy.tenant slot other author
      have apart : other ≠ pid := by
        rintro rfl
        exact living author
      exact ⟨child,by simpa [System.bury,System.setChild,apart] using present,pos,shown⟩

theorem Tenancy.born {s : System n} (tenancy : Tenancy s) (slot : Fin n) (pid : Pid) (fresh : s.children pid = none) :
    Tenancy (s.born slot pid) := by
  have keeps : ∀ other child, s.children other = some child → (s.born slot pid).children other = some child := by
    intro other child present
    have apart : other ≠ pid := by
      rintro rfl
      rw [fresh] at present
      cases present
    simpa [System.born,System.setChild,apart] using present
  refine ⟨?_,?_⟩
  · intro other child found
    by_cases same : other = pid
    · subst same
      exact pid.property
    · exact tenancy.named other child (by simpa [System.born,System.setChild,same] using found)
  · intro k other author
    by_cases created : k = slot ∧ s.author slot = .creating
    · obtain ⟨rfl,created⟩ := created
      have own : Author.tenant pid = .tenant other := by simpa [System.born,created] using author
      cases own
      exact ⟨⟨k,.idling,false⟩,Function.update_self ..,rfl,fun busy => by cases busy⟩
    · have before : s.author k = .tenant other := by
        simp only [System.born] at author
        split at author
        · rename_i creating
          have apart : k ≠ slot := fun same => created ⟨same,creating⟩
          simpa [Function.update_of_ne apart] using author
        · exact author
      obtain ⟨child,present,pos,shown⟩ := tenancy.tenant k other before
      exact ⟨child,keeps other child present,pos,shown⟩

theorem serverJob_tenancy {s : System n} (tenancy : Tenancy s) (present : s.children pid = some child) :
    Tenancy (serverJob s pid child got).1 := by
  cases place : child.place with
  | idling =>
    rw [serverJob,place]
    exact tenancy.store present (fun busy => by cases busy)
  | marking client =>
    rw [serverJob,place]
    exact tenancy.store present (fun _ => rfl)
  | reporting =>
    rw [serverJob,place]
    have moved : Tenancy (s.goto pid child .accepting) := tenancy.goto present (fun busy => by cases busy)
    exact moved.kept rfl (fun _ _ author => ⟨author,rfl⟩)
  | telling client =>
    rw [serverJob,place]
    have moved : Tenancy (s.goto pid child (.replying client)) := tenancy.goto present (fun _ => by rw [place]; rfl)
    exact moved.kept rfl (fun _ _ author => ⟨author,rfl⟩)
  | accepting | closing =>
    rw [serverJob,place]
    exact tenancy.goto present (fun busy => by cases busy)
  | replying client =>
    rw [serverJob,place]
    exact tenancy.goto present (fun _ => by rw [place]; rfl)

-- A signal waits for delivery.
theorem Tenancy.killed {s : System n} (tenancy : Tenancy s) (pid : Int) :
    Tenancy {s with children := Function.update s.children pid ((s.children pid).map ({· with term := true}))} := by
  refine ⟨?_,?_⟩
  · intro other child found
    by_cases same : other = pid
    · subst same
      simp only [Function.update_self] at found
      obtain ⟨before,present,_⟩ := Option.map_eq_some_iff.mp found
      exact tenancy.named other before present
    · exact tenancy.named other child (by simpa [same] using found)
  · intro slot other author
    obtain ⟨child,present,pos,shown⟩ := tenancy.tenant slot other author
    by_cases same : other = pid
    · subst same
      exact ⟨{child with term := true},by simp [present],pos,shown⟩
    · exact ⟨child,by simpa [same] using present,pos,shown⟩

-- The parent's own part of a step leaves the states as they are, but for its store.
theorem parent_tenancy {s : System n} {after : Parent n} (tenancy : Tenancy s)
    (state : ∀ slot pid, s.author slot = .tenant pid → (after.pool.serverpool slot).state = s.state slot) :
    Tenancy {s with parent := after} := tenancy.kept rfl (fun slot pid author => ⟨author,state slot pid author⟩)

theorem answered_tenancy {s next : System n} {call : Call n} (tenancy : Tenancy s) (answered : Answered s call next) : Tenancy next := by
  cases answered with
  | woken | probed | found | forkFails | recorded => exact tenancy.kept rfl (fun _ _ author => ⟨author,rfl⟩)
  | killed pid => exact tenancy.killed pid
  | stored slot =>
    refine tenancy.kept rfl ?_
    intro k pid author
    by_cases same : k = slot
    · subst same
      simp at author
    · exact ⟨by simpa [same] using author,rfl⟩
  | forked slot pid fresh => exact tenancy.born slot pid fresh

theorem step_tenancy {s t : System n} (tenancy : Tenancy s) (step : Step minSpare maxSpare s emitted t) : Tenancy t := by
  cases step with
  | alone after step =>
    refine parent_tenancy tenancy (fun slot _ _ => ?_)
    rcases (parent_slot step slot).1 with same | stored
    · exact same
    · cases stored
  | call call after next step answered =>
    refine parent_tenancy (answered_tenancy tenancy answered) (fun slot pid author => ?_)
    have same : next.state slot = s.state slot := by cases answered <;> rfl
    rcases (parent_slot step slot).1 with kept | stored
    · exact kept.trans same.symm
    · cases stored
      cases answered
      simp at author
  | child pid child got present => exact serverJob_tenancy tenancy present
  | delivered pid child present term => exact tenancy.bury
  | dies pid child present => exact tenancy.bury

theorem reached_tenancy {s : System n} (run : Runs (Step minSpare maxSpare) (start n) log s) : Tenancy s :=
  run.stateInvariant (fun _ _ _ tenancy step => step_tenancy tenancy step) (start_tenancy n)

end LinuxCoding.ServerPool
