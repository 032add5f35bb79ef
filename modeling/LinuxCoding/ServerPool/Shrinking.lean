import LinuxCoding.ServerPool.Staff

-- Which children del_1_server terminates.
namespace LinuxCoding.ServerPool
open Transition

-- The child holds a connection it has accepted and not answered yet.
def ChildPlace.unanswered : ChildPlace → Bool
  | .marking client => client
  | .telling client => client
  | .replying client => client
  | _ => false

-- The parent's next statement is kill(pid, SIGTERM).
def Spares (s : System n) : Prop :=
  ∀ i slot child, s.parent.place = .terminating i slot → s.children (s.pid slot) = some child → child.place.unanswered = false

-- When del_1_server finds STATE_IDLE, the slot's child does not stand between the return
-- of accept and its STATE_BUSY, and nobody else has stored that STATE_IDLE over its
-- STATE_BUSY. No accept returns to it between that test and the kill.
structure Timely (s : System n) (emitted : List (Event n)) : Prop where
  found : ∀ slot child, .parent (.found slot) ∈ emitted → s.children (s.pid slot) = some child →
    child.place ≠ .marking true ∧
      (s.author slot ≠ .tenant (s.pid slot) → child.place ≠ .telling true ∧ child.place ≠ .replying true)
  accepted : ∀ pid i slot, .accepted pid ∈ emitted → s.parent.place = .terminating i slot → s.pid slot ≠ pid

theorem parent_terminates {minSpare maxSpare : Nat} {me after : Parent n} (step : ParentStep minSpare maxSpare me calls after)
    (here : after.place = .terminating i slot) : calls = [.found slot] := by
  cases step with
  | statement p place after next calls ran =>
    rcases statement_cases ran with ⟨_,_,elsewhere⟩ | ⟨j,chosen,_,_,rfl,rfl⟩ | ⟨_,_,_,_,rfl,_⟩ | ⟨caller,_,_,_,_,rfl,_⟩
    · exact absurd here (elsewhere i slot)
    · cases here
      rfl
    · cases here
    · cases caller <;> cases here
  | woken | alive | dead | kill | fork | forkFails => cases here

theorem found_spares {s next : System n} {after : Parent n} (tenancy : Tenancy s) (same : next.children = s.children)
    (step : ParentStep minSpare maxSpare s.parent [.found slot] after) :
    Spares {next with parent := after} ↔ Timely s [.parent (.found slot)] := by
  obtain ⟨idle,i,rfl⟩ := parent_call step
  have idling : s.state slot ≠ stateBusy := by
    simp only [ServerSt.idle,Bool.and_eq_true,decide_eq_true_eq] at idle
    rw [System.state,idle.2]
    decide
  constructor
  · intro spares
    refine ⟨?_,fun pid i slot accepted => by simp at accepted⟩
    intro chosen child found present
    obtain rfl : chosen = slot := by simpa using found
    have answered := spares i chosen child rfl (by rw [← present,← same]; rfl)
    refine ⟨?_,fun _ => ⟨?_,?_⟩⟩
    all_goals
      intro here
      rw [here] at answered
      cases answered
  · intro timely j chosen child here present
    cases here
    have present : s.children (s.pid slot) = some child := by rw [← present,← same]; rfl
    obtain ⟨unmarked,overwritten⟩ := timely.found slot child List.mem_cons_self present
    have apart : child.place.working = true → s.author slot ≠ .tenant (s.pid slot) := by
      intro working own
      obtain ⟨tenant,lives,_,shown⟩ := tenancy.tenant slot (s.pid slot) own
      cases present.symm.trans lives
      exact idling (shown working)
    cases place : child.place with
    | idling | reporting | accepting | closing => rfl
    | marking client =>
      cases client with
      | true => exact absurd place unmarked
      | false => rfl
    | telling client =>
      cases client with
      | true => exact absurd place (overwritten (apart (by rw [place]; rfl))).1
      | false => rfl
    | replying client =>
      cases client with
      | true => exact absurd place (overwritten (apart (by rw [place]; rfl))).2
      | false => rfl

theorem serverJob_parent (s : System n) (pid : Int) (child : Child n) (got : Bool) :
    (serverJob s pid child got).1.parent.place = s.parent.place ∧ ∀ slot, (serverJob s pid child got).1.pid slot = s.pid slot := by
  cases place : child.place with
  | idling =>
    rw [serverJob,place]
    exact ⟨rfl,store_pid s pid child.pos stateIdle⟩
  | marking client =>
    rw [serverJob,place]
    exact ⟨rfl,store_pid s pid child.pos stateBusy⟩
  | reporting | accepting | telling | replying | closing =>
    rw [serverJob,place]
    exact ⟨rfl,fun _ => rfl⟩

-- Where a child gets a connection from.
theorem serverJob_child (s : System n) (pid : Int) (child : Child n) (got : Bool) :
    ∃ place : ChildPlace, (serverJob s pid child got).1.children = Function.update s.children pid (some {child with place := place}) ∧
      (.accepted pid ∈ (serverJob s pid child got).2 → place.unanswered = true) ∧
      (.accepted pid ∉ (serverJob s pid child got).2 → child.place.unanswered = false → place.unanswered = false) := by
  cases place : child.place with
  | idling | reporting | closing =>
    rw [serverJob,place]
    exact ⟨_,rfl,fun accepted => by simp at accepted,fun _ _ => rfl⟩
  | accepting =>
    rw [serverJob,place]
    refine ⟨_,rfl,?_,?_⟩
    · intro accepted
      cases got with
      | true => rfl
      | false => simp at accepted
    · intro nothing _
      cases got with
      | true => simp at nothing
      | false => rfl
  | marking client | telling client =>
    rw [serverJob,place]
    exact ⟨_,rfl,fun accepted => by simp at accepted,fun _ before => before⟩
  | replying client =>
    rw [serverJob,place]
    refine ⟨_,rfl,?_,fun _ _ => rfl⟩
    intro accepted
    cases client <;> simp at accepted

theorem child_spares {s : System n} (spares : Spares s) (present : s.children pid = some child) :
    Spares (serverJob s pid child got).1 ↔ Timely s (serverJob s pid child got).2 := by
  obtain ⟨kept,pids⟩ := serverJob_parent s pid child got
  obtain ⟨place,moved,taken,untaken⟩ := serverJob_child s pid child got
  obtain ⟨nothing,own⟩ := serverJob_events s pid child got
  constructor
  · intro after
    refine ⟨fun slot other found => absurd found (nothing _),?_⟩
    rintro other i slot accepted here rfl
    obtain rfl := own _ accepted
    have answered := after i slot {child with place := place} (kept.trans here) (by rw [pids,moved]; exact Function.update_self ..)
    have unanswered : place.unanswered = true := taken accepted
    rw [unanswered] at answered
    cases answered
  · intro timely i slot other here found
    rw [kept] at here
    rw [pids,moved] at found
    by_cases same : s.pid slot = pid
    · rw [same,Function.update_self] at found
      cases found
      refine untaken (fun accepted => timely.accepted pid i slot accepted here same) ?_
      exact spares i slot child here (by rw [same]; exact present)
    · rw [Function.update_of_ne same] at found
      exact spares i slot other here found

theorem bury_spares {s : System n} (spares : Spares s) : Spares (s.bury pid) := by
  intro i slot child here found
  by_cases same : s.pid slot = pid
  · have none : (s.bury pid).children pid = none := Function.update_self ..
    rw [show (s.bury pid).pid slot = pid from same,none] at found
    cases found
  · have kept : s.children (s.pid slot) = some child := by
      rw [← found]
      exact (Function.update_of_ne same ..).symm
    exact spares i slot child here kept

theorem timely_otherwise {s : System n} (found : ∀ slot, .parent (.found slot) ∉ emitted) (accepted : ∀ pid, .accepted pid ∉ emitted) :
    Timely s emitted :=
  ⟨fun slot _ here => absurd here (found slot),fun pid _ _ here => absurd here (accepted pid)⟩

theorem step_spares {s t : System n} (tenancy : Tenancy s) (spares : Spares s) (step : Step minSpare maxSpare s emitted t) :
    Spares t ↔ Timely s emitted := by
  cases step with
  | alone after step =>
    refine iff_of_true ?_ (timely_otherwise (fun _ => List.not_mem_nil) (fun _ => List.not_mem_nil))
    intro i slot child here
    cases parent_terminates step here
  | call call after next step answered =>
    by_cases chosen : ∃ slot, call = .found slot
    · obtain ⟨slot,rfl⟩ := chosen
      have same : next.children = s.children := by
        cases answered
        rfl
      exact found_spares tenancy same step
    · refine iff_of_true ?_ (timely_otherwise ?_ (fun pid => by simp))
      · intro i slot child here
        have found := parent_terminates step here
        exact absurd ⟨slot,(List.cons.inj found).1⟩ chosen
      · intro slot found
        have same : .found slot = call := by simpa using found
        exact chosen ⟨slot,same.symm⟩
  | child pid child got present => exact child_spares spares present
  | delivered pid child present term => exact iff_of_true (bury_spares spares) (timely_otherwise (by simp) (by simp))
  | dies pid child present => exact iff_of_true (bury_spares spares) (timely_otherwise (by simp) (by simp))

theorem start_spares (n : Nat) : Spares (start n) := by
  intro i slot child here
  cases here

-- In the runs that meet the condition no client is dropped, and the first step that does
-- not meet it brings the parent to a kill that drops one.
theorem shrinking_exact (minSpare maxSpare n : Nat) :
    (∀ log (s : System n), Runs (Where (Step minSpare maxSpare) Timely) (start n) log s → Spares s) ∧
    ∀ log (s : System n), Runs (Step minSpare maxSpare) (start n) log s → Spares s →
      ∀ emitted t, Step minSpare maxSpare s emitted t → (Spares t ↔ Timely s emitted) := by
  refine ⟨?_,fun log s run spares emitted t step => step_spares (reached_tenancy run) spares step⟩
  intro log s run
  have both : Tenancy s ∧ Spares s := by
    refine run.stateInvariant (I := fun s => Tenancy s ∧ Spares s) ?_ ⟨start_tenancy n,start_spares n⟩
    intro s emitted t holds taken
    exact ⟨step_tenancy holds.1 taken.1,(step_spares holds.1 holds.2 taken.1).mpr taken.2⟩
  exact both.2

-- MINSPARESERVER, MAXSPARESERVER and MAXCLIENT of server.c: del_1_server chooses a
-- server that waits for a client.
theorem shrinking_waits : ∃ log s, Runs (Where (Step 5 10) Timely) (start 20) log s ∧ s.parent.place = .terminating 0 0 ∧ Spares s := by
  obtain ⟨log,s,run,searches,_,staffed⟩ := surplus_run
  obtain ⟨_,_,shown,present⟩ := staffed.held 0 1 rfl
  have found : ParentStep 5 10 s.parent [.found 0] ⟨s.parent.pool,.terminating 0 0⟩ := finds_first searches shown (by decide)
  have named : s.pid 0 = 1 := congrArg ServerSt.pid shown
  have timely : Timely s [.parent (.found 0)] := by
    refine ⟨?_,fun pid i slot accepted => by simp at accepted⟩
    intro slot child chosen lives
    obtain rfl : slot = 0 := by simpa using chosen
    rw [named,present] at lives
    cases lives
    exact ⟨nofun,fun _ => ⟨nofun,nofun⟩⟩
  have plain : Runs (Where (Step 5 10) Timely) (start 20) log s :=
    run.mono (fun _ _ _ taken => ⟨taken.1,timely_otherwise taken.2.1 taken.2.2⟩)
  have reached := plain.step ⟨.call s _ _ s found (.found 0),timely⟩
  exact ⟨_,_,reached,rfl,(shrinking_exact 5 10 20).1 _ _ reached⟩

-- An accept returns just before
-- del_1_server looks at the slot.
theorem shrinking_drops : ¬ ∀ log (s : System 20), Runs (Step 5 10) (start 20) log s → Spares s := by
  intro spared
  obtain ⟨log,s,run,searches,_,staffed⟩ := surplus_run
  obtain ⟨_,_,shown,present⟩ := staffed.held 0 1 rfl
  let taken := s.goto 1 ⟨0,.accepting,false⟩ (.marking true)
  have accepts : Step 5 10 s [.accepted 1] taken := .child s 1 ⟨0,.accepting,false⟩ true present
  have found : ParentStep 5 10 taken.parent [.found 0] ⟨s.parent.pool,.terminating 0 0⟩ := finds_first searches shown (by decide)
  have reached := (run.unrestricted.step accepts).step (.call taken _ _ taken found (.found 0))
  have named : (s.parent.pool.serverpool 0).pid = 1 := congrArg ServerSt.pid shown
  have holds : taken.children (s.parent.pool.serverpool 0).pid = some ⟨0,.marking true,false⟩ := by
    rw [named]
    exact Function.update_self 1 _ s.children
  have dropped := spared _ _ reached 0 0 _ rfl holds
  cases dropped

end LinuxCoding.ServerPool
