import LinuxCoding.ServerPool.Staff

-- A slot of serverpool and the child whose pid it holds.
namespace LinuxCoding.ServerPool
open Transition

def Own (s : System n) : Prop :=
  ∀ slot child, s.children (s.pid slot) = some child → s.author slot = .tenant (s.pid slot)

-- Nobody stores to the slot of another living child, add_1_server stores a pid only
-- where nobody else has stored since its STATE_IDLE, and fork returns no pid that the
-- pool still holds.
structure Exclusive (s : System n) (emitted : List (Event n)) : Prop where
  stored : ∀ pid pos state, .stored pid pos state ∈ emitted → s.pid pos = pid ∨ s.children (s.pid pos) = none
  recorded : ∀ slot (pid : Pid), .parent (.recorded slot pid) ∈ emitted → s.children pid = none ∨ s.author slot = .tenant pid
  forked : ∀ slot (pid : Pid), .parent (.forked slot (some pid)) ∈ emitted → ∀ other, s.pid other ≠ pid

theorem exclusive_otherwise {s : System n} (stored : ∀ pid pos state, .stored pid pos state ∉ emitted)
    (recorded : ∀ slot pid, .parent (.recorded slot pid) ∉ emitted) (forked : ∀ slot (pid : Pid), .parent (.forked slot (some pid)) ∉ emitted) :
    Exclusive s emitted :=
  ⟨fun pid pos state here => absurd here (stored pid pos state),fun slot pid here => absurd here (recorded slot pid),
    fun slot pid here => absurd here (forked slot pid)⟩

theorem unnamed {s : System n} (tenancy : Tenancy s) : s.children (-1) = none := by
  cases found : s.children (-1) with
  | none => rfl
  | some child =>
    have positive := tenancy.named _ child found
    omega

-- A step that leaves the children and the authors as they are, and of the pids takes
-- some away.
theorem Own.kept {s t : System n} (own : Own s) (tenancy : Tenancy s)
    (children : ∀ pid child, t.children pid = some child → ∃ before, s.children pid = some before)
    (pids : ∀ slot, t.pid slot = s.pid slot ∨ t.pid slot = -1)
    (author : ∀ slot child, t.children (s.pid slot) = some child → s.author slot = .tenant (s.pid slot) → t.author slot = .tenant (s.pid slot)) :
    Own t := by
  intro slot child present
  rcases pids slot with same | gone
  · rw [same] at present ⊢
    obtain ⟨before,found⟩ := children _ child present
    exact author slot child present (own slot before found)
  · rw [gone] at present
    obtain ⟨before,found⟩ := children _ child present
    rw [unnamed tenancy] at found
    cases found

theorem store_own {s : System n} (own : Own s) (present : s.children pid = some child) :
    Own ((s.store pid child.pos state).goto pid child place) ↔ Exclusive s [.stored pid child.pos state] := by
  have pids : ∀ slot, ((s.store pid child.pos state).goto pid child place).pid slot = s.pid slot := store_pid s pid child.pos state
  have children : ((s.store pid child.pos state).goto pid child place).children = Function.update s.children pid (some {child with place := place}) := rfl
  have author : ((s.store pid child.pos state).goto pid child place).author = Function.update s.author child.pos (.tenant pid) := rfl
  constructor
  · intro after
    refine ⟨?_,by simp,by simp⟩
    intro other pos new here
    obtain ⟨rfl,rfl,rfl⟩ : other = pid ∧ pos = child.pos ∧ new = state := by simpa using here
    by_cases same : s.pid child.pos = other
    · exact .inl same
    · right
      cases found : s.children (s.pid child.pos) with
      | none => rfl
      | some tenant =>
        have mine := after child.pos tenant (by rw [pids,children,Function.update_of_ne same]; exact found)
        rw [pids,author,Function.update_self] at mine
        exact absurd (Author.tenant.inj mine).symm same
  · intro exclusive slot tenant found
    rw [pids,children] at found
    rw [pids,author]
    by_cases here : slot = child.pos
    · subst here
      rw [Function.update_self]
      rcases exclusive.stored pid child.pos state List.mem_cons_self with mine | gone
      · rw [mine]
      · by_cases same : s.pid child.pos = pid
        · rw [same]
        · rw [Function.update_of_ne same,gone] at found
          cases found
    · rw [Function.update_of_ne here]
      by_cases same : s.pid slot = pid
      · exact own slot child (by rw [same]; exact present)
      · rw [Function.update_of_ne same] at found
        exact own slot tenant found

theorem fork_own {s : System n} {after : Parent n} (own : Own s) (tenancy : Tenancy s) (fresh : s.children pid.val = none)
    (free : s.pid slot = -1) (same : after.pool = s.parent.pool) :
    Own {s.born slot pid.val with parent := after} ↔ Exclusive s [.parent (.forked slot (some pid))] := by
  have positive := pid.property
  have pids : ∀ other, System.pid {s.born slot pid.val with parent := after} other = s.pid other := by
    intro other
    rw [System.pid,System.pid,same]
  constructor
  · intro born
    refine ⟨by simp,by simp,?_⟩
    intro chosen made here other holds
    obtain ⟨rfl,rfl⟩ : chosen = slot ∧ made = pid := by simpa using here
    have apart : other ≠ chosen := by
      rintro rfl
      omega
    have mine := born other ⟨chosen,.idling,false⟩ (by rw [pids,holds]; exact Function.update_self ..)
    rw [pids,holds] at mine
    have before : s.author other = .tenant made.val := by
      change (if s.author chosen = .creating then Function.update s.author chosen (.tenant made.val) else s.author) other = _ at mine
      split at mine
      · rwa [Function.update_of_ne apart] at mine
      · exact mine
    obtain ⟨child,lives,_⟩ := tenancy.tenant other _ before
    rw [fresh] at lives
    cases lives
  · intro exclusive other child found
    rw [pids] at found ⊢
    have unlisted := exclusive.forked slot pid List.mem_cons_self other
    have before : s.children (s.pid other) = some child := by
      rw [← found]
      exact (Function.update_of_ne unlisted ..).symm
    have apart : other ≠ slot := by
      rintro rfl
      rw [free,unnamed tenancy] at before
      cases before
    have mine := own other child before
    change (if s.author slot = .creating then Function.update s.author slot (.tenant pid.val) else s.author) other = _
    split
    · rw [Function.update_of_ne apart]
      exact mine
    · exact mine

theorem parent_stored {minSpare maxSpare : Nat} {me after : Parent n} (accounted : Accounted me)
    (step : ParentStep minSpare maxSpare me [.stored slot] after) : (me.pool.serverpool slot).pid = -1 := by
  obtain ⟨⟨caller,here⟩,_⟩ := parent_call step
  have balanced := accounted.balanced
  rw [here] at balanced
  simpa [Pool.held,ServerSt.empty] using balanced.1

theorem parent_forked {minSpare maxSpare : Nat} {me after : Parent n} (accounted : Accounted me)
    (step : ParentStep minSpare maxSpare me [.forked slot made] after) : (me.pool.serverpool slot).pid = -1 := by
  obtain ⟨⟨caller,here⟩,_⟩ := parent_call step
  have balanced := accounted.balanced
  rw [here] at balanced
  simpa [Pool.held,ServerSt.empty] using balanced.1

theorem record_own {s : System n} {after : Parent n} (own : Own s) (pool : after.pool = s.parent.pool.add slot pid) :
    Own {s with parent := after} ↔ Exclusive s [.parent (.recorded slot pid)] := by
  have here : System.pid {s with parent := after} slot = pid := by simp [System.pid,pool,Pool.add,Pool.put]
  have others : ∀ other, other ≠ slot → System.pid {s with parent := after} other = s.pid other := by
    intro other apart
    simp [System.pid,pool,Pool.add,Pool.put,apart]
  constructor
  · intro recorded
    refine ⟨by simp,?_,by simp⟩
    intro chosen made found
    obtain ⟨rfl,rfl⟩ : chosen = slot ∧ made = pid := by simpa using found
    cases lives : s.children made with
    | none => exact .inl rfl
    | some child =>
      have mine := recorded chosen child (by rw [here]; exact lives)
      rw [here] at mine
      exact .inr mine
  · intro exclusive other child found
    by_cases same : other = slot
    · subst same
      rw [here] at found ⊢
      rcases exclusive.recorded other pid List.mem_cons_self with gone | mine
      · have lives : s.children pid = some child := found
        rw [gone] at lives
        cases lives
      · exact mine
    · rw [others other same] at found ⊢
      exact own other child found

theorem stored_own {s : System n} {after : Parent n} (own : Own s) (tenancy : Tenancy s) (free : s.pid slot = -1)
    (pids : ∀ other, (after.pool.serverpool other).pid = s.pid other ∨ (after.pool.serverpool other).pid = -1) :
    Own {s with parent := after,author := Function.update s.author slot .creating} := by
  refine own.kept tenancy (fun pid child found => ⟨child,found⟩) pids ?_
  intro other child found mine
  have apart : other ≠ slot := by
    rintro rfl
    rw [free] at found
    have lives : s.children (-1) = some child := found
    rw [unnamed tenancy] at lives
    cases lives
  exact (Function.update_of_ne apart ..).trans mine

theorem serverJob_own {s : System n} (own : Own s) (tenancy : Tenancy s) (present : s.children pid = some child) :
    Own (serverJob s pid child got).1 ↔ Exclusive s (serverJob s pid child got).2 := by
  have moves : ∀ (t : System n) place, t.children = (s.goto pid child place).children → t.parent = s.parent → t.author = s.author → Own t := by
    intro t place children parent author
    refine own.kept tenancy ?_ (fun slot => .inl (by rw [System.pid,System.pid,parent])) (fun slot _ _ mine => by rw [author]; exact mine)
    intro other later found
    by_cases same : other = pid
    · subst same
      exact ⟨child,present⟩
    · exact ⟨later,by simpa [children,System.goto,System.setChild,same] using found⟩
  cases place : child.place with
  | idling | marking =>
    rw [serverJob,place]
    exact store_own own present
  | reporting | telling | closing =>
    rw [serverJob,place]
    exact iff_of_true (moves _ _ rfl rfl rfl) (exclusive_otherwise (by simp) (by simp) (by simp))
  | accepting =>
    rw [serverJob,place]
    exact iff_of_true (moves _ _ rfl rfl rfl) (exclusive_otherwise (by simp) (by simp) (by simp))
  | replying client =>
    rw [serverJob,place]
    exact iff_of_true (moves _ _ rfl rfl rfl) (exclusive_otherwise (by simp) (by simp) (by simp))

theorem bury_own {s : System n} (own : Own s) (tenancy : Tenancy s) : Own (s.bury pid) := by
  refine own.kept tenancy ?_ (fun _ => .inl rfl) ?_
  · intro other child found
    by_cases same : other = pid
    · subst same
      simp [System.bury,System.setChild] at found
    · exact ⟨child,by simpa [System.bury,System.setChild,same] using found⟩
  · intro slot child found mine
    have apart : s.pid slot ≠ pid := by
      intro same
      rw [same] at found
      simp [System.bury,System.setChild] at found
    simp only [System.bury,Author.leave,mine]
    rw [if_neg (fun same => apart (Author.tenant.inj same))]

theorem step_own {s t : System n} (own : Own s) (tenancy : Tenancy s) (accounted : Accounted s.parent)
    (step : Step minSpare maxSpare s emitted t) : Own t ↔ Exclusive s emitted := by
  cases step with
  | alone after step =>
    refine iff_of_true ?_ (exclusive_otherwise (by simp) (by simp) (by simp))
    refine own.kept tenancy (fun pid child found => ⟨child,found⟩) ?_ (fun _ _ _ mine => mine)
    intro slot
    rcases (parent_slot step slot).2 with same | gone | ⟨pid,none,_⟩
    · exact .inl same
    · exact .inr gone
    · cases none
  | call call after next step answered =>
    have pids : (∀ slot pid, call ≠ .recorded slot pid) → ∀ slot, (after.pool.serverpool slot).pid = s.pid slot ∨
        (after.pool.serverpool slot).pid = -1 := by
      intro unrecorded slot
      rcases (parent_slot step slot).2 with same | gone | ⟨pid,recorded,_⟩
      · exact .inl same
      · exact .inr gone
      · exact absurd (List.cons.inj recorded).1 (unrecorded slot pid)
    cases answered with
    | woken | probed | found | forkFails =>
      refine iff_of_true ?_ (exclusive_otherwise (by simp) (by simp) (by simp))
      exact own.kept tenancy (fun pid child found => ⟨child,found⟩) (pids (fun _ _ => nofun)) (fun _ _ _ mine => mine)
    | killed pid =>
      refine iff_of_true ?_ (exclusive_otherwise (by simp) (by simp) (by simp))
      refine own.kept tenancy ?_ (pids (fun _ _ => nofun)) (fun _ _ _ mine => mine)
      intro other child found
      by_cases same : other = pid
      · subst same
        obtain ⟨before,present,_⟩ := Option.map_eq_some_iff.mp (by simpa using found)
        exact ⟨before,present⟩
      · exact ⟨child,by simpa [same] using found⟩
    | stored slot =>
      exact iff_of_true (stored_own own tenancy (parent_stored accounted step) (pids (fun _ _ => nofun)))
        (exclusive_otherwise (by simp) (by simp) (by simp))
    | forked slot pid fresh =>
      obtain ⟨_,same⟩ := parent_call step
      exact fork_own own tenancy fresh (parent_forked accounted step) same
    | recorded slot pid =>
      obtain ⟨_,same⟩ := parent_call step
      exact record_own own same
  | child pid child got present => exact serverJob_own own tenancy present
  | delivered pid child present term => exact iff_of_true (bury_own own tenancy) (exclusive_otherwise (by simp) (by simp) (by simp))
  | dies pid child present => exact iff_of_true (bury_own own tenancy) (exclusive_otherwise (by simp) (by simp) (by simp))

theorem start_own (n : Nat) : Own (start n) := by
  intro slot child found
  cases found

theorem slots_exclusive (minSpare maxSpare n : Nat) :
    (∀ log (s : System n), Runs (Where (Step minSpare maxSpare) Exclusive) (start n) log s → Own s) ∧
    ∀ log (s : System n), Runs (Step minSpare maxSpare) (start n) log s → Own s →
      ∀ emitted t, Step minSpare maxSpare s emitted t → (Own t ↔ Exclusive s emitted) := by
  refine ⟨?_,fun log s run own emitted t step => step_own own (reached_tenancy run) (reached_accounted run) step⟩
  intro log s run
  have all : Own s ∧ Tenancy s ∧ Accounted s.parent := by
    refine run.stateInvariant (I := fun s => Own s ∧ Tenancy s ∧ Accounted s.parent) ?_
      ⟨start_own n,start_tenancy n,boot_accounted n⟩
    intro s emitted t ⟨own,tenancy,accounted⟩ taken
    exact ⟨(step_own own tenancy accounted taken.1).mpr taken.2,step_tenancy tenancy taken.1,step_accounted accounted taken.1⟩
  exact all.1

-- MINSPARESERVER, MAXSPARESERVER and MAXCLIENT of server.c: the first server is made.
theorem first_own : ∃ log s, Runs (Where (Step 5 10) Exclusive) (start 20) log s ∧ s.pid 0 = 1 ∧ s.author 0 = .tenant 1 ∧ Own s := by
  let pool := (boot 20).pool
  let readied : Pool 20 := pool.put 0 ⟨-1,stateIdle⟩
  let chosen : System 20 := {start 20 with parent := ⟨pool,.storing (.initial 0) 0⟩}
  let reset : System 20 := ⟨⟨readied,.forking (.initial 0) 0⟩,fun _ => none,false,Function.update (fun _ => .nobody) 0 .creating⟩
  let forked : System 20 := {reset.born 0 1 with parent := ⟨readied,.recording (.initial 0) 0 ⟨1,by decide⟩⟩}
  have calls : statement 5 10 pool (.starting 0) = some (pool,.adding (.initial 0),[]) := rfl
  have finds : statement 5 10 pool (.adding (.initial 0)) = some (pool,.storing (.initial 0) 0,[]) := rfl
  have nothing : ∀ s : System 20, Exclusive s [] := fun s =>
    exclusive_otherwise (fun _ _ _ => List.not_mem_nil) (fun _ _ => List.not_mem_nil) (fun _ _ => List.not_mem_nil)
  have called : Runs (Where (Step 5 10) Exclusive) (start 20) _ {start 20 with parent := ⟨pool,.adding (.initial 0)⟩} :=
    .one ⟨.alone _ ⟨pool,.adding (.initial 0)⟩ (.statement _ _ _ _ _ calls),nothing _⟩
  have found : Step 5 10 {start 20 with parent := ⟨pool,.adding (.initial 0)⟩} [] chosen :=
    .alone _ ⟨pool,.storing (.initial 0) 0⟩ (.statement _ _ _ _ _ finds)
  have stores : Step 5 10 chosen [.parent (.stored 0)] reset :=
    .call chosen (.stored 0) ⟨readied,.forking (.initial 0) 0⟩ _ (.statement _ _ _ _ _ rfl) (.stored 0)
  have forks : Step 5 10 reset [.parent (.forked 0 (some ⟨1,by decide⟩))] forked :=
    .call reset _ ⟨readied,.recording (.initial 0) 0 ⟨1,by decide⟩⟩ (reset.born 0 1) (.fork ..) (.forked 0 ⟨1,by decide⟩ rfl)
  have records : Step 5 10 forked [.parent (.recorded 0 ⟨1,by decide⟩)] {forked with parent := ⟨readied.add 0 ⟨1,by decide⟩,.starting 1⟩} :=
    .call forked _ ⟨readied.add 0 ⟨1,by decide⟩,.starting 1⟩ forked (.statement _ _ _ _ _ rfl) (.recorded 0 ⟨1,by decide⟩)
  have others : ∀ k : Fin 20, readied.serverpool k = ⟨-1,0⟩ := by decide
  have fresh : Exclusive reset [.parent (.forked 0 (some ⟨1,by decide⟩))] := by
    refine ⟨by simp,by simp,?_⟩
    intro slot pid here other named
    have gone : reset.pid other = -1 := congrArg ServerSt.pid (others other)
    have positive := pid.2
    omega
  have author : forked.author 0 = .tenant 1 := by simp [forked,reset,System.born]
  have mine : Exclusive forked [.parent (.recorded 0 ⟨1,by decide⟩)] := by
    refine ⟨by simp,?_,by simp⟩
    intro slot pid here
    obtain ⟨rfl,rfl⟩ : slot = 0 ∧ pid = ⟨1,by decide⟩ := by simpa using here
    exact .inr author
  have reached := (((called.step ⟨found,nothing _⟩).step ⟨stores,exclusive_otherwise (by simp) (by simp) (by simp)⟩).step
    ⟨forks,fresh⟩).step ⟨records,mine⟩
  exact ⟨_,_,reached,rfl,author,(slots_exclusive 5 10 20).1 _ _ reached⟩

-- The child of slot 0 is asked
-- to terminate and the slot filled again, and it stores STATE_BUSY before the signal is
-- delivered.
theorem slots_shared : ¬ ∀ log (s : System 20), Runs (Step 5 10) (start 20) log s → Own s := by
  intro owned
  obtain ⟨log,s,run,searches,idle,staffed⟩ := surplus_run
  obtain ⟨asking,t,asked,waits,vacant,lives⟩ := terminate_run searches idle staffed
  -- Six of the remaining ten servers become busy, so that the next pass adds one.
  let later : Fin 20 → ChildPlace := fun slot => if 5 ≤ slot.val then .replying false else .accepting
  let upper : List (Fin 20) := (List.finRange 20).filter (fun slot => 5 ≤ slot.val)
  have inside : ∀ slot, slot ∈ upper ↔ 5 ≤ slot.val := by simp [upper]
  have turns : ∀ slot ∈ upper, freed slot ≠ none → Turns .accepting (later slot) :=
    fun slot member _ => .inl ⟨rfl,if_pos ((inside slot).mp member)⟩
  have rest : ∀ slot, slot ∉ upper → freed slot ≠ none → .accepting = later slot :=
    fun slot outside _ => (if_neg (fun above => outside ((inside slot).mpr above))).symm
  obtain ⟨working,u,worked,half,untouched,told⟩ := remood_run 5 10 upper ((List.nodup_finRange 20).filter _) vacant turns rest
  have first : (List.finRange 20).find? (fun slot => (freed slot).isNone) = some 0 := by decide
  obtain ⟨growing,v,grew,_,refilled,others⟩ := grow_run half (by decide) (untouched.place.trans waits)
    (told ⟨5,(inside 5).mpr (le_refl _),by decide⟩) (by decide) (by decide) first
  have old : v.children 1 = some ⟨0,.accepting,true⟩ := by
    rw [others 1 (by decide),untouched.others 1 (fun slot => freed_named),lives]
  let taken := v.goto 1 ⟨0,.accepting,true⟩ (.marking false)
  let marked := (taken.store 1 0 stateBusy).goto 1 ⟨0,.marking false,true⟩ (.telling false)
  have accepts : Step 5 10 v [] taken := .child v 1 _ false old
  have atMarking : taken.children 1 = some ⟨0,.marking false,true⟩ := by simp [taken,System.goto,System.setChild]
  have marks : Step 5 10 taken [.stored 1 0 stateBusy] marked := .child taken 1 _ false atMarking
  have reached := ((((run.unrestricted.append asked).append worked.unrestricted).append grew.unrestricted).step accepts).step marks
  obtain ⟨_,_,shown,present⟩ := refilled.held 0 12 rfl
  have named : marked.pid 0 = 12 := by
    simpa [marked,taken,System.goto,System.setChild,System.store,System.pid,Pool.put] using congrArg ServerSt.pid shown
  have own := owned _ _ reached 0 ⟨0,.idling,false⟩
  rw [named] at own
  have author : marked.author 0 = .tenant 1 := by simp [marked,System.goto,System.setChild,System.store]
  rw [author] at own
  cases own (by simpa [marked,taken,System.goto,System.setChild,System.store] using present)

end LinuxCoding.ServerPool
