import LinuxCoding.ServerPool.Tenancy

-- Runs in which the parent and its children do not get into each other's way, put
-- together from the passes of the parent and the rounds of the children.
namespace LinuxCoding.ServerPool
open Transition

-- Nobody is chosen for termination, and no connection is accepted.
def Plain (_ : System n) (emitted : List (Event n)) : Prop :=
  (∀ slot, .parent (.found slot) ∉ emitted) ∧ ∀ pid, .accepted pid ∉ emitted

section
variable {minSpare maxSpare : Nat} {s : System n}

theorem plain_nil : Plain s [] := ⟨fun _ => List.not_mem_nil,fun _ => List.not_mem_nil⟩

theorem plain_call {call : Call n} (other : ∀ slot, call ≠ .found slot) : Plain s [.parent call] :=
  ⟨fun slot found => other slot (by simpa using (List.mem_singleton.mp found).symm),fun _ => by simp⟩

theorem statement_run {p after : Pool n} (ran : statement minSpare maxSpare p place = some (after,next,[])) :
    Runs (Where (Step minSpare maxSpare) Plain) {s with parent := ⟨p,place⟩} [] {s with parent := ⟨after,next⟩} :=
  .one ⟨.alone _ ⟨after,next⟩ (.statement _ _ _ _ _ ran),plain_nil⟩

theorem place_run {after : Pool n} (here : s.parent.place = place)
    (ran : statement minSpare maxSpare s.parent.pool place = some (after,next,[])) :
    Runs (Where (Step minSpare maxSpare) Plain) s [] {s with parent := ⟨after,next⟩} := by
  obtain ⟨⟨pool,at_⟩,children,told,author⟩ := s
  cases here
  exact statement_run (s := ⟨⟨pool,at_⟩,children,told,author⟩) ran

theorem probe_run {p : Pool n} {after : Parent n}
    (step : ParentStep minSpare maxSpare ⟨p,place⟩ [.probed pid (s.children pid).isSome] after) :
    Runs (Where (Step minSpare maxSpare) Plain) {s with parent := ⟨p,place⟩} [.parent (.probed pid (s.children pid).isSome)]
      {s with parent := after} :=
  .one ⟨.call _ _ _ {s with parent := ⟨p,place⟩} step (.probed pid),by simp [Plain]⟩

-- Undisturbed, the statements of scan_pool do what the function does.
theorem scan_run {p q : Pool n} {idle busy : Int} (scanned : scanFrom (fun pid => (s.children pid).isSome) rest p idle busy = some q) :
    ∃ log, Runs (Where (Step minSpare maxSpare) Plain) {s with parent := ⟨p,.scanning rest idle busy⟩} log
      {s with parent := ⟨q,.controlling⟩} := by
  induction rest generalizing p idle busy with
  | nil =>
    cases scanned
    exact ⟨_,statement_run rfl⟩
  | cons slot rest ih =>
    unfold scanFrom at scanned
    by_cases gone : (p.serverpool slot).pid = -1
    · rw [if_pos gone] at scanned
      obtain ⟨log,run⟩ := ih scanned
      exact ⟨_,(statement_run (by simp [statement,gone])).append run⟩
    · rw [if_neg gone] at scanned
      cases lives : (s.children (p.serverpool slot).pid).isSome with
      | false =>
        simp only [lives,Bool.not_false,if_true] at scanned
        obtain ⟨log,run⟩ := ih scanned
        exact ⟨_,(probe_run (by rw [lives]; exact .dead p slot rest idle busy gone)).append run⟩
      | true =>
        simp only [lives,Bool.not_true,Bool.false_eq_true,if_false] at scanned
        have alive : ParentStep minSpare maxSpare ⟨p,.scanning (slot :: rest) idle busy⟩
            [.probed (p.serverpool slot).pid (s.children (p.serverpool slot).pid).isSome] ⟨p,.idleTest slot rest idle busy⟩ := by
          rw [lives]
          exact .alive p slot rest idle busy gone
        have probed := probe_run alive
        by_cases idling : (p.serverpool slot).state = stateIdle
        · rw [if_pos idling] at scanned
          obtain ⟨log,run⟩ := ih scanned
          exact ⟨_,(probed.append (statement_run (by simp [statement,idling]))).append run⟩
        · rw [if_neg idling] at scanned
          have untested : statement minSpare maxSpare p (.idleTest slot rest idle busy) = some (p,.busyTest slot rest idle busy,[]) := by
            simp [statement,idling]
          by_cases working : (p.serverpool slot).state = stateBusy
          · rw [if_pos working] at scanned
            obtain ⟨log,run⟩ := ih scanned
            exact ⟨_,((probed.append (statement_run untested)).append (statement_run (by simp [statement,working]))).append run⟩
          · rw [if_neg working] at scanned
            cases scanned

end

-- The state a child shows in its slot, apart from the time between its reply and its
-- next STATE_IDLE.
def ChildPlace.shown (place : ChildPlace) : Int := if place.working then stateBusy else stateIdle

def System.shows (s : System n) (pid : Int) (slot : Fin n) (place : ChildPlace) : System n :=
  {(s.store pid slot place.shown).setChild pid (some ⟨slot,place,false⟩) with notified := true}

section
variable {minSpare maxSpare : Nat} {s : System n}

theorem child_run (present : s.children pid = some child) (plain : ∀ other, .accepted other ∉ (serverJob s pid child false).2) :
    Runs (Where (Step minSpare maxSpare) Plain) s (serverJob s pid child false).2 (serverJob s pid child false).1 :=
  .one ⟨.child s pid child false present,fun slot => (serverJob_events s pid child false).1 (.found slot),plain⟩

-- accept fails with EINTR, and the child goes on as if it had a client.
theorem busy_run (present : s.children pid = some ⟨slot,.accepting,false⟩) :
    ∃ log, Runs (Where (Step minSpare maxSpare) Plain) s log (s.shows pid slot (.replying false)) := by
  let marking := s.goto pid ⟨slot,.accepting,false⟩ (.marking false)
  let telling := (marking.store pid slot stateBusy).goto pid ⟨slot,.marking false,false⟩ (.telling false)
  let replying := {telling.goto pid ⟨slot,.telling false,false⟩ (.replying false) with notified := true}
  have atMarking : marking.children pid = some ⟨slot,.marking false,false⟩ := Function.update_self ..
  have atTelling : telling.children pid = some ⟨slot,.telling false,false⟩ := Function.update_self ..
  have returned : Runs (Where (Step minSpare maxSpare) Plain) s _ marking := child_run present (by simp [serverJob])
  have marked : Runs (Where (Step minSpare maxSpare) Plain) marking _ telling := child_run atMarking (by simp [serverJob])
  have told : Runs (Where (Step minSpare maxSpare) Plain) telling _ replying := child_run atTelling (by simp [serverJob])
  have same : replying = s.shows pid slot (.replying false) := by
    simp [replying,telling,marking,System.goto,System.setChild,System.store,System.shows,ChildPlace.shown,ChildPlace.working]
  rw [same] at told
  exact ⟨_,(returned.append marked).append told⟩

theorem ready_run (present : s.children pid = some ⟨slot,.idling,false⟩) :
    ∃ log, Runs (Where (Step minSpare maxSpare) Plain) s log (s.shows pid slot .accepting) := by
  let reporting := (s.store pid slot stateIdle).goto pid ⟨slot,.idling,false⟩ .reporting
  let accepting := {reporting.goto pid ⟨slot,.reporting,false⟩ .accepting with notified := true}
  have atReporting : reporting.children pid = some ⟨slot,.reporting,false⟩ := Function.update_self ..
  have idled : Runs (Where (Step minSpare maxSpare) Plain) s _ reporting := child_run present (by simp [serverJob])
  have reported : Runs (Where (Step minSpare maxSpare) Plain) reporting _ accepting := child_run atReporting (by simp [serverJob])
  have same : accepting = s.shows pid slot .accepting := by
    simp [accepting,reporting,System.goto,System.setChild,System.store,System.shows,ChildPlace.shown,ChildPlace.working]
  rw [same] at reported
  exact ⟨_,idled.append reported⟩

theorem back_run (present : s.children pid = some ⟨slot,.replying false,false⟩) :
    ∃ log, Runs (Where (Step minSpare maxSpare) Plain) s log (s.shows pid slot .accepting) := by
  let closing := s.goto pid ⟨slot,.replying false,false⟩ .closing
  let idling := closing.goto pid ⟨slot,.closing,false⟩ .idling
  have atClosing : closing.children pid = some ⟨slot,.closing,false⟩ := Function.update_self ..
  have atIdling : idling.children pid = some ⟨slot,.idling,false⟩ := Function.update_self ..
  have replied : Runs (Where (Step minSpare maxSpare) Plain) s _ closing := child_run present (by simp [serverJob])
  have closed : Runs (Where (Step minSpare maxSpare) Plain) closing _ idling := child_run atClosing (by simp [serverJob])
  obtain ⟨log,ready⟩ : ∃ log, Runs (Where (Step minSpare maxSpare) Plain) idling log (idling.shows pid slot .accepting) := ready_run atIdling
  have same : idling.shows pid slot .accepting = s.shows pid slot .accepting := by
    simp [idling,closing,System.goto,System.setChild,System.store,System.shows]
  rw [same] at ready
  exact ⟨_,(replied.append closed).append ready⟩

-- Which child is in which slot, and where it stands.
structure Staffed (crew : Fin n → Option Int) (mood : Fin n → ChildPlace) (bound : Int) (s : System n) : Prop where
  held : ∀ slot pid, crew slot = some pid → 0 < pid ∧ pid ≤ bound ∧ s.parent.pool.serverpool slot = ⟨pid,(mood slot).shown⟩ ∧
    s.children pid = some ⟨slot,mood slot,false⟩
  free : ∀ slot, crew slot = none → s.pid slot = -1
  unborn : ∀ pid, bound < pid → s.children pid = none

theorem Staffed.moved {crew : Fin n → Option Int} {mood : Fin n → ChildPlace} {bound : Int} (staffed : Staffed crew mood bound s)
    (place : ParentPlace n) : Staffed crew mood bound {s with parent := ⟨s.parent.pool,place⟩} :=
  ⟨staffed.held,staffed.free,staffed.unborn⟩

theorem Staffed.shows {crew : Fin n → Option Int} {mood : Fin n → ChildPlace} {bound : Int} (staffed : Staffed crew mood bound s)
    (here : crew slot = some pid) (place : ChildPlace) :
    Staffed crew (Function.update mood slot place) bound (s.shows pid slot place) := by
  obtain ⟨positive,low,filled,lives⟩ := staffed.held slot pid here
  refine ⟨?_,?_,?_⟩
  · intro other their holds
    obtain ⟨named,below,shown,present⟩ := staffed.held other their holds
    refine ⟨named,below,?_⟩
    by_cases same : other = slot
    · subst same
      obtain rfl := Option.some.inj (here.symm.trans holds)
      simp [System.shows,System.setChild,System.store,Pool.put,shown]
    · have apart : their ≠ pid := by
        rintro rfl
        rw [lives] at present
        exact same (congrArg Child.pos (Option.some.inj present)).symm
      simp [System.shows,System.setChild,System.store,Pool.put,same,shown,apart,present]
  · intro other none
    have apart : other ≠ slot := by
      rintro rfl
      rw [here] at none
      cases none
    have kept := staffed.free other none
    simpa [System.pid,System.shows,System.setChild,System.store,Pool.put,apart] using kept
  · intro other above
    have apart : other ≠ pid := by omega
    have none := staffed.unborn other above
    simpa [System.shows,System.setChild,System.store,apart] using none

def Turns (old new : ChildPlace) : Prop :=
  old = .accepting ∧ new = .replying false ∨ old = .idling ∧ new = .accepting ∨ old = .replying false ∧ new = .accepting

theorem turn_run (turns : Turns old new) (present : s.children pid = some ⟨slot,old,false⟩) :
    ∃ log, Runs (Where (Step minSpare maxSpare) Plain) s log (s.shows pid slot new) := by
  rcases turns with ⟨rfl,rfl⟩ | ⟨rfl,rfl⟩ | ⟨rfl,rfl⟩
  · exact busy_run present
  · exact ready_run present
  · exact back_run present

-- What the children of a crew do not touch.
structure Untouched (crew : Fin n → Option Int) (s t : System n) : Prop where
  place : t.parent.place = s.parent.place
  idle : t.parent.pool.idleCount = s.parent.pool.idleCount
  busy : t.parent.pool.busyCount = s.parent.pool.busyCount
  others : ∀ pid, (∀ slot, crew slot ≠ some pid) → t.children pid = s.children pid
  notified : s.notified = true → t.notified = true

theorem remood_run (minSpare maxSpare : Nat) {crew : Fin n → Option Int} {mood later : Fin n → ChildPlace} {bound : Int} (slots : List (Fin n)) (distinct : slots.Nodup)
    (staffed : Staffed crew mood bound s) (turns : ∀ slot ∈ slots, crew slot ≠ none → Turns (mood slot) (later slot))
    (rest : ∀ slot, slot ∉ slots → crew slot ≠ none → mood slot = later slot) :
    ∃ log t, Runs (Where (Step minSpare maxSpare) Plain) s log t ∧ Staffed crew later bound t ∧ Untouched crew s t ∧
      ((∃ slot ∈ slots, crew slot ≠ none) → t.notified = true) := by
  induction slots generalizing s mood with
  | nil =>
    refine ⟨[],s,.nil,⟨?_,staffed.free,staffed.unborn⟩,⟨rfl,rfl,rfl,fun _ _ => rfl,id⟩,fun ⟨_,member,_⟩ => by cases member⟩
    intro slot pid holds
    rw [← rest slot List.not_mem_nil (by rw [holds]; nofun)]
    exact staffed.held slot pid holds
  | cons slot slots ih =>
    obtain ⟨fresh,distinct⟩ := List.nodup_cons.mp distinct
    have further := fun k member => turns k (List.mem_cons_of_mem slot member)
    cases holds : crew slot with
    | none =>
      have rest : ∀ k, k ∉ slots → crew k ≠ none → mood k = later k := by
        intro k outside held
        have apart : k ≠ slot := by
          rintro rfl
          exact held holds
        exact rest k (fun member => (List.mem_cons.mp member).elim apart outside) held
      obtain ⟨log,t,run,after,untouched,notified⟩ := ih distinct staffed further rest
      refine ⟨log,t,run,after,untouched,fun ⟨k,member,held⟩ => notified ⟨k,?_,held⟩⟩
      refine (List.mem_cons.mp member).resolve_left ?_
      rintro rfl
      exact held holds
    | some pid =>
      have turn := turns slot List.mem_cons_self (by rw [holds]; nofun)
      obtain ⟨_,_,_,present⟩ := staffed.held slot pid holds
      obtain ⟨first,turned⟩ : ∃ log, Runs (Where (Step minSpare maxSpare) Plain) s log (s.shows pid slot (later slot)) := turn_run turn present
      have mood : ∀ k, k ≠ slot → Function.update mood slot (later slot) k = mood k := fun k apart => Function.update_of_ne apart ..
      obtain ⟨log,t,run,after,untouched,_⟩ := ih distinct (staffed.shows holds (later slot))
        (fun k member held => by
          rw [mood k (fun same => fresh (same ▸ member))]
          exact further k member held)
        (fun k outside held => by
          by_cases same : k = slot
          · subst same
            exact Function.update_self ..
          · rw [mood k same]
            exact rest k (fun member => (List.mem_cons.mp member).elim same outside) held)
      have told : t.notified = true := untouched.notified rfl
      refine ⟨_,t,turned.append run,after,⟨untouched.place,untouched.idle,untouched.busy,?_,fun _ => told⟩,fun _ => told⟩
      intro other outside
      rw [untouched.others other outside]
      exact Function.update_of_ne (fun same => outside slot (by rw [holds,same])) ..

def idlers (crew : Fin n → Option Int) (mood : Fin n → ChildPlace) (slot : Fin n) : Bool := (crew slot).isSome && !(mood slot).working
def workers (crew : Fin n → Option Int) (mood : Fin n → ChildPlace) (slot : Fin n) : Bool := (crew slot).isSome && (mood slot).working

theorem Staffed.scan {crew : Fin n → Option Int} {mood : Fin n → ChildPlace} {bound : Int} (staffed : Staffed crew mood bound s) (idle busy : Int)
    (slots : List (Fin n)) : scanFrom (fun pid => (s.children pid).isSome) slots s.parent.pool idle busy =
      some {s.parent.pool with
        idleCount := idle + slots.countP (idlers crew mood),busyCount := busy + slots.countP (workers crew mood)} := by
  induction slots generalizing idle busy with
  | nil => simp [scanFrom]
  | cons slot slots ih =>
    cases holds : crew slot with
    | none =>
      have gone : (s.parent.pool.serverpool slot).pid = -1 := staffed.free slot holds
      rw [scanFrom,if_pos gone,ih,List.countP_cons,List.countP_cons]
      simp [idlers,workers,holds]
    | some pid =>
      obtain ⟨positive,_,filled,present⟩ := staffed.held slot pid holds
      have named : pid ≠ -1 := by omega
      rw [scanFrom,filled,if_neg named,present,List.countP_cons,List.countP_cons]
      cases working : (mood slot).working with
      | false =>
        simp only [Option.isSome_some,Bool.not_true,Bool.false_eq_true,if_false,ChildPlace.shown,working,if_true,ih]
        simp only [idlers,workers,holds,working,Option.isSome_some,Bool.not_false,Bool.and_true,Bool.and_false,if_true,Bool.false_eq_true,if_false]
        congr 2
        push_cast
        omega
      | true =>
        simp only [Option.isSome_some,Bool.not_true,Bool.false_eq_true,if_false,ChildPlace.shown,working,if_true,ih]
        rw [if_neg (by decide)]
        simp only [idlers,workers,holds,working,Option.isSome_some,Bool.not_true,Bool.and_true,Bool.and_false,if_true,Bool.false_eq_true,if_false]
        congr 2
        push_cast
        omega

-- Between two signals the parent counts its servers.
theorem pass_run (minSpare maxSpare : Nat) {crew : Fin n → Option Int} {mood : Fin n → ChildPlace} {bound : Int} (staffed : Staffed crew mood bound s)
    (waits : s.parent.place = .suspended) (notified : s.notified = true) :
    ∃ log, Runs (Where (Step minSpare maxSpare) Plain) s log {s with
      notified := false
      parent := ⟨{s.parent.pool with
        idleCount := (List.finRange n).countP (idlers crew mood)
        busyCount := (List.finRange n).countP (workers crew mood)},.controlling⟩} := by
  obtain ⟨⟨pool,place⟩,children,told,author⟩ := s
  cases waits
  have woken : Step minSpare maxSpare ⟨⟨pool,.suspended⟩,children,told,author⟩ [.parent .woken]
      ⟨⟨pool,.scanning (List.finRange n) 0 0⟩,children,false,author⟩ := .call _ _ _ _ (.woken pool) (.woken notified)
  have scanned := staffed.scan 0 0 (List.finRange n)
  simp only [Int.zero_add] at scanned
  obtain ⟨log,run⟩ := scan_run (s := ⟨⟨pool,.suspended⟩,children,false,author⟩) scanned
  exact ⟨_,(Runs.one ⟨woken,by simp [Plain]⟩).append run⟩

theorem Staffed.empty {crew : Fin n → Option Int} {mood : Fin n → ChildPlace} {bound : Int} (staffed : Staffed crew mood bound s) (slot : Fin n) :
    (s.parent.pool.serverpool slot).empty = (crew slot).isNone := by
  cases holds : crew slot with
  | none =>
    have gone : (s.parent.pool.serverpool slot).pid = -1 := staffed.free slot holds
    simp [ServerSt.empty,gone]
  | some pid =>
    obtain ⟨positive,_,filled,_⟩ := staffed.held slot pid holds
    have named : pid ≠ -1 := by omega
    simp [ServerSt.empty,filled,named]

-- add_1_server has stored STATE_IDLE, created a child and recorded its pid.
def System.grown (s : System n) (caller : Caller) (slot : Fin n) (pid : Pid) : System n :=
  let readied := s.parent.pool.put slot {s.parent.pool.serverpool slot with state := stateIdle}
  {{s with author := Function.update s.author slot .creating}.born slot pid with parent := ⟨readied.add slot pid,caller.back⟩}

theorem Staffed.grown {crew : Fin n → Option Int} {mood : Fin n → ChildPlace} {bound : Int} (staffed : Staffed crew mood bound s)
    (vacant : crew slot = none) (caller : Caller) (pid : Pid) (next : pid.val = bound + 1) :
    Staffed (Function.update crew slot (some (bound + 1))) (Function.update mood slot .idling) (bound + 1) (s.grown caller slot pid) := by
  have positive := pid.property
  refine ⟨?_,?_,?_⟩
  · intro other their holds
    by_cases same : other = slot
    · subst same
      obtain rfl : bound + 1 = their := by simpa using holds
      refine ⟨by omega,le_refl _,?_,?_⟩
      · simp [System.grown,Pool.add,Pool.put,ChildPlace.shown,ChildPlace.working,next]
      · simp [System.grown,System.born,System.setChild,next]
    · have holds : crew other = some their := by simpa [same] using holds
      obtain ⟨named,below,shown,present⟩ := staffed.held other their holds
      have apart : their ≠ bound + 1 := by omega
      refine ⟨named,by omega,?_,?_⟩
      · simpa [System.grown,Pool.add,Pool.put,same] using shown
      · simpa [System.grown,System.born,System.setChild,next,same,apart] using present
  · intro other unheld
    have apart : other ≠ slot := by
      rintro rfl
      simp at unheld
    have unheld : crew other = none := by simpa [apart] using unheld
    have kept := staffed.free other unheld
    simpa [System.pid,System.grown,Pool.add,Pool.put,apart] using kept
  · intro other above
    have apart : other ≠ bound + 1 := by omega
    have none := staffed.unborn other (by omega)
    simpa [System.grown,System.born,System.setChild,next,apart] using none

-- The statements of add_1_server and the fork, with nothing of the children in between.
theorem grown_run (minSpare maxSpare : Nat) (calls : s.parent.place = .adding caller) (room : s.parent.pool.idleCount + s.parent.pool.busyCount < n)
    (finds : (List.finRange n).find? (fun slot => (s.parent.pool.serverpool slot).empty) = some slot) (pid : Pid) (unborn : s.children pid = none) :
    ∃ log, Runs (Where (Step minSpare maxSpare) Plain) s log (s.grown caller slot pid) := by
  obtain ⟨⟨pool,place⟩,children,told,author⟩ := s
  cases calls
  let readied : Pool n := pool.put slot {pool.serverpool slot with state := stateIdle}
  let chosen : System n := ⟨⟨pool,.storing caller slot⟩,children,told,author⟩
  let reset : System n := ⟨⟨readied,.forking caller slot⟩,children,told,Function.update author slot .creating⟩
  let forked : System n := {reset.born slot pid with parent := ⟨readied,.recording caller slot pid⟩}
  let filled : System n := {forked with parent := ⟨readied.add slot pid,caller.back⟩}
  have search : statement minSpare maxSpare pool (.adding caller) = some (pool,.storing caller slot,[]) := by
    have below : ¬ pool.idleCount + pool.busyCount ≥ n := not_le.mpr room
    simp only [statement,if_neg below,finds]
  have stores : Step minSpare maxSpare chosen [.parent (.stored slot)] reset :=
    .call chosen (.stored slot) ⟨readied,.forking caller slot⟩ {chosen with author := Function.update author slot .creating}
      (.statement _ _ _ _ _ rfl) (.stored slot)
  have forks : Step minSpare maxSpare reset [.parent (.forked slot (some pid))] forked :=
    .call reset _ ⟨readied,.recording caller slot pid⟩ (reset.born slot pid) (.fork readied caller slot pid) (.forked slot pid unborn)
  have records : Step minSpare maxSpare forked [.parent (.recorded slot pid)] filled :=
    .call forked _ ⟨readied.add slot pid,caller.back⟩ forked (.statement _ _ _ _ _ rfl) (.recorded slot pid)
  have found : Runs (Where (Step minSpare maxSpare) Plain) ⟨⟨pool,.adding caller⟩,children,told,author⟩ [] chosen :=
    statement_run (s := chosen) search
  have stored : Runs (Where (Step minSpare maxSpare) Plain) chosen _ reset := .one ⟨stores,plain_call (fun _ same => by cases same)⟩
  have made : Runs (Where (Step minSpare maxSpare) Plain) reset _ forked := .one ⟨forks,plain_call (fun _ same => by cases same)⟩
  have recorded : Runs (Where (Step minSpare maxSpare) Plain) forked _ filled := .one ⟨records,plain_call (fun _ same => by cases same)⟩
  exact ⟨_,((found.append stored).append made).append recorded⟩

theorem add_run (minSpare maxSpare : Nat) {crew : Fin n → Option Int} {mood : Fin n → ChildPlace} {bound : Int} (staffed : Staffed crew mood bound s) (least : 0 ≤ bound)
    (calls : s.parent.place = .adding caller) (room : s.parent.pool.idleCount + s.parent.pool.busyCount < n)
    (first : (List.finRange n).find? (fun slot => (crew slot).isNone) = some slot) :
    ∃ log t, Runs (Where (Step minSpare maxSpare) Plain) s log t ∧ t.parent.place = caller.back ∧
      t.parent.pool.idleCount = s.parent.pool.idleCount + 1 ∧ t.parent.pool.busyCount = s.parent.pool.busyCount ∧
      Staffed (Function.update crew slot (some (bound + 1))) (Function.update mood slot .idling) (bound + 1) t ∧
      (∀ pid, pid ≠ bound + 1 → t.children pid = s.children pid) ∧ t.notified = s.notified := by
  have vacant : crew slot = none := by simpa using List.find?_some first
  have finds : (List.finRange n).find? (fun slot => (s.parent.pool.serverpool slot).empty) = some slot := by
    rw [← first]
    exact congrArg (fun test => (List.finRange n).find? test) (funext staffed.empty)
  let pid : Pid := ⟨bound + 1,by omega⟩
  obtain ⟨log,run⟩ := grown_run minSpare maxSpare calls room finds pid (staffed.unborn (bound + 1) (by omega))
  refine ⟨log,s.grown caller slot pid,run,rfl,rfl,rfl,staffed.grown vacant caller pid rfl,?_,rfl⟩
  intro other apart
  exact Function.update_of_ne apart ..

end

-- The pool filled from its start: slot i holds the child with the pid i + 1.
def filled (k : Nat) (slot : Fin 20) : Option Int := if slot.val < k then some (slot.val + 1) else none

structure Ready (k : Nat) (s : System 20) : Prop where
  place : s.parent.place = .suspended
  staffed : Staffed (filled k) (fun _ => .accepting) k s
  notified : s.notified = true

theorem filled_first : ∀ k : Fin 20, (List.finRange 20).find? (fun slot => (filled k slot).isNone) = some k := by decide

theorem filled_next {k : Nat} (most : k < 20) : Function.update (filled k) ⟨k,most⟩ (some (k + 1)) = filled (k + 1) := by
  funext slot
  by_cases same : slot = ⟨k,most⟩
  · subst same
    simp [filled]
  · have apart : slot.val ≠ k := fun equal => same (Fin.ext equal)
    have bounds : slot.val < k ↔ slot.val < k + 1 := by omega
    simp [filled,same,bounds]

section
variable {s : System 20}

-- main adds the first servers.
theorem starting_run (k : Nat) (most : k ≤ 5) : ∃ log s, Runs (Where (Step 5 10) Plain) (start 20) log s ∧ s.parent.place = .starting k ∧
    s.parent.pool.idleCount = k ∧ s.parent.pool.busyCount = 0 ∧ Staffed (filled k) (fun _ => .idling) k s := by
  induction k with
  | zero =>
    refine ⟨[],start 20,.nil,rfl,rfl,rfl,?_,fun _ _ => rfl,fun _ _ => rfl⟩
    intro slot pid holds
    simp [filled] at holds
  | succ k ih =>
    obtain ⟨log,s,run,here,idle,busy,staffed⟩ := ih (by omega)
    have calls : statement 5 10 s.parent.pool (.starting k) = some (s.parent.pool,.adding (.initial k),[]) := by
      have more : k < 5 := by omega
      simp only [statement,if_pos more]
    have room : s.parent.pool.idleCount + s.parent.pool.busyCount < (20 : Nat) := by
      rw [idle,busy]
      omega
    obtain ⟨further,t,added,back,more,same,grown,_⟩ := add_run 5 10 (staffed.moved (.adding (.initial k)))
      (Int.natCast_nonneg k) rfl room (filled_first ⟨k,by omega⟩)
    refine ⟨_,t,(run.append (place_run here calls)).append added,back,?_,same.trans busy,?_⟩
    · exact more.trans (by rw [idle]; push_cast; rfl)
    · have moods : Function.update (fun _ : Fin 20 => ChildPlace.idling) ⟨k,by omega⟩ .idling = fun _ => .idling := by
        funext slot
        simp [Function.update_apply]
      rw [filled_next,moods] at grown
      exact_mod_cast grown

theorem ready_start : ∃ log s, Runs (Where (Step 5 10) Plain) (start 20) log s ∧ Ready 5 s := by
  obtain ⟨log,s,run,here,_,_,staffed⟩ := starting_run 5 (le_refl _)
  have done : statement 5 10 s.parent.pool (.starting 5) = some (s.parent.pool,.suspended,[]) := rfl
  let later : Fin 20 → ChildPlace := fun _ => .accepting
  have turns : ∀ slot ∈ List.finRange 20, filled 5 slot ≠ none → Turns .idling (later slot) := fun _ _ _ => .inr (.inl ⟨rfl,rfl⟩)
  obtain ⟨further,t,moved,after,untouched,notified⟩ := remood_run 5 10 (List.finRange 20) (List.nodup_finRange 20)
    (staffed.moved .suspended) turns (fun slot outside => absurd (List.mem_finRange slot) outside)
  exact ⟨_,t,(run.append (place_run here done)).append moved,untouched.place,after,notified ⟨0,List.mem_finRange 0,by decide⟩⟩

-- A pass that finds four idle servers adds one.
theorem grow_run {crew : Fin 20 → Option Int} {mood : Fin 20 → ChildPlace} {bound : Int} (staffed : Staffed crew mood bound s) (least : 0 ≤ bound)
    (waits : s.parent.place = .suspended) (notified : s.notified = true) (idle : (List.finRange 20).countP (idlers crew mood) = 4)
    (busy : (List.finRange 20).countP (workers crew mood) < 16) (first : (List.finRange 20).find? (fun slot => (crew slot).isNone) = some slot) :
    ∃ log t, Runs (Where (Step 5 10) Plain) s log t ∧ t.parent.place = .suspended ∧
      Staffed (Function.update crew slot (some (bound + 1))) (Function.update mood slot .idling) (bound + 1) t ∧
      ∀ pid, pid ≠ bound + 1 → t.children pid = s.children pid := by
  let counted : Pool 20 := {s.parent.pool with idleCount := 4,busyCount := (List.finRange 20).countP (workers crew mood)}
  let told : System 20 := {s with notified := false}
  obtain ⟨log,passed⟩ := pass_run 5 10 staffed waits notified
  rw [idle] at passed
  have few : statement 5 10 counted .controlling = some (counted,.growing 0,[]) := rfl
  have one : statement 5 10 counted (.growing 0) = some (counted,.adding (.growing 0),[]) := rfl
  have crewed : Staffed crew mood bound {told with parent := ⟨counted,.adding (.growing 0)⟩} := ⟨staffed.held,staffed.free,staffed.unborn⟩
  have room : counted.idleCount + counted.busyCount < (20 : Nat) := by
    change (4 : Int) + ((List.finRange 20).countP (workers crew mood) : Nat) < (20 : Nat)
    omega
  obtain ⟨more,t,added,back,five,_,grown,others,_⟩ := add_run 5 10 crewed least rfl room first
  have enough : statement 5 10 t.parent.pool (.growing 1) = some (t.parent.pool,.suspended,[]) := by
    have none : ¬ (1 : Int) < (5 : Nat) - t.parent.pool.idleCount := by
      rw [five]
      change ¬ (1 : Int) < 5 - (4 + 1)
      omega
    simp only [statement,if_neg none]
  have calls := (statement_run (s := told) few).append (statement_run (s := told) one)
  exact ⟨_,{t with parent := ⟨t.parent.pool,.suspended⟩},((passed.append calls).append added).append (place_run back enough),rfl,
    grown.moved .suspended,others⟩

-- All the servers but four busy, a fifth idle one is added, and all of them wait for
-- clients again.
def halfBusy (k : Nat) (slot : Fin 20) : ChildPlace := if 4 ≤ slot.val ∧ slot.val < k then .replying false else .accepting

theorem halfBusy_counts : ∀ k : Fin 20, 5 ≤ k.val → (List.finRange 20).countP (idlers (filled k) (halfBusy k)) = 4 ∧
    (List.finRange 20).countP (workers (filled k) (halfBusy k)) < 16 := by decide

theorem filled_some {k : Nat} {slot : Fin 20} (holds : filled k slot ≠ none) : slot.val < k := by
  by_contra past
  exact holds (if_neg past)

theorem ready_more {k : Nat} (ready : Ready k s) (least : 5 ≤ k) (most : k < 20) :
    ∃ log t, Runs (Where (Step 5 10) Plain) s log t ∧ Ready (k + 1) t := by
  let upper : List (Fin 20) := (List.finRange 20).filter (fun slot => 4 ≤ slot.val)
  have distinct : upper.Nodup := (List.nodup_finRange 20).filter _
  have inside : ∀ slot, slot ∈ upper ↔ 4 ≤ slot.val := by simp [upper]
  have turns : ∀ slot ∈ upper, filled k slot ≠ none → Turns .accepting (halfBusy k slot) := by
    intro slot member holds
    exact .inl ⟨rfl,if_pos ⟨(inside slot).mp member,filled_some holds⟩⟩
  have rest : ∀ slot, slot ∉ upper → filled k slot ≠ none → .accepting = halfBusy k slot := by
    intro slot outside _
    exact (if_neg (fun ⟨above,_⟩ => outside ((inside slot).mpr above))).symm
  obtain ⟨log,t,worked,half,untouched,told⟩ := remood_run 5 10 upper distinct ready.staffed turns rest
  have notified : t.notified = true := told ⟨4,(inside 4).mpr (le_refl _),by simp [filled]; omega⟩
  obtain ⟨idle,busy⟩ := halfBusy_counts ⟨k,most⟩ least
  obtain ⟨more,u,grew,waits,grown,_⟩ := grow_run half (Int.natCast_nonneg k) (untouched.place.trans ready.place) notified idle busy
    (filled_first ⟨k,most⟩)
  rw [filled_next most] at grown
  have turns : ∀ slot ∈ upper, filled (k + 1) slot ≠ none → Turns (Function.update (halfBusy k) ⟨k,most⟩ .idling slot) .accepting := by
    intro slot member holds
    by_cases new : slot = ⟨k,most⟩
    · subst new
      exact .inr (.inl ⟨Function.update_self ..,rfl⟩)
    · have below : slot.val < k := by
        have := filled_some holds
        have apart : slot.val ≠ k := fun same => new (Fin.ext same)
        omega
      exact .inr (.inr ⟨(Function.update_of_ne new ..).trans (if_pos ⟨(inside slot).mp member,below⟩),rfl⟩)
  have rest : ∀ slot, slot ∉ upper → filled (k + 1) slot ≠ none → Function.update (halfBusy k) ⟨k,most⟩ .idling slot = .accepting := by
    intro slot outside _
    have old : slot ≠ ⟨k,most⟩ := by
      rintro rfl
      exact outside ((inside _).mpr (by show 4 ≤ k; omega))
    exact (Function.update_of_ne old ..).trans (if_neg (fun ⟨above,_⟩ => outside ((inside slot).mpr above)))
  obtain ⟨last,v,turned,after,kept,told⟩ := remood_run 5 10 upper distinct grown turns rest
  refine ⟨_,v,(worked.append grew).append turned,kept.place.trans waits,by exact_mod_cast after,told ⟨4,(inside 4).mpr (le_refl _),?_⟩⟩
  simp [filled]
  omega

-- Every number of servers up to MAXCLIENT is reached.
theorem ready_reached (k : Nat) (least : 5 ≤ k) (most : k ≤ 20) : ∃ log s, Runs (Where (Step 5 10) Plain) (start 20) log s ∧ Ready k s := by
  induction k,least using Nat.le_induction with
  | base => exact ready_start
  | succ k least ih =>
    obtain ⟨log,s,run,ready⟩ := ih (by omega)
    obtain ⟨more,t,further,grown⟩ := ready_more ready least (by omega)
    exact ⟨_,t,run.append further,grown⟩

-- One idle server too many: del_1_server looks for it from slot 0 on.
theorem surplus_run : ∃ log s, Runs (Where (Step 5 10) Plain) (start 20) log s ∧ s.parent.place = .deleting 0 (List.finRange 20) ∧
    s.parent.pool.idleCount = 11 ∧ Staffed (filled 11) (fun _ => .accepting) 11 s := by
  obtain ⟨log,s,run,waits,staffed,notified⟩ := ready_reached 11 (by omega) (by omega)
  obtain ⟨more,passed⟩ := pass_run 5 10 staffed waits notified
  let counted : Pool 20 := {s.parent.pool with idleCount := 11,busyCount := 0}
  let told : System 20 := {s with notified := false}
  have idle : (List.finRange 20).countP (idlers (filled 11) (fun _ => .accepting)) = 11 := by decide
  have busy : (List.finRange 20).countP (workers (filled 11) (fun _ => .accepting)) = 0 := by decide
  rw [idle,busy] at passed
  have many : statement 5 10 counted .controlling = some (counted,.shrinking 0,[]) := rfl
  have one : statement 5 10 counted (.shrinking 0) = some (counted,.deleting 0 (List.finRange 20),[]) := rfl
  exact ⟨_,_,((run.append passed).append (statement_run (s := told) many)).append (statement_run (s := told) one),rfl,rfl,
    staffed.held,staffed.free,staffed.unborn⟩

theorem finds_first {pid : Int} (searches : s.parent.place = .deleting 0 (List.finRange 20))
    (shown : s.parent.pool.serverpool 0 = ⟨pid,ChildPlace.accepting.shown⟩) (named : pid ≠ -1) :
    ParentStep 5 10 s.parent [.found 0] ⟨s.parent.pool,.terminating 0 0⟩ := by
  have idle : (s.parent.pool.serverpool 0).idle = true := by
    rw [shown]
    simp [ServerSt.idle,ChildPlace.shown,ChildPlace.working,named]
  have chosen : statement 5 10 s.parent.pool (.deleting 0 (List.finRange 20)) = some (s.parent.pool,.terminating 0 0,[.found 0]) := by
    rw [List.finRange_succ]
    simp only [statement,if_pos idle]
  rw [← searches] at chosen
  exact .statement _ _ _ _ _ chosen

-- del_1_server has freed slot 0, and the child in it runs on until its SIGTERM comes.
def freed (slot : Fin 20) : Option Int := if slot = 0 then none else filled 11 slot

theorem freed_named {slot : Fin 20} : freed slot ≠ some 1 := by
  unfold freed filled
  split
  · nofun
  · rename_i later
    split
    · intro same
      have first : (slot.val : Int) + 1 = 1 := Option.some.inj same
      exact later (Fin.ext (by show slot.val = 0; omega))
    · nofun

theorem terminate_run (searches : s.parent.place = .deleting 0 (List.finRange 20)) (idle : s.parent.pool.idleCount = 11)
    (staffed : Staffed (filled 11) (fun _ => .accepting) 11 s) :
    ∃ log t, Runs (Step 5 10) s log t ∧ t.parent.place = .suspended ∧ Staffed freed (fun _ => .accepting) 11 t ∧
      t.children 1 = some ⟨0,.accepting,true⟩ := by
  obtain ⟨_,_,shown,present⟩ := staffed.held 0 1 rfl
  let pool := s.parent.pool
  let asked : System 20 := {s with children := Function.update s.children 1 ((s.children 1).map ({· with term := true}))}
  have found : ParentStep 5 10 s.parent [.found 0] ⟨pool,.terminating 0 0⟩ := finds_first searches shown (by decide)
  have killed : Step 5 10 {s with parent := ⟨pool,.terminating 0 0⟩} [.parent (.killed 1)] {asked with parent := ⟨pool.remove 0,.shrinking 1⟩} := by
    have kill : ParentStep 5 10 ⟨pool,.terminating 0 0⟩ [.killed (pool.serverpool 0).pid] ⟨pool.remove 0,.shrinking 1⟩ := .kill pool 0 0
    rw [show (pool.serverpool 0).pid = 1 from congrArg ServerSt.pid shown] at kill
    exact .call {s with parent := ⟨pool,.terminating 0 0⟩} _ _ {asked with parent := ⟨pool,.terminating 0 0⟩} kill (.killed 1)
  have done : statement 5 10 (pool.remove 0) (.shrinking 1) = some (pool.remove 0,.suspended,[]) := by
    have none : ¬ (1 : Int) < (pool.remove 0).idleCount - (10 : Nat) := by
      change ¬ (1 : Int) < s.parent.pool.idleCount - 1 - 10
      rw [idle]
      decide
    simp only [statement,if_neg none]
  have reached := ((Runs.one (Step.call s _ _ s found (.found 0))).append (.one killed)).append
    (statement_run (s := asked) done).unrestricted
  refine ⟨_,_,reached,rfl,⟨?_,?_,?_⟩,?_⟩
  · intro slot pid holds
    have apart : slot ≠ 0 := by
      rintro rfl
      cases holds
    have holds : filled 11 slot = some pid := by rw [← holds,freed,if_neg apart]
    obtain ⟨positive,low,shows,lives⟩ := staffed.held slot pid holds
    refine ⟨positive,low,by simpa [Pool.remove,Pool.put,apart] using shows,?_⟩
    have other : pid ≠ 1 := by
      rintro rfl
      exact apart (congrArg Child.pos (Option.some.inj (lives.symm.trans present)))
    exact (Function.update_of_ne other ..).trans lives
  · intro slot unheld
    by_cases first : slot = 0
    · subst first
      simp [System.pid,Pool.remove,Pool.put,ServerSt.clear]
    · have gone := staffed.free slot (by rw [← unheld,freed,if_neg first])
      simpa [System.pid,Pool.remove,Pool.put,first] using gone
  · intro pid above
    have other : pid ≠ 1 := by omega
    exact (Function.update_of_ne other ..).trans (staffed.unborn pid above)
  · have signalled : asked.children 1 = (s.children 1).map ({· with term := true}) := Function.update_self 1 _ s.children
    exact signalled.trans (by rw [present]; rfl)

end

end LinuxCoding.ServerPool
