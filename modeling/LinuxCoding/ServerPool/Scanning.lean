import LinuxCoding.ServerPool.Accounting

-- scan_pool of pool_dynamic/server.c while the children store their states: a slot that
-- is not idle at its first read is read a second time.
namespace LinuxCoding.ServerPool
open Transition

inductive Mark (n : Nat) where
  | counted (slot : Fin n) (state : Int)
  | stored (slot : Fin n) (state : Int)

def Known (state : Int) : Prop := state = stateIdle ∨ state = stateBusy

def Pool.store (p : Pool n) (slot : Fin n) (state : Int) : Pool n := p.put slot {p.serverpool slot with state := state}

-- `alive` is what kill(pid, 0) says of the process of each slot.
inductive ScanStep (alive : Fin n → Bool) : Parent n → List (Mark n) → Parent n → Prop where
  | free (p : Pool n) (slot : Fin n) (rest : List (Fin n)) (idle busy : Int) : (p.serverpool slot).pid = -1 →
      ScanStep alive ⟨p,.scanning (slot :: rest) idle busy⟩ [] ⟨p,.scanning rest idle busy⟩
  | dead (p : Pool n) (slot : Fin n) (rest : List (Fin n)) (idle busy : Int) : (p.serverpool slot).pid ≠ -1 → alive slot = false →
      ScanStep alive ⟨p,.scanning (slot :: rest) idle busy⟩ [] ⟨p.put slot (p.serverpool slot).clear,.scanning rest idle busy⟩
  | found (p : Pool n) (slot : Fin n) (rest : List (Fin n)) (idle busy : Int) : (p.serverpool slot).pid ≠ -1 → alive slot = true →
      ScanStep alive ⟨p,.scanning (slot :: rest) idle busy⟩ [] ⟨p,.idleTest slot rest idle busy⟩
  | idle (p : Pool n) (slot : Fin n) (rest : List (Fin n)) (idle busy : Int) : (p.serverpool slot).state = stateIdle →
      ScanStep alive ⟨p,.idleTest slot rest idle busy⟩ [.counted slot stateIdle] ⟨p,.scanning rest (idle + 1) busy⟩
  | notIdle (p : Pool n) (slot : Fin n) (rest : List (Fin n)) (idle busy : Int) : (p.serverpool slot).state ≠ stateIdle →
      ScanStep alive ⟨p,.idleTest slot rest idle busy⟩ [] ⟨p,.busyTest slot rest idle busy⟩
  | busy (p : Pool n) (slot : Fin n) (rest : List (Fin n)) (idle busy : Int) : (p.serverpool slot).state = stateBusy →
      ScanStep alive ⟨p,.busyTest slot rest idle busy⟩ [.counted slot stateBusy] ⟨p,.scanning rest idle (busy + 1)⟩
  | unknown (p : Pool n) (slot : Fin n) (rest : List (Fin n)) (idle busy : Int) : (p.serverpool slot).state ≠ stateBusy →
      ScanStep alive ⟨p,.busyTest slot rest idle busy⟩ [] ⟨p,.aborted⟩
  | done (p : Pool n) (idle busy : Int) :
      ScanStep alive ⟨p,.scanning [] idle busy⟩ [] ⟨{p with idleCount := idle,busyCount := busy},.controlling⟩
  | store (p : Pool n) (place : ParentPlace n) (slot : Fin n) (state : Int) : Known state → place.scans →
      ScanStep alive ⟨p,place⟩ [.stored slot state] ⟨p.store slot state,place⟩

def scanStart (p : Pool n) : Parent n := ⟨p,.scanning (List.finRange n) 0 0⟩

-- Its reads are the parent's own statements, and the parent scans in no other way.
theorem scan_parent (minSpare maxSpare : Nat) {me after : Parent n} (step : ScanStep alive me marks after) :
    (∃ calls, ParentStep minSpare maxSpare me calls after) ∨ ∃ slot state, Known state ∧ after = ⟨me.pool.store slot state,me.place⟩ := by
  cases step with
  | free p slot rest idle busy empty => exact .inl ⟨[],.statement _ _ _ _ _ (by simp [statement,empty])⟩
  | dead p slot rest idle busy filled gone => exact .inl ⟨_,.dead p slot rest idle busy filled⟩
  | found p slot rest idle busy filled there => exact .inl ⟨_,.alive p slot rest idle busy filled⟩
  | idle p slot rest idle busy same => exact .inl ⟨[],.statement _ _ _ _ _ (by simp [statement,same])⟩
  | notIdle p slot rest idle busy other => exact .inl ⟨[],.statement _ _ _ _ _ (by simp [statement,other])⟩
  | busy p slot rest idle busy same => exact .inl ⟨[],.statement _ _ _ _ _ (by simp [statement,same])⟩
  | unknown p slot rest idle busy other => exact .inl ⟨[],.statement _ _ _ _ _ (by simp [statement,other])⟩
  | done p idle busy => exact .inl ⟨_,.statement _ _ _ _ _ rfl⟩
  | store p place slot state valid => exact .inr ⟨slot,state,valid,rfl⟩

theorem parent_scan {minSpare maxSpare : Nat} {me after : Parent n} (scans : me.place.scans) (step : ParentStep minSpare maxSpare me calls after) :
    ∃ alive marks, ScanStep alive me marks after := by
  cases step with
  | woken | kill | fork | forkFails => cases scans
  | alive p slot rest idle busy filled => exact ⟨fun _ => true,_,.found p slot rest idle busy filled rfl⟩
  | dead p slot rest idle busy filled => exact ⟨fun _ => false,_,.dead p slot rest idle busy filled rfl⟩
  | statement p place after next calls ran =>
    cases place with
    | starting | suspended | controlling | shrinking | deleting | terminating | growing | adding | overrun | storing | forking | exited | recording => cases scans
    | aborted => cases ran
    | scanning rest idle busy =>
      cases rest with
      | nil =>
        cases ran
        exact ⟨fun _ => true,_,.done p idle busy⟩
      | cons slot rest =>
        obtain ⟨empty,rfl,rfl,_⟩ := statement_skips ran
        exact ⟨fun _ => true,_,.free p slot rest idle busy empty⟩
    | idleTest slot rest idle busy =>
      cases ran
      by_cases same : (p.serverpool slot).state = stateIdle
      · rw [if_pos same]
        exact ⟨fun _ => true,_,.idle p slot rest idle busy same⟩
      · rw [if_neg same]
        exact ⟨fun _ => true,_,.notIdle p slot rest idle busy same⟩
    | busyTest slot rest idle busy =>
      cases ran
      by_cases same : (p.serverpool slot).state = stateBusy
      · rw [if_pos same]
        exact ⟨fun _ => true,_,.busy p slot rest idle busy same⟩
      · rw [if_neg same]
        exact ⟨fun _ => true,_,.unknown p slot rest idle busy same⟩

def Mark.count : Mark n → Option (Fin n × Int)
  | .counted slot state => some (slot,state)
  | .stored _ _ => none

-- The slots counted so far, and how.
def counts (marks : List (Mark n)) : List (Fin n × Int) := marks.filterMap Mark.count

theorem counts_append (earlier later : List (Mark n)) : counts (earlier ++ later) = counts earlier ++ counts later :=
  List.filterMap_append

-- The process of the slot exists when scan_pool comes to it.
def Pool.present (p : Pool n) (alive : Fin n → Bool) (slot : Fin n) : Bool := p.held slot && alive slot

structure Visited (there : Fin n → Bool) (marks : List (Mark n)) (visited : List (Fin n)) (idle busy : Int) : Prop where
  slots : (counts marks).map Prod.fst = visited.filter there
  kinds : ∀ count ∈ counts marks, Known count.2
  idle : idle = (counts marks).countP (fun count => count.2 = stateIdle)
  busy : busy = (counts marks).countP (fun count => count.2 = stateBusy)

theorem visited_start (there : Fin n → Bool) : Visited there [] [] 0 0 := ⟨rfl,by simp [counts],rfl,rfl⟩

theorem visited_skips {there : Fin n → Bool} (absent : there slot = false) (visited : Visited there marks before idle busy) :
    Visited there marks (before ++ [slot]) idle busy := by
  refine ⟨?_,visited.kinds,visited.idle,visited.busy⟩
  rw [List.filter_append,visited.slots]
  simp [absent]

theorem visited_counted {there : Fin n → Bool} (present : there slot = true) (known : Known state) (visited : Visited there marks before idle busy) :
    Visited there (marks ++ [.counted slot state]) (before ++ [slot]) (idle + if state = stateIdle then 1 else 0)
      (busy + if state = stateBusy then 1 else 0) := by
  obtain ⟨slots,kinds,idle,busy⟩ := visited
  refine ⟨?_,?_,?_,?_⟩
  · rw [counts_append,List.map_append,slots,List.filter_append]
    simp [counts,Mark.count,present]
  · intro count member
    rw [counts_append,List.mem_append] at member
    rcases member with old | new
    · exact kinds count old
    · cases List.mem_singleton.mp new
      exact known
  · rw [counts_append,List.countP_append,idle]
    simp [counts,Mark.count,List.countP_cons,apply_ite]
  · rw [counts_append,List.countP_append,busy]
    simp [counts,Mark.count,List.countP_cons,apply_ite]

theorem visited_idle {there : Fin n → Bool} (present : there slot = true) (visited : Visited there marks before idle busy) :
    Visited there (marks ++ [.counted slot stateIdle]) (before ++ [slot]) (idle + 1) busy := by
  simpa [stateIdle,stateBusy] using visited_counted present (.inl rfl) visited

theorem visited_busy {there : Fin n → Bool} (present : there slot = true) (visited : Visited there marks before idle busy) :
    Visited there (marks ++ [.counted slot stateBusy]) (before ++ [slot]) idle (busy + 1) := by
  simpa [stateIdle,stateBusy] using visited_counted present (.inr rfl) visited

theorem visited_stored {there : Fin n → Bool} (slot : Fin n) (state : Int) (visited : Visited there marks before idle busy) :
    Visited there (marks ++ [.stored slot state]) before idle busy := by
  have same : counts (marks ++ [.stored slot state]) = counts marks := by
    rw [counts_append]
    exact List.append_nil _
  exact ⟨same ▸ visited.slots,same ▸ visited.kinds,same ▸ visited.idle,same ▸ visited.busy⟩

-- The slots still to visit have the pids they began with, and the slot between its two
-- reads is busy.
def Progress (p : Pool n) (alive : Fin n → Bool) (marks : List (Mark n)) (me : Parent n) : Prop :=
  match me.place with
  | .scanning rest idle busy => ∃ before, before ++ rest = List.finRange n ∧
      Visited (p.present alive) marks before idle busy ∧ ∀ slot ∈ rest, me.pool.held slot = p.held slot
  | .idleTest slot rest idle busy => ∃ before, before ++ slot :: rest = List.finRange n ∧
      Visited (p.present alive) marks before idle busy ∧ (∀ slot ∈ rest, me.pool.held slot = p.held slot) ∧ p.present alive slot = true
  | .busyTest slot rest idle busy => ∃ before, before ++ slot :: rest = List.finRange n ∧
      Visited (p.present alive) marks before idle busy ∧ (∀ slot ∈ rest, me.pool.held slot = p.held slot) ∧ p.present alive slot = true ∧
      (me.pool.serverpool slot).state = stateBusy
  | .controlling => Visited (p.present alive) marks (List.finRange n) me.pool.idleCount me.pool.busyCount
  | _ => False

structure Scans (p : Pool n) (alive : Fin n → Bool) (marks : List (Mark n)) (me : Parent n) : Prop where
  known : ∀ slot, Known (me.pool.serverpool slot).state
  progress : Progress p alive marks me

-- No child stores IDLE in a slot between the two reads of it.
def Steady (me : Parent n) (marks : List (Mark n)) : Prop :=
  ∀ slot rest idle busy, me.place = .busyTest slot rest idle busy → .stored slot stateIdle ∉ marks

theorem put_known {p : Pool n} {server : ServerSt} (known : ∀ slot, Known (p.serverpool slot).state) (here : Known server.state) :
    ∀ slot, Known ((p.put i server).serverpool slot).state := by
  intro slot
  by_cases same : slot = i
  · subst same
    simpa [Pool.put] using here
  · simpa [Pool.put,same] using known slot

theorem slot_outside {before : List (Fin n)} (split : before ++ slot :: rest = List.finRange n) : slot ∉ rest := by
  have distinct := List.nodup_finRange n
  rw [← split] at distinct
  exact (List.nodup_cons.mp (List.nodup_append.mp distinct).2.1).1

theorem read_kept {p : Pool n} {alive : Fin n → Bool} (scans : Scans p alive marks me) (step : ScanStep alive me [] after) :
    Scans p alive marks after := by
  obtain ⟨known,progress⟩ := scans
  cases step with
  | free q slot rest idle busy empty =>
    obtain ⟨before,split,visited,same⟩ := progress
    have absent : p.present alive slot = false := by
      rw [Pool.present,← same slot List.mem_cons_self]
      simp [Pool.held,ServerSt.empty,empty]
    refine ⟨known,before ++ [slot],?_,visited_skips absent visited,fun later member => same later (List.mem_cons_of_mem slot member)⟩
    rw [List.append_assoc]
    exact split
  | dead q slot rest idle busy filled gone =>
    obtain ⟨before,split,visited,same⟩ := progress
    have absent : p.present alive slot = false := by simp [Pool.present,gone]
    refine ⟨put_known known (known slot),before ++ [slot],?_,visited_skips absent visited,?_⟩
    · rw [List.append_assoc]
      exact split
    · intro later member
      have apart : later ≠ slot := fun same => slot_outside split (same ▸ member)
      change (q.put slot (q.serverpool slot).clear).held later = p.held later
      rw [put_held,Function.update_of_ne apart]
      exact same later (List.mem_cons_of_mem slot member)
  | found q slot rest idle busy filled there =>
    obtain ⟨before,split,visited,same⟩ := progress
    have present : p.present alive slot = true := by
      rw [Pool.present,← same slot List.mem_cons_self,there]
      simp [Pool.held,ServerSt.empty,filled]
    exact ⟨known,before,split,visited,fun later member => same later (List.mem_cons_of_mem slot member),present⟩
  | notIdle q slot rest idle busy other =>
    obtain ⟨before,split,visited,same,present⟩ := progress
    exact ⟨known,before,split,visited,same,present,(known slot).resolve_left other⟩
  | unknown q slot rest idle busy other =>
    obtain ⟨before,split,visited,same,present,state⟩ := progress
    exact absurd state other
  | done q idle busy =>
    obtain ⟨before,split,visited,same⟩ := progress
    rw [List.append_nil] at split
    subst split
    exact ⟨known,visited⟩

theorem counted_kept {p : Pool n} {alive : Fin n → Bool} (scans : Scans p alive marks me)
    (step : ScanStep alive me [.counted slot state] after) : Scans p alive (marks ++ [.counted slot state]) after := by
  obtain ⟨known,progress⟩ := scans
  cases step with
  | idle q slot rest idle busy read =>
    obtain ⟨before,split,visited,same,present⟩ := progress
    refine ⟨known,before ++ [slot],?_,visited_idle present visited,same⟩
    rw [List.append_assoc]
    exact split
  | busy q slot rest idle busy read =>
    obtain ⟨before,split,visited,same,present,_⟩ := progress
    refine ⟨known,before ++ [slot],?_,visited_busy present visited,same⟩
    rw [List.append_assoc]
    exact split

theorem stored_kept {p : Pool n} {alive : Fin n → Bool} (scans : Scans p alive marks me)
    (step : ScanStep alive me [.stored slot state] after) (steady : Steady me [.stored slot state]) :
    Scans p alive (marks ++ [.stored slot state]) after := by
  obtain ⟨known,progress⟩ := scans
  cases step with
  | store q place slot state valid scanning =>
    have held : (q.store slot state).held = q.held := store_held q slot state
    refine ⟨put_known known valid,?_⟩
    cases place with
    | starting | suspended | controlling | shrinking | deleting | terminating | growing | adding | overrun | storing | forking | exited | recording => cases scanning
    | aborted => exact progress
    | scanning rest idle busy =>
      obtain ⟨before,split,visited,same⟩ := progress
      exact ⟨before,split,visited_stored slot state visited,held ▸ same⟩
    | idleTest tested rest idle busy =>
      obtain ⟨before,split,visited,same,present⟩ := progress
      exact ⟨before,split,visited_stored slot state visited,held ▸ same,present⟩
    | busyTest tested rest idle busy =>
      obtain ⟨before,split,visited,same,present,read⟩ := progress
      refine ⟨before,split,visited_stored slot state visited,held ▸ same,present,?_⟩
      by_cases here : tested = slot
      · -- The only store the condition allows here is another BUSY.
        subst here
        have busy : state = stateBusy := by
          refine valid.resolve_left fun idle => steady tested rest _ _ rfl ?_
          rw [idle]
          exact List.mem_singleton_self _
        simpa [Pool.store,Pool.put] using busy
      · simpa [Pool.store,Pool.put,here] using read

-- The scan goes on, and in the end each slot whose process exists is one of the idle or
-- one of the busy ones.
structure Survives (p : Pool n) (alive : Fin n → Bool) (marks : List (Mark n)) (me : Parent n) : Prop where
  goesOn : me.place ≠ .aborted
  once : me.place = .controlling → ∀ slot, ((counts marks).map Prod.fst).count slot = (p.present alive slot).toNat
  kinds : me.place = .controlling → ∀ count ∈ counts marks, Known count.2
  idle : me.place = .controlling → me.pool.idleCount = (counts marks).countP (fun count => count.2 = stateIdle)
  busy : me.place = .controlling → me.pool.busyCount = (counts marks).countP (fun count => count.2 = stateBusy)

theorem visited_once {there : Fin n → Bool} (visited : Visited there marks (List.finRange n) idle busy) (slot : Fin n) :
    ((counts marks).map Prod.fst).count slot = (there slot).toNat := by
  rw [visited.slots,((List.nodup_finRange n).filter there).count]
  cases present : there slot <;> simp [present]

theorem scans_survives {p : Pool n} {alive : Fin n → Bool} (scans : Scans p alive marks me) : Survives p alive marks me := by
  obtain ⟨_,progress⟩ := scans
  obtain ⟨pool,place⟩ := me
  have finished (controls : place = .controlling) : Visited (p.present alive) marks (List.finRange n) pool.idleCount pool.busyCount := by
    subst controls
    exact progress
  refine ⟨?_,fun controls => visited_once (finished controls),fun controls => (finished controls).kinds,
    fun controls => (finished controls).idle,fun controls => (finished controls).busy⟩
  rintro rfl
  exact progress

theorem scans_start {p : Pool n} (alive : Fin n → Bool) (known : ∀ slot, Known (p.serverpool slot).state) : Scans p alive [] (scanStart p) :=
  ⟨known,[],rfl,visited_start _,fun _ _ => rfl⟩

theorem scan_step {p : Pool n} {alive : Fin n → Bool} (scans : Scans p alive marks me) (step : Where (ScanStep alive) Steady me emitted after) :
    Scans p alive (marks ++ emitted) after := by
  obtain ⟨taken,steady⟩ := step
  cases taken with
  | free | dead | found | notIdle | unknown | done =>
    rw [List.append_nil]
    exact read_kept scans (by constructor <;> assumption)
  | idle q slot rest idle busy read => exact counted_kept scans (.idle q slot rest idle busy read)
  | busy q slot rest idle busy read => exact counted_kept scans (.busy q slot rest idle busy read)
  | store q place slot state valid scanning => exact stored_kept scans (.store q place slot state valid scanning) steady

-- A store that breaks the condition leaves a state in which the next read aborts.
theorem store_aborts {alive : Fin n → Bool} {me after : Parent n} (step : ScanStep alive me marks after) (torn : ¬ Steady me marks) :
    ∃ next, ScanStep alive after [] next ∧ next.place = .aborted := by
  simp only [Steady,not_forall,not_not] at torn
  obtain ⟨slot,rest,idle,busy,between,stored⟩ := torn
  cases step with
  | store q place other state valid scanning =>
    obtain ⟨rfl,rfl⟩ : slot = other ∧ stateIdle = state := by simpa using stored
    cases between
    refine ⟨_,.unknown (q.store slot stateIdle) slot rest idle busy ?_,rfl⟩
    simp [Pool.store,Pool.put,stateIdle,stateBusy]
  | idle => cases between
  | busy => simp at stored
  | free | dead | found | notIdle | unknown | done => cases stored

theorem scan_exact (alive : Fin n → Bool) (p : Pool n) (known : ∀ slot, Known (p.serverpool slot).state) :
    (∀ marks me, Runs (Where (ScanStep alive) Steady) (scanStart p) marks me → Survives p alive marks me) ∧
    ∀ me emitted after, ScanStep alive me emitted after → ¬ Steady me emitted →
      ∃ next, ScanStep alive after [] next ∧ next.place = .aborted := by
  refine ⟨fun marks me run => ?_,fun me emitted after => store_aborts⟩
  exact scans_survives (run.invariant (I := Scans p alive) (fun _ _ _ _ scans step => scan_step scans step) (scans_start alive known))

def served : Pool 20 := ⟨fun _ => ⟨100,stateBusy⟩,0,0⟩

theorem served_scanned :
    (∀ marks me, Runs (Where (ScanStep fun _ => true) Steady) (scanStart served) marks me → Survives served (fun _ => true) marks me) ∧
    ∀ me emitted after, ScanStep (fun _ : Fin 20 => true) me emitted after → ¬ Steady me emitted →
      ∃ next, ScanStep (fun _ => true) after [] next ∧ next.place = .aborted :=
  scan_exact (fun _ => true) served (fun _ => .inr rfl)

-- The child of a busy slot is through with its client between the two reads.
theorem served_aborts : (∀ slot, Known (served.serverpool slot).state) ∧
    ∃ me, Runs (ScanStep fun _ => true) (scanStart served) [.stored 0 stateIdle] me ∧ me.place = .aborted := by
  refine ⟨fun _ => .inr rfl,?_⟩
  have first : List.finRange 20 = 0 :: (List.finRange 19).map Fin.succ := List.finRange_succ
  have found : ScanStep (fun _ => true) (scanStart served) [] ⟨served,.idleTest 0 ((List.finRange 19).map Fin.succ) 0 0⟩ := by
    rw [scanStart,first]
    exact .found served 0 _ 0 0 (by simp [served]) rfl
  have tested := (Runs.one found).step (.notIdle _ 0 _ 0 0 (by simp [served,stateBusy,stateIdle]))
  have stored := tested.step (.store _ _ 0 stateIdle (.inl rfl) rfl)
  exact ⟨_,stored.step (.unknown _ 0 _ 0 0 (by simp [Pool.store,Pool.put,stateBusy,stateIdle])),rfl⟩

end LinuxCoding.ServerPool
