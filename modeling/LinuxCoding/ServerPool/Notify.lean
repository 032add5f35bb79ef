import LinuxCoding.ServerPool.Shrinking

-- SIG_NOTIFY of pool_dynamic/server.c: blocked but in sigsuspend, so that one sent while the
-- parent scans or controls the pool is kept for the next pass.
namespace LinuxCoding.ServerPool
open Total Transition

-- A child that has not told the parent yet what it stores in this half of its loop.
def ChildPlace.owes : ChildPlace → Bool
  | .idling | .reporting | .telling _ => true
  | .accepting | .marking _ | .replying _ | .closing => false

structure Agrees (p : Pool n) : Prop where
  idle : p.idleCount = p.idleServers
  busy : p.busyCount = p.busyServers

-- The counts of scan_pool lack the slots that it has still to visit.
structure Seen (p : Pool n) (rest : List (Fin n)) (idle busy : Int) : Prop where
  distinct : rest.Nodup
  idle : idle + rest.countP (fun slot => (p.serverpool slot).idle) = p.idleServers
  busy : busy + rest.countP (fun slot => (p.serverpool slot).busy) = p.busyServers

-- What the parent knows of the pool where no child has stored anything since it looked.
def Accurate (p : Pool n) : ParentPlace n → Prop
  | .scanning rest idle busy => Seen p rest idle busy
  | .idleTest slot rest idle busy => (p.serverpool slot).pid ≠ -1 ∧ Seen p (slot :: rest) idle busy
  | .busyTest slot rest idle busy => (p.serverpool slot).pid ≠ -1 ∧ (p.serverpool slot).state ≠ stateIdle ∧ Seen p (slot :: rest) idle busy
  | .aborted => True
  | .terminating _ slot => (p.serverpool slot).idle = true ∧ Agrees p
  | .storing _ slot => (p.serverpool slot).empty = true ∧ Agrees p
  | .forking _ slot | .recording _ slot _ => (p.serverpool slot).empty = true ∧ (p.serverpool slot).state = stateIdle ∧ Agrees p
  | _ => Agrees p

-- A slot's part of the two tallies when it is written.
theorem put_tally (kind : ServerSt → Bool) (p : Pool n) (slot : Fin n) (server : ServerSt) :
    tally kind (p.put slot server).serverpool + (kind (p.serverpool slot)).toNat = tally kind p.serverpool + (kind server).toNat := tally_update ..

theorem put_rest (kind : ServerSt → Bool) (p : Pool n) (server : ServerSt) {slot : Fin n} {rest : List (Fin n)} (outside : slot ∉ rest) :
    rest.countP (fun k => kind ((p.put slot server).serverpool k)) = rest.countP (fun k => kind (p.serverpool k)) := by
  apply List.countP_congr
  intro k member
  have apart : k ≠ slot := fun same => outside (same ▸ member)
  simp [Pool.put,apart]

theorem seen_all (p : Pool n) : Seen p (List.finRange n) 0 0 := by
  refine ⟨List.nodup_finRange n,?_,?_⟩
  · rw [Pool.idleServers,tally_list]
    exact Int.zero_add _
  · rw [Pool.busyServers,tally_list]
    exact Int.zero_add _

-- One slot visited, with what it adds to the counts.
theorem seen_next {p : Pool n} (seen : Seen p (slot :: rest) idle busy) :
    Seen p rest (idle + (p.serverpool slot).idle.toNat) (busy + (p.serverpool slot).busy.toNat) := by
  obtain ⟨distinct,idles,busys⟩ := seen
  rw [List.countP_cons] at idles busys
  refine ⟨(List.nodup_cons.mp distinct).2,?_,?_⟩
  · cases kind : (p.serverpool slot).idle <;> simp only [kind,if_true,if_false,Bool.false_eq_true,Bool.toNat_true,Bool.toNat_false] at idles ⊢ <;> omega
  · cases kind : (p.serverpool slot).busy <;> simp only [kind,if_true,if_false,Bool.false_eq_true,Bool.toNat_true,Bool.toNat_false] at busys ⊢ <;> omega

theorem seen_empty {p : Pool n} (empty : (p.serverpool slot).empty = true) (seen : Seen p (slot :: rest) idle busy) : Seen p rest idle busy := by
  have next := seen_next seen
  rw [(empty_unused empty).1,(empty_unused empty).2] at next
  simpa using next

theorem seen_idle {p : Pool n} (kind : (p.serverpool slot).idle = true) (seen : Seen p (slot :: rest) idle busy) : Seen p rest (idle + 1) busy := by
  simpa [kind,(idle_nonempty kind).2] using seen_next seen

theorem seen_busy {p : Pool n} (kind : (p.serverpool slot).busy = true) (seen : Seen p (slot :: rest) idle busy) : Seen p rest idle (busy + 1) := by
  simpa [kind,(busy_nonempty kind).2] using seen_next seen

theorem seen_cleared {p : Pool n} (seen : Seen p (slot :: rest) idle busy) : Seen (p.put slot (p.serverpool slot).clear) rest idle busy := by
  have outside := (List.nodup_cons.mp seen.distinct).1
  have gone := empty_unused (clear_empty (p.serverpool slot))
  obtain ⟨distinct,idles,busys⟩ := seen_next seen
  have idle := put_tally ServerSt.idle p slot (p.serverpool slot).clear
  have busy := put_tally ServerSt.busy p slot (p.serverpool slot).clear
  rw [gone.1] at idle
  rw [gone.2] at busy
  unfold Pool.idleServers at idles
  unfold Pool.busyServers at busys
  refine ⟨distinct,?_,?_⟩
  · rw [put_rest ServerSt.idle p _ outside,Pool.idleServers]
    simp only [Bool.toNat_false] at idle
    omega
  · rw [put_rest ServerSt.busy p _ outside,Pool.busyServers]
    simp only [Bool.toNat_false] at busy
    omega

theorem agrees_back {p : Pool n} (caller : Caller) (agrees : Agrees p) : Accurate p caller.back := by
  cases caller <;> exact agrees

-- A slot that stays empty, one that is filled by an idle server, and one that loses it.
theorem agrees_stored {p : Pool n} (state : Int) (empty : (p.serverpool slot).empty = true) (agrees : Agrees p) :
    Agrees (p.put slot {p.serverpool slot with state := state}) := by
  have still : ServerSt.empty {p.serverpool slot with state := state} = true := empty
  have idle := put_tally ServerSt.idle p slot {p.serverpool slot with state := state}
  have busy := put_tally ServerSt.busy p slot {p.serverpool slot with state := state}
  rw [(empty_unused empty).1,(empty_unused still).1] at idle
  rw [(empty_unused empty).2,(empty_unused still).2] at busy
  exact ⟨agrees.idle.trans (congrArg Nat.cast idle.symm),agrees.busy.trans (congrArg Nat.cast busy.symm)⟩

theorem agrees_recorded {p : Pool n} (pid : Pid) (empty : (p.serverpool slot).empty = true) (ready : (p.serverpool slot).state = stateIdle)
    (agrees : Agrees p) : Agrees (p.add slot pid) := by
  have positive := pid.property
  have named : (pid.val : Int) ≠ -1 := by omega
  have now : ServerSt.idle {p.serverpool slot with pid := pid} = true := by simp [ServerSt.idle,named,ready]
  have idle := put_tally ServerSt.idle p slot {p.serverpool slot with pid := pid}
  have busy := put_tally ServerSt.busy p slot {p.serverpool slot with pid := pid}
  rw [(empty_unused empty).1,now] at idle
  rw [(empty_unused empty).2,(idle_nonempty now).2] at busy
  refine ⟨?_,agrees.busy.trans (congrArg Nat.cast busy.symm)⟩
  have more : (p.add slot pid).idleServers = p.idleServers + 1 := idle
  change p.idleCount + 1 = ((p.add slot pid).idleServers : Int)
  rw [more,agrees.idle]
  rfl

theorem agrees_removed {p : Pool n} (found : (p.serverpool slot).idle = true) (agrees : Agrees p) : Agrees (p.remove slot) := by
  have gone := empty_unused (clear_empty (p.serverpool slot))
  have idle := put_tally ServerSt.idle p slot (p.serverpool slot).clear
  have busy := put_tally ServerSt.busy p slot (p.serverpool slot).clear
  rw [found,gone.1] at idle
  rw [(idle_nonempty found).2,gone.2] at busy
  refine ⟨?_,agrees.busy.trans (congrArg Nat.cast busy.symm)⟩
  have less : (p.remove slot).idleServers + 1 = p.idleServers := idle
  have before := agrees.idle
  change p.idleCount - 1 = ((p.remove slot).idleServers : Int)
  omega

theorem statement_accurate {minSpare maxSpare : Nat} {p after : Pool n} (accurate : Accurate p place)
    (ran : statement minSpare maxSpare p place = some (after,next,calls)) : Accurate after next := by
  cases place with
  | suspended | aborted | terminating | overrun | forking | exited => cases ran
  | starting i | growing i =>
    cases ran
    split <;> exact accurate
  | scanning rest idle busy =>
    cases rest with
    | nil =>
      obtain ⟨_,idles,busys⟩ := accurate
      cases ran
      rw [List.countP_nil] at idles busys
      exact ⟨(Int.add_zero idle).symm.trans idles,(Int.add_zero busy).symm.trans busys⟩
    | cons slot rest =>
      obtain ⟨gone,rfl,rfl,_⟩ := statement_skips ran
      exact seen_empty (by simp [ServerSt.empty,gone]) accurate
  | idleTest slot rest idle busy =>
    obtain ⟨filled,seen⟩ := accurate
    cases ran
    split
    · rename_i state
      have kind : (p.serverpool slot).idle = true := by simp [ServerSt.idle,filled,state]
      exact seen_idle kind seen
    · rename_i other
      exact ⟨filled,other,seen⟩
  | busyTest slot rest idle busy =>
    obtain ⟨filled,_,seen⟩ := accurate
    cases ran
    split
    · rename_i state
      have kind : (p.serverpool slot).busy = true := by simp [ServerSt.busy,filled,state]
      exact seen_busy kind seen
    · trivial
  | controlling =>
    cases ran
    split
    · exact accurate
    · split <;> exact accurate
  | shrinking i =>
    cases ran
    split
    · split <;> exact accurate
    · exact accurate
  | deleting i rest =>
    cases rest with
    | nil =>
      cases ran
      exact accurate
    | cons slot rest =>
      obtain ⟨rfl,⟨idle,rfl,_⟩ | ⟨rfl,_⟩⟩ := statement_searches ran
      · exact ⟨idle,accurate⟩
      · exact accurate
  | adding caller =>
    cases ran
    split
    · exact agrees_back caller accurate
    · cases found : (List.finRange n).find? (fun slot => (p.serverpool slot).empty) with
      | none => exact accurate
      | some slot => exact ⟨by simpa using List.find?_some found,accurate⟩
  | storing caller slot =>
    obtain ⟨empty,agrees⟩ := accurate
    cases ran
    refine ⟨?_,?_,agrees_stored stateIdle empty agrees⟩
    · simpa [Pool.put,ServerSt.empty] using empty
    · simp [Pool.put]
  | recording caller slot pid =>
    obtain ⟨empty,ready,agrees⟩ := accurate
    cases ran
    exact agrees_back caller (agrees_recorded pid empty ready agrees)

theorem parent_accurate {minSpare maxSpare : Nat} {me after : Parent n} (accurate : Accurate me.pool me.place)
    (step : ParentStep minSpare maxSpare me calls after) : Accurate after.pool after.place := by
  cases step with
  | statement p place after next calls ran => exact statement_accurate accurate ran
  | woken p => exact seen_all p
  | alive p slot rest idle busy present => exact ⟨present,accurate⟩
  | dead p slot rest idle busy present => exact seen_cleared accurate
  | kill p i slot => exact agrees_removed accurate.1 accurate.2
  | fork p caller slot pid => exact accurate
  | forkFails p caller slot => exact accurate.2.2

-- A signal is pending, or a child is about to send one.
def Covered (s : System n) : Prop := s.notified = true ∨ ∃ pid child, s.children pid = some child ∧ child.place.owes = true

-- No child dies between the head of its loop and kill(ppid, SIG_NOTIFY), nor between its
-- STATE_BUSY and the other one.
def Paid (s : System n) (emitted : List (Event n)) : Prop :=
  ∀ pid child, .ended pid ∈ emitted → s.children pid = some child → child.place.owes = false

def Full (p : Pool n) : Prop := n ≤ p.idleCount + p.busyCount

-- What a pass has done so far for MINSPARESERVER, where it has created no child.
def Enough (minSpare maxSpare : Nat) (p : Pool n) : ParentPlace n → Prop
  | .starting i => i = 0 ∨ Full p
  | .suspended => minSpare ≤ p.idleCount ∨ Full p
  | .shrinking i => 0 ≤ i ∧ maxSpare ≤ p.idleCount
  | .deleting i _ | .terminating i _ => 0 ≤ i ∧ maxSpare < p.idleCount
  | .growing i => i = 0 ∨ Full p
  | .recording .. => False
  | _ => True

structure Aware (minSpare maxSpare : Nat) (me : Parent n) : Prop where
  accurate : Accurate me.pool me.place
  enough : Enough minSpare maxSpare me.pool me.place

theorem enough_back {p : Pool n} {minSpare maxSpare : Nat} (caller : Caller) (full : Full p) : Enough minSpare maxSpare p caller.back := by
  cases caller <;> exact .inr full

theorem statement_enough {minSpare maxSpare : Nat} {p after : Pool n} (ordered : minSpare ≤ maxSpare) (low : 0 ≤ p.idleCount)
    (enough : Enough minSpare maxSpare p place) (ran : statement minSpare maxSpare p place = some (after,next,calls)) :
    Enough minSpare maxSpare after next := by
  cases place with
  | suspended | aborted | terminating | overrun | forking | exited => cases ran
  | starting i =>
    cases ran
    split
    · trivial
    · rename_i last
      refine enough.imp_left ?_
      rintro rfl
      omega
  | scanning rest idle busy =>
    cases rest with
    | nil =>
      cases ran
      trivial
    | cons slot rest =>
      obtain ⟨_,rfl,rfl,_⟩ := statement_skips ran
      trivial
  | idleTest slot rest idle busy | busyTest slot rest idle busy =>
    cases ran
    split <;> trivial
  | controlling =>
    cases ran
    split
    · rename_i many
      exact ⟨Int.le_refl 0,Int.le_of_lt many⟩
    · split
      · exact .inl rfl
      · exact .inl (by omega)
  | shrinking i =>
    obtain ⟨begun,many⟩ := enough
    cases ran
    split
    · split
      · exact ⟨by omega,many⟩
      · exact ⟨begun,by omega⟩
    · exact .inl (by omega)
  | deleting i rest =>
    obtain ⟨begun,many⟩ := enough
    cases rest with
    | nil =>
      cases ran
      exact ⟨by omega,Int.le_of_lt many⟩
    | cons slot rest =>
      obtain ⟨rfl,⟨_,rfl,_⟩ | ⟨rfl,_⟩⟩ := statement_searches ran
      · exact ⟨begun,many⟩
      · exact ⟨begun,many⟩
  | growing i =>
    cases ran
    split
    · trivial
    · rename_i last
      refine enough.imp_left ?_
      rintro rfl
      omega
  | adding caller =>
    cases ran
    split
    · rename_i full
      exact enough_back caller full
    · split <;> trivial
  | storing caller slot =>
    cases ran
    trivial
  | recording caller slot pid => exact enough.elim

-- The parent keeps what it knows, or it creates a child that will notify it.
theorem parent_aware {minSpare maxSpare : Nat} {me after : Parent n} (ordered : minSpare ≤ maxSpare) (accounted : Accounted me)
    (aware : Aware minSpare maxSpare me) (step : ParentStep minSpare maxSpare me calls after) :
    Aware minSpare maxSpare after ∨ ∃ slot pid, calls = [.forked slot (some pid)] := by
  have accurate := parent_accurate aware.accurate step
  have low := accounted.idle
  have enough := aware.enough
  cases step with
  | statement p place after next calls ran => exact .inl ⟨accurate,statement_enough ordered low enough ran⟩
  | kill p i slot =>
    obtain ⟨begun,many⟩ := enough
    refine .inl ⟨accurate,?_,?_⟩
    · omega
    · change (maxSpare : Int) < p.idleCount at many
      change (maxSpare : Int) ≤ p.idleCount - 1
      omega
  | fork p caller slot pid => exact .inr ⟨slot,pid,rfl⟩
  | woken | alive | dead | forkFails => exact .inl ⟨accurate,trivial⟩

theorem woken_parent {minSpare maxSpare : Nat} {me after : Parent n} (step : ParentStep minSpare maxSpare me [.woken] after) :
    after = ⟨me.pool,.scanning (List.finRange n) 0 0⟩ := by
  cases step with
  | statement p place after next calls ran =>
    rcases statement_cases ran with ⟨none,_⟩ | ⟨_,_,_,_,_,none⟩ | ⟨_,_,_,_,_,none⟩ | ⟨_,_,_,_,_,_,none⟩ <;> cases none
  | woken p => rfl

theorem answered_covered {s next : System n} (covered : Covered s) (answered : Answered s call next) : Covered next ∨ call = .woken := by
  cases answered with
  | woken => exact .inr rfl
  | probed | found | stored | forkFails | recorded => exact .inl covered
  | killed pid =>
    refine .inl (covered.imp_right ?_)
    rintro ⟨other,child,present,owes⟩
    by_cases same : other = pid
    · subst same
      exact ⟨other,{child with term := true},by simp [present],owes⟩
    · exact ⟨other,child,by simpa [same] using present,owes⟩
  | forked slot pid fresh =>
    refine .inl (covered.imp_right ?_)
    rintro ⟨other,child,present,owes⟩
    have apart : other ≠ pid.val := by
      rintro rfl
      rw [fresh] at present
      cases present
    exact ⟨other,child,by simpa [System.born,System.setChild,apart] using present,owes⟩

theorem born_covered (s : System n) (slot : Fin n) (pid : Int) : Covered (s.born slot pid) :=
  .inr ⟨pid,⟨slot,.idling,false⟩,Function.update_self ..,rfl⟩

-- A child that stores something owes a signal, and one that does not leaves the pool as it is.
theorem job_covered (s : System n) (pid : Int) (child : Child n) (got : Bool) :
    Covered (serverJob s pid child got).1 ∨ (serverJob s pid child got).1.parent = s.parent ∧ child.place.owes = false ∧
      (serverJob s pid child got).1.notified = s.notified := by
  cases place : child.place with
  | idling | marking client =>
    simp only [serverJob,place]
    exact .inl (.inr ⟨pid,_,Function.update_self ..,rfl⟩)
  | reporting | telling client =>
    simp only [serverJob,place]
    exact .inl (.inl rfl)
  | accepting | replying client | closing =>
    simp only [serverJob,place]
    exact .inr ⟨rfl,rfl,rfl⟩

theorem bury_covered {s : System n} (covered : Covered s) (paid : Paid s [.ended pid]) : Covered (s.bury pid) := by
  refine covered.imp_right ?_
  rintro ⟨other,child,present,owes⟩
  refine ⟨other,child,?_,owes⟩
  have apart : other ≠ pid := by
    rintro rfl
    rw [paid other child List.mem_cons_self present] at owes
    cases owes
  simpa [System.bury,System.setChild,apart] using present

structure Told (minSpare maxSpare : Nat) (s : System n) : Prop where
  accounted : Accounted s.parent
  known : Covered s ∨ Aware minSpare maxSpare s.parent

theorem step_told {minSpare maxSpare : Nat} {s t : System n} (ordered : minSpare ≤ maxSpare) (told : Told minSpare maxSpare s)
    (step : Where (Step minSpare maxSpare) Paid s emitted t) : Told minSpare maxSpare t := by
  obtain ⟨taken,paid⟩ := step
  obtain ⟨accounted,known⟩ := told
  refine ⟨step_accounted accounted taken,?_⟩
  cases taken with
  | alone after moved =>
    rcases known with covered | aware
    · exact .inl covered
    · rcases parent_aware ordered accounted aware moved with aware | ⟨_,_,forked⟩
      · exact .inr aware
      · cases forked
  | call call after next moved answered =>
    rcases known with covered | aware
    · rcases answered_covered covered answered with covered | rfl
      · exact .inl covered
      · -- A new pass begins with no slot visited.
        rw [woken_parent moved]
        exact .inr ⟨seen_all s.parent.pool,trivial⟩
    · rcases parent_aware ordered accounted aware moved with aware | ⟨slot,pid,forked⟩
      · exact .inr aware
      · cases forked
        cases answered with
        | forked _ _ fresh => exact .inl (born_covered s slot pid)
  | child pid child got present =>
    rcases job_covered s pid child got with covered | ⟨same,free,notified⟩
    · exact .inl covered
    · rw [same]
      refine known.imp_left ?_
      rintro (pending | ⟨other,owing,there,owes⟩)
      · exact .inl (notified.trans pending)
      · refine .inr ⟨other,owing,?_,owes⟩
        have apart : other ≠ pid := by
          rintro rfl
          rw [present] at there
          cases there
          rw [free] at owes
          cases owes
        obtain ⟨place,children,_⟩ := serverJob_child s pid child got
        rw [children,Function.update_of_ne apart]
        exact there
  | delivered pid child present | dies pid child present =>
    exact known.imp_left (fun covered => bury_covered covered paid)

theorem start_told (minSpare maxSpare n : Nat) : Told minSpare maxSpare (start n) := by
  have noIdle : tally ServerSt.idle (boot n).pool.serverpool = 0 := tally_zero (fun _ => rfl)
  have noBusy : tally ServerSt.busy (boot n).pool.serverpool = 0 := tally_zero (fun _ => rfl)
  exact ⟨boot_accounted n,.inr ⟨⟨congrArg Nat.cast noIdle.symm,congrArg Nat.cast noBusy.symm⟩,.inl rfl⟩⟩

theorem run_told {minSpare maxSpare : Nat} {s : System n} (ordered : minSpare ≤ maxSpare)
    (run : Runs (Where (Step minSpare maxSpare) Paid) (start n) log s) : Told minSpare maxSpare s :=
  run.stateInvariant (I := Told minSpare maxSpare) (fun _ _ _ told step => step_told ordered told step) (start_told minSpare maxSpare n)

-- The parent sleeps, no signal is pending, and no child is about to send one.
structure Quiet (s : System n) : Prop where
  suspended : s.parent.place = .suspended
  unnotified : s.notified = false
  silent : ∀ pid child, s.children pid = some child → child.place.owes = false

theorem paid_otherwise {s : System n} (lives : ∀ pid, .ended pid ∉ emitted) : Paid s emitted :=
  fun pid _ ended => absurd ended (lives pid)

-- A pool of one slot: its server is created and reports, and the parent counts it.
theorem quiet_reached : ∃ log s, Runs (Where (Step 1 1) Paid) (start 1) log s ∧ Quiet s := by
  have begun : Runs (Where (Step 1 1) Paid) (start 1) [] (start 1) := .nil
  have called := begun.step ⟨.alone (start 1) ⟨_,.adding (.initial 0)⟩ (.statement _ _ _ _ _ rfl),paid_otherwise nofun⟩
  have found := called.step ⟨.alone _ ⟨_,.storing (.initial 0) 0⟩ (.statement _ _ _ _ _ rfl),paid_otherwise nofun⟩
  have stored := found.step ⟨.call _ (.stored 0) ⟨_,.forking (.initial 0) 0⟩ _ (.statement _ _ _ _ _ rfl) (.stored 0),paid_otherwise (by simp)⟩
  have forked := stored.step ⟨.call _ (.forked 0 (some ⟨1,by decide⟩)) _ _ (.fork _ _ _ _) (.forked 0 _ rfl),paid_otherwise (by simp)⟩
  have recorded := forked.step ⟨.call _ (.recorded 0 ⟨1,by decide⟩) ⟨_,.starting 1⟩ _ (.statement _ _ _ _ _ rfl) (.recorded 0 _),paid_otherwise (by simp)⟩
  have waiting := recorded.step ⟨.alone _ ⟨_,.suspended⟩ (.statement _ _ _ _ _ rfl),paid_otherwise nofun⟩
  have idled := waiting.step ⟨.child _ 1 ⟨0,.idling,false⟩ false rfl,paid_otherwise (by simp [serverJob])⟩
  have reported := idled.step ⟨.child _ 1 ⟨0,.reporting,false⟩ false rfl,paid_otherwise (by simp [serverJob])⟩
  have woken := reported.step ⟨.call _ .woken _ _ (.woken _) (.woken rfl),paid_otherwise (by simp)⟩
  have probed := woken.step ⟨.call _ (.probed 1 true) _ _ (.alive _ 0 [] 0 0 (by decide)) (.probed 1),paid_otherwise (by simp)⟩
  have tested := probed.step ⟨.alone _ ⟨_,.scanning [] 1 0⟩ (.statement _ _ _ _ _ rfl),paid_otherwise nofun⟩
  have counted := tested.step ⟨.alone _ ⟨_,.controlling⟩ (.statement _ _ _ _ _ rfl),paid_otherwise nofun⟩
  have done := counted.step ⟨.alone _ ⟨_,.suspended⟩ (.statement _ _ _ _ _ rfl),paid_otherwise nofun⟩
  refine ⟨_,_,done,rfl,rfl,?_⟩
  intro pid child present
  by_cases same : pid = 1
  · subst same
    cases present
    rfl
  · simp [serverJob,System.goto,System.setChild,System.store,System.born,start,same] at present

end LinuxCoding.ServerPool
