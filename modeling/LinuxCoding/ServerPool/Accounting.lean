import LinuxCoding.ServerPool.Parent

-- The two counters of the parent against the slots it has filled, through every
-- statement of every run.
namespace LinuxCoding.ServerPool
open Total Transition

def Pool.held (p : Pool n) (slot : Fin n) : Bool := !(p.serverpool slot).empty

-- The slots whose pid is not -1.
def Pool.occupied (p : Pool n) : Nat := tally id p.held

def ParentPlace.scans : ParentPlace n → Bool
  | .scanning .. => true
  | .idleTest .. => true
  | .busyTest .. => true
  | .aborted => true
  | _ => false

-- While scan_pool runs, its own two counts make up for the slots it has still to visit.
def Balanced (held : Fin n → Bool) (idleCount busyCount : Int) : ParentPlace n → Prop
  | .scanning rest idle busy => rest.Nodup ∧ 0 ≤ idle ∧ 0 ≤ busy ∧ idle + busy + rest.countP held = tally id held
  | .idleTest slot rest idle busy => (slot :: rest).Nodup ∧ 0 ≤ idle ∧ 0 ≤ busy ∧ idle + busy + 1 + rest.countP held = tally id held
  | .busyTest slot rest idle busy => (slot :: rest).Nodup ∧ 0 ≤ idle ∧ 0 ≤ busy ∧ idle + busy + 1 + rest.countP held = tally id held
  | .aborted => True
  | .deleting _ _ => 0 < idleCount ∧ idleCount + busyCount = tally id held
  | .terminating _ slot => 0 < idleCount ∧ held slot = true ∧ idleCount + busyCount = tally id held
  | .storing _ slot => held slot = false ∧ idleCount + busyCount = tally id held
  | .forking _ slot => held slot = false ∧ idleCount + busyCount = tally id held
  | .recording _ slot _ => held slot = false ∧ idleCount + busyCount = tally id held
  | .overrun => False
  | _ => idleCount + busyCount = tally id held

structure Accounted (me : Parent n) : Prop where
  idle : 0 ≤ me.pool.idleCount
  busy : 0 ≤ me.pool.busyCount
  balanced : Balanced me.pool.held me.pool.idleCount me.pool.busyCount me.place

theorem accounted_at {p : Pool n} {place : ParentPlace n} :
    Accounted ⟨p,place⟩ ↔ 0 ≤ p.idleCount ∧ 0 ≤ p.busyCount ∧ Balanced p.held p.idleCount p.busyCount place :=
  ⟨fun accounted => ⟨accounted.idle,accounted.busy,accounted.balanced⟩,fun ⟨idle,busy,balanced⟩ => ⟨idle,busy,balanced⟩⟩

@[simp] theorem put_held (p : Pool n) (slot : Fin n) (server : ServerSt) :
    (p.put slot server).held = Function.update p.held slot (!server.empty) := by
  funext k
  by_cases same : k = slot
  · subst same
    simp [Pool.held,Pool.put]
  · simp [Pool.held,Pool.put,same]

-- The parent alone writes the pids.
theorem store_held (p : Pool n) (slot : Fin n) (state : Int) :
    (p.put slot {p.serverpool slot with state := state}).held = p.held := by
  rw [put_held]
  exact Function.update_eq_self slot p.held

theorem occupied_put (held : Fin n → Bool) (slot : Fin n) (now : Bool) :
    tally id (Function.update held slot now) + (held slot).toNat = tally id held + now.toNat := tally_update id held slot now

theorem rest_put (held : Fin n → Bool) (now : Bool) {slot : Fin n} {rest : List (Fin n)} (outside : slot ∉ rest) :
    rest.countP (Function.update held slot now) = rest.countP held := by
  apply List.countP_congr
  intro k member
  have apart : k ≠ slot := fun same => outside (same ▸ member)
  rw [Function.update_of_ne apart]

theorem back_balanced {held : Fin n → Bool} {idleCount busyCount : Int} (caller : Caller)
    (sum : idleCount + busyCount = tally id held) : Balanced held idleCount busyCount caller.back := by
  cases caller <;> exact sum

-- With fewer servers than slots add_1_server finds a free one.
theorem room_found {p : Pool n} (sum : p.idleCount + p.busyCount = tally id p.held) (room : p.idleCount + p.busyCount < n) :
    ∃ slot, (List.finRange n).find? (fun slot => (p.serverpool slot).empty) = some slot ∧ p.held slot = false := by
  cases found : (List.finRange n).find? (fun slot => (p.serverpool slot).empty) with
  | some slot =>
    have empty := List.find?_some found
    exact ⟨slot,rfl,by simpa [Pool.held] using empty⟩
  | none =>
    exfalso
    have full : ∀ slot, p.held slot = true := by
      intro slot
      have filled := List.find?_eq_none.mp found slot (List.mem_finRange slot)
      simpa [Pool.held] using filled
    have all : tally id p.held = n := by simp [tally,total,full]
    omega

-- A recorded pid fills its slot, and is counted as idle.
theorem recorded_balanced {p : Pool n} (pid : Pid) (free : p.held slot = false) (sum : p.idleCount + p.busyCount = tally id p.held) :
    (p.add slot pid).idleCount + (p.add slot pid).busyCount = tally id (p.add slot pid).held := by
  have positive := pid.property
  have named : (pid.val : Int) ≠ -1 := by omega
  have filled := occupied_put p.held slot true
  have held : (p.add slot pid).held = Function.update p.held slot true := by
    change (p.put slot {p.serverpool slot with pid := pid}).held = _
    simp [ServerSt.empty,named]
  rw [held]
  simp only [free,Bool.toNat_false,Bool.toNat_true] at filled
  change p.idleCount + 1 + p.busyCount = _
  omega

theorem statement_balanced {minSpare maxSpare : Nat} {p after : Pool n} (accounted : Accounted ⟨p,place⟩)
    (ran : statement minSpare maxSpare p place = some (after,next,calls)) : Accounted ⟨after,next⟩ := by
  obtain ⟨idleLow,busyLow,balanced⟩ := accounted_at.mp accounted
  rw [accounted_at]
  cases place with
  | suspended | aborted | terminating | overrun | forking | exited => cases ran
  | starting i =>
    cases ran
    refine ⟨idleLow,busyLow,?_⟩
    split <;> exact balanced
  | scanning rest idle busy =>
    obtain ⟨distinct,low,high,sum⟩ := balanced
    cases rest with
    | nil =>
      cases ran
      have whole : idle + busy = tally id p.held := by simpa using sum
      exact ⟨low,high,whole⟩
    | cons slot rest =>
      obtain ⟨gone,rfl,rfl,_⟩ := statement_skips ran
      have free : p.held slot = false := by simp [Pool.held,ServerSt.empty,gone]
      refine ⟨idleLow,busyLow,(List.nodup_cons.mp distinct).2,low,high,?_⟩
      simpa [List.countP_cons,free] using sum
  | idleTest slot rest idle busy =>
    obtain ⟨distinct,low,high,sum⟩ := balanced
    cases ran
    refine ⟨idleLow,busyLow,?_⟩
    split
    · exact ⟨(List.nodup_cons.mp distinct).2,by omega,high,by omega⟩
    · exact ⟨distinct,low,high,sum⟩
  | busyTest slot rest idle busy =>
    obtain ⟨distinct,low,high,sum⟩ := balanced
    cases ran
    refine ⟨idleLow,busyLow,?_⟩
    split
    · exact ⟨(List.nodup_cons.mp distinct).2,low,by omega,by omega⟩
    · trivial
  | controlling =>
    cases ran
    refine ⟨idleLow,busyLow,?_⟩
    split
    · exact balanced
    · split <;> exact balanced
  | shrinking i =>
    cases ran
    refine ⟨idleLow,busyLow,?_⟩
    split
    · split
      · exact balanced
      · rename_i positive
        exact ⟨by omega,balanced⟩
    · exact balanced
  | deleting i rest =>
    obtain ⟨positive,sum⟩ := balanced
    cases rest with
    | nil =>
      cases ran
      exact ⟨idleLow,busyLow,sum⟩
    | cons slot rest =>
      obtain ⟨rfl,⟨idle,rfl,_⟩ | ⟨rfl,_⟩⟩ := statement_searches ran
      · have filled : p.held slot = true := by simp [Pool.held,idle_nonempty idle]
        exact ⟨idleLow,busyLow,positive,filled,sum⟩
      · exact ⟨idleLow,busyLow,positive,sum⟩
  | growing i =>
    cases ran
    refine ⟨idleLow,busyLow,?_⟩
    split <;> exact balanced
  | adding caller =>
    cases ran
    refine ⟨idleLow,busyLow,?_⟩
    split
    · exact back_balanced caller balanced
    · rename_i room
      obtain ⟨slot,found,free⟩ := room_found balanced (by omega)
      simp only [found]
      exact ⟨free,balanced⟩
  | storing caller slot =>
    obtain ⟨free,sum⟩ := balanced
    cases ran
    refine ⟨idleLow,busyLow,?_⟩
    change Balanced (p.put slot {p.serverpool slot with state := stateIdle}).held p.idleCount p.busyCount (.forking caller slot)
    rw [store_held]
    exact ⟨free,sum⟩
  | recording caller slot pid =>
    obtain ⟨free,sum⟩ := balanced
    cases ran
    exact ⟨Int.add_nonneg idleLow (by decide),busyLow,back_balanced caller (recorded_balanced pid free sum)⟩

theorem parent_accounted {minSpare maxSpare : Nat} {me after : Parent n} (accounted : Accounted me)
    (step : ParentStep minSpare maxSpare me calls after) : Accounted after := by
  cases step with
  | statement p place after next calls ran => exact statement_balanced accounted ran
  | woken p =>
    have sum : p.idleCount + p.busyCount = tally id p.held := accounted.balanced
    have listed : tally id p.held = (List.finRange n).countP p.held := tally_list id p.held
    refine accounted_at.mpr ⟨accounted.idle,accounted.busy,List.nodup_finRange n,Int.le_refl 0,Int.le_refl 0,?_⟩
    omega
  | alive p slot rest idle busy present =>
    obtain ⟨idleLow,busyLow,distinct,low,high,sum⟩ := accounted_at.mp accounted
    have filled : p.held slot = true := by simp [Pool.held,ServerSt.empty,present]
    refine accounted_at.mpr ⟨idleLow,busyLow,distinct,low,high,?_⟩
    rw [List.countP_cons,filled] at sum
    simp only [if_true] at sum
    omega
  | dead p slot rest idle busy present =>
    obtain ⟨idleLow,busyLow,distinct,low,high,sum⟩ := accounted_at.mp accounted
    obtain ⟨outside,distinct⟩ := List.nodup_cons.mp distinct
    have filled : p.held slot = true := by simp [Pool.held,ServerSt.empty,present]
    have less := occupied_put p.held slot false
    refine accounted_at.mpr ⟨idleLow,busyLow,distinct,low,high,?_⟩
    rw [List.countP_cons,filled] at sum
    rw [put_held,clear_empty,Bool.not_true,rest_put p.held false outside]
    simp only [filled,if_true,Bool.toNat_true,Bool.toNat_false] at sum less
    omega
  | kill p i slot =>
    obtain ⟨_,busyLow,positive,filled,sum⟩ := accounted_at.mp accounted
    have less := occupied_put p.held slot false
    have held : (p.remove slot).held = Function.update p.held slot false := by
      change (p.put slot (p.serverpool slot).clear).held = _
      rw [put_held,clear_empty,Bool.not_true]
    refine accounted_at.mpr ⟨Int.sub_nonneg_of_le positive,busyLow,?_⟩
    change p.idleCount - 1 + p.busyCount = tally id (p.remove slot).held
    rw [held]
    simp only [filled,Bool.toNat_true,Bool.toNat_false] at less
    omega
  | fork p caller slot pid => exact ⟨accounted.idle,accounted.busy,accounted.balanced⟩
  | forkFails p caller slot => exact ⟨accounted.idle,accounted.busy,accounted.balanced.2⟩

theorem churn_accounted {minSpare maxSpare : Nat} {me after : Parent n} (accounted : Accounted me)
    (step : Churn minSpare maxSpare me calls after) : Accounted after := by
  cases step with
  | parent step => exact parent_accounted accounted step
  | flip slot state =>
    refine ⟨accounted.idle,accounted.busy,?_⟩
    change Balanced (me.pool.put slot {me.pool.serverpool slot with state := state}).held _ _ me.place
    rw [store_held]
    exact accounted.balanced

theorem boot_accounted (n : Nat) : Accounted (boot n) := by
  have none : tally id (boot n).pool.held = 0 := tally_zero (fun _ => rfl)
  refine ⟨Int.le_refl 0,Int.le_refl 0,?_⟩
  change (0 : Int) + 0 = tally id (boot n).pool.held
  rw [none]
  rfl

theorem run_accounted {minSpare maxSpare : Nat} {me : Parent n} (run : Runs (Churn minSpare maxSpare) (boot n) log me) :
    Accounted me :=
  run.stateInvariant (fun _ _ _ accounted step => churn_accounted accounted step) (boot_accounted n)

theorem settled {held : Fin n → Bool} {idleCount busyCount : Int} {place : ParentPlace n}
    (balanced : Balanced held idleCount busyCount place) (between : place.scans = false) : idleCount + busyCount = tally id held := by
  cases place with
  | scanning | idleTest | busyTest | aborted => cases between
  | overrun => cases balanced
  | deleting => exact balanced.2
  | terminating => exact balanced.2.2
  | storing | forking | recording => exact balanced.2
  | starting | suspended | controlling | shrinking | growing | adding | exited => exact balanced

theorem slots_accounted (minSpare maxSpare : Nat) {me : Parent n} (run : Runs (Churn minSpare maxSpare) (boot n) log me) :
    0 ≤ me.pool.idleCount ∧ 0 ≤ me.pool.busyCount ∧
    (me.place.scans = false → me.pool.idleCount + me.pool.busyCount = me.pool.occupied) ∧
    (∀ caller, me.place = .adding caller → me.pool.idleCount + me.pool.busyCount < n →
      ∃ slot, (List.finRange n).find? (fun slot => (me.pool.serverpool slot).empty) = some slot) ∧
    me.place ≠ .overrun := by
  have accounted := run_accounted run
  refine ⟨accounted.idle,accounted.busy,settled accounted.balanced,?_,?_⟩
  · intro caller here room
    have sum := accounted.balanced
    rw [here] at sum
    obtain ⟨slot,found,_⟩ := room_found sum room
    exact ⟨slot,found⟩
  · intro here
    have broken := accounted.balanced
    rw [here] at broken
    exact broken

-- The first call of add_1_server.
theorem boot_finds : ∃ slot, (List.finRange 20).find? (fun slot => ((boot 20).pool.serverpool slot).empty) = some slot := by
  have called : Churn 5 10 (boot 20) [] ⟨(boot 20).pool,.adding (.initial 0)⟩ := .parent (.statement _ _ _ _ _ rfl)
  exact (slots_accounted 5 10 (.one called)).2.2.2.1 (.initial 0) rfl (by decide)

end LinuxCoding.ServerPool
