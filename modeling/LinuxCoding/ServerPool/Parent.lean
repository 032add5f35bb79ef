import LinuxCoding.Library.Transition
import LinuxCoding.ServerPool.Control

-- The parent of pool_dynamic/server.c statement by statement. Its children may write
-- their states, come and go between any two of its statements.
namespace LinuxCoding.ServerPool
open Total Transition

-- The loop of main that has called add_1_server, with the value of i.
inductive Caller where
  | initial (i : Nat)
  | growing (i : Int)

-- What the parent does next. `starting`, `shrinking` and `growing` are the tests of the
-- three loops, `scanning` is at the slots scan_pool has still to visit.
inductive ParentPlace (n : Nat) where
  | starting (i : Nat)
  | suspended
  | scanning (rest : List (Fin n)) (idle busy : Int)
  | idleTest (slot : Fin n) (rest : List (Fin n)) (idle busy : Int)
  | busyTest (slot : Fin n) (rest : List (Fin n)) (idle busy : Int)
  | aborted
  | controlling
  | shrinking (i : Int)
  | deleting (i : Int) (rest : List (Fin n))
  | terminating (i : Int) (slot : Fin n)
  | growing (i : Int)
  | adding (caller : Caller)
  | overrun
  | storing (caller : Caller) (slot : Fin n)
  | forking (caller : Caller) (slot : Fin n)
  | exited
  | recording (caller : Caller) (slot : Fin n) (pid : Pid)

def Caller.back : Caller → ParentPlace n
  | .initial i => .starting (i + 1)
  | .growing i => .growing (i + 1)

structure Parent (n : Nat) where
  pool : Pool n
  place : ParentPlace n

-- What others see of the parent, and the answers it gets: kill(pid, 0), the choice of
-- del_1_server and its kill(pid, SIGTERM), fork() and the store of its pid.
inductive Call (n : Nat) where
  | woken
  | probed (pid : Int) (alive : Bool)
  | found (slot : Fin n)
  | killed (pid : Int)
  | stored (slot : Fin n)
  | forked (slot : Fin n) (pid : Option Pid)
  | recorded (slot : Fin n) (pid : Pid)

def Pool.add (p : Pool n) (slot : Fin n) (pid : Pid) : Pool n :=
  {p.put slot {p.serverpool slot with pid := pid} with idleCount := p.idleCount + 1}

def Pool.remove (p : Pool n) (slot : Fin n) : Pool n :=
  {p.put slot (p.serverpool slot).clear with idleCount := p.idleCount - 1}

-- The statements that wait for no answer.
def statement (minSpare maxSpare : Nat) (p : Pool n) : ParentPlace n → Option (Pool n × ParentPlace n × List (Call n))
  | .starting i => some (p,if i < minSpare then .adding (.initial i) else .suspended,[])
  | .suspended => none
  | .scanning [] idle busy => some ({p with idleCount := idle,busyCount := busy},.controlling,[])
  | .scanning (slot :: rest) idle busy => if (p.serverpool slot).pid = -1 then some (p,.scanning rest idle busy,[]) else none
  | .idleTest slot rest idle busy =>
    some (p,if (p.serverpool slot).state = stateIdle then .scanning rest (idle + 1) busy else .busyTest slot rest idle busy,[])
  | .busyTest slot rest idle busy =>
    some (p,if (p.serverpool slot).state = stateBusy then .scanning rest idle (busy + 1) else .aborted,[])
  | .aborted => none
  | .controlling =>
    some (p,if p.idleCount > maxSpare then .shrinking 0 else if p.idleCount < minSpare then .growing 0 else .suspended,[])
  | .shrinking i =>
    some (p,if i < p.idleCount - maxSpare then
      if p.idleCount = 0 then .shrinking (i + 1) else .deleting i (List.finRange n)
    else .suspended,[])
  | .deleting i [] => some (p,.shrinking (i + 1),[])
  | .deleting i (slot :: rest) =>
    some (if (p.serverpool slot).idle then (p,.terminating i slot,[.found slot]) else (p,.deleting i rest,[]))
  | .terminating .. => none
  | .growing i => some (p,if i < minSpare - p.idleCount then .adding (.growing i) else .suspended,[])
  | .adding caller =>
    some (p,if p.idleCount + p.busyCount ≥ n then caller.back
      else match (List.finRange n).find? (fun slot => (p.serverpool slot).empty) with
        | none => .overrun
        | some slot => .storing caller slot,[])
  | .overrun => none
  | .storing caller slot => some (p.put slot {p.serverpool slot with state := stateIdle},.forking caller slot,[.stored slot])
  | .forking .. => none
  | .exited => none
  | .recording caller slot pid => some (p.add slot pid,caller.back,[.recorded slot pid])

inductive ParentStep (minSpare maxSpare : Nat) : Parent n → List (Call n) → Parent n → Prop where
  | statement (p : Pool n) (place : ParentPlace n) (after : Pool n) (next : ParentPlace n) (calls : List (Call n)) :
      ServerPool.statement minSpare maxSpare p place = some (after,next,calls) →
      ParentStep minSpare maxSpare ⟨p,place⟩ calls ⟨after,next⟩
  | woken (p : Pool n) : ParentStep minSpare maxSpare ⟨p,.suspended⟩ [.woken] ⟨p,.scanning (List.finRange n) 0 0⟩
  | alive (p : Pool n) (slot : Fin n) (rest : List (Fin n)) (idle busy : Int) : (p.serverpool slot).pid ≠ -1 →
      ParentStep minSpare maxSpare ⟨p,.scanning (slot :: rest) idle busy⟩ [.probed (p.serverpool slot).pid true]
        ⟨p,.idleTest slot rest idle busy⟩
  | dead (p : Pool n) (slot : Fin n) (rest : List (Fin n)) (idle busy : Int) : (p.serverpool slot).pid ≠ -1 →
      ParentStep minSpare maxSpare ⟨p,.scanning (slot :: rest) idle busy⟩ [.probed (p.serverpool slot).pid false]
        ⟨p.put slot (p.serverpool slot).clear,.scanning rest idle busy⟩
  | kill (p : Pool n) (i : Int) (slot : Fin n) :
      ParentStep minSpare maxSpare ⟨p,.terminating i slot⟩ [.killed (p.serverpool slot).pid] ⟨p.remove slot,.shrinking (i + 1)⟩
  | fork (p : Pool n) (caller : Caller) (slot : Fin n) (pid : Pid) :
      ParentStep minSpare maxSpare ⟨p,.forking caller slot⟩ [.forked slot (some pid)] ⟨p,.recording caller slot pid⟩
  | forkFails (p : Pool n) (caller : Caller) (slot : Fin n) :
      ParentStep minSpare maxSpare ⟨p,.forking caller slot⟩ [.forked slot none] ⟨p,.exited⟩

theorem statement_skips {minSpare maxSpare : Nat} {p after : Pool n}
    (ran : statement minSpare maxSpare p (.scanning (slot :: rest) idle busy) = some (after,next,calls)) :
    (p.serverpool slot).pid = -1 ∧ p = after ∧ next = .scanning rest idle busy ∧ calls = [] := by
  simp only [statement,Option.ite_none_right_eq_some,Option.some.injEq,Prod.mk.injEq] at ran
  obtain ⟨gone,same,onward,silent⟩ := ran
  exact ⟨gone,same,onward.symm,silent.symm⟩

theorem statement_searches {minSpare maxSpare : Nat} {p after : Pool n}
    (ran : statement minSpare maxSpare p (.deleting i (slot :: rest)) = some (after,next,calls)) :
    p = after ∧ ((p.serverpool slot).idle = true ∧ next = .terminating i slot ∧ calls = [.found slot] ∨ next = .deleting i rest ∧ calls = []) := by
  simp only [statement,Option.some.injEq] at ran
  split at ran
  · rename_i idle
    cases ran
    exact ⟨rfl,.inl ⟨idle,rfl,rfl⟩⟩
  · cases ran
    exact ⟨rfl,.inr ⟨rfl,rfl⟩⟩

-- What a statement can do: it leaves serverpool as it is, or it is one of the three that
-- others see.
theorem statement_cases {minSpare maxSpare : Nat} {p after : Pool n}
    (ran : statement minSpare maxSpare p place = some (after,next,calls)) :
    (calls = [] ∧ after.serverpool = p.serverpool ∧ ∀ i slot, next ≠ .terminating i slot) ∨
    (∃ i slot, (p.serverpool slot).idle = true ∧ after = p ∧ next = .terminating i slot ∧ calls = [.found slot]) ∨
    (∃ caller slot, place = .storing caller slot ∧ after = p.put slot {p.serverpool slot with state := stateIdle} ∧
      next = .forking caller slot ∧ calls = [.stored slot]) ∨
    (∃ caller slot pid, place = .recording caller slot pid ∧ after = p.add slot pid ∧ next = caller.back ∧
      calls = [.recorded slot pid]) := by
  cases place with
  | suspended | aborted | terminating | overrun | forking | exited => cases ran
  | starting i | growing i | idleTest slot rest idle busy | busyTest slot rest idle busy =>
    cases ran
    refine .inl ⟨rfl,rfl,fun _ _ => ?_⟩
    split <;> nofun
  | controlling =>
    cases ran
    refine .inl ⟨rfl,rfl,fun _ _ => ?_⟩
    split
    · nofun
    · split <;> nofun
  | shrinking i =>
    cases ran
    refine .inl ⟨rfl,rfl,fun _ _ => ?_⟩
    split
    · split <;> nofun
    · nofun
  | scanning rest idle busy =>
    cases rest with
    | nil =>
      cases ran
      exact .inl ⟨rfl,rfl,fun _ _ => nofun⟩
    | cons slot rest =>
      obtain ⟨_,rfl,rfl,rfl⟩ := statement_skips ran
      exact .inl ⟨rfl,rfl,fun _ _ => nofun⟩
  | deleting i rest =>
    cases rest with
    | nil =>
      cases ran
      exact .inl ⟨rfl,rfl,fun _ _ => nofun⟩
    | cons slot rest =>
      obtain ⟨rfl,⟨idle,rfl,rfl⟩ | ⟨rfl,rfl⟩⟩ := statement_searches ran
      · exact .inr (.inl ⟨i,slot,idle,rfl,rfl,rfl⟩)
      · exact .inl ⟨rfl,rfl,fun _ _ => nofun⟩
  | adding caller =>
    cases ran
    refine .inl ⟨rfl,rfl,fun _ _ => ?_⟩
    split
    · cases caller <;> nofun
    · split <;> nofun
  | storing caller slot =>
    cases ran
    exact .inr (.inr (.inl ⟨caller,slot,rfl,rfl,rfl,rfl⟩))
  | recording caller slot pid =>
    cases ran
    exact .inr (.inr (.inr ⟨caller,slot,pid,rfl,rfl,rfl,rfl⟩))

-- What the parent has done when others have seen a call.
def Call.Made (me after : Parent n) : Call n → Prop
  | .woken => after.pool = me.pool
  | .probed pid alive =>
    ∃ slot, (me.pool.serverpool slot).pid = pid ∧ after.pool = if alive then me.pool else me.pool.put slot (me.pool.serverpool slot).clear
  | .found slot => (me.pool.serverpool slot).idle = true ∧ ∃ i, after = ⟨me.pool,.terminating i slot⟩
  | .killed pid => ∃ i slot, me.place = .terminating i slot ∧ (me.pool.serverpool slot).pid = pid ∧ after.pool = me.pool.remove slot
  | .stored slot => (∃ caller, me.place = .storing caller slot) ∧
    after.pool = me.pool.put slot {me.pool.serverpool slot with state := stateIdle}
  | .forked slot _ => (∃ caller, me.place = .forking caller slot) ∧ after.pool = me.pool
  | .recorded slot pid => (∃ caller, me.place = .recording caller slot pid) ∧ after.pool = me.pool.add slot pid

theorem parent_call {minSpare maxSpare : Nat} {me after : Parent n} (step : ParentStep minSpare maxSpare me [call] after) :
    call.Made me after := by
  cases step with
  | statement p place after next calls ran =>
    rcases statement_cases ran with ⟨silent,_,_⟩ | ⟨i,slot,idle,rfl,rfl,same⟩ | ⟨caller,slot,rfl,rfl,rfl,same⟩ | ⟨caller,slot,pid,rfl,rfl,rfl,same⟩
    · cases silent
    · cases same
      exact ⟨idle,i,rfl⟩
    · cases same
      exact ⟨⟨caller,rfl⟩,rfl⟩
    · cases same
      exact ⟨⟨caller,rfl⟩,rfl⟩
  | woken p => exact rfl
  | alive p slot | dead p slot => exact ⟨slot,rfl,rfl⟩
  | kill p i slot => exact ⟨i,slot,rfl,rfl,rfl⟩
  | fork p caller slot | forkFails p caller slot => exact ⟨⟨caller,rfl⟩,rfl⟩

-- mmap has filled serverpool with zeros, and main every pid with -1.
def boot (n : Nat) : Parent n := ⟨⟨fun _ => ⟨-1,0⟩,0,0⟩,.starting 0⟩

-- A child may store anything in any state, at any time.
inductive Churn (minSpare maxSpare : Nat) : Parent n → List (Call n) → Parent n → Prop where
  | parent : ParentStep minSpare maxSpare me calls after → Churn minSpare maxSpare me calls after
  | flip (me : Parent n) (slot : Fin n) (state : Int) :
      Churn minSpare maxSpare me [] {me with pool := me.pool.put slot {me.pool.serverpool slot with state := state}}

end LinuxCoding.ServerPool
