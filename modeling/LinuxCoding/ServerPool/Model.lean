import LinuxCoding.Library.Total

-- IPC/socket/stream/pool_dynamic/server.c: the parent of a pool of server processes,
-- for any MINSPARESERVER, MAXSPARESERVER and MAXCLIENT.
namespace LinuxCoding.ServerPool
open Total

def stateIdle : Int := 0
def stateBusy : Int := 1

structure ServerSt where
  pid : Int
  state : Int
  deriving DecidableEq

structure Pool (maxClient : Nat) where
  serverpool : Fin maxClient → ServerSt
  idleCount : Int
  busyCount : Int

abbrev Pid : Type := {pid : Int // 0 < pid}

def ServerSt.idle (server : ServerSt) : Bool := server.pid ≠ -1 && server.state = stateIdle
def ServerSt.busy (server : ServerSt) : Bool := server.pid ≠ -1 && server.state = stateBusy
def ServerSt.empty (server : ServerSt) : Bool := server.pid = -1

-- serverpool[i].pid = -1
def ServerSt.clear (server : ServerSt) : ServerSt := {server with pid := -1}

def Pool.put (p : Pool n) (i : Fin n) (server : ServerSt) : Pool n := {p with serverpool := Function.update p.serverpool i server}

-- The loop of scan_pool over the slots still to visit; `alive` is whether kill(pid, 0)
-- finds the process, none is the abort() of an unknown state.
def scanFrom (alive : Int → Bool) : List (Fin n) → Pool n → Int → Int → Option (Pool n)
  | [],p,idle,busy => some {p with idleCount := idle,busyCount := busy}
  | i :: rest,p,idle,busy =>
    if (p.serverpool i).pid = -1 then scanFrom alive rest p idle busy
    else if !alive (p.serverpool i).pid then scanFrom alive rest (p.put i (p.serverpool i).clear) idle busy
    else if (p.serverpool i).state = stateIdle then scanFrom alive rest p (idle + 1) busy
    else if (p.serverpool i).state = stateBusy then scanFrom alive rest p idle (busy + 1)
    else none

def scanPool (alive : Int → Bool) (p : Pool n) : Option (Pool n) := scanFrom alive (List.finRange n) p 0 0

-- The exit(1) of a failed fork, and a write behind the end of serverpool.
inductive Fault where
  | exits
  | overrun
  deriving DecidableEq

-- `fork` is what fork() returns to the parent for the child of a slot: a slot is
-- filled at most once in a pass.
def add1Server (fork : Fin n → Option Pid) (p : Pool n) : Except Fault (Pool n × Int) :=
  if p.idleCount + p.busyCount ≥ n then .ok (p,-1)
  else match (List.finRange n).find? (fun slot => (p.serverpool slot).empty) with
    | none => .error .overrun
    | some slot =>
      match fork slot with
      | none => .error .exits
      | some pid => .ok ({p.put slot ⟨pid,stateIdle⟩ with idleCount := p.idleCount + 1},0)

def del1Server (p : Pool n) : Pool n × Int :=
  if p.idleCount = 0 then (p,-1)
  else match (List.finRange n).find? (fun i => (p.serverpool i).idle) with
    | none => (p,0)
    | some i => ({p.put i (p.serverpool i).clear with idleCount := p.idleCount - 1},0)

theorem add1Server_grows {p : Pool n} (added : add1Server fork p = .ok (q,ret)) : p.idleCount ≤ q.idleCount := by
  unfold add1Server at added
  split at added
  · cases added
    exact Int.le_refl _
  · split at added
    · cases added
    · split at added
      · cases added
      · cases added
        change p.idleCount ≤ p.idleCount + 1
        omega

theorem del1Server_shrinks (p : Pool n) : (del1Server p).1.idleCount ≤ p.idleCount := by
  unfold del1Server
  split
  · exact Int.le_refl _
  · split
    · exact Int.le_refl _
    · change p.idleCount - 1 ≤ p.idleCount
      omega

-- for(i = 0; i < (idle_count - MAXSPARESERVER); i++) del_1_server();
def delLoop (maxSpare : Nat) (i : Int) (p : Pool n) : Pool n :=
  if i < p.idleCount - maxSpare then delLoop maxSpare (i + 1) (del1Server p).1 else p
termination_by (p.idleCount - maxSpare - i).toNat
decreasing_by
  have := del1Server_shrinks p
  omega

-- for(i = 0; i < (MINSPARESERVER - idle_count); i++) add_1_server();
def addLoop (minSpare : Nat) (fork : Fin n → Option Pid) (i : Int) (p : Pool n) : Except Fault (Pool n) :=
  if i < minSpare - p.idleCount then
    match added : add1Server fork p with
    | .error fault => .error fault
    | .ok (q,_) => addLoop minSpare fork (i + 1) q
  else .ok p
termination_by (minSpare - p.idleCount - i).toNat
decreasing_by
  have := add1Server_grows added
  omega

-- The control block of the loop in main.
def control (minSpare maxSpare : Nat) (fork : Fin n → Option Pid) (p : Pool n) : Except Fault (Pool n) :=
  if p.idleCount > maxSpare then .ok (delLoop maxSpare 0 p)
  else if p.idleCount < minSpare then addLoop minSpare fork 0 p
  else .ok p

end LinuxCoding.ServerPool
