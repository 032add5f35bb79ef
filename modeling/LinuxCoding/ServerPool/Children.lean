import LinuxCoding.ServerPool.Accounting

-- pool_dynamic/server.c with its children: server_job, one step for each system call and
-- each store to serverpool.
namespace LinuxCoding.ServerPool
open Transition

-- A child is at `marking` when accept has returned, and `client` says whether with a
-- connection (it goes on without one after EINTR or EAGAIN).
inductive ChildPlace where
  | idling
  | reporting
  | accepting
  | marking (client : Bool)
  | telling (client : Bool)
  | replying (client : Bool)
  | closing
  deriving DecidableEq

-- `term` is a SIGTERM sent to the child and not delivered yet.
structure Child (n : Nat) where
  pos : Fin n
  place : ChildPlace
  term : Bool

-- Who stored the state of a slot last: nobody that lives, the parent for a child it has
-- not made yet, or a child (the child itself or the parent for it).
inductive Author where
  | nobody
  | creating
  | tenant (pid : Int)
  deriving DecidableEq

structure System (n : Nat) where
  parent : Parent n
  children : Int → Option (Child n)
  notified : Bool
  author : Fin n → Author

inductive Event (n : Nat) where
  | parent (call : Call n)
  | stored (pid : Int) (pos : Fin n) (state : Int)
  | accepted (pid : Int)
  | answered (pid : Int)
  | ended (pid : Int)

def System.pid (s : System n) (slot : Fin n) : Int := (s.parent.pool.serverpool slot).pid

def System.setChild (s : System n) (pid : Int) (child : Option (Child n)) : System n :=
  {s with children := Function.update s.children pid child}

def System.goto (s : System n) (pid : Int) (child : Child n) (place : ChildPlace) : System n :=
  s.setChild pid (some {child with place := place})

-- serverpool[pos].state = state, by the child itself.
def System.store (s : System n) (pid : Int) (pos : Fin n) (state : Int) : System n :=
  {s with
    parent.pool := s.parent.pool.put pos {s.parent.pool.serverpool pos with state := state}
    author := Function.update s.author pos (.tenant pid)}

def Author.leave (pid : Int) (author : Author) : Author := if author = .tenant pid then .nobody else author

def System.bury (s : System n) (pid : Int) : System n :=
  {s.setChild pid none with author := fun slot => (s.author slot).leave pid}

def System.born (s : System n) (slot : Fin n) (pid : Int) : System n :=
  {s.setChild pid (some ⟨slot,.idling,false⟩) with
    author := if s.author slot = .creating then Function.update s.author slot (.tenant pid) else s.author}

-- What a call of the parent does to the others, and whether its answer is right.
inductive Answered (s : System n) : Call n → System n → Prop where
  | woken : s.notified = true → Answered s .woken {s with notified := false}
  | probed (pid : Int) : Answered s (.probed pid (s.children pid).isSome) s
  | found (slot : Fin n) : Answered s (.found slot) s
  | killed (pid : Int) :
      Answered s (.killed pid) {s with children := Function.update s.children pid ((s.children pid).map ({· with term := true}))}
  | stored (slot : Fin n) : Answered s (.stored slot) {s with author := Function.update s.author slot .creating}
  | forked (slot : Fin n) (pid : Pid) : s.children pid = none → Answered s (.forked slot (some pid)) (s.born slot pid)
  | forkFails (slot : Fin n) : Answered s (.forked slot none) s
  | recorded (slot : Fin n) (pid : Pid) : Answered s (.recorded slot pid) s

-- The next statement of a child; `got` is what accept returns.
def serverJob (s : System n) (pid : Int) (child : Child n) (got : Bool) : System n × List (Event n) :=
  match child.place with
  | .idling => ((s.store pid child.pos stateIdle).goto pid child .reporting,[.stored pid child.pos stateIdle])
  | .reporting => ({s.goto pid child .accepting with notified := true},[])
  | .accepting => (s.goto pid child (.marking got),if got then [.accepted pid] else [])
  | .marking client => ((s.store pid child.pos stateBusy).goto pid child (.telling client),[.stored pid child.pos stateBusy])
  | .telling client => ({s.goto pid child (.replying client) with notified := true},[])
  | .replying client => (s.goto pid child .closing,if client then [.answered pid] else [])
  | .closing => (s.goto pid child .idling,[])

inductive Step (minSpare maxSpare : Nat) : System n → List (Event n) → System n → Prop where
  | alone (s : System n) (after : Parent n) : ParentStep minSpare maxSpare s.parent [] after →
      Step minSpare maxSpare s [] {s with parent := after}
  | call (s : System n) (call : Call n) (after : Parent n) (next : System n) : ParentStep minSpare maxSpare s.parent [call] after →
      Answered s call next → Step minSpare maxSpare s [.parent call] {next with parent := after}
  | child (s : System n) (pid : Int) (child : Child n) (got : Bool) : s.children pid = some child →
      Step minSpare maxSpare s (serverJob s pid child got).2 (serverJob s pid child got).1
  | delivered (s : System n) (pid : Int) (child : Child n) : s.children pid = some child → child.term = true →
      Step minSpare maxSpare s [.ended pid] (s.bury pid)
  -- exit(1) after a failed accept, or another death.
  | dies (s : System n) (pid : Int) (child : Child n) : s.children pid = some child →
      Step minSpare maxSpare s [.ended pid] (s.bury pid)

def start (n : Nat) : System n := ⟨boot n,fun _ => none,false,fun _ => .nobody⟩

-- The children do not write the pids.
theorem store_pid (s : System n) (pid : Int) (pos : Fin n) (state : Int) (slot : Fin n) : (s.store pid pos state).pid slot = s.pid slot := by
  by_cases same : slot = pos
  · subst same
    simp [System.store,System.pid,Pool.put]
  · simp [System.store,System.pid,Pool.put,same]

theorem serverJob_events (s : System n) (pid : Int) (child : Child n) (got : Bool) :
    (∀ call, .parent call ∉ (serverJob s pid child got).2) ∧ ∀ other, .accepted other ∈ (serverJob s pid child got).2 → other = pid := by
  cases place : child.place with
  | idling | reporting | marking | telling | closing => simp [serverJob,place]
  | accepting => cases got <;> simp [serverJob,place]
  | replying client => cases client <;> simp [serverJob,place]

end LinuxCoding.ServerPool
