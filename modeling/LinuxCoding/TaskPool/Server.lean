import LinuxCoding.TaskPool.Wakeup

-- The rest of IPC/socket/Newer/server.c: main accepts clients and adds a task for each, the
-- workers run handle_client. A reply to a client that has gone may end the process by
-- SIGPIPE, and with it the run.
namespace LinuxCoding.TaskPool.Server
open Chain Signals Transition

def bufSize : Nat := 1024

-- The text that is sent, with its NUL.
def message : List UInt8 := [84,104,105,115,32,105,115,32,97,32,109,101,115,115,97,103,101,32,102,114,111,109,32,115,101,114,118,101,114,46,10,0]

-- buf after the read into zeroed bytes and buf[strcspn(buf, "\r\n")] = '\0'.
def command (chunk : List UInt8) : List UInt8 := chunk.takeWhile (fun byte => byte ≠ 0 && byte ≠ 13 && byte ≠ 10)

def exits (chunk : List UInt8) : Bool := command chunk = [101,120,105,116]

-- Where main is, with fd_client and client_fd: in accept, before each malloc, before the
-- mutex of pool_add_task, before its printf.
inductive Main where
  | accepting
  | storing (fd : Int)
  | adding (fd : Int) (arg : Pointer)
  | linking (fd : Int) (arg : Pointer)
  | announcing (fd : Int)

-- Where a worker is in handle_client: before it reads arg, before free(arg), in read, before
-- write, before close. `crashed` is a use of a freed arg, or a call of another function.
inductive Place where
  | outside
  | entered (arg : Pointer)
  | loaded (arg : Pointer) (fd : Int)
  | reading (fd : Int)
  | answering (fd : Int)
  | closing (fd : Int)
  | crashed

-- main is the thread `none` of the pool. `cells` is what malloc has handed out for client_fd,
-- `table` the connection behind a descriptor; connections are numbered by the calls of accept.
structure State (workers : Nat) where
  pool : TaskPool.State (Option (Fin workers))
  cells : Pointer → Option Int
  table : Int → Option Nat
  accepted : Nat
  main : Main
  place : Fin workers → Place

inductive Event (workers : Nat) where
  | accepted (fd : Int)
  | announced (fd : Int)
  | pool (event : TaskPool.Event (Option (Fin workers)))
  | received (w : Fin workers) (conn : Nat) (chunk : List UInt8)
  | dropped (w : Fin workers) (conn : Option Nat)
  | replied (w : Fin workers) (conn : Option Nat) (sent : List UInt8)
  | closed (w : Fin workers) (conn : Option Nat)

def start (workers : Nat) : State workers :=
  ⟨TaskPool.start Option.isSome,fun _ => none,fun _ => none,0,.accepting,fun _ => .outside⟩

variable {workers : Nat}

def State.enter (s : State workers) (w : Fin workers) (place : Place) : State workers := {s with place := Function.update s.place w place}

-- int client_fd = *(int *)arg and free(arg).
def State.load (s : State workers) (w : Fin workers) (arg : Pointer) : State workers :=
  match s.cells arg with
  | none => s.enter w .crashed
  | some fd => s.enter w (.loaded arg fd)

def State.free (s : State workers) (w : Fin workers) (arg : Pointer) (fd : Int) : State workers :=
  match s.cells arg with
  | none => s.enter w .crashed
  | some _ => {s.enter w (.reading fd) with cells := Function.update s.cells arg none}

-- The call that TaskPool.run has made.
def called (handleClient : Pointer) : List (TaskPool.Event (Option (Fin workers))) → Place
  | [.ran _ task] => if task.function = handleClient then .entered task.arg else .crashed
  | _ => .outside

def State.begin (s : State workers) (handleClient : Pointer) (w : Fin workers) (node : Addr) : State workers :=
  {s.enter w (called handleClient (run (some w) node s.pool).2) with pool := (run (some w) node s.pool).1}

def State.close (s : State workers) (w : Fin workers) (fd : Int) : State workers :=
  {s.enter w .outside with table := Function.update s.table fd none}

-- The steps that need nothing from outside. `fails` is a read of what is no descriptor, and
-- write may send any part of the message or none.
inductive Own (handleClient : Pointer) : State workers → List (Event workers) → State workers → Prop where
  | stores (arg : Pointer) : s.main = .storing fd → s.cells arg = none →
      Own handleClient s [] {s with cells := Function.update s.cells arg (some fd),main := .adding fd arg}
  | allocates (node : Addr) : s.main = .adding fd arg → s.pool.shared.heap node = none →
      Own handleClient s [] {s with
        pool := (s.pool.withHeap (Function.update s.pool.shared.heap node (some ⟨⟨handleClient,arg⟩,none⟩))).goto none (.linking node ⟨handleClient,arg⟩)
        main := .linking fd arg}
  | adds : s.main = .linking fd arg → s.pool.pc none = .linking node task →
      Signals.Step sections s.pool.calls [⟨none,.add node,.returned ret⟩] calls →
      Own handleClient s [.pool (.added none task)] {s with pool := {s.pool with calls := calls}.goto none (afterAdd ret),main := .announcing fd}
  | announces : s.main = .announcing fd → Own handleClient s [.announced fd] {s with main := .accepting}
  | sleeps (w : Fin workers) : s.pool.pc (some w) = .fetching → Signals.Step sections s.pool.calls [⟨some w,.work,.slept⟩] calls →
      Own handleClient s [] {s with pool := {s.pool with calls := calls}}
  | takes (w : Fin workers) : s.pool.pc (some w) = .fetching → Signals.Step sections s.pool.calls [⟨some w,.work,.returned ret⟩] calls →
      Own handleClient s ((taken (some w) ret).map .pool) {s with pool := {s.pool with calls := calls}.goto (some w) (afterWork ret)}
  | begins (w : Fin workers) : s.pool.pc (some w) = .running node task → s.place w = .outside →
      Own handleClient s ((run (some w) node s.pool).2.map .pool) (s.begin handleClient w node)
  | loads (w : Fin workers) : s.place w = .entered arg → Own handleClient s [] (s.load w arg)
  | frees (w : Fin workers) : s.place w = .loaded arg fd → Own handleClient s [] (s.free w arg fd)
  | fails (w : Fin workers) : s.place w = .reading fd → s.table fd = none → Own handleClient s [.dropped w none] (s.enter w (.closing fd))
  | replies (w : Fin workers) (count : Nat) : s.place w = .answering fd →
      Own handleClient s [.replied w (s.table fd) (message.take count)] (s.enter w (.reading fd))
  | closes (w : Fin workers) : s.place w = .closing fd → Own handleClient s [.closed w (s.table fd)] (s.close w fd)
  | returns (w : Fin workers) : s.pool.pc (some w) = .freeing node → s.place w = .outside →
      Own handleClient s [] {s with pool := TaskPool.free (some w) node s.pool}

-- What the clients and the kernel do: a connection on any descriptor that is not in use, an
-- accept that fails, what read returns, and spurious wakeups.
inductive Net : State workers → List (Event workers) → State workers → Prop where
  | accepts (fd : Int) : s.main = .accepting → 0 ≤ fd → s.table fd = none →
      Net s [.accepted fd] {s with table := Function.update s.table fd (some s.accepted),accepted := s.accepted + 1,main := .storing fd}
  | refuses : s.main = .accepting → Net s [.accepted (-1)] {s with accepted := s.accepted + 1,main := .storing (-1)}
  | receives (w : Fin workers) (chunk : List UInt8) : s.place w = .reading fd → s.table fd = some conn → chunk ≠ [] → chunk.length < bufSize →
      Net s [.received w conn chunk] (s.enter w (if exits chunk then .closing fd else .answering fd))
  | hangsUp (w : Fin workers) : s.place w = .reading fd → s.table fd = some conn → Net s [.dropped w (some conn)] (s.enter w (.closing fd))
  | rouses (w : Fin workers) : s.pool.pc (some w) = .fetching → Signals.Step sections s.pool.calls [⟨some w,.work,.roused⟩] calls →
      Net s [] {s with pool := {s.pool with calls := calls}}

def Step (handleClient : Pointer) (s : State workers) (emitted : List (Event workers)) (u : State workers) : Prop :=
  Own handleClient s emitted u ∨ Net s emitted u

def poolLog (log : List (Event workers)) : List (TaskPool.Event (Option (Fin workers))) :=
  log.filterMap (fun event => match event with
    | .pool event => some event
    | _ => none)

-- The descriptor of each connection, and the worker that took it.
def fds (log : List (Event workers)) : List Int :=
  log.filterMap (fun event => match event with
    | .accepted fd => some fd
    | _ => none)

def takers (log : List (Event workers)) : List (Fin workers) :=
  log.filterMap (fun event => match event with
    | .pool (.taken (some w) _) => some w
    | _ => none)

-- What happens on one connection, and by whom.
inductive Talk where
  | heard (chunk : List UInt8)
  | dropped
  | answered (sent : List UInt8)
  | closed

def talk : Event workers → Option (Fin workers × Option Nat × Talk)
  | .received w conn chunk => some (w,some conn,.heard chunk)
  | .dropped w conn => some (w,conn,.dropped)
  | .replied w conn sent => some (w,conn,.answered sent)
  | .closed w conn => some (w,conn,.closed)
  | _ => none

def talks (n : Nat) (log : List (Event workers)) : List (Fin workers × Talk) :=
  log.filterMap (fun event => match talk event with
    | some (w,some m,said) => if m = n then some (w,said) else none
    | _ => none)

-- What one client gets from a server that serves it alone: a reply to each read until it says
-- exit or leaves, and then the end of its connection.
inductive Stage where
  | reading
  | answering
  | closing
  | done

def Stage.next : Stage → Talk → Option Stage
  | .reading,.heard chunk => if chunk = [] ∨ bufSize ≤ chunk.length then none else some (if exits chunk then .closing else .answering)
  | .reading,.dropped => some .closing
  | .answering,.answered sent => if sent <+: message then some .reading else none
  | .closing,.closed => some .done
  | _,_ => none

def Session (said : List Talk) (stage : Stage) : Prop := said.foldlM Stage.next .reading = some stage

end LinuxCoding.TaskPool.Server
