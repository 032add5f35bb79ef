import LinuxCoding.TaskPool.Server

namespace LinuxCoding.TaskPool.Server
open Chain Fifo Signals Transition

-- The client_fd a worker is still to read or to free.
def argument : Pc → Place → Option Pointer
  | .running _ task,.outside => some task.arg
  | _,.entered arg => some arg
  | _,.loaded arg _ => some arg
  | _,_ => none

@[simp] theorem argument_reading (pc : Pc) (fd : Int) : argument pc (.reading fd) = none := by cases pc <;> rfl
@[simp] theorem argument_answering (pc : Pc) (fd : Int) : argument pc (.answering fd) = none := by cases pc <;> rfl
@[simp] theorem argument_closing (pc : Pc) (fd : Int) : argument pc (.closing fd) = none := by cases pc <;> rfl

def Place.descriptor : Place → Option Int
  | .loaded _ fd => some fd
  | .reading fd => some fd
  | .answering fd => some fd
  | .closing fd => some fd
  | _ => none

def Place.stage : Place → Stage
  | .answering _ => .answering
  | .closing _ => .closing
  | _ => .reading

-- Where a worker with a client, or without one, may be, and what it finds in client_fd.
inductive Position (handleClient : Pointer) (cells : Pointer → Option Int) : Option Int → Pc → Place → Prop where
  | fetching : Position handleClient cells none .fetching .outside
  | returned : Position handleClient cells none (.freeing node) .outside
  | running : task.function = handleClient → cells task.arg = some fd → Position handleClient cells (some fd) (.running node task) .outside
  | entered : cells arg = some fd → Position handleClient cells (some fd) (.freeing node) (.entered arg)
  | loaded : cells arg = some fd → Position handleClient cells (some fd) (.freeing node) (.loaded arg fd)
  | reading : Position handleClient cells (some fd) (.freeing node) (.reading fd)
  | answering : Position handleClient cells (some fd) (.freeing node) (.answering fd)
  | closing : Position handleClient cells (some fd) (.freeing node) (.closing fd)

theorem Position.frame (position : Position handleClient cells client pc place)
    (same : ∀ arg, argument pc place = some arg → after arg = cells arg) : Position handleClient after client pc place := by
  cases position with
  | fetching => exact .fetching
  | returned => exact .returned
  | running function stored => exact .running function ((same _ rfl).trans stored)
  | entered stored => exact .entered ((same _ rfl).trans stored)
  | loaded stored => exact .loaded ((same _ rfl).trans stored)
  | reading => exact .reading
  | answering => exact .answering
  | closing => exact .closing

theorem Position.live (position : Position handleClient cells client pc place) (uses : argument pc place = some arg) : ∃ fd, cells arg = some fd := by
  cases position with
  | running _ stored | entered stored | loaded stored =>
    cases uses
    exact ⟨_,stored⟩
  | fetching | returned | reading | answering | closing => cases uses

theorem Position.safe (position : Position handleClient cells client pc place) : place ≠ .crashed := by
  rintro rfl
  cases position

theorem Position.serves (position : Position handleClient cells client pc place) (on : place.descriptor = some fd) : client = some fd := by
  cases position with
  | loaded | reading | answering | closing => exact on
  | fetching | returned | running | entered => cases on

theorem Position.onward (position : Position handleClient cells client pc place) (comes : place = .reading fd ∨ place = .answering fd)
    (goes : after = .reading fd ∨ after = .answering fd ∨ after = .closing fd) : Position handleClient cells (some fd) pc after := by
  have freeing : ∃ node, pc = .freeing node := by
    rcases comes with rfl | rfl <;> (cases position; exact ⟨_,rfl⟩)
  obtain ⟨node,rfl⟩ := freeing
  rcases goes with rfl | rfl | rfl
  · exact .reading
  · exact .answering
  · exact .closing

-- The arguments main has made and no worker has taken with its task, and the descriptor that
-- main has not stored yet.
def Main.owed : Main → List Pointer
  | .adding _ arg => [arg]
  | .linking _ arg => [arg]
  | _ => []

def Main.fresh : Main → List Int
  | .storing fd => [fd]
  | _ => []

def Main.At (handleClient : Pointer) (pc : Pc) : Main → Prop
  | .linking _ arg => ∃ node, pc = .linking node ⟨handleClient,arg⟩
  | _ => pc = .idle

def owed (queue : List TaskT) (main : Main) : List Pointer := queue.map TaskT.arg ++ main.owed

variable {workers : Nat}

def Queued (log : List (TaskPool.Event (Option (Fin workers)))) (pool : TaskPool.State (Option (Fin workers))) (queue : List TaskT) : Prop :=
  ∃ nodes, tasks nodes = queue ∧ Lawful log pool nodes

theorem queued_step {pool after : TaskPool.State (Option (Fin workers))} (queued : Queued log pool queue)
    (step : TaskPool.Step pool emitted after) : ∃ rest, Queued (log ++ emitted) after rest ∧ takenBy (moves emitted) ++ rest = queue ++ putBy (moves emitted) := by
  obtain ⟨nodes,rfl,lawful⟩ := queued
  obtain ⟨rest,path,kept⟩ := step_lawful lawful step
  exact ⟨_,⟨rest,rfl,kept⟩,runs_balance path⟩

theorem queued_silent {pool after : TaskPool.State (Option (Fin workers))} (queued : Queued log pool queue)
    (step : TaskPool.Step pool [] after) : Queued log after queue := by
  obtain ⟨rest,kept,same⟩ := queued_step queued step
  rw [List.append_nil] at kept
  have same : rest = queue := same.trans (List.append_nil _)
  rwa [← same]

theorem queued_adds {pool : TaskPool.State (Option (Fin workers))} (queued : Queued log pool queue) (at_ : pc = .linking node task) (own : pool.pc t = pc)
    (section_ : Signals.Step sections pool.calls [⟨t,.add node,.returned ret⟩] calls) : ret = .void := by
  obtain ⟨nodes,-,lawful⟩ := queued
  cases section_ with
  | leave => exact (add_shape lawful.shape (own.trans at_) (fun _ => .outside)).1

theorem queued_takes {pool : TaskPool.State (Option (Fin workers))} (queued : Queued log pool queue)
    (section_ : Signals.Step sections pool.calls [⟨t,.work,.returned ret⟩] calls) : ∃ node task rest, queue = task :: rest ∧ ret = .took node task := by
  obtain ⟨nodes,rfl,lawful⟩ := queued
  cases section_ with
  | leave _ _ ready passes notified =>
    obtain ⟨node,task,rest,rfl,took,-⟩ := take_shape lawful.shape t passes (fun _ => .outside)
    exact ⟨node,task,_,rfl,took⟩

-- A connection is open until the worker that took it has closed it.
def Open (hold : Fin workers → Option Nat) (log : List (Event workers)) (n : Nat) : Prop := (takers log).length ≤ n ∨ ∃ w, hold w = some n

-- `hold` is the connection each worker serves.
structure Serving (handleClient : Pointer) (log : List (Event workers)) (s : State workers) (queue : List TaskT) (hold : Fin workers → Option Nat) : Prop where
  queued : Queued (poolLog log) s.pool queue
  count : s.accepted = (fds log).length
  handing : s.main.At handleClient (s.pool.pc none)
  function : ∀ task ∈ queue, task.function = handleClient
  few : (takers log).length ≤ (fds log).length
  waiting : (owed queue s.main).map s.cells ++ s.main.fresh.map some = ((fds log).drop (takers log).length).map some
  apart : (owed queue s.main).Nodup
  posts : ∀ w, Position handleClient s.cells ((hold w).bind fun n => (fds log)[n]?) (s.pool.pc (some w)) (s.place w)
  own : ∀ w arg, argument (s.pool.pc (some w)) (s.place w) = some arg → arg ∉ owed queue s.main ∧
    ∀ v, argument (s.pool.pc (some v)) (s.place v) = some arg → v = w
  mine : ∀ w n, hold w = some n → (takers log)[n]? = some w
  table : ∀ fd n, s.table fd = some n ↔ 0 ≤ fd ∧ (fds log)[n]? = some fd ∧ Open hold log n

-- What is said on a connection is what its worker says, and a session so far.
structure Spoken (log : List (Event workers)) (s : State workers) (hold : Fin workers → Option Nat) : Prop where
  speaker : ∀ n, ∀ said ∈ talks n log, (takers log)[n]? = some said.1
  held : ∀ w n, hold w = some n → ∀ fd, (fds log)[n]? = some fd → 0 ≤ fd → Session ((talks n log).map Prod.snd) (s.place w).stage
  done : ∀ n, n < (takers log).length → (∀ w, hold w ≠ some n) → ∀ fd, (fds log)[n]? = some fd → 0 ≤ fd → Session ((talks n log).map Prod.snd) .done

@[simp] theorem poolLog_append (log emitted : List (Event workers)) : poolLog (log ++ emitted) = poolLog log ++ poolLog emitted := List.filterMap_append

@[simp] theorem fds_append (log emitted : List (Event workers)) : fds (log ++ emitted) = fds log ++ fds emitted := List.filterMap_append

@[simp] theorem takers_append (log emitted : List (Event workers)) : takers (log ++ emitted) = takers log ++ takers emitted := List.filterMap_append

@[simp] theorem talks_append (n : Nat) (log emitted : List (Event workers)) : talks n (log ++ emitted) = talks n log ++ talks n emitted := List.filterMap_append

theorem Session.says (session : Session said stage) (next : stage.next word = some after) : Session (said ++ [word]) after := by
  rw [Session,List.foldlM_append,session]
  change (do List.foldlM Stage.next stage [word]) = some after
  rw [List.foldlM_cons,next]
  rfl

section
variable {handleClient : Pointer} {log emitted : List (Event workers)} {s u : State workers} {queue : List TaskT} {hold : Fin workers → Option Nat} {w : Fin workers}

theorem Serving.live (serving : Serving handleClient log s queue hold) (listed : arg ∈ owed queue s.main) : ∃ fd, s.cells arg = some fd := by
  have stored : s.cells arg ∈ ((fds log).drop (takers log).length).map some := by
    rw [← serving.waiting]
    exact List.mem_append_left _ (List.mem_map_of_mem listed)
  obtain ⟨fd,-,same⟩ := List.mem_map.mp stored
  exact ⟨fd,same.symm⟩

theorem Serving.used (serving : Serving handleClient log s queue hold) (held : hold w = some n) : n < (takers log).length :=
  (List.getElem?_eq_some_iff.mp (serving.mine w n held)).1

theorem Serving.alone (serving : Serving handleClient log s queue hold) (left : hold v = some n) (right : hold w = some n) : v = w :=
  Option.some.inj ((serving.mine v n left).symm.trans (serving.mine w n right))

-- A worker that has a descriptor has the connection behind it, unless accept had failed.
theorem Serving.client (serving : Serving handleClient log s queue hold) (on : (s.place w).descriptor = some fd) :
    ∃ n, hold w = some n ∧ (fds log)[n]? = some fd ∧ ∀ m, s.table fd = some m ↔ 0 ≤ fd ∧ m = n := by
  have client := (serving.posts w).serves on
  obtain ⟨n,held,stored⟩ := Option.bind_eq_some_iff.mp client
  refine ⟨n,held,stored,fun m => ⟨fun behind => ?_,?_⟩⟩
  · obtain ⟨valid,-,-⟩ := (serving.table fd m).mp behind
    have same := (serving.table fd n).mpr ⟨valid,stored,.inr ⟨w,held⟩⟩
    rw [behind] at same
    exact ⟨valid,Option.some.inj same⟩
  · rintro ⟨valid,rfl⟩
    exact (serving.table fd m).mpr ⟨valid,stored,.inr ⟨w,held⟩⟩

theorem Spoken.unspoken (spoken : Spoken log s hold) (later : (takers log).length ≤ n) : talks n log = [] := by
  rw [List.eq_nil_iff_forall_not_mem]
  intro said member
  have taken := spoken.speaker n said member
  rw [List.getElem?_eq_none later] at taken
  cases taken

-- Nothing is said, and what the workers do with their clients is where it was.
theorem Spoken.silent (spoken : Spoken log s hold) (serving : Serving handleClient log s queue hold) (none : ∀ n, talks n emitted = [])
    (untaken : takers emitted = []) (stages : ∀ w n fd, hold w = some n → (fds log)[n]? = some fd → 0 ≤ fd → (u.place w).stage = (s.place w).stage) : Spoken (log ++ emitted) u hold := by
  have early : ∀ n, n < (takers log).length → (fds (log ++ emitted))[n]? = (fds log)[n]? := by
    intro n before
    rw [fds_append,List.getElem?_append_left (Nat.lt_of_lt_of_le before serving.few)]
  refine ⟨?_,?_,?_⟩
  · intro n said member
    rw [talks_append,none,List.append_nil] at member
    rw [takers_append,untaken,List.append_nil]
    exact spoken.speaker n said member
  · intro w n held fd stored valid
    rw [early n (serving.used held)] at stored
    rw [talks_append,none,List.append_nil,stages w n fd held stored valid]
    exact spoken.held w n held fd stored valid
  · intro n before unheld fd stored valid
    rw [takers_append,untaken,List.append_nil] at before
    rw [early n before] at stored
    rw [talks_append,none,List.append_nil]
    exact spoken.done n before unheld fd stored valid

-- One worker goes on with its client, and no other can tell.
theorem Serving.moves (serving : Serving handleClient log s queue hold) (queued : Queued (poolLog (log ++ emitted)) pool queue)
    (moved : pool.pc = Function.update s.pool.pc (some w) pc) (none : fds emitted = []) (untaken : takers emitted = [])
    (position : Position handleClient cells ((hold w).bind fun n => (fds log)[n]?) pc place)
    (same : ∀ arg, argument (s.pool.pc (some w)) (s.place w) ≠ some arg → cells arg = s.cells arg)
    (uses : ∀ arg, argument pc place = some arg → argument (s.pool.pc (some w)) (s.place w) = some arg) :
    Serving handleClient (log ++ emitted) {s.enter w place with pool := pool,cells := cells} queue hold := by
  have kept : ∀ v arg, argument (pool.pc (some v)) ((s.enter w place).place v) = some arg → argument (s.pool.pc (some v)) (s.place v) = some arg := by
    intro v arg used
    by_cases own : v = w
    · subst own
      simp only [moved,State.enter,Function.update_self] at used
      exact uses arg used
    · have other : some v ≠ some w := fun same => own (Option.some.inj same)
      simpa only [moved,State.enter,Function.update_of_ne own,Function.update_of_ne other] using used
  have outside : ∀ arg ∈ owed queue s.main, cells arg = s.cells arg :=
    fun arg listed => same arg (fun used => (serving.own w arg used).1 listed)
  refine ⟨queued,?_,?_,serving.function,?_,?_,serving.apart,?_,?_,?_,?_⟩
  · rw [fds_append,none,List.append_nil]
    exact serving.count
  · change s.main.At handleClient (pool.pc Option.none)
    rw [moved,Function.update_of_ne (Option.some_ne_none w).symm]
    exact serving.handing
  · rw [fds_append,none,takers_append,untaken,List.append_nil,List.append_nil]
    exact serving.few
  · rw [fds_append,none,takers_append,untaken,List.append_nil,List.append_nil]
    have mapped : (owed queue s.main).map cells = (owed queue s.main).map s.cells := List.map_congr_left outside
    change (owed queue s.main).map cells ++ _ = _
    rw [mapped]
    exact serving.waiting
  · intro v
    rw [fds_append,none,List.append_nil]
    by_cases own : v = w
    · subst own
      simpa only [moved,State.enter,Function.update_self] using position
    · have other : some v ≠ some w := fun same => own (Option.some.inj same)
      simp only [moved,State.enter,Function.update_of_ne own,Function.update_of_ne other]
      refine (serving.posts v).frame (fun arg used => same arg (fun mine => own ?_))
      exact (serving.own w arg mine).2 v used
  · intro v arg used
    obtain ⟨unlisted,only⟩ := serving.own v arg (kept v arg used)
    exact ⟨unlisted,fun x also => only x (kept x arg also)⟩
  · intro v n held
    rw [takers_append,untaken,List.append_nil]
    exact serving.mine v n held
  · intro fd n
    rw [fds_append,none,List.append_nil,Open,takers_append,untaken,List.append_nil]
    exact serving.table fd n

theorem Serving.handles (serving : Serving handleClient log s queue hold) (pooled : poolLog emitted = []) (none : fds emitted = []) (untaken : takers emitted = [])
    (position : Position handleClient cells ((hold w).bind fun n => (fds log)[n]?) (s.pool.pc (some w)) place)
    (same : ∀ arg, argument (s.pool.pc (some w)) (s.place w) ≠ some arg → cells arg = s.cells arg)
    (uses : ∀ arg, argument (s.pool.pc (some w)) place = some arg → argument (s.pool.pc (some w)) (s.place w) = some arg) :
    Serving handleClient (log ++ emitted) {s.enter w place with cells := cells} queue hold := by
  refine serving.moves ?_ (Function.update_eq_self _ _).symm none untaken position same uses
  rw [poolLog_append,pooled,List.append_nil]
  exact serving.queued

-- A worker says something on its connection.
theorem Spoken.says (spoken : Spoken log s hold) (serving : Serving handleClient log s queue hold) (held : hold w = some n)
    (mine : talks n emitted = [(w,word)]) (others : ∀ m, m ≠ n → talks m emitted = []) (none : fds emitted = []) (untaken : takers emitted = [])
    (next : (s.place w).stage.next word = some place.stage) : Spoken (log ++ emitted) (s.enter w place) hold := by
  refine ⟨?_,?_,?_⟩
  · intro m said member
    rw [takers_append,untaken,List.append_nil]
    rw [talks_append] at member
    by_cases here : m = n
    · subst here
      rw [mine] at member
      rcases List.mem_append.mp member with before | new
      · exact spoken.speaker m said before
      · rw [List.mem_singleton.mp new]
        exact serving.mine w m held
    · rw [others m here,List.append_nil] at member
      exact spoken.speaker m said member
  · intro v m owns fd stored valid
    rw [fds_append,none,List.append_nil] at stored
    have before := spoken.held v m owns fd stored valid
    by_cases own : v = w
    · subst own
      obtain rfl : m = n := Option.some.inj (owns.symm.trans held)
      simp only [State.enter,Function.update_self]
      rw [talks_append,mine,List.map_append]
      exact before.says next
    · have apart : m ≠ n := by
        rintro rfl
        exact own (serving.alone owns held)
      simp only [State.enter,Function.update_of_ne own]
      rw [talks_append,others m apart,List.append_nil]
      exact before
  · intro m before unheld fd stored valid
    rw [takers_append,untaken,List.append_nil] at before
    rw [fds_append,none,List.append_nil] at stored
    have apart : m ≠ n := by
      rintro rfl
      exact unheld w held
    rw [talks_append,others m apart,List.append_nil]
    exact spoken.done m before unheld fd stored valid

-- A read, a reply, or what ends the session: the worker keeps its descriptor.
theorem speaks (serving : Serving handleClient log s queue hold) (spoken : Spoken log s hold)
    (comes : s.place w = .reading fd ∨ s.place w = .answering fd) (goes : place = .reading fd ∨ place = .answering fd ∨ place = .closing fd)
    (word : talk event = some (w,s.table fd,said)) (next : (s.place w).stage.next said = some place.stage) :
    Serving handleClient (log ++ [event]) (s.enter w place) queue hold ∧ Spoken (log ++ [event]) (s.enter w place) hold := by
  have on : (s.place w).descriptor = some fd := by
    rcases comes with at_ | at_ <;> simp [at_,Place.descriptor]
  obtain ⟨n,held,stored,behind⟩ := serving.client on
  have views : poolLog [event] = [] ∧ fds [event] = [] ∧ takers [event] = [] := by
    cases event with
    | accepted | announced | pool => cases word
    | received | dropped | replied | closed => exact ⟨rfl,rfl,rfl⟩
  have client : ((hold w).bind fun n => (fds log)[n]?) = some fd := by rw [held]; exact stored
  refine ⟨?_,?_⟩
  · refine serving.handles views.1 views.2.1 views.2.2 ?_ (fun _ _ => rfl) (fun arg used => ?_)
    · have position := serving.posts w
      rw [client] at position ⊢
      exact position.onward comes goes
    · rcases goes with rfl | rfl | rfl <;> simp at used
  · cases number : s.table fd with
    | some m =>
      obtain ⟨valid,rfl⟩ := (behind m).mp number
      refine spoken.says serving held ?_ (fun m other => ?_) views.2.1 views.2.2 next
      · simp [talks,word,number]
      · simp [talks,word,number,Ne.symm other]
    | none =>
      refine spoken.silent serving (fun m => by simp [talks,word,number]) views.2.2 ?_
      intro v m fd' owns stored' valid
      by_cases own : v = w
      · subst own
        obtain rfl : m = n := Option.some.inj (owns.symm.trans held)
        obtain rfl : fd' = fd := Option.some.inj (stored'.symm.trans stored)
        have known := (behind m).mpr ⟨valid,rfl⟩
        rw [number] at known
        cases known
      · simp only [State.enter,Function.update_of_ne own]

end
end LinuxCoding.TaskPool.Server
