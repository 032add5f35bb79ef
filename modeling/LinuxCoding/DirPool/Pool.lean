import LinuxCoding.DirPool.Fifo
import LinuxCoding.DirPool.Workers

-- The pool with its queue as a list and without condition variables: a worker that would
-- wait has no step.
namespace LinuxCoding.DirPool
open Signals Transition

structure Pool where
  tasks : List Task
  done : Bool
  main : MainPlace
  place : Worker → Place
  counts : Counts

def Pool.go (p : Pool) (w : Worker) (place : Place) : Pool := {p with place := Function.update p.place w place}

def begin (task : Task) : Pool := ⟨[],false,.starting task,fun _ => .dequeuing,⟨0,0,0⟩⟩

def stored (t : Thread) (task : Task) : Event := .call ⟨t,.enqueueTask task,.returned .stored⟩
def freed (t : Thread) (task : Task) : Event := .call ⟨t,.enqueueTask task,.returned .freed⟩
def taken (t : Thread) (task : Option Task) : Event := .call ⟨t,.dequeueTask,.returned (.path task)⟩

-- The steps that change something.
inductive Pool.Move : Pool → List Event → Pool → Prop where
  | first (task : Task) : Move (begin task) [stored none task] {begin task with tasks := [task],main := .looking}
  | store (p : Pool) (w : Worker) (dirName : Path) (task : Task) (rest : Listing) :
      p.place w = .enqueuing dirName task rest → p.tasks.length < queueMax →
      Move p [stored w task] {p.go w (.scanning dirName rest) with tasks := p.tasks ++ [task]}
  | free (p : Pool) (w : Worker) (dirName : Path) (task : Task) (rest : Listing) :
      p.place w = .enqueuing dirName task rest → queueMax ≤ p.tasks.length → p.done = true →
      Move p [freed w task] (p.go w (.scanning dirName rest))
  | take (p : Pool) (w : Worker) (task : Task) (tasks : List Task) : p.place w = .dequeuing → p.tasks = task :: tasks →
      Move p [taken w (some task)] {p.go w (.opening task) with tasks := tasks}
  | quit (p : Pool) (w : Worker) : p.place w = .dequeuing → p.tasks = [] → p.done = true →
      Move p [taken w none] (p.go w .exited)
  | work (p : Pool) (w : Worker) (place : Place) (counts : Counts) (emitted : List Event) :
      DirPool.work p.counts (p.place w) = some (place,counts,emitted) → Move p emitted {p.go w place with counts := counts}
  | look (p : Pool) : p.main = .looking → p.tasks = [] → Move p [] {p with main := .confirming}
  | confirm (p : Pool) : p.main = .confirming → p.tasks = [] → Move p [] {p with main := .finishing}
  | finish (p : Pool) : p.main = .finishing →
      Move p [.call ⟨none,.setDone,.returned .void⟩] {p with main := .joining,done := true}

inductive Pool.Step : Pool → List Event → Pool → Prop where
  | move (p after : Pool) (emitted : List Event) : Move p emitted after → Step p emitted after
  | wait (p : Pool) (t : Thread) (op : Op Task) (outcome : Outcome (Ret Task)) : (∀ ret, outcome ≠ .returned ret) →
      Step p [.call ⟨t,op,outcome⟩] p
  | again (p : Pool) : p.main = .looking → p.tasks ≠ [] → Step p [] p
  | refute (p : Pool) : p.main = .confirming → p.tasks ≠ [] → Step p [] {p with main := .looking}

-- A state shows a pool when the ring holds its tasks; before main's first call nothing
-- has happened.
structure Shows (s : State) (p : Pool) : Prop where
  ring : Ring s.calls.shared p.tasks
  done : s.calls.shared.doneFlag = p.done
  main : s.main = p.main
  place : s.place = p.place
  counts : s.counts = p.counts
  fresh : ∀ task, p.main = .starting task → p = begin task

theorem start_shows (task : Task) : Shows (start task) (begin task) := by
  refine ⟨empty_ring,rfl,rfl,rfl,rfl,?_⟩
  intro other same
  cases same
  rfl

theorem Ring.count {q : TaskQueue α} (ring : Ring q paths) : q.queueCount = paths.length := by
  have size := congrArg List.length ring.holds
  have low := ring.low
  simp only [slots,Fifo.window,List.length_map,List.length_range] at size
  omega

theorem ring_empty {s : State} (ring : Ring s.calls.shared tasks) : s.empty = true ↔ tasks = [] := by
  rw [State.empty,ring.count,decide_eq_true_eq,← List.length_eq_zero_iff]
  exact Int.natCast_eq_zero

theorem begin_moves {after : Pool} (move : Pool.Move (begin task) emitted after) :
    after = {begin task with tasks := [task],main := .looking} := by
  cases move with
  | first => rfl
  | store _ w dirName other rest here => cases here
  | free _ w dirName other rest here => cases here
  | take _ w other tasks here front => cases front
  | quit _ w here drained done => cases done
  | work _ w place counts emitted worked => cases worked
  | look _ looking => cases looking
  | confirm _ confirming => cases confirming
  | finish _ finishing => cases finishing

theorem move_fresh {p after : Pool} (fresh : ∀ task, p.main = .starting task → p = begin task)
    (move : Pool.Move p emitted after) : ∀ task, after.main = .starting task → after = begin task := by
  intro task starting
  have before : p.main = .starting task := by
    cases move with
    | first | look | confirm | finish => cases starting
    | store | free | take | quit | work => exact starting
  rw [fresh task before] at move
  rw [begin_moves move] at starting
  cases starting

-- A call of thread t that does not wait any more.
def State.leaves (s : State) (t : Thread) (op : Op Task) (status : Thread → Status (Op Task)) : State :=
  State.resume {s with calls := ⟨((queue Task).leave op s.calls.shared).shared,status⟩} t
    (.returned ((queue Task).leave op s.calls.shared).ret)

section
variable {s : State} {p : Pool} (status : Thread → Status (Op Task))

theorem first_shows (shown : Shows s (begin task)) :
    ((queue Task).leave (.enqueueTask task) s.calls.shared).ret = .stored ∧
      Shows (s.leaves none (.enqueueTask task) status) {begin task with tasks := [task],main := .looking} := by
  have count := shown.ring.count
  rcases enqueue_cases task s.calls.shared with ⟨room,_,kept,ret,_⟩ | ⟨full,_⟩
  · refine ⟨ret,enqueue_ring task shown.ring room,kept.trans shown.done,?_,shown.place,shown.counts,nofun⟩
    simp [State.leaves,State.resume,shown.main,begin,MainPlace.resume]
  · simp only [begin,List.length_nil,queueMax] at count full
    omega

theorem store_shows (shown : Shows s p) (here : p.place w = .enqueuing dirName task rest) (room : p.tasks.length < queueMax) :
    ((queue Task).leave (.enqueueTask task) s.calls.shared).ret = .stored ∧
      Shows (s.leaves (some w) (.enqueueTask task) status) {p.go w (.scanning dirName rest) with tasks := p.tasks ++ [task]} := by
  have count := shown.ring.count
  rcases enqueue_cases task s.calls.shared with ⟨room,_,kept,ret,_⟩ | ⟨full,_⟩
  · refine ⟨ret,enqueue_ring task shown.ring room,kept.trans shown.done,shown.main,?_,shown.counts,?_⟩
    · simp [State.leaves,State.resume,State.go,Pool.go,Place.resume,shown.place,here]
    · exact move_fresh shown.fresh (.store p w dirName task rest here ‹_›)
  · omega

theorem free_shows (shown : Shows s p) (here : p.place w = .enqueuing dirName task rest) (full : queueMax ≤ p.tasks.length)
    (done : p.done = true) : ((queue Task).leave (.enqueueTask task) s.calls.shared).ret = .freed ∧
      Shows (s.leaves (some w) (.enqueueTask task) status) (p.go w (.scanning dirName rest)) := by
  have count := shown.ring.count
  have same : (queue Task).leave (.enqueueTask task) s.calls.shared = ⟨s.calls.shared,.freed,.silent⟩ :=
    full_enqueue task (by omega)
  refine ⟨by rw [same],?_,?_,shown.main,?_,shown.counts,move_fresh shown.fresh (.free p w dirName task rest here full done)⟩
  · simpa only [State.leaves,same] using! shown.ring
  · simpa only [State.leaves,same] using! shown.done
  · simp [State.leaves,State.resume,State.go,Pool.go,Place.resume,shown.place,here]

theorem take_shows (shown : Shows s p) (here : p.place w = .dequeuing) (front : p.tasks = task :: tasks) :
    ((queue Task).leave .dequeueTask s.calls.shared).ret = .path (some task) ∧
      Shows (s.leaves (some w) .dequeueTask status) {p.go w (.opening task) with tasks := tasks} := by
  have count := shown.ring.count
  rw [front,List.length_cons] at count
  obtain ⟨first,others,same,ret,after⟩ := dequeue_ring shown.ring (by omega)
  obtain ⟨rfl,rfl⟩ := List.cons.inj (front.symm.trans same)
  rcases dequeue_cases s.calls.shared with ⟨_,_,kept,_⟩ | ⟨none,_⟩
  · refine ⟨ret,after,kept.trans shown.done,shown.main,?_,shown.counts,move_fresh shown.fresh (.take p w task tasks here front)⟩
    simp [State.leaves,queue,ret,State.resume,State.go,Pool.go,Place.resume,shown.place,here]
  · omega

theorem quit_shows (shown : Shows s p) (here : p.place w = .dequeuing) (drained : p.tasks = []) (done : p.done = true) :
    ((queue Task).leave .dequeueTask s.calls.shared).ret = .path none ∧
      Shows (s.leaves (some w) .dequeueTask status) (p.go w .exited) := by
  have count := shown.ring.count
  rw [drained,List.length_nil] at count
  have same : (queue Task).leave .dequeueTask s.calls.shared = ⟨s.calls.shared,.path none,.silent⟩ := empty_dequeue (by omega)
  refine ⟨by rw [same],?_,?_,shown.main,?_,shown.counts,move_fresh shown.fresh (.quit p w here drained done)⟩
  · simpa only [State.leaves,same] using! shown.ring
  · simpa only [State.leaves,same] using! shown.done
  · simp [State.leaves,same,State.resume,State.go,Pool.go,Place.resume,shown.place,here]

theorem finish_shows (shown : Shows s p) (finishing : p.main = .finishing) :
    Shows (s.leaves none .setDone status) {p with main := .joining,done := true} := by
  refine ⟨⟨shown.ring.low,shown.ring.high,shown.ring.rear,shown.ring.holds⟩,rfl,?_,shown.place,shown.counts,nofun⟩
  simp [State.leaves,State.resume,shown.main,finishing,MainPlace.resume]

theorem call_shows (shown : Shows s p) (calling : s.op t = some op) (passes : (queue Task).waits op s.calls.shared = false) :
    ∃ q, Pool.Move p [.call ⟨t,op,.returned ((queue Task).leave op s.calls.shared).ret⟩] q ∧ Shows (s.leaves t op status) q := by
  have count := shown.ring.count
  cases t with
  | none =>
    cases main : s.main with
    | looking | confirming | joining => simp [State.op,main,MainPlace.op] at calling
    | starting task =>
      obtain rfl : .enqueueTask task = op := by simpa [State.op,main,MainPlace.op] using calling
      obtain rfl := shown.fresh task (shown.main.symm.trans main)
      obtain ⟨ret,after⟩ := first_shows status shown
      exact ⟨_,by rw [ret]; exact .first task,after⟩
    | finishing =>
      obtain rfl : .setDone = op := by simpa [State.op,main,MainPlace.op] using calling
      have finishing := shown.main.symm.trans main
      exact ⟨_,.finish p finishing,finish_shows status shown finishing⟩
  | some w =>
    cases place : s.place w with
    | opening | scanning | counting | exited => simp [State.op,place,Place.op] at calling
    | dequeuing =>
      obtain rfl : .dequeueTask = op := by simpa [State.op,place,Place.op] using calling
      rw [shown.place] at place
      cases tasks : p.tasks with
      | nil =>
        have done : p.done = true := by
          simpa [queue,dequeueWaits,count,tasks,shown.done] using passes
        obtain ⟨ret,after⟩ := quit_shows status shown place tasks done
        exact ⟨_,by rw [ret]; exact .quit p w place tasks done,after⟩
      | cons task others =>
        obtain ⟨ret,after⟩ := take_shows status shown place tasks
        exact ⟨_,by rw [ret]; exact .take p w task others place tasks,after⟩
    | enqueuing dirName task rest =>
      obtain rfl : .enqueueTask task = op := by simpa [State.op,place,Place.op] using calling
      rw [shown.place] at place
      by_cases room : p.tasks.length < queueMax
      · obtain ⟨ret,after⟩ := store_shows status shown place room
        exact ⟨_,by rw [ret]; exact .store p w dirName task rest place room,after⟩
      · have full : queueMax ≤ p.tasks.length := Nat.le_of_not_lt room
        have done : p.done = true := by
          simpa [queue,enqueueWaits,count,full,shown.done] using passes
        obtain ⟨ret,after⟩ := free_shows status shown place full done
        exact ⟨_,by rw [ret]; exact .free p w dirName task rest place full done,after⟩

theorem work_shows {next : Place} (shown : Shows s p) (worked : work s.counts (s.place w) = some (next,counts,emitted)) :
    Pool.Move p emitted {p.go w next with counts := counts} ∧
      Shows {s.go w next with counts := counts} {p.go w next with counts := counts} := by
  rw [shown.counts,shown.place] at worked
  have move := Pool.Move.work p w next counts emitted worked
  refine ⟨move,shown.ring,shown.done,shown.main,?_,rfl,move_fresh shown.fresh move⟩
  simp [State.go,Pool.go,shown.place]

theorem look_shows (shown : Shows s p) (looking : s.main = .looking) (drained : p.tasks = []) :
    Pool.Move p [] {p with main := .confirming} ∧
      Shows {s with main := if s.empty then .confirming else .looking} {p with main := .confirming} := by
  have empty : s.empty = true := (ring_empty shown.ring).mpr drained
  refine ⟨.look p (shown.main.symm.trans looking) drained,shown.ring,shown.done,?_,shown.place,shown.counts,nofun⟩
  simp [empty]

theorem confirm_shows (shown : Shows s p) (confirming : s.main = .confirming) (drained : p.tasks = []) :
    Pool.Move p [] {p with main := .finishing} ∧
      Shows {s with main := if s.empty then .finishing else .looking} {p with main := .finishing} := by
  have empty : s.empty = true := (ring_empty shown.ring).mpr drained
  refine ⟨.confirm p (shown.main.symm.trans confirming) drained,shown.ring,shown.done,?_,shown.place,shown.counts,nofun⟩
  simp [empty]

end

-- Each step of the code is one of the pool with its list.
theorem step_shows {s after : State} {p : Pool} (shown : Shows s p) (step : Step s emitted after) :
    ∃ q, Pool.Step p emitted q ∧ Shows after q := by
  cases step with
  | call t op outcome calls calling taken =>
    cases taken with
    | sleep =>
      have stays : ∀ moved : State, moved.resume t .slept = moved := by cases t <;> exact fun _ => rfl
      rw [stays]
      exact ⟨p,.wait p t op .slept nofun,shown.ring,shown.done,shown.main,shown.place,shown.counts,shown.fresh⟩
    | rouse =>
      have stays : ∀ moved : State, moved.resume t .roused = moved := by cases t <;> exact fun _ => rfl
      rw [stays]
      exact ⟨p,.wait p t op .roused nofun,shown.ring,shown.done,shown.main,shown.place,shown.counts,shown.fresh⟩
    | leave _ _ ready passes notified =>
      obtain ⟨q,move,after⟩ := call_shows _ shown calling passes
      exact ⟨q,.move p q _ move,after⟩
  | work w next counts emitted worked =>
    obtain ⟨move,after⟩ := work_shows shown worked
    exact ⟨_,.move p _ _ move,after⟩
  | look looking =>
    by_cases drained : p.tasks = []
    · obtain ⟨move,after⟩ := look_shows shown looking drained
      exact ⟨_,.move p _ _ move,after⟩
    · have more : ¬s.empty = true := fun empty => drained ((ring_empty shown.ring).mp empty)
      rw [if_neg more,← looking]
      exact ⟨p,.again p (shown.main.symm.trans looking) drained,shown⟩
  | confirm confirming =>
    by_cases drained : p.tasks = []
    · obtain ⟨move,after⟩ := confirm_shows shown confirming drained
      exact ⟨_,.move p _ _ move,after⟩
    · have more : ¬s.empty = true := fun empty => drained ((ring_empty shown.ring).mp empty)
      rw [if_neg more]
      exact ⟨_,.refute p (shown.main.symm.trans confirming) drained,shown.ring,shown.done,rfl,shown.place,shown.counts,nofun⟩

theorem run_shows {s : State} (run : Runs Step (start task) log s) : ∃ p, Runs Pool.Step (begin task) log p ∧ Shows s p := by
  have matched : ∀ s p emitted after, Shows s p → Step s emitted after → ∃ q, Runs Pool.Step p (id emitted) q ∧ Shows after q := by
    intro s p emitted after shown step
    obtain ⟨q,taken,later⟩ := step_shows shown step
    exact ⟨q,.one taken,later⟩
  exact run.simulation (f := id) (R := Shows) rfl (fun _ _ => rfl) matched (start_shows task)

-- main joins once the flag is set, and workers leave only then and only an empty queue.
structure Pool.Sound (p : Pool) : Prop where
  joining : p.done = true → p.main = .joining
  joined : p.main = .joining → p.done = true
  quitting : ∀ w, p.place w = .exited → p.done = true
  drained : (∀ w, p.place w = .exited) → p.tasks = []

theorem work_stays {place next : Place} (worked : work counts place = some (next,after,emitted)) : next ≠ .exited := by
  cases work_works worked <;> exact Place.noConfusion

theorem work_quiet {place next : Place} (worked : work counts place = some (next,after,emitted)) : .call event ∉ emitted := by
  cases work_works worked <;> simp

-- A worker that goes on working has not left, and nobody else has moved.
theorem go_sound {p q : Pool} (sound : p.Sound) (stays : place ≠ .exited) (moved : q.place = Function.update p.place w place)
    (main : q.main = p.main) (done : q.done = p.done) : q.Sound := by
  have before : ∀ k, q.place k = .exited → p.place k = .exited := by
    intro k out
    rw [moved] at out
    by_cases same : k = w
    · subst same
      rw [Function.update_self] at out
      exact absurd out stays
    · rwa [Function.update_of_ne same] at out
  refine ⟨by rw [main,done]; exact sound.joining,by rw [main,done]; exact sound.joined,?_,?_⟩
  · intro k out
    rw [done]
    exact sound.quitting k (before k out)
  · intro out
    have here := out w
    rw [moved,Function.update_self] at here
    exact absurd here stays

theorem main_sound {p : Pool} {main : MainPlace} (sound : p.Sound) (before : p.main ≠ .joining) (after : main ≠ .joining) :
    ({p with main := main} : Pool).Sound :=
  ⟨fun done => absurd (sound.joining done) before,fun joining => absurd joining after,sound.quitting,sound.drained⟩

theorem begin_sound (task : Task) : (begin task).Sound := by
  refine ⟨?_,?_,?_,?_⟩
  · intro done
    cases done
  · intro joining
    cases joining
  · intro w out
    cases out
  · intro out
    cases out ⟨0,by decide⟩

theorem step_sound {p after : Pool} (sound : p.Sound) (step : Pool.Step p emitted after) : after.Sound := by
  cases step with
  | wait | again => exact sound
  | refute confirming => exact main_sound sound (by rw [confirming]; exact MainPlace.noConfusion) MainPlace.noConfusion
  | move _ _ move =>
    cases move with
    | first task =>
      refine ⟨?_,nofun,sound.quitting,?_⟩
      · intro done
        cases done
      · intro out
        cases out ⟨0,by decide⟩
    | store | free | take => exact go_sound sound Place.noConfusion rfl rfl rfl
    | work _ w place counts emitted worked => exact go_sound sound (work_stays worked) rfl rfl rfl
    | quit _ w here drained done => exact ⟨sound.joining,sound.joined,fun _ _ => done,fun _ => drained⟩
    | look _ looking => exact main_sound sound (by rw [looking]; exact MainPlace.noConfusion) MainPlace.noConfusion
    | confirm _ confirming => exact main_sound sound (by rw [confirming]; exact MainPlace.noConfusion) MainPlace.noConfusion
    | finish _ finishing => exact ⟨fun _ => rfl,fun _ => rfl,fun _ _ => rfl,sound.drained⟩

theorem run_sound {p : Pool} (run : Runs Pool.Step (begin task) log p) : p.Sound :=
  run.stateInvariant (fun _ _ _ sound step => step_sound sound step) (begin_sound task)

end LinuxCoding.DirPool
