import LinuxCoding.DirPool.Live

namespace LinuxCoding.DirPool
open Hands Signals Total Transition

-- The steps that are still needed for a tree, a place and a whole pool.
def Listing.cost : Listing → Nat
  | .nil => 1
  | .skip _ rest => rest.cost + 1
  | .file _ _ rest => rest.cost + 2
  | .dir _ _ _ sub rest => sub.cost + rest.cost + 4

def Task.cost (task : Task) : Nat := task.listing.cost + 2

def Place.cost : Place → Nat
  | .dequeuing => 1
  | .opening task => task.cost
  | .scanning _ rest => rest.cost + 1
  | .counting _ _ rest => rest.cost + 2
  | .enqueuing _ task rest => task.cost + rest.cost + 2
  | .exited => 0

def MainPlace.cost : MainPlace → Nat
  | .starting task => task.cost + 4
  | .looking => 3
  | .confirming => 2
  | .finishing => 1
  | .joining => 0

def Pool.cost (p : Pool) : Nat := (p.tasks.map Task.cost).sum + total Place.cost p.place + p.main.cost

theorem work_cost {place next : Place} (worked : work counts place = some (next,after,emitted)) : next.cost < place.cost := by
  cases work_works worked with
  | opens | fails => simp [Place.cost,Task.cost]
  | ends | skips | reads | adds => simp [Place.cost,Listing.cost]
  | copies | loses =>
    simp only [Place.cost,Listing.cost,Task.cost]
    omega

theorem go_cost {p q : Pool} (main : q.main = p.main) (moved : q.place = Function.update p.place w place)
    (less : (q.tasks.map Task.cost).sum + place.cost < (p.tasks.map Task.cost).sum + (p.place w).cost) : q.cost < p.cost := by
  have update := total_update Place.cost p.place w place
  rw [Pool.cost,Pool.cost,main,moved]
  omega

theorem main_cost {p q : Pool} (tasks : q.tasks = p.tasks) (place : q.place = p.place) (less : q.main.cost < p.main.cost) :
    q.cost < p.cost := by
  rw [Pool.cost,Pool.cost,tasks,place]
  omega

theorem move_cost {p q : Pool} (move : Pool.Move p emitted q) : q.cost < p.cost := by
  cases move with
  | first task =>
    simp only [Pool.cost,begin,MainPlace.cost,List.map_cons,List.map_nil,List.sum_cons,List.sum_nil]
    omega
  | store _ w dirName task rest here =>
    refine go_cost rfl rfl ?_
    rw [here]
    simp only [List.map_append,List.sum_append,List.map_singleton,List.sum_singleton,Place.cost]
    omega
  | free _ w dirName task rest here =>
    refine go_cost rfl rfl ?_
    rw [here]
    simp only [Pool.go,Place.cost]
    omega
  | take _ w task tasks here front =>
    refine go_cost rfl rfl ?_
    rw [here,front]
    simp only [List.map_cons,List.sum_cons,Place.cost]
    omega
  | quit _ w here =>
    refine go_cost rfl rfl ?_
    rw [here]
    exact Nat.lt_succ_self _
  | work _ w place counts emitted worked => exact go_cost rfl rfl (Nat.add_lt_add_left (work_cost worked) _)
  | look _ looking => exact main_cost rfl rfl (by rw [looking]; exact Nat.lt_succ_self _)
  | confirm _ confirming => exact main_cost rfl rfl (by rw [confirming]; exact Nat.lt_succ_self _)
  | finish _ finishing => exact main_cost rfl rfl (by rw [finishing]; exact Nat.lt_succ_self _)

-- A state with all that is known of it when the tree does not jam.
structure Fit (task : Task) (s : State) (p : Pool) : Prop where
  shown : Shows s p
  sound : p.Sound
  plays : Plays task p
  live : Live s

theorem start_fit (task : Task) : Fit task (start task) (begin task) :=
  ⟨start_shows task,begin_sound task,.inr (.inl rfl),start_live task⟩

theorem Fit.step {s after : State} {p q : Pool} (unjammed : ¬Jams threadNum queueMax task.forest) (fit : Fit task s p)
    (step : Step s emitted after) (taken : Pool.Step p emitted q) (shown : Shows after q) : Fit task after q :=
  ⟨shown,step_sound fit.sound taken,step_plays fit.plays taken,step_live unjammed fit.shown fit.sound fit.plays fit.live step⟩

theorem run_fit {s : State} (unjammed : ¬Jams threadNum queueMax task.forest) (run : Runs Step (start task) log s) : ∃ p, Fit task s p := by
  apply run.stateInvariant (I := fun s => ∃ p, Fit task s p)
  · intro s emitted after ⟨p,fit⟩ step
    obtain ⟨q,taken,shown⟩ := step_shows fit.shown step
    exact ⟨q,fit.step unjammed step taken shown⟩
  · exact ⟨_,start_fit task⟩

-- No thread comes back from its wait without a notice.
def Undisturbed (_ : State) (emitted : List Event) : Prop := ∀ t op, .call ⟨t,op,.roused⟩ ∉ emitted

-- Something useful can happen.
def Moves (s : State) (p : Pool) : Prop :=
  ∃ emitted after q, Step s emitted after ∧ Undisturbed s emitted ∧ Pool.Move p emitted q ∧ Shows after q

section
variable {s : State} {p : Pool}

theorem ready (live : Live s) (calling : s.op t = some op) (up : ∀ other, s.calls.status t ≠ .asleep other) : (s.calls.status t).Ready op := by
  have pending := live.pending t
  cases status : s.calls.status t with
  | outside => trivial
  | asleep other => exact absurd status (up other)
  | notified other | roused other =>
    have same := pending other (by rw [status]; rfl)
    exact Option.some.inj (same.symm.trans calling)

theorem caller_moves (shown : Shows s p) (live : Live s) (calling : s.op t = some op) (up : ∀ other, s.calls.status t ≠ .asleep other)
    (passes : (queue Task).waits op s.calls.shared = false) : Moves s p := by
  obtain ⟨status,step⟩ := Signals.Step.leaves t op (ready live calling up) passes
  obtain ⟨q,move,after⟩ := call_shows status shown calling passes
  exact ⟨_,_,q,.call s t op _ _ calling step,by simp [Undisturbed],move,after⟩

theorem worker_works {place : Place} (counts : Counts) (free : place.op = none) (inside : place ≠ .exited) : ∃ result, work counts place = some result := by
  cases place with
  | dequeuing | enqueuing => cases free
  | exited => exact absurd rfl inside
  | opening | counting => exact ⟨_,rfl⟩
  | scanning dirName rest => cases rest <;> exact ⟨_,rfl⟩

theorem worker_moves (shown : Shows s p) (live : Live s) (inside : s.place w ≠ .exited) (up : ∀ op, s.calls.status (some w) ≠ .asleep op)
    (passes : ∀ op, (s.place w).op = some op → (queue Task).waits op s.calls.shared = false) : Moves s p := by
  cases calling : (s.place w).op with
  | some op => exact caller_moves (t := some w) shown live calling up (passes op calling)
  | none =>
    obtain ⟨⟨next,counts,emitted⟩,worked⟩ := worker_works s.counts calling inside
    obtain ⟨move,after⟩ := work_shows shown worked
    exact ⟨_,_,_,.work s w next counts emitted worked,fun _ _ => work_quiet worked,move,after⟩

-- A caller goes on where its wait would be over; if it sleeps, someone notified on its
-- condition variable does.
theorem waiter_moves {supply : TaskQueue Task → Int} (shown : Shows s p) (live : Live s) (supplied : Supplied (queue Task) k supply s.calls)
    (more : 0 < supply s.calls.shared) (calling : s.op t = some op) (waitsOn : (queue Task).cond op = k)
    (passes : ∀ other, (queue Task).cond other = k → (queue Task).waits other s.calls.shared = false) : Moves s p := by
  by_cases up : ∀ other, s.calls.status t ≠ .asleep other
  · exact caller_moves shown live calling up (passes op waitsOn)
  · obtain ⟨own,asleep⟩ : ∃ own, s.calls.status t = .asleep own := by simpa using up
    have same := live.pending t own (by rw [asleep]; rfl)
    obtain rfl := Option.some.inj (calling.symm.trans same)
    obtain ⟨u,other,notified,on⟩ := supplied.notified asleep waitsOn more
    exact caller_moves shown live (live.pending u other (by rw [notified]; rfl)) (by simp [notified]) (passes other on)

theorem consumer_moves (shown : Shows s p) (live : Live s) (more : p.tasks ≠ []) (calling : s.op t = some .dequeueTask) : Moves s p := by
  have count := shown.ring.count
  have positive : 0 < s.calls.shared.queueCount := by
    have := List.length_pos_iff.mpr more
    omega
  refine waiter_moves shown live live.notEmpty positive calling rfl ?_
  intro op on
  cases op with
  | dequeueTask => simp [queue,dequeueWaits,Int.ne_of_gt positive]
  | setDone => rfl
  | enqueueTask => cases on

theorem producer_moves (shown : Shows s p) (live : Live s) (room : p.tasks.length < queueMax) (calling : s.op t = some (.enqueueTask task)) :
    Moves s p := by
  have count := shown.ring.count
  have free : 0 < freeSlots s.calls.shared := by
    simp only [freeSlots]
    omega
  refine waiter_moves shown live live.notFull free calling rfl ?_
  intro op on
  obtain ⟨pending,rfl⟩ := producer_op on
  have below : ¬(queueMax : Int) ≤ s.calls.shared.queueCount := by omega
  simp [queue,enqueueWaits,below]

-- Before set_done: a queue with tasks in it is emptied or filled, unless that is a jam.
theorem busy_moves (unjammed : ¬Jammed queueMax p.table) (shown : Shows s p) (live : Live s) (inside : ∀ w, s.place w ≠ .exited)
    (more : p.tasks ≠ []) : Moves s p := by
  by_cases free : ∃ w, (s.place w).op = none
  · obtain ⟨w,none_⟩ := free
    refine worker_moves shown live (inside w) ?_ (by simp [none_])
    intro op asleep
    have pending : (s.place w).op = some op := live.pending (some w) op (by rw [asleep]; rfl)
    rw [none_] at pending
    cases pending
  · by_cases consumer : ∃ w, (s.place w).op = some .dequeueTask
    · obtain ⟨w,calling⟩ := consumer
      exact consumer_moves (t := some w) shown live more calling
    · have calling : ∀ w, ∃ task, (s.place w).op = some (.enqueueTask task) := by
        intro w
        cases place : s.place w with
        | dequeuing => exact absurd ⟨w,by rw [place]; rfl⟩ consumer
        | enqueuing dirName task rest => exact ⟨task,rfl⟩
        | exited => exact absurd place (inside w)
        | opening | scanning | counting => exact absurd ⟨w,by rw [place]; rfl⟩ free
      have room : p.tasks.length < queueMax := by
        by_contra full
        exact unjammed (producers_jam shown (Nat.le_of_not_lt full) calling)
      obtain ⟨task,first⟩ := calling ⟨0,by decide⟩
      exact producer_moves (t := some ⟨0,by decide⟩) shown live room first

-- After set_done whoever is awake goes on.
theorem done_moves (shown : Shows s p) (live : Live s) (done : s.calls.shared.doneFlag = true) : s.AllExited ∨ Moves s p := by
  by_cases ended : s.AllExited
  · exact .inl ended
  · right
    obtain ⟨w,inside⟩ : ∃ w, s.place w ≠ .exited := by simpa [State.AllExited] using ended
    obtain ⟨k,up⟩ := live.awake done
    by_cases out : s.place k = .exited
    · exact worker_moves shown live inside (live.left k out _) (fun op _ => done_passes op done)
    · exact worker_moves shown live out up (fun op _ => done_passes op done)

theorem progress (unjammed : ¬Jams threadNum queueMax task.forest) (fit : Fit task s p) : s.AllExited ∨ Moves s p := by
  obtain ⟨shown,sound,plays,live⟩ := fit
  cases done : p.done with
  | true => exact done_moves shown live (shown.done.trans done)
  | false =>
    right
    have inside : ∀ w, s.place w ≠ .exited := by
      intro w out
      rw [shown.place] at out
      rw [sound.quitting w out] at done
      cases done
    have clear := fun begun => undone_jam unjammed plays done begun
    cases main : s.main with
    | starting task =>
      have calling : s.op none = some (.enqueueTask task) := by simp [State.op,main,MainPlace.op]
      exact caller_moves shown live calling live.upright (main_passes shown calling)
    | finishing =>
      have calling : s.op none = some .setDone := by simp [State.op,main,MainPlace.op]
      exact caller_moves shown live calling live.upright (main_passes shown calling)
    | joining =>
      rw [sound.joined (shown.main.symm.trans main)] at done
      cases done
    | looking =>
      by_cases drained : p.tasks = []
      · obtain ⟨move,after⟩ := look_shows shown main drained
        exact ⟨_,_,_,.look s main,fun _ _ => List.not_mem_nil,move,after⟩
      · exact busy_moves (clear (by simp [← shown.main,main])) shown live inside drained
    | confirming =>
      by_cases drained : p.tasks = []
      · obtain ⟨move,after⟩ := confirm_shows shown main drained
        exact ⟨_,_,_,.confirm s main,fun _ _ => List.not_mem_nil,move,after⟩
      · exact busy_moves (clear (by simp [← shown.main,main])) shown live inside drained

end

-- From every state some continuation lets all workers leave.
theorem all_exit {s : State} {p : Pool} (unjammed : ¬Jams threadNum queueMax task.forest) (fit : Fit task s p) :
    ∃ log after, Runs (Where Step Undisturbed) s log after ∧ after.AllExited := by
  generalize cost : p.cost = n
  induction n using Nat.strongRecOn generalizing s p with
  | ind n ih =>
    rcases progress unjammed fit with ended | ⟨emitted,next,q,step,quiet,move,shown⟩
    · exact ⟨[],s,.nil,ended⟩
    · have less : q.cost < n := by
        rw [← cost]
        exact move_cost move
      obtain ⟨log,after,run,ended⟩ := ih q.cost less (fit.step unjammed step (.move p q _ move) shown) rfl
      exact ⟨_,after,(Runs.one ⟨step,quiet⟩).append run,ended⟩

end LinuxCoding.DirPool
