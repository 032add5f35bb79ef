import LinuxCoding.DirPool.Live

-- While no thread waits, every move of the pool is a step of the code.
namespace LinuxCoding.DirPool
open Hands Relation Signals Transition

structure Calm (s : State) (p : Pool) : Prop where
  shown : Shows s p
  outside : ∀ t, s.calls.status t = .outside

section
variable {s : State} {p q : Pool}

theorem start_calm (task : Task) : Calm (start task) (begin task) := ⟨start_shows task,fun _ => rfl⟩

theorem calm_call (calm : Calm s p) (calling : s.op t = some op) (passes : (queue Task).waits op s.calls.shared = false)
    (ret : ((queue Task).leave op s.calls.shared).ret = result) (shown : Shows (s.leaves t op s.calls.status) q) :
    ∃ after, Step s [.call ⟨t,op,.returned result⟩] after ∧ Calm after q := by
  have taken := Signals.Step.unheard t op calm.outside passes
  have step := Step.call s t op _ _ calling taken
  rw [ret] at step
  refine ⟨_,step,?_,?_⟩
  · simpa only [State.leaves,ret] using shown
  · simpa only [resume_calls] using calm.outside

theorem worker_calls (shown : Shows s p) (here : p.place w = place) : s.op (some w) = place.op := by
  rw [← here,← shown.place]
  rfl

theorem room_passes (shown : Shows s p) (room : p.tasks.length < queueMax) (task : Task) :
    (queue Task).waits (.enqueueTask task) s.calls.shared = false := by
  have count := shown.ring.count
  have below : ¬(queueMax : Int) ≤ s.calls.shared.queueCount := by omega
  simp [queue,enqueueWaits,below]

theorem front_passes (shown : Shows s p) (front : p.tasks = task :: tasks) : (queue Task).waits .dequeueTask s.calls.shared = false := by
  have count := shown.ring.count
  rw [front,List.length_cons] at count
  have some_ : ¬s.calls.shared.queueCount = 0 := by omega
  simp [queue,dequeueWaits,some_]

theorem calm_moves (calm : Calm s p) (move : Pool.Move p emitted q) : ∃ after, Step s emitted after ∧ Calm after q := by
  have shown := calm.shown
  cases move with
  | first task =>
    have calling : s.op none = some (.enqueueTask task) := congrArg MainPlace.op shown.main
    obtain ⟨ret,after⟩ := first_shows s.calls.status shown
    exact calm_call calm calling (main_passes shown calling) ret after
  | store _ w dirName task rest here room =>
    obtain ⟨ret,after⟩ := store_shows s.calls.status shown here room
    exact calm_call calm (worker_calls shown here) (room_passes shown room task) ret after
  | free _ w dirName task rest here full done =>
    obtain ⟨ret,after⟩ := free_shows s.calls.status shown here full done
    exact calm_call calm (worker_calls shown here) (done_passes _ (shown.done.trans done)) ret after
  | take _ w task tasks here front =>
    obtain ⟨ret,after⟩ := take_shows s.calls.status shown here front
    exact calm_call calm (worker_calls shown here) (front_passes shown front) ret after
  | quit _ w here drained done =>
    obtain ⟨ret,after⟩ := quit_shows s.calls.status shown here drained done
    exact calm_call calm (worker_calls shown here) (done_passes _ (shown.done.trans done)) ret after
  | work _ w next counts emitted worked =>
    rw [← shown.counts,← shown.place] at worked
    exact ⟨_,.work s w next counts emitted worked,(work_shows shown worked).2,calm.outside⟩
  | look _ looking drained =>
    have main := shown.main.trans looking
    exact ⟨_,.look s main,(look_shows shown main drained).2,calm.outside⟩
  | confirm _ confirming drained =>
    have main := shown.main.trans confirming
    exact ⟨_,.confirm s main,(confirm_shows shown main drained).2,calm.outside⟩
  | finish _ finishing =>
    have calling : s.op none = some .setDone := congrArg MainPlace.op (shown.main.trans finishing)
    exact calm_call calm calling rfl rfl (finish_shows s.calls.status shown finishing)

theorem calm_runs (calm : Calm s p) (run : Runs Pool.Move p log q) : ∃ after, Runs Step s log after ∧ Calm after q := by
  induction run with
  | nil => exact ⟨s,.nil,calm⟩
  | step prior move ih =>
    obtain ⟨middle,path,calm⟩ := ih
    obtain ⟨after,step,later⟩ := calm_moves calm move
    exact ⟨after,.step path step,later⟩

end

end LinuxCoding.DirPool
