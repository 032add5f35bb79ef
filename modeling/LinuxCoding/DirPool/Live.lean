import Mathlib.Data.Fintype.Option
import LinuxCoding.DirPool.Game

-- Who sleeps in the pool, and why somebody will wake them.
namespace LinuxCoding.DirPool
open Hands Signals Total Transition

-- `released` and `awake` are what set_done leaves behind, although it tells nobody on
-- cond_not_full: by then some worker is not in its call.
structure Live (s : State) : Prop where
  pending : ∀ t op, (s.calls.status t).pending = some op → s.op t = some op
  upright : ∀ op, s.calls.status none ≠ .asleep op
  notEmpty : Supplied (queue Task) .notEmpty TaskQueue.queueCount s.calls
  notFull : Supplied (queue Task) .notFull freeSlots s.calls
  released : s.calls.shared.doneFlag = true → ∀ t op, s.calls.status t = .asleep op → (queue Task).cond op = .notFull
  awake : s.calls.shared.doneFlag = true → ∃ w : Worker, ∀ op, s.calls.status (some w) ≠ .asleep op
  left : ∀ w, s.place w = .exited → ∀ t op, s.calls.status t ≠ .asleep op

theorem start_live (task : Task) : Live (start task) := by
  have outside : ∀ t op, (start task).calls.status t ≠ .asleep op := by
    intro t op asleep
    cases asleep
  refine ⟨?_,outside none,?_,?_,?_,fun _ => ⟨⟨0,by decide⟩,outside _⟩,fun _ _ => outside⟩
  · intro t op waiting
    cases waiting
  · exact fun t op asleep => absurd asleep (outside t op)
  · exact fun t op asleep => absurd asleep (outside t op)
  · exact fun _ t op asleep => absurd asleep (outside t op)

@[simp] theorem resume_calls (s : State) (t : Thread) (outcome : Outcome (Ret Task)) : (s.resume t outcome).calls = s.calls := by
  cases t with
  | none => cases outcome <;> rfl
  | some w => cases outcome <;> rfl

theorem resume_op (s : State) (apart : u ≠ t) (outcome : Outcome (Ret Task)) : (s.resume t outcome).op u = s.op u := by
  cases outcome with
  | slept | roused => cases t <;> rfl
  | returned ret =>
    cases t with
    | none =>
      cases u with
      | none => exact absurd rfl apart
      | some k => rfl
    | some w =>
      cases u with
      | none => rfl
      | some k =>
        have other : k ≠ w := fun same => apart (congrArg some same)
        exact congrArg Place.op (Function.update_of_ne other ..)

theorem work_op {place next : Place} (worked : work counts place = some (next,after,emitted)) : place.op = none := by
  cases work_works worked <;> rfl

-- What set_done does to the sleepers; nothing else sets the flag.
theorem step_done {c after : Config Thread (TaskQueue Task) (Op Task)} (step : Signals.Step (queue Task) c [⟨t,op,outcome⟩] after)
    (done : after.shared.doneFlag = true) : c.shared.doneFlag = true ∨ op = .setDone ∧
      ∀ u other, after.status u = .asleep other → c.status u = .asleep other ∧ (queue Task).cond other = .notFull := by
  cases step with
  | sleep | rouse => exact .inl done
  | leave _ _ ready passes notified =>
    rcases leave_done op done with before | rfl
    · exact .inl before
    · refine .inr ⟨rfl,fun u other asleep => ?_⟩
      obtain ⟨before,loud,-⟩ := notified_asleep notified asleep
      have apart : u ≠ t := by
        rintro rfl
        simp at before
      rw [Function.update_of_ne apart] at before
      refine ⟨before,?_⟩
      cases on : (queue Task).cond other with
      | notFull => rfl
      | notEmpty => exact absurd (by rw [on]; rfl) loud

-- After set_done nobody goes to sleep.
theorem done_asleep {c after : Config Thread (TaskQueue Task) (Op Task)} (step : Signals.Step (queue Task) c [⟨t,op,outcome⟩] after)
    (done : c.shared.doneFlag = true) (asleep : after.status u = .asleep other) : c.status u = .asleep other := by
  rcases step_asleep step asleep with before | ⟨_,_,waits⟩
  · exact before
  · rw [done_passes op done] at waits
    cases waits

theorem producer_op {op : Op Task} (on : (queue Task).cond op = .notFull) : ∃ task, op = .enqueueTask task := by
  cases op with
  | enqueueTask task => exact ⟨task,rfl⟩
  | dequeueTask | setDone => cases on

theorem enqueuing_hand {place : Place} (calling : place.op = some (.enqueueTask task)) : ∃ sub rest, place.hand = some (.node sub rest) := by
  cases place with
  | enqueuing dirName other rest => exact ⟨_,_,rfl⟩
  | dequeuing | opening | scanning | counting | exited => cases calling

-- All workers in enqueue_task and a full queue are a jam.
theorem producers_jam {s : State} {p : Pool} (shown : Shows s p) (full : queueMax ≤ p.tasks.length)
    (calling : ∀ w, ∃ task, (s.place w).op = some (.enqueueTask task)) : Jammed queueMax p.table := by
  refine ⟨by simpa [Pool.table] using full,fun w => ?_⟩
  obtain ⟨task,here⟩ := calling w
  rw [shown.place] at here
  exact enqueuing_hand here

theorem undone_jam {p : Pool} (unjammed : ¬Jams threadNum queueMax task.forest) (plays : Plays task p)
    (undone : p.done = false) (begun : ∀ other, p.main ≠ .starting other) : ¬Jammed queueMax p.table := by
  intro jammed
  rcases plays with done | rfl | ⟨_,reach⟩
  · rw [undone] at done
    cases done
  · exact begun task rfl
  · exact unjammed ⟨p.table,reach,jammed⟩

section
variable {s after : State} {p : Pool}

theorem pending_kept (live : Live s) (step : Step s emitted after) : ∀ t op, (after.calls.status t).pending = some op → after.op t = some op := by
  cases step with
  | call t op outcome calls calling taken =>
    obtain ⟨others,own⟩ := step_pending taken
    intro u other waiting
    rw [resume_calls] at waiting
    by_cases same : u = t
    · subst same
      rcases own with ended | ⟨here,stays⟩
      · rw [ended] at waiting
        cases waiting
      · rw [here] at waiting
        cases waiting
        cases outcome with
        | returned ret => exact absurd rfl (stays ret)
        | slept | roused => cases u <;> exact calling
    · rw [others u same] at waiting
      rw [resume_op _ same]
      exact live.pending u other waiting
  | work w place counts emitted worked =>
    intro t op waiting
    have before := live.pending t op waiting
    cases t with
    | none => exact before
    | some k =>
      have apart : k ≠ w := by
        rintro rfl
        rw [show s.op (some k) = (s.place k).op from rfl,work_op worked] at before
        cases before
      rw [← before]
      exact congrArg Place.op (Function.update_of_ne apart ..)
  | look here | confirm here =>
    intro t op waiting
    have before := live.pending t op waiting
    cases t with
    | none => simp [State.op,here,MainPlace.op] at before
    | some k => exact before

-- main finds the queue empty when it stores its path, and set_done has no loop.
theorem main_passes (shown : Shows s p) (calling : s.op none = some op) : (queue Task).waits op s.calls.shared = false := by
  cases main : s.main with
  | looking | confirming | joining => simp [State.op,main,MainPlace.op] at calling
  | starting task =>
    obtain rfl : .enqueueTask task = op := by simpa [State.op,main,MainPlace.op] using calling
    have fresh := shown.fresh task (shown.main.symm.trans main)
    have count := shown.ring.count
    simp [fresh,begin] at count
    simp [queue,enqueueWaits,count,queueMax]
  | finishing =>
    obtain rfl : .setDone = op := by simpa [State.op,main,MainPlace.op] using calling
    rfl

theorem upright_kept (shown : Shows s p) (live : Live s) (step : Step s emitted after) : ∀ op, after.calls.status none ≠ .asleep op := by
  cases step with
  | call t op outcome calls calling taken =>
    intro other asleep
    rw [resume_calls] at asleep
    rcases step_asleep taken asleep with before | ⟨rfl,rfl,waits⟩
    · exact live.upright other before
    · rw [main_passes shown calling] at waits
      cases waits
  | work | look | confirm => exact live.upright

theorem released_kept (live : Live s) (step : Step s emitted after) : after.calls.shared.doneFlag = true →
    ∀ t op, after.calls.status t = .asleep op → (queue Task).cond op = .notFull := by
  cases step with
  | call t op outcome calls calling taken =>
    intro done u other asleep
    rw [resume_calls] at done asleep
    rcases step_done taken done with before | ⟨_,cleared⟩
    · exact live.released before u other (done_asleep taken before asleep)
    · exact (cleared u other asleep).2
  | work | look | confirm => exact live.released

theorem set_done_main (calling : s.op t = some .setDone) : t = none ∧ s.main = .finishing := by
  cases t with
  | none =>
    cases main : s.main with
    | finishing => exact ⟨rfl,rfl⟩
    | starting | looking | confirming | joining => simp [State.op,main,MainPlace.op] at calling
  | some w => cases place : s.place w <;> simp [State.op,place,Place.op] at calling

-- When every worker sleeps on cond_not_full nobody is about to take a free slot.
theorem sleepers_jam (shown : Shows s p) (live : Live s) (finishing : s.main = .finishing)
    (asleep : ∀ w : Worker, ∃ op, s.calls.status (some w) = .asleep op ∧ (queue Task).cond op = .notFull) : Jammed queueMax p.table := by
  have calling : ∀ w, ∃ task, (s.place w).op = some (.enqueueTask task) := by
    intro w
    obtain ⟨op,slept,on⟩ := asleep w
    obtain ⟨task,rfl⟩ := producer_op on
    exact ⟨task,live.pending (some w) _ (by rw [slept]; rfl)⟩
  have unnotified : ∀ t, Status.notifiedOn (queue Task).cond .notFull (s.calls.status t) = false := by
    intro t
    cases t with
    | some w =>
      obtain ⟨op,slept,_⟩ := asleep w
      rw [slept]
      rfl
    | none =>
      cases status : s.calls.status none with
      | outside | asleep | roused => rfl
      | notified op =>
        have here := live.pending none op (by rw [status]; rfl)
        obtain rfl : .setDone = op := by simpa [State.op,finishing,MainPlace.op] using here
        rfl
  have none_ : waking (queue Task).cond .notFull s.calls.status = 0 := tally_zero unnotified
  obtain ⟨op,slept,on⟩ := asleep ⟨0,by decide⟩
  have full := live.notFull _ op slept on
  have count := shown.ring.count
  rw [none_] at full
  simp only [freeSlots] at full
  exact producers_jam shown (by omega) calling

-- Were all workers left asleep, they would be in enqueue_task with the queue full.
theorem awake_kept (unjammed : ¬Jams threadNum queueMax task.forest) (shown : Shows s p) (sound : p.Sound) (plays : Plays task p)
    (live : Live s) (step : Step s emitted after) : after.calls.shared.doneFlag = true →
    ∃ w : Worker, ∀ op, after.calls.status (some w) ≠ .asleep op := by
  cases step with
  | work | look | confirm => exact live.awake
  | call t op outcome calls calling taken =>
    intro done
    simp only [resume_calls] at done ⊢
    rcases step_done taken done with before | ⟨rfl,cleared⟩
    · obtain ⟨w,up⟩ := live.awake before
      exact ⟨w,fun op asleep => up op (done_asleep taken before asleep)⟩
    · by_contra none_
      obtain ⟨rfl,finishing⟩ := set_done_main calling
      have asleep : ∀ w : Worker, ∃ op, s.calls.status (some w) = .asleep op ∧ (queue Task).cond op = .notFull := by
        intro w
        by_contra up
        exact none_ ⟨w,fun op slept => up ⟨op,cleared (some w) op slept⟩⟩
      have main := shown.main.symm.trans finishing
      have undone : p.done = false := by
        cases set : p.done with
        | false => rfl
        | true =>
          rw [sound.joining set] at main
          cases main
      exact undone_jam unjammed plays undone (by rw [main]; exact fun _ => nofun) (sleepers_jam shown live finishing asleep)

theorem resume_exits (out : (s.resume t outcome).place w = .exited) :
    s.place w = .exited ∨ t = some w ∧ s.place w = .dequeuing ∧ outcome = .returned (.path none) := by
  cases outcome with
  | slept | roused => cases t <;> exact .inl out
  | returned ret =>
    cases t with
    | none => exact .inl out
    | some k =>
      by_cases same : w = k
      · subst same
        have here : (s.place w).resume ret = .exited := (Function.update_self ..).symm.trans out
        cases place : s.place w with
        | exited => exact .inl rfl
        | opening | scanning | counting | enqueuing => simp [place,Place.resume] at here
        | dequeuing =>
          cases ret with
          | path found =>
            cases found with
            | none => exact .inr ⟨rfl,rfl,rfl⟩
            | some task => simp [place,Place.resume] at here
          | stored | freed | void => simp [place,Place.resume] at here
      · exact .inl ((Function.update_of_ne same ..).symm.trans out)

-- A worker leaves when the queue is empty, and then nobody waits for room.
theorem left_kept (shown : Shows s p) (sound : p.Sound) (live : Live s) (step : Step s emitted after) :
    ∀ w, after.place w = .exited → ∀ t op, after.calls.status t ≠ .asleep op := by
  cases step with
  | look | confirm => exact live.left
  | work w next counts emitted worked =>
    intro k out
    apply live.left k
    by_cases same : k = w
    · subst same
      exact absurd ((Function.update_self ..).symm.trans out) (work_stays worked)
    · exact (Function.update_of_ne same ..).symm.trans out
  | call t op outcome calls calling taken =>
    intro w out u other asleep
    rw [resume_calls] at asleep
    rcases resume_exits out with before | ⟨rfl,here,rfl⟩
    · have done : s.calls.shared.doneFlag = true := by
        rw [shown.place] at before
        rw [shown.done]
        exact sound.quitting w before
      exact live.left w before u other (done_asleep taken done asleep)
    · have dequeues : (s.place w).op = some op := calling
      rw [here] at dequeues
      cases dequeues
      obtain ⟨none_,done⟩ := null_returned shown.ring taken List.mem_cons_self
      have before := done_asleep taken done asleep
      have enough := live.notFull u other before (live.released done u other before)
      have few := tally_size (Status.notifiedOn (queue Task).cond .notFull) s.calls.status
      simp only [Fintype.card_option,Fintype.card_fin,threadNum] at few
      simp only [freeSlots,none_,queueMax,waking] at enough
      omega

theorem supplied_kept {supply : TaskQueue Task → Int} (supplies : Supplies (queue Task) (fun _ => True) k supply)
    (supplied : Supplied (queue Task) k supply s.calls) (step : Step s emitted after) : Supplied (queue Task) k supply after.calls := by
  cases step with
  | call t op outcome calls calling taken =>
    rw [resume_calls]
    exact step_supplied supplies trivial supplied taken
  | work | look | confirm => exact supplied

theorem step_live (unjammed : ¬Jams threadNum queueMax task.forest) (shown : Shows s p) (sound : p.Sound) (plays : Plays task p)
    (live : Live s) (step : Step s emitted after) : Live after :=
  ⟨pending_kept live step,upright_kept shown live step,supplied_kept notEmpty_supplies live.notEmpty step,
    supplied_kept notFull_supplies live.notFull step,released_kept live step,awake_kept unjammed shown sound plays live step,
    left_kept shown sound live step⟩

end

end LinuxCoding.DirPool
