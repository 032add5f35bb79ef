import LinuxCoding.DirPool.Progress
import LinuxCoding.DirPool.Schedule

namespace LinuxCoding.DirPool
open Hands Relation Signals Transition

-- All workers wait for one another, and main finds the queue nonempty for ever.
structure Stuck (s : State) : Prop where
  blocked : ∀ w : Worker, ∃ op, s.calls.status (some w) = .asleep op ∧ (queue Task).waits op s.calls.shared = true
  polling : s.main = .looking ∨ s.main = .confirming
  filled : s.empty = false

def DeadlockFree (task : Task) : Prop :=
  ∀ log s, Runs Step (start task) log s → ¬Stuck s ∧ ∃ more after, Runs Step s more after ∧ after.AllExited

theorem stuck_jams {s : State} {p : Pool} (shown : Shows s p) (live : Live s) (stuck : Stuck s) :
    Jammed queueMax p.table ∧ p.done = false := by
  have count := shown.ring.count
  have filled : s.calls.shared.queueCount ≠ 0 := by simpa [State.empty] using stuck.filled
  have calling : ∀ w, ∃ task, (s.place w).op = some (.enqueueTask task) ∧ enqueueWaits s.calls.shared = true := by
    intro w
    obtain ⟨op,asleep,waits⟩ := stuck.blocked w
    have here := live.pending (some w) op (by rw [asleep]; rfl)
    cases op with
    | enqueueTask task => exact ⟨task,here,waits⟩
    | dequeueTask =>
      simp only [queue,dequeueWaits,Bool.and_eq_true,decide_eq_true_eq] at waits
      exact absurd waits.1 filled
    | setDone => cases waits
  obtain ⟨_,_,waits⟩ := calling ⟨0,by decide⟩
  simp only [enqueueWaits,Bool.and_eq_true,decide_eq_true_eq,Bool.not_eq_true'] at waits
  refine ⟨producers_jam shown (by omega) (fun w => ?_),shown.done.symm.trans waits.2⟩
  obtain ⟨task,here,_⟩ := calling w
  exact ⟨task,here⟩

theorem unjammed_free (unjammed : ¬Jams threadNum queueMax task.forest) : DeadlockFree task := by
  intro log s run
  obtain ⟨p,fit⟩ := run_fit unjammed run
  refine ⟨?_,?_⟩
  · intro stuck
    obtain ⟨jammed,undone⟩ := stuck_jams fit.shown fit.live stuck
    refine undone_jam unjammed fit.plays undone ?_ jammed
    rw [← fit.shown.main]
    rcases stuck.polling with main | main <;> rw [main] <;> exact fun _ => nofun
  · obtain ⟨more,after,path,ended⟩ := all_exit unjammed fit
    exact ⟨more,after,path.unrestricted,ended⟩

-- Every state of the table is reached by a run in which no thread waits.
theorem reach_runs {t : Table threadNum} (reach : Reaches queueMax task.forest t) : ∃ log p, Runs Pool.Move (begin task) log p ∧
    p.main = .looking ∧ p.done = false ∧ (∀ w, p.place w ≠ .exited) ∧ p.table = t := by
  induction reach with
  | refl => exact ⟨_,_,.one (.first task),rfl,rfl,fun _ => nofun,first_table task⟩
  | tail _ play ih =>
    obtain ⟨log,p,run,main,done,inside,rfl⟩ := ih
    obtain ⟨more,q,later,same,kept,still,table⟩ := play_runs inside play
    exact ⟨_,q,run.append later,same.trans main,kept.trans done,still,table⟩

theorem all_sleep (ws : List Worker) (distinct : ws.Nodup) : ∀ s : State, s.main = .looking → s.empty = false →
    (∀ w ∈ ws, s.calls.status (some w) = .outside ∧ ∃ op, (s.place w).op = some op ∧ (queue Task).waits op s.calls.shared = true) →
    (∀ w, w ∉ ws → ∃ op, s.calls.status (some w) = .asleep op ∧ (queue Task).waits op s.calls.shared = true) →
    ∃ log after, Runs Step s log after ∧ Stuck after := by
  induction ws with
  | nil =>
    intro s main filled _ asleep
    exact ⟨[],s,.nil,fun w => asleep w List.not_mem_nil,.inl main,filled⟩
  | cons w ws ih =>
    intro s main filled awake asleep
    obtain ⟨fresh,distinct⟩ := List.nodup_cons.mp distinct
    obtain ⟨⟨outside,op,calling,waits⟩,others⟩ := List.forall_mem_cons.mp awake
    have sleeps : Step s _ {s with calls := s.calls.put (some w) (.asleep op)} :=
      .call s (some w) op .slept _ calling (.sleep (some w) op (by rw [outside]; trivial) waits)
    have kept : ∀ k, k ≠ w → (s.calls.put (some w) (.asleep op)).status (some k) = s.calls.status (some k) :=
      fun k apart => Function.update_of_ne (fun same => apart (Option.some.inj same)) ..
    have rest : ∀ k ∈ ws, (s.calls.put (some w) (.asleep op)).status (some k) = .outside ∧
        ∃ op, (s.place k).op = some op ∧ (queue Task).waits op s.calls.shared = true := by
      intro k member
      obtain ⟨out,calls⟩ := others k member
      exact ⟨(kept k (fun same => fresh (same ▸ member))).trans out,calls⟩
    have slept : ∀ k, k ∉ ws → ∃ other, (s.calls.put (some w) (.asleep op)).status (some k) = .asleep other ∧
        (queue Task).waits other s.calls.shared = true := by
      intro k absent
      by_cases same : k = w
      · subst same
        exact ⟨op,Function.update_self ..,waits⟩
      · obtain ⟨other,before,still⟩ := asleep k (fun member => (List.mem_cons.mp member).elim same absent)
        exact ⟨other,(kept k same).trans before,still⟩
    obtain ⟨log,after,run,stuck⟩ := ih distinct {s with calls := s.calls.put (some w) (.asleep op)} main filled rest slept
    exact ⟨_,after,(Runs.one sleeps).append run,stuck⟩

theorem jam_stuck (jams : Jams threadNum queueMax task.forest) : ∃ log s, Runs Step (start task) log s ∧ Stuck s := by
  obtain ⟨t,reach,jammed⟩ := jams
  obtain ⟨log,p,run,main,undone,_,rfl⟩ := reach_runs reach
  obtain ⟨more,q,later,tasks,kept,unset,_,calls⟩ := gathers (List.finRange threadNum) (fun w _ => jammed.holding w)
  obtain ⟨s,path,calm⟩ := calm_runs (start_calm task) (run.append later)
  have count := calm.shown.ring.count
  have full : queueMax ≤ q.tasks.length := by
    rw [tasks]
    simpa [Pool.table] using jammed.full
  have done : s.calls.shared.doneFlag = false := calm.shown.done.trans (unset.trans undone)
  have waits : enqueueWaits s.calls.shared = true := by
    simp only [enqueueWaits,done,Bool.not_false,Bool.and_true,decide_eq_true_eq]
    omega
  have filled : s.empty = false := by
    simp only [State.empty,decide_eq_false_iff_not]
    simp only [queueMax] at full
    omega
  have pending : ∀ w ∈ List.finRange threadNum, s.calls.status (some w) = .outside ∧
      ∃ op, (s.place w).op = some op ∧ (queue Task).waits op s.calls.shared = true := by
    intro w member
    obtain ⟨dirName,task,rest,here⟩ := calls w member
    exact ⟨calm.outside _,.enqueueTask task,worker_calls calm.shown here,waits⟩
  obtain ⟨last,after,sleeping,stuck⟩ := all_sleep (List.finRange threadNum) (List.nodup_finRange _) s
    (calm.shown.main.trans (kept.trans main)) filled pending (fun w absent => absurd (List.mem_finRange w) absent)
  exact ⟨_,after,path.append sleeping,stuck⟩

-- The pool deadlocks on the trees that can jam its twelve hands.
theorem deadlock_exact (task : Task) : DeadlockFree task ↔ ¬Jams threadNum queueMax task.forest := by
  constructor
  · intro free jams
    obtain ⟨log,s,run,stuck⟩ := jam_stuck jams
    exact (free log s run).1 stuck
  · exact unjammed_free

-- With fewer directories than the queue and the workers have places, all is well.
theorem small_free (task : Task) (small : task.forest.size + 1 < queueMax + 2 * threadNum) : DeadlockFree task :=
  unjammed_free (small_never_jams small)

-- Eleven directories with one subdirectory each, and then 1025 empty ones.
def wedgeTree : Task :=
  ⟨[46],true,folders 0 (.replicate (threadNum - 1) (folders 0 [.nil]) ++ .replicate (queueMax + 1) .nil)⟩

theorem wedge_member (member : sub ∈ List.replicate j (folders 0 [.nil]) ++ List.replicate k Listing.nil) :
    sub = folders 0 [.nil] ∨ sub = .nil := by
  rcases List.mem_append.mp member with first | later
  · exact .inl (List.eq_of_mem_replicate first)
  · exact .inr (List.eq_of_mem_replicate later)

theorem wedge_deadlocks : wedgeTree.Clean ∧ wedgeTree.listing.Distinct ∧ ¬DeadlockFree wedgeTree := by
  refine ⟨⟨by decide,rfl,folders_clean (by decide) ?_⟩,folders_distinct ?_ ?_,?_⟩
  · intro sub member path size
    rcases wedge_member member with rfl | rfl
    · refine folders_clean ?_ ?_
      · rw [size]
        decide
      · intro leaf inside
        rw [List.mem_singleton.mp inside]
        exact fun _ _ => trivial
    · trivial
  · intro sub member
    rcases wedge_member member with rfl | rfl
    · exact ⟨List.not_mem_nil,trivial,trivial⟩
    · trivial
  · rw [List.length_append,List.length_replicate,List.length_replicate]
    decide
  · intro free
    have jams : Jams threadNum queueMax wedgeTree.forest := by
      rw [show wedgeTree.forest = wedge queueMax (threadNum - 1) from folders_wedge ..]
      exact wedge_jams (by decide) 11
    obtain ⟨log,s,run,stuck⟩ := jam_stuck jams
    exact (free log s run).1 stuck

end LinuxCoding.DirPool
