import Mathlib.Data.Fintype.Option
import LinuxCoding.TaskPool.Accepting

namespace LinuxCoding.TaskPool.Server
open Chain CInt Fifo Signals Transition

section
variable {workers : Nat} {handleClient : Pointer} {log emitted : List (Event workers)} {s u : State workers} {queue : List TaskT}
  {hold : Fin workers → Option Nat}

theorem pool_only (events : List (TaskPool.Event (Option (Fin workers)))) : poolLog (events.map .pool) = events := by
  induction events with
  | nil => rfl
  | cons event rest ih => exact congrArg (event :: ·) ih

-- What the server does to its pool is a run of the pool.
theorem pool_step (serving : Serving handleClient log s queue hold) (step : Step handleClient s emitted u) :
    Runs TaskPool.Step s.pool (poolLog emitted) u.pool := by
  rcases step with own | net
  · cases own with
    | stores | announces | fails | replies | closes => exact .nil
    | allocates node at_ fresh =>
      have handing := serving.handing
      rw [at_] at handing
      exact .one (.malloc none _ node handing fresh)
    | adds at_ links section_ => exact .one (.add none links section_)
    | sleeps w fetching section_ => exact .one (.wait (some w) fetching section_)
    | takes w fetching section_ =>
      rw [pool_only]
      exact .one (.take (some w) fetching section_)
    | begins w running at_ =>
      rw [pool_only]
      exact .one (.run (some w) running)
    | loads w at_ =>
      unfold State.load
      split <;> exact .nil
    | frees w at_ =>
      unfold State.free
      split <;> exact .nil
    | returns w freeing at_ => exact .one (.free (some w) freeing)
  · cases net with
    | accepts | refuses | receives | hangsUp => exact .nil
    | rouses w fetching section_ => exact .one (.rouse (some w) fetching section_)

theorem pool_runs (run : Runs (Step handleClient) (start workers) log s) :
    Runs TaskPool.Step (TaskPool.start Option.isSome) (poolLog log) s.pool := by
  induction run with
  | nil => exact .nil
  | step prior taken ih =>
    obtain ⟨queue,hold,serving,-⟩ := run_serves prior
    rw [poolLog_append]
    exact ih.append (pool_step serving taken)

end

-- Only a worker at the mutex waits for it, and for a task.
def Waits (pool : TaskPool.State τ) : Prop := ∀ t op, (pool.calls.status t).pending = some op → op = .work ∧ pool.pc t = .fetching

theorem waits_goto [DecidableEq τ] {pool : TaskPool.State τ} (waits : Waits pool) (other : pool.pc t ≠ .fetching) (shared : Shared) (pc : Pc) :
    Waits (TaskPool.State.goto ⟨⟨shared,pool.calls.status⟩,pool.pc⟩ t pc) := by
  intro u op pending
  obtain ⟨work,fetching⟩ := waits u op pending
  have apart : u ≠ t := by
    rintro rfl
    exact other fetching
  exact ⟨work,(Function.update_of_ne apart ..).trans fetching⟩

theorem waits_calls [DecidableEq τ] {pool : TaskPool.State τ} (waits : Waits pool) (fetching : pool.pc t = .fetching)
    (section_ : Signals.Step sections pool.calls [⟨t,.work,outcome⟩] calls) : Waits {pool with calls := calls} := by
  obtain ⟨others,own⟩ := step_pending section_
  intro u op pending
  by_cases here : u = t
  · subst here
    rcases own with none | ⟨some,-⟩
    · rw [none] at pending
      cases pending
    · rw [some] at pending
      cases pending
      exact ⟨rfl,fetching⟩
  · rw [others u here] at pending
    exact waits u op pending

theorem waits_returned [DecidableEq τ] {pool : TaskPool.State τ} (waits : Waits pool)
    (section_ : Signals.Step sections pool.calls [⟨t,op,.returned ret⟩] calls) (pc : Pc) : Waits (TaskPool.State.goto ⟨calls,pool.pc⟩ t pc) := by
  obtain ⟨others,own⟩ := step_pending section_
  intro u other pending
  by_cases here : u = t
  · subst here
    rcases own with none | ⟨-,still⟩
    · simp [TaskPool.State.goto,none] at pending
    · exact absurd rfl (still ret)
  · have before : (pool.calls.status u).pending = some other := (others u here).symm.trans pending
    obtain ⟨work,fetching⟩ := waits u other before
    exact ⟨work,(Function.update_of_ne here ..).trans fetching⟩

theorem waits_run [DecidableEq τ] {pool : TaskPool.State τ} (worker : τ → Bool) (run : Runs TaskPool.Step (TaskPool.start worker) log pool) : Waits pool := by
  refine run.stateInvariant (I := Waits) ?_ (fun t op pending => by cases pending)
  intro pool emitted after waits step
  cases step with
  | malloc t task node idle fresh => exact waits_goto waits (by rw [idle]; nofun) _ _
  | add t links section_ => exact waits_returned waits section_ _
  | wait t fetching section_ => exact waits_calls waits fetching section_
  | rouse t fetching section_ => exact waits_calls waits fetching section_
  | take t fetching section_ => exact waits_returned waits section_ _
  | run t running =>
    have other : pool.pc t ≠ .fetching := by rw [running]; nofun
    unfold TaskPool.run
    split <;> exact waits_goto waits other pool.calls.shared _
  | free t freeing =>
    have other : pool.pc t ≠ .fetching := by rw [freeing]; nofun
    unfold TaskPool.free
    split
    · exact waits_goto waits other pool.calls.shared _
    · exact waits_goto waits other _ _

section
variable {workers : Nat} {handleClient : Pointer} {log : List (Event workers)} {s : State workers} {queue : List TaskT} {hold : Fin workers → Option Nat}
  {w : Fin workers}

-- A worker that can do nothing by itself sleeps, or its client is silent.
theorem stuck_worker (serving : Serving handleClient log s queue hold) (waits : Waits s.pool) (stuck : Stuck (Own handleClient) s) (w : Fin workers) :
    s.pool.calls.status (some w) = .asleep .work ∨ ∃ fd n, s.place w = .reading fd ∧ s.table fd = some n := by
  have position := serving.posts w
  generalize ((hold w).bind fun n => (fds log)[n]?) = client,running : s.pool.pc (some w) = pc,at_ : s.place w = place at position
  cases position with
  | fetching =>
    left
    by_contra awake
    have ready : (s.pool.calls.status (some w)).Ready .work := by
      have own := waits (some w)
      cases status : s.pool.calls.status (some w) with
      | outside => trivial
      | asleep op =>
        obtain ⟨rfl,-⟩ := own op (by rw [status]; rfl)
        exact absurd status awake
      | notified op | roused op => exact (own op (by rw [status]; rfl)).1
    cases empty : sections.waits .work s.pool.calls.shared with
    | true => exact stuck _ _ (.sleeps w running (.sleep _ _ ready empty))
    | false =>
      obtain ⟨status,taken⟩ := Step.leaves (m := sections) _ .work ready empty
      exact stuck _ _ (.takes w running taken)
  | returned => exact absurd (.returns w running at_) (stuck _ _)
  | running => exact absurd (.begins w running at_) (stuck _ _)
  | entered => exact absurd (.loads w at_) (stuck _ _)
  | loaded => exact absurd (.frees w at_) (stuck _ _)
  | @reading fd =>
    right
    cases behind : s.table fd with
    | some n => exact ⟨fd,n,rfl,behind⟩
    | none => exact absurd (.fails w at_ behind) (stuck _ _)
  | answering => exact absurd (.replies w 0 at_) (stuck _ _)
  | closing => exact absurd (.closes w at_) (stuck _ _)

def Full (s : State workers) : Prop := (∀ arg, s.cells arg ≠ none) ∨ ∀ node, s.pool.shared.heap node ≠ none

theorem stuck_main (serving : Serving handleClient log s queue hold) (waits : Waits s.pool) (stuck : Stuck (Own handleClient) s) :
    s.main = .accepting ∨ Full s := by
  have handing := serving.handing
  cases at_ : s.main with
  | accepting => exact .inl rfl
  | storing fd => exact .inr (.inl fun arg fresh => stuck _ _ (.stores arg at_ fresh))
  | adding fd arg => exact .inr (.inr fun node fresh => stuck _ _ (.allocates node at_ fresh))
  | linking fd arg =>
    rw [at_] at handing
    obtain ⟨node,links⟩ := handing
    have ready : (s.pool.calls.status none).Ready (.add node) := by
      have own := waits none
      rw [links] at own
      cases status : s.pool.calls.status none with
      | outside => trivial
      | asleep op | notified op | roused op => cases (own op (by rw [status]; rfl)).2
    obtain ⟨status,added⟩ := Step.leaves (m := sections) _ (.add node) ready rfl
    exact absurd (.adds at_ links added) (stuck _ _)
  | announcing fd => exact absurd (.announces at_) (stuck _ _)

-- While main waits for a client, what has been accepted and not taken is on the list.
theorem Serving.backlog (serving : Serving handleClient log s queue hold) (at_ : s.main = .accepting) :
    (fds log).length = (takers log).length + queue.length := by
  have waiting := congrArg List.length serving.waiting
  have few := serving.few
  rw [at_] at waiting
  simp only [owed,Main.owed,Main.fresh,List.append_nil,List.map_nil,List.length_map,List.length_drop] at waiting
  omega

-- What holds in every run. A connection belongs to one worker from its take to its close, and
-- what is said on it is a session of its own; it is open in the kernel as long as that goes on.
structure Served (log : List (Event workers)) (s : State workers) : Prop where
  safe : (∀ w, s.place w ≠ .crashed) ∧ ∀ t, s.pool.pc t ≠ .crashed
  order : (takers log).length ≤ (fds log).length
  owned : ∀ n, ∀ said ∈ talks n log, (takers log)[n]? = some said.1
  sessions : ∀ n fd, (fds log)[n]? = some fd → 0 ≤ fd →
    ∃ stage, Session ((talks n log).map Prod.snd) stage ∧ (s.table fd = some n ↔ stage ≠ .done)
  descriptors : ∀ w fd, (s.place w).descriptor = some fd → 0 ≤ fd → ∃ n, s.table fd = some n ∧ (takers log)[n]? = some w
  apart : ∀ v w fd, (s.place v).descriptor = some fd → (s.place w).descriptor = some fd → 0 ≤ fd → v = w

theorem stage_open (place : Place) : place.stage ≠ .done := by
  cases place <;> exact Stage.noConfusion

theorem Serving.served (serving : Serving handleClient log s queue hold) (spoken : Spoken log s hold) : Served log s := by
  obtain ⟨nodes,-,lawful⟩ := serving.queued
  have descriptors : ∀ w fd, (s.place w).descriptor = some fd → 0 ≤ fd → ∃ n, s.table fd = some n ∧ (takers log)[n]? = some w := by
    intro w fd on valid
    obtain ⟨n,held,-,behind⟩ := serving.client on
    exact ⟨n,(behind n).mpr ⟨valid,rfl⟩,serving.mine w n held⟩
  refine ⟨⟨fun w => (serving.posts w).safe,lawful.shape.safe⟩,serving.few,spoken.speaker,?_,descriptors,?_⟩
  · intro n fd stored valid
    by_cases later : (takers log).length ≤ n
    · refine ⟨.reading,?_,?_⟩
      · rw [spoken.unspoken later]
        rfl
      · exact iff_of_true ((serving.table fd n).mpr ⟨valid,stored,.inl later⟩) nofun
    · by_cases held : ∃ w, hold w = some n
      · obtain ⟨w,own⟩ := held
        exact ⟨_,spoken.held w n own fd stored valid,iff_of_true ((serving.table fd n).mpr ⟨valid,stored,.inr ⟨w,own⟩⟩) (stage_open _)⟩
      · refine ⟨.done,spoken.done n (by omega) (fun w own => held ⟨w,own⟩) fd stored valid,iff_of_false ?_ (fun other => other rfl)⟩
        intro behind
        obtain ⟨-,-,opened⟩ := (serving.table fd n).mp behind
        exact opened.elim later held
  · intro v w fd left right valid
    obtain ⟨n,behind,first⟩ := descriptors v fd left valid
    obtain ⟨m,also,second⟩ := descriptors w fd right valid
    obtain rfl : n = m := Option.some.inj (behind.symm.trans also)
    exact Option.some.inj (first.symm.trans second)

end

-- One worker reads from the first client, and the second waits.
theorem second_run : ∃ log s, Runs (Step 1) (start 1) log s ∧ s.main = .accepting ∧ (fds log).length = 2 ∧ (takers log).length = 1 ∧
    ∀ w, ∃ node fd n, s.pool.pc (some w) = .freeing node ∧ s.place w = .reading fd ∧ s.table fd = some n := by
  have a0 : Runs (Step 1) (start 1) [] (start 1) := .nil
  have a1 := a0.step (.inr (.accepts 7 rfl (by decide) rfl))
  have a2 := a1.step (.inl (.stores 2 rfl rfl))
  have a3 := a2.step (.inl (.allocates 3 rfl rfl))
  have a4 := a3.step (.inl (.adds rfl rfl (.alone (m := sections) none (.add 3) rfl)))
  have a5 := a4.step (.inl (.announces rfl))
  have b1 := a5.step (.inl (.takes 0 rfl (.alone (m := sections) (some 0) .work rfl)))
  have b2 := b1.step (.inl (.begins 0 rfl rfl))
  have b3 := b2.step (.inl (.loads 0 rfl))
  have b4 := b3.step (.inl (.frees 0 rfl))
  have c1 := b4.step (.inr (.accepts 8 rfl (by decide) rfl))
  have c2 := c1.step (.inl (.stores 2 rfl rfl))
  have c3 := c2.step (.inl (.allocates 4 rfl rfl))
  have c4 := c3.step (.inl (.adds rfl rfl (.alone (m := sections) none (.add 4) rfl)))
  have c5 := c4.step (.inl (.announces rfl))
  have reached : ∃ log s, Runs (Step 1) (start 1) log s ∧ s.main = .accepting ∧ (fds log).length = 2 ∧ (takers log).length = 1 ∧
      s.pool.pc (some 0) = .freeing 3 ∧ s.place 0 = .reading 7 ∧ s.table 7 = some 0 := ⟨_,_,c5,rfl,rfl,rfl,rfl,rfl,rfl⟩
  obtain ⟨log,s,run,at_,accepted,taken,freeing,reading,behind⟩ := reached
  refine ⟨log,s,run,at_,accepted,taken,fun w => ⟨3,7,0,?_⟩⟩
  obtain rfl : w = 0 := Subsingleton.elim _ _
  exact ⟨freeing,reading,behind⟩

-- In every run, whatever the clients do and however the threads come to run.
theorem clients_served : ∀ (workers : Nat) (handleClient : Pointer) (log : List (Event workers)) (s : State workers),
    Runs (Step handleClient) (start workers) log s → Served log s := by
  intro workers handleClient log s run
  obtain ⟨queue,hold,serving,spoken⟩ := run_serves run
  exact serving.served spoken

theorem first_served : ∃ log s, Runs (Step 1) (start 1) log s ∧ (fds log).length = 2 ∧ (takers log).length = 1 ∧ Served log s := by
  obtain ⟨log,s,run,-,accepted,taken,-⟩ := second_run
  exact ⟨log,s,run,accepted,taken,clients_served 1 1 log s run⟩

theorem reading_stuck {workers : Nat} {handleClient : Pointer} {s : State workers} (at_ : s.main = .accepting)
    (busy : ∀ w, ∃ node fd n, s.pool.pc (some w) = .freeing node ∧ s.place w = .reading fd ∧ s.table fd = some n) : Stuck (Own handleClient) s := by
  intro emitted u step
  cases step with
  | stores arg main | allocates node main | adds main | announces main =>
    rw [at_] at main
    cases main
  | sleeps w pc | takes w pc | begins w pc =>
    obtain ⟨node,fd,n,freeing,-⟩ := busy w
    rw [freeing] at pc
    cases pc
  | loads w place | frees w place | replies w count place | closes w place =>
    obtain ⟨node,fd,n,-,reading,-⟩ := busy w
    rw [reading] at place
    cases place
  | fails w place missing =>
    obtain ⟨node,fd,n,-,reading,behind⟩ := busy w
    rw [reading] at place
    cases place
    rw [behind] at missing
    cases missing
  | returns w pc place =>
    obtain ⟨node,fd,n,-,reading,-⟩ := busy w
    rw [reading] at place
    cases place

-- A client waits for a worker only while every worker is with a client that is silent, and
-- main waits for memory or for the next client. task_count is the backlog up to 2^32.
theorem backlog_quiet {workers : Nat} {handleClient : Pointer} {log : List (Event workers)} {s : State workers}
    (run : Runs (Step handleClient) (start workers) log s) (stuck : Stuck (Own handleClient) s) :
    (s.main = .accepting ∨ Full s) ∧
    ((∀ w, ∃ fd n, s.place w = .reading fd ∧ s.table fd = some n) ∨
      (s.main = .accepting → ((fds log).length - (takers log).length) % 4294967296 = 0)) := by
  obtain ⟨queue,hold,serving,-⟩ := run_serves run
  have waits := waits_run _ (pool_runs run)
  refine ⟨stuck_main serving waits stuck,?_⟩
  by_cases busy : ∀ w, ∃ fd n, s.place w = .reading fd ∧ s.table fd = some n
  · exact .inl busy
  · right
    intro at_
    obtain ⟨w,idle⟩ := not_forall.mp busy
    have asleep := (stuck_worker serving waits stuck w).resolve_right idle
    have awaited := queued_task_awaited _ (pool_runs run)
    -- Nobody has been notified: such a worker could take the mutex.
    have none : ∀ t, s.pool.calls.status t ≠ .notified .work := by
      intro t notified
      obtain ⟨-,fetching⟩ := waits t .work (by rw [notified]; rfl)
      cases t with
      | none =>
        have handing := serving.handing
        rw [at_] at handing
        exact absurd (handing.symm.trans fetching) nofun
      | some v =>
        rcases stuck_worker serving waits stuck v with sleeps | ⟨fd,n,reads,-⟩
        · rw [notified] at sleeps
          cases sleeps
        · rw [(serving.idle fetching).1] at reads
          cases reads
    have zero := awaited.alone _ asleep none
    obtain ⟨nodes,listed,lawful⟩ := serving.queued
    have count := queued_linked lawful.shape.linked
    have backlog := serving.backlog at_
    rw [← listed,tasks,List.length_map] at backlog
    have whole : queued s.pool.shared = 0 := by
      rw [queued]
      change s.pool.calls.shared.pool.taskCount.val % 4294967296 = 0
      rw [show s.pool.calls.shared.pool.taskCount.val = 0 from zero]
      rfl
    rw [whole] at count
    omega

theorem second_waits : ∃ log s, Runs (Step 1) (start 1) log s ∧ Stuck (Own 1) s ∧ (fds log).length = 2 ∧ (takers log).length = 1 ∧
    ((s.main = .accepting ∨ Full s) ∧ ((∀ w, ∃ fd n, s.place w = .reading fd ∧ s.table fd = some n) ∨
      (s.main = .accepting → ((fds log).length - (takers log).length) % 4294967296 = 0))) := by
  obtain ⟨log,s,run,at_,accepted,taken,busy⟩ := second_run
  exact ⟨log,s,run,reading_stuck at_ busy,accepted,taken,backlog_quiet run (reading_stuck at_ busy)⟩

end LinuxCoding.TaskPool.Server
