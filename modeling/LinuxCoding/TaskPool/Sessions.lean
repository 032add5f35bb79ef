import LinuxCoding.TaskPool.Clients

namespace LinuxCoding.TaskPool.Server
open Chain Fifo Signals Transition

variable {workers : Nat} {handleClient : Pointer} {log emitted : List (Event workers)} {s : State workers} {queue : List TaskT}
  {hold : Fin workers → Option Nat} {w : Fin workers}

theorem enter_stage (same : place.stage = (s.place w).stage) (v : Fin workers) : (Function.update s.place w place v).stage = (s.place v).stage := by
  by_cases own : v = w
  · subst own
    rw [Function.update_self]
    exact same
  · rw [Function.update_of_ne own]

theorem load_serves (serving : Serving handleClient log s queue hold) (spoken : Spoken log s hold) (at_ : s.place w = .entered arg) :
    Serving handleClient log (s.load w arg) queue hold ∧ Spoken log (s.load w arg) hold := by
  have position := serving.posts w
  rw [at_] at position
  generalize client : ((hold w).bind fun n => (fds log)[n]?) = fd,running : s.pool.pc (some w) = pc at position
  cases position with
  | @entered arg fd node stored =>
    have loads : s.load w arg = s.enter w (.loaded arg fd) := by rw [State.load,stored]
    rw [loads,← List.append_nil log]
    refine ⟨serving.handles rfl rfl rfl ?_ (fun _ _ => rfl) ?_,spoken.silent serving (fun _ => rfl) rfl (fun v _ _ _ _ _ => enter_stage (by rw [at_]; rfl) v)⟩
    · rw [client,running]
      exact .loaded stored
    · intro used
      rw [running,at_]
      exact id

theorem free_serves (serving : Serving handleClient log s queue hold) (spoken : Spoken log s hold) (at_ : s.place w = .loaded arg fd) :
    Serving handleClient log (s.free w arg fd) queue hold ∧ Spoken log (s.free w arg fd) hold := by
  have position := serving.posts w
  rw [at_] at position
  generalize client : ((hold w).bind fun n => (fds log)[n]?) = fd,running : s.pool.pc (some w) = pc at position
  cases position with
  | @loaded arg fd node stored =>
    have frees : s.free w arg fd = {s.enter w (.reading fd) with cells := Function.update s.cells arg none} := by rw [State.free,stored]
    rw [frees,← List.append_nil log]
    refine ⟨serving.handles rfl rfl rfl ?_ ?_ ?_,spoken.silent serving (fun _ => rfl) rfl (fun v _ _ _ _ _ => enter_stage (by rw [at_]; rfl) v)⟩
    · rw [client,running]
      exact .reading
    · intro other used
      rw [running,at_] at used
      apply Function.update_of_ne
      rintro rfl
      exact used rfl
    · intro other used
      simp at used

theorem begin_serves (serving : Serving handleClient log s queue hold) (spoken : Spoken log s hold) (running : s.pool.pc (some w) = .running node task)
    (at_ : s.place w = .outside) : Serving handleClient (log ++ (run (some w) node s.pool).2.map .pool) (s.begin handleClient w node) queue hold ∧
      Spoken (log ++ (run (some w) node s.pool).2.map .pool) (s.begin handleClient w node) hold := by
  obtain ⟨nodes,listed,lawful⟩ := serving.queued
  obtain ⟨runs,-⟩ := run_shape lawful.shape running
  have position := serving.posts w
  rw [at_,running] at position
  generalize client : ((hold w).bind fun n => (fds log)[n]?) = known at position
  cases position with
  | running function stored =>
    rename_i fd
    have begins : s.begin handleClient w node = {s.enter w (.entered task.arg) with pool := s.pool.goto (some w) (.freeing node)} := by
      rw [State.begin,runs]
      simp only [called,function,if_true]
    have queued : Queued (poolLog (log ++ [.pool (.ran (some w) task)])) (s.pool.goto (some w) (.freeing node)) queue := by
      obtain ⟨rest,kept,same⟩ := queued_step serving.queued (.run (some w) running)
      rw [runs] at kept same
      have same : rest = queue := same.trans (List.append_nil _)
      rw [poolLog_append,← same]
      exact kept
    rw [begins,runs]
    refine ⟨serving.moves queued rfl rfl rfl ?_ (fun _ _ => rfl) ?_,spoken.silent serving (fun _ => rfl) rfl (fun v _ _ _ _ _ => enter_stage (by rw [at_]; rfl) v)⟩
    · rw [client]
      exact .entered stored
    · intro arg used
      rw [running,at_]
      exact used

theorem return_serves (serving : Serving handleClient log s queue hold) (spoken : Spoken log s hold) (freeing : s.pool.pc (some w) = .freeing node)
    (at_ : s.place w = .outside) : Serving handleClient log {s with pool := TaskPool.free (some w) node s.pool} queue hold ∧
      Spoken log {s with pool := TaskPool.free (some w) node s.pool} hold := by
  obtain ⟨nodes,listed,lawful⟩ := serving.queued
  obtain ⟨frees,-⟩ := free_shape lawful.shape freeing
  have position := serving.posts w
  rw [at_,freeing] at position
  generalize client : ((hold w).bind fun n => (fds log)[n]?) = known at position
  cases position with
  | returned =>
    have same : {s with pool := TaskPool.free (some w) node s.pool} = {s.enter w .outside with pool := TaskPool.free (some w) node s.pool} := by
      rw [State.enter,← at_,Function.update_eq_self]
    have queued : Queued (poolLog (log ++ [])) (TaskPool.free (some w) node s.pool) queue := by
      rw [List.append_nil]
      exact queued_silent serving.queued (.free (some w) freeing)
    have stays : ∀ v, (Function.update s.place w .outside v).stage = (s.place v).stage := enter_stage (by rw [at_])
    rw [same,← List.append_nil log]
    refine ⟨serving.moves queued (by rw [frees]; rfl) rfl rfl ?_ (fun _ _ => rfl) (fun _ used => by cases used),spoken.silent serving (fun _ => rfl) rfl (fun v _ _ _ _ _ => stays v)⟩
    rw [client]
    exact .fetching

-- A thread only waits.
theorem calls_serves (serving : Serving handleClient log s queue hold) (spoken : Spoken log s hold)
    (step : TaskPool.Step s.pool [] {s.pool with calls := calls}) : Serving handleClient log {s with pool := {s.pool with calls := calls}} queue hold ∧
      Spoken log {s with pool := {s.pool with calls := calls}} hold :=
  ⟨⟨queued_silent serving.queued step,serving.count,serving.handing,serving.function,serving.few,serving.waiting,serving.apart,serving.posts,
    serving.own,serving.mine,serving.table⟩,⟨spoken.speaker,spoken.held,spoken.done⟩⟩

-- A worker at the mutex has no client.
theorem Serving.idle (serving : Serving handleClient log s queue hold) (fetching : s.pool.pc (some w) = .fetching) :
    s.place w = .outside ∧ hold w = none := by
  have position := serving.posts w
  rw [fetching] at position
  generalize client : ((hold w).bind fun n => (fds log)[n]?) = known,at_ : s.place w = place at position
  cases position with
  | fetching =>
    refine ⟨rfl,?_⟩
    cases held : hold w with
    | none => rfl
    | some n =>
      rw [held] at client
      have missing := List.getElem?_eq_none_iff.mp client
      have used := serving.used held
      have few := serving.few
      omega

-- The first task of the list is for the first connection that no worker has taken.
theorem Serving.first (serving : Serving handleClient log s (task :: queue) hold) :
    ∃ fd, s.cells task.arg = some fd ∧ (fds log)[(takers log).length]? = some fd ∧
      (owed queue s.main).map s.cells ++ s.main.fresh.map some = ((fds log).drop ((takers log).length + 1)).map some := by
  have waiting := serving.waiting
  cases fresh : (fds log).drop (takers log).length with
  | nil =>
    rw [fresh] at waiting
    cases waiting
  | cons fd others =>
    rw [fresh] at waiting
    have rest : (fds log).drop ((takers log).length + 1) = others := by rw [← List.tail_drop,fresh,List.tail_cons]
    refine ⟨fd,(List.cons.inj waiting).1,?_,?_⟩
    · rw [← List.head?_drop,fresh]
      rfl
    · rw [rest]
      exact (List.cons.inj waiting).2

theorem take_open (free : hold w = none) (grown : takers after = takers log ++ [w]) (n : Nat) :
    Open (Function.update hold w (some (takers log).length)) after n ↔ Open hold log n := by
  rw [Open,Open,grown,List.length_append,List.length_singleton]
  constructor
  · rintro (later | ⟨v,held⟩)
    · exact .inl (by omega)
    · by_cases own : v = w
      · subst own
        rw [Function.update_self] at held
        exact .inl (Nat.le_of_eq (Option.some.inj held))
      · rw [Function.update_of_ne own] at held
        exact .inr ⟨v,held⟩
  · rintro (later | ⟨v,held⟩)
    · by_cases first : n = (takers log).length
      · exact .inr ⟨w,by rw [Function.update_self,first]⟩
      · exact .inl (by omega)
    · have own : v ≠ w := by
        rintro rfl
        rw [free] at held
        cases held
      exact .inr ⟨v,(Function.update_of_ne own ..).trans held⟩

theorem take_serving (serving : Serving handleClient log s (task :: queue) hold) (fetching : s.pool.pc (some w) = .fetching)
    (queued : Queued (poolLog (log ++ emitted)) pool queue) (moved : pool.pc = Function.update s.pool.pc (some w) (.running node task))
    (grown : takers (log ++ emitted) = takers log ++ [w]) (none : fds emitted = []) :
    Serving handleClient (log ++ emitted) {s with pool := pool} queue (Function.update hold w (some (takers log).length)) := by
  obtain ⟨at_,free⟩ := serving.idle fetching
  obtain ⟨fd,stored,next,waiting⟩ := serving.first
  obtain ⟨unlisted,apart⟩ : task.arg ∉ owed queue s.main ∧ (owed queue s.main).Nodup := List.nodup_cons.mp serving.apart
  have same : fds (log ++ emitted) = fds log := by rw [fds_append,none,List.append_nil]
  have others : ∀ v, v ≠ w → pool.pc (some v) = s.pool.pc (some v) := by
    intro v other
    rw [moved,Function.update_of_ne (fun same => other (Option.some.inj same))]
  have mine : pool.pc (some w) = .running node task := by rw [moved,Function.update_self]
  refine ⟨queued,?_,?_,fun task listed => serving.function task (List.mem_cons_of_mem _ listed),?_,?_,apart,?_,?_,?_,?_⟩
  · rw [same]
    exact serving.count
  · change s.main.At handleClient (pool.pc Option.none)
    rw [moved,Function.update_of_ne (Option.some_ne_none w).symm]
    exact serving.handing
  · rw [same,grown,List.length_append,List.length_singleton]
    exact (List.getElem?_eq_some_iff.mp next).1
  · rw [same,grown,List.length_append,List.length_singleton]
    exact waiting
  · intro v
    rw [same]
    by_cases own : v = w
    · subst own
      rw [Function.update_self,Option.bind_some,next,mine,show s.place v = .outside from at_]
      exact .running (serving.function task List.mem_cons_self) stored
    · rw [Function.update_of_ne own,others v own]
      exact serving.posts v
  · -- The argument has been in the list, so no other worker has it.
    have taken : ∀ v, v ≠ w → argument (pool.pc (some v)) (s.place v) ≠ some task.arg := by
      intro v other used
      rw [others v other] at used
      exact (serving.own v _ used).1 List.mem_cons_self
    intro v arg used
    by_cases own : v = w
    · subst own
      simp only [mine,at_] at used
      obtain rfl : task.arg = arg := Option.some.inj used
      refine ⟨unlisted,fun x also => ?_⟩
      by_contra other
      exact taken x other also
    · have still := used
      simp only [others v own] at still
      obtain ⟨outside,only⟩ := serving.own v arg still
      refine ⟨fun listed => outside (List.mem_cons_of_mem _ listed),fun x also => ?_⟩
      by_cases other : x = w
      · subst other
        simp only [mine,at_] at also
        obtain rfl : task.arg = arg := Option.some.inj also
        exact absurd used (taken v own)
      · simp only [others x other] at also
        exact only x also
  · intro v n held
    rw [grown]
    by_cases own : v = w
    · subst own
      rw [Function.update_self] at held
      obtain rfl := Option.some.inj held
      exact List.getElem?_concat_length
    · rw [Function.update_of_ne own] at held
      rw [List.getElem?_append_left (serving.used held)]
      exact serving.mine v n held
  · intro fd n
    rw [same,take_open free grown]
    exact serving.table fd n

theorem take_spoken (serving : Serving handleClient log s queue hold) (spoken : Spoken log s hold) (fetching : s.pool.pc (some w) = .fetching)
    (grown : takers (log ++ emitted) = takers log ++ [w]) (none : fds emitted = []) (silent : ∀ n, talks n emitted = []) :
    Spoken (log ++ emitted) {s with pool := pool} (Function.update hold w (some (takers log).length)) := by
  obtain ⟨at_,free⟩ := serving.idle fetching
  refine ⟨?_,?_,?_⟩
  · intro n said member
    rw [talks_append,silent,List.append_nil] at member
    have taken := spoken.speaker n said member
    rw [grown,List.getElem?_append_left (List.getElem?_eq_some_iff.mp taken).1]
    exact taken
  · intro v n held fd stored valid
    rw [fds_append,none,List.append_nil] at stored
    rw [talks_append,silent,List.append_nil]
    by_cases own : v = w
    · subst own
      rw [Function.update_self] at held
      obtain rfl := Option.some.inj held
      rw [spoken.unspoken (Nat.le_refl _),show s.place v = .outside from at_]
      rfl
    · rw [Function.update_of_ne own] at held
      exact spoken.held v n held fd stored valid
  · intro n earlier unheld fd stored valid
    rw [fds_append,none,List.append_nil] at stored
    rw [grown,List.length_append,List.length_singleton] at earlier
    rw [talks_append,silent,List.append_nil]
    have older : n ≠ (takers log).length := by
      rintro rfl
      exact unheld w (Function.update_self ..)
    refine spoken.done n (by omega) (fun v held => ?_) fd stored valid
    have own : v ≠ w := by
      rintro rfl
      rw [free] at held
      cases held
    exact unheld v ((Function.update_of_ne own ..).trans held)

theorem take_serves (serving : Serving handleClient log s queue hold) (spoken : Spoken log s hold) (fetching : s.pool.pc (some w) = .fetching)
    (section_ : Signals.Step sections s.pool.calls [⟨some w,.work,.returned ret⟩] calls) : ∃ rest hold',
      Serving handleClient (log ++ (taken (some w) ret).map .pool) {s with pool := {s.pool with calls := calls}.goto (some w) (afterWork ret)} rest hold' ∧
      Spoken (log ++ (taken (some w) ret).map .pool) {s with pool := {s.pool with calls := calls}.goto (some w) (afterWork ret)} hold' := by
  obtain ⟨node,task,rest,rfl,rfl⟩ := queued_takes serving.queued section_
  obtain ⟨left,kept,balance⟩ := queued_step serving.queued (.take (some w) fetching section_)
  obtain rfl : left = rest := by
    have balance : task :: left = (task :: rest) ++ [] := balance
    exact (List.cons.inj (balance.trans (List.append_nil _))).2
  have grown : takers (log ++ (taken (some w) (.took node task)).map .pool) = takers log ++ [w] := takers_append ..
  refine ⟨left,_,take_serving serving fetching ?_ rfl grown rfl,take_spoken serving spoken fetching grown rfl (fun _ => rfl)⟩
  rw [poolLog_append]
  exact kept

theorem close_serving (serving : Serving handleClient log s queue hold) (at_ : s.place w = .closing fd) (pooled : poolLog emitted = [])
    (unseen : fds emitted = []) (untaken : takers emitted = []) : Serving handleClient (log ++ emitted) (s.close w fd) queue (Function.update hold w none) := by
  have on : (s.place w).descriptor = some fd := by rw [at_]; rfl
  obtain ⟨n,held,stored,behind⟩ := serving.client on
  have same : fds (log ++ emitted) = fds log := by rw [fds_append,unseen,List.append_nil]
  have sameTakers : takers (log ++ emitted) = takers log := by rw [takers_append,untaken,List.append_nil]
  have position := serving.posts w
  rw [at_] at position
  generalize ((hold w).bind fun n => (fds log)[n]?) = client,freeing : s.pool.pc (some w) = pc at position
  cases position with
  | @closing _ node =>
    have other : ∀ m, Open (Function.update hold w none) (log ++ emitted) m ↔ Open hold log m ∧ m ≠ n := by
      intro m
      rw [Open,Open,sameTakers]
      constructor
      · rintro (later | ⟨v,owns⟩)
        · have used := serving.used held
          exact ⟨.inl later,by omega⟩
        · by_cases own : v = w
          · subst own
            rw [Function.update_self] at owns
            cases owns
          · rw [Function.update_of_ne own] at owns
            refine ⟨.inr ⟨v,owns⟩,?_⟩
            rintro rfl
            exact own (serving.alone owns held)
      · rintro ⟨later | ⟨v,owns⟩,apart⟩
        · exact .inl later
        · have own : v ≠ w := by
            rintro rfl
            exact apart (Option.some.inj (owns.symm.trans held))
          exact .inr ⟨v,(Function.update_of_ne own ..).trans owns⟩
    refine ⟨?_,?_,serving.handing,serving.function,?_,?_,serving.apart,?_,?_,?_,?_⟩
    · rw [poolLog_append,pooled,List.append_nil]
      exact serving.queued
    · rw [same]
      exact serving.count
    · rw [same,sameTakers]
      exact serving.few
    · rw [same,sameTakers]
      exact serving.waiting
    · intro v
      rw [same]
      by_cases own : v = w
      · subst own
        simp only [State.close,State.enter,Function.update_self,freeing]
        exact .returned
      · simp only [State.close,State.enter,Function.update_of_ne own]
        exact serving.posts v
    · have kept : ∀ v arg, argument (s.pool.pc (some v)) ((s.close w fd).place v) = some arg → argument (s.pool.pc (some v)) (s.place v) = some arg := by
        intro v arg used
        by_cases own : v = w
        · subst own
          simp only [State.close,State.enter,Function.update_self,freeing] at used
          cases used
        · simpa only [State.close,State.enter,Function.update_of_ne own] using used
      intro v arg used
      obtain ⟨unlisted,only⟩ := serving.own v arg (kept v arg used)
      exact ⟨unlisted,fun x also => only x (kept x arg also)⟩
    · intro v m owns
      rw [sameTakers]
      by_cases own : v = w
      · subst own
        rw [Function.update_self] at owns
        cases owns
      · rw [Function.update_of_ne own] at owns
        exact serving.mine v m owns
    · intro fd' m
      rw [same,other]
      by_cases here : fd' = fd
      · subst here
        simp only [State.close,Function.update_self,reduceCtorEq,false_iff]
        rintro ⟨valid,listed,opened,apart⟩
        exact apart ((behind m).mp ((serving.table fd' m).mpr ⟨valid,listed,opened⟩)).2
      · simp only [State.close,Function.update_of_ne here]
        rw [serving.table]
        constructor
        · rintro ⟨valid,listed,opened⟩
          refine ⟨valid,listed,opened,?_⟩
          rintro rfl
          exact here (Option.some.inj (listed.symm.trans stored))
        · rintro ⟨valid,listed,opened,-⟩
          exact ⟨valid,listed,opened⟩

theorem close_spoken (serving : Serving handleClient log s queue hold) (spoken : Spoken log s hold) (at_ : s.place w = .closing fd) :
    Spoken (log ++ [.closed w (s.table fd)]) (s.close w fd) (Function.update hold w none) := by
  have on : (s.place w).descriptor = some fd := by rw [at_]; rfl
  obtain ⟨n,held,stored,behind⟩ := serving.client on
  -- The session of another connection is as it was.
  have elsewhere : ∀ m, m ≠ n → talks m (log ++ [.closed w (s.table fd)]) = talks m log := by
    intro m apart
    rw [talks_append]
    cases number : s.table fd with
    | none => exact List.append_nil _
    | some k =>
      obtain ⟨-,rfl⟩ := (behind k).mp number
      simp [talks,talk,Ne.symm apart]
  have same : fds (log ++ [.closed w (s.table fd)]) = fds log := (fds_append ..).trans (List.append_nil _)
  have sameTakers : takers (log ++ [.closed w (s.table fd)]) = takers log := (takers_append ..).trans (List.append_nil _)
  refine ⟨?_,?_,?_⟩
  · intro m said member
    rw [sameTakers]
    by_cases here : m = n
    · subst here
      rw [talks_append] at member
      rcases List.mem_append.mp member with before | new
      · exact spoken.speaker m said before
      · cases number : s.table fd with
        | none =>
          rw [number] at new
          cases new
        | some k =>
          obtain ⟨-,rfl⟩ := (behind k).mp number
          obtain rfl : said = (w,.closed) := by simpa [talks,talk,number] using new
          exact serving.mine w k held
    · rw [elsewhere m here] at member
      exact spoken.speaker m said member
  · intro v m owns fd' listed valid
    rw [same] at listed
    by_cases own : v = w
    · subst own
      rw [Function.update_self] at owns
      cases owns
    · rw [Function.update_of_ne own] at owns
      have apart : m ≠ n := by
        rintro rfl
        exact own (serving.alone owns held)
      rw [elsewhere m apart]
      simp only [State.close,State.enter,Function.update_of_ne own]
      exact spoken.held v m owns fd' listed valid
  · intro m earlier unheld fd' listed valid
    rw [sameTakers] at earlier
    rw [same] at listed
    by_cases here : m = n
    · subst here
      obtain rfl : fd' = fd := Option.some.inj (listed.symm.trans stored)
      have before := spoken.held w m held fd' stored valid
      rw [at_] at before
      rw [talks_append,(behind m).mpr ⟨valid,rfl⟩,List.map_append]
      have word : (talks m [Event.closed w (some m)]).map Prod.snd = [Talk.closed] := by simp [talks,talk]
      rw [word]
      exact before.says rfl
    · rw [elsewhere m here]
      refine spoken.done m earlier (fun v owns => ?_) fd' listed valid
      have own : v ≠ w := by
        rintro rfl
        exact here (Option.some.inj (owns.symm.trans held))
      exact unheld v ((Function.update_of_ne own ..).trans owns)

end LinuxCoding.TaskPool.Server
