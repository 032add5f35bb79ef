import LinuxCoding.TaskPool.Sessions

namespace LinuxCoding.TaskPool.Server
open Chain CInt Fifo Signals Total Transition

section
variable {workers : Nat} {handleClient : Pointer} {log emitted : List (Event workers)} {s u : State workers} {queue rest : List TaskT}
  {hold : Fin workers → Option Nat}

-- main takes a connection one step further on its way to the list.
theorem Serving.hands (serving : Serving handleClient log s queue hold) (unseen : fds emitted = []) (untaken : takers emitted = [])
    (queued : Queued (poolLog (log ++ emitted)) u.pool rest) (handing : u.main.At handleClient (u.pool.pc none))
    (function : ∀ task ∈ rest, task.function = handleClient) (others : ∀ w, u.pool.pc (some w) = s.pool.pc (some w))
    (same : u.table = s.table ∧ u.accepted = s.accepted ∧ u.place = s.place) (kept : ∀ arg fd, s.cells arg = some fd → u.cells arg = some fd)
    (waiting : (owed rest u.main).map u.cells ++ u.main.fresh.map some = (owed queue s.main).map s.cells ++ s.main.fresh.map some)
    (apart : (owed rest u.main).Nodup) (new : ∀ arg ∈ owed rest u.main, arg ∈ owed queue s.main ∨ s.cells arg = none) :
    Serving handleClient (log ++ emitted) u rest hold := by
  obtain ⟨tables,count,places⟩ := same
  have sameFds : fds (log ++ emitted) = fds log := by rw [fds_append,unseen,List.append_nil]
  have sameTakers : takers (log ++ emitted) = takers log := by rw [takers_append,untaken,List.append_nil]
  have live : ∀ w arg, argument (s.pool.pc (some w)) (s.place w) = some arg → ∃ fd, s.cells arg = some fd :=
    fun w arg used => (serving.posts w).live used
  refine ⟨queued,?_,handing,function,?_,?_,apart,?_,?_,?_,?_⟩
  · rw [sameFds,count]
    exact serving.count
  · rw [sameFds,sameTakers]
    exact serving.few
  · rw [sameFds,sameTakers,waiting]
    exact serving.waiting
  · intro w
    rw [sameFds,others,places]
    refine (serving.posts w).frame (fun arg used => ?_)
    obtain ⟨fd,stored⟩ := live w arg used
    rw [stored]
    exact kept arg fd stored
  · intro w arg used
    rw [others,places] at used
    obtain ⟨unlisted,only⟩ := serving.own w arg used
    refine ⟨fun listed => ?_,fun v also => only v (by rw [others,places] at also; exact also)⟩
    rcases new arg listed with old | fresh
    · exact unlisted old
    · obtain ⟨fd,stored⟩ := live w arg used
      rw [fresh] at stored
      cases stored
  · rw [sameTakers]
    exact serving.mine
  · intro fd n
    rw [sameFds,Open,sameTakers,tables]
    exact serving.table fd n

-- accept has returned: the connection is the last, and its descriptor nobody else's.
theorem Serving.accepts (serving : Serving handleClient log s queue hold) (at_ : s.main = .accepting) (seen : fds emitted = [fd]) (untaken : takers emitted = [])
    (pooled : poolLog emitted = []) (behind : ∀ fd' n, now fd' = some n ↔ s.table fd' = some n ∨ fd' = fd ∧ 0 ≤ fd ∧ n = s.accepted) :
    Serving handleClient (log ++ emitted) {s with table := now,accepted := s.accepted + 1,main := .storing fd} queue hold := by
  have sameTakers : takers (log ++ emitted) = takers log := by rw [takers_append,untaken,List.append_nil]
  have grown : fds (log ++ emitted) = fds log ++ [fd] := by rw [fds_append,seen]
  have handing := serving.handing
  have waiting := serving.waiting
  have apart := serving.apart
  have own := serving.own
  rw [at_] at handing waiting apart own
  refine ⟨?_,?_,handing,serving.function,?_,?_,apart,?_,own,?_,?_⟩
  · rw [poolLog_append,pooled,List.append_nil]
    exact serving.queued
  · rw [grown,List.length_append,← serving.count]
    rfl
  · rw [grown,sameTakers,List.length_append]
    exact Nat.le_add_right_of_le serving.few
  · rw [grown,sameTakers,List.drop_append_of_le_length serving.few,List.map_append]
    have before : (owed queue .accepting).map s.cells = ((fds log).drop (takers log).length).map some := (List.append_nil _).symm.trans waiting
    change (owed queue .accepting).map s.cells ++ [some fd] = _
    rw [before]
    rfl
  · intro w
    have client : ((hold w).bind fun n => (fds (log ++ emitted))[n]?) = (hold w).bind fun n => (fds log)[n]? := by
      cases held : hold w with
      | none => rfl
      | some n =>
        rw [Option.bind_some,Option.bind_some,grown,List.getElem?_append_left (Nat.lt_of_lt_of_le (serving.used held) serving.few)]
    rw [client]
    exact serving.posts w
  · rw [sameTakers]
    exact serving.mine
  · intro fd' n
    rw [behind,serving.table,grown,Open,Open,sameTakers,serving.count]
    have few := serving.few
    constructor
    · rintro (⟨valid,listed,opened⟩ | ⟨rfl,valid,rfl⟩)
      · exact ⟨valid,(List.getElem?_append_left (List.getElem?_eq_some_iff.mp listed).1).trans listed,opened⟩
      · exact ⟨valid,List.getElem?_concat_length,.inl few⟩
    · rintro ⟨valid,listed,opened⟩
      by_cases last : n = (fds log).length
      · subst last
        rw [List.getElem?_concat_length] at listed
        obtain rfl := Option.some.inj listed
        exact .inr ⟨rfl,valid,rfl⟩
      · have small := (List.getElem?_eq_some_iff.mp listed).1
        rw [List.length_append,List.length_singleton] at small
        rw [List.getElem?_append_left (by omega)] at listed
        exact .inl ⟨valid,listed,opened⟩

theorem store_serves (serving : Serving handleClient log s queue hold) (at_ : s.main = .storing fd) (fresh : s.cells arg = none) :
    Serving handleClient log {s with cells := Function.update s.cells arg (some fd),main := .adding fd arg} queue hold := by
  have unlisted : arg ∉ owed queue s.main := by
    intro listed
    obtain ⟨known,stored⟩ := serving.live listed
    rw [fresh] at stored
    cases stored
  have handing := serving.handing
  have apart := serving.apart
  rw [at_] at handing unlisted apart
  have plain : owed queue (.storing fd) = queue.map TaskT.arg := List.append_nil _
  rw [plain] at unlisted apart
  have kept : ∀ other known, s.cells other = some known → Function.update s.cells arg (some fd) other = some known := by
    intro other known stored
    rw [Function.update_of_ne,stored]
    rintro rfl
    rw [fresh] at stored
    cases stored
  rw [← List.append_nil log]
  refine serving.hands rfl rfl ?_ handing serving.function (fun _ => rfl) ⟨rfl,rfl,rfl⟩ kept ?_ ?_ ?_
  · rw [List.append_nil]
    exact serving.queued
  · have others : (queue.map TaskT.arg).map (Function.update s.cells arg (some fd)) = (queue.map TaskT.arg).map s.cells := by
      refine List.map_congr_left (fun other listed => Function.update_of_ne ?_ ..)
      rintro rfl
      exact unlisted listed
    rw [at_,plain]
    change (queue.map TaskT.arg ++ [arg]).map (Function.update s.cells arg (some fd)) ++ [] = _
    rw [List.map_append,others,List.append_nil,List.map_singleton,Function.update_self]
    rfl
  · change (queue.map TaskT.arg ++ [arg]).Nodup
    refine List.nodup_append.mpr ⟨apart,List.nodup_singleton _,?_⟩
    intro other listed new single same
    obtain rfl := List.mem_singleton.mp single
    exact unlisted (same ▸ listed)
  · intro other listed
    rcases List.mem_append.mp listed with old | new
    · exact .inl (List.mem_append_left _ old)
    · rw [List.mem_singleton.mp new]
      exact .inr fresh

theorem allocate_serves (serving : Serving handleClient log s queue hold) (at_ : s.main = .adding fd arg) (fresh : s.pool.shared.heap node = none) :
    Serving handleClient log {s with
      pool := (s.pool.withHeap (Function.update s.pool.shared.heap node (some ⟨⟨handleClient,arg⟩,none⟩))).goto none (.linking node ⟨handleClient,arg⟩)
      main := .linking fd arg} queue hold := by
  have handing := serving.handing
  have waiting := serving.waiting
  have apart := serving.apart
  rw [at_] at handing waiting apart
  rw [← List.append_nil log]
  refine serving.hands rfl rfl ?_ ⟨node,by simp [TaskPool.State.goto]⟩ serving.function ?_ ⟨rfl,rfl,rfl⟩ (fun _ _ => id) ?_ apart ?_
  · rw [List.append_nil]
    exact queued_silent serving.queued (.malloc none _ node handing fresh)
  · exact fun w => Function.update_of_ne (Option.some_ne_none w) (.linking node ⟨handleClient,arg⟩) s.pool.pc
  · rw [at_]
    rfl
  · intro other listed
    rw [at_]
    exact .inl listed

theorem add_serves (serving : Serving handleClient log s queue hold) (at_ : s.main = .linking fd arg) (links : s.pool.pc none = .linking node task)
    (section_ : Signals.Step sections s.pool.calls [⟨none,.add node,.returned ret⟩] calls) : Serving handleClient (log ++ [.pool (.added none task)])
      {s with pool := {s.pool with calls := calls}.goto none (afterAdd ret),main := .announcing fd} (queue ++ [task]) hold := by
  obtain rfl := queued_adds serving.queued rfl links section_
  have handing := serving.handing
  have apart := serving.apart
  rw [at_] at handing apart
  obtain ⟨same,mine⟩ := handing
  obtain rfl : task = ⟨handleClient,arg⟩ := by
    rw [links] at mine
    exact (Pc.linking.inj mine).2
  obtain ⟨rest,kept,balance⟩ := queued_step serving.queued (.add none links section_)
  have balance : rest = queue ++ [⟨handleClient,arg⟩] := balance
  subst balance
  have owes : owed (queue ++ [⟨handleClient,arg⟩]) (.announcing fd) = owed queue s.main := by
    rw [at_,owed,List.map_append]
    exact List.append_nil _
  refine serving.hands rfl rfl ?_ ?_ ?_ ?_ ⟨rfl,rfl,rfl⟩ (fun _ _ => id) ?_ ?_ ?_
  · rw [poolLog_append]
    exact kept
  · simp [TaskPool.State.goto,Main.At,afterAdd]
  · intro task listed
    rcases List.mem_append.mp listed with old | new
    · exact serving.function task old
    · rw [List.mem_singleton.mp new]
  · intro w
    simp [TaskPool.State.goto]
  · rw [owes,at_]
    rfl
  · rw [owes]
    exact serving.apart
  · rw [owes]
    exact fun _ => .inl

theorem announce_serves (serving : Serving handleClient log s queue hold) (at_ : s.main = .announcing fd) :
    Serving handleClient (log ++ [.announced fd]) {s with main := .accepting} queue hold := by
  have handing := serving.handing
  have apart := serving.apart
  rw [at_] at handing apart
  refine serving.hands rfl rfl ?_ handing serving.function (fun _ => rfl) ⟨rfl,rfl,rfl⟩ (fun _ _ => id) ?_ apart ?_
  · have same : poolLog (log ++ [.announced fd]) = poolLog log := (poolLog_append ..).trans (List.append_nil _)
    rw [same]
    exact serving.queued
  · rw [at_]
    rfl
  · intro other listed
    rw [at_]
    exact .inl listed

theorem own_serves (serving : Serving handleClient log s queue hold) (spoken : Spoken log s hold) (step : Own handleClient s emitted u) :
    ∃ rest hold', Serving handleClient (log ++ emitted) u rest hold' ∧ Spoken (log ++ emitted) u hold' := by
  have stays : ∀ w n fd, hold w = some n → (fds log)[n]? = some fd → 0 ≤ fd → (s.place w).stage = (s.place w).stage := fun _ _ _ _ _ _ => rfl
  cases step with
  | stores arg at_ fresh =>
    rw [List.append_nil]
    exact ⟨_,_,store_serves serving at_ fresh,⟨spoken.speaker,spoken.held,spoken.done⟩⟩
  | allocates node at_ fresh =>
    rw [List.append_nil]
    exact ⟨_,_,allocate_serves serving at_ fresh,⟨spoken.speaker,spoken.held,spoken.done⟩⟩
  | adds at_ links section_ => exact ⟨_,_,add_serves serving at_ links section_,spoken.silent serving (fun _ => rfl) rfl stays⟩
  | announces at_ => exact ⟨_,_,announce_serves serving at_,spoken.silent serving (fun _ => rfl) rfl stays⟩
  | sleeps w fetching section_ =>
    rw [List.append_nil]
    exact ⟨_,_,calls_serves serving spoken (.wait _ fetching section_)⟩
  | takes w fetching section_ => exact take_serves serving spoken fetching section_
  | begins w running at_ => exact ⟨_,_,begin_serves serving spoken running at_⟩
  | loads w at_ =>
    rw [List.append_nil]
    exact ⟨_,_,load_serves serving spoken at_⟩
  | frees w at_ =>
    rw [List.append_nil]
    exact ⟨_,_,free_serves serving spoken at_⟩
  | fails w at_ missing =>
    exact ⟨_,_,speaks serving spoken (.inl at_) (.inr (.inr rfl)) (by rw [missing]; rfl) (by rw [at_]; rfl)⟩
  | replies w count at_ =>
    refine ⟨_,_,speaks serving spoken (.inr at_) (.inl rfl) rfl ?_⟩
    rw [at_]
    exact if_pos (List.take_prefix ..)
  | closes w at_ => exact ⟨_,_,close_serving serving at_ rfl rfl rfl,close_spoken serving spoken at_⟩
  | returns w freeing at_ =>
    rw [List.append_nil]
    exact ⟨_,_,return_serves serving spoken freeing at_⟩

theorem net_serves (serving : Serving handleClient log s queue hold) (spoken : Spoken log s hold) (step : Net s emitted u) :
    Serving handleClient (log ++ emitted) u queue hold ∧ Spoken (log ++ emitted) u hold := by
  have stays : ∀ w n fd, hold w = some n → (fds log)[n]? = some fd → 0 ≤ fd → (s.place w).stage = (s.place w).stage := fun _ _ _ _ _ _ => rfl
  cases step with
  | accepts fd at_ valid unused =>
    refine ⟨serving.accepts at_ rfl rfl rfl ?_,spoken.silent serving (fun _ => rfl) rfl stays⟩
    intro fd' n
    by_cases here : fd' = fd
    · subst here
      simp [unused,valid,eq_comm]
    · simp [here]
  | refuses at_ => exact ⟨serving.accepts at_ rfl rfl rfl (by simp),spoken.silent serving (fun _ => rfl) rfl stays⟩
  | receives w chunk at_ behind filled short =>
    rename_i conn fd
    have word : talk (.received w conn chunk) = some (w,s.table fd,.heard chunk) := by rw [behind]; rfl
    refine speaks serving spoken (.inl at_) ?_ word ?_
    · cases exits chunk
      · exact .inr (.inl rfl)
      · exact .inr (.inr rfl)
    · rw [at_]
      change (if chunk = [] ∨ bufSize ≤ chunk.length then none else _) = _
      rw [if_neg (not_or.mpr ⟨filled,Nat.not_le.mpr short⟩)]
      cases exits chunk <;> rfl
  | hangsUp w at_ behind => exact speaks serving spoken (.inl at_) (.inr (.inr rfl)) (by rw [behind]; rfl) (by rw [at_]; rfl)
  | rouses w fetching section_ =>
    rw [List.append_nil]
    exact calls_serves serving spoken (.rouse _ fetching section_)

theorem start_serves : Serving handleClient [] (start workers) [] (fun _ => none) ∧ Spoken [] (start workers) (fun _ => none) := by
  obtain ⟨nodes,path,lawful⟩ := run_lawful (τ := Option (Fin workers)) Option.isSome .nil
  have empty : tasks nodes = [] := runs_law path
  refine ⟨⟨⟨nodes,empty,lawful⟩,rfl,rfl,nofun,Nat.le_refl _,rfl,List.nodup_nil,fun _ => .fetching,?_,nofun,?_⟩,⟨nofun,nofun,nofun⟩⟩
  · intro w arg used
    cases used
  · intro fd n
    simp [start,fds]

theorem run_serves (run : Runs (Step handleClient) (start workers) log s) : ∃ queue hold, Serving handleClient log s queue hold ∧ Spoken log s hold := by
  refine run.invariant (I := fun log s => ∃ queue hold, Serving handleClient log s queue hold ∧ Spoken log s hold) ?_ ⟨_,_,start_serves⟩
  rintro log s emitted u ⟨queue,hold,serving,spoken⟩ (own | net)
  · exact own_serves serving spoken own
  · exact ⟨queue,hold,net_serves serving spoken net⟩

end
end LinuxCoding.TaskPool.Server
