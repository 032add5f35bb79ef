import LinuxCoding.TaskPool.Model

namespace LinuxCoding.TaskPool
open Chain CInt Fifo Signals Transition

-- The node a thread holds outside the mutex, with what it must find there.
def Pc.node : Pc → Option Addr
  | .linking node _ => some node
  | .running node _ => some node
  | .freeing node => some node
  | _ => none

def Pc.Filled (cell : Cell TaskT) : Pc → Prop
  | .linking _ task => cell = ⟨task,none⟩
  | .running _ task => cell.value = task
  | _ => True

structure Linked (shared : Shared) (nodes : List (Addr × TaskT)) : Prop where
  path : Path shared.heap shared.pool.taskHead nodes
  tail : shared.pool.taskTail = nodes.getLast?.map Prod.fst
  count : shared.pool.taskCount = store nodes.length
  running : shared.pool.shutdown = false

structure Shape (s : State τ) (nodes : List (Addr × TaskT)) : Prop where
  linked : Linked s.shared nodes
  held : ∀ t node, (s.pc t).node = some node → node ∉ addrs nodes ∧ ∃ cell, s.shared.heap node = some cell ∧ (s.pc t).Filled cell
  apart : ∀ t u node, (s.pc t).node = some node → (s.pc u).node = some node → t = u
  safe : ∀ t, s.pc t ≠ .crashed

def moveOf : Event τ → List (Move TaskT)
  | .added _ task => [.put [task]]
  | .taken _ task => [.take [task]]
  | .ran _ _ => []

def moves (log : List (Event τ)) : List (Move TaskT) := log.flatMap moveOf

def tasks (nodes : List (Addr × TaskT)) : List TaskT := nodes.map Prod.snd

theorem store_next (n : Int) : store ((store n).val + 1) = store (n + 1) := by
  apply Subtype.ext
  simp [store,toInt]

theorem store_prior (n : Int) : store ((store n).val - 1) = store (n - 1) := by
  apply Subtype.ext
  simp [store,toInt]

theorem start_shape (worker : τ → Bool) : Shape (start worker) [] := by
  refine ⟨⟨.nil,rfl,rfl,rfl⟩,?_,?_,?_⟩
  · intro t node holds
    cases role : worker t <;> simp [start,role,Pc.node] at holds
  · intro t u node holds
    cases role : worker t <;> simp [start,role,Pc.node] at holds
  · intro t
    cases role : worker t <;> simp [start,role]

section
variable {τ : Type} [DecidableEq τ]

-- One thread moves on: what it holds afterwards is nobody else's and not on the list.
theorem goto_shape {s : State τ} {pc : Pc} (linked : Linked shared nodes) (shape : Shape s before)
    (others : ∀ u node, u ≠ t → (s.pc u).node = some node → pc.node ≠ some node ∧ node ∉ addrs nodes ∧
      ∃ cell, shared.heap node = some cell ∧ (s.pc u).Filled cell)
    (own : ∀ node, pc.node = some node → node ∉ addrs nodes ∧ ∃ cell, shared.heap node = some cell ∧ pc.Filled cell)
    (alive : pc ≠ .crashed) (status : τ → Status Op) : Shape (State.goto ⟨⟨shared,status⟩,s.pc⟩ t pc) nodes := by
  refine ⟨linked,?_,?_,?_⟩
  · intro u node holds
    by_cases same : u = t
    · subst same
      simp only [State.goto,Function.update_self] at holds ⊢
      exact own node holds
    · simp only [State.goto,Function.update_of_ne same] at holds ⊢
      exact (others u node same holds).2
  · intro u v node left right
    by_cases first : u = t
    · by_cases second : v = t
      · rw [first,second]
      · subst first
        simp only [State.goto,Function.update_self,Function.update_of_ne second] at left right
        exact absurd left (others v node second right).1
    · by_cases second : v = t
      · subst second
        simp only [State.goto,Function.update_self,Function.update_of_ne first] at left right
        exact absurd right (others u node first left).1
      · simp only [State.goto,Function.update_of_ne first,Function.update_of_ne second] at left right
        exact shape.apart u v node left right
  · intro u
    by_cases same : u = t
    · subst same
      simpa [State.goto] using alive
    · simpa [State.goto,same] using shape.safe u

-- The thread holds nothing afterwards.
theorem release_shape {s : State τ} {pc : Pc} (linked : Linked shared nodes) (shape : Shape s before)
    (others : ∀ u node, u ≠ t → (s.pc u).node = some node → node ∉ addrs nodes ∧
      ∃ cell, shared.heap node = some cell ∧ (s.pc u).Filled cell)
    (empty : pc.node = none) (alive : pc ≠ .crashed) (status : τ → Status Op) :
    Shape (State.goto ⟨⟨shared,status⟩,s.pc⟩ t pc) nodes := by
  apply goto_shape linked shape ?_ ?_ alive
  · intro u node elsewhere holds
    exact ⟨by simp [empty],others u node elsewhere holds⟩
  · intro node holds
    rw [empty] at holds
    cases holds

theorem malloc_shape {s : State τ} (shape : Shape s nodes) (fresh : s.shared.heap node = none) (t : τ) (task : TaskT) :
    Shape ((s.withHeap (Function.update s.shared.heap node (some ⟨task,none⟩))).goto t (.linking node task)) nodes := by
  have unlisted : node ∉ addrs nodes := by
    intro member
    obtain ⟨entry,listed,same⟩ := List.mem_map.mp member
    obtain ⟨after,live⟩ := path_live shape.linked.path listed
    rw [same,fresh] at live
    cases live
  have linked : Linked ⟨s.shared.pool,Function.update s.shared.heap node (some ⟨task,none⟩)⟩ nodes :=
    ⟨path_frame shape.linked.path unlisted _,shape.linked.tail,shape.linked.count,shape.linked.running⟩
  apply goto_shape linked shape ?_ ?_ (by simp)
  · intro u other _ holds
    obtain ⟨outside,cell,live,filled⟩ := shape.held u other holds
    have apart : other ≠ node := by
      rintro rfl
      rw [fresh] at live
      cases live
    refine ⟨?_,outside,cell,?_,filled⟩
    · rintro ⟨⟩
      exact apart rfl
    · exact (Function.update_of_ne apart ..).trans live
  · rintro other ⟨⟩
    exact ⟨unlisted,_,Function.update_self ..,rfl⟩

theorem addLeave_linked {shared : Shared} (linked : Linked shared nodes) (live : shared.heap node = some ⟨task,none⟩)
    (unlisted : node ∉ addrs nodes) :
    (addLeave node shared).ret = .void ∧ Linked (addLeave node shared).shared (nodes ++ [(node,task)]) ∧
      ∀ other, other ∉ addrs nodes → (addLeave node shared).shared.heap other = shared.heap other := by
  have counted : store (shared.pool.taskCount.val + 1) = store (nodes ++ [(node,task)]).length := by
    rw [linked.count,store_next,List.length_append,List.length_singleton]
    rfl
  cases last : nodes.getLast? with
  | none =>
    have empty : nodes = [] := List.getLast?_eq_none_iff.mp last
    subst empty
    have tail : shared.pool.taskTail = none := linked.tail
    simp only [addLeave,tail]
    exact ⟨trivial,⟨.cons node live .nil,rfl,counted,linked.running⟩,fun _ _ => trivial⟩
  | some entry =>
    obtain ⟨tail,value⟩ := entry
    have pointed : shared.pool.taskTail = some tail := by rw [linked.tail,last]; rfl
    have held := path_last linked.path last
    simp only [addLeave,pointed,held]
    refine ⟨trivial,⟨path_push linked.path last live unlisted,by simp,counted,linked.running⟩,?_⟩
    intro other outside
    apply Function.update_of_ne
    rintro rfl
    exact outside (List.mem_map.mpr ⟨_,List.mem_of_getLast? last,rfl⟩)

theorem add_shape {s : State τ} (shape : Shape s nodes) (at_ : s.pc t = .linking node task) (status : τ → Status Op) :
    (addLeave node s.shared).ret = .void ∧
      Shape (State.goto ⟨⟨(addLeave node s.shared).shared,status⟩,s.pc⟩ t .idle) (nodes ++ [(node,task)]) := by
  have mine : (s.pc t).node = some node := by rw [at_]; rfl
  obtain ⟨unlisted,cell,live,filled⟩ := shape.held t node mine
  rw [at_] at filled
  have filled : cell = ⟨task,none⟩ := filled
  subst filled
  obtain ⟨ret,linked,frame⟩ := addLeave_linked shape.linked live unlisted
  refine ⟨ret,release_shape linked shape ?_ rfl (by simp) status⟩
  intro u other elsewhere holds
  obtain ⟨outside,cell,present,full⟩ := shape.held u other holds
  refine ⟨?_,cell,(frame other outside).trans present,full⟩
  intro member
  rw [addrs,List.map_append] at member
  rcases List.mem_append.mp member with listed | new
  · exact outside listed
  · have same : other = node := List.mem_singleton.mp new
    exact elsewhere (shape.apart u t node (by rw [holds,same]) mine)

-- A worker that passes its loop finds a task: the counter is the length of the list.
theorem workLeave_linked {shared : Shared} (linked : Linked shared nodes) (passes : workWaits shared = false) :
    ∃ node task rest, nodes = (node,task) :: rest ∧ (workLeave shared).ret = .took node task ∧
      Linked (workLeave shared).shared rest ∧ (workLeave shared).shared.heap = shared.heap := by
  have nonzero : shared.pool.taskCount.val ≠ 0 := by
    intro zero
    simp [workWaits,zero,linked.running] at passes
  cases nodes with
  | nil =>
    rw [linked.count] at nonzero
    exact absurd rfl nonzero
  | cons entry rest =>
    obtain ⟨node,task⟩ := entry
    have path := linked.path
    cases head : shared.pool.taskHead with
    | none =>
      rw [head] at path
      cases path
    | some first =>
      rw [head] at path
      cases path with
      | @cons _ after _ _ here more =>
        have counted : store (shared.pool.taskCount.val - 1) = store rest.length := by
          rw [linked.count,store_prior,List.length_cons]
          congr 1
          omega
        have leaves : workLeave shared = ⟨{shared with pool := {shared.pool with
            taskHead := after
            taskTail := if after = none then none else shared.pool.taskTail
            taskCount := store (shared.pool.taskCount.val - 1)}},.took node task,.silent⟩ := by
          simp [workLeave,linked.running,head,here]
        refine ⟨node,task,rest,rfl,by rw [leaves],?_,by rw [leaves]⟩
        rw [leaves]
        refine ⟨more,?_,counted,linked.running⟩
        cases more with
        | nil => rfl
        | cons second there others =>
          change (if some second = none then none else shared.pool.taskTail) = _
          rw [if_neg (by simp),linked.tail,List.getLast?_cons_cons]

theorem take_shape {s : State τ} (shape : Shape s nodes) (t : τ) (passes : workWaits s.shared = false)
    (status : τ → Status Op) : ∃ node task rest, nodes = (node,task) :: rest ∧ (workLeave s.shared).ret = .took node task ∧
      Shape (State.goto ⟨⟨(workLeave s.shared).shared,status⟩,s.pc⟩ t (.running node task)) rest := by
  obtain ⟨node,task,rest,rfl,ret,linked,frame⟩ := workLeave_linked shape.linked passes
  have fresh := (List.nodup_cons.mp (path_distinct shape.linked.path)).1
  refine ⟨node,task,rest,rfl,ret,goto_shape linked shape ?_ ?_ (by simp) status⟩
  · intro u other elsewhere holds
    obtain ⟨outside,held⟩ := shape.held u other holds
    obtain ⟨different,outside⟩ := not_or.mp (fun both => outside (List.mem_cons.mpr both))
    refine ⟨?_,outside,by rw [frame]; exact held⟩
    rintro ⟨⟩
    exact different rfl
  · rintro other ⟨⟩
    obtain ⟨after,live⟩ := path_live shape.linked.path List.mem_cons_self
    exact ⟨fresh,⟨task,after⟩,by rw [frame]; exact live,rfl⟩

theorem run_shape {s : State τ} (shape : Shape s nodes) (at_ : s.pc t = .running node task) :
    run t node s = (s.goto t (.freeing node),[.ran t task]) ∧ Shape (s.goto t (.freeing node)) nodes := by
  have mine : (s.pc t).node = some node := by rw [at_]; rfl
  obtain ⟨unlisted,cell,live,filled⟩ := shape.held t node mine
  rw [at_] at filled
  have filled : cell.value = task := filled
  refine ⟨by simp only [run,live,filled],?_⟩
  apply goto_shape shape.linked shape ?_ ?_ (by simp)
  · intro u other elsewhere holds
    refine ⟨?_,shape.held u other holds⟩
    rintro ⟨⟩
    exact elsewhere (shape.apart u t node holds mine)
  · rintro other ⟨⟩
    exact ⟨unlisted,cell,live,trivial⟩

theorem free_shape {s : State τ} (shape : Shape s nodes) (at_ : s.pc t = .freeing node) :
    free t node s = (s.withHeap (Function.update s.shared.heap node none)).goto t .fetching ∧ Shape (free t node s) nodes := by
  have mine : (s.pc t).node = some node := by rw [at_]; rfl
  obtain ⟨unlisted,cell,live,_⟩ := shape.held t node mine
  simp only [free,live]
  refine ⟨trivial,?_⟩
  have linked : Linked ⟨s.shared.pool,Function.update s.shared.heap node none⟩ nodes :=
    ⟨path_frame shape.linked.path unlisted _,shape.linked.tail,shape.linked.count,shape.linked.running⟩
  apply release_shape linked shape ?_ rfl (by simp)
  intro u other elsewhere holds
  obtain ⟨outside,cell,present,full⟩ := shape.held u other holds
  have apart : other ≠ node := by
    rintro rfl
    exact elsewhere (shape.apart u t other holds mine)
  exact ⟨outside,cell,(Function.update_of_ne apart ..).trans present,full⟩

end
end LinuxCoding.TaskPool
