import LinuxCoding.TaskPool.Shape

namespace LinuxCoding.TaskPool
open Chain CInt Fifo Signals Transition

section
variable {τ : Type} [DecidableEq τ]

-- What a thread has taken and run, and what it has taken and is still to run.
def takenTasks (t : τ) (log : List (Event τ)) : List TaskT :=
  log.flatMap (fun event => match event with
    | .taken u task => if u = t then [task] else []
    | _ => [])

def ranTasks (t : τ) (log : List (Event τ)) : List TaskT :=
  log.flatMap (fun event => match event with
    | .ran u task => if u = t then [task] else []
    | _ => [])

def Pc.pending : Pc → List TaskT
  | .running _ task => [task]
  | _ => []

def Served (log : List (Event τ)) (s : State τ) : Prop :=
  ∀ t, ranTasks t log ++ (s.pc t).pending = takenTasks t log

-- One thread moves on and every other is where it was.
theorem goto_served {s : State τ} {pc : Pc} (served : Served log s)
    (own : ranTasks t emitted ++ pc.pending = (s.pc t).pending ++ takenTasks t emitted)
    (others : ∀ u, u ≠ t → ranTasks u emitted = [] ∧ takenTasks u emitted = []) (calls : Config τ Shared Op) :
    Served (log ++ emitted) (State.goto ⟨calls,s.pc⟩ t pc) := by
  intro u
  have before := served u
  simp only [ranTasks,takenTasks,List.flatMap_append] at before own others ⊢
  by_cases same : u = t
  · subst same
    rw [← before]
    simp only [State.goto,Function.update_self,List.append_assoc]
    rw [own]
  · obtain ⟨ran,took⟩ := others u same
    simp only [State.goto,Function.update_of_ne same,ran,took,List.append_nil]
    exact before

structure Lawful (log : List (Event τ)) (s : State τ) (nodes : List (Addr × TaskT)) : Prop where
  shape : Shape s nodes
  served : Served log s

theorem step_lawful {s after : State τ} (lawful : Lawful log s nodes) (step : Step s emitted after) :
    ∃ rest, Runs Fifo.Step (tasks nodes) (moves emitted) (tasks rest) ∧ Lawful (log ++ emitted) after rest := by
  obtain ⟨shape,served⟩ := lawful
  cases step with
  | malloc t task node idle fresh =>
    refine ⟨nodes,.nil,malloc_shape shape fresh t task,goto_served served ?_ (fun _ _ => ⟨rfl,rfl⟩) _⟩
    rw [idle]
    rfl
  | @add node task _ ret calls t at_ section_ =>
    cases section_ with
    | leave _ _ ready passes notified =>
      rename_i status
      obtain ⟨void,added⟩ := add_shape shape at_ status
      have ret : afterAdd (sections.leave (.add node) s.calls.shared).ret = .idle := by
        change afterAdd (addLeave node s.shared).ret = .idle
        rw [void]
        rfl
      rw [ret]
      refine ⟨_,Runs.one ?_,added,goto_served served ?_ (fun _ _ => ⟨rfl,rfl⟩) _⟩
      · rw [tasks,tasks,List.map_append]
        exact .put
      · rw [at_]
        rfl
  | wait t at_ section_ =>
    cases section_
    exact ⟨nodes,.nil,⟨shape.linked,shape.held,shape.apart,shape.safe⟩,by rw [List.append_nil]; exact served⟩
  | rouse t at_ section_ =>
    cases section_
    exact ⟨nodes,.nil,⟨shape.linked,shape.held,shape.apart,shape.safe⟩,by rw [List.append_nil]; exact served⟩
  | take t at_ section_ =>
    cases section_ with
    | leave _ _ ready passes notified =>
      rename_i status
      obtain ⟨node,task,rest,rfl,took,kept⟩ := take_shape shape t passes status
      have ret : (sections.leave .work s.calls.shared).ret = .took node task := took
      rw [ret]
      refine ⟨rest,.one (take_one task (tasks rest)),kept,goto_served served ?_ ?_ _⟩
      · simp [ranTasks,takenTasks,taken,afterWork,Pc.pending,at_]
      · intro u other
        simp [ranTasks,takenTasks,taken,Ne.symm other]
  | run t at_ =>
    obtain ⟨ran,kept⟩ := run_shape shape at_
    rw [ran]
    refine ⟨nodes,.nil,kept,goto_served served ?_ ?_ _⟩
    · simp [ranTasks,takenTasks,Pc.pending,at_]
    · intro u other
      simp [ranTasks,takenTasks,Ne.symm other]
  | free t at_ =>
    obtain ⟨freed,kept⟩ := free_shape shape at_
    refine ⟨nodes,.nil,kept,?_⟩
    rw [freed]
    apply goto_served served ?_ (fun _ _ => ⟨rfl,rfl⟩)
    rw [at_]
    rfl

theorem run_lawful {s : State τ} (worker : τ → Bool) (run : Runs Step (start worker) log s) :
    ∃ nodes, Runs Fifo.Step [] (moves log) (tasks nodes) ∧ Lawful log s nodes := by
  induction run with
  | nil =>
    refine ⟨[],.nil,start_shape worker,?_⟩
    intro t
    cases role : worker t <;> simp [start,role,ranTasks,takenTasks,Pc.pending]
  | step prior taken ih =>
    obtain ⟨nodes,path,lawful⟩ := ih
    obtain ⟨rest,more,kept⟩ := step_lawful lawful taken
    exact ⟨rest,by rw [moves,List.flatMap_append]; exact path.append more,kept⟩

-- The list, the pointers of the pool and the counter, wrapped around at 2^32, agree.
def Chained (shared : Shared) (nodes : List (Addr × TaskT)) : Prop :=
  Path shared.heap shared.pool.taskHead nodes ∧ (addrs nodes).Nodup ∧
  (∀ a ∈ addrs nodes, shared.heap a ≠ none) ∧
  shared.pool.taskTail = nodes.getLast?.map Prod.fst ∧
  ∀ tail, shared.pool.taskTail = some tail → ∃ task, shared.heap tail = some ⟨task,none⟩

-- task_count is the number of nodes.
def Counted (shared : Shared) (nodes : List (Addr × TaskT)) : Prop :=
  shared.pool.taskCount.val = nodes.length ∧
  (shared.pool.taskCount.val = 0 → shared.pool.taskHead = none ∧ shared.pool.taskTail = none)

theorem linked_chained (linked : Linked shared nodes) : Chained shared nodes := by
  refine ⟨linked.path,path_distinct linked.path,?_,linked.tail,?_⟩
  · intro a member
    obtain ⟨entry,listed,rfl⟩ := List.mem_map.mp member
    obtain ⟨after,live⟩ := path_live linked.path listed
    rw [live]
    exact Option.some_ne_none _
  · intro tail pointed
    rw [linked.tail] at pointed
    obtain ⟨entry,last,rfl⟩ := Option.map_eq_some_iff.mp pointed
    exact ⟨entry.2,path_last linked.path last⟩

theorem linked_counted (linked : Linked shared nodes) (few : (nodes.length : Int) ≤ intMax) : Counted shared nodes := by
  have count : shared.pool.taskCount.val = nodes.length := by
    rw [linked.count]
    apply store_of_nonneg _ few
    omega
  refine ⟨count,?_⟩
  intro zero
  have empty : nodes = [] := List.length_eq_zero_iff.mp (by omega)
  subst empty
  have path := linked.path
  cases head : shared.pool.taskHead with
  | none => exact ⟨rfl,linked.tail⟩
  | some first =>
    rw [head] at path
    cases path

theorem pool_runs_in_order {s : State τ} (worker : τ → Bool) (run : Runs Step (start worker) log s) :
    ∃ nodes, Chained s.shared nodes ∧ ((nodes.length : Int) ≤ intMax → Counted s.shared nodes) ∧
      takenBy (moves log) ++ tasks nodes = putBy (moves log) ∧
      (∀ t, ranTasks t log ++ (s.pc t).pending = takenTasks t log) ∧ ∀ t, s.pc t ≠ .crashed := by
  obtain ⟨nodes,path,shape,served⟩ := run_lawful worker run
  exact ⟨nodes,linked_chained shape.linked,linked_counted shape.linked,runs_law path,served,shape.safe⟩

-- A call of pool_add_task while nobody waits.
theorem add_alone (t : τ) (task : TaskT) {shared : Shared} (shape : Shape ⟨initial shared,pc⟩ nodes) (idle : pc t = .idle)
    (fresh : shared.heap node = none) : ∃ next, Runs Step ⟨initial shared,pc⟩ [.added t task] ⟨initial next,pc⟩ ∧
      Shape ⟨initial next,pc⟩ (nodes ++ [(node,task)]) ∧
      ∀ a, a ∉ addrs nodes → a ≠ node → next.heap a = shared.heap a := by
  let filled : Shared := ⟨shared.pool,Function.update shared.heap node (some ⟨task,none⟩)⟩
  let linking := Function.update pc t (.linking node task)
  have allocated : Shape ⟨initial filled,linking⟩ nodes := malloc_shape shape fresh t task
  have at_ : linking t = .linking node task := Function.update_self ..
  have back : Function.update linking t .idle = pc := by
    rw [Function.update_idem,← idle,Function.update_eq_self]
  obtain ⟨void,added⟩ := add_shape allocated at_ (fun _ => .outside)
  obtain ⟨unlisted,-⟩ := allocated.held t node (congrArg Pc.node at_)
  obtain ⟨-,-,frame⟩ := addLeave_linked allocated.linked (Function.update_self ..) unlisted
  have alloc : Step ⟨initial shared,pc⟩ [] ⟨initial filled,linking⟩ := .malloc t task node idle fresh
  have link : Step ⟨initial filled,linking⟩ [.added t task]
      ⟨initial (addLeave node filled).shared,Function.update linking t (afterAdd (addLeave node filled).ret)⟩ :=
    .add t at_ (.alone (m := sections) t (.add node) rfl)
  rw [show (addLeave node filled).ret = .void from void] at link
  simp only [State.goto,back] at added
  rw [show afterAdd .void = .idle from rfl,back] at link
  refine ⟨_,(Runs.one alloc).append (.one link),added,?_⟩
  intro a outside other
  exact (frame a outside).trans (Function.update_of_ne other ..)

theorem add_many (worker : τ → Bool) (t : τ) (task : TaskT) (adds : worker t = false) : ∀ count : Nat,
    ∃ log shared nodes, Runs Step (start worker) log ⟨initial shared,(start worker).pc⟩ ∧
      Shape ⟨initial shared,(start worker).pc⟩ nodes ∧ nodes.length = count ∧ ∀ a, count ≤ a → shared.heap a = none := by
  have idle : (start worker).pc t = .idle := by simp [start,adds]
  intro count
  induction count with
  | zero => exact ⟨[],_,[],.nil,start_shape worker,rfl,fun _ _ => rfl⟩
  | succ count ih =>
    obtain ⟨log,shared,nodes,run,shape,size,fresh⟩ := ih
    obtain ⟨next,more,grown,frame⟩ := add_alone t task shape idle (fresh count (Nat.le_refl _))
    refine ⟨_,next,_,run.append more,grown,by rw [List.length_append,size]; rfl,?_⟩
    intro a above
    have unlisted : a ∉ addrs nodes := by
      intro member
      obtain ⟨entry,listed,rfl⟩ := List.mem_map.mp member
      obtain ⟨after,live⟩ := path_live shape.linked.path listed
      have none := fresh entry.1 (by omega)
      rw [show shared.heap entry.1 = _ from live] at none
      cases none
    rw [frame a unlisted (Nat.ne_of_gt above)]
    exact fresh a (by omega)

end

-- One task is added, taken and run.
theorem pool_serves_one : ∃ log s nodes, Runs Step (start id) log s ∧ log = [.added false ⟨1,2⟩,.taken true ⟨1,2⟩,.ran true ⟨1,2⟩] ∧
    Chained s.shared nodes ∧ takenBy (moves log) ++ tasks nodes = putBy (moves log) := by
  let heap : Heap TaskT := Function.update (fun _ => none) 7 (some ⟨⟨1,2⟩,none⟩)
  let adding := Function.update (start id).pc false (.linking 7 ⟨1,2⟩)
  let added := Function.update adding false .idle
  let holding : State Bool := ⟨initial ⟨⟨none,none,store 0,false⟩,heap⟩,Function.update added true (.running 7 ⟨1,2⟩)⟩
  have alloc : Step (start id) [] ⟨initial ⟨poolInit,heap⟩,adding⟩ := .malloc false ⟨1,2⟩ 7 rfl rfl
  have link : Step ⟨initial ⟨poolInit,heap⟩,adding⟩ [.added false ⟨1,2⟩]
      (State.goto ⟨initial ⟨⟨some 7,some 7,store 1,false⟩,heap⟩,adding⟩ false (afterAdd .void)) :=
    .add false rfl (.alone (m := sections) false (.add 7) rfl)
  have take : Step ⟨initial ⟨⟨some 7,some 7,store 1,false⟩,heap⟩,added⟩ (taken true (.took 7 ⟨1,2⟩))
      (State.goto ⟨initial ⟨⟨none,none,store 0,false⟩,heap⟩,added⟩ true (afterWork (.took 7 ⟨1,2⟩))) :=
    .take true rfl (.alone (m := sections) true .work rfl)
  have runs : Step holding (run true 7 holding).2 (run true 7 holding).1 := .run true rfl
  have whole := (((Runs.one alloc).append (.one link)).append (.one take)).append (.one runs)
  obtain ⟨nodes,chained,-,order,-⟩ := pool_runs_in_order id whole
  exact ⟨_,_,nodes,whole,rfl,chained,order⟩

-- After 2^31 tasks that no worker took, task_count is negative.
theorem pool_count_wraps : ¬ ∀ log (s : State Bool), Runs Step (start id) log s →
    ∃ nodes, Chained s.shared nodes ∧ Counted s.shared nodes := by
  intro kept
  obtain ⟨log,shared,nodes,run,shape,size,-⟩ := add_many id false ⟨0,0⟩ rfl 2147483648
  obtain ⟨others,chained,counted⟩ := kept _ _ run
  have same := path_unique shape.linked.path chained.1
  subst same
  have count := counted.1
  rw [shape.linked.count,size] at count
  simp [store,toInt] at count
end LinuxCoding.TaskPool
