import LinuxCoding.DirPool.Pool
import LinuxCoding.DirPool.Wakeup

-- The workers as the hands of a table: each holds what is left of the directory it scans.
namespace LinuxCoding.DirPool
open Hands Relation Signals Transition

def Place.hand : Place → Option Forest
  | .dequeuing => none
  | .opening task => some task.forest
  | .scanning _ rest => some rest.forest
  | .counting _ _ rest => some rest.forest
  | .enqueuing _ task rest => some (.node task.forest rest.forest)
  | .exited => none

def Pool.table (p : Pool) : Table threadNum := ⟨fun w => (p.place w).hand,p.tasks.map Task.forest⟩

theorem table_go {p q : Pool} (moved : q.place = Function.update p.place w place) :
    q.table = ⟨Function.update p.table.hands w place.hand,q.tasks.map Task.forest⟩ := by
  have hands : (fun k => (q.place k).hand) = Function.update p.table.hands w place.hand := by
    funext k
    rw [moved]
    exact Function.apply_update (fun _ => Place.hand) p.place w place k
  rw [Pool.table,hands]

theorem table_same {p q : Pool} (moved : q.place = Function.update p.place w place) (tasks : q.tasks = p.tasks)
    (hand : place.hand = (p.place w).hand) : q.table = p.table := by
  rw [table_go moved,tasks,hand]
  exact congrArg (Table.mk · _) (Function.update_eq_self w p.table.hands)

theorem work_hand {place next : Place} (worked : work counts place = some (next,after,emitted)) :
    next.hand = place.hand ∨ place.hand = some .nil ∧ next.hand = none := by
  cases work_works worked with
  | opens opened => exact .inl (by simp [Place.hand,Task.forest,opened])
  | fails closed => exact .inr ⟨by simp [Place.hand,Task.forest,closed],rfl⟩
  | ends => exact .inr ⟨rfl,rfl⟩
  | skips | reads | copies | loses | adds => exact .inl rfl

theorem go_plays {p q : Pool} (moved : q.place = Function.update p.place w place)
    (play : Hands.Move queueMax p.table ⟨Function.update p.table.hands w place.hand,q.tasks.map Task.forest⟩) :
    ReflTransGen (Hands.Move queueMax) p.table q.table := by
  rw [table_go moved]
  exact .single play

-- Until the flag is set the workers play by the rules of the table.
theorem move_plays {p q : Pool} (move : Pool.Move p emitted q) (undone : p.done = false) (begun : ∀ task, p.main ≠ .starting task) :
    ReflTransGen (Hands.Move queueMax) p.table q.table := by
  cases move with
  | first task => exact absurd rfl (begun task)
  | store _ w dirName task rest here room =>
    have holds : p.table.hands w = some (.node task.forest rest.forest) := by simp [Pool.table,here,Place.hand]
    have play : Hands.Move queueMax p.table _ := .store _ w _ _ holds (by simpa [Pool.table] using room)
    refine go_plays rfl ?_
    simpa [Pool.table,Place.hand] using play
  | take _ w task tasks here front =>
    have idle : p.table.hands w = none := by simp [Pool.table,here,Place.hand]
    exact go_plays rfl (.take p.table w task.forest (tasks.map Task.forest) idle (by simp [Pool.table,front]))
  | work _ w place counts emitted worked =>
    rcases work_hand worked with same | ⟨holds,idle⟩
    · rw [@table_same w place p {p.go w place with counts := counts} rfl rfl same]
    · refine go_plays rfl ?_
      rw [idle]
      exact .close p.table w holds
  | free _ w dirName task rest here full done =>
    rw [undone] at done
    cases done
  | quit _ w here drained done =>
    rw [undone] at done
    cases done
  | look | confirm | finish => exact .refl

theorem move_done {p q : Pool} (move : Pool.Move p emitted q) (done : p.done = true) : q.done = true := by
  cases move with
  | first => exact done
  | store | free | take | quit | work | look | confirm => exact done
  | finish => rfl

theorem first_table (task : Task) : Pool.table {begin task with tasks := [task],main := .looking} = Hands.start threadNum task.forest := rfl

theorem move_begun {p q : Pool} (move : Pool.Move p emitted q) (begun : ∀ task, p.main ≠ .starting task) :
    ∀ task, q.main ≠ .starting task := by
  cases move with
  | store | free | take | quit | work => exact begun
  | first | look | confirm | finish => exact nofun

-- What a pool that has not set the flag is on the table.
def Plays (task : Task) (p : Pool) : Prop :=
  p.done = true ∨ p = begin task ∨ (∀ other, p.main ≠ .starting other) ∧ Reaches queueMax task.forest p.table

theorem step_plays {p q : Pool} (plays : Plays task p) (step : Pool.Step p emitted q) : Plays task q := by
  cases step with
  | wait | again => exact plays
  | refute confirming =>
    rcases plays with done | rfl | ⟨_,reach⟩
    · exact .inl done
    · cases confirming
    · exact .inr (.inr ⟨nofun,reach⟩)
  | move _ _ move =>
    rcases plays with done | rfl | ⟨begun,reach⟩
    · exact .inl (move_done move done)
    · rw [begin_moves move]
      exact .inr (.inr ⟨nofun,.refl⟩)
    · cases undone : p.done with
      | true => exact .inl (move_done move undone)
      | false => exact .inr (.inr ⟨move_begun move begun,reach.trans (move_plays move undone begun)⟩)

-- The worker comes to `place` by itself.
def Pool.Works (p : Pool) (w : Worker) (place : Place) : Prop :=
  ∃ log counts, Runs Pool.Move p log {p.go w place with counts := counts}

theorem works_here {p : Pool} (here : p.place w = place) : p.Works w place := by
  have same : {p.go w place with counts := p.counts} = p := by
    simp [Pool.go,← here]
  exact ⟨[],p.counts,by rw [same]; exact .nil⟩

theorem works_on {p : Pool} {next : Place} (worked : work p.counts (p.place w) = some (next,counts,emitted))
    (later : Pool.Works {p.go w next with counts := counts} w place) : p.Works w place := by
  obtain ⟨log,last,run⟩ := later
  refine ⟨emitted ++ log,last,(Runs.one (.work p w next counts emitted worked)).append ?_⟩
  simpa [Pool.go] using run

-- A worker that has read as far as the next subdirectory, or has closed the directory.
inductive Ready : Forest → Place → Prop where
  | idle : Ready .nil .dequeuing
  | holding (dirName : Path) (task : Task) (rest : Listing) : Ready (.node task.forest rest.forest) (.enqueuing dirName task rest)

theorem scan_settles (rest : Listing) : ∀ p : Pool, p.place w = .scanning dirName rest → ∃ place, p.Works w place ∧ Ready rest.forest place := by
  induction rest with
  | nil =>
    intro p here
    exact ⟨.dequeuing,works_on (by rw [here]; rfl) (works_here (Function.update_self ..)),.idle⟩
  | skip why rest ih =>
    intro p here
    obtain ⟨place,later,ready⟩ := ih {p.go w (.scanning dirName rest) with counts := p.counts} (Function.update_self ..)
    exact ⟨place,works_on (by rw [here]; rfl) later,ready⟩
  | file name text rest ih =>
    intro p here
    let middle : Pool := {p.go w (.counting dirName (linesOf (fullPath dirName name) text) rest) with counts := p.counts.addFile}
    obtain ⟨place,later,ready⟩ := ih
      {middle.go w (.scanning dirName rest) with counts := middle.counts.addLines (linesOf (fullPath dirName name) text)}
      (Function.update_self ..)
    have counting : middle.place w = .counting dirName (linesOf (fullPath dirName name) text) rest := Function.update_self ..
    exact ⟨place,works_on (by rw [here]; rfl) (works_on (p := middle) (by rw [counting]; rfl) later),ready⟩
  | dir name copied opens sub rest _ ih =>
    intro p here
    cases copied with
    | true =>
      refine ⟨_,works_on (by rw [here]; rfl) (works_here (Function.update_self ..)),?_⟩
      exact .holding dirName ⟨fullPath dirName name,opens,sub⟩ rest
    | false =>
      obtain ⟨place,later,ready⟩ := ih {p.go w (.scanning dirName rest) with counts := p.counts.addDir} (Function.update_self ..)
      exact ⟨place,works_on (by rw [here]; rfl) later,ready⟩

theorem settles {p : Pool} (holding : (p.place w).hand = some forest) : ∃ place, p.Works w place ∧ Ready forest place := by
  cases here : p.place w with
  | dequeuing | exited =>
    rw [here] at holding
    cases holding
  | opening task =>
    rw [here] at holding
    obtain rfl := Option.some.inj holding
    cases opens : task.opens with
    | true =>
      obtain ⟨place,later,ready⟩ := scan_settles task.listing
        {p.go w (.scanning task.path task.listing) with counts := p.counts} (Function.update_self ..)
      refine ⟨place,works_on (by rw [here,work,opens]; rfl) later,?_⟩
      simpa [Task.forest,opens] using ready
    | false =>
      refine ⟨.dequeuing,works_on (by rw [here,work,opens]; rfl) (works_here (Function.update_self ..)),?_⟩
      simpa [Task.forest,opens] using Ready.idle
  | scanning dirName rest =>
    rw [here] at holding
    obtain rfl := Option.some.inj holding
    exact scan_settles rest p here
  | counting dirName lines rest =>
    rw [here] at holding
    obtain rfl := Option.some.inj holding
    obtain ⟨place,later,ready⟩ := scan_settles rest
      {p.go w (.scanning dirName rest) with counts := p.counts.addLines lines} (Function.update_self ..)
    exact ⟨place,works_on (by rw [here]; rfl) later,ready⟩
  | enqueuing dirName task rest =>
    rw [here] at holding
    obtain rfl := Option.some.inj holding
    exact ⟨_,works_here here,.holding dirName task rest⟩

-- Every play of the table is a run of the pool.
theorem play_runs {p : Pool} (inside : ∀ w, p.place w ≠ .exited) (play : Hands.Move queueMax p.table t) :
    ∃ log q, Runs Pool.Move p log q ∧ q.main = p.main ∧ q.done = p.done ∧ (∀ w, q.place w ≠ .exited) ∧ q.table = t := by
  have stays : ∀ {q : Pool} {w place}, q.place = Function.update p.place w place → place ≠ .exited → ∀ k, q.place k ≠ .exited := by
    intro q w place moved apart k
    rw [moved]
    by_cases same : k = w
    · subst same
      rwa [Function.update_self]
    · rw [Function.update_of_ne same]
      exact inside k
  cases play with
  | take w item queue idle front =>
    have here : p.place w = .dequeuing := by
      cases place : p.place w with
      | dequeuing => rfl
      | exited => exact absurd place (inside w)
      | opening | scanning | counting | enqueuing => simp [Pool.table,place,Place.hand] at idle
    cases tasks : p.tasks with
    | nil => simp [Pool.table,tasks] at front
    | cons task others =>
      obtain ⟨rfl,rfl⟩ : task.forest = item ∧ others.map Task.forest = queue := by simpa [Pool.table,tasks] using front
      exact ⟨_,_,.one (.take p w task others here tasks),rfl,rfl,stays rfl Place.noConfusion,@table_go w (.opening task) p _ rfl⟩
  | store w sub rest holds room =>
    obtain ⟨place,⟨log,counts,run⟩,ready⟩ := settles holds
    cases ready with
    | holding dirName task others =>
      have small : p.tasks.length < queueMax := by simpa [Pool.table] using room
      have store := Pool.Move.store {p.go w (.enqueuing dirName task others) with counts := counts} w dirName task others
        (Function.update_self ..) small
      refine ⟨_,_,run.append (.one store),rfl,rfl,@stays _ w (.scanning dirName others) (Function.update_idem ..) Place.noConfusion,?_⟩
      rw [@table_go w (.scanning dirName others) p _ (Function.update_idem ..)]
      simp [Pool.table,Place.hand,Pool.go]
  | close w holds =>
    obtain ⟨place,⟨log,counts,run⟩,ready⟩ := settles holds
    cases ready with
    | idle => exact ⟨_,_,run,rfl,rfl,stays rfl Place.noConfusion,@table_go w .dequeuing p _ rfl⟩

-- Workers that hold a subdirectory come to the call that is to store it.
theorem gathers {p : Pool} (ws : List Worker) (holding : ∀ w ∈ ws, ∃ sub rest, (p.place w).hand = some (.node sub rest)) :
    ∃ log q, Runs Pool.Move p log q ∧ q.tasks = p.tasks ∧ q.main = p.main ∧ q.done = p.done ∧
      (∀ w, w ∉ ws → q.place w = p.place w) ∧ ∀ w ∈ ws, ∃ dirName task rest, q.place w = .enqueuing dirName task rest := by
  induction ws with
  | nil => exact ⟨[],p,.nil,rfl,rfl,rfl,fun _ _ => rfl,nofun⟩
  | cons w ws ih =>
    obtain ⟨first,others⟩ := List.forall_mem_cons.mp holding
    obtain ⟨log,q,run,tasks,main,done,kept,calls⟩ := ih others
    by_cases old : w ∈ ws
    · refine ⟨log,q,run,tasks,main,done,fun k out => kept k (fun member => out (List.mem_cons_of_mem _ member)),?_⟩
      exact List.forall_mem_cons.mpr ⟨calls w old,calls⟩
    · obtain ⟨sub,rest,holds⟩ := first
      rw [← kept w old] at holds
      obtain ⟨place,⟨more,counts,later⟩,ready⟩ := settles holds
      cases ready with
      | holding dirName task left =>
        refine ⟨_,_,run.append later,tasks,main,done,?_,List.forall_mem_cons.mpr ⟨⟨dirName,task,left,Function.update_self ..⟩,?_⟩⟩
        · intro k out
          have apart : k ≠ w := fun same => out (same ▸ List.mem_cons_self)
          exact (Function.update_of_ne apart ..).trans (kept k (fun member => out (List.mem_cons_of_mem _ member)))
        · intro k member
          have apart : k ≠ w := fun same => old (same ▸ member)
          obtain ⟨name,pending,rest,here⟩ := calls k member
          exact ⟨name,pending,rest,(Function.update_of_ne apart ..).trans here⟩

end LinuxCoding.DirPool
