import Mathlib.Tactic.Abel
import LinuxCoding.Library.Total
import LinuxCoding.DirPool.Progress
import LinuxCoding.DirPool.Schedule

namespace LinuxCoding.DirPool
open CInt Signals Total Transition

-- What an event adds to the totals, and what is lost with a path that is freed.
def Event.totals : Event → Totals
  | .visit path => visited path
  | .file path => counted path 0
  | .dir => oneDir
  | .lines n => ⟨0,0,0,n⟩
  | .call _ => 0

def Event.lost : Event → Totals
  | .call ⟨_,.enqueueTask task,.returned .freed⟩ => task.due
  | _ => 0

def reported (log : List Event) : Totals := (log.map Event.totals).sum
def lost (log : List Event) : Totals := (log.map Event.lost).sum

@[simp] theorem reported_nil : reported [] = 0 := rfl
@[simp] theorem lost_nil : lost [] = 0 := rfl

theorem reported_one (event : Event) : reported [event] = event.totals := by simp [reported]
theorem lost_one (event : Event) : lost [event] = event.lost := by simp [lost]

-- What is still to be reported by a worker, by main and by those who will take the tasks.
def Place.due : Place → Totals
  | .dequeuing => 0
  | .opening task => task.due
  | .scanning dirName rest => DirPool.due dirName rest
  | .counting dirName lines rest => ⟨0,0,0,lines⟩ + DirPool.due dirName rest
  | .enqueuing dirName task rest => task.due + DirPool.due dirName rest
  | .exited => 0

def MainPlace.due : MainPlace → Totals
  | .starting task => task.due
  | _ => 0

def Pool.due (p : Pool) : Totals := (p.tasks.map Task.due).sum + ∑ w, (p.place w).due + p.main.due

theorem counted_lines (path : Path) (lines : Nat) : counted path 0 + ⟨0,0,0,lines⟩ = counted path lines := by
  ext1 <;> simp [counted]

theorem work_due {place next : Place} (worked : work counts place = some (next,after,emitted)) :
    place.due = reported emitted + next.due ∧ lost emitted = 0 := by
  cases work_works worked with
  | opens opened => simp [Place.due,Task.due,opened,reported,lost,Event.totals,Event.lost]
  | fails closed => simp [Place.due,Task.due,closed,reported,lost,Event.totals,Event.lost]
  | ends | skips => simp [Place.due,due,reported,lost]
  | reads =>
    refine ⟨?_,by simp [lost,Event.lost]⟩
    rw [reported_one,Place.due,due,Place.due,Event.totals,← counted_lines _ (linesOf _ _),add_assoc]
  | copies => simp [Place.due,due,Task.due,reported,lost,Event.totals,Event.lost,add_assoc]
  | loses => simp [Place.due,due,reported,lost,Event.totals,Event.lost]
  | adds => simp [Place.due,reported,lost,Event.totals,Event.lost]

-- A worker that moves leaves the rest of the sum alone.
theorem go_due {p q : Pool} (main : q.main = p.main) (moved : q.place = Function.update p.place w place)
    (paid : (p.tasks.map Task.due).sum + (p.place w).due = x + (q.tasks.map Task.due).sum + place.due) : p.due = x + q.due := by
  obtain ⟨others,before,after⟩ := sum_split Place.due p.place w
  calc p.due = (p.tasks.map Task.due).sum + (p.place w).due + (others + p.main.due) := by
        rw [Pool.due,before]
        abel
    _ = x + q.due := by
        rw [paid,Pool.due,main,moved,after place]
        abel

theorem main_due {p q : Pool} (tasks : q.tasks = p.tasks) (place : q.place = p.place) (before : p.main.due = 0)
    (after : q.main.due = 0) : p.due = q.due := by
  rw [Pool.due,Pool.due,tasks,place,before,after]

-- Nothing is counted twice, and only what is freed is not counted.
theorem step_due {p after : Pool} (step : Pool.Step p emitted after) : p.due = reported emitted + lost emitted + after.due := by
  cases step with
  | wait t op outcome waits =>
    cases outcome with
    | returned ret => exact absurd rfl (waits ret)
    | slept | roused => simp [reported,lost,Event.totals,Event.lost]
  | again => simp
  | refute confirming =>
    rw [reported_nil,lost_nil,zero_add,zero_add]
    exact main_due rfl rfl (by rw [confirming]; rfl) rfl
  | move _ _ move =>
    cases move with
    | first task => simp [Pool.due,begin,Place.due,MainPlace.due,reported,lost,stored,Event.totals,Event.lost]
    | store _ w dirName task rest here =>
      refine go_due rfl rfl ?_
      rw [here,reported_one,lost_one]
      simp only [Place.due,stored,Event.totals,Event.lost,List.map_append,List.sum_append,List.map_singleton,List.sum_singleton]
      abel
    | free _ w dirName task rest here =>
      refine go_due rfl rfl ?_
      rw [here,reported_one,lost_one]
      simp only [Place.due,freed,Event.totals,Event.lost,Pool.go]
      abel
    | take _ w task tasks here front =>
      refine go_due rfl rfl ?_
      rw [here,front,reported_one,lost_one]
      simp only [Place.due,taken,Event.totals,Event.lost,List.map_cons,List.sum_cons]
      abel
    | quit _ w here drained done =>
      refine go_due rfl rfl ?_
      rw [here,reported_one,lost_one]
      simp only [Place.due,taken,Event.totals,Event.lost,Pool.go,zero_add]
    | work _ w place counts emitted worked =>
      obtain ⟨due,none⟩ := work_due worked
      refine go_due rfl rfl ?_
      rw [due,none]
      simp only [Pool.go]
      abel
    | look _ looking =>
      rw [reported_nil,lost_nil,zero_add,zero_add]
      exact main_due rfl rfl (by rw [looking]; rfl) rfl
    | confirm _ confirming =>
      rw [reported_nil,lost_nil,zero_add,zero_add]
      exact main_due rfl rfl (by rw [confirming]; rfl) rfl
    | finish _ finishing =>
      rw [reported_one,lost_one]
      simp only [Event.totals,Event.lost,zero_add]
      exact main_due rfl rfl (by rw [finishing]; rfl) rfl

-- The three counters are longs.
structure Agrees (counts : Counts) (totals : Totals) : Prop where
  files : counts.fileCount = toLong totals.files.card
  dirs : counts.dirCount = toLong totals.dirs
  lines : counts.codeCount = toLong totals.lines

theorem work_agrees {place next : Place} (agrees : Agrees counts totals) (worked : work counts place = some (next,after,emitted)) :
    Agrees after (totals + reported emitted) := by
  obtain ⟨files,dirs,lines⟩ := agrees
  cases work_works worked with
  | opens | fails =>
    rw [reported_one]
    exact ⟨by simpa [Event.totals,visited] using files,by simpa [Event.totals,visited] using dirs,
      by simpa [Event.totals,visited] using lines⟩
  | ends | skips =>
    rw [reported_nil,add_zero]
    exact ⟨files,dirs,lines⟩
  | reads =>
    rw [reported_one]
    exact ⟨by simp [Counts.addFile,files,toLong_add,Event.totals,counted],by simpa [Event.totals,counted] using! dirs,
      by simpa [Event.totals,counted] using! lines⟩
  | copies | loses =>
    rw [reported_one]
    exact ⟨by simpa [Event.totals,oneDir] using! files,by simp [Counts.addDir,dirs,toLong_add,Event.totals,oneDir],
      by simpa [Event.totals,oneDir] using! lines⟩
  | @adds dirName n rest =>
    rw [reported_one]
    by_cases some_ : 0 < n
    · simp only [Counts.addLines,if_pos some_]
      exact ⟨by simpa [Event.totals] using files,by simpa [Event.totals] using dirs,by simp [Event.totals,lines,toLong_add]⟩
    · obtain rfl : n = 0 := by omega
      simp only [Counts.addLines,if_neg some_]
      exact ⟨by simpa [Event.totals] using files,by simpa [Event.totals] using dirs,by simpa [Event.totals] using lines⟩

theorem step_agrees {p after : Pool} (agrees : Agrees p.counts totals) (step : Pool.Step p emitted after) :
    Agrees after.counts (totals + reported emitted) := by
  cases step with
  | wait | again | refute => simpa [reported_one,Event.totals] using agrees
  | move _ _ move =>
    cases move with
    | work _ w place counts emitted worked => exact work_agrees agrees worked
    | first | store | free | take | quit => simpa [reported_one,Event.totals,stored,freed,taken] using! agrees
    | look | confirm | finish => simpa [reported_one,Event.totals] using agrees

theorem reported_append (earlier later : List Event) : reported (earlier ++ later) = reported earlier + reported later := by
  rw [reported,List.map_append,List.sum_append]
  rfl

theorem lost_append (earlier later : List Event) : lost (earlier ++ later) = lost earlier + lost later := by
  rw [lost,List.map_append,List.sum_append]
  rfl

theorem run_due {p : Pool} (run : Runs Pool.Step (begin task) log p) :
    task.due = reported log + lost log + p.due ∧ Agrees p.counts (reported log) := by
  apply run.invariant (I := fun log p => task.due = reported log + lost log + p.due ∧ Agrees p.counts (reported log))
  · intro log p emitted after ⟨due,agrees⟩ step
    rw [reported_append,lost_append]
    refine ⟨?_,step_agrees agrees step⟩
    rw [due,step_due step]
    abel
  · refine ⟨by simp [Pool.due,begin,Place.due,MainPlace.due],?_⟩
    constructor <;> simp [begin,toLong]

theorem exited_due {p : Pool} (sound : p.Sound) (ended : ∀ w, p.place w = .exited) : p.due = 0 := by
  have none : p.tasks = [] := sound.drained ended
  have joining : p.main = .joining := sound.joining (sound.quitting ⟨0,by decide⟩ (ended _))
  simp [Pool.due,none,joining,ended,Place.due,MainPlace.due]

-- When all workers have left, the totals are those of the whole tree but for what was freed.
theorem run_totals {s : State} (run : Runs Step (start task) log s) (ended : s.AllExited) :
    task.due = reported log + lost log ∧ Agrees s.counts (reported log) := by
  obtain ⟨p,path,shown⟩ := run_shows run
  obtain ⟨due,agrees⟩ := run_due path
  have out : ∀ w, p.place w = .exited := by
    intro w
    rw [← shown.place]
    exact ended w
  rw [exited_due (run_sound path) out,add_zero] at due
  rw [← shown.counts] at agrees
  exact ⟨due,agrees⟩

theorem lost_nothing (kept : ∀ t task, freed t task ∉ log) : lost log = 0 := by
  induction log with
  | nil => rfl
  | cons event rest ih =>
    have others := ih (fun t task member => kept t task (List.mem_cons_of_mem _ member))
    have here : event.lost = 0 := by
      unfold Event.lost
      split
      · rename_i t task
        exact absurd List.mem_cons_self (kept t task)
      · rfl
    rw [← List.singleton_append,lost_append,lost_one,here,others,add_zero]

theorem lost_task (member : freed t task ∈ log) : ∃ others, lost log = task.due + others := by
  obtain ⟨earlier,later,rfl⟩ := List.append_of_mem member
  refine ⟨lost earlier + lost later,?_⟩
  rw [← List.singleton_append,lost_append,lost_append,lost_one]
  simp only [freed,Event.lost]
  abel

-- Whoever leaves enqueue_task found room.
def Roomy (s : State) (emitted : List Event) : Prop :=
  ∀ t task ret, .call ⟨t,.enqueueTask task,.returned ret⟩ ∈ emitted → s.calls.shared.queueCount < queueMax

theorem step_roomy {s after : State} (step : Step s emitted after) : Roomy s emitted ↔ ∀ t task, freed t task ∉ emitted := by
  cases step with
  | work w next counts emitted worked =>
    have quiet : ∀ event, .call event ∉ emitted := fun _ => work_quiet worked
    exact ⟨fun _ t task => quiet _,fun _ t task ret member => absurd member (quiet _)⟩
  | look | confirm => exact ⟨fun _ t task => List.not_mem_nil,fun _ t task ret member => absurd member List.not_mem_nil⟩
  | call t op outcome calls calling taken =>
    cases taken with
    | sleep | rouse => simp [Roomy,freed]
    | leave _ _ ready passes notified =>
      cases op with
      | dequeueTask | setDone => simp [Roomy,freed]
      | enqueueTask task =>
        rcases enqueue_cases task s.calls.shared with ⟨room,_,_,ret,_⟩ | ⟨full,same⟩
        · simp [Roomy,freed,queue,ret,room]
        · have outside : ¬s.calls.shared.queueCount < queueMax := by omega
          simp [Roomy,freed,queue,same,outside]

theorem roomy_run {s : State} (run : Runs Step origin log s) : Runs (Where Step Roomy) origin log s ↔ ∀ t task, freed t task ∉ log := by
  constructor
  · intro roomy
    apply roomy.invariant (I := fun log _ => ∀ t task, freed t task ∉ log)
    · intro log s emitted after kept taken t task member
      rcases List.mem_append.mp member with earlier | here
      · exact kept t task earlier
      · exact (step_roomy taken.1).mp taken.2 t task here
    · exact fun _ _ => List.not_mem_nil
  · intro kept
    induction run with
    | nil => exact .nil
    | step prior taken ih =>
      have earlier := ih (fun t task member => kept t task (List.mem_append_left _ member))
      have here := (step_roomy taken).mpr (fun t task member => kept t task (List.mem_append_right _ member))
      exact .step earlier ⟨taken,here⟩

-- The tree is visited as show_dir visits it, and the counters are its totals.
def Counted (task : Task) (log : List Event) (s : State) : Prop :=
  ∃ totals, showDir task = some totals ∧ reported log = totals ∧ Agrees s.counts totals

theorem totals_exact {s : State} (clean : task.Clean) (run : Runs Step (start task) log s) (ended : s.AllExited) :
    Counted task log s ↔ Runs (Where Step Roomy) (start task) log s := by
  obtain ⟨due,agrees⟩ := run_totals run ended
  rw [roomy_run run]
  constructor
  · intro ⟨totals,whole,same,_⟩ t other member
    rw [show_dir clean] at whole
    obtain rfl := Option.some.inj whole
    obtain ⟨others,missing⟩ := lost_task member
    have visits := congrArg Totals.visits due
    rw [same,missing,add_visits,left_eq_add] at visits
    simp [Task.due,visited] at visits
  · intro kept
    rw [lost_nothing kept,add_zero] at due
    exact ⟨_,show_dir clean,due.symm,by rw [due]; exact agrees⟩

-- With nothing to do any more the workers leave.
theorem quits (ws : List Worker) (distinct : ws.Nodup) : ∀ p : Pool, p.tasks = [] → p.done = true →
    (∀ w ∈ ws, p.place w = .dequeuing) → (∀ w, w ∉ ws → p.place w = .exited) →
    ∃ log q, Runs Pool.Move p log q ∧ (∀ w, q.place w = .exited) ∧ ∀ t task, freed t task ∉ log := by
  induction ws with
  | nil =>
    intro p _ _ _ out
    exact ⟨[],p,.nil,fun w => out w List.not_mem_nil,fun _ _ => List.not_mem_nil⟩
  | cons w ws ih =>
    intro p drained done idle out
    obtain ⟨fresh,distinct⟩ := List.nodup_cons.mp distinct
    obtain ⟨here,others⟩ := List.forall_mem_cons.mp idle
    have left : ∀ k, k ∉ ws → (p.go w .exited).place k = .exited := by
      intro k absent
      by_cases same : k = w
      · subst same
        exact Function.update_self ..
      · exact (Function.update_of_ne same ..).trans (out k (fun member => (List.mem_cons.mp member).elim same absent))
    have still : ∀ k ∈ ws, (p.go w .exited).place k = .dequeuing :=
      fun k member => (Function.update_of_ne (fun same : k = w => fresh (same ▸ member)) ..).trans (others k member)
    obtain ⟨log,q,run,ended,kept⟩ := ih distinct (p.go w .exited) drained done still left
    refine ⟨_,q,(Runs.one (.quit p w here drained done)).append run,ended,?_⟩
    intro t task member
    rcases List.mem_append.mp member with first | later
    · simp [freed,taken] at first
    · exact kept t task later

def firstWorker : Worker := ⟨0,by decide⟩

-- A worker takes the only directory, and then main ends the work.
def takes (task : Task) : Pool := {(begin task).go firstWorker (.opening task) with main := .joining,done := true}

theorem takes_run (task : Task) : ∃ log, Runs Pool.Move (begin task) log (takes task) ∧ ∀ t other, freed t other ∉ log := by
  have first := Pool.Move.first task
  have take := Pool.Move.take {begin task with tasks := [task],main := .looking} firstWorker task [] rfl rfl
  have look := Pool.Move.look {(begin task).go firstWorker (.opening task) with main := .looking} rfl rfl
  have confirm := Pool.Move.confirm {(begin task).go firstWorker (.opening task) with main := .confirming} rfl rfl
  have finish := Pool.Move.finish {(begin task).go firstWorker (.opening task) with main := .finishing} rfl
  refine ⟨_,((((Runs.one first).step take).step look).step confirm).step finish,?_⟩
  simp [freed,stored,taken]

def emptyTree : Task := ⟨[46],true,.nil⟩

theorem empty_counted : ∃ log s, Runs (Where Step Roomy) (start emptyTree) log s ∧ s.AllExited ∧ Counted emptyTree log s := by
  obtain ⟨early,run,stored⟩ := takes_run emptyTree
  have opened := Pool.Move.work (takes emptyTree) firstWorker (.scanning [46] .nil) ⟨0,0,0⟩ [.visit [46]] rfl
  have closed := Pool.Move.work ((takes emptyTree).go firstWorker (.scanning [46] .nil)) firstWorker .dequeuing ⟨0,0,0⟩ [] rfl
  have idle : ∀ w, (((takes emptyTree).go firstWorker (.scanning [46] .nil)).go firstWorker .dequeuing).place w = .dequeuing := by
    intro w
    simp [Pool.go,takes,begin]
  obtain ⟨late,q,leaving,ended,kept⟩ := quits (List.finRange threadNum) (List.nodup_finRange _)
    (((takes emptyTree).go firstWorker (.scanning [46] .nil)).go firstWorker .dequeuing) rfl rfl
    (fun w _ => idle w) (fun w absent => absurd (List.mem_finRange w) absent)
  obtain ⟨s,path,calm⟩ := calm_runs (start_calm emptyTree) (((run.step opened).step closed).append leaving)
  have out : s.AllExited := fun w => (congrFun calm.shown.place w).trans (ended w)
  have roomy : Runs (Where Step Roomy) (start emptyTree) _ s := (roomy_run path).mpr (by
    intro t task
    have visit : freed t task ≠ .visit [46] := Event.noConfusion
    simp [stored,kept,visit])
  have clean : emptyTree.Clean := ⟨by decide,rfl,trivial⟩
  exact ⟨_,s,roomy,out,(totals_exact clean path out).mpr roomy⟩

-- A worker that comes to a subdirectory, and what it does when there is room for it.
theorem finds {p : Pool} (here : p.place w = .scanning dirName (folders i (sub :: subs))) : ∃ q, Pool.Move p [.dir] q ∧
    q.place w = .enqueuing dirName ⟨fullPath dirName (label i),true,sub⟩ (folders (i + 1) subs) ∧ q.tasks = p.tasks ∧ q.done = p.done :=
  ⟨_,.work p w (.enqueuing dirName ⟨fullPath dirName (label i),true,sub⟩ (folders (i + 1) subs)) p.counts.addDir [.dir]
    (by rw [here]; rfl),Function.update_self ..,rfl,rfl⟩

theorem stores_found {p : Pool} (calling : p.place w = .enqueuing dirName task rest) (room : p.tasks.length < queueMax) :
    ∃ q, Pool.Move p [stored w task] q ∧ q.place w = .scanning dirName rest ∧ q.tasks.length = p.tasks.length + 1 ∧ q.done = p.done :=
  ⟨_,.store p w dirName task rest calling room,Function.update_self ..,List.length_append,rfl⟩

theorem stores (sub : Listing) (rest : List Listing) (k : Nat) : ∀ i (p : Pool),
    p.place w = .scanning dirName (folders i (.replicate k sub ++ rest)) → p.tasks.length + k ≤ queueMax →
    ∃ log q, Runs Pool.Move p log q ∧ q.place w = .scanning dirName (folders (i + k) rest) ∧
      q.tasks.length = p.tasks.length + k ∧ q.done = p.done := by
  induction k with
  | zero => exact fun i p here _ => ⟨[],p,.nil,here,rfl,rfl⟩
  | succ k ih =>
    intro i p here room
    rw [List.replicate_succ,List.cons_append] at here
    obtain ⟨first,found,calling,tasks,kept⟩ := finds here
    obtain ⟨second,store,scanning,more,same⟩ := stores_found calling (by rw [tasks]; omega)
    rw [tasks] at more
    obtain ⟨log,q,run,there,size,done⟩ := ih (i + 1) second scanning (by omega)
    refine ⟨_,q,((Runs.one found).step store).append run,?_,by omega,done.trans (same.trans kept)⟩
    rw [there,Nat.add_assoc,Nat.add_comm 1 k]

-- 1025 directories with one file each.
def oneFile : Listing := .file (label 0) (some ⟨[],by decide⟩) .nil

def floodTree : Task := ⟨[46],true,folders 0 (.replicate (queueMax + 1) oneFile)⟩

theorem oneFile_due (path : Path) : (due path oneFile).files.card = 1 := rfl

theorem flood_files (path : Path) (i k : Nat) : (due path (folders i (.replicate k oneFile))).files.card = k := by
  induction k generalizing i with
  | zero => rfl
  | succ k ih =>
    rw [List.replicate_succ]
    simp only [folders,due,if_true,add_files,Multiset.card_add,ih,oneFile_due]
    simp [oneDir,visited,Nat.add_comm]

-- The flag is set while the first worker scans, and the last directory finds the queue full.
theorem flood_frees : ∃ log q t task, Runs Pool.Move (begin floodTree) log q ∧ freed t task ∈ log ∧ task.due.files.card = 1 := by
  obtain ⟨early,run,_⟩ := takes_run floodTree
  have opened := Pool.Move.work (takes floodTree) firstWorker (.scanning [46] floodTree.listing) ⟨0,0,0⟩ [.visit [46]] rfl
  have listing : floodTree.listing = folders 0 (.replicate queueMax oneFile ++ [oneFile]) := by
    rw [floodTree,List.replicate_succ']
  obtain ⟨log,full,filling,scanning,size,done⟩ := stores oneFile [oneFile] queueMax 0
    ((takes floodTree).go firstWorker (.scanning [46] floodTree.listing))
    ((Function.update_self ..).trans (congrArg _ listing)) (Nat.le_of_eq (Nat.zero_add _))
  obtain ⟨last,found,calling,tasks,kept⟩ := finds scanning
  have free := Pool.Move.free last firstWorker _ _ _ calling (by rw [tasks,size]; exact Nat.le_add_left ..) (kept.trans done)
  refine ⟨_,_,_,_,(((run.step opened).append filling).step found).step free,List.mem_append_right _ List.mem_cons_self,?_⟩
  simp [Task.due,visited,oneFile_due]

theorem flood_clean : floodTree.Clean := by
  refine ⟨by decide,rfl,folders_clean (by decide) ?_⟩
  intro sub member path size
  rw [List.eq_of_mem_replicate member]
  exact ⟨by simp [size,label,pathSize,floodTree],rfl,trivial⟩

theorem flood_distinct : floodTree.listing.Distinct := by
  refine folders_distinct ?_ ?_
  · intro sub member
    rw [List.eq_of_mem_replicate member]
    exact ⟨List.not_mem_nil,trivial⟩
  · rw [List.length_replicate]
    decide

theorem flood_unjammed : ¬Hands.Jams threadNum queueMax floodTree.forest := by
  apply Hands.small_never_jams
  have forest : floodTree.forest = Hands.leaves (queueMax + 1) := folders_leaves rfl 0 (queueMax + 1)
  rw [forest,Hands.leaves_size]
  decide

theorem flood_total : floodTree.due.files.card = queueMax + 1 := by
  have listed : floodTree.due.files = (due [46] floodTree.listing).files := by
    rw [Task.due,add_files]
    exact Multiset.zero_add _
  rw [listed]
  exact flood_files [46] 0 (queueMax + 1)

theorem flood_uncounted : floodTree.Clean ∧ floodTree.listing.Distinct ∧ ∃ log s totals, Runs Step (start floodTree) log s ∧
    s.AllExited ∧ showDir floodTree = some totals ∧ s.counts.fileCount ≠ toLong totals.files.card := by
  obtain ⟨log,q,t,task,run,dropped,one⟩ := flood_frees
  obtain ⟨s,path,_⟩ := calm_runs (start_calm floodTree) run
  obtain ⟨p,fit⟩ := run_fit flood_unjammed path
  obtain ⟨more,after,leaving,ended⟩ := all_exit flood_unjammed fit
  have whole := path.append leaving.unrestricted
  obtain ⟨due,agrees⟩ := run_totals whole ended
  obtain ⟨others,missing⟩ := lost_task (List.mem_append_left more dropped)
  refine ⟨flood_clean,flood_distinct,_,after,_,whole,ended,show_dir flood_clean,?_⟩
  have total := flood_total
  have files := congrArg (fun totals : Totals => totals.files.card) due
  simp only [missing,add_files,Multiset.card_add,one,total] at files
  rw [agrees.files,total]
  rw [toLong_inRange (by omega) (by simp only [queueMax] at files; omega),toLong_inRange (by simp [queueMax]) (by simp [queueMax])]
  omega

end LinuxCoding.DirPool
