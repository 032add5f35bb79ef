import LinuxCoding.DirPool.Queue
import LinuxCoding.DirPool.Listing

-- homework/statistic_file_with_thread_pool.c: main and its workers, one step for each
-- section under a mutex and for each directory opened or closed.
namespace LinuxCoding.DirPool
open CInt Signals

abbrev Worker : Type := Fin threadNum

-- No worker is main.
abbrev Thread : Type := Option Worker

-- Where a worker is. `counting` is after file_count++, and `enqueuing` is the call with
-- what is left of the directory after it.
inductive Place where
  | dequeuing
  | opening (task : Task)
  | scanning (dirName : Path) (rest : Listing)
  | counting (dirName : Path) (lines : Nat) (rest : Listing)
  | enqueuing (dirName : Path) (task : Task) (rest : Listing)
  | exited

-- main is at the first look of its loop, at the second, at set_done or at pthread_join.
inductive MainPlace where
  | starting (task : Task)
  | looking
  | confirming
  | finishing
  | joining

structure Counts where
  fileCount : Int
  codeCount : Int
  dirCount : Int

structure State where
  calls : Config Thread (TaskQueue Task) (Op Task)
  main : MainPlace
  place : Worker → Place
  counts : Counts

-- A visit is a call of opendir, and a file or a directory one more in its counter.
inductive Event where
  | call (event : Signals.Event Thread (Op Task) (Ret Task))
  | visit (path : Path)
  | file (path : Path)
  | dir
  | lines (n : Nat)

def start (task : Task) : State := ⟨initial empty,.starting task,fun _ => .dequeuing,⟨0,0,0⟩⟩

def Counts.addFile (counts : Counts) : Counts := {counts with fileCount := toLong (counts.fileCount + 1)}
def Counts.addDir (counts : Counts) : Counts := {counts with dirCount := toLong (counts.dirCount + 1)}
def Counts.addLines (counts : Counts) (lines : Nat) : Counts :=
  if 0 < lines then {counts with codeCount := toLong (counts.codeCount + lines)} else counts

-- What a worker does on its own, up to the end of the next section of stat_mutex.
def work (counts : Counts) : Place → Option (Place × Counts × List Event)
  | .dequeuing => none
  | .opening task => some (if task.opens then .scanning task.path task.listing else .dequeuing,counts,[.visit task.path])
  | .scanning _ .nil => some (.dequeuing,counts,[])
  | .scanning dirName (.skip _ rest) => some (.scanning dirName rest,counts,[])
  | .scanning dirName (.file name text rest) =>
    some (.counting dirName (linesOf (fullPath dirName name) text) rest,counts.addFile,[.file (fullPath dirName name)])
  | .scanning dirName (.dir name copied opens sub rest) =>
    some (if copied then .enqueuing dirName ⟨fullPath dirName name,opens,sub⟩ rest else .scanning dirName rest,
      counts.addDir,[.dir])
  | .counting dirName lines rest => some (.scanning dirName rest,counts.addLines lines,[.lines lines])
  | .enqueuing .. => none
  | .exited => none

inductive Works (counts : Counts) : Place → Place → Counts → List Event → Prop where
  | opens : task.opens = true → Works counts (.opening task) (.scanning task.path task.listing) counts [.visit task.path]
  | fails : task.opens = false → Works counts (.opening task) .dequeuing counts [.visit task.path]
  | ends : Works counts (.scanning dirName .nil) .dequeuing counts []
  | skips : Works counts (.scanning dirName (.skip why rest)) (.scanning dirName rest) counts []
  | reads : Works counts (.scanning dirName (.file name text rest)) (.counting dirName (linesOf (fullPath dirName name) text) rest)
      counts.addFile [.file (fullPath dirName name)]
  | copies : Works counts (.scanning dirName (.dir name true opens sub rest))
      (.enqueuing dirName ⟨fullPath dirName name,opens,sub⟩ rest) counts.addDir [.dir]
  | loses : Works counts (.scanning dirName (.dir name false opens sub rest)) (.scanning dirName rest) counts.addDir [.dir]
  | adds : Works counts (.counting dirName lines rest) (.scanning dirName rest) (counts.addLines lines) [.lines lines]

-- What a worker can do, branch by branch.
theorem work_works {place next : Place} (worked : work counts place = some (next,after,emitted)) : Works counts place next after emitted := by
  cases place with
  | dequeuing | enqueuing | exited => cases worked
  | opening task =>
    cases opened : task.opens with
    | true =>
      rw [work,opened] at worked
      cases worked
      exact .opens opened
    | false =>
      rw [work,opened] at worked
      cases worked
      exact .fails opened
  | scanning dirName rest =>
    cases rest with
    | nil =>
      cases worked
      exact .ends
    | skip why rest =>
      cases worked
      exact .skips
    | file name text rest =>
      cases worked
      exact .reads
    | dir name copied opens sub rest =>
      cases copied with
      | true =>
        cases worked
        exact .copies
      | false =>
        cases worked
        exact .loses
  | counting dirName lines rest =>
    cases worked
    exact .adds

def Place.op : Place → Option (Op Task)
  | .dequeuing => some .dequeueTask
  | .enqueuing _ task _ => some (.enqueueTask task)
  | _ => none

def MainPlace.op : MainPlace → Option (Op Task)
  | .starting task => some (.enqueueTask task)
  | .finishing => some .setDone
  | _ => none

def State.op (s : State) : Thread → Option (Op Task)
  | none => s.main.op
  | some w => (s.place w).op

-- Where a call returns to.
def Place.resume : Place → Ret Task → Place
  | .dequeuing,.path (some task) => .opening task
  | .dequeuing,.path none => .exited
  | .enqueuing dirName _ rest,_ => .scanning dirName rest
  | place,_ => place

def MainPlace.resume : MainPlace → MainPlace
  | .starting _ => .looking
  | .finishing => .joining
  | place => place

def State.go (s : State) (w : Worker) (place : Place) : State := {s with place := Function.update s.place w place}

def State.resume (s : State) : Thread → Outcome (Ret Task) → State
  | none,.returned _ => {s with main := s.main.resume}
  | some w,.returned ret => s.go w ((s.place w).resume ret)
  | _,.slept => s
  | _,.roused => s

def State.empty (s : State) : Bool := s.calls.shared.queueCount = 0

inductive Step : State → List Event → State → Prop where
  | call (s : State) (t : Thread) (op : Op Task) (outcome : Outcome (Ret Task)) (calls : Config Thread (TaskQueue Task) (Op Task)) :
      s.op t = some op → Signals.Step (queue Task) s.calls [⟨t,op,outcome⟩] calls →
      Step s [.call ⟨t,op,outcome⟩] (State.resume {s with calls := calls} t outcome)
  | work (s : State) (w : Worker) (place : Place) (counts : Counts) (emitted : List Event) :
      DirPool.work s.counts (s.place w) = some (place,counts,emitted) →
      Step s emitted {s.go w place with counts := counts}
  | look (s : State) : s.main = .looking → Step s [] {s with main := if s.empty then .confirming else .looking}
  | confirm (s : State) : s.main = .confirming → Step s [] {s with main := if s.empty then .finishing else .looking}

-- All workers have returned from worker().
def State.AllExited (s : State) : Prop := ∀ w, s.place w = .exited

end LinuxCoding.DirPool
