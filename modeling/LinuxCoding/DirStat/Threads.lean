import LinuxCoding.DirStat.Model

-- What the threads return: each owes a count from its creation on, and its own thread and
-- those it still has to join owe no more together.
namespace LinuxCoding.DirStat
open CInt DirPool Transition

-- What an entry adds, where `codes` counts the lines of a file.
def filed (codes : Text → Int) (path : Path) (text : Text) : Count := ⟨0,1,if isCode path then codes text else 0⟩
def oneDir : Count := ⟨1,0,0⟩

-- dir_count and file_count are of type int in a thread.
def Count.narrow (c : Count) : Count := ⟨toInt c.dirs,toInt c.files,c.lines⟩

-- The entries of one directory, and what its subdirectories add when `kept` is what remains
-- of the entries of each.
def own (dirName : Path) : Seen → Count
  | .nil => 0
  | .file name text rest => filed codeCounter (fullPath dirName name) text + own dirName rest
  | .dir _ _ rest => oneDir + own dirName rest
  | .other rest => own dirName rest

def below (kept : Count → Count) (dirName : Path) : Seen → Count
  | .nil => 0
  | .file _ _ rest => below kept dirName rest
  | .dir name sub rest => kept (own (fullPath dirName name) sub) + below kept (fullPath dirName name) sub + below kept dirName rest
  | .other rest => below kept dirName rest

def walk (kept : Count → Count) (dirName : Path) (seen : Seen) : Count := kept (own dirName seen) + below kept dirName seen

@[simp] theorem long_dirs (c : Count) : c.long.dirs = toLong c.dirs := rfl
@[simp] theorem long_files (c : Count) : c.long.files = toLong c.files := rfl
@[simp] theorem long_lines (c : Count) : c.long.lines = toLong c.lines := rfl

theorem toLong_toInt (n : Int) : toLong (toInt n) = toInt n := by
  obtain ⟨low,high⟩ := toInt_bounds n
  simp only [intMin,intMax] at low high
  exact toLong_inRange (by omega) (by omega)

theorem long_add (a b : Count) : (a.long + b).long = (a + b).long := by
  ext1 <;> simp [toLong_add]

theorem add_long (a b : Count) : (a + b.long).long = (a + b).long := by
  rw [add_comm,long_add,add_comm]

theorem long_long (c : Count) : c.long.long = c.long := by
  simpa using long_add c 0

-- The local counters of a scan that has found `exact` so far.
theorem file_counted (exact : Count) (path : Path) (text : Text) :
    exact.narrow.long.addFile path text = (exact + filed codeCounter path text).narrow.long := by
  ext1
  · simp [Count.addFile,Count.narrow,filed]
  · simp [Count.addFile,Count.narrow,filed,toLong_toInt,toInt_add]
  · by_cases code : isCode path = true <;> simp [Count.addFile,Count.narrow,filed,code,toLong_add]

theorem dir_counted (exact : Count) :
    {exact.narrow.long with dirs := toInt (exact.narrow.long.dirs + 1)} = (exact + oneDir).narrow.long := by
  ext1 <;> simp [Count.narrow,oneDir,toLong_toInt,toInt_add]

-- A thread creates only threads with higher numbers.
def Owes (dues : Nat → Count) (size tid : Nat) : Thread → Prop
  | .scanning dirName rest count tids =>
    (∃ exact : Count, count = exact.narrow.long ∧
      dues tid = (exact + own dirName rest).narrow + ((tids.map dues).sum + below .narrow dirName rest)) ∧
    ∀ child ∈ tids, tid < child ∧ child < size
  | .joining count tids => (count.long = count ∧ (dues tid).long = (count + (tids.map dues).sum).long) ∧
    ∀ child ∈ tids, tid < child ∧ child < size
  | .exited count => count = (dues tid).long

def Ledger (dues : Nat → Count) (threads : List Thread) : Prop :=
  ∀ tid thread, threads[tid]? = some thread → Owes dues threads.length tid thread

theorem ledger_set (ledger : Ledger dues threads) (new : Owes dues threads.length tid thread) :
    Ledger dues (threads.set tid thread) := by
  intro k other found
  rw [List.length_set]
  rw [List.getElem?_set] at found
  split at found
  next same =>
    subst same
    split at found
    · cases found
      exact new
    · cases found
  next => exact ledger k other found

-- A new thread has a due of its own; the others know nothing of it.
theorem owes_more (agrees : ∀ k < size, more k = dues k) (owes : Owes dues size tid thread) (old : tid < size) :
    Owes more (size + 1) tid thread := by
  have sums : ∀ tids : List Nat, (∀ child ∈ tids, tid < child ∧ child < size) → (tids.map more).sum = (tids.map dues).sum := by
    intro tids inside
    rw [List.map_congr_left (fun child member => agrees child (inside child member).2)]
  cases thread with
  | scanning dirName rest count tids =>
    obtain ⟨⟨exact,counted,owed⟩,inside⟩ := owes
    refine ⟨⟨exact,counted,?_⟩,fun child member => ⟨(inside child member).1,by have := (inside child member).2; omega⟩⟩
    rw [agrees tid old,owed,sums tids inside]
  | joining count tids =>
    obtain ⟨⟨counted,owed⟩,inside⟩ := owes
    refine ⟨⟨counted,?_⟩,fun child member => ⟨(inside child member).1,by have := (inside child member).2; omega⟩⟩
    rw [agrees tid old,owed,sums tids inside]
  | exited count =>
    change count = (more tid).long
    rw [agrees tid old]
    exact owes

theorem owes_start (owed : dues tid = walk .narrow dirName seen) : Owes dues size tid (.scanning dirName seen 0 []) := by
  refine ⟨⟨0,by decide,?_⟩,by simp⟩
  rw [owed,zero_add]
  simp [walk]

theorem ledger_spawn (ledger : Ledger dues threads)
    (found : threads[tid]? = some (.scanning dirName (.dir name sub rest) count tids)) :
    Ledger (Function.update dues threads.length (walk .narrow (fullPath dirName name) sub))
      (threads.set tid (.scanning dirName rest {count with dirs := toInt (count.dirs + 1)} (tids ++ [threads.length])) ++
        [.scanning (fullPath dirName name) sub 0 []]) := by
  obtain ⟨⟨exact,counted,owed⟩,inside⟩ := ledger _ _ found
  have old : tid < threads.length := (List.getElem?_eq_some_iff.mp found).1
  let more := Function.update dues threads.length (walk .narrow (fullPath dirName name) sub)
  have agrees : ∀ k < threads.length, more k = dues k := fun k small => Function.update_of_ne (by omega) _ _
  have fresh : more threads.length = walk .narrow (fullPath dirName name) sub := Function.update_self _ _ _
  have sums : ((tids ++ [threads.length]).map more).sum = (tids.map dues).sum + walk .narrow (fullPath dirName name) sub := by
    rw [List.map_append,List.sum_append,List.map_congr_left (fun child member => agrees child (inside child member).2)]
    simp [fresh]
  have creator : Owes more (threads.length + 1) tid
      (.scanning dirName rest {count with dirs := toInt (count.dirs + 1)} (tids ++ [threads.length])) := by
    refine ⟨⟨exact + oneDir,by rw [counted,dir_counted],?_⟩,?_⟩
    · rw [agrees tid old,owed,sums,own,below,walk]
      simp only [add_assoc]
    · intro child member
      rcases List.mem_append.mp member with earlier | new
      · have := inside child earlier
        omega
      · rw [List.mem_singleton.mp new]
        omega
  intro k thread present
  rw [List.length_append,List.length_set,List.length_singleton]
  rw [List.getElem?_append,List.length_set] at present
  split at present
  next small =>
    by_cases same : tid = k
    · subst same
      rw [List.getElem?_set_self old] at present
      cases present
      exact creator
    · rw [List.getElem?_set_ne same] at present
      exact owes_more agrees (ledger k thread present) small
  next last =>
    obtain ⟨inRange,rfl⟩ := List.getElem?_eq_some_iff.mp present
    rw [List.length_singleton] at inRange
    have only : k = threads.length := by omega
    subst only
    simpa using owes_start fresh

theorem ledger_step (ledger : Ledger dues threads) (step : Step threads emitted after) :
    ∃ more, more 0 = dues 0 ∧ Ledger more after := by
  cases step with
  | @file dirName rest tids name text count tid found =>
    obtain ⟨⟨exact,counted,owed⟩,inside⟩ := ledger _ _ found
    refine ⟨dues,rfl,ledger_set ledger ⟨⟨exact + filed codeCounter (fullPath dirName name) text,?_,?_⟩,inside⟩⟩
    · rw [counted,file_counted]
    · rw [owed,own,below,add_assoc]
  | dir tid found =>
    have old : tid < threads.length := (List.getElem?_eq_some_iff.mp found).1
    exact ⟨_,Function.update_of_ne (by omega) _ _,ledger_spawn ledger found⟩
  | other tid found =>
    obtain ⟨owed,inside⟩ := ledger _ _ found
    exact ⟨dues,rfl,ledger_set ledger ⟨owed,inside⟩⟩
  | listed tid found =>
    obtain ⟨⟨exact,counted,owed⟩,inside⟩ := ledger _ _ found
    refine ⟨dues,rfl,ledger_set ledger ⟨⟨?_,?_⟩,inside⟩⟩
    · rw [counted,long_long]
    · rw [owed,counted,own,below,add_zero,add_zero,long_add]
  | @join _ sum _ tid child found ended =>
    obtain ⟨⟨counted,owed⟩,inside⟩ := ledger _ _ found
    have returned : sum = (dues child).long := ledger _ _ ended
    refine ⟨dues,rfl,ledger_set ledger ⟨⟨long_long _,?_⟩,fun other member => inside other (List.mem_cons_of_mem _ member)⟩⟩
    rw [owed,returned,add_long,long_add,List.map_cons,List.sum_cons,add_assoc]
  | @exit count tid found =>
    obtain ⟨⟨counted,owed⟩,inside⟩ := ledger _ _ found
    refine ⟨dues,rfl,ledger_set ledger ?_⟩
    change count = (dues tid).long
    rw [owed,List.map_nil,List.sum_nil,add_zero,counted]

theorem step_length (step : Step threads emitted after) : threads.length ≤ after.length := by
  cases step <;> simp

theorem ledger_run (run : Runs Step (start dirName seen) log threads) :
    0 < threads.length ∧ ∃ dues : Nat → Count, dues 0 = walk .narrow dirName seen ∧ Ledger dues threads := by
  apply run.stateInvariant (I := fun threads => 0 < threads.length ∧ ∃ dues : Nat → Count, dues 0 = walk .narrow dirName seen ∧ Ledger dues threads)
  · intro threads emitted after ⟨positive,dues,first,ledger⟩ step
    obtain ⟨more,same,kept⟩ := ledger_step ledger step
    exact ⟨by have := step_length step; omega,more,same.trans first,kept⟩
  · refine ⟨Nat.one_pos,fun _ => walk .narrow dirName seen,rfl,?_⟩
    intro tid thread found
    obtain ⟨inRange,rfl⟩ := List.getElem?_eq_some_iff.mp found
    simpa [start] using owes_start rfl

-- What is left to do, where a new thread is paid for by the entry that names its directory.
def Seen.work : Seen → Nat
  | .nil => 0
  | .file _ _ rest => rest.work + 1
  | .dir _ sub rest => sub.work + rest.work + 4
  | .other rest => rest.work + 1

def Thread.work : Thread → Nat
  | .scanning _ rest _ tids => rest.work + tids.length + 2
  | .joining _ tids => tids.length + 1
  | .exited _ => 0

def work (threads : List Thread) : Nat := (threads.map Thread.work).sum

theorem work_set {threads : List Thread} (found : threads[tid]? = some old) (new : Thread) :
    work (threads.set tid new) + old.work = work threads + new.work := by
  induction threads generalizing tid with
  | nil => simp at found
  | cons first threads ih =>
    cases tid with
    | zero =>
      simp only [List.getElem?_cons_zero,Option.some.injEq] at found
      subst found
      simp only [work,List.set_cons_zero,List.map_cons,List.sum_cons]
      omega
    | succ tid =>
      rw [List.getElem?_cons_succ] at found
      have later := ih found
      simp only [work,List.set_cons_succ,List.map_cons,List.sum_cons] at later ⊢
      omega

theorem work_less (found : threads[tid]? = some old) (less : new.work < old.work) : work (threads.set tid new) < work threads := by
  have changed := work_set found new
  omega

theorem step_work (step : Step threads emitted after) : work after < work threads := by
  cases step with
  | file tid found => exact work_less found (by simp only [Thread.work,Seen.work]; omega)
  | @dir dirName rest count tids name sub tid found =>
    have changed := work_set found (.scanning dirName rest {count with dirs := toInt (count.dirs + 1)} (tids ++ [threads.length]))
    simp only [Thread.work,Seen.work,List.length_append,List.length_singleton] at changed
    rw [work,List.map_append,List.sum_append,← work]
    simp only [List.map_cons,List.map_nil,List.sum_singleton,Thread.work,List.length_nil]
    omega
  | other tid found => exact work_less found (by simp only [Thread.work,Seen.work]; omega)
  | listed tid found => exact work_less found (by simp only [Thread.work,Seen.work]; omega)
  | join tid child found ended => exact work_less found (by simp only [Thread.work,List.length_cons]; omega)
  | exit tid found => exact work_less found (by simp only [Thread.work,List.length_nil]; omega)

-- A thread waits only for threads with higher numbers, so the highest that has not exited can go on.
theorem stuck_exited (ledger : Ledger dues threads) (stuck : Stuck Step threads) (tid : Nat) (inRange : tid < threads.length) :
    ∃ count, threads[tid]? = some (.exited count) := by
  induction left : threads.length - tid using Nat.strongRecOn generalizing tid with
  | ind left ih =>
    have found : threads[tid]? = some threads[tid] := List.getElem?_eq_getElem inRange
    have owes := ledger tid _ found
    cases phase : threads[tid] with
    | scanning dirName rest count tids =>
      rw [phase] at found
      cases rest with
      | nil => exact absurd (Step.listed tid found) (stuck _ _)
      | file name text rest => exact absurd (Step.file tid found) (stuck _ _)
      | dir name sub rest => exact absurd (Step.dir tid found) (stuck _ _)
      | other rest => exact absurd (Step.other tid found) (stuck _ _)
    | joining count tids =>
      rw [phase] at found owes
      cases tids with
      | nil => exact absurd (Step.exit tid found) (stuck _ _)
      | cons child tids =>
        obtain ⟨later,created⟩ := owes.2 child List.mem_cons_self
        obtain ⟨sum,ended⟩ := ih (threads.length - child) (by omega) child created rfl
        exact absurd (Step.join tid child found ended) (stuck _ _)
    | exited count => exact ⟨count,by rw [found,phase]⟩

theorem threads_return (run : Runs Step (start dirName seen) log threads) (stuck : Stuck Step threads) :
    threads[0]? = some (.exited (walk .narrow dirName seen).long) := by
  obtain ⟨positive,dues,first,ledger⟩ := ledger_run run
  obtain ⟨count,exited⟩ := stuck_exited ledger stuck 0 positive
  have returned : count = (dues 0).long := ledger 0 _ exited
  rw [exited,returned,first]

end LinuxCoding.DirStat
