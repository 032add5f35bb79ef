import LinuxCoding.DirPool.Listing
import LinuxCoding.Library.Transition

-- The statistics of a directory tree with links: IO/dir/statistic.c goes by the type in
-- the entry, homework/statistic_file.c by stat and with a thread for each directory.
namespace LinuxCoding.DirStat
open CInt DirPool Transition

-- What a link leads to; `missing` is where stat fails.
inductive Target (ρ : Type) where
  | missing
  | special
  | file (text : Text)
  | dir (ref : ρ)

-- The entries of a directory that are not "." or "..". A link goes through `hops` more
-- links to its target, and `ρ` names the directories that links lead to. No path is cut off,
-- and no call but stat fails.
inductive Tree (ρ : Type) where
  | nil
  | file (name : Name) (text : Text) (rest : Tree ρ)
  | dir (name : Name) (sub rest : Tree ρ)
  | link (name : Name) (hops : Nat) (target : Target ρ) (rest : Tree ρ)
  | special (name : Name) (rest : Tree ρ)

-- The tree as a program sees it.
inductive Seen where
  | nil
  | file (name : Name) (text : Text) (rest : Seen)
  | dir (name : Name) (sub rest : Seen)
  | other (rest : Seen)

-- d_type
def dType : Tree ρ → Seen
  | .nil => .nil
  | .file name text rest => .file name text (dType rest)
  | .dir name sub rest => .dir name (dType sub) (dType rest)
  | .link _ _ _ rest => .other (dType rest)
  | .special _ rest => .other (dType rest)

-- The kernel follows so many links on the way of a path.
def maxLinks : Nat := 40

-- stat, where a path may still go through `left` links.
def stat (follow : ρ → Tree ρ) (left : Nat) : Tree ρ → Seen
  | .nil => .nil
  | .file name text rest => .file name text (stat follow left rest)
  | .dir name sub rest => .dir name (stat follow left sub) (stat follow left rest)
  | .link name hops target rest =>
    if hops < left then
      match target with
      | .missing => .other (stat follow left rest)
      | .special => .other (stat follow left rest)
      | .file text => .file name text (stat follow left rest)
      | .dir ref => .dir name (stat follow (left - (hops + 1)) (follow ref)) (stat follow left rest)
    else .other (stat follow left rest)
  | .special _ rest => .other (stat follow left rest)
termination_by tree => (left,sizeOf tree)
decreasing_by
  all_goals simp_wf
  all_goals omega

@[ext]
structure Count where
  dirs : Int
  files : Int
  lines : Int
  deriving DecidableEq

instance : Zero Count := ⟨⟨0,0,0⟩⟩
instance : Add Count := ⟨fun a b => ⟨a.dirs + b.dirs,a.files + b.files,a.lines + b.lines⟩⟩

@[simp] theorem zero_dirs : (0 : Count).dirs = 0 := rfl
@[simp] theorem zero_files : (0 : Count).files = 0 := rfl
@[simp] theorem zero_lines : (0 : Count).lines = 0 := rfl
@[simp] theorem add_dirs (a b : Count) : (a + b).dirs = a.dirs + b.dirs := rfl
@[simp] theorem add_files (a b : Count) : (a + b).files = a.files + b.files := rfl
@[simp] theorem add_lines (a b : Count) : (a + b).lines = a.lines + b.lines := rfl

instance : AddCommMonoid Count where
  add_assoc a b c := by ext1 <;> simp [add_assoc]
  zero_add a := by ext1 <;> simp
  add_zero a := by ext1 <;> simp
  add_comm a b := by ext1 <;> simp [add_comm]
  nsmul := nsmulRec

-- Three counters of type long.
def Count.long (c : Count) : Count := ⟨toLong c.dirs,toLong c.files,toLong c.lines⟩

-- code_counter of statistic_file.c, and the one of statistic.c with its local int.
def codeCounter (text : Text) : Int := text.bytes.count 10 + 1
def codeCounterInt (text : Text) : Int := toInt (codeCounter text)

-- show_dir of statistic.c, on the global counters.
def showDir (dirName : Path) : Seen → Count → Count
  | .nil,count => count
  | .file name text rest,count =>
    let lines := if showsCode (fullPath dirName name) then toLong (count.lines + codeCounterInt text) else count.lines
    showDir dirName rest ⟨count.dirs,toLong (count.files + 1),lines⟩
  | .dir name sub rest,count => showDir dirName rest (showDir (fullPath dirName name) sub {count with dirs := toLong (count.dirs + 1)})
  | .other rest,count => showDir dirName rest count

-- show_dir of statistic_file.c: in the loop over readdir with its local counters, in the
-- loop of pthread_join, or returned. dir_count and file_count are of type int in the first;
-- the int index of the second counts fewer threads than a process can have.
inductive Thread where
  | scanning (dirName : Path) (rest : Seen) (count : Count) (tids : List Nat)
  | joining (count : Count) (tids : List Nat)
  | exited (count : Count)

def Count.addFile (count : Count) (path : Path) (text : Text) : Count :=
  ⟨count.dirs,toInt (count.files + 1),if isCode path then toLong (count.lines + codeCounter text) else count.lines⟩

-- A step of any one thread. The threads share nothing but the results they return.
inductive Step : List Thread → List Unit → List Thread → Prop where
  | file (tid : Nat) : threads[tid]? = some (.scanning dirName (.file name text rest) count tids) →
      Step threads [] (threads.set tid (.scanning dirName rest (count.addFile (fullPath dirName name) text) tids))
  | dir (tid : Nat) : threads[tid]? = some (.scanning dirName (.dir name sub rest) count tids) →
      Step threads [] (threads.set tid (.scanning dirName rest {count with dirs := toInt (count.dirs + 1)} (tids ++ [threads.length])) ++
        [.scanning (fullPath dirName name) sub 0 []])
  | other (tid : Nat) : threads[tid]? = some (.scanning dirName (.other rest) count tids) →
      Step threads [] (threads.set tid (.scanning dirName rest count tids))
  | listed (tid : Nat) : threads[tid]? = some (.scanning dirName .nil count tids) → Step threads [] (threads.set tid (.joining count tids))
  | join (tid child : Nat) : threads[tid]? = some (.joining count (child :: tids)) → threads[child]? = some (.exited sum) →
      Step threads [] (threads.set tid (.joining (count + sum).long tids))
  | exit (tid : Nat) : threads[tid]? = some (.joining count []) → Step threads [] (threads.set tid (.exited count))

-- main has created the first thread.
def start (dirName : Path) (seen : Seen) : List Thread := [.scanning dirName seen 0 []]

end LinuxCoding.DirStat
