import Mathlib.Algebra.Group.Nat.Defs
import Mathlib.Algebra.Order.Group.Multiset
import LinuxCoding.Library.CInt
import LinuxCoding.Library.Hands

-- A directory tree as homework/statistic_file_with_thread_pool.c and IO/dir/statistic.c
-- find it: the entries that readdir returns, and the outcome of each call about them.
namespace LinuxCoding.DirPool
open Hands

abbrev Path := List UInt8

def pathSize : Nat := 1024

-- A d_name other than "." and "..".
structure Name where
  bytes : List UInt8
  positive : bytes ≠ []
  plain : 0 ∉ bytes ∧ 47 ∉ bytes
  ordinary : bytes ≠ [46] ∧ bytes ≠ [46,46]

-- What fgetc reads of a file; its size is an off_t.
structure Text where
  bytes : List UInt8
  small : bytes.length < 9223372036854775807

-- Why a scan passes an entry over: it is "." or "..", stat failed, or stat found neither
-- a regular file nor a directory.
inductive Passed where
  | dots
  | unknown
  | special
  deriving DecidableEq

-- A file has no text when fopen fails; for a directory come the outcomes of strdup and
-- of opendir, and then what readdir finds there.
inductive Listing where
  | nil
  | skip (why : Passed) (rest : Listing)
  | file (name : Name) (text : Option Text) (rest : Listing)
  | dir (name : Name) (copied opens : Bool) (sub rest : Listing)

-- A path in the queue, with what opendir and readdir will find under it.
structure Task where
  path : Path
  opens : Bool
  listing : Listing

-- snprintf into a char[1024].
def fullPath (dirName : Path) (name : Name) : Path := (dirName ++ 47 :: name.bytes).take (pathSize - 1)

-- The count fits a long because the text does.
def codeCounter : Option Text → Nat
  | none => 0
  | some text => text.bytes.count 10 + 1

def isCode (path : Path) : Bool :=
  2 < path.length && path.getD (path.length - 2) 0 = 46 &&
    (path.getD (path.length - 1) 0 = 99 || path.getD (path.length - 1) 0 = 104)

def linesOf (path : Path) (text : Option Text) : Nat := if isCode path then codeCounter text else 0

-- The paths given to opendir and those of the files, and the other two counters.
@[ext]
structure Totals where
  visits : Multiset Path
  files : Multiset Path
  dirs : Nat
  lines : Nat

instance : Zero Totals := ⟨⟨0,0,0,0⟩⟩
instance : Add Totals := ⟨fun a b => ⟨a.visits + b.visits,a.files + b.files,a.dirs + b.dirs,a.lines + b.lines⟩⟩

@[simp] theorem zero_visits : (0 : Totals).visits = 0 := rfl
@[simp] theorem zero_files : (0 : Totals).files = 0 := rfl
@[simp] theorem zero_dirs : (0 : Totals).dirs = 0 := rfl
@[simp] theorem zero_lines : (0 : Totals).lines = 0 := rfl
@[simp] theorem add_visits (a b : Totals) : (a + b).visits = a.visits + b.visits := rfl
@[simp] theorem add_files (a b : Totals) : (a + b).files = a.files + b.files := rfl
@[simp] theorem add_dirs (a b : Totals) : (a + b).dirs = a.dirs + b.dirs := rfl
@[simp] theorem add_lines (a b : Totals) : (a + b).lines = a.lines + b.lines := rfl

instance : AddCommMonoid Totals where
  add_assoc a b c := by ext1 <;> simp [add_assoc]
  zero_add a := by ext1 <;> simp
  add_zero a := by ext1 <;> simp
  add_comm a b := by ext1 <;> simp [add_comm]
  nsmul := nsmulRec

def visited (path : Path) : Totals := ⟨{path},0,0,0⟩
def counted (path : Path) (lines : Nat) : Totals := ⟨0,{path},0,lines⟩
def oneDir : Totals := ⟨0,0,1,0⟩

-- The test in show_dir, which looks at the last two bytes unasked.
def showsCode (path : Path) : Bool :=
  (path.getD (path.length - 1) 0 = 99 || path.getD (path.length - 1) 0 = 104) && path.getD (path.length - 2) 0 = 46

-- code_counter of statistic.c exits where the other returns 0.
def showLines (path : Path) (text : Option Text) : Option Nat :=
  if showsCode path then text.map (fun text => codeCounter (some text)) else some 0

-- The loop of show_dir, with exact totals; none is the exit. It has no strdup to fail.
def showLoop (dirName : Path) : Listing → Option Totals
  | .nil => some 0
  | .skip _ rest => showLoop dirName rest
  | .file name text rest => do
    let lines ← showLines (fullPath dirName name) text
    let others ← showLoop dirName rest
    return counted (fullPath dirName name) lines + others
  | .dir name _ opens sub rest => do
    let below ← if opens then showLoop (fullPath dirName name) sub else some 0
    let others ← showLoop dirName rest
    return oneDir + (visited (fullPath dirName name) + below) + others

def showDir (task : Task) : Option Totals := do
  let below ← if task.opens then showLoop task.path task.listing else some 0
  return visited task.path + below

-- What the pool is to find in a directory when it loses nothing that strdup copied.
def due (dirName : Path) : Listing → Totals
  | .nil => 0
  | .skip _ rest => due dirName rest
  | .file name text rest => counted (fullPath dirName name) (linesOf (fullPath dirName name) text) + due dirName rest
  | .dir name copied opens sub rest =>
    oneDir + (if copied then visited (fullPath dirName name) + (if opens then due (fullPath dirName name) sub else 0) else 0) +
      due dirName rest

def Task.due (task : Task) : Totals := visited task.path + (if task.opens then DirPool.due task.path task.listing else 0)

-- A tree of regular files and directories on which no call fails and no path is cut.
def Listing.Clean (dirName : Path) : Listing → Prop
  | .nil => True
  | .skip why rest => why = .dots ∧ rest.Clean dirName
  | .file name text rest => (dirName ++ 47 :: name.bytes).length < pathSize ∧ text.isSome ∧ rest.Clean dirName
  | .dir name copied opens sub rest =>
    (dirName ++ 47 :: name.bytes).length < pathSize ∧ copied ∧ opens ∧ sub.Clean (fullPath dirName name) ∧ rest.Clean dirName

def Task.Clean (task : Task) : Prop := task.path.length < pathSize ∧ task.opens ∧ task.listing.Clean task.path

-- The names in one directory differ.
def Listing.names : Listing → List (List UInt8)
  | .nil => []
  | .skip _ rest => rest.names
  | .file name _ rest => name.bytes :: rest.names
  | .dir name _ _ _ rest => name.bytes :: rest.names

def Listing.Distinct : Listing → Prop
  | .nil => True
  | .skip _ rest => rest.Distinct
  | .file name _ rest => name.bytes ∉ rest.names ∧ rest.Distinct
  | .dir name _ _ sub rest => name.bytes ∉ rest.names ∧ sub.Distinct ∧ rest.Distinct

-- The directories under one that the pool is to enqueue.
def Listing.forest : Listing → Forest
  | .nil => .nil
  | .skip _ rest => rest.forest
  | .file _ _ rest => rest.forest
  | .dir _ copied opens sub rest => if copied then .node (if opens then sub.forest else .nil) rest.forest else rest.forest

def Task.forest (task : Task) : Forest := if task.opens then task.listing.forest else .nil

-- A slash stands before the name, so a path of two bytes is no code file either way.
theorem shows_code (dirName : Path) (name : Name) : showsCode (fullPath dirName name) = isCode (fullPath dirName name) := by
  by_cases long : 2 < (fullPath dirName name).length
  · simp only [showsCode,isCode,long,decide_true,Bool.true_and]
    exact Bool.and_comm ..
  · obtain ⟨first,others,bytes⟩ := List.exists_cons_of_ne_nil name.positive
    have size : (fullPath dirName name).length = min 1023 (dirName.length + (others.length + 1 + 1)) := by
      simp [fullPath,pathSize,bytes]
    obtain ⟨rfl,rfl⟩ : dirName = [] ∧ others = [] := by
      constructor <;> apply List.eq_nil_of_length_eq_zero <;> omega
    simp [showsCode,isCode,fullPath,pathSize,bytes]

theorem show_lines (dirName : Path) (name : Name) (text : Text) :
    showLines (fullPath dirName name) (some text) = some (linesOf (fullPath dirName name) (some text)) := by
  simp only [showLines,linesOf,shows_code]
  cases isCode (fullPath dirName name) with
  | true => rfl
  | false => rfl

theorem show_loop {dirName : Path} {listing : Listing} (clean : listing.Clean dirName) :
    showLoop dirName listing = some (due dirName listing) := by
  induction listing generalizing dirName with
  | nil => rfl
  | skip why rest ih => exact ih clean.2
  | file name text rest ih =>
    obtain ⟨_,opened,clean⟩ := clean
    obtain ⟨text,rfl⟩ := Option.isSome_iff_exists.mp opened
    simp [showLoop,due,show_lines,ih clean]
  | dir name copied opens sub rest below ih =>
    obtain ⟨_,copied,opened,inside,clean⟩ := clean
    simp [showLoop,due,copied,opened,below inside,ih clean]

theorem show_dir {task : Task} (clean : task.Clean) : showDir task = some task.due := by
  obtain ⟨_,opened,clean⟩ := clean
  simp [showDir,Task.due,opened,show_loop clean]

-- Directories with the names aaa, aab and so on.
def digit (k : Nat) : UInt8 := UInt8.ofNat (97 + k % 26)

theorem digit_toNat (k : Nat) : (digit k).toNat = 97 + k % 26 := by
  have small : 97 + k % 26 < 256 := by omega
  exact UInt8.toNat_ofNat_of_lt small

theorem digit_ne (byte : UInt8) (below : byte.toNat < 97) (k : Nat) : byte ≠ digit k := by
  rintro rfl
  rw [digit_toNat] at below
  omega

def label (i : Nat) : Name where
  bytes := [digit (i / 676),digit (i / 26),digit i]
  positive := by simp
  plain := by
    have apart := fun byte below => digit_ne byte below
    simp [apart 0 (by decide),apart 47 (by decide)]
  ordinary := by simp

def folders (i : Nat) : List Listing → Listing
  | [] => .nil
  | sub :: subs => .dir (label i) true true sub (folders (i + 1) subs)

theorem label_injective (small : i < 17576) (other : j < 17576) (same : (label i).bytes = (label j).bytes) : i = j := by
  simp only [label,List.cons.injEq,← UInt8.toNat_inj,digit_toNat] at same
  omega

theorem folders_names (member : name ∈ (folders i subs).names) : ∃ j, i ≤ j ∧ j < i + subs.length ∧ name = (label j).bytes := by
  induction subs generalizing i with
  | nil => cases member
  | cons sub subs ih =>
    rw [List.length_cons]
    rcases List.mem_cons.mp member with rfl | later
    · exact ⟨i,Nat.le_refl i,by omega,rfl⟩
    · obtain ⟨j,low,high,same⟩ := ih later
      exact ⟨j,by omega,by omega,same⟩

theorem folders_distinct {subs : List Listing} (below : ∀ sub ∈ subs, sub.Distinct) (few : i + subs.length ≤ 17576) :
    (folders i subs).Distinct := by
  induction subs generalizing i with
  | nil => trivial
  | cons sub subs ih =>
    obtain ⟨first,others⟩ := List.forall_mem_cons.mp below
    rw [List.length_cons] at few
    refine ⟨?_,first,ih others (by omega)⟩
    intro member
    obtain ⟨j,low,high,same⟩ := folders_names member
    have here := label_injective (by omega) (by omega) same
    omega

theorem label_path (short : dirName.length + 4 < pathSize) (i : Nat) : (fullPath dirName (label i)).length = dirName.length + 4 := by
  simp only [pathSize] at short
  simp only [fullPath,label,pathSize,List.length_take,List.length_append,List.length_cons,List.length_nil]
  omega

theorem folders_clean {subs : List Listing} (short : dirName.length + 4 < pathSize)
    (below : ∀ sub ∈ subs, ∀ path : Path, path.length = dirName.length + 4 → sub.Clean path) : (folders i subs).Clean dirName := by
  induction subs generalizing i with
  | nil => trivial
  | cons sub subs ih =>
    obtain ⟨first,others⟩ := List.forall_mem_cons.mp below
    refine ⟨?_,rfl,rfl,first _ (label_path short i),ih others⟩
    simpa [label] using short

theorem folders_leaves {sub : Listing} (bare : sub.forest = .nil) (i k : Nat) : (folders i (.replicate k sub)).forest = leaves k := by
  induction k generalizing i with
  | zero => rfl
  | succ k ih =>
    rw [List.replicate_succ]
    simp [folders,Listing.forest,leaves,ih,bare]

theorem folders_wedge (i j capacity : Nat) :
    (folders i (.replicate j (folders 0 [.nil]) ++ .replicate (capacity + 1) .nil)).forest = wedge capacity j := by
  induction j generalizing i with
  | zero => exact folders_leaves rfl i (capacity + 1)
  | succ j ih =>
    rw [List.replicate_succ,List.cons_append,folders,wedge,← ih (i + 1)]
    rfl

end LinuxCoding.DirPool
