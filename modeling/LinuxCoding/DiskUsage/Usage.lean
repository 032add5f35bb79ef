import Mathlib.Algebra.Ring.Nat
import LinuxCoding.Library.CInt
import LinuxCoding.Library.Traversal

-- mydu.c: the blocks of a directory tree, walked through with glob.
namespace LinuxCoding.DiskUsage
open CInt Traversal

abbrev Path : Type := List UInt8
abbrev Name : Type := List UInt8

def pathsize : Nat := 1024
def longMax : Nat := 9223372036854775807

-- What lstat stores: whether it is a directory, and st_blocks, a signed number of 64 bits.
structure Stat where
  isDir : Bool
  blocks : Nat
  fits : blocks ≤ longMax

-- glob returns the paths that a pattern expands to.
structure FileSystem where
  lstat : Path → Stat
  glob : Path → List Path

def dot : Name := [46]
def dotDot : Name := [46,46]

-- strrchr(path, '/') + 1
def behindSlash (path : Path) : Option Name :=
  if 47 ∈ path then some (path.reverse.takeWhile (· ≠ 47)).reverse else none

def pathNoloop (path : Path) : Bool :=
  match behindSlash path with
  | none => true
  | some name => name ≠ dot && name ≠ dotDot

-- snprintf(nextpath, PATHSIZE, ...) with "%s/*" and "%s/.*"
def nextpath (path suffix : Path) : Path := (path ++ suffix).take (pathsize - 1)

def FileSystem.globres (fs : FileSystem) (path : Path) : List Path := fs.glob (nextpath path [47,42]) ++ fs.glob (nextpath path [47,46,42])

-- The loop over gl_pathv. Beside the sum it keeps the paths that have been counted.
def addAll (mydu : Path → Option (List Path × Int)) : List Path → List Path → Int → Option (List Path × Int)
  | [],visited,sum => some (visited,sum)
  | path :: rest,visited,sum =>
    if pathNoloop path then do
      let (more,blocks) ← mydu path
      addAll mydu rest (visited ++ more) (toLong (sum + blocks))
    else addAll mydu rest visited sum

-- The fuel bounds the depth of the recursion, and none is a call that has not returned.
def mydu (fs : FileSystem) : Nat → Path → Option (List Path × Int)
  | 0,_ => none
  | fuel + 1,path =>
    let statres := fs.lstat path
    if !statres.isDir then some ([path],statres.blocks)
    else addAll (mydu fs fuel) (fs.globres path) [path] (toLong (0 + statres.blocks))

-- A file or link, or a directory with the entries that are not "." and "..".
inductive Tree where
  | leaf (blocks : Nat)
  | dir (blocks : Nat) (names : List Name) (sub : Name → Tree)

def join (path : Path) (name : Name) : Path := path ++ 47 :: name

-- The paths of the entries below a path, and the blocks of all.
def Tree.entries (path : Path) : Tree → List Path
  | .leaf _ => []
  | .dir _ names sub => names.flatMap fun name => join path name :: (sub name).entries (join path name)

def Tree.total : Tree → Nat
  | .leaf blocks => blocks
  | .dir blocks names sub => blocks + (names.map fun name => (sub name).total).sum

structure Legal (name : Name) : Prop where
  some : name ≠ []
  noSlash : 47 ∉ name
  noNul : 0 ∉ name
  noDot : name ≠ dot
  noDotDot : name ≠ dotDot

-- The tree lies at a path.
def Tree.Mounted (fs : FileSystem) (path : Path) : Tree → Prop
  | .leaf blocks => (fs.lstat path).isDir = false ∧ (fs.lstat path).blocks = blocks
  | .dir blocks names sub =>
    (fs.lstat path).isDir = true ∧ (fs.lstat path).blocks = blocks ∧ names.Nodup ∧
    ∀ name ∈ names, Legal name ∧ (sub name).Mounted fs (join path name)

-- mydu returns the sum over the path and all entries below it, each counted once.
def Counts (fs : FileSystem) (path : Path) (tree : Tree) : Prop :=
  ∃ fuel visited, mydu fs fuel path = some (visited,(tree.total : Int)) ∧ visited.Perm (path :: tree.entries path)

-- The calls that a call makes.
def FileSystem.next (fs : FileSystem) (path : Path) : List Path :=
  if (fs.lstat path).isDir then (fs.globres path).filter pathNoloop else []

def FileSystem.blocks (fs : FileSystem) (paths : List Path) : Nat := (paths.map fun path => (fs.lstat path).blocks).sum

theorem toLong_small (small : n ≤ longMax) : toLong n = n := by
  simp only [longMax] at small
  exact toLong_inRange (by omega) (by omega)

theorem toLong_right (m n : Int) : toLong (m + toLong n) = toLong (m + n) := by
  rw [Int.add_comm,toLong_add,Int.add_comm]

theorem addAll_visits (fs : FileSystem) {f : Path → Option (List Path × Int)} {g : Path → Option (List Path)}
    (same : ∀ path, f path = (g path).map fun v => (v,toLong (fs.blocks v))) (list visited : List Path) (n : Int) :
    addAll f list visited (toLong n) =
      (visitAll g (list.filter pathNoloop)).map fun v => (visited ++ v,toLong (n + fs.blocks v)) := by
  induction list generalizing visited n with
  | nil => simp [addAll,visitAll,FileSystem.blocks]
  | cons path rest ih =>
    cases calls : pathNoloop path with
    | false => rw [addAll,if_neg (by simp [calls]),List.filter_cons_of_neg (by simp [calls]),ih]
    | true =>
      rw [addAll,if_pos calls,List.filter_cons_of_pos calls,same,visitAll]
      cases first : g path with
      | none => rfl
      | some v =>
        simp only [Option.map_some,bind,Option.bind_some,toLong_add,toLong_right]
        rw [ih]
        cases visitAll g (rest.filter pathNoloop) with
        | none => rfl
        | some w => simp [FileSystem.blocks,Int.add_assoc]

theorem mydu_visits (fs : FileSystem) (fuel : Nat) (path : Path) :
    mydu fs fuel path = (visit fs.next fuel path).map fun v => (v,toLong (fs.blocks v)) := by
  induction fuel generalizing path with
  | zero => rfl
  | succ fuel ih =>
    rw [mydu,visit,FileSystem.next]
    cases isDir : (fs.lstat path).isDir with
    | false =>
      have own := toLong_small (fs.lstat path).fits
      simp [visitAll,FileSystem.blocks,own]
    | true =>
      simp only [Bool.not_true,Bool.false_eq_true,if_false,if_true]
      rw [addAll_visits fs ih]
      cases visitAll (visit fs.next fuel) ((fs.globres path).filter pathNoloop) with
      | none => rfl
      | some v => simp [FileSystem.blocks]

-- The name in a path right behind a part of it.
def nameBehind (path p : Path) : Name := (p.drop (path.length + 1)).takeWhile (· ≠ 47)

theorem name_taken {name : Name} (noSlash : 47 ∉ name) (rest : Path) (ends : rest = [] ∨ ∃ more, rest = 47 :: more) :
    (name ++ rest).takeWhile (· ≠ 47) = name := by
  have goes : ∀ byte ∈ name, decide (byte ≠ 47) = true := by
    intro byte member
    have other : byte ≠ 47 := fun same => noSlash (same ▸ member)
    simpa using other
  rw [List.takeWhile_append_of_pos goes]
  rcases ends with rfl | ⟨more,rfl⟩ <;> simp

theorem nameBehind_join {name : Name} (noSlash : 47 ∉ name) (path rest : Path) (ends : rest = [] ∨ ∃ more, rest = 47 :: more) :
    nameBehind path (join path name ++ rest) = name := by
  have dropped : (join path name ++ rest).drop (path.length + 1) = name ++ rest := by
    rw [join,List.append_assoc,List.cons_append,← List.drop_drop,List.drop_left]
    rfl
  rw [nameBehind,dropped,name_taken noSlash rest ends]

theorem entries_extend {tree : Tree} (member : p ∈ tree.entries path) : ∃ rest, p = path ++ 47 :: rest := by
  induction tree generalizing path with
  | leaf => cases member
  | dir blocks names sub ih =>
    obtain ⟨name,_,inside⟩ := List.mem_flatMap.mp member
    rcases List.mem_cons.mp inside with rfl | below
    · exact ⟨name,rfl⟩
    · obtain ⟨rest,rfl⟩ := ih name below
      exact ⟨name ++ 47 :: rest,by rw [join,List.append_assoc,List.cons_append]⟩

theorem entry_name {tree : Tree} (noSlash : 47 ∉ name) (member : p ∈ join path name :: tree.entries (join path name)) :
    nameBehind path p = name := by
  rcases List.mem_cons.mp member with rfl | below
  · simpa using nameBehind_join noSlash path [] (.inl rfl)
  · obtain ⟨rest,rfl⟩ := entries_extend below
    exact nameBehind_join noSlash path (47 :: rest) (.inr ⟨rest,rfl⟩)

theorem path_fresh (tree : Tree) (path : Path) : path ∉ tree.entries path := by
  intro member
  obtain ⟨rest,same⟩ := entries_extend member
  have length := congrArg List.length same
  rw [List.length_append,List.length_cons] at length
  omega

theorem entries_distinct {tree : Tree} (mounted : tree.Mounted fs path) : (path :: tree.entries path).Nodup := by
  refine List.nodup_cons.mpr ⟨path_fresh tree path,?_⟩
  induction tree generalizing path with
  | leaf => exact .nil
  | dir blocks names sub ih =>
    obtain ⟨_,_,distinct,inside⟩ := mounted
    rw [Tree.entries,List.nodup_flatMap]
    constructor
    · intro name member
      exact List.nodup_cons.mpr ⟨path_fresh (sub name) (join path name),ih name (inside name member).2⟩
    · apply List.Pairwise.imp_of_mem ?_ distinct
      intro name other member member' apart p first second
      have one := entry_name (inside name member).1.noSlash first
      have two := entry_name (inside other member').1.noSlash second
      exact apart (one.symm.trans two)

theorem entries_blocks {tree : Tree} (mounted : tree.Mounted fs path) : fs.blocks (path :: tree.entries path) = tree.total := by
  induction tree generalizing path with
  | leaf blocks =>
    have own := mounted.2
    simp [FileSystem.blocks,Tree.entries,Tree.total,own]
  | dir blocks names sub ih =>
    obtain ⟨_,own,_,inside⟩ := mounted
    have each : ∀ name ∈ names, fs.blocks (join path name :: (sub name).entries (join path name)) = (sub name).total :=
      fun name member => ih name (inside name member).2
    have sums : fs.blocks (names.flatMap fun name => join path name :: (sub name).entries (join path name)) =
        (names.map fun name => (sub name).total).sum := by
      rw [FileSystem.blocks,List.map_flatMap,List.flatMap,List.sum_flatten,List.map_map]
      congr 1
      exact List.map_congr_left each
    rw [Tree.total,← own,← sums]
    rfl

theorem toLong_max (n : Int) : toLong n ≤ longMax := by
  have bound : n.bmod 18446744073709551616 < (18446744073709551616 + 1) / 2 := Int.bmod_lt (by decide)
  simp only [toLong,longMax]
  omega

theorem perm_blocks {tree : Tree} (mounted : tree.Mounted fs path) (whole : List.Perm v (path :: tree.entries path)) :
    fs.blocks v = tree.total := by
  rw [← entries_blocks mounted]
  exact (whole.map _).sum_eq

theorem counts_covers {tree : Tree} (mounted : tree.Mounted fs path) (counts : Counts fs path tree) :
    Covers fs.next path (tree.entries path) ∧ tree.total ≤ longMax := by
  obtain ⟨fuel,visited,returned,whole⟩ := counts
  rw [mydu_visits] at returned
  obtain ⟨v,walked,same⟩ := Option.map_eq_some_iff.mp returned
  obtain ⟨counted,value⟩ := Prod.mk.inj same
  rw [← counted] at whole
  rw [perm_blocks mounted whole] at value
  have bound := toLong_max tree.total
  rw [value] at bound
  exact ⟨(visit_covers (entries_distinct mounted)).mp ⟨fuel,v,walked,whole⟩,by exact_mod_cast bound⟩

theorem covers_counts {tree : Tree} (mounted : tree.Mounted fs path) (covers : Covers fs.next path (tree.entries path))
    (small : tree.total ≤ longMax) : Counts fs path tree := by
  obtain ⟨fuel,v,walked,whole⟩ := (visit_covers (entries_distinct mounted)).mpr covers
  refine ⟨fuel,v,?_,whole⟩
  rw [mydu_visits,walked,Option.map_some,perm_blocks mounted whole,toLong_small small]

-- More fuel does not change what a call returns.
theorem mydu_same (returned : mydu fs fuel path = some result) (returned' : mydu fs fuel' path = some result') : result = result' := by
  rw [mydu_visits] at returned returned'
  obtain ⟨v,walked,same⟩ := Option.map_eq_some_iff.mp returned
  obtain ⟨w,walked',same'⟩ := Option.map_eq_some_iff.mp returned'
  have one := visit_le walked (Nat.le_max_left fuel fuel')
  have two := visit_le walked' (Nat.le_max_right fuel fuel')
  rw [← same,← same',Option.some.inj (one.symm.trans two)]

end LinuxCoding.DiskUsage
