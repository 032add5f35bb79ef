import Mathlib.Data.List.Infix
import LinuxCoding.DiskUsage.Usage
import LinuxCoding.Library.Split

-- Which names the patterns of mydu can be trusted with, when glob expands a pattern to the
-- paths that exist and match it name by name.
namespace LinuxCoding.DiskUsage
open Split Traversal

def matchAll (fnmatch : Name → Name → Bool) : List Name → List Name → Bool
  | [],[] => true
  | part :: parts,name :: names => fnmatch part name && matchAll fnmatch parts names
  | _,_ => false

structure Globbing (fs : FileSystem) (fnmatch : Name → Name → Bool) (Present : Path → Prop) : Prop where
  distinct : ∀ pattern, (fs.glob pattern).Nodup
  exact : ∀ pattern path, path ∈ fs.glob pattern ↔ Present path ∧ matchAll fnmatch (pattern.splitOn 47) (path.splitOn 47) = true

-- The characters * ? [ and backslash.
def special (byte : UInt8) : Bool := byte = 42 || byte = 63 || byte = 91 || byte = 92

-- What fnmatch does with the patterns of a path without them.
structure Matching (fnmatch : Name → Name → Bool) : Prop where
  plain : ∀ part name, (∀ byte ∈ part, special byte = false) → (fnmatch part name = true ↔ part = name)
  star : ∀ name, fnmatch [42] name = true ↔ name.head? ≠ some 46
  dotStar : ∀ name, fnmatch [46,42] name = true ↔ name.head? = some 46

-- In a directory of the tree its entries exist, and "." and "..", and nothing else.
def Tree.Listed (Present : Path → Prop) (path : Path) : Tree → Prop
  | .leaf _ => True
  | .dir _ names sub =>
    (∀ name, 47 ∉ name → (Present (join path name) ↔ name ∈ names ∨ name = dot ∨ name = dotDot)) ∧
    ∀ name ∈ names, (sub name).Listed Present (join path name)

-- The paths of the directories contain no special character and leave room for the pattern.
def Tree.Plain (path : Path) : Tree → Prop
  | .leaf _ => True
  | .dir _ names sub =>
    (∀ byte ∈ path, special byte = false) ∧ path.length + 3 < pathsize ∧ ∀ name ∈ names, (sub name).Plain (join path name)

section
variable {fs : FileSystem} {fnmatch : Name → Name → Bool} {Present : Path → Prop} {path : Path} {names : List Name}

theorem matchAll_length (matched : matchAll fnmatch parts names = true) : parts.length = names.length := by
  induction parts generalizing names with
  | nil =>
    cases names with
    | nil => rfl
    | cons name names => cases matched
  | cons part parts ih =>
    cases names with
    | nil => cases matched
    | cons name names =>
      simp only [matchAll,Bool.and_eq_true] at matched
      rw [List.length_cons,List.length_cons,ih matched.2]

theorem matchAll_plain (matching : Matching fnmatch) (plain : ∀ part ∈ parts, ∀ byte ∈ part, special byte = false) (last : Name) :
    matchAll fnmatch (parts ++ [last]) names = true ↔ ∃ name, names = parts ++ [name] ∧ fnmatch last name = true := by
  induction parts generalizing names with
  | nil =>
    rcases names with _ | ⟨name,_ | ⟨more,rest⟩⟩ <;> simp [matchAll]
  | cons part parts ih =>
    obtain ⟨own,others⟩ := List.forall_mem_cons.mp plain
    cases names with
    | nil => simp [matchAll]
    | cons name names =>
      rw [List.cons_append,matchAll,Bool.and_eq_true,matching.plain part name own,ih others]
      constructor
      · intro ⟨same,last,rest,matched⟩
        exact ⟨last,by rw [same,rest,List.cons_append],matched⟩
      · intro ⟨last,all,matched⟩
        rw [List.cons_append] at all
        obtain ⟨same,rest⟩ := List.cons_eq_cons.mp all
        exact ⟨same.symm,last,rest,matched⟩

theorem splitOn_join {name : Name} (noSlash : 47 ∉ name) (path : Path) : (join path name).splitOn 47 = path.splitOn 47 ++ [name] := by
  rw [join,List.splitOn_append_cons_self,List.splitOn_eq_singleton noSlash]

-- A pattern without special characters but in its last name expands in one directory.
theorem matches_join (matching : Matching fnmatch) (plain : ∀ byte ∈ path, special byte = false) (noSlash : 47 ∉ last) (p : Path) :
    matchAll fnmatch ((join path last).splitOn 47) (p.splitOn 47) = true ↔
      ∃ name, 47 ∉ name ∧ p = join path name ∧ fnmatch last name = true := by
  have parts : ∀ part ∈ path.splitOn 47, ∀ byte ∈ part, special byte = false := by
    intro part member byte inside
    exact plain byte ((splitOn_part member).2 byte inside)
  rw [splitOn_join noSlash,matchAll_plain matching parts]
  constructor
  · intro ⟨name,split,matched⟩
    have free : 47 ∉ name := (splitOn_part (by rw [split]; exact List.mem_append_right _ (List.mem_singleton_self name))).1
    exact ⟨name,free,splitOn_injective (split.trans (splitOn_join free path).symm),matched⟩
  · intro ⟨name,free,same,matched⟩
    exact ⟨name,by rw [same,splitOn_join free],matched⟩

theorem nextpath_fits (fits : path.length + suffix.length < pathsize) : nextpath path suffix = path ++ suffix := by
  apply List.take_of_length_le
  rw [List.length_append]
  omega

theorem behindSlash_join {name : Name} (noSlash : 47 ∉ name) (path : Path) : behindSlash (join path name) = some name := by
  have inside : 47 ∈ join path name := List.mem_append_right _ List.mem_cons_self
  have taken : (join path name).reverse.takeWhile (· ≠ 47) = name.reverse := by
    have split : (join path name).reverse = name.reverse ++ 47 :: path.reverse := by simp [join]
    rw [split]
    exact name_taken (by simpa using noSlash) _ (.inr ⟨_,rfl⟩)
  rw [behindSlash,if_pos inside,taken,List.reverse_reverse]

theorem pathNoloop_join {name : Name} (noSlash : 47 ∉ name) (path : Path) :
    pathNoloop (join path name) = true ↔ name ≠ dot ∧ name ≠ dotDot := by
  rw [pathNoloop,behindSlash_join noSlash]
  simp

-- What one pattern of a directory expands to.
theorem glob_plain (globbing : Globbing fs fnmatch Present) (matching : Matching fnmatch) (plain : ∀ byte ∈ path, special byte = false)
    (last : Name) (fits : path.length + (47 :: last).length < pathsize) (noSlash : 47 ∉ last) (p : Path) :
    p ∈ fs.glob (nextpath path (47 :: last)) ↔ ∃ name, 47 ∉ name ∧ p = join path name ∧ Present p ∧ fnmatch last name = true := by
  have pattern : nextpath path (47 :: last) = join path last := nextpath_fits fits
  rw [pattern,globbing.exact,matches_join matching plain noSlash]
  constructor
  · intro ⟨present,name,free,same,matched⟩
    exact ⟨name,free,same,present,matched⟩
  · intro ⟨name,free,same,present,matched⟩
    exact ⟨present,name,free,same,matched⟩

theorem join_injective (path : Path) {name other : Name} (same : join path name = join path other) : name = other := by
  rw [join,join,List.append_cancel_left_eq] at same
  exact (List.cons.inj same).2

-- The two patterns of a directory share out its entries.
theorem next_plain (globbing : Globbing fs fnmatch Present) (matching : Matching fnmatch)
    (plain : ∀ byte ∈ path, special byte = false) (short : path.length + 3 < pathsize) (isDir : (fs.lstat path).isDir = true)
    (distinct : names.Nodup) (legal : ∀ name ∈ names, Legal name)
    (listed : ∀ name, 47 ∉ name → (Present (join path name) ↔ name ∈ names ∨ name = dot ∨ name = dotDot)) :
    (fs.next path).Perm (names.map (join path)) := by
  have star := glob_plain globbing matching plain [42] (Nat.lt_of_succ_lt short) (by decide)
  have hidden := glob_plain globbing matching plain [46,42] short (by decide)
  rw [FileSystem.next,if_pos isDir]
  rw [List.perm_ext_iff_of_nodup]
  · intro p
    rw [List.mem_filter,FileSystem.globres,List.mem_append,star,hidden,List.mem_map]
    constructor
    · intro called
      obtain ⟨found,calls⟩ := called
      have either : ∃ name, 47 ∉ name ∧ p = join path name ∧ Present p := by
        rcases found with ⟨name,free,same,present,_⟩ | ⟨name,free,same,present,_⟩ <;> exact ⟨name,free,same,present⟩
      obtain ⟨name,free,same,present⟩ := either
      subst same
      obtain ⟨notDot,notDotDot⟩ := (pathNoloop_join free path).mp calls
      rcases (listed name free).mp present with member | isDot | isDotDot
      · exact ⟨name,member,rfl⟩
      · exact absurd isDot notDot
      · exact absurd isDotDot notDotDot
    · intro inside
      obtain ⟨name,member,same⟩ := inside
      subst same
      have own := legal name member
      have present := (listed name own.noSlash).mpr (.inl member)
      refine ⟨?_,(pathNoloop_join own.noSlash path).mpr ⟨own.noDot,own.noDotDot⟩⟩
      by_cases begins : name.head? = some 46
      · exact .inr ⟨name,own.noSlash,rfl,present,(matching.dotStar name).mpr begins⟩
      · exact .inl ⟨name,own.noSlash,rfl,present,(matching.star name).mpr begins⟩
  · apply List.Nodup.filter
    apply (globbing.distinct _).append (globbing.distinct _)
    intro p first second
    obtain ⟨name,_,same,_,matched⟩ := (star p).mp first
    obtain ⟨other,_,same',_,matched'⟩ := (hidden p).mp second
    rw [join_injective path (same.symm.trans same')] at matched
    exact (matching.star other).mp matched ((matching.dotStar other).mp matched')
  · exact distinct.map fun _ _ => join_injective path

theorem plain_expansions (globbing : Globbing fs fnmatch Present) (matching : Matching fnmatch) {tree : Tree}
    (mounted : tree.Mounted fs path) (listed : tree.Listed Present path) (plain : tree.Plain path) :
    ((path :: tree.entries path).flatMap fs.next).Perm (tree.entries path) := by
  induction tree generalizing path with
  | leaf blocks =>
    have nothing : fs.next path = [] := by rw [FileSystem.next,mounted.1,if_neg Bool.false_ne_true]
    simp [Tree.entries,nothing]
  | dir blocks names sub ih =>
    obtain ⟨isDir,_,distinct,inside⟩ := mounted
    obtain ⟨here,listedInside⟩ := listed
    obtain ⟨plainHere,short,plainInside⟩ := plain
    have own := next_plain globbing matching plainHere short isDir distinct (fun name member => (inside name member).1) here
    have each : ∀ name ∈ names, ((join path name :: (sub name).entries (join path name)).flatMap fs.next).Perm
        ((sub name).entries (join path name)) :=
      fun name member => ih name (inside name member).2 (listedInside name member) (plainInside name member)
    rw [List.flatMap_cons,Tree.entries,List.flatMap_assoc]
    exact (own.append (.flatMap_left names each)).trans (List.map_append_flatMap_perm names _ _)

-- A name more is a slash more.
theorem next_slashes (globbing : Globbing fs fnmatch Present) (short : path.length + 1 < pathsize) (edge : p ∈ fs.next path) :
    p.count 47 = path.count 47 + 1 := by
  have pattern : ∀ suffix : Path, 47 ∉ suffix → p ∈ fs.glob (nextpath path (47 :: suffix)) → p.count 47 = path.count 47 + 1 := by
    intro suffix free found
    obtain ⟨_,matched⟩ := (globbing.exact _ _).mp found
    have parts := matchAll_length matched
    rw [splitOn_length,splitOn_length] at parts
    have cut : nextpath path (47 :: suffix) = path ++ 47 :: suffix.take (pathsize - 2 - path.length) := by
      simp only [pathsize] at short ⊢
      rw [nextpath,List.take_append,List.take_of_length_le (by simp only [pathsize]; omega)]
      have more : pathsize - 1 - path.length = (1024 - 2 - path.length) + 1 := by
        simp only [pathsize]
        omega
      rw [more,List.take_succ_cons]
    have none : (suffix.take (pathsize - 2 - path.length)).count 47 = 0 :=
      List.count_eq_zero_of_not_mem fun member => free (List.mem_of_mem_take member)
    rw [cut,List.count_append,List.count_cons_self,none] at parts
    omega
  rw [FileSystem.next] at edge
  split at edge
  · rcases List.mem_append.mp (List.mem_filter.mp edge).1 with star | hidden
    · exact pattern [42] (by decide) star
    · exact pattern [46,42] (by decide) hidden
  · cases edge

-- The paths of the directories leave room for the slash of the pattern.
def Tree.Short (path : Path) : Tree → Prop
  | .leaf _ => True
  | .dir _ names sub => path.length + 1 < pathsize ∧ ∀ name ∈ names, (sub name).Short (join path name)

theorem Tree.Plain.short {tree : Tree} (plain : tree.Plain path) : tree.Short path := by
  induction tree generalizing path with
  | leaf => trivial
  | dir blocks names sub ih =>
    obtain ⟨_,short,inside⟩ := plain
    exact ⟨by omega,fun name member => ih name (inside name member)⟩

theorem short_paths {tree : Tree} (mounted : tree.Mounted fs path) (short : tree.Short path) (member : p ∈ path :: tree.entries path)
    (isDir : (fs.lstat p).isDir = true) : p.length + 1 < pathsize := by
  induction tree generalizing path with
  | leaf blocks =>
    rw [List.mem_singleton.mp member,mounted.1] at isDir
    cases isDir
  | dir blocks names sub ih =>
    rcases List.mem_cons.mp member with rfl | below
    · exact short.1
    · obtain ⟨name,inNames,inside⟩ := List.mem_flatMap.mp below
      exact ih name (mounted.2.2.2 name inNames).2 (short.2 name inNames) inside

-- Then no call comes back to a directory, and only the expansions matter.
theorem covers_short (globbing : Globbing fs fnmatch Present) {tree : Tree} (mounted : tree.Mounted fs path) (short : tree.Short path) :
    Covers fs.next path (tree.entries path) ↔ ((path :: tree.entries path).flatMap fs.next).Perm (tree.entries path) := by
  refine ⟨And.left,fun perm => ⟨perm,fun p => pathsize - p.count 47,?_⟩⟩
  intro p member q edge
  have isDir : (fs.lstat p).isDir = true := by
    by_contra other
    rw [FileSystem.next,if_neg other] at edge
    cases edge
  have room := short_paths mounted short member isDir
  have slashes := next_slashes globbing room edge
  have bound : p.count 47 ≤ p.length := List.count_le_length
  dsimp only
  omega

theorem plain_counts (globbing : Globbing fs fnmatch Present) (matching : Matching fnmatch) {tree : Tree}
    (mounted : tree.Mounted fs path) (listed : tree.Listed Present path) (plain : tree.Plain path) (small : tree.total ≤ longMax) :
    Counts fs path tree := by
  have perm := plain_expansions globbing matching mounted listed plain
  exact covers_counts mounted ((covers_short globbing mounted plain.short).mpr perm) small

-- For any glob: the expansions of the directories, without "." and "..", are together the
-- entries below the path, and no call comes back to its directory.
theorem usage_exact {tree : Tree} (mounted : tree.Mounted fs path) :
    Counts fs path tree ↔ Covers fs.next path (tree.entries path) ∧ tree.total ≤ longMax :=
  ⟨counts_covers mounted,fun ⟨covers,small⟩ => covers_counts mounted covers small⟩

end

-- fnmatch for patterns without a bracket and without a backslash.
def fnmatchFrom : Name → Name → Bool
  | [],name => name.isEmpty
  | byte :: rest,name =>
    if byte = 42 then name.tails.any (fnmatchFrom rest)
    else
      match name with
      | [] => false
      | first :: more => (byte = 63 || byte = first) && fnmatchFrom rest more

def fnmatch (part name : Name) : Bool := (name.head? ≠ some 46 || part.head? = some 46) && fnmatchFrom part name

theorem eight_fits : 8 ≤ longMax := by decide

-- Directories and other paths of 8 blocks each.
def listing (dirs paths : List Path) : FileSystem :=
  ⟨fun path => ⟨dirs.contains path,8,eight_fits⟩,
   fun pattern => paths.filter fun path => matchAll fnmatch (pattern.splitOn 47) (path.splitOn 47)⟩

theorem listing_globbing (dirs : List Path) {paths : List Path} (distinct : paths.Nodup) :
    Globbing (listing dirs paths) fnmatch (· ∈ paths) := by
  refine ⟨fun pattern => distinct.filter _,fun pattern path => ?_⟩
  exact List.mem_filter

theorem fnmatchFrom_plain (plain : ∀ byte ∈ part, special byte = false) : fnmatchFrom part name = true ↔ part = name := by
  induction part generalizing name with
  | nil => cases name <;> simp [fnmatchFrom]
  | cons byte rest ih =>
    obtain ⟨own,others⟩ := List.forall_mem_cons.mp plain
    simp only [special,Bool.or_eq_false_iff,decide_eq_false_iff_not] at own
    obtain ⟨⟨⟨notStar,notQuestion⟩,_⟩,_⟩ := own
    cases name with
    | nil => simp [fnmatchFrom,notStar]
    | cons first more => simp [fnmatchFrom,notStar,notQuestion,ih others]

theorem star_all (name : Name) : fnmatchFrom [42] name = true := by
  change name.tails.any (fnmatchFrom []) = true
  exact List.any_eq_true.mpr ⟨[],(List.mem_tails _ _).mpr List.nil_suffix,rfl⟩

theorem fnmatch_matching : Matching fnmatch := by
  refine ⟨?_,?_,?_⟩
  · intro part name plain
    rw [fnmatch,Bool.and_eq_true,fnmatchFrom_plain plain]
    refine ⟨And.right,fun same => ⟨?_,same⟩⟩
    subst same
    by_cases hidden : part.head? = some 46 <;> simp [hidden]
  · intro name
    rw [fnmatch,star_all]
    simp
  · intro name
    cases name with
    | nil => simp [fnmatch,fnmatchFrom]
    | cons first more =>
      have rest : fnmatchFrom [46,42] (first :: more) = ((46 = 63 || 46 = first) && fnmatchFrom [42] more : Bool) := rfl
      simp only [fnmatch,rest,star_all,List.head?_cons,Option.some.injEq]
      by_cases hidden : first = 46 <;> simp [hidden,eq_comm]

-- The directory d with the files x and .h
def twoFiles : FileSystem := listing [[100]] [[100],[100,47,46],[100,47,46,46],[100,47,120],[100,47,46,104]]

def twoEntries : Tree := .dir 8 [[120],[46,104]] fun _ => .leaf 8

theorem twoEntries_mounted : twoEntries.Mounted twoFiles [100] := by
  refine ⟨by decide,rfl,by decide,?_⟩
  intro name member
  simp only [List.mem_cons,List.not_mem_nil,or_false] at member
  rcases member with rfl | rfl
  · exact ⟨⟨by decide,by decide,by decide,by decide,by decide⟩,by decide,rfl⟩
  · exact ⟨⟨by decide,by decide,by decide,by decide,by decide⟩,by decide,rfl⟩

theorem two_counted : twoEntries.Mounted twoFiles [100] ∧ Counts twoFiles [100] twoEntries := by
  refine ⟨twoEntries_mounted,(usage_exact twoEntries_mounted).mpr ⟨⟨by decide,fun p => 4 - p.length,by decide⟩,by decide⟩⟩

-- The directory d with the directories * and b, which hold x and y.
def starPaths : List Path :=
  [[100],[100,47,46],[100,47,46,46],[100,47,42],[100,47,98],[100,47,42,47,46],[100,47,42,47,46,46],[100,47,42,47,120],
   [100,47,98,47,46],[100,47,98,47,46,46],[100,47,98,47,121]]

def starFiles : FileSystem := listing [[100],[100,47,42],[100,47,98]] starPaths

def starEntries : Tree := .dir 8 [[42],[98]] fun name => .dir 8 [if name = [42] then [120] else [121]] fun _ => .leaf 8

theorem starEntries_mounted : starEntries.Mounted starFiles [100] := by
  have leaf : ∀ path name, Legal name → (starFiles.lstat (join path name)).isDir = false →
      ∀ other ∈ [name], Legal other ∧ (Tree.leaf 8).Mounted starFiles (join path other) := by
    intro path name legal file other member
    rw [List.mem_singleton.mp member]
    exact ⟨legal,file,rfl⟩
  refine ⟨by decide,rfl,by decide,?_⟩
  intro name member
  simp only [List.mem_cons,List.not_mem_nil,or_false] at member
  rcases member with rfl | rfl
  · exact ⟨⟨by decide,by decide,by decide,by decide,by decide⟩,by decide,rfl,by decide,
      leaf _ _ ⟨by decide,by decide,by decide,by decide,by decide⟩ (by decide)⟩
  · exact ⟨⟨by decide,by decide,by decide,by decide,by decide⟩,by decide,rfl,by decide,
      leaf _ _ ⟨by decide,by decide,by decide,by decide,by decide⟩ (by decide)⟩

-- The pattern d/*/* expands in both directories, so that y is counted twice.
theorem star_twice : Matching fnmatch ∧ Globbing starFiles fnmatch (· ∈ starPaths) ∧ starEntries.Mounted starFiles [100] ∧
    starEntries.total = 40 ∧ (mydu starFiles 3 [100]).map Prod.snd = some 48 ∧ ¬ Counts starFiles [100] starEntries := by
  have returned : (mydu starFiles 3 [100]).map Prod.snd = some 48 := by decide
  refine ⟨fnmatch_matching,listing_globbing _ (by decide),starEntries_mounted,by decide,returned,?_⟩
  intro ⟨fuel,visited,counted,_⟩
  obtain ⟨result,returned,sum⟩ := Option.map_eq_some_iff.mp returned
  rw [mydu_same returned counted] at sum
  have total : (starEntries.total : Int) ≠ 48 := by decide
  exact total sum

end LinuxCoding.DiskUsage
