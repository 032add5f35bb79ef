import LinuxCoding.DirStat.Threads

-- Both programs against the exact totals of what stat finds: statistic.c leaves the links
-- out and counts the lines of a file in an int, a thread of the other program counts the
-- entries of its directory in two.
namespace LinuxCoding.DirStat
open CInt DirPool Transition

-- Every order of the threads ends with the totals that statistic.c has.
def Agree (follow : ρ → Tree ρ) (left : Nat) (dirName : Path) (tree : Tree ρ) : Prop :=
  ∀ log threads, Runs Step (start dirName (stat follow left tree)) log threads → Stuck Step threads →
    threads[0]? = some (.exited (showDir dirName (dType tree) 0))

theorem agree_iff {follow : ρ → Tree ρ} :
    Agree follow left dirName tree ↔ showDir dirName (dType tree) 0 = (walk .narrow dirName (stat follow left tree)).long := by
  constructor
  · intro agree
    obtain ⟨log,threads,run,stuck⟩ := Runs.ending Step (fun _ _ _ => step_work) (start dirName (stat follow left tree))
    have first := agree log threads run stuck
    rw [threads_return run stuck] at first
    injection first with first
    injection first with same
    exact same.symm
  · intro same log threads run stuck
    rw [threads_return run stuck,same]

def totals (codes : Text → Int) (dirName : Path) : Seen → Count
  | .nil => 0
  | .file name text rest => filed codes (fullPath dirName name) text + totals codes dirName rest
  | .dir name sub rest => oneDir + totals codes (fullPath dirName name) sub + totals codes dirName rest
  | .other rest => totals codes dirName rest

theorem showDir_totals (dirName : Path) (seen : Seen) (count : Count) :
    showDir dirName seen count.long = (count + totals codeCounterInt dirName seen).long := by
  induction seen generalizing dirName count with
  | nil => rw [showDir,totals,add_zero]
  | file name text rest ih =>
    have counted : (⟨count.long.dirs,toLong (count.long.files + 1),
        if showsCode (fullPath dirName name) then toLong (count.long.lines + codeCounterInt text) else count.long.lines⟩ : Count) =
          (count + filed codeCounterInt (fullPath dirName name) text).long := by
      rw [shows_code]
      ext1
      · simp [filed]
      · simp [filed,toLong_add]
      · by_cases code : isCode (fullPath dirName name) = true <;> simp [filed,code,toLong_add]
    rw [showDir,counted,ih,totals,add_assoc]
  | dir name sub rest ihSub ih =>
    have counted : {count.long with dirs := toLong (count.long.dirs + 1)} = (count + oneDir).long := by
      ext1 <;> simp [oneDir,toLong_add]
    rw [showDir,counted,ihSub,ih,totals,add_assoc,add_assoc,add_assoc]
  | other rest ih => rw [showDir,ih,totals]

-- No counter of `low` is more than that of `high`, nor is its negative, and all three are
-- the same exactly when `same` holds.
def Under (same : Prop) (low high : Count) : Prop :=
  (-high.dirs ≤ low.dirs ∧ low.dirs ≤ high.dirs) ∧ (-high.files ≤ low.files ∧ low.files ≤ high.files) ∧
  (-high.lines ≤ low.lines ∧ low.lines ≤ high.lines) ∧ (low = high ↔ same)

theorem count_eq {a b : Count} : a = b ↔ a.dirs = b.dirs ∧ a.files = b.files ∧ a.lines = b.lines := Count.ext_iff

theorem Under.add (one : Under P a b) (two : Under Q c d) : Under (P ∧ Q) (a + c) (b + d) := by
  obtain ⟨dirs,files,lines,same⟩ := one
  obtain ⟨dirs',files',lines',same'⟩ := two
  refine ⟨?_,?_,?_,?_⟩
  · simp only [add_dirs]; omega
  · simp only [add_files]; omega
  · simp only [add_lines]; omega
  · rw [← same,← same',count_eq,count_eq,count_eq]
    simp only [add_dirs,add_files,add_lines]
    omega

theorem Under.trans (one : Under P a b) (two : Under Q b c) : Under (P ∧ Q) a c := by
  obtain ⟨dirs,files,lines,same⟩ := one
  obtain ⟨dirs',files',lines',same'⟩ := two
  refine ⟨by omega,by omega,by omega,?_⟩
  rw [← same,← same',count_eq,count_eq,count_eq]
  omega

theorem Under.iff (under : Under P a b) (other : Q ↔ P) : Under Q a b :=
  ⟨under.1,under.2.1,under.2.2.1,under.2.2.2.trans other.symm⟩

theorem under_self (dirs : 0 ≤ c.dirs) (files : 0 ≤ c.files) (lines : 0 ≤ c.lines) : Under True c c := by
  refine ⟨?_,?_,?_,by simp⟩ <;> omega

theorem under_more (self : Under True c c) (more : c ≠ 0) : Under False 0 c := by
  obtain ⟨dirs,files,lines,-⟩ := self
  refine ⟨?_,?_,?_,iff_of_false (fun same => more same.symm) not_false⟩
  · rw [zero_dirs]; omega
  · rw [zero_files]; omega
  · rw [zero_lines]; omega

theorem oneDir_self : Under True oneDir oneDir := under_self (by decide) (by decide) (by decide)

theorem dir_more (self : Under True c c) : Under False 0 (oneDir + c) := by
  refine under_more ((oneDir_self.add self).iff (by simp)) (fun zero => ?_)
  have none := congrArg Count.dirs zero
  have dirs := self.1
  simp only [oneDir,add_dirs,zero_dirs] at none
  omega

theorem codeCounter_positive (text : Text) : 0 < codeCounter text := by
  unfold codeCounter
  omega

theorem filed_self (path : Path) (text : Text) : Under True (filed codeCounter path text) (filed codeCounter path text) := by
  have positive := codeCounter_positive text
  apply under_self
  · exact Int.le_refl 0
  · exact Int.one_nonneg
  · unfold filed
    dsimp only
    split <;> omega

theorem filed_more (path : Path) (text : Text) : Under False 0 (filed codeCounter path text) := by
  refine under_more (filed_self path text) (fun zero => ?_)
  have none := congrArg Count.files zero
  simp [filed] at none

theorem zero_self : Under True 0 0 := under_self (by decide) (by decide) (by decide)

theorem totals_self (dirName : Path) (seen : Seen) :
    Under True (totals codeCounter dirName seen) (totals codeCounter dirName seen) := by
  induction seen generalizing dirName with
  | nil => exact zero_self
  | file name text rest ih => exact ((filed_self _ text).add (ih dirName)).iff (by simp)
  | dir name sub rest ihSub ih => exact ((oneDir_self.add (ihSub _)).add (ih dirName)).iff (by simp)
  | other rest ih => exact ih dirName

theorem own_self (dirName : Path) (seen : Seen) : Under True (own dirName seen) (own dirName seen) := by
  induction seen with
  | nil => exact zero_self
  | file name text rest ih => exact ((filed_self _ text).add ih).iff (by simp)
  | dir name sub rest ihSub ih => exact (oneDir_self.add ih).iff (by simp)
  | other rest ih => exact ih

theorem toInt_under (nonnegative : 0 ≤ n) : -n ≤ toInt n ∧ toInt n ≤ n ∧ (toInt n = n ↔ n ≤ intMax) := by
  by_cases small : n ≤ intMax
  · have same : toInt n = n := toInt_of_nonneg (by omega) small
    omega
  · obtain ⟨low,high⟩ := toInt_bounds n
    simp only [intMin,intMax] at low high small ⊢
    omega

-- Each file whose lines are counted has no more than an int holds.
def Seen.Short (dirName : Path) : Seen → Prop
  | .nil => True
  | .file name text rest => (isCode (fullPath dirName name) → codeCounter text ≤ intMax) ∧ rest.Short dirName
  | .dir name sub rest => sub.Short (fullPath dirName name) ∧ rest.Short dirName
  | .other rest => rest.Short dirName

theorem filed_short (path : Path) (text : Text) :
    Under (isCode path → codeCounter text ≤ intMax) (filed codeCounterInt path text) (filed codeCounter path text) := by
  have bounds := toInt_under (Int.le_of_lt (codeCounter_positive text))
  by_cases code : isCode path = true
  · refine ⟨by simp [filed],by simp [filed],?_,?_⟩
    · simp only [filed,code,codeCounterInt,if_true]
      omega
    · simp only [count_eq,filed,code,codeCounterInt,if_true,forall_const,true_and]
      exact bounds.2.2
  · simpa [filed,code] using filed_self path text

theorem short_totals (dirName : Path) (seen : Seen) :
    Under (seen.Short dirName) (totals codeCounterInt dirName seen) (totals codeCounter dirName seen) := by
  induction seen generalizing dirName with
  | nil => exact zero_self
  | file name text rest ih => exact (filed_short _ text).add (ih dirName)
  | dir name sub rest ihSub ih => exact ((oneDir_self.add (ihSub _)).add (ih dirName)).iff (by simp [Seen.Short])
  | other rest ih => exact ih dirName

-- No link leads to a file or a directory that stat reaches.
def Target.Found : Target ρ → Prop
  | .missing => False
  | .special => False
  | .file _ => True
  | .dir _ => True

def Tree.Unlinked (left : Nat) : Tree ρ → Prop
  | .nil => True
  | .file _ _ rest => rest.Unlinked left
  | .dir _ sub rest => sub.Unlinked left ∧ rest.Unlinked left
  | .link _ hops target rest => ¬ (hops < left ∧ target.Found) ∧ rest.Unlinked left
  | .special _ rest => rest.Unlinked left

theorem unlinked_totals (follow : ρ → Tree ρ) (left : Nat) (dirName : Path) (tree : Tree ρ) :
    Under (tree.Unlinked left) (totals codeCounter dirName (dType tree)) (totals codeCounter dirName (stat follow left tree)) := by
  induction tree generalizing dirName with
  | nil => rw [stat]; exact zero_self
  | file name text rest ih => rw [stat]; exact ((filed_self _ text).add (ih dirName)).iff (by simp [Tree.Unlinked])
  | dir name sub rest ihSub ih => rw [stat]; exact ((oneDir_self.add (ihSub _)).add (ih dirName)).iff (by simp [Tree.Unlinked])
  | link name hops target rest ih =>
    have others := ih dirName
    by_cases reached : hops < left
    · cases target with
      | missing =>
        rw [stat,if_pos reached]
        exact others.iff (by simp [Tree.Unlinked,Target.Found])
      | special =>
        rw [stat,if_pos reached]
        exact others.iff (by simp [Tree.Unlinked,Target.Found])
      | file text =>
        rw [stat,if_pos reached]
        simpa [dType,totals,Tree.Unlinked,Target.Found,reached] using (filed_more (fullPath dirName name) text).add others
      | dir ref =>
        rw [stat,if_pos reached]
        have more := dir_more (totals_self (fullPath dirName name) (stat follow (left - (hops + 1)) (follow ref)))
        simpa [dType,totals,Tree.Unlinked,Target.Found,reached] using more.add others
    · cases target <;> rw [stat,if_neg reached] <;> exact others.iff (by simp [Tree.Unlinked,reached])
  | special name rest ih => rw [stat]; exact ih dirName

-- The two int counters of a thread hold what its own directory has.
def Held (dirName : Path) (seen : Seen) : Prop := (own dirName seen).dirs ≤ intMax ∧ (own dirName seen).files ≤ intMax

def Seen.Deep (dirName : Path) : Seen → Prop
  | .nil => True
  | .file _ _ rest => rest.Deep dirName
  | .dir name sub rest => Held (fullPath dirName name) sub ∧ sub.Deep (fullPath dirName name) ∧ rest.Deep dirName
  | .other rest => rest.Deep dirName

def Seen.Roomy (dirName : Path) (seen : Seen) : Prop := Held dirName seen ∧ seen.Deep dirName

theorem own_held (dirName : Path) (seen : Seen) : Under (Held dirName seen) (own dirName seen).narrow (own dirName seen) := by
  obtain ⟨dirs,files,lines,-⟩ := own_self dirName seen
  have dirs := toInt_under (n := (own dirName seen).dirs) (by omega)
  have files := toInt_under (n := (own dirName seen).files) (by omega)
  refine ⟨?_,?_,lines,?_⟩
  · exact ⟨dirs.1,dirs.2.1⟩
  · exact ⟨files.1,files.2.1⟩
  · rw [count_eq,Held,← dirs.2.2,← files.2.2]
    simp [Count.narrow]

theorem below_deep (dirName : Path) (seen : Seen) :
    Under (seen.Deep dirName) (below .narrow dirName seen) (below id dirName seen) := by
  induction seen generalizing dirName with
  | nil => exact zero_self
  | file name text rest ih => exact ih dirName
  | dir name sub rest ihSub ih => exact (((own_held _ sub).add (ihSub _)).add (ih dirName)).iff (by simp [Seen.Deep,and_assoc])
  | other rest ih => exact ih dirName

theorem walk_roomy (dirName : Path) (seen : Seen) : Under (seen.Roomy dirName) (walk .narrow dirName seen) (walk id dirName seen) :=
  (own_held dirName seen).add (below_deep dirName seen)

theorem walk_totals (dirName : Path) (seen : Seen) : walk id dirName seen = totals codeCounter dirName seen := by
  unfold walk
  rw [id]
  induction seen generalizing dirName with
  | nil => rfl
  | file name text rest ih => rw [own,below,totals,← ih,add_assoc]
  | dir name sub rest ihSub ih =>
    rw [own,below,totals,← ih,← ihSub,id]
    ac_rfl
  | other rest ih => rw [own,below,totals,ih]

-- What the int in code_counter leaves alone, and then those of show_dir.
theorem short_entries (dirName : Path) (seen : Seen) :
    (totals codeCounterInt dirName seen).dirs = (totals codeCounter dirName seen).dirs ∧
    (totals codeCounterInt dirName seen).files = (totals codeCounter dirName seen).files := by
  induction seen generalizing dirName with
  | nil => simp [totals]
  | file name text rest ih => simp [totals,filed,ih dirName]
  | dir name sub rest ihSub ih => simp [totals,ih dirName,ihSub (fullPath dirName name)]
  | other rest ih => exact ih dirName

theorem walk_lines (dirName : Path) (seen : Seen) : (walk .narrow dirName seen).lines = (walk id dirName seen).lines := by
  have beneath : (below .narrow dirName seen).lines = (below id dirName seen).lines := by
    induction seen generalizing dirName with
    | nil => rfl
    | file name text rest ih => exact ih dirName
    | dir name sub rest ihSub ih => simp [below,Count.narrow,ih dirName,ihSub (fullPath dirName name)]
    | other rest ih => exact ih dirName
  simp [walk,Count.narrow,beneath]

-- What three counters of type long hold without a wrap.
def Count.Fits (c : Count) : Prop :=
  c.dirs ≤ 9223372036854775807 ∧ c.files ≤ 9223372036854775807 ∧ c.lines ≤ 9223372036854775807

theorem under_fits (under : Under P low high) (fits : high.Fits) : low.long = low := by
  obtain ⟨dirs,files,lines,-⟩ := under
  obtain ⟨dirs',files',lines'⟩ := fits
  ext1
  · exact toLong_inRange (by omega) (by omega)
  · exact toLong_inRange (by omega) (by omega)
  · exact toLong_inRange (by omega) (by omega)

theorem agree_totals {follow : ρ → Tree ρ} :
    Agree follow left dirName tree ↔
      (totals codeCounterInt dirName (dType tree)).long = (walk .narrow dirName (stat follow left tree)).long := by
  have shown := showDir_totals dirName (dType tree) 0
  rw [zero_add] at shown
  rw [agree_iff,← shown]
  exact Iff.rfl

def Alike (follow : ρ → Tree ρ) (left : Nat) (dirName : Path) (tree : Tree ρ) : Prop :=
  tree.Unlinked left ∧ (dType tree).Short dirName ∧ (stat follow left tree).Roomy dirName

theorem both_agree (follow : ρ → Tree ρ) (left : Nat) (dirName : Path) (tree : Tree ρ) :
    (∀ threads emitted after, Step threads emitted after → work after < work threads) ∧
    (Alike follow left dirName tree → Agree follow left dirName tree) ∧
    ((totals codeCounter dirName (stat follow left tree)).Fits → tree.Unlinked left ∨ (stat follow left tree).Roomy dirName →
      Agree follow left dirName tree → Alike follow left dirName tree) := by
  have short := short_totals dirName (dType tree)
  have unlinked := unlinked_totals follow left dirName tree
  have roomy := walk_roomy dirName (stat follow left tree)
  rw [walk_totals] at roomy
  refine ⟨fun _ _ _ => step_work,?_,?_⟩
  · intro ⟨links,shorts,rooms⟩
    rw [agree_totals,short.2.2.2.mpr shorts,unlinked.2.2.2.mpr links,roomy.2.2.2.mpr rooms]
  · intro fits either agree
    rw [agree_totals,under_fits (short.trans unlinked) fits,under_fits roomy fits] at agree
    have rooms : (stat follow left tree).Roomy dirName := by
      rcases either with links | rooms
      · obtain ⟨dirs,files⟩ := short_entries dirName (dType tree)
        have lines := walk_lines dirName (stat follow left tree)
        rw [walk_totals] at lines
        apply roomy.2.2.2.mp
        rw [agree,unlinked.2.2.2.mpr links] at dirs files
        exact Count.ext dirs files lines
      · exact rooms
    rw [roomy.2.2.2.mpr rooms] at agree
    obtain ⟨shorts,links⟩ := (short.trans unlinked).2.2.2.mp agree
    exact ⟨links,shorts,rooms⟩

-- ./a with a file b.c and a link that leads nowhere.
def plainTree : Tree Unit :=
  .dir ⟨[97],by decide,by decide,by decide⟩
    (.file ⟨[98,46,99],by decide,by decide,by decide⟩ ⟨[10],by decide⟩
      (.link ⟨[100],by decide,by decide,by decide⟩ 0 .missing .nil))
    .nil

theorem plain_tree_agrees :
    Agree (fun _ => plainTree) maxLinks [46] plainTree ∧ showDir [46] (dType plainTree) 0 = ⟨1,1,2⟩ := by
  have alike : Alike (fun _ => plainTree) maxLinks [46] plainTree := by
    have same : stat (fun _ => plainTree) maxLinks plainTree = dType plainTree := by
      simp [plainTree,stat,dType,maxLinks]
    refine ⟨by simp [plainTree,Tree.Unlinked,Target.Found],?_,?_⟩
    · simp only [plainTree,dType,Seen.Short]
      decide
    · rw [same]
      simp only [plainTree,dType,Seen.Roomy,Held,Seen.Deep]
      decide
  exact ⟨(both_agree _ _ _ _).2.1 alike,by decide⟩

-- A link to a regular file: S_ISLNK is never true of what stat returns.
theorem link_counted :
    ¬ Agree (fun _ : Unit => .nil) maxLinks [46] (.link ⟨[97],by decide,by decide,by decide⟩ 0 (.file ⟨[],by decide⟩) .nil) := by
  rw [agree_iff,stat,if_pos (by decide),stat]
  decide

end LinuxCoding.DirStat
