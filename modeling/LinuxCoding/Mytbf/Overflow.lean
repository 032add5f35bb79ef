import LinuxCoding.Mytbf.Law

-- The tokens of every bucket in int arithmetic, for any cps and burst.
namespace LinuxCoding.Mytbf
open CInt Slots Transition

structure MytbfSt.Bounded (me : MytbfSt) : Prop where
  low : 0 ≤ me.token.val
  high : me.token.val ≤ max me.burst.val 0

theorem cap_val (me : MytbfSt) : me.cap.token.val = min me.token.val me.burst.val := by
  unfold MytbfSt.cap
  split
  · change me.burst.val = _
    omega
  · omega

-- Both ways in which tokens come into a bucket: the sum is formed before it is cut.
def MytbfSt.pour (me : MytbfSt) (n : Int) : MytbfSt := {me with token := store (me.token.val + n)}.cap

theorem pour_val (me : MytbfSt) (n : Int) : (me.pour n).token.val = min (toInt (me.token.val + n)) me.burst.val := cap_val _

theorem pour_burst (me : MytbfSt) (n : Int) : (me.pour n).burst = me.burst := (cap_is _).2.1

theorem toInt_over (above : intMax < n) (below : n ≤ 4294967295) : toInt n < 0 := by
  simp only [intMax] at above
  simp only [toInt,Int.bmod]
  omega

-- The exact result is left when neither the sum nor the burst is out of range.
def MytbfSt.Takes (me : MytbfSt) (n : Int) : Prop := 0 ≤ me.burst.val ∧ 0 ≤ me.token.val + n ∧ me.token.val + n ≤ intMax

theorem pour_exact (me : MytbfSt) (n : IntValue) :
    (me.pour n.val).token.val = min (me.token.val + n.val) me.burst.val ∧ (me.pour n.val).Bounded ↔ me.Takes n.val := by
  constructor
  · rintro ⟨exact,after⟩
    have low := after.low
    rw [exact] at low
    refine ⟨by omega,by omega,?_⟩
    by_contra above
    have token := me.token.property.2
    have added := n.property.2
    have negative : toInt (me.token.val + n.val) < 0 := by
      apply toInt_over (by omega)
      simp only [intMax] at token added
      omega
    have wrapped := after.low
    rw [pour_val] at wrapped
    omega
  · rintro ⟨burst,low,high⟩
    have exact : (me.pour n.val).token.val = min (me.token.val + n.val) me.burst.val := by
      rw [pour_val,toInt_of_nonneg _ high]
      omega
    refine ⟨exact,?_,?_⟩
    · rw [exact]
      omega
    · rw [exact,pour_burst]
      omega

theorem returnToken_pour (positive : 0 < size.val) (me : MytbfSt) : (returnToken size me).1 = me.pour size.val := by
  rw [returnToken,if_neg (by omega)]
  rfl

theorem returnToken_refuses (negative : size.val ≤ 0) (me : MytbfSt) : (returnToken size me).1 = me := by
  rw [returnToken,if_pos negative]

theorem fetchToken_bounded {me : MytbfSt} (bounded : me.Bounded) (fetched : fetchToken size me = some (after,ret)) : after.Bounded := by
  obtain ⟨low,high⟩ := bounded
  by_cases positive : 0 < size.val
  · obtain ⟨some,took,left⟩ := fetchToken_takes positive fetched
    have burst := (fetchToken_is fetched).2.1
    refine ⟨by omega,?_⟩
    rw [burst]
    omega
  · have refused : size.val ≤ 0 := by omega
    rw [fetchToken,if_pos refused] at fetched
    cases fetched
    exact ⟨low,high⟩

theorem newBucket_bounded (cps burst : IntValue) (pos : Slot) : (newBucket cps burst pos).Bounded := by
  have zero : (newBucket cps burst pos).token.val = 0 := by
    change toInt 0 = 0
    decide
  refine ⟨by omega,?_⟩
  rw [zero]
  exact Int.le_max_right _ _

def AllBounded (b : Buckets) : Prop := ∀ ptr me, b.heap ptr = some me → me.Bounded

-- What a refill and an accepted return have left in the buckets.
structure Exact (b : Buckets) (emitted : List Event) (after : Buckets) : Prop where
  tick : .ticked ∈ emitted → ∀ ptr me, b.heap ptr = some me →
    ∃ next, after.heap ptr = some next ∧ next.token.val = min (me.token.val + me.cps.val) me.burst.val
  giveBack : ∀ ptr size ret, .gaveBack ptr size ret ∈ emitted → 0 < size.val → ∀ me, b.heap ptr = some me →
    ∃ next, after.heap ptr = some next ∧ next.token.val = min (me.token.val + size.val) me.burst.val

-- The condition on a step, seen before it: each bucket takes what comes into it.
structure Clean (b : Buckets) (emitted : List Event) : Prop where
  tick : .ticked ∈ emitted → ∀ ptr me, b.heap ptr = some me → me.Takes me.cps.val
  giveBack : ∀ ptr size ret, .gaveBack ptr size ret ∈ emitted → 0 < size.val → ∀ me, b.heap ptr = some me → me.Takes size.val

-- The step of one event on a bucket, and nothing on the others.
theorem write_bounded (all : AllBounded b) (bounded : me.Bounded) : AllBounded (b.write ptr me) := by
  intro other found present
  by_cases here : other = ptr
  · subst here
    rw [write_self] at present
    cases present
    exact bounded
  · rw [write_other b me here] at present
    exact all other found present

-- A refill leaves the slots as they are, and so it makes no bucket.
theorem tick_live (paired : Paired b) (ran : alrmHandler b = some after) (present : after.heap ptr = some found) :
    ∃ me, b.heap ptr = some me ∧ found = me.refill := by
  obtain ⟨next,runs,kept,same,refilled⟩ := refillSlots_exact paired (List.finRange mytbfMax) (List.nodup_finRange _)
  cases Option.some.inj (ran.symm.trans runs)
  have held := kept.buckets ptr found present
  rw [same] at held
  obtain ⟨me,live,_⟩ := paired.slots _ ptr held
  have left := refilled ptr me live
  rw [present,if_pos (List.mem_finRange _)] at left
  exact ⟨me,live,Option.some.inj left⟩

theorem tick_exact (paired : Paired b) (ran : alrmHandler b = some after) :
    Exact b [.ticked] after ∧ AllBounded after ↔ Clean b [.ticked] := by
  obtain ⟨next,runs,_,refilled⟩ := alrmHandler_exact paired
  cases Option.some.inj (ran.symm.trans runs)
  constructor
  · intro ⟨exact_,all⟩
    refine ⟨fun _ ptr me live => ?_,by simp⟩
    obtain ⟨found,present,value⟩ := exact_.tick List.mem_cons_self ptr me live
    rw [refilled ptr me live] at present
    cases present
    exact (pour_exact me me.cps).mp ⟨value,all ptr _ (refilled ptr me live)⟩
  · intro clean
    have took ptr me (live : b.heap ptr = some me) := (pour_exact me me.cps).mpr (clean.tick List.mem_cons_self ptr me live)
    refine ⟨⟨fun _ ptr me live => ⟨_,refilled ptr me live,(took ptr me live).1⟩,by simp⟩,?_⟩
    intro ptr found present
    obtain ⟨me,live,rfl⟩ := tick_live paired ran present
    exact (took ptr me live).2

theorem giveBack_exact (all : AllBounded b) (size : IntValue) (live : b.heap ptr = some me) :
    Exact b [.gaveBack ptr size (returnToken size me).2] (b.write ptr (returnToken size me).1) ∧
      AllBounded (b.write ptr (returnToken size me).1) ↔ Clean b [.gaveBack ptr size (returnToken size me).2] := by
  by_cases positive : 0 < size.val
  · rw [returnToken_pour positive]
    constructor
    · intro ⟨exact_,bounded⟩
      refine ⟨by simp,?_⟩
      intro other given ret member _ found present
      cases List.mem_singleton.mp member
      rw [live] at present
      cases present
      obtain ⟨next,stored,value⟩ := exact_.giveBack ptr size _ List.mem_cons_self positive me live
      rw [write_self] at stored
      cases stored
      exact (pour_exact me size).mp ⟨value,bounded ptr _ (write_self ..)⟩
    · intro clean
      obtain ⟨value,bounded⟩ := (pour_exact me size).mpr (clean.giveBack ptr size _ List.mem_cons_self positive me live)
      refine ⟨⟨by simp,?_⟩,write_bounded all bounded⟩
      intro other given ret member _ found present
      cases List.mem_singleton.mp member
      rw [live] at present
      cases present
      exact ⟨_,write_self ..,value⟩
  · rw [returnToken_refuses (by omega)]
    refine iff_of_true ⟨⟨by simp,?_⟩,write_bounded all (all ptr me live)⟩ ⟨by simp,?_⟩
    all_goals
      intro other given ret member accepted
      cases List.mem_singleton.mp member
      exact absurd accepted positive

-- The other steps put nothing into a bucket.
theorem silent_exact (bounded : AllBounded after) (tickless : .ticked ∉ emitted) (unreturned : ∀ ptr size ret, .gaveBack ptr size ret ∉ emitted) :
    Exact b emitted after ∧ AllBounded after ↔ Clean b emitted :=
  iff_of_true ⟨⟨fun ticked => absurd ticked tickless,fun ptr size ret member => absurd member (unreturned ptr size ret)⟩,bounded⟩
    ⟨fun ticked => absurd ticked tickless,fun ptr size ret member => absurd member (unreturned ptr size ret)⟩

theorem step_exact (paired : Paired b) (all : AllBounded b) (step : Step version b emitted after) :
    Exact b emitted after ∧ AllBounded after ↔ Clean b emitted := by
  cases step with
  | init memory cps burst fresh =>
    refine silent_exact ?_ (by simp) (by simp)
    rcases init_cases version memory cps burst b with same | ⟨ptr,pos,_,_,made⟩
    · rw [same]
      exact all
    · rw [made]
      exact write_bounded all (newBucket_bounded cps burst pos)
  | tick ran => exact tick_exact paired ran
  | fetch ptr size live fetched => exact silent_exact (write_bounded all (fetchToken_bounded (all ptr _ live) fetched)) (by simp) (by simp)
  | giveBack ptr size live => exact giveBack_exact all size live
  | destroy ptr live =>
    refine silent_exact ?_ (by simp) (by simp)
    intro other found present
    by_cases here : other = ptr
    · subst here
      rw [destroy_self] at present
      cases present
    · rw [destroy_other _ b here] at present
      exact all other found present

theorem noBuckets_bounded : AllBounded noBuckets := fun _ _ live => by cases live

theorem token_arithmetic (version : Version) :
    (∀ log b, Runs (Where (Step version) Clean) noBuckets log b → AllBounded b ∧
      ∀ emitted after, Where (Step version) Clean b emitted after → Exact b emitted after) ∧
    ∀ log b emitted after, Runs (Step version) noBuckets log b → AllBounded b → Step version b emitted after →
      (Exact b emitted after ∧ AllBounded after ↔ Clean b emitted) := by
  have bounded : ∀ log b, Runs (Where (Step version) Clean) noBuckets log b → AllBounded b := by
    intro log b run
    induction run with
    | nil => exact noBuckets_bounded
    | step prior taken ih => exact ((step_exact (reached_paired prior.unrestricted) ih taken.1).mpr taken.2).2
  constructor
  · intro log b run
    refine ⟨bounded log b run,fun emitted after taken => ?_⟩
    exact ((step_exact (reached_paired run.unrestricted) (bounded log b run) taken.1).mpr taken.2).1
  · intro log b emitted after run all taken
    exact step_exact (reached_paired run) all taken

-- A bucket whose rate and burst are INT_MAX: the second refill wraps around.
def most : IntValue := int 2147483647 (by decide)

theorem second_refill : ∃ log b, Runs (Step .signal) noBuckets log b ∧ log = [.inited (some 7) most most,.ticked,.ticked] ∧
    ∃ me, b.heap 7 = some me ∧ me.token.val = -2 := by
  have found : getFreePos noBuckets = some slot0 := firstFree_first (by decide) rfl
  have inits : mytbfInit .signal (some 7) most most noBuckets = (publish 7 most most slot0 noBuckets,some 7) := by
    unfold mytbfInit
    rw [found]
  have created := @Step.init .signal noBuckets (some 7) most most (fun _ _ => rfl)
  rw [inits] at created
  have live : (publish 7 most most slot0 noBuckets).heap 7 = some (newBucket most most slot0) := publish_self ..
  obtain ⟨once,ran,paired,refilled⟩ := alrmHandler_exact (reached_paired (.one created))
  obtain ⟨twice,again,_,emptied⟩ := alrmHandler_exact paired
  refine ⟨_,twice,((Runs.one created).step (.tick ran)).step (.tick again),rfl,_,emptied 7 _ (refilled 7 _ live),?_⟩
  decide

end LinuxCoding.Mytbf
