import Mathlib.Algebra.Ring.Int.Defs
import LinuxCoding.Mytbf.Table

-- The token-bucket law, seen from one bucket: its tokens pay for what it grants.
namespace LinuxCoding.Mytbf
open CInt Slots Transition

def Event.granted (ptr : Ptr) : Event → Int
  | .fetched other size ret => if other = ptr ∧ 0 < size.val then ret else 0
  | _ => 0

def Event.gaveIn (ptr : Ptr) : Event → Int
  | .gaveBack other size ret => if other = ptr ∧ 0 < size.val then ret else 0
  | _ => 0

def Event.tick : Event → Int
  | .ticked => 1
  | _ => 0

def granted (ptr : Ptr) (log : List Event) : Int := (log.map (Event.granted ptr)).sum
def givenBack (ptr : Ptr) (log : List Event) : Int := (log.map (Event.gaveIn ptr)).sum
def refills (log : List Event) : Int := (log.map Event.tick).sum

-- The bucket lives on, and the exact sums of its tokens stay within int.
structure Fits (ptr : Ptr) (b : Buckets) (emitted : List Event) : Prop where
  lives : .destroyed ptr ∉ emitted
  tick : ∀ me, b.heap ptr = some me → .ticked ∈ emitted → me.token.val + me.cps.val ≤ intMax
  giveBack : ∀ me size ret, b.heap ptr = some me → .gaveBack ptr size ret ∈ emitted → 0 < size.val →
    me.token.val + size.val ≤ intMax

inductive MytbfSt.Step (ptr : Ptr) : MytbfSt → List Event → MytbfSt → Prop where
  | other : (∀ event ∈ emitted, event.granted ptr = 0 ∧ event.gaveIn ptr = 0 ∧ event.tick = 0) →
      (∀ size ret, .fetched ptr size ret ∈ emitted → size.val ≤ 0) → MytbfSt.Step ptr me emitted me
  | tick : MytbfSt.Step ptr me [.ticked] me.refill
  | fetch (size : IntValue) : 0 < size.val → fetchToken size me = some (after,ret) →
      MytbfSt.Step ptr me [.fetched ptr size ret] after
  | giveBack (size : IntValue) : 0 < size.val →
      MytbfSt.Step ptr me [.gaveBack ptr size (returnToken size me).2] (returnToken size me).1

theorem init_cases (version : Version) (memory : Option Ptr) (cps burst : IntValue) (b : Buckets) :
    mytbfInit version memory cps burst b = (b,none) ∨
      ∃ ptr pos, memory = some ptr ∧ getFreePos b = some pos ∧
        mytbfInit version memory cps burst b = (publish ptr cps burst pos b,some ptr) := by
  unfold mytbfInit
  generalize getFreePos b = found
  cases version <;> cases memory <;> cases found <;> simp

theorem step_paired (paired : Paired b) (step : Step version b emitted after) : Paired after := by
  cases step with
  | init memory cps burst fresh =>
    rcases init_cases version memory cps burst b with same | ⟨ptr,pos,allocated,found,made⟩
    · rw [same]
      exact paired
    · rw [made]
      exact publish_paired paired (fresh ptr allocated) (firstFree_empty found) cps burst
  | tick ran =>
    obtain ⟨next,runs,kept,-⟩ := alrmHandler_exact paired
    rw [ran] at runs
    cases runs
    exact kept
  | fetch ptr size live fetched => exact write_paired paired live (fetchToken_is fetched)
  | giveBack ptr size live => exact write_paired paired live (returnToken_is size _)
  | destroy ptr live => exact destroy_paired paired live

theorem step_bucket (paired : Paired b) (live : b.heap ptr = some me) (step : Step version b emitted after)
    (lives : .destroyed ptr ∉ emitted) : ∃ next, after.heap ptr = some next ∧ MytbfSt.Step ptr me emitted next := by
  cases step with
  | init memory cps burst fresh =>
    have unconcerned : MytbfSt.Step ptr me [.inited (mytbfInit version memory cps burst b).2 cps burst] me :=
      .other (by simp [Event.granted,Event.gaveIn,Event.tick]) (by simp)
    rcases init_cases version memory cps burst b with same | ⟨made,pos,allocated,found,inits⟩
    · exact ⟨me,by rw [same]; exact live,unconcerned⟩
    · have apart : ptr ≠ made := by
        rintro rfl
        rw [fresh ptr allocated] at live
        cases live
      exact ⟨me,by rw [inits]; exact (publish_other cps burst pos b apart).trans live,unconcerned⟩
  | tick ran =>
    obtain ⟨next,runs,-,refilled⟩ := alrmHandler_exact paired
    rw [ran] at runs
    cases runs
    exact ⟨me.refill,refilled ptr me live,.tick⟩
  | fetch other size present fetched =>
    by_cases same : other = ptr
    · subst same
      rw [live] at present
      cases present
      refine ⟨_,write_self ..,?_⟩
      by_cases positive : 0 < size.val
      · exact .fetch size positive fetched
      · have refused : size.val ≤ 0 := by omega
        simp only [fetchToken,if_pos refused] at fetched
        cases fetched
        exact .other (by simp [Event.granted,Event.gaveIn,Event.tick,positive]) (by simpa using refused)
    · refine ⟨me,(write_other b _ (Ne.symm same)).trans live,.other ?_ ?_⟩
      · simp [Event.granted,Event.gaveIn,Event.tick,same]
      · intro size ret member
        cases List.mem_singleton.mp member
        exact absurd rfl same
  | giveBack other size present =>
    by_cases same : other = ptr
    · subst same
      rw [live] at present
      cases present
      refine ⟨_,write_self ..,?_⟩
      by_cases positive : 0 < size.val
      · exact .giveBack size positive
      · have refused : size.val ≤ 0 := by omega
        simp only [returnToken,if_pos refused]
        exact .other (by simp [Event.granted,Event.gaveIn,Event.tick,positive]) (by simp)
    · refine ⟨me,(write_other b _ (Ne.symm same)).trans live,.other ?_ (by simp)⟩
      simp [Event.granted,Event.gaveIn,Event.tick,same]
  | destroy other present =>
    have apart : ptr ≠ other := by
      rintro rfl
      exact lives List.mem_cons_self
    exact ⟨me,(destroy_other _ b apart).trans live,.other (by simp [Event.granted,Event.gaveIn,Event.tick]) (by simp)⟩

theorem sum_zero {f : Event → Int} {emitted : List Event} (zero : ∀ event ∈ emitted, f event = 0) : (emitted.map f).sum = 0 := by
  induction emitted with
  | nil => rfl
  | cons event rest ih =>
    rw [List.map_cons,List.sum_cons,zero event List.mem_cons_self,ih (fun other member => zero other (List.mem_cons_of_mem _ member))]
    rfl

-- What a stretch of a run takes out of a bucket of that rate beyond what comes in.
def drawn (ptr : Ptr) (cps : Int) (log : List Event) : Int := granted ptr log - givenBack ptr log - refills log * cps

theorem drawn_append (ptr : Ptr) (cps : Int) (left right : List Event) :
    drawn ptr cps (left ++ right) = drawn ptr cps left + drawn ptr cps right := by
  simp only [drawn,granted,givenBack,refills,List.map_append,List.sum_append,Int.add_mul]
  omega

-- The tokens of the bucket pay for it.
theorem bucket_pays (level : me.Level) (fits : Fits ptr b emitted) (live : b.heap ptr = some me)
    (step : MytbfSt.Step ptr me emitted next) :
    next.Level ∧ next.Is me ∧ drawn ptr me.cps.val emitted + next.token.val ≤ me.token.val ∧
      ∀ size ret, .fetched ptr size ret ∈ emitted → 0 < size.val → 1 ≤ ret ∧ ret ≤ size.val := by
  cases step with
  | other unconcerned unfetched =>
    have none : drawn ptr me.cps.val emitted = 0 := by
      have ungranted : granted ptr emitted = 0 := sum_zero (fun event member => (unconcerned event member).1)
      have unreturned : givenBack ptr emitted = 0 := sum_zero (fun event member => (unconcerned event member).2.1)
      have unfilled : refills emitted = 0 := sum_zero (fun event member => (unconcerned event member).2.2)
      simp [drawn,ungranted,unreturned,unfilled]
    refine ⟨level,⟨rfl,rfl,rfl⟩,by omega,?_⟩
    intro size ret member positive
    have refused := unfetched size ret member
    omega
  | tick =>
    obtain ⟨after,bound⟩ := refill_level level (fits.tick me live List.mem_cons_self)
    have cost : drawn ptr me.cps.val [.ticked] = -me.cps.val := by
      simp [drawn,granted,givenBack,refills,Event.granted,Event.gaveIn,Event.tick]
    exact ⟨after,refill_is me,by omega,by simp⟩
  | @fetch _ _ ret size positive fetched =>
    obtain ⟨low,high,after,paid⟩ := fetchToken_level level positive fetched
    have cost : drawn ptr me.cps.val [.fetched ptr size ret] = ret := by
      simp [drawn,granted,givenBack,refills,Event.granted,Event.gaveIn,Event.tick,positive]
    refine ⟨after,fetchToken_is fetched,by omega,?_⟩
    intro other got member _
    cases List.mem_singleton.mp member
    exact ⟨low,high⟩
  | giveBack size positive =>
    obtain ⟨after,bound⟩ := returnToken_level level positive (fits.giveBack me size _ live List.mem_cons_self positive)
    have cost : drawn ptr me.cps.val [.gaveBack ptr size (returnToken size me).2] = -(returnToken size me).2 := by
      simp [drawn,granted,givenBack,refills,Event.granted,Event.gaveIn,Event.tick,positive]
    exact ⟨after,returnToken_is size me,by omega,by simp⟩

structure Holds (ptr : Ptr) (cps burst : IntValue) (b : Buckets) : Prop where
  paired : Paired b
  bucket : ∃ me, b.heap ptr = some me ∧ me.Level ∧ me.cps = cps ∧ me.burst = burst

def tokens (ptr : Ptr) (b : Buckets) : Int := ((b.heap ptr).map (fun me => me.token.val)).getD 0

theorem tokens_live (live : b.heap ptr = some me) : tokens ptr b = me.token.val := by simp [tokens,live]

theorem step_holds (holds : Holds ptr cps burst b) (step : Step version b emitted after) (fits : Fits ptr b emitted) :
    Holds ptr cps burst after ∧ drawn ptr cps.val emitted + tokens ptr after ≤ tokens ptr b ∧
      ∀ size ret, .fetched ptr size ret ∈ emitted → 0 < size.val → 1 ≤ ret ∧ ret ≤ size.val := by
  obtain ⟨paired,me,live,level,rfl,rfl⟩ := holds
  obtain ⟨next,present,changed⟩ := step_bucket paired live step fits.lives
  obtain ⟨stays,same,paid,fetched⟩ := bucket_pays level fits live changed
  rw [tokens_live live,tokens_live present]
  exact ⟨⟨step_paired paired step,next,present,stays,same.1,same.2.1⟩,paid,fetched⟩

theorem run_holds {opened closed : Buckets} (holds : Holds ptr cps burst opened)
    (run : Runs (Where (Step version) (Fits ptr)) opened log closed) :
    Holds ptr cps burst closed ∧ drawn ptr cps.val log + tokens ptr closed ≤ tokens ptr opened :=
  run.potential (by simp [drawn,granted,givenBack,refills]) (drawn_append ptr cps.val)
    (fun _ _ _ holds step => ⟨(step_holds holds step.1 step.2).1,(step_holds holds step.1 step.2).2.1⟩) holds

theorem run_fetches {opened closed : Buckets} (holds : Holds ptr cps burst opened)
    (run : Runs (Where (Step version) (Fits ptr)) opened log closed) :
    ∀ size ret, .fetched ptr size ret ∈ log → 0 < size.val → 1 ≤ ret ∧ ret ≤ size.val := by
  induction run with
  | nil =>
    intro size ret member
    cases member
  | step prior taken ih =>
    intro size ret member
    rcases List.mem_append.mp member with earlier | now
    · exact ih size ret earlier
    · exact (step_holds (run_holds holds prior).1 taken.1 taken.2).2.2 size ret now

theorem reached_paired (run : Runs (Step version) noBuckets log b) : Paired b := by
  refine run.stateInvariant (fun _ _ _ paired step => step_paired paired step) ⟨?_,?_⟩
  · intro i ptr held
    cases held
  · intro ptr me live
    cases live

theorem created_holds (paired : Paired b) (created : Step version b [.inited (some ptr) cps burst] first)
    (rate : 0 < cps.val) (room : 0 < burst.val) : Holds ptr cps burst first := by
  refine ⟨step_paired paired created,?_⟩
  generalize event : [Event.inited (some ptr) cps burst] = emitted at created
  cases created with
  | init memory rate room fresh =>
    obtain ⟨made,rfl,rfl⟩ : some ptr = (mytbfInit version memory rate room b).2 ∧ cps = rate ∧ burst = room := by simpa using event
    rcases init_cases version memory cps burst b with same | ⟨other,pos,-,-,inits⟩
    · rw [same] at made
      cases made
    · rw [inits] at made
      cases made
      rw [inits]
      refine ⟨_,publish_self ..,⟨rate,room,Int.le_refl _,?_⟩,rfl,rfl⟩
      exact Int.le_of_lt room
  | tick | fetch | giveBack | destroy => cases event

theorem token_bucket_law {version : Version} {b first opened closed : Buckets} (reached : Runs (Step version) noBuckets log b)
    (created : Step version b [.inited (some ptr) cps burst] first) (rate : 0 < cps.val) (room : 0 < burst.val)
    (before : Runs (Where (Step version) (Fits ptr)) first earlier opened)
    (window : Runs (Where (Step version) (Fits ptr)) opened inside closed) :
    granted ptr inside - givenBack ptr inside ≤ burst.val + refills inside * cps.val ∧
    (∃ me, closed.heap ptr = some me ∧ me.cps = cps ∧ me.burst = burst ∧ 0 ≤ me.token.val ∧ me.token.val ≤ burst.val) ∧
    (∀ size ret, .fetched ptr size ret ∈ inside → 0 < size.val → 1 ≤ ret ∧ ret ≤ size.val) ∧
    ∃ after, alrmHandler closed = some after ∧ after.heap ptr = (closed.heap ptr).map MytbfSt.refill := by
  have opening := (run_holds (created_holds (reached_paired reached) created rate room) before).1
  obtain ⟨closing,paid⟩ := run_holds opening window
  obtain ⟨start,live,level,rfl,rfl⟩ := opening.bucket
  obtain ⟨me,present,now,cps,burst⟩ := closing.bucket
  obtain ⟨after,ran,-,refilled⟩ := alrmHandler_exact closing.paired
  rw [tokens_live live,tokens_live present] at paid
  have high := level.high
  have low := now.low
  refine ⟨?_,⟨me,present,cps,burst,low,?_⟩,run_fetches opening window,after,ran,?_⟩
  · simp only [drawn] at paid
    omega
  · rw [← burst]
    exact now.high
  · rw [present,refilled ptr me present]
    rfl

theorem int_fits {n : Nat} (small : n ≤ 2147483647) : intMin ≤ (n : Int) ∧ (n : Int) ≤ intMax := by
  simp only [intMin,intMax]
  omega

def int (n : Nat) (small : n ≤ 2147483647) : IntValue := ⟨n,int_fits small⟩
def made : Buckets := publish 7 (int 10 (by decide)) (int 100 (by decide)) slot0 noBuckets

theorem made_created : Step .threaded noBuckets [.inited (some 7) (int 10 (by decide)) (int 100 (by decide))] made := by
  have first : getFreePos noBuckets = some slot0 := firstFree_first (by decide) rfl
  have inits : mytbfInit .threaded (some 7) (int 10 (by decide)) (int 100 (by decide)) noBuckets = (made,some 7) := by
    unfold mytbfInit
    simp only [first]
    rfl
  have created := @Step.init .threaded noBuckets (some 7) (int 10 (by decide)) (int 100 (by decide)) (fun _ _ => rfl)
  rw [inits] at created
  exact created

-- A bucket is refilled once and grants five of its ten tokens.
theorem bucket_grants : ∃ ptr inside closed, Runs (Where (Step .threaded) (Fits ptr)) made inside closed ∧
    granted ptr inside = 5 ∧ refills inside = 1 ∧ granted ptr inside - givenBack ptr inside ≤ 100 + refills inside * 10 := by
  have paired : Paired made := reached_paired (.one made_created)
  have live : made.heap 7 = some (newBucket (int 10 (by decide)) (int 100 (by decide)) slot0) := publish_self ..
  obtain ⟨after,ran,-,refilled⟩ := alrmHandler_exact paired
  have fetched : fetchToken (int 5 (by decide)) (newBucket (int 10 (by decide)) (int 100 (by decide)) slot0).refill =
      some (⟨int 10 (by decide),int 100 (by decide),store 5,slot0⟩,5) := by decide
  have tick : Runs (Where (Step .threaded) (Fits 7)) made [.ticked] after := by
    refine .one ⟨.tick ran,by simp,?_,by simp⟩
    intro me present _
    rw [live] at present
    cases present
    decide
  have fetch : Runs (Where (Step .threaded) (Fits 7)) after [.fetched 7 (int 5 (by decide)) 5] _ :=
    .one ⟨.fetch 7 (int 5 (by decide)) (refilled 7 _ live) fetched,by simp,by simp,by simp⟩
  have law := token_bucket_law (.nil) made_created (by decide) (by decide) .nil (tick.append fetch)
  exact ⟨7,_,_,tick.append fetch,by decide,by decide,law.1⟩

end LinuxCoding.Mytbf
