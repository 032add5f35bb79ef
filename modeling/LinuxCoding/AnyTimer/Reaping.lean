import LinuxCoding.AnyTimer.Schedule

-- How slots become free again. at_waitjob alone empties a slot, and it refuses every
-- repeating job, also one that was cancelled.
namespace LinuxCoding.AnyTimer
open CInt Slots Transition

-- Calls one after the other, with memory for every add.
def performAll : List Call → Timer → Option (Timer × List Int)
  | [],t => some (t,[])
  | call :: rest,t => do
    let (t,ret) ← perform true true call t
    let (t,rets) ← performAll rest t
    some (t,ret :: rets)

def waits (ids : List Slot) : List Call := ids.map (fun i : Slot => .waitjob (i : Nat))

def Stopped (t : Timer) : Prop := ∀ i me, t.job i = some me → me.jobState ≠ .running

theorem waitjob_repeating {i : Slot} (present : t.job i = some me) (repeating : me.repeats = 1) :
    atWaitjob (i : Nat) t = some (t,-ebusy) := by
  have found := lookup_some.mpr ⟨rfl,present⟩
  simp only [atWaitjob,found,if_pos repeating]

theorem waitjob_none {i : Slot} (empty : t.job i = none) : atWaitjob (i : Nat) t = some (t,-einval) := by
  have missing : lookup (i : Nat) t.job = none := by
    cases found : lookup (i : Nat) t.job with
    | none => rfl
    | some entry =>
      obtain ⟨same,present⟩ := lookup_some.mp found
      rw [← slot_cast same,empty] at present
      cases present
  simp only [atWaitjob,missing]

theorem waitjob_exact {i : Slot} (present : t.job i = some me) (ended : me.jobState ≠ .running) :
    atWaitjob (i : Nat) t = some ({t with job := Function.update t.job i none},0) ↔ me.repeats ≠ 1 := by
  constructor
  · intro reaped repeating
    rw [waitjob_repeating present repeating] at reaped
    have code := (Prod.mk.inj (Option.some.inj reaped)).2
    exact absurd code (by decide)
  · exact fun single => waitjob_ended present single ended

-- What is left in a slot that was waited for.
def leftOver (entry : Option AtJobSt) : Option AtJobSt := entry.filter (fun me => me.repeats = 1)

theorem leftOver_repeating (repeating : me.repeats = 1) : leftOver (some me) = some me := by simp [leftOver,repeating]
theorem leftOver_single (single : me.repeats ≠ 1) : leftOver (some me) = none := by simp [leftOver,single]

theorem leftOver_some (kept : leftOver entry = some me) : entry = some me ∧ me.repeats = 1 := by
  unfold leftOver at kept
  obtain ⟨same,repeating⟩ := Option.filter_eq_some_iff.mp kept
  exact ⟨same,by simpa using repeating⟩

theorem waitjob_leaves (stopped : Stopped t) (i : Slot) :
    ∃ after ret, atWaitjob (i : Nat) t = some (after,ret) ∧ after.job = Function.update t.job i (leftOver (t.job i)) := by
  cases present : t.job i with
  | none =>
    have kept : leftOver none = t.job i := present.symm
    exact ⟨t,_,waitjob_none present,by rw [kept,Function.update_eq_self]⟩
  | some me =>
    by_cases repeating : me.repeats = 1
    · have kept : leftOver (some me) = t.job i := (leftOver_repeating repeating).trans present.symm
      exact ⟨t,_,waitjob_repeating present repeating,by rw [kept,Function.update_eq_self]⟩
    · exact ⟨_,_,waitjob_ended present repeating (stopped i me present),by rw [leftOver_single repeating]⟩

theorem waits_leave (stopped : Stopped t) (ids : List Slot) : ∃ emptied rets,
    performAll (waits ids) t = some (emptied,rets) ∧
      ∀ i, emptied.job i = if i ∈ ids then leftOver (t.job i) else t.job i := by
  induction ids generalizing t with
  | nil => exact ⟨t,[],rfl,by simp⟩
  | cons k ids ih =>
    obtain ⟨next,ret,waited,left⟩ := waitjob_leaves stopped k
    have stillStopped : Stopped next := by
      intro i me present
      rw [left] at present
      by_cases same : i = k
      · subst same
        rw [Function.update_self] at present
        exact stopped i me (leftOver_some present).1
      · rw [Function.update_of_ne same] at present
        exact stopped i me present
    obtain ⟨emptied,rets,rest,after⟩ := ih stillStopped
    refine ⟨emptied,ret :: rets,?_,?_⟩
    · have first : perform true true (.waitjob (k : Nat)) t = some (next,ret) := waited
      have all : waits (k :: ids) = .waitjob (k : Nat) :: waits ids := rfl
      simp [all,performAll,first,rest]
    · intro i
      rw [after i,left]
      by_cases same : i = k
      · subst same
        have twice : leftOver (leftOver (t.job i)) = leftOver (t.job i) := by simp [leftOver]
        simp [twice]
      · simp [same]

def Adds (call : Call) : Prop := ∃ me, call.request = some me ∧ 0 ≤ me.sec.val

theorem perform_adds (adds : Adds call) (t : Timer) : ∃ after ret, perform true true call t = some (after,ret) ∧
    ((free t.job).card = 0 ∧ ret < 0 ∧ after.job = t.job ∨ 0 ≤ ret ∧ (free after.job).card + 1 = (free t.job).card) := by
  obtain ⟨me,request,enough⟩ := adds
  have stores : ∀ repeats sec jobp arg, 0 ≤ sec.val → ∃ after ret, addjob repeats true true sec jobp arg t = some (after,ret) ∧
      ((free t.job).card = 0 ∧ ret < 0 ∧ after.job = t.job ∨ 0 ≤ ret ∧ (free after.job).card + 1 = (free t.job).card) := by
    intro repeats sec jobp arg enough
    have accepted : ¬sec.val < 0 := by omega
    cases found : getFreePos t.job with
    | none =>
      refine ⟨{t with initied := true},-enospc,?_,.inl ⟨free_none.mpr found,by decide,rfl⟩⟩
      simp [addjob,accepted,found]
    | some i =>
      refine ⟨⟨Function.update t.job i (some (newJob repeats sec jobp arg)),true⟩,(i : Nat),?_,.inr ⟨by omega,?_⟩⟩
      · simp [addjob,accepted,found]
      · exact free_put (firstFree_empty found) _
  cases call with
  | addjob sec jobp arg =>
    cases request
    exact stores 0 sec jobp arg enough
  | addjobRepeat sec jobp arg =>
    cases request
    exact stores 1 sec jobp arg enough
  | canceljob | waitjob => cases request

theorem adds_exact (calls : List Call) (adds : ∀ call ∈ calls, Adds call) (t : Timer) : ∃ after rets,
    performAll calls t = some (after,rets) ∧ ((∀ ret ∈ rets, 0 ≤ ret) ↔ calls.length ≤ (free t.job).card) := by
  induction calls generalizing t with
  | nil => exact ⟨t,[],rfl,by simp⟩
  | cons call rest ih =>
    obtain ⟨next,ret,first,outcome⟩ := perform_adds (adds call List.mem_cons_self) t
    obtain ⟨after,rets,others,exactly⟩ := ih (fun other present => adds other (List.mem_cons_of_mem _ present)) next
    refine ⟨after,ret :: rets,by simp [performAll,first,others],?_⟩
    rw [List.forall_mem_cons,exactly,List.length_cons]
    rcases outcome with ⟨full,refused,same⟩ | ⟨accepted,fewer⟩
    · rw [same]
      omega
    · omega

-- Everything is waited for, and JOB_MAX further jobs are added.
def Recovers (t : Timer) (calls : List Call) : Prop :=
  ∃ emptied rets after ids, performAll (waits (List.finRange jobMax)) t = some (emptied,rets) ∧
    performAll calls emptied = some (after,ids) ∧ ∀ id ∈ ids, 0 ≤ id

theorem recovers_exact (stopped : Stopped t) (calls : List Call) (adds : ∀ call ∈ calls, Adds call)
    (count : calls.length = jobMax) : Recovers t calls ↔ ∀ i me, t.job i = some me → me.repeats ≠ 1 := by
  obtain ⟨emptied,rets,waited,left⟩ := waits_leave stopped (List.finRange jobMax)
  obtain ⟨after,ids,added,exactly⟩ := adds_exact calls adds emptied
  have left : ∀ i, emptied.job i = leftOver (t.job i) := fun i => by rw [left i,if_pos (List.mem_finRange i)]
  have most : (free emptied.job).card ≤ jobMax := by
    have bound := Finset.card_le_univ (free emptied.job)
    rwa [Fintype.card_fin] at bound
  have recovers : Recovers t calls ↔ ∀ id ∈ ids, 0 ≤ id := by
    constructor
    · intro ⟨_,_,_,_,waitedToo,addedToo,all⟩
      rw [waited] at waitedToo
      cases waitedToo
      rw [added] at addedToo
      cases addedToo
      exact all
    · exact fun all => ⟨_,_,_,_,waited,added,all⟩
  rw [recovers,exactly,count]
  constructor
  · intro room i me present repeating
    have empty := free_all.mp (show (free emptied.job).card = jobMax by omega) i
    rw [left i,present] at empty
    simp [leftOver,repeating] at empty
  · intro single
    have empty : ∀ i, emptied.job i = none := by
      intro i
      cases kept : emptied.job i with
      | none => rfl
      | some me =>
        rw [left i] at kept
        obtain ⟨present,repeating⟩ := leftOver_some kept
        exact absurd repeating (single i me present)
    rw [free_all.mpr empty]

theorem adds_some : ∃ calls : List Call, calls.length = jobMax ∧ ∀ call ∈ calls, Adds call := by
  refine ⟨List.replicate jobMax (.addjob second 0 0),List.length_replicate,?_⟩
  intro call present
  rw [List.eq_of_mem_replicate present]
  exact ⟨_,rfl,by decide⟩

-- This holds of every table, not only of those a run can reach.
theorem slots_recovered (t : Timer) :
    (∀ i me, t.job i = some me → me.jobState ≠ .running →
      (atWaitjob (i : Nat) t = some ({t with job := Function.update t.job i none},0) ↔ me.repeats ≠ 1)) ∧
    (Stopped t → ((∀ calls, calls.length = jobMax → (∀ call ∈ calls, Adds call) → Recovers t calls) ↔
      ∀ i me, t.job i = some me → me.repeats ≠ 1)) := by
  refine ⟨fun i me present ended => waitjob_exact present ended,?_⟩
  intro stopped
  constructor
  · intro recovers
    obtain ⟨calls,count,adds⟩ := adds_some
    exact (recovers_exact stopped calls adds count).mp (recovers calls count adds)
  · exact fun single calls count adds => (recovers_exact stopped calls adds count).mpr single

theorem oneJob_holds {i : Slot} (present : (oneJob me).job i = some other) : other = me := by
  by_cases same : i = slot0
  · subst same
    simpa [oneJob] using present.symm
  · simp [oneJob,same] at present

-- The job of one tick is over: its slot is recovered.
theorem slots_recovered_once :
    atWaitjob (slot0 : Nat) (oneJob (rearm onceFired)) = some (⟨Function.update (oneJob (rearm onceFired)).job slot0 none,true⟩,0) ∧
    ∀ calls, calls.length = jobMax → (∀ call ∈ calls, Adds call) → Recovers (oneJob (rearm onceFired)) calls := by
  have exact2 := slots_recovered (oneJob (rearm onceFired))
  constructor
  · exact (exact2.1 slot0 (rearm onceFired) (oneJob_slot _) (by decide)).mpr (by decide)
  · refine (exact2.2 ?_).mpr ?_
    · intro i me present
      rw [oneJob_holds present]
      decide
    · intro i me present
      rw [oneJob_holds present]
      decide

-- at_addjob_repeat(1, f, a) and at_canceljob of it.
def repeated : AtJobSt := newJob 1 second 7 9
def repeatedCanceled : AtJobSt := {repeated with jobState := .canceled}

theorem repeated_added : Step start [.returned (.addjobRepeat second 7 9) (slot0 : Nat)] ⟨oneJob repeated,.ready,.off⟩ :=
  .call true true (.addjobRepeat second 7 9) rfl rfl (start_adds 1 second 7 9 (by decide))

theorem repeated_cancels : Step ⟨oneJob repeated,.ready,.off⟩ [.returned (.canceljob (slot0 : Nat)) 0]
    ⟨oneJob repeatedCanceled,.ready,.off⟩ := by
  refine .call true true (.canceljob (slot0 : Nat)) rfl rfl ?_
  change some (atCanceljob (slot0 : Nat) (oneJob repeated)) = some (oneJob repeatedCanceled,0)
  rw [canceljob_running (oneJob_slot repeated) rfl]
  simp [oneJob,repeatedCanceled]

theorem slots_leak : ¬ ∀ log s, Runs Step start log s → ∀ i me, s.timer.job i = some me → me.jobState ≠ .running →
    atWaitjob (i : Nat) s.timer = some ({s.timer with job := Function.update s.timer.job i none},0) := by
  intro reaps
  have present := oneJob_slot repeatedCanceled
  have reaped := reaps _ _ ((Runs.one repeated_added).append (.one repeated_cancels)) slot0 repeatedCanceled present (by decide)
  exact absurd rfl ((waitjob_exact present (by decide)).mp reaped)

end LinuxCoding.AnyTimer
