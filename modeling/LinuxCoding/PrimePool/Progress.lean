import LinuxCoding.PrimePool.Ledger

-- Nobody sleeps through a number, nor through the end.
namespace LinuxCoding.PrimePool
open CInt Mutex Transition

-- A worker that will look at num again before it sleeps.
def WorkerPlace.runs : WorkerPlace → Bool
  | .asleep => false
  | .leaving => false
  | .exited => false
  | _ => true

def MainPlace.tells : MainPlace → Bool
  | .signaling _ => true
  | .broadcasting => true
  | _ => false

section
variable {n : Nat} {left right : Int} {done : List Int} {s u : State n}

structure Awake (s : State n) : Prop where
  heard : ∀ i, s.main = .asleep i → s.num ≠ 0 ∨ ∃ w j, s.worker w = .broadcasting j
  told : s.num = -1 → s.main = .broadcasting ∨ ∀ w, s.worker w ≠ .asleep
  served : s.num ≠ 0 → s.num ≠ -1 → (∃ i, s.main = .signaling i) ∨ ∃ w, (s.worker w).runs = true

theorem Awake.own (awake : Awake s) (owner : Option (Option (Fin n))) : Awake {s with owner := owner} :=
  ⟨awake.heard,awake.told,awake.served⟩

theorem Awake.goMain (awake : Awake s) (quiet : s.main.tells = false) (asleep : ∀ i, place = .asleep i → s.num ≠ 0) :
    Awake (s.goMain place) := by
  obtain ⟨_,told,served⟩ := awake
  refine ⟨fun i here => .inl (asleep i here),?_,?_⟩
  · intro shut
    rcases told shut with here | all
    · rw [here] at quiet
      cases quiet
    · exact .inr all
  · intro nonzero job
    rcases served nonzero job with ⟨i,here⟩ | runs
    · rw [here] at quiet
      cases quiet
    · exact .inr runs

theorem Awake.goto (awake : Awake s) (quiet : ∀ j, s.worker w ≠ .broadcasting j) (asleep : place = .asleep → s.num = 0)
    (runs : (s.worker w).runs = true → s.num ≠ 0 → s.num ≠ -1 → place.runs = true) : Awake (s.goto w place) := by
  obtain ⟨heard,told,served⟩ := awake
  refine ⟨?_,?_,?_⟩
  · intro i here
    rcases heard i here with nonzero | ⟨v,j,there⟩
    · exact .inl nonzero
    · have other : v ≠ w := by
        intro same
        subst same
        exact quiet j there
      exact .inr ⟨v,j,(Function.update_of_ne other ..).trans there⟩
  · intro shut
    refine (told shut).imp id ?_
    intro all v
    by_cases same : v = w
    · subst same
      change Function.update s.worker v place v ≠ _
      rw [Function.update_self]
      intro sleeps
      have zero := asleep sleeps
      change s.num = -1 at shut
      omega
    · change Function.update s.worker w place v ≠ _
      rw [Function.update_of_ne same]
      exact all v
  · intro nonzero job
    refine (served nonzero job).imp id ?_
    intro ⟨v,running⟩
    refine ⟨v,?_⟩
    by_cases same : v = w
    · subst same
      change (Function.update s.worker v place v).runs = true
      rw [Function.update_self]
      exact runs running nonzero job
    · change (Function.update s.worker w place v).runs = true
      rwa [Function.update_of_ne same]

theorem wake_awake (place : WorkerPlace) : place.wake ≠ .asleep := by
  cases place <;> nofun

theorem wake_awakeMain (place : MainPlace) (i : Int) : place.wake ≠ .asleep i := by
  cases place <;> nofun

theorem runs_of {place : WorkerPlace} (awake : place ≠ .asleep) (stays : place.gone = false) : place.runs = true := by
  cases place <;> first | rfl | exact absurd rfl awake | cases stays

theorem Awake.posts (s : State n) (positive : 0 < i) : Awake {s.goMain (.signaling i) with num := i} := by
  refine ⟨nofun,?_,fun _ _ => .inl ⟨i,rfl⟩⟩
  intro shut
  change i = -1 at shut
  omega

theorem Awake.signals (awake : Awake s) (here : s.main = .signaling i) (asleep : s.worker w = .asleep) :
    Awake ((s.goto w .notified).goMain (.posted i)) := by
  refine ⟨nofun,?_,fun _ _ => .inr ⟨w,?_⟩⟩
  · intro shut
    rcases awake.told shut with there | all
    · rw [here] at there
      cases there
    · exact absurd asleep (all w)
  · change (Function.update s.worker w .notified w).runs = true
    rw [Function.update_self]
    rfl

-- The workers that do not sleep are all still there.
theorem Awake.signalsNobody (nobody : ∀ w, s.worker w ≠ .asleep) (gone : ∀ w, (s.worker w).gone = true → s.num = -1) (crew : 0 < n) :
    Awake (s.goMain (.posted i)) := by
  refine ⟨nofun,fun _ => .inr nobody,?_⟩
  intro _ job
  refine .inr ⟨⟨0,crew⟩,runs_of (nobody _) ?_⟩
  cases left : (s.worker ⟨0,crew⟩).gone with
  | false => exact left
  | true => exact absurd (gone _ left) job

theorem Awake.workerBroadcasts (s : State n) (w : Fin n) (i : Int) : Awake (s.wakeAll.goto w (.unlocking i)) := by
  refine ⟨fun j there => absurd there (wake_awakeMain s.main j),?_,?_⟩
  · intro _
    refine .inr ?_
    intro v
    change Function.update (fun u => (s.worker u).wake) w (.unlocking i) v ≠ _
    by_cases same : v = w
    · subst same
      rw [Function.update_self]
      nofun
    · rw [Function.update_of_ne same]
      exact wake_awake (s.worker v)
  · intro _ _
    refine .inr ⟨w,?_⟩
    change (Function.update (fun u => (s.worker u).wake) w (.unlocking i) w).runs = true
    rw [Function.update_self]
    rfl

theorem step_awake (awake : Awake s) (ledger : Ledger left right done s) (positive : 1 ≤ left) (crew : 0 < n)
    (step : Step right s emitted u) : Awake u := by
  cases step with
  | enters i here | ends i here | stirs i here | joins here => exact awake.goMain (by rw [here]; rfl) nofun
  | locks i here free =>
    refine (awake.goMain ?_ ?_).own _
    · rcases here with here | here <;> rw [here] <;> rfl
    · nofun
  | waits i here nonzero =>
    refine (awake.goMain ?_ fun _ _ => nonzero).own _
    rw [here]
    rfl
  | unlocks i here | locksEnd here | yields here | unlocksEnd here =>
    refine (awake.goMain ?_ ?_).own _
    · rw [here]
      rfl
    · nofun
  | posts i here empty =>
    have within := ledger.within
    rw [here] at within
    exact .posts s (Int.lt_of_lt_of_le (by decide) (Int.le_trans positive within.1))
  | signals i w here asleep => exact awake.signals here asleep
  | signalsNobody i here nobody => exact .signalsNobody nobody ledger.gone crew
  | closes here empty => exact ⟨nofun,fun _ => .inl rfl,fun _ job => absurd rfl job⟩
  | broadcasts here =>
    refine ⟨nofun,fun _ => .inr (fun w => wake_awake (s.worker w)),?_⟩
    intro _ job
    exact absurd (ledger.shut.mpr (by rw [here]; rfl)) job
  | workerLocks w here free =>
    refine (awake.goto ?_ ?_ ?_).own _
    · rcases here with here | here <;> rw [here] <;> nofun
    · nofun
    · exact fun _ _ _ => rfl
  | workerWaits w here empty =>
    refine (awake.goto ?_ ?_ ?_).own _
    · rw [here]
      nofun
    · exact fun _ => empty
    · exact fun _ nonzero => absurd empty nonzero
  | workerStirs w here | prints w i here => exact awake.goto (by rw [here]; nofun) nofun (fun _ _ _ => rfl)
  | leaves w here shut => exact awake.goto (by rw [here]; nofun) nofun (fun _ _ job => absurd shut job)
  | takes w here nonzero job =>
    refine ⟨fun _ _ => .inr ⟨w,s.num,Function.update_self ..⟩,nofun,?_⟩
    intro full
    exact absurd rfl full
  | workerBroadcasts w i here => exact .workerBroadcasts s w i
  | workerUnlocks w i here =>
    refine (awake.goto ?_ ?_ ?_).own _
    · rw [here]
      nofun
    · nofun
    · exact fun _ _ _ => rfl
  | exits w here =>
    refine (awake.goto ?_ ?_ ?_).own _
    · rw [here]
      nofun
    · nofun
    · rw [here]
      nofun

theorem start_awake (left : Int) : Awake (start left : State n) := ⟨nofun,nofun,fun nonzero => absurd rfl nonzero⟩

def Joined (s : State n) : Prop := s.main = .exited → ∀ w, s.worker w = .exited

theorem step_joined (joined : Joined s) (step : Step right s emitted u) : Joined u := by
  cases step with
  | enters | ends | locks | waits | stirs | posts | signals | signalsNobody | unlocks | locksEnd | yields | closes | broadcasts | unlocksEnd =>
    intro ended
    cases ended
  | joins here all => exact fun _ => all
  | workerLocks w here =>
    intro ended
    have gone := joined ended w
    rcases here with here | here <;> rw [here] at gone <;> cases gone
  | workerWaits w here | workerStirs w here | leaves w here | takes w here | workerUnlocks w _ here | prints w _ here | exits w here =>
    intro ended
    have gone := joined ended w
    rw [here] at gone
    cases gone
  | workerBroadcasts w i here =>
    intro ended
    have already : s.main = .exited := by
      change s.main.wake = .exited at ended
      cases place : s.main <;> rw [place] at ended <;> first | rfl | cases ended
    have gone := joined already w
    rw [here] at gone
    cases gone

structure Sound (left right : Int) (log : List (Event n)) (s : State n) : Prop where
  locked : Locked s
  ledger : Ledger left right (taken log) s
  awake : Awake s
  joined : Joined s

theorem run_sound (positive : 1 ≤ left) (order : left ≤ right) (small : right < intMax) (crew : 0 < n)
    (run : Runs (Step right) (start left : State n) log s) : Sound left right log s := by
  refine run.invariant ?_ ⟨start_locked left,start_ledger order,start_awake left,nofun⟩
  intro log s emitted u ⟨locked,ledger,awake,joined⟩ step
  refine ⟨step_locked locked step,?_,step_awake awake ledger positive crew step,step_joined joined step⟩
  rw [taken_append]
  exact step_ledger ledger positive small step

def Done (s : State n) : Prop := s.main = .exited ∧ ∀ w, s.worker w = .exited

-- A step other than a spurious wakeup.
def Moves (right : Int) (s : State n) : Prop := ∃ emitted u, Step right s emitted u ∧ .stirred ∉ emitted

theorem Moves.silent (step : Step right s [] u) : Moves right s := ⟨[],u,step,List.not_mem_nil⟩

theorem main_moves (held : s.main.holds = true) : Moves right s := by
  cases here : s.main with
  | forTest | locking | asleep | notified | lockingEnd | joining | exited =>
    rw [here] at held
    cases held
  | testing i =>
    by_cases empty : s.num = 0
    · exact .silent (.posts i here empty)
    · exact .silent (.waits i here empty)
  | signaling i =>
    by_cases some_asleep : ∃ w, s.worker w = .asleep
    · obtain ⟨w,asleep⟩ := some_asleep
      exact .silent (.signals i w here asleep)
    · exact .silent (.signalsNobody i here fun w asleep => some_asleep ⟨w,asleep⟩)
  | posted i => exact .silent (.unlocks i here)
  | testingEnd =>
    by_cases empty : s.num = 0
    · exact .silent (.closes here empty)
    · exact .silent (.yields here empty)
  | broadcasting => exact .silent (.broadcasts here)
  | closing => exact .silent (.unlocksEnd here)

theorem worker_moves (free : s.owner = none ∨ (s.worker w).holds = true) (awake : s.worker w ≠ .asleep) (stays : s.worker w ≠ .exited) :
    Moves right s := by
  cases here : s.worker w with
  | asleep => exact absurd here awake
  | exited => exact absurd here stays
  | locking =>
    rw [here] at free
    exact .silent (.workerLocks w (.inl here) (free.resolve_right nofun))
  | notified =>
    rw [here] at free
    exact .silent (.workerLocks w (.inr here) (free.resolve_right nofun))
  | testing =>
    by_cases empty : s.num = 0
    · exact .silent (.workerWaits w here empty)
    · by_cases shut : s.num = -1
      · exact .silent (.leaves w here shut)
      · exact ⟨_,_,.takes w here empty shut,by simp⟩
  | broadcasting i => exact .silent (.workerBroadcasts w i here)
  | unlocking i => exact .silent (.workerUnlocks w i here)
  | computing i =>
    refine ⟨_,_,.prints w i here,?_⟩
    split <;> simp
  | leaving => exact .silent (.exits w here)

-- With the mutex free main only sleeps while num holds a number, and it has told a worker
-- of that number.
theorem asleep_moves (sound : Sound left right log s) (free : s.owner = none) (here : s.main = .asleep i) : Moves right s := by
  obtain ⟨locked,ledger,awake,joined⟩ := sound
  rcases awake.heard i here with nonzero | ⟨w,j,there⟩
  · have job : s.num ≠ -1 := by
      intro shut
      have closed := ledger.shut.mp shut
      rw [here] at closed
      cases closed
    rcases awake.served nonzero job with ⟨j,there⟩ | ⟨w,runs⟩
    · rw [here] at there
      cases there
    · refine worker_moves (w := w) (.inl free) ?_ ?_ <;> intro there <;> rw [there] at runs <;> cases runs
  · have held : (s.worker w).holds = true := by
      rw [there]
      rfl
    have owner := (locked (some w)).mpr held
    rw [free] at owner
    cases owner

theorem joining_moves (sound : Sound left right log s) (free : s.owner = none) (here : s.main = .joining) : Moves right s := by
  obtain ⟨_,ledger,awake,_⟩ := sound
  by_cases all : ∀ w, s.worker w = .exited
  · exact .silent (.joins here all)
  · obtain ⟨w,stays⟩ := not_forall.mp all
    rcases awake.told (ledger.shut.mpr (by rw [here]; rfl)) with there | waking
    · rw [here] at there
      cases there
    · exact worker_moves (.inl free) (waking w) stays

theorem sound_moves (sound : Sound left right log s) : Done s ∨ Moves right s := by
  cases owner : s.owner with
  | some t =>
    have held := (sound.locked t).mp owner
    cases t with
    | none => exact .inr (main_moves held)
    | some w =>
      change (s.worker w).holds = true at held
      refine .inr (worker_moves (w := w) (.inr held) ?_ ?_) <;> intro here <;> rw [here] at held <;> cases held
  | none =>
    cases here : s.main with
    | testing | signaling | posted | testingEnd | broadcasting | closing =>
      refine .inr (main_moves ?_)
      rw [here]
      rfl
    | forTest i =>
      by_cases low : i ≤ right
      · exact .inr (.silent (.enters i here low))
      · exact .inr (.silent (.ends i here (by omega)))
    | locking i => exact .inr (.silent (.locks i (.inl here) owner))
    | notified i => exact .inr (.silent (.locks i (.inr here) owner))
    | lockingEnd => exact .inr (.silent (.locksEnd here owner))
    | asleep i => exact .inr (asleep_moves sound owner here)
    | joining => exact .inr (joining_moves sound owner here)
    | exited => exact .inl ⟨here,sound.joined here⟩

-- Every thread sleeps on cond_num without a wakeup, or has finished.
def Quiet (s : State n) : Prop :=
  ((∃ i, s.main = .asleep i) ∨ s.main = .exited) ∧ ∀ w, s.worker w = .asleep ∨ s.worker w = .exited

theorem quiet_still (quiet : Quiet s) : ¬ Moves right s := by
  obtain ⟨main,worker⟩ := quiet
  intro ⟨emitted,u,step,moves⟩
  cases step with
  | stirs | workerStirs => exact moves List.mem_cons_self
  | enters _ here | ends _ here | waits _ here | posts _ here | signals _ _ here | signalsNobody _ here | unlocks _ here | locksEnd here
  | yields here | closes here | broadcasts here | unlocksEnd here | joins here =>
    rcases main with ⟨_,there⟩ | there <;> rw [here] at there <;> cases there
  | locks _ here =>
    rcases here with here | here <;> rcases main with ⟨_,there⟩ | there <;> rw [here] at there <;> cases there
  | workerLocks w here =>
    rcases here with here | here <;> rcases worker w with there | there <;> rw [here] at there <;> cases there
  | workerWaits w here | leaves w here | takes w here | workerBroadcasts w _ here | workerUnlocks w _ here | prints w _ here | exits w here =>
    rcases worker w with there | there <;> rw [here] at there <;> cases there

structure Delivered (left right : Int) (log : List (Event n)) (s : State n) : Prop where
  once : (taken log).Nodup
  only : ∀ i ∈ taken log, left ≤ i ∧ i ≤ right
  served : ∀ w, s.worker w = .exited → ∀ i, left ≤ i → i ≤ right → i ∈ taken log
  finished : Done s → ∀ i, left ≤ i → i ≤ right → i ∈ taken log
  wakeful : Quiet s → Done s
  moves : Done s ∨ Moves right s

end

def Mailbox (n : Nat) (left right : Int) : Prop := ∀ log (s : State n), Runs (Step right) (start left) log s → Delivered left right log s

theorem mailbox_law (positive : 1 ≤ left) (order : left ≤ right) (small : right < intMax) (crew : 0 < n) : Mailbox n left right := by
  intro log s run
  have sound := run_sound positive order small crew run
  have moves := sound_moves sound
  obtain ⟨once,only⟩ := sound.ledger.taken_only
  refine ⟨once,only,?_,?_,?_,moves⟩
  · intro w exited i
    exact sound.ledger.taken_all (sound.ledger.gone w (by rw [exited]; rfl))
  · intro ⟨exited,_⟩ i
    exact sound.ledger.taken_all (sound.ledger.shut.mpr (by rw [exited]; rfl))
  · exact fun quiet => moves.resolve_right (quiet_still quiet)

theorem two_numbers : Mailbox 1 1 2 := mailbox_law (by decide) (by decide) (by decide) (by decide)

-- Without workers main sleeps for ever, and at INT_MAX the loop goes on with INT_MIN.
theorem mailbox_limits : ¬ Mailbox 0 1 2 ∧ ¬ Mailbox 2 intMax intMax := by
  constructor
  · intro mailbox
    have begins : Runs (Step 2) (start 1 : State 0) [] (start 1) := .nil
    have posts := ((begins.step (.enters 1 rfl (by decide))).step (.locks 1 (.inl rfl) rfl)).step (.posts 1 rfl rfl)
    have again := ((posts.step (.signalsNobody 1 rfl nofun)).step (.unlocks 1 rfl)).step (.enters 2 rfl (by decide))
    have sleeps := (again.step (.locks 2 (.inl rfl) rfl)).step (.waits 2 rfl (by decide))
    have finished := (mailbox _ _ sleeps).wakeful ⟨.inl ⟨2,rfl⟩,nofun⟩
    cases finished.1
  · intro mailbox
    have begins : Runs (Step intMax) (start intMax : State 2) [] (start intMax) := .nil
    have posts := ((begins.step (.enters intMax rfl (by decide))).step (.locks intMax (.inl rfl) rfl)).step (.posts intMax rfl rfl)
    have unlocks := (posts.step (.signalsNobody intMax rfl nofun)).step (.unlocks intMax rfl)
    have takes := (unlocks.step (.workerLocks 0 (.inl rfl) rfl)).step (.takes 0 rfl (by decide) (by decide))
    have freed := (takes.step (.workerBroadcasts 0 intMax rfl)).step (.workerUnlocks 0 intMax rfl)
    have again := (freed.step (.enters intMin rfl (by decide))).step (.locks intMin (.inl rfl) rfl)
    have wrapped := ((again.step (.posts intMin rfl rfl)).step (.signalsNobody intMin rfl fun | 0 => nofun | 1 => nofun)).step (.unlocks intMin rfl)
    have outside := (wrapped.step (.workerLocks 1 (.inl rfl) rfl)).step (.takes 1 rfl (by decide) (by decide))
    have inside := (mailbox _ _ outside).only intMin (by rw [taken_append]; exact List.mem_append_right _ (List.mem_singleton.mpr rfl))
    exact absurd inside.1 (by decide)

end LinuxCoding.PrimePool
