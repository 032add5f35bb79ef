import LinuxCoding.Mytbf.Roles

-- Every step keeps the roles, the table and the mutexes sound.
namespace LinuxCoding.Mytbf.Threads
open CInt Locks Slots Transition

section
variable {τ : Type} [DecidableEq τ]

omit [DecidableEq τ] in
-- While a caller is in the table the alarm thread is not.
theorem alarm_outside {s : State τ} (sound : Sound s) (holds : (s.pc t).holds = some .job) (job : Slot → Option Ptr) :
    s.alarm.Fits job := by
  have apart : ¬s.alarm.Holds .job := by
    intro held
    have same := owned_unique sound.owned (show s.Holds .alarm .job from held) (show s.Holds (.caller t) .job from holds)
    cases same
  have fits := sound.alarm
  cases at_ : s.alarm with
  | off | top | sleeping | scanning => trivial
  | locking | inside =>
    rw [at_] at apart
    simp [AlarmPc.Holds] at apart
  | crashed =>
    rw [at_] at fits
    exact fits

theorem goto_sound {s : State τ} (sound : Sound s) (fits : pc.Fits t s.role) (holds : pc.holds = (s.pc t).holds) : Sound (s.goto t pc) :=
  ⟨sound.placed,fits_goto sound.fits fits,sound.alarm,owned_goto sound.owned holds⟩

theorem once_sound {s : State τ} (sound : Sound s) (at_ : s.pc t = .idle) (cps burst : IntValue) :
    Sound ((s.at s.alarm.created).goto t (.entered cps burst)) := by
  have created : Sound (s.at s.alarm.created) := by
    have owned : Owned s.owner (s.at s.alarm.created).Holds := by
      apply owned_at sound.owned
      intro m
      cases at_ : s.alarm <;> rfl
    refine ⟨sound.placed,sound.fits,?_,owned⟩
    · have fits := sound.alarm
      change s.alarm.created.Fits s.memory.job
      cases at_ : s.alarm <;> rw [at_] at fits <;> exact fits
  exact goto_sound created ⟨by simp,by simp [Pc.needs]⟩ (by rw [show (s.at s.alarm.created).pc = s.pc from rfl,at_]; rfl)

theorem malloc_sound {s : State τ} (sound : Sound s) (at_ : s.pc t = .entered cps burst) (memory : Option Ptr) (garbage : Slot)
    (fresh : ∀ ptr, memory = some ptr → s.memory.heap ptr = none) : Sound (malloc t cps burst memory garbage s).1 := by
  cases memory with
  | none => exact goto_sound sound ⟨by simp,by simp [Pc.needs]⟩ (by rw [at_]; rfl)
  | some ptr =>
    have empty := fresh ptr rfl
    have unknown : s.role ptr = .fresh := by
      have placed := sound.placed ptr
      rw [empty] at placed
      cases role : s.role ptr with
      | fresh => rfl
      | building | unlinked =>
        rw [role] at placed
        exact absurd rfl placed.1
      | usable | leaving =>
        rw [role] at placed
        obtain ⟨me,none,_⟩ := placed
        cases none
    have unlisted := sound.placed ptr
    rw [unknown] at unlisted
    refine ⟨placed_update sound.placed (fun _ _ _ => Iff.rfl) ⟨Option.some_ne_none _,unlisted.2⟩,?_,sound.alarm,?_⟩
    · refine fits_become sound.fits ?_ ⟨by simp,?_⟩
      · intro u there
        exact absurd there (fresh_alone (sound.fits u) unknown)
      · rintro other r ⟨⟩
        exact Function.update_self ..
    · exact owned_goto (s := (s.write ptr _).become ptr _) sound.owned (by rw [show ((s.write ptr _).become ptr _).pc = s.pc from rfl,at_]; rfl)

omit [DecidableEq τ] in
theorem locked_fits {pc : Pc} {role : Ptr → Role τ} (fits : pc.Fits t role) : pc.locked.Fits t role := by
  have needs : pc.locked.needs t = pc.needs t := by cases pc <;> rfl
  refine ⟨?_,by rw [needs]; exact fits.granted⟩
  intro crashed
  apply fits.alive
  cases pc <;> simp [Pc.locked] at crashed ⊢

theorem wants_holds {pc : Pc} (wants : pc.wants = some m) : pc.holds = none ∧ pc.locked.holds = some m := by
  cases pc <;> simp [Pc.wants] at wants <;> exact ⟨rfl,congrArg some wants⟩

omit [DecidableEq τ] in
theorem wants_usable {pc : Pc} {role : Ptr → Role τ} (fits : pc.Fits t role) (wants : pc.wants = some (.bucket ptr)) : role ptr = .usable := by
  cases pc <;> simp [Pc.wants] at wants
  · exact fits.granted ptr _ (congrArg (fun p => some (p,Role.usable)) wants)
  · exact fits.granted ptr _ (congrArg (fun p => some (p,Role.usable)) wants)

theorem holds_ptr {pc : Pc} (holds : pc.holds = some (.bucket ptr)) : pc.ptr = some ptr := by
  cases pc <;> simp [Pc.holds] at holds <;> exact congrArg some holds

theorem lock_sound {s : State τ} (sound : Sound s) (wants : (s.pc t).wants = some m) (free : s.owner m = none) :
    Sound ((s.lock m (.caller t)).goto t (s.pc t).locked) := by
  obtain ⟨before,after⟩ := wants_holds wants
  exact ⟨sound.placed,fits_goto sound.fits (locked_fits (sound.fits t)),sound.alarm,owned_lock sound.owned free before after⟩

theorem place_sound {s : State τ} (sound : Sound s) (at_ : s.pc t = .inited ptr) : Sound (place t ptr s).1 := by
  have holds : (s.pc t).holds = some .job := by rw [at_]; rfl
  have building : s.role ptr = .building t := (sound.fits t).granted ptr _ (by rw [at_]; rfl)
  have placed := sound.placed ptr
  rw [building] at placed
  have alone : ∀ u, (s.pc u).ptr = some ptr → u = t :=
    fun u there => of_alone (sound.fits u) (by rw [building]; exact rfl) there
  have owned : Owned (Function.update s.owner .job none) (s.goto t .idle).Holds := owned_unlock sound.owned holds rfl
  have idle : ∀ role : Ptr → Role τ, Pc.idle.Fits t role := fun _ => ⟨by simp,by simp [Pc.needs]⟩
  unfold place
  cases found : getFreePos s.memory with
  | none =>
    exact ⟨placed_update sound.placed (fun _ _ _ => Iff.rfl) ⟨rfl,placed.2⟩,fits_become sound.fits alone (idle _),sound.alarm,owned⟩
  | some pos =>
    have empty : s.memory.job pos = none := firstFree_empty found
    cases live : s.memory.heap ptr with
    | none => exact absurd live placed.1
    | some me =>
      exact ⟨placed_update sound.placed (fun _ other => put_others empty other) ⟨_,rfl,put_own placed.2⟩,
        fits_become sound.fits alone (idle _),alarm_outside sound holds _,owned⟩

theorem callFetch_sound {s : State τ} (sound : Sound s) (at_ : s.pc t = .idle) (usable : s.role ptr = .usable) (size : IntValue) :
    Sound (callFetch t ptr size s).1 := by
  unfold callFetch
  split
  · exact sound
  · refine goto_sound sound ⟨by simp,?_⟩ (by rw [at_]; rfl)
    rintro other r ⟨⟩
    exact usable

theorem callReturn_sound {s : State τ} (sound : Sound s) (at_ : s.pc t = .idle) (usable : s.role ptr = .usable) (size : IntValue) :
    Sound (callReturn t ptr size s).1 := by
  unfold callReturn
  split
  · exact sound
  · refine goto_sound sound ⟨by simp,?_⟩ (by rw [at_]; rfl)
    rintro other r ⟨⟩
    exact usable

omit [DecidableEq τ] in
theorem usable_live {s : State τ} (sound : Sound s) (usable : s.role ptr = .usable) :
    ∃ me, s.memory.heap ptr = some me ∧ ∀ i, s.memory.job i = some ptr ↔ i = me.pos := by
  have placed := sound.placed ptr
  rwa [usable] at placed

theorem take_sound {s : State τ} (sound : Sound s) (at_ : s.pc t = .fetched ptr size) : Sound (take t ptr size s).1 := by
  have holds : (s.pc t).holds = some (.bucket ptr) := by rw [at_]; rfl
  have usable : s.role ptr = .usable := (sound.fits t).granted ptr _ (by rw [at_]; rfl)
  obtain ⟨me,live,_⟩ := usable_live sound usable
  unfold take
  simp only [live]
  cases fetched : fetchToken size me with
  | none =>
    have owned : Owned (Function.update s.owner (.bucket ptr) none) (s.goto t (.asleep ptr size)).Holds :=
      owned_unlock sound.owned holds rfl
    refine ⟨sound.placed,fits_goto sound.fits ⟨by simp,?_⟩,sound.alarm,owned⟩
    rintro other r ⟨⟩
    exact usable
  | some result =>
    obtain ⟨after,n⟩ := result
    have owned : Owned (Function.update s.owner (.bucket ptr) none) (s.goto t .idle).Holds := owned_unlock sound.owned holds rfl
    exact ⟨placed_stays sound.placed live (fetchToken_is fetched).2.2,fits_goto sound.fits ⟨by simp,by simp [Pc.needs]⟩,sound.alarm,owned⟩

theorem give_sound {s : State τ} (sound : Sound s) (at_ : s.pc t = .returned ptr size) : Sound (give t ptr size s).1 := by
  have holds : (s.pc t).holds = some (.bucket ptr) := by rw [at_]; rfl
  have usable : s.role ptr = .usable := (sound.fits t).granted ptr _ (by rw [at_]; rfl)
  obtain ⟨me,live,_⟩ := usable_live sound usable
  unfold give
  simp only [live]
  have still : ((s.broadcast ptr).pc t).holds = some (.bucket ptr) := (wake_holds (s.pc t) ptr).trans holds
  have owned : Owned (Function.update s.owner (.bucket ptr) none) ((s.broadcast ptr).goto t .idle).Holds :=
    owned_unlock (owned_broadcast sound.owned ptr) still rfl
  exact ⟨placed_stays sound.placed live (returnToken_is size me).2.2,
    fits_goto (fun u => wake_fits (sound.fits u) ptr) ⟨by simp,by simp [Pc.needs]⟩,sound.alarm,owned⟩

theorem callDestroy_sound {s : State τ} (sound : Sound s) (at_ : s.pc t = .idle) (usable : s.role ptr = .usable)
    (unused : ∀ u, (s.pc u).ptr ≠ some ptr) : Sound ((s.become ptr (.leaving t)).goto t (.destroying ptr)) := by
  have owned : Owned s.owner (s.goto t (.destroying ptr)).Holds := owned_goto sound.owned (by rw [at_]; rfl)
  have live := usable_live sound usable
  refine ⟨placed_become sound.placed (fun _ _ _ => Iff.rfl) live,
    fits_become sound.fits (fun u there => absurd there (unused u)) ⟨by simp,?_⟩,sound.alarm,owned⟩
  rintro other r ⟨⟩
  exact Function.update_self ..

theorem remove_sound {s : State τ} (sound : Sound s) (at_ : s.pc t = .removing ptr) : Sound (remove t ptr s) := by
  have holds : (s.pc t).holds = some .job := by rw [at_]; rfl
  have leaving : s.role ptr = .leaving t := (sound.fits t).granted ptr _ (by rw [at_]; rfl)
  have placed := sound.placed ptr
  rw [leaving] at placed
  obtain ⟨me,live,where_⟩ := placed
  have owned : Owned (Function.update s.owner .job none) (s.goto t (.freeing ptr)).Holds := owned_unlock sound.owned holds rfl
  unfold remove
  simp only [live]
  have kept : s.memory.heap ptr ≠ none := by
    rw [live]
    exact Option.some_ne_none _
  refine ⟨placed_become sound.placed (fun _ other => cut_others ((where_ _).mpr rfl) other) ⟨kept,cut_own where_⟩,
    fits_become sound.fits ?_ ⟨by simp,?_⟩,alarm_outside sound holds _,owned⟩
  · exact fun u there => of_alone (sound.fits u) (by rw [leaving]; exact rfl) there
  · rintro other r ⟨⟩
    exact Function.update_self ..

theorem free_sound {s : State τ} (sound : Sound s) (at_ : s.pc t = .freeing ptr) : Sound (free t ptr s).1 := by
  have unlinked : s.role ptr = .unlinked t := (sound.fits t).granted ptr _ (by rw [at_]; rfl)
  have alone : ∀ u, (s.pc u).ptr = some ptr → u = t :=
    fun u there => of_alone (sound.fits u) (by rw [unlinked]; exact rfl) there
  have placed := sound.placed ptr
  rw [unlinked] at placed
  have unlocked : s.owner (.bucket ptr) = none := by
    cases owner : s.owner (.bucket ptr) with
    | none => rfl
    | some a =>
      have held := (sound.owned _ a).mp owner
      cases a with
      | alarm =>
        have fits := sound.alarm
        have held : s.alarm.Holds (.bucket ptr) := held
        cases there : s.alarm <;> rw [there] at held fits <;> simp [AlarmPc.Holds] at held
        subst held
        exact absurd fits (placed.2 _)
      | caller u =>
        have held : (s.pc u).holds = some (.bucket ptr) := held
        have same := alone u (holds_ptr held)
        rw [same,at_] at held
        cases held
  unfold free
  cases live : s.memory.heap ptr with
  | none => exact absurd live placed.1
  | some me =>
    simp only [unlocked]
    have owned : Owned s.owner (s.goto t .idle).Holds := owned_goto sound.owned (by rw [at_]; rfl)
    exact ⟨placed_update sound.placed (fun _ _ _ => Iff.rfl) ⟨rfl,placed.2⟩,
      fits_become sound.fits alone ⟨by simp,by simp [Pc.needs]⟩,sound.alarm,owned⟩

omit [DecidableEq τ] in
theorem begin_sound {s : State τ} (sound : Sound s) (at_ : s.alarm = .top) (free : s.owner .job = none) :
    Sound ((s.lock .job .alarm).at (.scanning 0)) := by
  have owned : Owned (Function.update s.owner .job (some .alarm)) (s.at (.scanning 0)).Holds := by
    apply owned_atLock sound.owned free
    intro k
    rw [at_]
    simp [AlarmPc.Holds]
  exact ⟨sound.placed,sound.fits,trivial,owned⟩

omit [DecidableEq τ] in
theorem scan_sound {s : State τ} (sound : Sound s) (at_ : s.alarm = .scanning i) : Sound (scan i s).1 := by
  unfold scan
  split
  · rename_i bound
    have owned : ∀ next, (∀ m, AlarmPc.Holds m next ↔ m = .job) → Owned s.owner (s.at next).Holds := by
      intro next same
      apply owned_at sound.owned
      intro m
      rw [at_,same]
      rfl
    cases held : s.memory.job ⟨i,bound⟩ with
    | none => exact ⟨sound.placed,sound.fits,trivial,owned _ (fun _ => Iff.rfl)⟩
    | some ptr =>
      refine ⟨sound.placed,sound.fits,?_,owned _ (fun _ => Iff.rfl)⟩
      change s.memory.job ⟨i,bound⟩ ≠ none
      rw [held]
      exact Option.some_ne_none _
  · have owned : Owned (Function.update s.owner .job none) (s.at .sleeping).Holds := by
      apply owned_atUnlock sound.owned (by rw [at_]; exact rfl)
      intro k
      rw [at_]
      simp [AlarmPc.Holds]
    exact ⟨sound.placed,sound.fits,trivial,owned⟩

omit [DecidableEq τ] in
theorem lockBucket_sound {s : State τ} (sound : Sound s) (at_ : s.alarm = .locking i) (held : s.memory.job i = some ptr)
    (free : s.owner (.bucket ptr) = none) : Sound ((s.lock (.bucket ptr) .alarm).at (.inside i ptr)) := by
  have owned : Owned (Function.update s.owner (.bucket ptr) (some .alarm)) (s.at (.inside i ptr)).Holds := by
    apply owned_atLock sound.owned free
    intro k
    rw [at_]
    simp [AlarmPc.Holds]
  exact ⟨sound.placed,sound.fits,held,owned⟩

omit [DecidableEq τ] in
-- The alarm thread finds a live bucket in every slot that is not NULL.
theorem slot_live {s : State τ} (sound : Sound s) (held : s.memory.job i = some ptr) :
    ∃ me, s.memory.heap ptr = some me ∧ ∀ k, s.memory.job k = some ptr ↔ k = me.pos := listed (sound.placed ptr) held

omit [DecidableEq τ] in
theorem refill_ran {s : State τ} (sound : Sound s) (at_ : s.alarm = .inside i ptr) : ∃ me, s.memory.heap ptr = some me ∧
    refill i s = ((((s.write ptr me.refill).broadcast ptr).unlock (.bucket ptr)).at (.scanning (i + 1)),[.refilled ptr]) := by
  have held : s.memory.job i = some ptr := by
    have fits := sound.alarm
    rwa [at_] at fits
  obtain ⟨me,live,_⟩ := slot_live sound held
  exact ⟨me,live,by simp only [refill,held,live]⟩

omit [DecidableEq τ] in
theorem refill_sound {s : State τ} (sound : Sound s) (at_ : s.alarm = .inside i ptr) : Sound (refill i s).1 := by
  obtain ⟨me,live,ran⟩ := refill_ran sound at_
  rw [ran]
  have owned : Owned (Function.update s.owner (.bucket ptr) none) ((s.broadcast ptr).at (.scanning (i + 1))).Holds := by
    have before : (s.broadcast ptr).alarm.Holds (.bucket ptr) := by
      change s.alarm.Holds (.bucket ptr)
      rw [at_]
      exact .inr rfl
    apply owned_atUnlock (owned_broadcast sound.owned ptr) before
    intro k
    change k = .job ↔ s.alarm.Holds k ∧ k ≠ .bucket ptr
    rw [at_]
    simp only [AlarmPc.Holds]
    constructor
    · rintro rfl
      exact ⟨.inl rfl,by simp⟩
    · rintro ⟨rfl | rfl,other⟩
      · rfl
      · exact absurd rfl other
  exact ⟨placed_stays sound.placed live (refill_is me).2.2,fun u => wake_fits (sound.fits u) ptr,trivial,owned⟩

theorem step_sound {s : State τ} (sound : Sound s) (moves : Moves a s emitted after) : Sound after := by
  cases moves with
  | once t cps burst at_ => exact once_sound sound at_ cps burst
  | malloc t memory garbage at_ fresh => exact malloc_sound sound at_ memory garbage fresh
  | lock t m wants free => exact lock_sound sound wants free
  | @lockFreed _ ptr t wants freed =>
    obtain ⟨me,live,_⟩ := usable_live sound (wants_usable (sound.fits t) wants)
    rw [freed] at live
    cases live
  | place t at_ => exact place_sound sound at_
  | callFetch t ptr size at_ usable => exact callFetch_sound sound at_ usable size
  | take t at_ => exact take_sound sound at_
  | @spurious _ ptr size t at_ =>
    refine goto_sound sound ⟨by simp,?_⟩ (by rw [at_]; rfl)
    rintro other r ⟨⟩
    exact (sound.fits t).granted ptr _ (by rw [at_]; rfl)
  | callReturn t ptr size at_ usable => exact callReturn_sound sound at_ usable size
  | give t at_ => exact give_sound sound at_
  | callDestroy t ptr at_ usable unused => exact callDestroy_sound sound at_ usable unused
  | remove t at_ => exact remove_sound sound at_
  | free t at_ => exact free_sound sound at_
  | begin at_ free => exact begin_sound sound at_ free
  | scan at_ => exact scan_sound sound at_
  | lockBucket at_ held _ free => exact lockBucket_sound sound at_ held free
  | lockGone at_ gone =>
    have fits := sound.alarm
    rw [at_] at fits
    obtain ⟨ptr,held⟩ := Option.ne_none_iff_exists'.mp fits
    obtain ⟨me,live,_⟩ := slot_live sound held
    rw [gone ptr held] at live
    cases live
  | refill at_ => exact refill_sound sound at_
  | sleep at_ =>
    have owned : Owned s.owner (s.at .top).Holds := by
      apply owned_at sound.owned
      intro m
      rw [at_]
      rfl
    exact ⟨sound.placed,sound.fits,trivial,owned⟩

omit [DecidableEq τ] in
theorem start_sound : Sound (start : State τ) := by
  refine ⟨fun ptr => ⟨rfl,fun i => by simp [start,noBuckets]⟩,fun t => ⟨by simp [start],by simp [start,Pc.needs]⟩,trivial,?_⟩
  intro m a
  cases a with
  | alarm => simp [start,State.Holds,AlarmPc.Holds]
  | caller t => simp [start,State.Holds,Pc.holds]

theorem reached_sound {s : State τ} (run : Runs Step start log s) : Sound s :=
  run.stateInvariant (fun _ _ _ sound step => step_sound sound step.choose_spec) start_sound

end

theorem tenTokens_fit : intMin ≤ 10 ∧ 10 ≤ intMax := by decide
def tenTokens : IntValue := ⟨10,tenTokens_fit⟩

-- One caller has made the bucket 7 of ten tokens a tick.
def oneBucket : State Unit :=
  let allocated := ((start.at .top).goto () (.entered tenTokens tenTokens)).write 7 (newBucket tenTokens tenTokens slot0)
  let inited := ((((allocated.become 7 (.building ())).goto () (.initing 7)).lock .job (.caller ())).goto () (.inited 7))
  ((((inited.write 7 (newBucket tenTokens tenTokens slot0)).setJob slot0 (some 7)).become 7 .usable).unlock .job).goto () .idle

theorem oneBucket_reached : Runs Step start [.inited (some 7)] oneBucket := by
  let entered : State Unit := (start.at .top).goto () (.entered tenTokens tenTokens)
  let initing : State Unit := ((entered.write 7 (newBucket tenTokens tenTokens slot0)).become 7 (.building ())).goto () (.initing 7)
  let inited : State Unit := (initing.lock .job (.caller ())).goto () (.inited 7)
  have enter : Runs Step start [] entered := .one ⟨_,.once () tenTokens tenTokens rfl⟩
  have allocates : Runs Step entered [] initing := .one ⟨_,.malloc () (some 7) slot0 rfl (fun _ _ => rfl)⟩
  have locks : Runs Step initing [] inited := .one ⟨_,.lock () .job rfl rfl (fun _ same => by cases same)⟩
  have found : getFreePos inited.memory = some slot0 := firstFree_first (by decide) rfl
  have places : place () 7 inited = (oneBucket,[.inited (some 7)]) := by
    unfold place
    simp only [found]
    rfl
  have placing : Runs Step inited (place () 7 inited).2 (place () 7 inited).1 := .one ⟨_,.place () rfl⟩
  rw [places] at placing
  exact ((enter.append allocates).append locks).append placing

end LinuxCoding.Mytbf.Threads
