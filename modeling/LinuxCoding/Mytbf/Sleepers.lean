import LinuxCoding.Mytbf.Safety

-- Who sleeps in mytbf_fetchToken has nothing to take, and who takes leaves no debt.
namespace LinuxCoding.Mytbf.Threads
open CInt Locks Slots Transition

-- The size of a fetch that has been accepted.
def Pc.asks : Pc → Option IntValue
  | .fetching _ size => some size
  | .fetched _ size => some size
  | .asleep _ size => some size
  | _ => none

-- A sleeper's bucket is empty. Any other caller is about to test the bucket itself.
structure Pc.Rests (heap : Ptr → Option MytbfSt) (pc : Pc) : Prop where
  dry : ∀ ptr size, pc = .asleep ptr size → ∀ me, heap ptr = some me → me.token.val ≤ 0
  asks : ∀ size, pc.asks = some size → 0 < size.val

theorem rests_goto {pcs : τ → Pc} [DecidableEq τ] (rests : ∀ u, (pcs u).Rests heap) (own : pc.Rests heap) :
    ∀ u, (Function.update pcs t pc u).Rests heap := by
  intro u
  by_cases same : u = t
  · subst same
    rwa [Function.update_self]
  · rw [Function.update_of_ne same]
    exact rests u

theorem rests_awake {pc : Pc} {heap : Ptr → Option MytbfSt} (silent : pc.asks = none) : pc.Rests heap := by
  constructor
  · rintro ptr size rfl
    cases silent
  · intro size asked
    rw [silent] at asked
    cases asked

-- A caller that will lock the bucket has only its size to account for.
theorem rests_asking {pc : Pc} {heap : Ptr → Option MytbfSt} (awake : ∀ ptr size, pc ≠ .asleep ptr size)
    (asks : ∀ size, pc.asks = some size → 0 < size.val) : pc.Rests heap :=
  ⟨fun ptr size asleep => absurd asleep (awake ptr size),asks⟩

theorem rests_put {pc : Pc} (rests : pc.Rests heap) (low : ∀ size, pc = .asleep ptr size → ∀ me, cell = some me → me.token.val ≤ 0) :
    pc.Rests (Function.update heap ptr cell) := by
  refine ⟨?_,rests.asks⟩
  intro other size asleep me present
  by_cases same : other = ptr
  · subst same
    rw [Function.update_self] at present
    exact low size asleep me present
  · rw [Function.update_of_ne same] at present
    exact rests.dry other size asleep me present

-- After a broadcast nobody sleeps on the bucket, whatever it holds.
theorem rests_wake {pc : Pc} (rests : pc.Rests heap) : (pc.wake ptr).Rests (Function.update heap ptr cell) := by
  cases pc with
  | asleep other size =>
    by_cases same : other = ptr
    · rw [Pc.wake,if_pos same]
      exact rests_asking (fun _ _ => by simp) rests.asks
    · rw [Pc.wake,if_neg same]
      refine rests_put rests ?_
      rintro _ ⟨⟩
      exact absurd rfl same
  | idle | entered | initing | inited | returning | returned | destroying | removing | freeing | crashed => exact rests_awake rfl
  | fetching other size | fetched other size => exact rests_asking (fun _ _ => by simp [Pc.wake]) rests.asks

theorem locked_rests {pc : Pc} (rests : pc.Rests heap) : pc.locked.Rests heap := by
  cases pc with
  | fetching ptr size => exact rests_asking (fun _ _ => by simp [Pc.locked]) rests.asks
  | initing | destroying | returning => exact rests_awake rfl
  | idle | entered | inited | fetched | asleep | returned | removing | freeing | crashed => exact rests

-- An empty bucket stays empty through a fetch, and a fetch that waits has found it empty.
theorem fetch_dry {me : MytbfSt} (fetched : fetchToken size me = some (after,ret)) (dry : me.token.val ≤ 0) : after.token.val ≤ 0 := by
  unfold fetchToken at fetched
  split at fetched
  · cases fetched
    exact dry
  · cases fetched

theorem fetch_waits {me : MytbfSt} (waits : fetchToken size me = none) : me.token.val ≤ 0 := by
  unfold fetchToken at waits
  split at waits
  · cases waits
  · split at waits
    · assumption
    · cases waits

theorem fetch_leaves {me : MytbfSt} (positive : 0 < size.val) (fetched : fetchToken size me = some (after,ret)) :
    0 < ret ∧ ret ≤ size.val ∧ 0 ≤ after.token.val ∧ after.token.val = me.token.val - ret := by
  obtain ⟨some,took,left⟩ := fetchToken_takes positive fetched
  exact ⟨by omega,by omega,by omega,left⟩

section
variable {τ : Type} [DecidableEq τ]

def Rested (s : State τ) : Prop := ∀ t, (s.pc t).Rests s.memory.heap

theorem take_rested {s : State τ} (rested : Rested s) (at_ : s.pc t = .fetched ptr size) : Rested (take t ptr size s).1 := by
  have asks : 0 < size.val := (rested t).asks size (by rw [at_]; rfl)
  unfold take
  cases live : s.memory.heap ptr with
  | none => exact rests_goto rested (rests_awake rfl)
  | some me =>
    dsimp only
    cases fetched : fetchToken size me with
    | none =>
      refine rests_goto rested ⟨?_,?_⟩
      · rintro other wanted ⟨⟩ found present
        cases Option.some.inj (live.symm.trans present)
        exact fetch_waits fetched
      · rintro wanted ⟨⟩
        exact asks
    | some result =>
      refine rests_goto (fun u => rests_put (rested u) ?_) (rests_awake rfl)
      rintro wanted asleep after ⟨⟩
      exact fetch_dry fetched ((rested u).dry ptr wanted asleep me live)

theorem give_rested {s : State τ} (rested : Rested s) : Rested (give t ptr size s).1 := by
  unfold give
  cases live : s.memory.heap ptr with
  | none => exact rests_goto rested (rests_awake rfl)
  | some me => exact rests_goto (fun u => rests_wake (rested u)) (rests_awake rfl)

theorem place_rested {s : State τ} (rested : Rested s) : Rested (place t ptr s).1 := by
  unfold place
  cases found : getFreePos s.memory with
  | none =>
    refine rests_goto (fun u => rests_put (rested u) ?_) (rests_awake rfl)
    rintro _ _ _ ⟨⟩
  | some pos =>
    cases live : s.memory.heap ptr with
    | none => exact rests_goto rested (rests_awake rfl)
    | some me =>
      refine rests_goto (fun u => rests_put (rested u) ?_) (rests_awake rfl)
      rintro size asleep after ⟨⟩
      exact (rested u).dry ptr size asleep me live

omit [DecidableEq τ] in
theorem refill_rested {s : State τ} (rested : Rested s) (i : Slot) : Rested (refill i s).1 := by
  unfold refill
  cases held : s.memory.job i with
  | none => exact rested
  | some ptr =>
    dsimp only
    cases live : s.memory.heap ptr with
    | none => exact rested
    | some me => exact fun u => rests_wake (rested u)

omit [DecidableEq τ] in
theorem scan_rested {s : State τ} (rested : Rested s) (i : Nat) : Rested (scan i s).1 := by
  unfold scan
  split
  · split <;> exact rested
  · exact rested

theorem remove_rested {s : State τ} (rested : Rested s) : Rested (remove t ptr s) := by
  unfold remove
  split
  · exact rests_goto rested (rests_awake rfl)
  · exact rests_goto rested (rests_awake rfl)

theorem free_rested {s : State τ} (rested : Rested s) : Rested (free t ptr s).1 := by
  unfold free
  split
  · refine rests_goto (fun u => rests_put (rested u) ?_) (rests_awake rfl)
    rintro _ _ _ ⟨⟩
  · exact rests_goto rested (rests_awake rfl)

theorem malloc_rested {s : State τ} (rested : Rested s) (cps burst : IntValue) (memory : Option Ptr) (garbage : Slot) :
    Rested (malloc t cps burst memory garbage s).1 := by
  cases memory with
  | none => exact rests_goto rested (rests_awake rfl)
  | some ptr =>
    refine rests_goto (fun u => rests_put (rested u) ?_) (rests_awake rfl)
    rintro _ _ me ⟨⟩
    exact Int.le_refl 0

theorem step_rested {s : State τ} (rested : Rested s) (moves : Moves a s emitted after) : Rested after := by
  cases moves with
  | once | lockFreed | callDestroy => exact rests_goto rested (rests_awake rfl)
  | malloc t memory garbage => exact malloc_rested rested _ _ memory garbage
  | lock t m wants free => exact rests_goto rested (locked_rests (rested t))
  | place t at_ => exact place_rested rested
  | callFetch t ptr size at_ usable =>
    unfold callFetch
    split
    · exact rested
    · rename_i accepted
      refine rests_goto rested (rests_asking (fun _ _ => by simp) ?_)
      rintro _ ⟨⟩
      omega
  | take t at_ => exact take_rested rested at_
  | @spurious _ ptr size t at_ =>
    refine rests_goto rested (rests_asking (fun _ _ => by simp) ?_)
    rintro _ ⟨⟩
    exact (rested t).asks size (by rw [at_]; rfl)
  | callReturn t ptr size at_ usable =>
    unfold callReturn
    split
    · exact rested
    · exact rests_goto rested (rests_awake rfl)
  | give t at_ => exact give_rested rested
  | remove t at_ => exact remove_rested rested
  | free t at_ => exact free_rested rested
  | begin | lockBucket | lockGone | sleep => exact rested
  | scan at_ => exact scan_rested rested _
  | refill at_ => exact refill_rested rested _

theorem reached_rested {s : State τ} (run : Runs Step start log s) : Rested s :=
  run.stateInvariant (fun _ _ _ rested step => step_rested rested step.choose_spec) (fun _ => rests_awake rfl)

omit [DecidableEq τ] in
theorem scan_silent (i : Nat) (s : State τ) : .fetched ptr size ret ∉ (scan i s).2 := by
  unfold scan
  split
  · split <;> simp
  · simp

omit [DecidableEq τ] in
theorem refill_silent (i : Slot) (s : State τ) : .fetched ptr size ret ∉ (refill i s).2 := by
  unfold refill
  split
  · simp
  · split <;> simp

theorem place_silent (t : τ) (made : Ptr) (s : State τ) : .fetched ptr size ret ∉ (place t made s).2 := by
  unfold place
  split
  · simp
  · split <;> simp

-- Which steps return from mytbf_fetchToken.
theorem fetched_moves {s : State τ} (moves : Moves a s emitted after) (fetches : .fetched ptr size ret ∈ emitted) (positive : 0 < size.val) :
    ∃ t, s.pc t = .fetched ptr size ∧ after = (take t ptr size s).1 ∧ .fetched ptr size ret ∈ (take t ptr size s).2 := by
  cases moves with
  | once | lock | lockFreed | spurious | callDestroy | remove | begin | lockBucket | lockGone | sleep => simp at fetches
  | malloc t memory garbage => cases memory <;> simp [malloc] at fetches
  | place t at_ => exact absurd fetches (place_silent t _ s)
  | callFetch t other asked at_ usable =>
    unfold callFetch at fetches
    split at fetches
    · cases List.mem_singleton.mp fetches
      omega
    · cases fetches
  | @take _ other asked t at_ =>
    have same : other = ptr ∧ asked = size := by
      unfold take at fetches
      split at fetches
      · cases fetches
      · split at fetches
        · cases fetches
        · cases List.mem_singleton.mp fetches
          exact ⟨rfl,rfl⟩
    obtain ⟨rfl,rfl⟩ := same
    exact ⟨t,at_,rfl,fetches⟩
  | callReturn t other asked at_ usable =>
    unfold callReturn at fetches
    split at fetches <;> simp at fetches
  | give t at_ =>
    unfold give at fetches
    split at fetches <;> simp at fetches
  | free t at_ =>
    unfold free at fetches
    split at fetches <;> simp at fetches
  | scan at_ => exact absurd fetches (scan_silent _ s)
  | refill at_ => exact absurd fetches (refill_silent _ s)

-- A fetch that is not refused takes its tokens out of what is there.
theorem fetched_leaves {s : State τ} (moves : Moves a s emitted after) (fetches : .fetched ptr size ret ∈ emitted)
    (positive : 0 < size.val) : ∃ me next, s.memory.heap ptr = some me ∧ after.memory.heap ptr = some next ∧
      0 < ret ∧ ret ≤ size.val ∧ 0 ≤ next.token.val ∧ next.token.val = me.token.val - ret := by
  obtain ⟨t,_,rfl,fetches⟩ := fetched_moves moves fetches positive
  unfold take at fetches ⊢
  cases live : s.memory.heap ptr with
  | none =>
    rw [live] at fetches
    cases fetches
  | some me =>
    rw [live] at fetches
    dsimp only at fetches ⊢
    cases fetched : fetchToken size me with
    | none =>
      rw [fetched] at fetches
      cases fetches
    | some result =>
      rw [fetched] at fetches
      cases List.mem_singleton.mp fetches
      exact ⟨me,_,rfl,Function.update_self ..,fetch_leaves positive fetched⟩

-- The bucket of a sleeper is there and empty, and the tokens a fetch leaves are not
-- negative.
theorem no_sleeper_lost {s : State τ} (run : Runs Step start log s) :
    (∀ t ptr size, s.pc t = .asleep ptr size → ∃ me, s.memory.heap ptr = some me ∧ me.token.val ≤ 0) ∧
    ∀ emitted after, Step s emitted after → ∀ ptr size ret, .fetched ptr size ret ∈ emitted → 0 < size.val →
      ∃ me next, s.memory.heap ptr = some me ∧ after.memory.heap ptr = some next ∧
        0 < ret ∧ ret ≤ size.val ∧ 0 ≤ next.token.val ∧ next.token.val = me.token.val - ret := by
  constructor
  · intro t ptr size asleep
    have usable : s.role ptr = .usable := ((reached_sound run).fits t).granted ptr _ (by rw [asleep]; rfl)
    obtain ⟨me,live,_⟩ := usable_live (reached_sound run) usable
    exact ⟨me,live,(reached_rested run t).dry ptr size asleep me live⟩
  · intro emitted after ⟨a,moves⟩ ptr size ret fetches positive
    exact fetched_leaves moves fetches positive

end

-- The caller waits for the first token.
theorem first_sleeper : ∃ log, ∃ s : State Unit, Runs Step start log s ∧ s.pc () = .asleep 7 ⟨5,by decide,by decide⟩ ∧
    ∃ me, s.memory.heap 7 = some me ∧ me.token.val ≤ 0 := by
  let five : IntValue := ⟨5,by decide,by decide⟩
  let fetching : State Unit := oneBucket.goto () (.fetching 7 five)
  let fetched : State Unit := (fetching.lock (.bucket 7) (.caller ())).goto () (.fetched 7 five)
  have calls : Runs Step oneBucket (callFetch () 7 five oneBucket).2 (callFetch () 7 five oneBucket).1 := .one ⟨_,.callFetch () 7 five rfl rfl⟩
  have enters : Runs Step fetching [] fetched := .one ⟨_,.lock () (.bucket 7) rfl rfl (fun _ same => by cases same; exact Option.some_ne_none _)⟩
  have waits : Runs Step fetched (take () 7 five fetched).2 (take () 7 five fetched).1 := .one ⟨_,.take () rfl⟩
  have run := ((oneBucket_reached.append calls).append enters).append waits
  exact ⟨_,_,run,rfl,(no_sleeper_lost run).1 () 7 five rfl⟩

end LinuxCoding.Mytbf.Threads
