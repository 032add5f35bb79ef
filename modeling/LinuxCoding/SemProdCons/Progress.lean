import LinuxCoding.SemProdCons.Bound

namespace LinuxCoding.SemProdCons
open CInt Mutex Total Transition

section
variable {τ : Type} [Fintype τ] {task : τ → Task} {rounds : τ → Nat} {s u : State τ} {t : τ}

theorem sum_looping (k : Task) (task : τ → Task) (rounds : τ → Nat) (w : Thread → Nat)
    (none : ∀ t, w ⟨task t,rounds t,.looping 0⟩ = 0) : sum k w (start task rounds).threads = 0 := by
  apply Finset.sum_eq_zero
  intro t _
  rw [Task.weigh]
  split
  · exact none t
  · rfl

theorem sum_congr {k : Task} {v w : Thread → Nat} {threads : τ → Thread} (same : ∀ t, (threads t).task = k → v (threads t) = w (threads t)) :
    sum k v threads = sum k w threads := by
  apply Finset.sum_congr rfl
  intro t _
  unfold Task.weigh
  split
  · rename_i mine
    exact same t mine
  · rfl

-- With one thread short of its rounds the whole task is.
theorem sum_short (balanced : Balanced task rounds s) (short : (s.threads t).waited < (s.threads t).rounds) :
    sum (s.task t) Thread.waited s.threads < sum (s.task t) Thread.rounds s.threads := by
  apply Finset.sum_lt_sum
  · intro v _
    unfold Task.weigh
    split
    · exact waited_rounds (balanced.within v)
    · exact Nat.le_refl 0
  · refine ⟨t,Finset.mem_univ t,?_⟩
    rw [Task.weigh,Task.weigh,if_pos rfl,if_pos rfl]
    exact short

theorem start_balanced (task : τ → Task) (rounds : τ → Nat) : Balanced task rounds (start task rounds) := by
  refine ⟨fun t => ⟨nofun,nofun⟩,fun t => rfl,fun t => rfl,fun t => Nat.zero_le _,?_,?_⟩
  · intro k
    rw [sum_looping k task rounds Thread.waited (fun _ => rfl),sum_looping k.other task rounds Thread.posted (fun _ => rfl)]
    rfl
  · intro k
    rw [sum_looping k task rounds Thread.counted (fun _ => rfl)]
    rfl

variable [DecidableEq τ]

-- The places a thread may be held up at.
theorem stuck_places (balanced : Balanced task rounds s) (stuck : Stuck Step s) (t : τ) :
    (s.threads t).place = .exited ∨ ∃ i, (s.threads t).place = .waiting i ∧ s.sems (s.task t).waits = 0 := by
  have free : s.owner = none := by
    cases owner : s.owner with
    | none => rfl
    | some v =>
      have held := (balanced.owned v).mp owner
      unfold Thread.holds at held
      cases place : (s.threads v).place with
      | counting i => exact absurd (.counts place) (stuck _ _)
      | unlocking i => exact absurd (.unlocks place) (stuck _ _)
      | looping | waiting | locking | posting | sleeping | exited => simp [place,Place.holds] at held
  cases place : (s.threads t).place with
  | looping i =>
    by_cases more : i < (s.threads t).rounds
    · exact absurd (.enters place more) (stuck _ _)
    · exact absurd (.exits place more) (stuck _ _)
  | waiting i =>
    refine .inr ⟨i,rfl,?_⟩
    by_contra some
    exact stuck _ _ (.waits place (Nat.pos_of_ne_zero some))
  | locking i => exact absurd (.locks place free) (stuck _ _)
  | counting i => exact absurd (.counts place) (stuck _ _)
  | unlocking i => exact absurd (.unlocks place) (stuck _ _)
  | posting i => exact absurd (.posts place) (stuck _ _)
  | sleeping i => exact absurd (.sleeps place) (stuck _ _)
  | exited => exact .inl rfl

theorem stuck_level (balanced : Balanced task rounds s) (stuck : Stuck Step s) (k : Task) :
    sum k Thread.waited s.threads = sum k Thread.posted s.threads := by
  apply sum_congr
  intro t _
  rcases stuck_places balanced stuck t with exited | ⟨i,waiting,_⟩
  · simp [Thread.waited,Thread.posted,exited]
  · simp [Thread.waited,Thread.posted,waiting]

-- Where there are tokens nobody is held up.
theorem stuck_through (balanced : Balanced task rounds s) (stuck : Stuck Step s) (some : s.sems k.waits ≠ 0) :
    sum k Thread.posted s.threads = sum k Thread.rounds s.threads := by
  apply sum_congr
  intro t mine
  rcases stuck_places balanced stuck t with exited | ⟨i,_,none⟩
  · simp [Thread.posted,exited]
  · rw [State.task,mine] at none
    exact absurd none some

-- If one task is held up its semaphore is empty, so the other has tokens to take and has
-- gone through all its rounds; but it cannot have gone through more than the first.
theorem stuck_finished (balanced : Balanced task rounds s)
    (equal : ∑ t, (if task t = .productor then rounds t else 0) = ∑ t, if task t = .consumer then rounds t else 0)
    (stuck : Stuck Step s) (t : τ) : (s.threads t).place = .exited := by
  rcases stuck_places balanced stuck t with exited | ⟨i,place,empty⟩
  · exact exited
  · exfalso
    have within : i < (s.threads t).rounds := balanced.here place
    have less := sum_short (t := t) balanced (by simpa [Thread.waited,place] using within)
    have mine := balanced.sems (s.task t)
    have others := balanced.sems (s.task t).other
    have twice : (s.task t).other.other = s.task t := by cases s.task t <;> rfl
    have tokens : slots (s.task t).waits + slots (s.task t).other.waits = sizeOfSem := by cases s.task t <;> rfl
    rw [empty,stuck_level balanced stuck] at mine
    rw [twice,stuck_level balanced stuck] at others
    rw [stuck_level balanced stuck] at less
    have positive : 0 < sizeOfSem := Nat.zero_lt_two
    have through := stuck_through balanced stuck (k := (s.task t).other) (by omega)
    have rounds : sum (s.task t).other Thread.rounds s.threads = sum (s.task t) Thread.rounds s.threads := by
      rw [sum_rounds balanced,sum_rounds balanced]
      cases s.task t with
      | productor => exact equal.symm
      | consumer => exact equal
    omega

theorem bounded_moving (equal : ∑ t, (if task t = .productor then rounds t else 0) = ∑ t, if task t = .consumer then rounds t else 0)
    (run : Runs Step (start task rounds) log s) : Law task rounds s := by
  have balanced : Balanced task rounds s :=
    run.stateInvariant (fun _ _ _ balanced taken => step_balanced balanced taken) (start_balanced task rounds)
  refine ⟨balanced.between,balanced.exact,?_⟩
  intro unfinished
  by_contra none
  obtain ⟨t,inside⟩ := unfinished
  have stuck : Stuck Step s := fun emitted u taken => none ⟨emitted,u,taken⟩
  exact inside (stuck_finished balanced equal stuck t)

end

-- A producer and a consumer with one item.
theorem one_item : ∃ log s, Runs Step (start (fun b => if b then .productor else .consumer) fun _ : Bool => 1) log s ∧
    s.counts .productor = 1 ∧ s.counts .consumer = 0 ∧ Law (fun b => if b then .productor else .consumer) (fun _ => 1) s := by
  have begins : Runs Step (start (fun b => if b then .productor else .consumer) fun _ : Bool => 1) [] _ := .nil
  have waited := (begins.step (.enters (t := true) rfl Nat.zero_lt_one)).step (.waits (t := true) rfl Nat.zero_lt_two)
  have counted := (waited.step (.locks (t := true) rfl rfl)).step (.counts (t := true) rfl)
  have posted := (counted.step (.unlocks (t := true) rfl)).step (.posts (t := true) rfl)
  exact ⟨_,_,posted,rfl,rfl,bounded_moving rfl posted⟩

end LinuxCoding.SemProdCons
