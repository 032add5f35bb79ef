import LinuxCoding.SemProdCons.Model

-- The tokens of the two semaphores bound what lies between the counters, and always let
-- some thread go on.
namespace LinuxCoding.SemProdCons
open CInt Mutex Total Transition

def Place.holds : Place → Bool
  | .counting _ => true
  | .unlocking _ => true
  | _ => false

def Thread.holds (thread : Thread) : Bool := thread.place.holds

-- How often the thread has come through sem_wait, through its counter, through sem_post.
def Thread.waited (thread : Thread) : Nat :=
  match thread.place with
  | .looping i | .waiting i => i
  | .locking i | .counting i | .unlocking i | .posting i | .sleeping i => i + 1
  | .exited => thread.rounds

def Thread.counted (thread : Thread) : Nat :=
  match thread.place with
  | .looping i | .waiting i | .locking i | .counting i => i
  | .unlocking i | .posting i | .sleeping i => i + 1
  | .exited => thread.rounds

def Thread.posted (thread : Thread) : Nat :=
  match thread.place with
  | .looping i | .waiting i | .locking i | .counting i | .unlocking i | .posting i => i
  | .sleeping i => i + 1
  | .exited => thread.rounds

def Thread.stations (thread : Thread) : Nat × Nat × Nat := (thread.waited,thread.counted,thread.posted)

def Thread.Within (thread : Thread) : Prop :=
  match thread.place with
  | .looping i => i ≤ thread.rounds
  | .waiting i | .locking i | .counting i | .unlocking i | .posting i | .sleeping i => i < thread.rounds
  | .exited => True

def Task.weigh (task : Task) (w : Thread → Nat) (thread : Thread) : Nat := if thread.task = task then w thread else 0

def Task.other : Task → Task
  | .productor => .consumer
  | .consumer => .productor

section
variable {τ : Type} [Fintype τ]

-- A count over the threads of one task.
def sum (task : Task) (w : Thread → Nat) (threads : τ → Thread) : Nat := total (task.weigh w) threads

structure Balanced (task : τ → Task) (rounds : τ → Nat) (s : State τ) : Prop where
  owned : Owned Thread.holds s.owner s.threads
  tasks : ∀ t, (s.threads t).task = task t
  rounds : ∀ t, (s.threads t).rounds = rounds t
  within : ∀ t, (s.threads t).Within
  sems : ∀ k : Task, s.sems k.waits + sum k Thread.waited s.threads = slots k.waits + sum k.other Thread.posted s.threads
  counts : ∀ k, s.counts k = toInt (sum k Thread.counted s.threads)

-- The law of the program: what the two counters keep between them, as ints and, where the
-- rounds fit an int, as numbers; and that the program never stands still.
structure Law [DecidableEq τ] (task : τ → Task) (rounds : τ → Nat) (s : State τ) : Prop where
  between : 0 ≤ toInt (s.counts .productor - s.counts .consumer) ∧ toInt (s.counts .productor - s.counts .consumer) ≤ sizeOfSem
  exact : ((∑ t, if task t = .productor then rounds t else 0 : Nat) : Int) ≤ intMax →
    0 ≤ s.counts .productor - s.counts .consumer ∧ s.counts .productor - s.counts .consumer ≤ sizeOfSem
  moves : (∃ t, (s.threads t).place ≠ .exited) → ∃ emitted u, Step s emitted u

-- A thread is one that has gone where it is.
theorem goes_here {thread : Thread} (there : thread.place = place) : thread = thread.goes place := by
  subst there
  rfl

theorem stations_kept {thread : Thread} (there : thread.place = old) (same : (thread.goes place).stations = (thread.goes old).stations) :
    (thread.goes place).stations = thread.stations := by
  rw [same,← goes_here there]

theorem posted_counted (thread : Thread) : thread.posted ≤ thread.counted := by
  unfold Thread.posted Thread.counted
  cases thread.place <;> simp

theorem counted_waited (thread : Thread) : thread.counted ≤ thread.waited := by
  unfold Thread.waited Thread.counted
  cases thread.place <;> simp

theorem waited_rounds {thread : Thread} (within : thread.Within) : thread.waited ≤ thread.rounds := by
  unfold Thread.Within at within
  unfold Thread.waited
  cases place : thread.place <;> simp only [place] at within ⊢ <;> omega

theorem sum_mono {lower upper : Thread → Nat} {threads : τ → Thread} (task : Task) (below : ∀ t, lower (threads t) ≤ upper (threads t)) :
    sum task lower threads ≤ sum task upper threads := by
  apply total_mono
  intro t
  unfold Task.weigh
  split
  · exact below t
  · exact Nat.le_refl 0

variable {task : τ → Task} {rounds : τ → Nat} {s u : State τ} {t : τ}

theorem Balanced.here (balanced : Balanced task rounds s) (there : (s.threads t).place = place) : ((s.threads t).goes place).Within := by
  rw [← goes_here there]
  exact balanced.within t

-- The order of the three stations, and their places around the semaphores.
theorem Balanced.chain (balanced : Balanced task rounds s) :
    sum .consumer Thread.counted s.threads ≤ sum .productor Thread.counted s.threads ∧
      sum .productor Thread.counted s.threads ≤ sum .consumer Thread.counted s.threads + sizeOfSem := by
  have empty : s.sems .empty + sum .productor Thread.waited s.threads = sizeOfSem + sum .consumer Thread.posted s.threads := balanced.sems .productor
  have full : s.sems .full + sum .consumer Thread.waited s.threads = 0 + sum .productor Thread.posted s.threads := balanced.sems .consumer
  have producing := sum_mono .productor (fun t => counted_waited (s.threads t))
  have consuming := sum_mono .consumer (fun t => counted_waited (s.threads t))
  have produced := sum_mono .productor (fun t => posted_counted (s.threads t))
  have consumed := sum_mono .consumer (fun t => posted_counted (s.threads t))
  omega

theorem toInt_sub (m n : Int) : toInt (toInt m - toInt n) = toInt (m - n) := by
  unfold toInt
  rw [Int.bmod_sub_bmod,Int.sub_bmod_bmod]

theorem Balanced.between (balanced : Balanced task rounds s) :
    0 ≤ toInt (s.counts .productor - s.counts .consumer) ∧ toInt (s.counts .productor - s.counts .consumer) ≤ sizeOfSem := by
  obtain ⟨low,high⟩ := balanced.chain
  have small : (sizeOfSem : Int) ≤ intMax := by decide
  rw [balanced.counts,balanced.counts,toInt_sub,toInt_of_nonneg (by omega) (by omega)]
  omega

theorem sum_rounds (balanced : Balanced task rounds s) (k : Task) :
    sum k Thread.rounds s.threads = ∑ t, if task t = k then rounds t else 0 := by
  unfold sum total
  apply Finset.sum_congr rfl
  intro t _
  rw [Task.weigh,balanced.tasks,balanced.rounds]

theorem sum_counted (balanced : Balanced task rounds s) (k : Task) :
    sum k Thread.counted s.threads ≤ ∑ t, if task t = k then rounds t else 0 := by
  rw [← sum_rounds balanced]
  exact sum_mono k (fun t => Nat.le_trans (counted_waited _) (waited_rounds (balanced.within t)))

theorem Balanced.exact (balanced : Balanced task rounds s)
    (fits : ((∑ t, if task t = .productor then rounds t else 0 : Nat) : Int) ≤ intMax) :
    0 ≤ s.counts .productor - s.counts .consumer ∧ s.counts .productor - s.counts .consumer ≤ sizeOfSem := by
  obtain ⟨low,high⟩ := balanced.chain
  have bound := sum_counted balanced .productor
  rw [balanced.counts,balanced.counts,toInt_of_nonneg (by omega) (by omega),toInt_of_nonneg (by omega) (by omega)]
  omega

variable [DecidableEq τ] {place : Place} {k : Task} {w : Thread → Nat}

theorem sum_go (k : Task) (w : Thread → Nat) (threads : τ → Thread) (t : τ) (place : Place) :
    sum k w (Function.update threads t ((threads t).goes place)) + (if (threads t).task = k then w (threads t) else 0) =
      sum k w threads + if (threads t).task = k then w ((threads t).goes place) else 0 :=
  total_update (k.weigh w) threads t ((threads t).goes place)

theorem sum_same {threads : τ → Thread} (same : w ((threads t).goes place) = w (threads t)) :
    sum k w (Function.update threads t ((threads t).goes place)) = sum k w threads := by
  have split := sum_go k w threads t place
  rw [same] at split
  omega

theorem sum_more {threads : τ → Thread} (more : w ((threads t).goes place) = w (threads t) + 1) :
    sum k w (Function.update threads t ((threads t).goes place)) = sum k w threads + if (threads t).task = k then 1 else 0 := by
  have split := sum_go k w threads t place
  rw [more] at split
  by_cases mine : (threads t).task = k
  · rw [if_pos mine,if_pos mine] at split
    rw [if_pos mine]
    omega
  · rw [if_neg mine,if_neg mine] at split
    rw [if_neg mine]
    exact split

-- What a step does to the sums, the rest follows the thread.
theorem Balanced.goes (balanced : Balanced task rounds s) {owner : Option τ} {sems : Sem → Nat} {counts : Task → Int}
    (owned : Owned Thread.holds owner (s.go t place).threads) (within : ((s.threads t).goes place).Within)
    (tokens : ∀ k : Task, sems k.waits + sum k Thread.waited (s.go t place).threads = slots k.waits + sum k.other Thread.posted (s.go t place).threads)
    (counters : ∀ k, counts k = toInt (sum k Thread.counted (s.go t place).threads)) :
    Balanced task rounds ⟨sems,counts,owner,(s.go t place).threads⟩ :=
  ⟨owned,update_all (P := fun v (thread : Thread) => thread.task = task v) balanced.tasks (balanced.tasks t),
    update_all (P := fun v (thread : Thread) => thread.rounds = rounds v) balanced.rounds (balanced.rounds t),
    update_all (P := fun _ (thread : Thread) => thread.Within) balanced.within within,tokens,counters⟩

-- A thread that comes to the same stations leaves a sum as it is.
theorem Balanced.tokens_same (balanced : Balanced task rounds s) (waited : ((s.threads t).goes place).waited = (s.threads t).waited)
    (posted : ((s.threads t).goes place).posted = (s.threads t).posted) (k : Task) :
    s.sems k.waits + sum k Thread.waited (s.go t place).threads = slots k.waits + sum k.other Thread.posted (s.go t place).threads := by
  change s.sems k.waits + sum k _ (Function.update _ _ _) = slots k.waits + sum k.other _ (Function.update _ _ _)
  rw [sum_same waited,sum_same posted]
  exact balanced.sems k

theorem Balanced.counters_same (balanced : Balanced task rounds s) (counted : ((s.threads t).goes place).counted = (s.threads t).counted) (k : Task) :
    s.counts k = toInt (sum k Thread.counted (s.go t place).threads) := by
  change s.counts k = toInt (sum k _ (Function.update _ _ _) : Nat)
  rw [sum_same counted]
  exact balanced.counts k

-- A step between two of the operations.
theorem Balanced.passes (balanced : Balanced task rounds s) {owner : Option τ}
    (owned : Owned Thread.holds owner (s.go t place).threads) (within : ((s.threads t).goes place).Within)
    (same : ((s.threads t).goes place).stations = (s.threads t).stations) :
    Balanced task rounds {s.go t place with owner := owner} := by
  have waited : ((s.threads t).goes place).waited = (s.threads t).waited := congrArg (fun stations => stations.1) same
  have counted : ((s.threads t).goes place).counted = (s.threads t).counted := congrArg (fun stations => stations.2.1) same
  have posted : ((s.threads t).goes place).posted = (s.threads t).posted := congrArg (fun stations => stations.2.2) same
  exact balanced.goes owned within (balanced.tokens_same waited posted) (balanced.counters_same counted)

theorem waits_inj {j k : Task} (same : j.waits = k.waits) : j = k := by
  cases j <;> cases k <;> first | rfl | cases same

theorem posts_waits {j k : Task} : k.waits = j.posts ↔ k.other = j := by
  cases j <;> cases k <;> simp [Task.waits,Task.posts,Task.other]

theorem Balanced.waits (balanced : Balanced task rounds s) (place : (s.threads t).place = .waiting i) (free : 0 < s.sems (s.task t).waits) :
    Balanced task rounds {s.go t (.locking i) with sems := Function.update s.sems (s.task t).waits (s.sems (s.task t).waits - 1)} := by
  have within := balanced.here place
  have waited : ((s.threads t).goes (.locking i)).waited = (s.threads t).waited + 1 := by simp [Thread.waited,Thread.goes,place]
  have counted : ((s.threads t).goes (.locking i)).counted = (s.threads t).counted := by simp [Thread.counted,Thread.goes,place]
  have posted : ((s.threads t).goes (.locking i)).posted = (s.threads t).posted := by simp [Thread.posted,Thread.goes,place]
  refine balanced.goes (owned_stay balanced.owned (goes_here place) rfl) within ?_ (balanced.counters_same counted)
  intro k
  have before := balanced.sems k
  change _ + sum k _ (Function.update _ _ _) = slots k.waits + sum k.other _ (Function.update _ _ _)
  rw [sum_more waited,sum_same posted]
  by_cases mine : s.task t = k
  · subst mine
    rw [Function.update_self,if_pos rfl]
    omega
  · rw [Function.update_of_ne (fun same => mine (waits_inj same).symm),if_neg mine]
    exact before

theorem Balanced.increments (balanced : Balanced task rounds s) (place : (s.threads t).place = .counting i) :
    Balanced task rounds
      {s.go t (.unlocking i) with counts := Function.update s.counts (s.task t) (toInt (s.counts (s.task t) + 1))} := by
  have within := balanced.here place
  have waited : ((s.threads t).goes (.unlocking i)).waited = (s.threads t).waited := by simp [Thread.waited,Thread.goes,place]
  have counted : ((s.threads t).goes (.unlocking i)).counted = (s.threads t).counted + 1 := by simp [Thread.counted,Thread.goes,place]
  have posted : ((s.threads t).goes (.unlocking i)).posted = (s.threads t).posted := by simp [Thread.posted,Thread.goes,place]
  refine balanced.goes (owned_stay balanced.owned (goes_here place) rfl) within (balanced.tokens_same waited posted) ?_
  intro k
  have before := balanced.counts k
  change _ = toInt (sum k _ (Function.update _ _ _) : Nat)
  rw [sum_more counted]
  by_cases mine : s.task t = k
  · subst mine
    rw [Function.update_self,if_pos rfl,before,toInt_add,Int.natCast_add,Int.natCast_one]
  · rw [Function.update_of_ne (Ne.symm mine),if_neg mine]
    exact before

theorem Balanced.posts (balanced : Balanced task rounds s) (place : (s.threads t).place = .posting i) :
    Balanced task rounds {s.go t (.sleeping i) with sems := Function.update s.sems (s.task t).posts (s.sems (s.task t).posts + 1)} := by
  have within := balanced.here place
  have waited : ((s.threads t).goes (.sleeping i)).waited = (s.threads t).waited := by simp [Thread.waited,Thread.goes,place]
  have counted : ((s.threads t).goes (.sleeping i)).counted = (s.threads t).counted := by simp [Thread.counted,Thread.goes,place]
  have posted : ((s.threads t).goes (.sleeping i)).posted = (s.threads t).posted + 1 := by simp [Thread.posted,Thread.goes,place]
  refine balanced.goes (owned_stay balanced.owned (goes_here place) rfl) within ?_ (balanced.counters_same counted)
  intro k
  have before := balanced.sems k
  change _ + sum k _ (Function.update _ _ _) = slots k.waits + sum k.other _ (Function.update _ _ _)
  rw [sum_same waited,sum_more posted]
  by_cases mine : s.task t = k.other
  · rw [posts_waits.mpr mine.symm,Function.update_self,if_pos mine,← posts_waits.mpr mine.symm]
    omega
  · rw [Function.update_of_ne (fun same => mine (posts_waits.mp same).symm),if_neg mine]
    exact before

theorem step_balanced (balanced : Balanced task rounds s) (taken : Step s emitted u) : Balanced task rounds u := by
  cases taken with
  | enters place more => exact balanced.passes (owned_stay balanced.owned (goes_here place) rfl) more (stations_kept place rfl)
  | @exits i _ t place last =>
    have all : (s.threads t).rounds = i := Nat.le_antisymm (Nat.le_of_not_lt last) (balanced.here place)
    refine balanced.passes (owned_stay balanced.owned (goes_here place) rfl) trivial (stations_kept place ?_)
    change ((s.threads t).rounds,(s.threads t).rounds,(s.threads t).rounds) = (i,i,i)
    rw [all]
  | waits place free => exact balanced.waits place free
  | locks place free =>
    have within := balanced.here place
    exact balanced.passes (owned_take balanced.owned free rfl) within (stations_kept place rfl)
  | counts place => exact balanced.increments place
  | unlocks place =>
    have within := balanced.here place
    exact balanced.passes (owned_drop balanced.owned (goes_here place) rfl rfl) within (stations_kept place rfl)
  | posts place => exact balanced.posts place
  | sleeps place =>
    have within := balanced.here place
    exact balanced.passes (owned_stay balanced.owned (goes_here place) rfl) within (stations_kept place rfl)

end

end LinuxCoding.SemProdCons
