import Mathlib.Algebra.Ring.Nat
import LinuxCoding.SpinLock.Task

-- What the threads find in n when they start is added a second time.
namespace LinuxCoding.SpinLock
open CInt Mutex Total Transition

-- The thread has added its count.
def Place.added : Place → Bool
  | .unlocking => true
  | .exited => true
  | _ => false

-- What t began with, while it is still private.
def Place.found (loops : Nat) : Place → Nat
  | .looping i t => (t - i).toNat
  | .locking t => (t - loops).toNat
  | .adding t => (t - loops).toNat
  | .storing _ t => (t - loops).toNat
  | _ => 0

def Place.Within (loops : Nat) : Place → Prop
  | .looping i t => i ≤ loops ∧ i ≤ t
  | .locking t => loops ≤ t
  | .adding t => loops ≤ t
  | .storing _ t => loops ≤ t
  | _ => True

def Event.found : Event threads → Nat
  | .read _ found => found.toNat
  | _ => 0

section
variable {threads : Nat}

def found (log : List (Event threads)) : Nat := (log.map Event.found).sum

structure Books (loops : Loops) (log : List (Event threads)) (s : State threads) : Prop where
  owned : Owned Place.holds s.owner s.pc
  within : ∀ k, (s.pc k).Within loops.val
  loaded : ∀ k loaded t, s.pc k = .storing loaded t → s.n = loaded
  sum : s.n + total (Place.found loops.val) s.pc = (loops.val * tally Place.added s.pc + found log : Nat)
  floor : (loops.val * tally Place.added s.pc : Nat) ≤ s.n
  ceiling : s.n ≤ intMax
  adds : (∃ e ∈ log, e.adds = true) ↔ tally Place.added s.pc ≠ 0
  early : loops.val = 0 ∨ Early log ↔ found log = 0

variable {loops : Loops} {s u : State threads} {k : Fin threads} {place : Place} {log emitted : List (Event threads)} {event : Event threads}

theorem found_append (log : List (Event threads)) (event : Event threads) : found (log ++ [event]) = found log + event.found := by
  simp [found]

theorem early_append : Early (log ++ [event]) ↔ Early log ∧ (event.reads = true → ∀ e ∈ log, e.adds = false) := by
  unfold Early
  rw [List.pairwise_append]
  constructor
  · rintro ⟨earlier,_,now⟩
    refine ⟨earlier,fun reads e member => ?_⟩
    have apart := now e member event (List.mem_singleton_self _)
    simpa [reads] using apart
  · rintro ⟨earlier,now⟩
    refine ⟨earlier,List.pairwise_singleton _ _,?_⟩
    intro e member later last both
    rw [List.mem_singleton.mp last] at both
    rw [now both.2 e member] at both
    cases both.1

theorem adds_append : (∃ e ∈ log ++ [event], e.adds = true) ↔ (∃ e ∈ log, e.adds = true) ∨ event.adds = true := by
  simp [or_and_right,exists_or]

-- A step that neither reads n into a private count nor adds one to it.
theorem Books.goes (books : Books loops log s) {owner : Option (Fin threads)} (there : s.pc k = old)
    (owned : Owned Place.holds owner (Function.update s.pc k place))
    (within : place.Within loops.val) (loaded : ∀ l t, place = .storing l t → s.n = l)
    (same : place.found loops.val = old.found loops.val) (unadded : place.added = old.added)
    (silent : event.found = 0) (unread : event.reads = false) (unshared : event.adds = false) :
    Books loops (log ++ [event]) ⟨s.n,owner,Function.update s.pc k place⟩ := by
  have weights := total_update (Place.found loops.val) s.pc k place
  rw [there] at weights
  have kept : total (Place.found loops.val) (Function.update s.pc k place) = total (Place.found loops.val) s.pc := by omega
  refine ⟨owned,update_all (P := fun _ (place : Place) => place.Within loops.val) books.within within,
    update_all (P := fun _ (place : Place) => ∀ l t, place = .storing l t → s.n = l) books.loaded loaded,?_,?_,books.ceiling,?_,?_⟩
  · change s.n + total _ (Function.update s.pc k place) = _
    rw [kept,found_append,silent,tally_same there unadded]
    exact books.sum
  · change (loops.val * tally Place.added (Function.update s.pc k place) : Nat) ≤ s.n
    rw [tally_same there unadded]
    exact books.floor
  · change _ ↔ tally Place.added (Function.update s.pc k place) ≠ 0
    rw [adds_append,unshared,tally_same there unadded]
    simpa using books.adds
  · rw [early_append,unread,found_append,silent]
    simpa using books.early

theorem Books.reads (books : Books loops log s) (place : s.pc k = .reading) : Books loops (log ++ [.read k s.n]) (s.go k (.looping 0 s.n)) := by
  have floor := books.floor
  have sum := books.sum
  have same : tally Place.added (Function.update s.pc k (.looping 0 s.n)) = tally Place.added s.pc := tally_same place rfl
  have weights := total_update (Place.found loops.val) s.pc k (.looping 0 s.n)
  have old : (s.pc k).found loops.val = 0 := by rw [place]; rfl
  have new : (Place.looping 0 s.n).found loops.val = s.n.toNat := congrArg Int.toNat (Int.sub_zero s.n)
  have positive : 0 ≤ s.n := Int.le_trans (Int.natCast_nonneg _) floor
  have event : (Event.read k s.n).found = s.n.toNat := rfl
  refine ⟨owned_stay books.owned place rfl,update_all (P := fun _ (place : Place) => place.Within loops.val) books.within ⟨Nat.zero_le _,positive⟩,
    update_all (P := fun _ (place : Place) => ∀ l t, place = .storing l t → s.n = l) books.loaded nofun,?_,?_,books.ceiling,?_,?_⟩
  · change s.n + total _ (Function.update s.pc k (.looping 0 s.n)) = (loops.val * tally _ (Function.update s.pc k (.looping 0 s.n)) + _ : Nat)
    rw [found_append,same,event]
    omega
  · change (loops.val * tally Place.added (Function.update s.pc k (.looping 0 s.n)) : Nat) ≤ s.n
    rw [same]
    exact floor
  · change _ ↔ tally Place.added (Function.update s.pc k (.looping 0 s.n)) ≠ 0
    rw [adds_append,same]
    simpa [Event.adds] using books.adds
  · rw [early_append,found_append,event]
    constructor
    · intro early
      have none : found log = 0 := books.early.mp (early.imp_right And.left)
      have product : loops.val * tally Place.added s.pc = 0 := by
        rcases early with zero | ⟨_,first⟩
        · rw [zero,Nat.zero_mul]
        · have unadded : tally Place.added s.pc = 0 := by
            by_contra some
            obtain ⟨e,member,adds⟩ := books.adds.mpr some
            rw [first rfl e member] at adds
            cases adds
          rw [unadded,Nat.mul_zero]
      omega
    · intro nothing
      by_cases zero : loops.val = 0
      · exact .inl zero
      · refine .inr ⟨(books.early.mpr (by omega)).resolve_left zero,fun _ e member => ?_⟩
        have product : loops.val * tally Place.added s.pc = 0 := by omega
        have unadded := (Nat.mul_eq_zero.mp product).resolve_left zero
        by_contra adds
        exact books.adds.mp ⟨e,member,by simpa using adds⟩ unadded

theorem Books.here (books : Books loops log s) (there : s.pc k = place) : place.Within loops.val := by
  rw [← there]
  exact books.within k

theorem Books.stores (books : Books loops log s) (place : s.pc k = .storing l t) (fits : intMin ≤ l + t ∧ l + t ≤ intMax) :
    Books loops (log ++ [.added k (l + t)]) {s.go k .unlocking with n := toInt (l + t)} := by
  have held : (s.pc k).holds = true := by rw [place]; rfl
  have enough : (loops.val : Int) ≤ t := books.here place
  have current := books.loaded k l t place
  have sum := books.sum
  have floor := books.floor
  have more : tally Place.added (Function.update s.pc k .unlocking) = tally Place.added s.pc + 1 := tally_more place rfl rfl
  have weights := total_update (Place.found loops.val) s.pc k .unlocking
  have old : (s.pc k).found loops.val = (t - loops.val).toNat := by rw [place]; rfl
  have new : Place.unlocking.found loops.val = 0 := rfl
  rw [toInt_inRange fits.1 fits.2]
  refine ⟨owned_stay books.owned place rfl,update_all (P := fun _ (place : Place) => place.Within loops.val) books.within trivial,?_,?_,?_,fits.2,?_,?_⟩
  · intro j m x there
    obtain ⟨other,before⟩ := elsewhere there nofun
    exact absurd (owned_unique books.owned (by rw [before]; rfl) held) other
  · change l + t + total _ (Function.update s.pc k .unlocking) = (loops.val * tally _ (Function.update s.pc k .unlocking) + _ : Nat)
    rw [found_append,more,Nat.mul_succ]
    change _ = ((_ + (_ + 0) : Nat) : Int)
    omega
  · change (loops.val * tally Place.added (Function.update s.pc k .unlocking) : Nat) ≤ l + t
    rw [more,Nat.mul_succ]
    omega
  · change _ ↔ tally Place.added (Function.update s.pc k .unlocking) ≠ 0
    rw [adds_append,more]
    simp [Event.adds]
  · rw [early_append,found_append]
    simpa [Event.reads,Event.found] using books.early

theorem step_books (books : Books loops log s) (taken : Step loops s emitted u) (fits : Fits emitted) : Books loops (log ++ emitted) u := by
  cases taken with
  | reads place => exact books.reads place
  | counts place more =>
    obtain ⟨_,low⟩ := books.here place
    obtain ⟨below,above⟩ := fits _ (List.mem_singleton_self _) _ rfl
    rw [toInt_inRange below above]
    refine books.goes place (owned_stay books.owned place rfl) ⟨more,by omega⟩ nofun ?_ rfl rfl rfl rfl
    rw [Place.found,Place.found]
    congr 1
    omega
  | leaves place last =>
    obtain ⟨high,low⟩ := books.here place
    have all := Nat.le_antisymm high (Nat.le_of_not_lt last)
    rw [all] at low
    refine books.goes place (owned_stay books.owned place rfl) low nofun ?_ rfl rfl rfl rfl
    rw [all]
    rfl
  | locks place free =>
    have within := books.here place
    exact books.goes place (owned_take books.owned free rfl) within nofun rfl rfl rfl rfl rfl
  | loads place =>
    have within := books.here place
    refine books.goes place (owned_stay books.owned place rfl) within ?_ rfl rfl rfl rfl rfl
    intro l x same
    cases same
    rfl
  | stores place => exact books.stores place (fits _ (List.mem_singleton_self _) _ rfl)
  | unlocks place =>
    exact books.goes place (owned_drop books.owned place rfl rfl) trivial nofun rfl rfl rfl rfl rfl

-- With nothing found each private count is the number of passes, and n the whole batches.
theorem Books.batches (books : Books loops log s) (nothing : found log = 0) (k : Fin threads) :
    (s.pc k).found loops.val = 0 ∧ s.n = (loops.val * tally Place.added s.pc : Nat) := by
  have sum := books.sum
  have floor := books.floor
  have member := total_member (Place.found loops.val) s.pc k
  rw [nothing] at sum
  omega

theorem step_fits (books : Books loops log s) (nothing : found log = 0) (product : (threads * loops.val : Nat) ≤ intMax) (taken : Step loops s emitted u) :
    Fits emitted := by
  have bound := loops.property
  intro e member sum there
  cases taken with
  | reads | leaves | locks | loads | unlocks =>
    rw [List.mem_singleton.mp member] at there
    cases there
  | @counts i _ k t place more =>
    rw [List.mem_singleton.mp member] at there
    cases there
    have low : (i : Int) ≤ t := (books.here place).2
    have none := (books.batches nothing k).1
    rw [place] at none
    change (t - i).toNat = 0 at none
    simp only [intMin]
    omega
  | @stores _ k l t place =>
    rw [List.mem_singleton.mp member] at there
    cases there
    have low : (loops.val : Int) ≤ t := books.here place
    obtain ⟨none,whole⟩ := books.batches nothing k
    rw [place] at none
    change (t - loops.val).toNat = 0 at none
    have room : tally Place.added s.pc < threads := tally_room place rfl
    have batches : loops.val * tally Place.added s.pc + loops.val ≤ threads * loops.val := by
      rw [← Nat.mul_succ,Nat.mul_comm threads]
      exact Nat.mul_le_mul_left _ room
    have current := books.loaded k l t place
    simp only [intMin]
    omega

theorem fits_append (log more : List (Event threads)) : Fits (log ++ more) ↔ Fits log ∧ Fits more := List.forall_mem_append

theorem start_books (threads : Nat) : Books loops [] (start threads) := by
  have none : tally Place.added (start threads).pc = 0 := tally_zero (fun _ => rfl)
  have nothing : total (Place.found loops.val) (start threads).pc = 0 := Finset.sum_eq_zero (fun _ _ => rfl)
  have zero_le : (0 : Int) ≤ intMax := by decide
  refine ⟨fun _ => ⟨nofun,nofun⟩,fun _ => trivial,nofun,?_,?_,zero_le,?_,?_⟩
  · rw [none,nothing]
    rfl
  · rw [none]
    exact Int.le_refl 0
  · rw [none]
    simp
  · simp [Early,found]

theorem early_earlier (early : loops.val = 0 ∨ Early (log ++ more)) : loops.val = 0 ∨ Early log :=
  early.imp_right (fun pairs => (List.pairwise_append.mp pairs).1)

theorem run_books (run : Runs (Step loops) (start threads) log s) :
    (Fits log → Books loops log s) ∧ ((threads * loops.val : Nat) ≤ intMax → loops.val = 0 ∨ Early log → Fits log) := by
  refine run.invariant (I := fun log s => (Fits log → Books loops log s) ∧ ((threads * loops.val : Nat) ≤ intMax → loops.val = 0 ∨ Early log → Fits log))
    ?_ ⟨fun _ => start_books threads,fun _ _ => nofun⟩
  rintro log s emitted u ⟨books,fits⟩ taken
  refine ⟨?_,?_⟩
  · intro defined
    obtain ⟨earlier,now⟩ := (fits_append log emitted).mp defined
    exact step_books (books earlier) taken now
  · intro product early
    have earlier := fits product (early_earlier early)
    have nothing := (books earlier).early.mp (early_earlier early)
    exact (fits_append log emitted).mpr ⟨earlier,step_fits (books earlier) nothing product taken⟩

theorem exited_sum (books : Books loops log s) (exited : ∀ k, s.pc k = .exited) : s.n = (threads * loops.val + found log : Nat) := by
  have sum := books.sum
  have nothing : total (Place.found loops.val) s.pc = 0 := Finset.sum_eq_zero (fun k _ => by rw [exited k]; rfl)
  rw [nothing,tally_full (fun k => by rw [exited k]; rfl),Fintype.card_fin,Nat.mul_comm] at sum
  simpa using sum

theorem counting_exact (run : Runs (Step loops) (start threads) log s) (exited : ∀ k, s.pc k = .exited) :
    Exact loops log s ↔ (threads * loops.val : Nat) ≤ intMax ∧ (loops.val = 0 ∨ Early log) := by
  obtain ⟨books,fits⟩ := run_books run
  constructor
  · rintro ⟨defined,total⟩
    have sum := exited_sum (books defined) exited
    have ceiling := (books defined).ceiling
    rw [total] at sum ceiling
    exact ⟨ceiling,(books defined).early.mpr (by omega)⟩
  · rintro ⟨product,early⟩
    have defined := fits product early
    have sum := exited_sum (books defined) exited
    rw [(books defined).early.mp early,Nat.add_zero] at sum
    exact ⟨defined,sum⟩

end

def oneLoop : Loops := ⟨1,by simp [intMax]⟩

-- A single thread with one pass.
theorem one_exact : ∃ log s, Runs (Step oneLoop) (start 1) log s ∧ (∀ k, s.pc k = .exited) ∧ Exact oneLoop log s := by
  have begins : Runs (Step oneLoop) (start 1) [] _ := .nil
  have counted := ((begins.step (.reads (k := 0) rfl)).step (.counts (k := 0) rfl Nat.zero_lt_one)).step (.leaves (k := 0) rfl (Nat.lt_irrefl 1))
  have added := ((counted.step (.locks (k := 0) rfl rfl)).step (.loads (k := 0) rfl)).step (.stores (k := 0) rfl)
  obtain ⟨log,s,run,early,exited⟩ : ∃ log s, Runs (Step oneLoop) (start 1) log s ∧ Early log ∧ ∀ k, s.pc k = .exited := by
    refine ⟨_,_,added.step (.unlocks (k := 0) rfl),by simp [Early,Event.adds,Event.reads],?_⟩
    intro k
    rw [Fin.fin_one_eq_zero k]
    rfl
  exact ⟨log,s,run,exited,(counting_exact run exited).mpr ⟨by decide,.inr early⟩⟩

-- The second of two threads starts when the first has added its pass, and adds it once more.
theorem added_twice : ∃ log s, Runs (Step oneLoop) (start 2) log s ∧ (∀ k, s.pc k = .exited) ∧ s.n = 3 ∧ ¬ Exact oneLoop log s := by
  have begins : Runs (Step oneLoop) (start 2) [] _ := .nil
  have counted := ((begins.step (.reads (k := 0) rfl)).step (.counts (k := 0) rfl Nat.zero_lt_one)).step (.leaves (k := 0) rfl (Nat.lt_irrefl 1))
  have added := (((counted.step (.locks (k := 0) rfl rfl)).step (.loads (k := 0) rfl)).step (.stores (k := 0) rfl)).step (.unlocks (k := 0) rfl)
  have again := ((added.step (.reads (k := 1) rfl)).step (.counts (k := 1) rfl Nat.zero_lt_one)).step (.leaves (k := 1) rfl (Nat.lt_irrefl 1))
  have twice := (((again.step (.locks (k := 1) rfl rfl)).step (.loads (k := 1) rfl)).step (.stores (k := 1) rfl)).step (.unlocks (k := 1) rfl)
  refine ⟨_,_,twice,Fin.forall_fin_two.mpr ⟨rfl,rfl⟩,rfl,?_⟩
  intro same
  have total : (3 : Int) = (2 * 1 : Nat) := same.total
  omega

end LinuxCoding.SpinLock
