import Mathlib.Algebra.Ring.Nat
import Mathlib.Data.Nat.Prime.Basic
import LinuxCoding.Library.Total
import LinuxCoding.PrimePool.Progress

-- What the workers print, of all that they have taken.
namespace LinuxCoding.PrimePool
open CInt Total Transition

theorem mark_prime (low : 2 ≤ i) : mark i = true ↔ i.toNat.Prime := by
  rw [mark,List.all_eq_true]
  constructor
  · intro undivided
    by_contra composite
    have least : 2 ≤ i.toNat.minFac := (Nat.minFac_prime (by omega)).two_le
    have most : i.toNat.minFac ≤ i.toNat / 2 :=
      Nat.le_trans (Nat.minFac_le_div (by omega) composite) (Nat.div_le_div_left least (by decide))
    have tried := undivided i.toNat.minFac (List.mem_range'_1.mpr ⟨least,by omega⟩)
    have divides := Nat.mod_eq_zero_of_dvd (Nat.minFac_dvd i.toNat)
    rw [divides] at tried
    cases tried
  · intro prime j member
    obtain ⟨least,most⟩ := List.mem_range'_1.mp member
    by_contra found
    have divides : j ∣ i.toNat := Nat.dvd_of_mod_eq_zero (by simpa using found)
    rcases (Nat.dvd_prime prime).mp divides with one | all <;> omega

section
variable {n : Nat} {left right : Int} {s u : State n} {log emitted : List (Event n)}

def Event.output : Event n → Option Int
  | .printed _ i => some i
  | _ => none

def printed (log : List (Event n)) : List Int := log.filterMap Event.output

theorem printed_append (log emitted : List (Event n)) : printed (log ++ emitted) = printed log ++ printed emitted := List.filterMap_append

-- The number that a worker has taken and not tested yet.
def WorkerPlace.hand : WorkerPlace → Option Int
  | .broadcasting i | .unlocking i | .computing i => some i
  | _ => none

def hands (i : Int) (worker : Fin n → WorkerPlace) : Nat := tally (fun place => place.hand = some i) worker

-- Each number taken is in a hand or printed, if it is to be printed at all.
def Output (log : List (Event n)) (worker : Fin n → WorkerPlace) : Prop :=
  ∀ i, (printed log).count i + (if mark i then hands i worker else 0) = if mark i then (taken log).count i else 0

theorem hands_same {worker : Fin n → WorkerPlace} (i : Int) (same : place.hand = (worker w).hand) : hands i (Function.update worker w place) = hands i worker :=
  tally_same rfl (by rw [same])

theorem Output.quiet {worker : Fin n → WorkerPlace} (output : Output log worker) (unprinted : printed emitted = []) (untaken : taken emitted = []) :
    Output (log ++ emitted) worker := by
  intro i
  rw [printed_append,unprinted,List.append_nil,taken_append,untaken,List.append_nil]
  exact output i

theorem Output.goes (output : Output log s.worker) (same : place.hand = (s.worker w).hand) : Output log (Function.update s.worker w place) := by
  intro i
  rw [hands_same i same]
  exact output i

theorem Output.takes (output : Output log s.worker) (empty : (s.worker w).hand = none) (number : Int) :
    Output (log ++ [.taken w number]) (Function.update s.worker w (.broadcasting number)) := by
  intro i
  have before := output i
  have more := tally_update (fun place : WorkerPlace => place.hand = some i) s.worker w (.broadcasting number)
  have unheld : decide ((s.worker w).hand = some i) = false := by simp [empty]
  have silent : printed [(.taken w number : Event n)] = [] := rfl
  have one : taken [(.taken w number : Event n)] = [number] := rfl
  rw [printed_append,silent,List.append_nil,taken_append,one,List.count_append,List.count_singleton]
  change _ + (if mark i then tally _ (Function.update s.worker w (.broadcasting number)) else 0) = _
  change hands i _ + _ = hands i _ + _ at more
  change _ + (if mark i then hands i _ else 0) = _
  rw [unheld] at more
  by_cases marked : mark i = true
  · rw [if_pos marked] at before ⊢
    rw [if_pos marked] at before ⊢
    by_cases same : number = i
    · subst same
      simp [WorkerPlace.hand] at more ⊢
      omega
    · simp [WorkerPlace.hand,same] at more ⊢
      omega
  · rw [if_neg marked] at before ⊢
    rw [if_neg marked] at before ⊢
    exact before

theorem Output.prints (output : Output log s.worker) (here : s.worker w = .computing number) :
    Output (log ++ if mark number then [.printed w number] else []) (Function.update s.worker w .locking) := by
  intro i
  have before := output i
  have less := tally_update (fun place : WorkerPlace => place.hand = some i) s.worker w .locking
  rw [here] at less
  change hands i _ + _ = hands i _ + _ at less
  have untaken : taken (if mark number then [(.printed w number : Event n)] else []) = [] := by split <;> rfl
  have one : printed (if mark number then [(.printed w number : Event n)] else []) = if mark number then [number] else [] := by split <;> rfl
  rw [printed_append,one,taken_append,untaken,List.append_nil,List.count_append]
  by_cases same : number = i
  · subst same
    by_cases marked : mark number = true
    · simp only [if_pos marked] at before ⊢
      simp [WorkerPlace.hand] at less ⊢
      omega
    · simp only [if_neg marked] at before ⊢
      simpa using before
  · have absent : (if mark number then [number] else []).count i = 0 := by
      split <;> simp [same]
    have kept : hands i (Function.update s.worker w .locking) = hands i s.worker := by
      simpa [WorkerPlace.hand,same] using less
    rw [absent,kept]
    exact before

theorem wake_hand (place : WorkerPlace) : place.wake.hand = place.hand := by
  cases place <;> rfl

theorem Output.wakeAll (output : Output log s.worker) : Output log s.wakeAll.worker := by
  intro i
  have same : hands i s.wakeAll.worker = hands i s.worker := by
    change ∑ w : Fin n, (decide ((s.worker w).wake.hand = some i)).toNat = ∑ w : Fin n, (decide ((s.worker w).hand = some i)).toNat
    simp only [wake_hand]
  rw [same]
  exact output i

theorem step_output (output : Output log s.worker) (step : Step right s emitted u) : Output (log ++ emitted) u.worker := by
  cases step with
  | enters | ends | locks | waits | stirs | posts | signalsNobody | unlocks | locksEnd | yields | closes | unlocksEnd | joins =>
    exact output.quiet rfl rfl
  | signals i w here asleep => exact (output.goes (by rw [asleep]; rfl)).quiet rfl rfl
  | broadcasts => exact output.wakeAll.quiet rfl rfl
  | workerLocks w here =>
    rcases here with here | here <;> exact (output.goes (by rw [here]; rfl)).quiet rfl rfl
  | workerWaits w here | workerStirs w here | workerUnlocks w _ here | leaves w here | exits w here =>
    exact (output.goes (by rw [here]; rfl)).quiet rfl rfl
  | takes w here => exact output.takes (by rw [here]; rfl) s.num
  | workerBroadcasts w i here => exact (output.wakeAll.goes (by change _ = (s.worker w).wake.hand; rw [here]; rfl)).quiet rfl rfl
  | prints w i here => exact output.prints here

theorem run_output (run : Runs (Step right) (start left : State n) log s) : Output log s.worker := by
  refine run.invariant (I := fun log s => Output log s.worker) (fun _ _ _ _ output step => step_output output step) ?_
  intro i
  have none : hands i (start left : State n).worker = 0 := tally_zero (fun _ => rfl)
  rw [none]
  split <;> rfl

-- What has been printed when all workers have gone.
theorem Ledger.printed_all (ledger : Ledger left right (taken log) s) (output : Output log s.worker) (gone : ∀ w, s.worker w = .exited)
    (shut : s.num = -1) : (printed log).Perm ((span left (right + 1)).filter mark) := by
  obtain ⟨once,only⟩ := ledger.taken_only
  rw [List.perm_iff_count]
  intro i
  have balance := output i
  have none : hands i s.worker = 0 := tally_zero (fun w => by rw [gone w]; rfl)
  rw [none] at balance
  by_cases marked : mark i = true
  · have kept : ((span left (right + 1)).filter mark).count i = (span left (right + 1)).count i := List.count_filter marked
    have same : (taken log).count i = (span left (right + 1)).count i := by
      rw [once.count,(span_nodup left (right + 1)).count]
      have inside : i ∈ taken log ↔ i ∈ span left (right + 1) := by
        rw [mem_span]
        constructor
        · intro member
          have bounds := only i member
          omega
        · rintro ⟨low,high⟩
          exact ledger.taken_all shut low (by omega)
      simp only [inside]
    rw [kept,← same]
    simpa [marked] using balance
  · have absent : ((span left (right + 1)).filter mark).count i = 0 := List.count_eq_zero.mpr (fun member => marked (List.of_mem_filter member))
    rw [absent]
    simpa [marked] using balance

-- At any time nothing but these has been printed, and nothing twice.
theorem Ledger.printed_only (ledger : Ledger left right (taken log) s) (output : Output log s.worker) :
    (printed log).Nodup ∧ ∀ i ∈ printed log, i ∈ (span left (right + 1)).filter mark := by
  obtain ⟨once,only⟩ := ledger.taken_only
  constructor
  · rw [List.nodup_iff_count_le_one]
    intro i
    have balance := output i
    have one := List.nodup_iff_count_le_one.mp once i
    split at balance <;> omega
  · intro i member
    have positive := List.count_pos_iff.mpr member
    have balance := output i
    have marked : mark i = true := by
      by_contra unmarked
      rw [if_neg unmarked,if_neg unmarked] at balance
      omega
    rw [if_pos marked,if_pos marked] at balance
    have bounds := only i (List.count_pos_iff.mp (by omega))
    exact List.mem_filter.mpr ⟨mem_span.mpr (by omega),marked⟩

-- The program takes 1 for a prime as well.
def Primer (i : Int) : Prop := i = 1 ∨ i.toNat.Prime

instance (i : Int) : Decidable (Primer i) := inferInstanceAs (Decidable (_ ∨ _))

theorem mark_primer (positive : 1 ≤ i) : mark i = decide (Primer i) := by
  rw [Bool.eq_iff_iff,decide_eq_true_iff]
  by_cases one : i = 1
  · subst one
    exact ⟨fun _ => .inl rfl,fun _ => rfl⟩
  · refine (mark_prime (by omega)).trans ⟨.inr,?_⟩
    exact fun found => found.resolve_left one

theorem filter_primer (positive : 1 ≤ left) (right : Int) :
    (span left (right + 1)).filter mark = (span left (right + 1)).filter fun i => decide (Primer i) := by
  refine List.filter_congr ?_
  intro i member
  have bounds := mem_span.mp member
  exact mark_primer (by omega)

def primers (left right : Int) : List Int := (span left (right + 1)).filter fun i => decide (Primer i)

structure Prints (left right : Int) (log : List (Event n)) (ended : Prop) : Prop where
  once : (printed log).Nodup
  only : ∀ i ∈ printed log, i ∈ primers left right
  all : ended → (printed log).Perm (primers left right)

theorem sound_prints (positive : 1 ≤ left) (sound : Sound left right log s) (output : Output log s.worker) : Prints left right log (s.main = .exited) := by
  obtain ⟨once,only⟩ := sound.ledger.printed_only output
  rw [filter_primer positive] at only
  refine ⟨once,only,?_⟩
  intro ended
  rw [primers,← filter_primer positive]
  exact sound.ledger.printed_all output (sound.joined ended) (sound.ledger.shut.mpr (by rw [ended]; rfl))

end

end LinuxCoding.PrimePool
