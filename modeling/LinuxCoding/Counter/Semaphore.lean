import Mathlib.Algebra.Ring.Nat
import LinuxCoding.Library.CInt
import LinuxCoding.Library.Mutex
import LinuxCoding.Library.Total
import LinuxCoding.Library.Transition

-- thread/posix/samphore/samphorePV.c: the same counter between sem_wait and sem_post.
namespace LinuxCoding.Counter.Semaphore
open CInt Mutex Total Transition

-- The test of the loop and sem_wait, count++ before and after count is loaded, sem_post.
inductive Place where
  | waiting (i : Nat)
  | loading (i : Nat)
  | storing (i : Nat) (loaded : Int)
  | posting (i : Nat)

structure State (threads : Nat) where
  sem : Nat
  count : Int
  pc : Fin threads → Place

-- Every step shows who takes it.
inductive Step (rounds : Nat) : State threads → List (Fin threads) → State threads → Prop where
  | waits : s.pc k = .waiting i → i < rounds → 0 < s.sem → Step rounds s [k] ⟨s.sem - 1,s.count,Function.update s.pc k (.loading i)⟩
  | loads : s.pc k = .loading i → Step rounds s [k] ⟨s.sem,s.count,Function.update s.pc k (.storing i s.count)⟩
  | stores : s.pc k = .storing i loaded → Step rounds s [k] ⟨s.sem,toInt (loaded + 1),Function.update s.pc k (.posting i)⟩
  | posts : s.pc k = .posting i → Step rounds s [k] ⟨s.sem + 1,s.count,Function.update s.pc k (.waiting (i + 1))⟩

-- sem_init(&sem, 0, 1)
def start (threads : Nat) : State threads := ⟨1,0,fun _ => .waiting 0⟩

def Finished (rounds : Nat) (s : State threads) : Prop := ∀ k, s.pc k = .waiting rounds

def Place.inside : Place → Bool
  | .waiting _ => false
  | _ => true

def Place.counted : Place → Nat
  | .waiting i | .loading i | .storing i _ => i
  | .posting i => i + 1

def Place.steps : Place → Nat
  | .waiting i => 4 * i
  | .loading i => 4 * i + 1
  | .storing i _ => 4 * i + 2
  | .posting i => 4 * i + 3

section
variable {threads rounds : Nat} {s u : State threads} {k : Fin threads}

structure Guarded (rounds : Nat) (log : List (Fin threads)) (s : State threads) : Prop where
  permit : s.sem + tally Place.inside s.pc = 1
  within : ∀ k, (s.pc k).steps ≤ 4 * rounds
  current : ∀ k i r, s.pc k = .storing i r → r = s.count
  count : s.count = total Place.counted s.pc
  steps : log.length = total Place.steps s.pc

theorem Guarded.alone (guarded : Guarded rounds log s) {j k : Fin threads} (mine : (s.pc j).inside = true) (theirs : (s.pc k).inside = true) : j = k := by
  have permit := guarded.permit
  have one : tally Place.inside s.pc ≤ 1 := by omega
  exact tally_unique one mine theirs

-- The threads together have not counted more than all their rounds.
theorem counted_room (within : ∀ k, (s.pc k).steps ≤ 4 * rounds) (place : s.pc k = .storing i r) :
    total Place.counted s.pc + 1 ≤ threads * rounds := by
  have each : ∀ j, (Function.update s.pc k (.posting i) j).counted ≤ rounds := by
    refine update_all (P := fun _ (place : Place) => place.counted ≤ rounds) ?_ ?_
    · intro j
      have most := within j
      cases here : s.pc j with
      | waiting i | loading i | storing i r | posting i =>
        simp only [here,Place.steps,Place.counted] at most ⊢
        omega
    · have most := within k
      rw [place] at most
      simp only [Place.steps,Place.counted] at most ⊢
      omega
  have sum := total_update Place.counted s.pc k (.posting i)
  rw [place] at sum
  have most : ∑ j, (Function.update s.pc k (.posting i) j).counted ≤ ∑ _j : Fin threads, rounds := Finset.sum_le_sum (fun j _ => each j)
  rw [Finset.sum_const_nat (fun _ _ => rfl),Finset.card_univ,Fintype.card_fin] at most
  change total Place.counted _ + i = total Place.counted s.pc + (i + 1) at sum
  change total Place.counted _ ≤ _ at most
  omega

-- A step that leaves the count as it is.
theorem Guarded.goes (guarded : Guarded rounds log s) {sem : Nat} {old new : Place} (place : s.pc k = old) (permit : sem + new.inside.toNat = s.sem + old.inside.toNat)
    (one : new.steps = old.steps + 1) (most : new.steps ≤ 4 * rounds) (same : new.counted = old.counted) (current : ∀ i r, new = .storing i r → r = s.count) :
    Guarded rounds (log ++ [k]) ⟨sem,s.count,Function.update s.pc k new⟩ := by
  have insides := tally_update Place.inside s.pc k new
  have counts := total_update Place.counted s.pc k new
  have steps := total_update Place.steps s.pc k new
  have before := guarded.permit
  rw [place] at insides counts steps
  refine ⟨?_,?_,?_,?_,?_⟩
  · change sem + tally Place.inside (Function.update s.pc k new) = 1
    omega
  · exact update_all (P := fun _ (place : Place) => place.steps ≤ 4 * rounds) guarded.within most
  · exact update_all (P := fun _ (place : Place) => ∀ i r, place = .storing i r → r = s.count) guarded.current current
  · change s.count = (total Place.counted (Function.update s.pc k new) : Nat)
    rw [guarded.count]
    omega
  · change (log ++ [k]).length = total Place.steps (Function.update s.pc k new)
    rw [List.length_append,guarded.steps,List.length_singleton]
    omega

theorem step_guarded (fits : ((threads * rounds : Nat) : Int) ≤ intMax) (guarded : Guarded rounds log s) (taken : Step rounds s emitted u) :
    Guarded rounds (log ++ emitted) u := by
  cases taken with
  | waits place more free =>
    refine guarded.goes place ?_ rfl ?_ rfl (fun _ _ new => by cases new)
    · change s.sem - 1 + 1 = s.sem + 0
      omega
    · simp only [Place.steps]
      omega
  | loads place =>
    rename_i i k
    have most := guarded.within k
    rw [place] at most
    refine guarded.goes place rfl rfl ?_ rfl ?_
    · simp only [Place.steps] at most ⊢
      omega
    · intro i r new
      cases new
      rfl
  | stores place =>
    rename_i r i k
    have room := counted_room guarded.within place
    have most := guarded.within k
    have current := guarded.current k i r place
    have count := guarded.count
    have exact : toInt (r + 1) = r + 1 := toInt_inRange (by simp only [intMin]; omega) (by omega)
    have inside : tally Place.inside (Function.update s.pc k (.posting i)) = tally Place.inside s.pc := tally_same place rfl
    have counts := total_update Place.counted s.pc k (.posting i)
    have steps := total_update Place.steps s.pc k (.posting i)
    rw [place] at most counts steps
    change total Place.counted _ + i = total Place.counted s.pc + (i + 1) at counts
    change total Place.steps _ + (4 * i + 2) = total Place.steps s.pc + (4 * i + 3) at steps
    rw [exact]
    refine ⟨?_,?_,?_,?_,?_⟩
    · change s.sem + tally Place.inside (Function.update s.pc k (.posting i)) = 1
      rw [inside]
      exact guarded.permit
    · refine update_all (P := fun _ (place : Place) => place.steps ≤ 4 * rounds) guarded.within ?_
      simp only [Place.steps] at most ⊢
      omega
    · intro j i' r' there
      obtain ⟨other,before⟩ := elsewhere there (fun new => by cases new)
      exact absurd (guarded.alone (by rw [before]; rfl) (by rw [place]; rfl)) other
    · change r + 1 = (total Place.counted (Function.update s.pc k (.posting i)) : Nat)
      omega
    · change (log ++ [k]).length = total Place.steps (Function.update s.pc k (.posting i))
      rw [List.length_append,guarded.steps,List.length_singleton]
      omega
  | posts place =>
    rename_i i k
    have most := guarded.within k
    rw [place] at most
    refine guarded.goes place rfl ?_ ?_ rfl (fun _ _ new => by cases new)
    · simp only [Place.steps]
      omega
    · simp only [Place.steps] at most ⊢
      omega

theorem start_guarded (threads : Nat) : Guarded rounds [] (start threads) := by
  have none : tally Place.inside (start threads).pc = 0 := tally_zero (fun _ => rfl)
  have uncounted : total Place.counted (start threads).pc = 0 := Finset.sum_eq_zero (fun _ _ => rfl)
  have still : total Place.steps (start threads).pc = 0 := Finset.sum_eq_zero (fun _ _ => rfl)
  refine ⟨?_,fun _ => Nat.zero_le _,nofun,?_,still.symm⟩
  · rw [none]
    rfl
  · rw [uncounted]
    rfl

theorem run_guarded (fits : ((threads * rounds : Nat) : Int) ≤ intMax) (run : Runs (Step rounds) (start threads) log s) : Guarded rounds log s :=
  run.invariant (fun _ _ _ _ guarded taken => step_guarded fits guarded taken) (start_guarded threads)

-- Somebody can go on: the one who has the permit, or one who waits for it.
theorem stuck_finished (guarded : Guarded rounds log s) (stuck : Stuck (Step rounds) s) : Finished rounds s := by
  have outside : ∀ k, ∃ i, s.pc k = .waiting i := by
    intro k
    cases place : s.pc k with
    | waiting i => exact ⟨i,rfl⟩
    | loading i => exact absurd (.loads place) (stuck _ _)
    | storing i r => exact absurd (.stores place) (stuck _ _)
    | posting i => exact absurd (.posts place) (stuck _ _)
  have none : tally Place.inside s.pc = 0 := by
    refine tally_zero (fun k => ?_)
    obtain ⟨i,place⟩ := outside k
    rw [place]
    rfl
  have permit := guarded.permit
  intro k
  obtain ⟨i,place⟩ := outside k
  have most := guarded.within k
  rw [place] at most
  change 4 * i ≤ 4 * rounds at most
  rcases Nat.lt_or_ge i rounds with more | enough
  · exact absurd (.waits place more (by omega)) (stuck _ _)
  · rw [place,show i = rounds by omega]

theorem finished_stuck (finished : Finished rounds s) : Stuck (Step rounds) s := by
  intro emitted u taken
  cases taken with
  | waits place more =>
    rw [finished] at place
    cases place
    exact Nat.lt_irrefl _ more
  | loads place | stores place | posts place =>
    rw [finished] at place
    cases place

theorem finished_total (finished : Finished rounds s) (weight : Place → Nat) : total weight s.pc = threads * weight (.waiting rounds) := by
  have each : ∀ k ∈ Finset.univ, weight (s.pc k) = weight (.waiting rounds) := fun k _ => by rw [finished k]
  rw [total,Finset.sum_const_nat each,Finset.card_univ,Fintype.card_fin]

theorem Guarded.short (guarded : Guarded rounds log s) : log.length ≤ threads * (4 * rounds) := by
  have most : ∑ k, (s.pc k).steps ≤ ∑ _k : Fin threads, 4 * rounds := Finset.sum_le_sum (fun k _ => guarded.within k)
  rw [Finset.sum_const_nat (fun _ _ => rfl),Finset.card_univ,Fintype.card_fin] at most
  rw [guarded.steps]
  exact most

structure Counts (rounds : Nat) (log : List (Fin threads)) (s : State threads) : Prop where
  exclusive : tally Place.inside s.pc ≤ 1
  short : log.length ≤ threads * (4 * rounds)
  ends : Stuck (Step rounds) s ↔ Finished rounds s
  exact : Finished rounds s → s.count = (threads * rounds : Nat)

-- Whatever the schedule, all threads come to their ends and nothing is lost.
theorem sem_exact (fits : ((threads * rounds : Nat) : Int) ≤ intMax) :
    (∀ log s, Runs (Step rounds) (start threads) log s → Counts rounds log s) ∧
      ∃ log s, Runs (Step rounds) (start threads) log s ∧ Finished rounds s := by
  constructor
  · intro log s run
    have guarded := run_guarded fits run
    refine ⟨?_,guarded.short,⟨stuck_finished guarded,finished_stuck⟩,?_⟩
    · have permit := guarded.permit
      omega
    · intro finished
      rw [guarded.count,finished_total finished Place.counted]
      rfl
  · have shows : ∀ (t : State threads) emitted u, Step rounds t emitted u → emitted ≠ [] := by
      intro t emitted u taken
      cases taken <;> exact List.cons_ne_nil _ _
    obtain ⟨log,s,run,stuck⟩ := Runs.longest (fun log s run => (run_guarded fits run).short) shows
    exact ⟨log,s,run,stuck_finished (run_guarded fits run) stuck⟩

end

-- The two threads of main always count to the end.
theorem all_printed : (∀ log (s : State 2), Runs (Step 100000) (start 2) log s → Counts 100000 log s) ∧
    ∃ log s, Runs (Step 100000) (start 2) log s ∧ Finished 100000 s :=
  sem_exact (by decide)

end LinuxCoding.Counter.Semaphore
