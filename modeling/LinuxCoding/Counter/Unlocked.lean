import Mathlib.Algebra.Ring.Nat
import LinuxCoding.Library.CInt
import LinuxCoding.Library.Mutex
import LinuxCoding.Library.Total
import LinuxCoding.Library.Transition

-- thread/posix/Newer/multi_thread/multi_thread_wo_lock.c: num++ is a load and a store, and
-- nothing keeps another thread from coming between them.
namespace LinuxCoding.Counter.Unlocked
open CInt Mutex Total Transition

-- The test of the loop, and num++ between its load and its store.
inductive Place where
  | looping (i : Nat)
  | storing (i : Nat) (loaded : Int)

def Place.done : Place → Nat
  | .looping i => i
  | .storing i _ => i

structure State (threads : Nat) where
  num : Int
  pc : Fin threads → Place

-- A store shows what it stores.
inductive Step (rounds : Nat) : State threads → List Int → State threads → Prop where
  | loads : s.pc k = .looping i → i < rounds → Step rounds s [] ⟨s.num,Function.update s.pc k (.storing i s.num)⟩
  | stores : s.pc k = .storing i loaded → Step rounds s [loaded + 1] ⟨toInt (loaded + 1),Function.update s.pc k (.looping (i + 1))⟩

def start (threads : Nat) : State threads := ⟨0,fun _ => .looping 0⟩

-- Both threads are joined.
def Finished (rounds : Nat) (s : State threads) : Prop := ∀ k, s.pc k = .looping rounds

def done (pc : Fin threads → Place) : Nat := total Place.done pc

section
variable {threads rounds : Nat} {s u : State threads} {k : Fin threads}

-- What a thread has loaded is at least one if it has stored before, and the thread that
-- stored last has left at least two unless it was its first time.
structure Bounded (rounds : Nat) (s : State threads) : Prop where
  within : ∀ k, (s.pc k).done ≤ rounds
  loaded : ∀ k i r, s.pc k = .storing i r → i < rounds ∧ ((min i 1 : Nat) : Int) ≤ r ∧ r ≤ done s.pc
  ceiling : s.num ≤ done s.pc
  floor : (∀ k, (s.pc k).done = 0) ∧ s.num = 0 ∨ ∃ k, 1 ≤ (s.pc k).done ∧ ((min (s.pc k).done 2 : Nat) : Int) ≤ s.num

theorem Bounded.low (bounded : Bounded rounds s) (k : Fin threads) : ((min (s.pc k).done 1 : Nat) : Int) ≤ s.num := by
  rcases bounded.floor with ⟨none,zero⟩ | ⟨last,some,least⟩
  · rw [none k,zero]
    rfl
  · omega

theorem done_more (place : s.pc k = .storing i loaded) : done (Function.update s.pc k (.looping (i + 1))) = done s.pc + 1 := by
  have sum := total_update Place.done s.pc k (.looping (i + 1))
  rw [place] at sum
  change done _ + i = done s.pc + (i + 1) at sum
  omega

theorem done_same (place : s.pc k = .looping i) (r : Int) : done (Function.update s.pc k (.storing i r)) = done s.pc := by
  have sum := total_update Place.done s.pc k (.storing i r)
  rw [place] at sum
  change done _ + i = done s.pc + i at sum
  omega

-- A thread in its loop leaves room for one more round.
theorem done_room (bounded : Bounded rounds s) (place : s.pc k = .storing i loaded) : done s.pc + 1 ≤ threads * rounds := by
  rw [← done_more place]
  have each : ∀ j, (Function.update s.pc k (.looping (i + 1)) j).done ≤ rounds :=
    update_all (P := fun _ (place : Place) => place.done ≤ rounds) bounded.within (bounded.loaded k i loaded place).1
  have most : ∑ j, (Function.update s.pc k (.looping (i + 1)) j).done ≤ ∑ _j : Fin threads, rounds := Finset.sum_le_sum (fun j _ => each j)
  rw [Finset.sum_const_nat (fun _ _ => rfl),Finset.card_univ,Fintype.card_fin] at most
  exact most

theorem step_bounded (fits : ((threads * rounds : Nat) : Int) ≤ intMax) (bounded : Bounded rounds s) (taken : Step rounds s emitted u) : Bounded rounds u := by
  have low := bounded.low
  cases taken with
  | loads place more =>
    rename_i i k
    have least := low k
    rw [place] at least
    have same := done_same place s.num
    have kept : ∀ j, (Function.update s.pc k (.storing i s.num) j).done = (s.pc j).done := by
      intro j
      by_cases own : j = k
      · rw [own,Function.update_self,place]
        rfl
      · rw [Function.update_of_ne own]
    refine ⟨?_,?_,?_,?_⟩
    · intro j
      rw [kept]
      exact bounded.within j
    · rw [same]
      refine update_all (P := fun _ (place : Place) => ∀ i r, place = .storing i r → i < rounds ∧ ((min i 1 : Nat) : Int) ≤ r ∧ r ≤ done s.pc)
        bounded.loaded ?_
      intro j r new
      cases new
      exact ⟨more,least,bounded.ceiling⟩
    · rw [same]
      exact bounded.ceiling
    · simp only [kept]
      exact bounded.floor
  | stores place =>
    rename_i r i k
    obtain ⟨more,least,most⟩ := bounded.loaded k i r place
    have room := done_room bounded place
    have next := done_more place
    have exact : toInt (r + 1) = r + 1 := toInt_inRange (by simp only [intMin]; omega) (by omega)
    rw [exact]
    refine ⟨?_,?_,?_,.inr ⟨k,?_,?_⟩⟩
    · exact update_all (P := fun _ (place : Place) => place.done ≤ rounds) bounded.within more
    · rw [next]
      refine update_all (P := fun _ (place : Place) => ∀ i r, place = .storing i r → i < rounds ∧ ((min i 1 : Nat) : Int) ≤ r ∧ r ≤ (done s.pc + 1 : Nat)) ?_ (fun _ _ new => by cases new)
      intro j i r there
      obtain ⟨less,low,high⟩ := bounded.loaded j i r there
      exact ⟨less,low,by omega⟩
    · rw [next]
      change r + 1 ≤ _
      omega
    · change 1 ≤ (Function.update s.pc k (.looping (i + 1)) k).done
      rw [Function.update_self]
      exact Nat.le_add_left 1 i
    · change ((min (Function.update s.pc k (.looping (i + 1)) k).done 2 : Nat) : Int) ≤ r + 1
      rw [Function.update_self]
      change ((min (i + 1) 2 : Nat) : Int) ≤ r + 1
      omega

theorem start_bounded (threads : Nat) : Bounded rounds (start threads) := by
  have none : total Place.done (start threads).pc = 0 := Finset.sum_eq_zero (fun _ _ => rfl)
  refine ⟨fun _ => Nat.zero_le _,nofun,?_,.inl ⟨fun _ => rfl,rfl⟩⟩
  change (0 : Int) ≤ (total Place.done (start threads).pc : Nat)
  rw [none]
  exact Int.le_refl 0

theorem run_bounded (fits : ((threads * rounds : Nat) : Int) ≤ intMax) (run : Runs (Step rounds) (start threads) log s) : Bounded rounds s :=
  run.stateInvariant (fun _ _ _ bounded taken => step_bounded fits bounded taken) (start_bounded threads)

-- The threads at rest, but for one.
def placed (d : Fin threads → Nat) (k : Fin threads) (place : Place) : Fin threads → Place := Function.update (fun j => .looping (d j)) k place

-- One round of a thread that nobody disturbs.
theorem one_round (num : Int) (d : Fin threads → Nat) (place : Place) (other : j ≠ k) (more : d j < rounds) (low : 0 ≤ num) (high : num + 1 ≤ intMax) :
    ∃ log, Runs (Step rounds) ⟨num,placed d k place⟩ log ⟨num + 1,placed (Function.update d j (d j + 1)) k place⟩ := by
  have here : placed d k place j = .looping (d j) := Function.update_of_ne other ..
  have exact : toInt (num + 1) = num + 1 := toInt_inRange (by simp only [intMin]; omega) high
  have begun : Runs (Step rounds) (⟨num,placed d k place⟩ : State threads) [] ⟨num,placed d k place⟩ := .nil
  have loaded := begun.step (.loads here more)
  have stored := loaded.step (.stores (k := j) (Function.update_self ..))
  have same : Function.update (Function.update (placed d k place) j (.storing (d j) num)) j (.looping (d j + 1)) =
      placed (Function.update d j (d j + 1)) k place := by
    funext t
    by_cases own : t = j
    · rw [own]
      simp [placed,other]
    · by_cases apart : t = k
      · rw [apart]
        simp [placed,other.symm]
      · simp [placed,own,apart]
  simp only [same,exact] at stored
  exact ⟨_,stored⟩

-- Any number of the rounds that the others have left.
theorem some_rounds (count : Nat) (num : Int) (d caps : Fin threads → Nat) (place : Place) (below : ∀ j, d j ≤ caps j) (most : ∀ j, caps j ≤ rounds)
    (own : caps k = d k) (enough : count + ∑ j, d j ≤ ∑ j, caps j) (low : 0 ≤ num) (high : num + count ≤ intMax) :
    ∃ log d', Runs (Step rounds) ⟨num,placed d k place⟩ log ⟨num + count,placed d' k place⟩ ∧ (∀ j, d j ≤ d' j ∧ d' j ≤ caps j) ∧
      ∑ j, d' j = count + ∑ j, d j := by
  induction count generalizing num d with
  | zero => exact ⟨[],d,by simpa using Runs.nil,fun j => ⟨Nat.le_refl _,below j⟩,(Nat.zero_add _).symm⟩
  | succ count ih =>
    obtain ⟨j,_,less⟩ := Finset.exists_lt_of_sum_lt (s := Finset.univ) (f := d) (g := caps) (by omega)
    have other : j ≠ k := by
      rintro rfl
      omega
    obtain ⟨first,begun⟩ := one_round num d place other (Nat.lt_of_lt_of_le less (most j)) low (by omega)
    have sum : ∑ i, Function.update d j (d j + 1) i = ∑ i, d i + 1 := by
      have split := sum_update (fun _ (x : Nat) => x) d j (d j + 1)
      omega
    have beneath : ∀ i, Function.update d j (d j + 1) i ≤ caps i := update_all (P := fun i x => x ≤ caps i) below less
    have still : caps k = Function.update d j (d j + 1) k := by
      rw [Function.update_of_ne other.symm]
      exact own
    obtain ⟨log,d',run,between,total⟩ := ih (num + 1) (Function.update d j (d j + 1)) beneath still (by omega) (by omega) (by omega)
    have ends : num + 1 + (count : Int) = num + (count + 1 : Nat) := by omega
    rw [ends] at run
    refine ⟨_,d',begun.append run,?_,by omega⟩
    intro i
    refine ⟨Nat.le_trans ?_ (between i).1,(between i).2⟩
    by_cases here : i = j
    · rw [here,Function.update_self]
      exact Nat.le_succ _
    · rw [Function.update_of_ne here]

def resting (d : Fin threads → Nat) : Fin threads → Place := fun j => .looping (d j)

theorem placed_resting (d : Fin threads → Nat) (k : Fin threads) (i : Nat) : placed d k (.looping i) = resting (Function.update d k i) := by
  funext j
  by_cases own : j = k
  · rw [own]
    simp [placed,resting]
  · simp [placed,resting,own]

theorem placed_self (d : Fin threads → Nat) (k : Fin threads) : placed d k (.looping (d k)) = resting d := by
  rw [placed_resting,Function.update_eq_self]

-- A thread stores one more than what it loaded, and what the others have added meanwhile is lost.
theorem overwritten (count : Nat) (num : Int) (d caps : Fin threads → Nat) (below : ∀ j, d j ≤ caps j) (most : ∀ j, caps j ≤ rounds)
    (own : caps k = d k) (more : d k < rounds) (enough : count + ∑ j, d j ≤ ∑ j, caps j) (low : 0 ≤ num)
    (high : num + (∑ j, caps j - ∑ j, d j : Nat) + 1 ≤ intMax) :
    ∃ log, Runs (Step rounds) ⟨num,resting d⟩ log ⟨num + count + 1,resting (Function.update caps k (caps k + 1))⟩ := by
  obtain ⟨first,d',begun,between,sum⟩ := some_rounds (k := k) count num d caps (.looping (d k)) below most own enough low (by omega)
  have same : d' k = d k := Nat.le_antisymm (own ▸ (between k).2) (between k).1
  have here : placed d' k (.looping (d k)) k = .looping (d k) := Function.update_self ..
  have loaded := begun.step (.loads here more)
  have storing : Function.update (placed d' k (.looping (d k))) k (.storing (d k) (num + count)) = placed d' k (.storing (d k) (num + count)) :=
    Function.update_idem ..
  simp only [storing] at loaded
  obtain ⟨second,d'',gone,final,total⟩ := some_rounds (k := k) (∑ j, caps j - ∑ j, d' j) (num + count) d' caps (.storing (d k) (num + count))
    (fun j => (between j).2) most (own.trans same.symm) (by omega) (by omega) (by omega)
  have full : d'' = caps := by
    funext j
    refine (Finset.sum_eq_sum_iff_of_le (fun j _ => (final j).2)).mp ?_ j (Finset.mem_univ j)
    omega
  subst full
  have there : placed d'' k (.storing (d k) (num + count)) k = .storing (d k) (num + count) := Function.update_self ..
  have stored := (loaded.append gone).step (.stores there)
  have exact : toInt (num + count + 1) = num + count + 1 := toInt_inRange (by simp only [intMin]; omega) (by omega)
  have rests : Function.update (placed d'' k (.storing (d k) (num + count))) k (.looping (d k + 1)) = resting (Function.update d'' k (d'' k + 1)) := by
    rw [placed,Function.update_idem,own]
    exact placed_resting d'' k (d k + 1)
  simp only [rests,exact] at stored
  rw [placed_self] at stored
  exact ⟨_,stored⟩

theorem sum_changed (d : Fin threads → Nat) (k : Fin threads) (x : Nat) : ∑ j, Function.update d k x j + d k = ∑ j, d j + x :=
  sum_update (fun _ (x : Nat) => x) d k x

theorem sum_full (threads rounds : Nat) : ∑ _j : Fin threads, rounds = threads * rounds := by
  rw [Finset.sum_const_nat (fun _ _ => rfl),Finset.card_univ,Fintype.card_fin]

theorem resting_finished (rounds : Nat) (num : Int) : Finished rounds (⟨num,resting (fun _ : Fin threads => rounds)⟩ : State threads) := fun _ => rfl

-- One thread loads first and stores last.
theorem single_reached (first : Fin threads) (fits : ((threads * 1 : Nat) : Int) ≤ intMax) (count : Nat) (most : count + 1 ≤ threads) :
    ∃ log, Runs (Step 1) (start threads) log ⟨(count + 1 : Nat),resting (fun _ => 1)⟩ := by
  have sum := sum_changed (fun _ : Fin threads => 1) first 0
  have full := sum_full threads 1
  have none : ∑ _j : Fin threads, 0 = 0 := Finset.sum_const_zero
  have zero : Function.update (fun _ : Fin threads => 1) first 0 first = 0 := Function.update_self ..
  have each : ∀ j, Function.update (fun _ : Fin threads => 1) first 0 j ≤ 1 := update_all (P := fun _ x => x ≤ 1) (fun _ => Nat.le_refl 1) (Nat.zero_le 1)
  have most' : ((∑ j, Function.update (fun _ : Fin threads => 1) first 0 j - 0 : Nat) : Int) + 1 ≤ intMax := by omega
  obtain ⟨log,run⟩ := overwritten (k := first) count 0 (fun _ => 0) _ (fun _ => Nat.zero_le _) each zero Nat.zero_lt_one (by omega) (Int.le_refl 0)
    (by rw [none]; omega)
  rw [zero,Function.update_idem,Function.update_eq_self,zero_add] at run
  exact ⟨log,run⟩

-- One thread loses what the others have added before its first store, and another one what
-- that thread adds before the last store of all.
theorem pair_reached {first last : Fin threads} (apart : first ≠ last) (fits : ((threads * rounds : Nat) : Int) ≤ intMax) (several : 2 ≤ rounds)
    (most : v + 2 ≤ threads * rounds) : ∃ log, Runs (Step rounds) (start threads) log ⟨(v + 2 : Nat),resting (fun _ => rounds)⟩ := by
  have full := sum_full threads rounds
  have none : ∑ _j : Fin threads, 0 = 0 := Finset.sum_const_zero
  obtain ⟨caps,here⟩ : ∃ caps, caps = Function.update (fun _ : Fin threads => rounds) last (rounds - 1) := ⟨_,rfl⟩
  have atLast : caps last = rounds - 1 := by rw [here,Function.update_self]
  have atFirst : caps first = rounds := by rw [here,Function.update_of_ne apart]
  have below : ∀ j, caps j ≤ rounds := by
    rw [here]
    exact update_all (P := fun _ x => x ≤ rounds) (fun _ => Nat.le_refl rounds) (Nat.sub_le rounds 1)
  have total : ∑ j, caps j + rounds = threads * rounds + (rounds - 1) := by
    rw [here,← full]
    exact sum_changed (fun _ => rounds) last (rounds - 1)
  have without := sum_changed caps first 0
  have once := sum_changed caps first 1
  rw [atFirst] at without once
  -- What the first thread loses, and what is lost of its own rounds.
  obtain ⟨early,late,split,few,some⟩ : ∃ early late, early + late = v ∧ early ≤ ∑ j, Function.update caps first 0 j ∧ late ≤ rounds - 1 := by
    refine ⟨min v (∑ j, Function.update caps first 0 j),v - min v (∑ j, Function.update caps first 0 j),?_,?_,?_⟩ <;> omega
  have zero : Function.update caps first 0 first = 0 := Function.update_self ..
  have capped : ∀ j, Function.update caps first 0 j ≤ rounds := update_all (P := fun _ x => x ≤ rounds) below (Nat.zero_le _)
  obtain ⟨log,run⟩ := overwritten (k := first) early 0 (fun _ => 0) _ (fun _ => Nat.zero_le _) capped zero (by omega) (by omega) (Int.le_refl 0)
    (by rw [none]; omega)
  rw [zero,Function.update_idem] at run
  have own : caps last = Function.update caps first 1 last := (Function.update_of_ne apart.symm ..).symm
  have inside : ∀ j, Function.update caps first 1 j ≤ caps j := by
    refine update_all (P := fun j x => x ≤ caps j) (fun _ => Nat.le_refl _) ?_
    omega
  obtain ⟨more,rest⟩ := overwritten (k := last) late (0 + early + 1) (Function.update caps first 1) caps inside below own (by omega) (by omega) (by omega) (by omega)
  have ends : Function.update caps last (caps last + 1) = fun _ => rounds := by
    funext j
    by_cases same : j = last
    · rw [same,Function.update_self]
      omega
    · rw [Function.update_of_ne same,here,Function.update_of_ne same]
  have value : (0 : Int) + early + 1 + late + 1 = (v + 2 : Nat) := by omega
  rw [ends,value] at rest
  exact ⟨_,run.append rest⟩

-- Which numbers main may print.
theorem values_exact (several : 2 ≤ threads) (fits : ((threads * rounds : Nat) : Int) ≤ intMax) (v : Int) :
    (∃ log s, Runs (Step rounds) (start threads) log s ∧ Finished rounds s ∧ s.num = v) ↔ min rounds 2 ≤ v ∧ v ≤ threads * rounds := by
  let first : Fin threads := ⟨0,by omega⟩
  let last : Fin threads := ⟨1,by omega⟩
  have apart : first ≠ last := fun same => absurd (congrArg Fin.val same) Nat.zero_ne_one
  constructor
  · rintro ⟨log,s,run,finished,rfl⟩
    have bounded := run_bounded fits run
    have all : done s.pc = threads * rounds := by
      rw [← sum_full]
      change ∑ k, (s.pc k).done = ∑ _k : Fin threads, rounds
      refine Finset.sum_congr rfl ?_
      intro k _
      rw [finished k]
      rfl
    have ceiling := bounded.ceiling
    rw [all] at ceiling
    refine ⟨?_,by exact_mod_cast ceiling⟩
    rcases bounded.floor with ⟨none,zero⟩ | ⟨k,_,least⟩
    · have early := none first
      rw [finished first] at early
      change rounds = 0 at early
      omega
    · rw [finished k] at least
      exact least
  · rintro ⟨least,most⟩
    have most : v ≤ (threads * rounds : Nat) := by exact_mod_cast most
    match shape : rounds with
    | 0 => exact ⟨[],start threads,.nil,fun _ => rfl,by change (0 : Int) = v; omega⟩
    | 1 =>
      obtain ⟨log,run⟩ := single_reached first fits (v - 1).toNat (by omega)
      exact ⟨log,_,run,resting_finished 1 _,by change ((v - 1).toNat + 1 : Nat) = v; omega⟩
    | rounds + 2 =>
      obtain ⟨log,run⟩ := pair_reached (v := (v - 2).toNat) apart fits (by omega) (by omega)
      exact ⟨log,_,run,resting_finished _ _,by change ((v - 2).toNat + 2 : Nat) = v; omega⟩

end

-- The two threads of main may count up to two.
theorem two_printed : ∃ log s, Runs (Step 100000) (start 2) log s ∧ Finished 100000 s ∧ s.num = 2 :=
  (values_exact (by decide) (by decide) 2).mpr (by decide)

end LinuxCoding.Counter.Unlocked
