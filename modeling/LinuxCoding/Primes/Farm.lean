import Mathlib.Algebra.BigOperators.Fin
import Mathlib.Algebra.BigOperators.Group.Finset.Piecewise
import Mathlib.Algebra.Ring.Nat
import Mathlib.Data.Nat.Prime.Basic
import LinuxCoding.Library.Children
import LinuxCoding.Library.Transition
import LinuxCoding.PrimePool.Ledger
import LinuxCoding.Primes.Trials

-- thread1.c (and primer2.c, the same), thread3.c and thread4.c: processes that search the
-- range, one for each number or N in turn.
namespace LinuxCoding.Primes.Farm
open Children CInt Total Transition Trials
open PrimePool (span mem_span span_nodup)

inductive Program where
  | thread1
  | thread3
  | thread4
  deriving DecidableEq

def procN : Nat := 3

-- The children of the fork loop, and whether main waits for them.
def Program.children (program : Program) (left right : Int) : Nat :=
  match program with
  | .thread4 => procN
  | _ => (right + 1 - left).toNat

def Program.waits : Program → Bool
  | .thread1 => false
  | _ => true

-- A child of thread4.c is at the test of its loop, or at the trial division of a number.
inductive Place where
  | unborn
  | looping (i : Int)
  | testing (i : Int)
  | exiting
  | exited

def Place.born : Place → Bool
  | .unborn => false
  | _ => true

def Place.ended : Place → Bool
  | .exited => true
  | _ => false

structure State (count : Nat) where
  parent : Parent
  pc : Fin count → Place

inductive Event (count : Nat) where
  | forked (p : Fin count)
  | forkFailed
  | reaped
  | exited
  | printed (p : Fin count) (i : Int)

def Program.begins (program : Program) (i : Int) : Place := if program = .thread4 then .looping i else .testing i
def Program.next (program : Program) (i : Int) : Place := if program = .thread4 then .looping (toInt (i + procN)) else .exiting

section
variable {count : Nat}

def start (count : Nat) : State count := ⟨young,fun _ => .unborn⟩

-- A fork that fails ends main at once. The exit of a main that does not wait is left out,
-- since the children go on.
inductive Step (program : Program) (left right : Int) : State count → List (Event count) → State count → Prop where
  | forks (p : Fin count) : s.parent.failed = false → s.parent.born = p.val → Step program left right s [.forked p]
      ⟨{s.parent with born := s.parent.born + 1},Function.update s.pc p (program.begins (toInt (left + p.val)))⟩
  | forkFails : s.parent.failed = false → s.parent.born < count → Step program left right s [.forkFailed] {s with parent := {s.parent with failed := true}}
  | reaps : program.waits = true → s.parent.failed = false → s.parent.born = count → s.parent.reaped < s.parent.born →
      s.parent.reaped < tally Place.ended s.pc → Step program left right s [.reaped] {s with parent := {s.parent with reaped := s.parent.reaped + 1}}
  | exits : program.waits = true → s.parent.failed = false → s.parent.born = count → s.parent.reaped = s.parent.born → s.parent.exited = false →
      Step program left right s [.exited] {s with parent := {s.parent with exited := true}}
  | loops : s.pc p = .looping i → Step program left right s [] {s with pc := Function.update s.pc p (if i ≤ right then .testing i else .exiting)}
  | tests (fuel : Nat) : s.pc p = .testing i → primer2Mark fuel i = some mark →
      Step program left right s (if mark then [.printed p i] else []) {s with pc := Function.update s.pc p (program.next i)}
  | ends : s.pc p = .exiting → Step program left right s [] {s with pc := Function.update s.pc p .exited}

end

-- The loop that stops below i/2 takes 4 for a prime.
def primer (i : Int) : Bool := decide (i = 4 ∨ i.toNat.Prime)

theorem indivisible_prime (low : 2 ≤ i) : Indivisible i ↔ i.toNat.Prime := by
  have whole : ((i.toNat : Nat) : Int) = i := Int.toNat_of_nonneg (by omega)
  rw [Nat.prime_def]
  constructor
  · intro indivisible
    refine ⟨by omega,?_⟩
    intro d divides
    have positive : 0 < d := Nat.pos_of_dvd_of_pos divides (by omega)
    have divisor : (d : Int) ∣ i := by
      rw [← whole]
      exact Int.natCast_dvd_natCast.mpr divides
    rcases indivisible d (by omega) divisor with one | all
    · exact .inl (by omega)
    · exact .inr (by omega)
  · rintro ⟨_,only⟩ d positive divides
    have divisor : d.toNat ∣ i.toNat := by
      refine Int.natCast_dvd_natCast.mp ?_
      rwa [whole,Int.toNat_of_nonneg (by omega)]
    rcases only d.toNat divisor with one | all
    · exact .inl (by omega)
    · exact .inr (by omega)

theorem mark_primer (low : 2 ≤ i) (high : i ≤ intMax) (ran : primer2Mark fuel i = some mark) : mark = primer i := by
  by_cases four : i = 4
  · subst four
    have right : primer 4 = true := decide_eq_true (.inl rfl)
    cases fuel with
    | zero => cases ran
    | succ fuel =>
      rw [right]
      simp only [primer2Mark,trial,belowHalf] at ran
      exact (Option.some.inj ran).symm
  · obtain ⟨_,_,ran',right⟩ := primer2Mark_verdict low high four
    rw [trial_same ran ran',Bool.eq_iff_iff,right,indivisible_prime low,primer,decide_eq_true_iff]
    exact ⟨.inr,fun found => found.resolve_left four⟩

section
variable {program : Program} {left right a b residue : Int}

-- The numbers of a child, in its order.
def turn (residue i : Int) : Bool := (i - residue) % procN = 0
def strided (a right residue : Int) : List Int := (span a (right + 1)).filter (turn residue)

theorem turn_iff : turn residue i = true ↔ (i - residue) % 3 = 0 := by
  rw [turn,decide_eq_true_iff]
  rfl

def Program.work (program : Program) (left right : Int) (p : Nat) : List Int :=
  match program with
  | .thread4 => strided left right (left + p)
  | _ => [left + p]

-- Those it has still to test.
def Program.todo (program : Program) (left right : Int) (p : Nat) : Place → List Int
  | .unborn => program.work left right p
  | .looping i => strided i right (left + p)
  | .testing i => i :: if program = .thread4 then strided (i + procN) right (left + p) else []
  | .exiting => []
  | .exited => []

theorem span_next (low : a < b) : span a b = a :: span (a + 1) b := by
  have length : (b - a).toNat = (b - (a + 1)).toNat + 1 := by omega
  rw [span,length,List.range_succ_eq_map,List.map_cons,List.map_map,span]
  congr 1
  · exact Int.add_zero a
  · refine List.map_congr_left ?_
    intro k _
    change a + ((k + 1 : Nat) : Int) = a + 1 + (k : Int)
    omega

theorem span_nil (high : b ≤ a) : span a b = [] := by
  have none : (b - a).toNat = 0 := by omega
  rw [span,none]
  rfl

theorem strided_nil (high : right < a) (residue : Int) : strided a right residue = [] := by
  rw [strided,span_nil (by omega)]
  rfl

theorem strided_skip (other : turn residue a = false) : strided a right residue = strided (a + 1) right residue := by
  by_cases inside : a < right + 1
  · rw [strided,span_next inside,List.filter_cons_of_neg (by rw [other]; nofun)]
    rfl
  · rw [strided_nil (by omega),strided_nil (by omega)]

-- The numbers that i += N leaves out are not its own.
theorem strided_next (low : a ≤ right) (own : turn residue a = true) : strided a right residue = a :: strided (a + procN) right residue := by
  rw [strided,span_next (by omega),List.filter_cons_of_pos own]
  change a :: strided (a + 1) right residue = a :: strided (a + 3) right residue
  rw [turn_iff] at own
  have first : turn residue (a + 1) = false := by
    rw [← Bool.not_eq_true,turn_iff]
    omega
  have second : turn residue (a + 1 + 1) = false := by
    rw [← Bool.not_eq_true,turn_iff]
    omega
  rw [strided_skip first,strided_skip second,Int.add_assoc,Int.add_assoc]
  rfl

variable {count : Nat} {s u : State count} {p : Fin count} {log emitted : List (Event count)}

def Event.output : Event count → Option Int
  | .printed _ i => some i
  | _ => none

def Event.by (p : Fin count) : Event count → Option Int
  | .printed q i => if q = p then some i else none
  | _ => none

def printed (log : List (Event count)) : List Int := log.filterMap Event.output
def share (p : Fin count) (log : List (Event count)) : List Int := log.filterMap (Event.by p)

theorem share_append (p : Fin count) (log emitted : List (Event count)) : share p (log ++ emitted) = share p log ++ share p emitted :=
  List.filterMap_append

-- What is printed is printed by one of the children.
theorem printed_shares (log : List (Event count)) (i : Int) : (printed log).count i = ∑ p, (share p log).count i := by
  induction log with
  | nil => exact (Finset.sum_eq_zero (fun _ _ => rfl)).symm
  | cons event rest ih =>
    cases event with
    | printed q j =>
      have each : ∀ p, (share p (.printed q j :: rest)).count i = (share p rest).count i + if q = p then (if j = i then 1 else 0) else 0 := by
        intro p
        by_cases own : q = p
        · have mine : share p (.printed q j :: rest) = j :: share p rest := List.filterMap_cons_some (if_pos own)
          rw [mine,List.count_cons,if_pos own]
          simp only [beq_iff_eq]
        · have other : share p (.printed q j :: rest) = share p rest := List.filterMap_cons_none (if_neg own)
          rw [other,if_neg own,Nat.add_zero]
      have first : printed (.printed q j :: rest) = j :: printed rest := List.filterMap_cons_some rfl
      rw [first,List.count_cons,ih,Finset.sum_congr rfl (fun p _ => each p),Finset.sum_add_distrib,Finset.sum_ite_eq,if_pos (Finset.mem_univ q)]
      simp only [beq_iff_eq]
    | forked | forkFailed | reaped | exited => exact ih

-- Where a child is.
def Program.inside (program : Program) (left right : Int) (p : Nat) : Place → Prop
  | .unborn => True
  | .looping i => program = .thread4 ∧ left ≤ i ∧ i ≤ right + procN ∧ turn (left + p) i = true
  | .testing i => left ≤ i ∧ i ≤ right ∧ (program = .thread4 → turn (left + p) i = true)
  | .exiting => True
  | .exited => True

structure Shared (program : Program) (left right : Int) (log : List (Event count)) (p : Fin count) (place : Place) : Prop where
  inside : program.inside left right p place
  split : share p log ++ (program.todo left right p place).filter primer = (program.work left right p).filter primer

structure Ledger (program : Program) (left right : Int) (log : List (Event count)) (s : State count) : Prop where
  family : Family Place.born Place.ended s.parent s.pc
  whole : s.parent.exited = true → s.parent.born = count
  shared : ∀ p, Shared program left right log p (s.pc p)

theorem Shared.silent (shared : Shared program left right log p place) (silent : share p emitted = []) : Shared program left right (log ++ emitted) p place := by
  refine ⟨shared.inside,?_⟩
  rw [share_append,silent,List.append_nil]
  exact shared.split

theorem Shared.goes (shared : Shared program left right log p place) (inside : program.inside left right p after)
    (split : share p emitted ++ (program.todo left right p after).filter primer = (program.todo left right p place).filter primer) :
    Shared program left right (log ++ emitted) p after := by
  refine ⟨inside,?_⟩
  rw [share_append,List.append_assoc,split]
  exact shared.split

-- A step of the child p prints for nobody else.
theorem Ledger.others (ledger : Ledger program left right log s) (silent : ∀ q, q ≠ p → share q emitted = []) (own : Shared program left right (log ++ emitted) p place)
    (q : Fin count) : Shared program left right (log ++ emitted) q (Function.update s.pc p place q) := by
  by_cases same : q = p
  · rw [same,Function.update_self]
    exact own
  · rw [Function.update_of_ne same]
    exact (ledger.shared q).silent (silent q same)

theorem strided_begins {p : Nat} (small : p < procN) : strided left right (left + p) = strided (left + p) right (left + p) := by
  have skips : ∀ a, a < left + p → left ≤ a → strided a right (left + p) = strided (a + 1) right (left + p) := by
    intro a below low
    refine strided_skip ?_
    unfold procN at small
    rw [← Bool.not_eq_true,turn_iff]
    omega
  unfold procN at small
  match p with
  | 0 => rw [Int.natCast_zero,Int.add_zero]
  | 1 => exact skips left (by omega) (by omega)
  | 2 => exact (skips left (by omega) (by omega)).trans ((skips (left + 1) (by omega) (by omega)).trans (by rw [Int.add_assoc]; rfl))

structure Ranges (program : Program) (left right : Int) (count : Nat) : Prop where
  low : 2 ≤ left
  order : left ≤ right
  high : right + procN ≤ intMax
  size : count = program.children left right

theorem Ranges.begins (ranges : Ranges program left right count) (shared : Shared program left right log p .unborn) :
    Shared program left right (log ++ []) p (program.begins (toInt (left + p.val))) := by
  obtain ⟨low,order,high,size⟩ := ranges
  have inside := p.isLt
  unfold procN at high
  cases program with
  | thread4 =>
    have small : p.val < procN := Nat.lt_of_lt_of_eq inside size
    have few : p.val < 3 := small
    have value : toInt (left + p.val) = left + p.val := toInt_of_nonneg (by omega) (by omega)
    rw [value]
    refine shared.goes ⟨rfl,by omega,by unfold procN; omega,?_⟩ ?_
    · rw [turn_iff,Int.sub_self]
      rfl
    · change [] ++ (strided (left + p.val) right (left + p.val)).filter primer = (strided left right (left + p.val)).filter primer
      rw [strided_begins small,List.nil_append]
  | thread1 | thread3 =>
    have most : p.val < (right + 1 - left).toNat := Nat.lt_of_lt_of_eq inside size
    have value : toInt (left + p.val) = left + p.val := toInt_of_nonneg (by omega) (by omega)
    rw [value]
    exact shared.goes ⟨by omega,by omega,nofun⟩ rfl

theorem begins_born (program : Program) (i : Int) : (program.begins i).born = true ∧ (program.begins i).ended = false := by
  unfold Program.begins
  split <;> exact ⟨rfl,rfl⟩

theorem unborn_of {place : Place} (young : place.born = false) : place = .unborn := by
  cases place <;> first | rfl | cases young

theorem Shared.loops (shared : Shared program left right log p (.looping i)) :
    Shared program left right (log ++ []) p (if i ≤ right then .testing i else .exiting) := by
  obtain ⟨thread4,low,_,own⟩ := shared.inside
  by_cases more : i ≤ right
  · rw [if_pos more]
    refine shared.goes ⟨low,more,fun _ => own⟩ ?_
    change [] ++ (i :: if program = .thread4 then strided (i + procN) right (left + p.val) else []).filter primer = (strided i right (left + p.val)).filter primer
    rw [if_pos thread4,← strided_next more own,List.nil_append]
  · rw [if_neg more]
    refine shared.goes trivial ?_
    change [] ++ [].filter primer = (strided i right (left + p.val)).filter primer
    rw [strided_nil (by omega)]
    rfl

theorem share_printed (p : Fin count) (i : Int) (mark : Bool) : share p (if mark then [.printed p i] else []) = if mark then [i] else [] := by
  cases mark with
  | false => rfl
  | true => exact List.filterMap_cons_some (if_pos rfl)

theorem share_others (other : q ≠ p) (i : Int) (mark : Bool) : share q (if mark then [(.printed p i : Event count)] else []) = [] := by
  cases mark with
  | false => rfl
  | true => exact List.filterMap_cons_none (if_neg other.symm)

theorem Ranges.tests (ranges : Ranges program left right count) (shared : Shared program left right log p (.testing i)) (ran : primer2Mark fuel i = some mark) :
    Shared program left right (log ++ if mark then [.printed p i] else []) p (program.next i) := by
  obtain ⟨low,order,high,_⟩ := ranges
  obtain ⟨least,most,own⟩ := shared.inside
  unfold procN at high
  have right := mark_primer (by omega) (by omega) ran
  subst right
  have cut : ∀ rest : List Int, (if primer i then [i] else []) ++ rest.filter primer = (i :: rest).filter primer := by
    intro rest
    rw [List.filter_cons]
    split <;> rfl
  cases program with
  | thread4 =>
    have value : toInt (i + procN) = i + procN := toInt_of_nonneg (by unfold procN; omega) (by unfold procN; omega)
    change Shared .thread4 left _ _ p (.looping (toInt (i + procN)))
    rw [value]
    refine shared.goes ⟨rfl,by unfold procN; omega,by omega,?_⟩ ?_
    · have mine := own rfl
      rw [turn_iff] at mine ⊢
      unfold procN
      omega
    · rw [share_printed]
      exact cut _
  | thread1 | thread3 =>
    refine shared.goes trivial ?_
    rw [share_printed]
    exact cut []

theorem Ledger.here (ledger : Ledger program left right log s) (here : s.pc p = place) : Shared program left right log p place := by
  rw [← here]
  exact ledger.shared p

theorem step_ledger (ranges : Ranges program left right count) (ledger : Ledger program left right log s) (taken : Step program left right s emitted u) :
    Ledger program left right (log ++ emitted) u := by
  have family := ledger.family
  have whole := ledger.whole
  cases taken with
  | forks p going turn =>
    have unborn := unborn_of (family.unborn turn)
    obtain ⟨lives,alive⟩ := begins_born program (toInt (left + p.val))
    have begun := ranges.begins (ledger.here unborn)
    rw [List.append_nil] at begun
    refine ⟨family.forks going turn lives alive (by rw [unborn]; rfl),?_,ledger.others (fun _ _ => rfl) (begun.silent rfl)⟩
    intro exited
    have all := whole exited
    have inside := p.isLt
    omega
  | forkFails => exact ⟨family.fails,whole,fun q => (ledger.shared q).silent rfl⟩
  | reaps waits going all less more => exact ⟨family.reaps less more,whole,fun q => (ledger.shared q).silent rfl⟩
  | exits waits going all reaped => exact ⟨family.exits (.inr all) reaped,fun _ => all,fun q => (ledger.shared q).silent rfl⟩
  | loops here =>
    refine ⟨family.goes here rfl ?_,whole,ledger.others (fun _ _ => rfl) (ledger.here here).loops⟩
    split <;> rfl
  | tests fuel here ran =>
    refine ⟨family.goes here rfl ?_,whole,ledger.others (fun q other => share_others other _ _) (ranges.tests (ledger.here here) ran)⟩
    unfold Program.next
    split <;> rfl
  | ends here => exact ⟨family.goes here rfl rfl,whole,ledger.others (fun _ _ => rfl) ((ledger.here here).goes trivial rfl)⟩

theorem start_shared (program : Program) (left right : Int) (p : Fin count) : Shared program left right [] p .unborn := ⟨trivial,rfl⟩

theorem run_ledger (ranges : Ranges program left right count) (run : Runs (Step program left right) (start count) log s) :
    Ledger program left right log s := by
  refine run.invariant (I := Ledger program left right) (fun _ _ _ _ ledger taken => step_ledger ranges ledger taken) ⟨?_,?_,start_shared program left right⟩
  · exact young_family Place.born Place.ended (fun _ => rfl)
  · intro exited
    cases exited

theorem singles_count (f : Nat → Int) (count : Nat) (i : Int) : ∑ p : Fin count, [f p.val].count i = ((List.range count).map f).count i := by
  induction count with
  | zero => rfl
  | succ count ih =>
    rw [Fin.sum_univ_castSucc,List.range_succ,List.map_append,List.count_append]
    exact congrArg (· + [f count].count i) ih

theorem strided_count (a right residue i : Int) : (strided a right residue).count i = if turn residue i then (span a (right + 1)).count i else 0 := by
  by_cases own : turn residue i = true
  · rw [if_pos own,strided,List.count_filter own]
  · rw [if_neg own]
    exact List.count_eq_zero.mpr (fun member => own (List.of_mem_filter member))

-- Each number is the work of one child.
theorem work_count (program : Program) (left right i : Int) :
    ∑ p : Fin (program.children left right), (program.work left right p.val).count i = (span left (right + 1)).count i := by
  cases program with
  | thread1 | thread3 => exact singles_count (fun p => left + p) (right + 1 - left).toNat i
  | thread4 =>
    change ∑ p : Fin 3, (strided left right (left + (p.val : Int))).count i = _
    rw [Fin.sum_univ_three]
    simp only [strided_count,turn_iff]
    generalize (span left (right + 1)).count i = here
    change ((if (i - (left + 0)) % 3 = 0 then here else 0) + if (i - (left + 1)) % 3 = 0 then here else 0) +
      (if (i - (left + 2)) % 3 = 0 then here else 0) = here
    split <;> split <;> split <;> omega

def primers (left right : Int) : List Int := (span left (right + 1)).filter primer

-- The child has tested all its numbers.
def Place.done : Place → Bool
  | .exiting => true
  | .exited => true
  | _ => false

theorem Shared.finished (shared : Shared program left right log p place) (done : place.done = true) :
    share p log = (program.work left right p.val).filter primer := by
  have split := shared.split
  cases place with
  | exiting | exited => exact (List.append_nil _).symm.trans split
  | unborn | looping | testing => cases done

theorem sorted_printed {log : List (Event (program.children left right))} {s : State (program.children left right)} (ledger : Ledger program left right log s) (done : ∀ p, (s.pc p).done = true) :
    (printed log).Perm (primers left right) := by
  rw [List.perm_iff_count]
  intro i
  rw [printed_shares]
  have each : ∀ p : Fin (program.children left right), (share p log).count i = if primer i then (program.work left right p.val).count i else 0 := by
    intro p
    rw [(ledger.shared p).finished (done p)]
    by_cases found : primer i = true
    · rw [if_pos found,List.count_filter found]
    · rw [if_neg found]
      exact List.count_eq_zero.mpr (fun member => found (List.of_mem_filter member))
  rw [Finset.sum_congr rfl (fun p _ => each p),primers]
  by_cases found : primer i = true
  · simp only [if_pos found]
    rw [work_count,List.count_filter found]
  · simp only [if_neg found]
    rw [Finset.sum_const_zero]
    exact (List.count_eq_zero.mpr (fun member => found (List.of_mem_filter member))).symm

theorem Ranges.returns (ranges : Ranges program left right count) (low : left ≤ i) (high : i ≤ right) : ∃ fuel mark, primer2Mark fuel i = some mark := by
  obtain ⟨least,_,most,_⟩ := ranges
  unfold procN at most
  obtain ⟨fuel,mark,ran,_⟩ := (half_cut (i := i) (by omega) (by omega)).verdict
  exact ⟨fuel,mark,ran⟩

def Ended (program : Program) (s : State count) : Prop :=
  (∀ p, s.pc p = .exited ∨ s.parent.failed = true ∧ s.pc p = .unborn) ∧ (program.waits = true → s.parent.failed = false → s.parent.exited = true)

theorem child_ends (ranges : Ranges program left right count) (ledger : Ledger program left right log s) (stuck : Stuck (Step program left right) s)
    (p : Fin count) : s.pc p = .exited ∨ s.parent.failed = true ∧ s.pc p = .unborn := by
  cases here : s.pc p with
  | exited => exact .inl rfl
  | looping i => exact absurd (.loops here) (stuck _ _)
  | testing i =>
    obtain ⟨low,high,_⟩ := (ledger.here here).inside
    obtain ⟨fuel,mark,ran⟩ := ranges.returns low high
    exact absurd (.tests fuel here ran) (stuck _ _)
  | exiting => exact absurd (.ends here) (stuck _ _)
  | unborn =>
    refine .inr ⟨?_,rfl⟩
    by_contra passing
    have young := ledger.family.each p
    rw [here] at young
    have few : ¬ p.val < s.parent.born := of_decide_eq_false young.symm
    have inside := p.isLt
    exact stuck _ _ (.forks ⟨s.parent.born,by omega⟩ (eq_false_of_ne_true passing) rfl)

theorem stuck_ended (ranges : Ranges program left right count) (ledger : Ledger program left right log s) (stuck : Stuck (Step program left right) s) :
    Ended program s := by
  have gone := child_ends ranges ledger stuck
  refine ⟨gone,?_⟩
  intro waits passing
  have exited : ∀ p, (s.pc p).ended = true := by
    intro p
    rcases gone p with here | ⟨failed,_⟩
    · rw [here]
      rfl
    · rw [passing] at failed
      cases failed
  have born : ∀ p, (s.pc p).born = true := by
    intro p
    cases here : s.pc p with
    | unborn =>
      have ended := exited p
      rw [here] at ended
      cases ended
    | looping | testing | exiting | exited => rfl
  have all : s.parent.born = count := by
    rw [← ledger.family.children,tally_full born,Fintype.card_fin]
  have full : tally Place.ended s.pc = count := by
    rw [tally_full exited,Fintype.card_fin]
  by_contra going
  by_cases reaped : s.parent.reaped = s.parent.born
  · exact stuck _ _ (.exits waits passing all reaped (eq_false_of_ne_true going))
  · have less := Nat.lt_of_le_of_ne ledger.family.reaped reaped
    exact stuck _ _ (.reaps waits passing all less (by omega))

theorem ended_stuck (ledger : Ledger program left right log s) (ended : Ended program s) : Stuck (Step program left right) s := by
  obtain ⟨gone,main⟩ := ended
  intro emitted u taken
  cases taken with
  | forks p going turn =>
    have unborn := ledger.family.unborn turn
    rcases gone p with here | ⟨failed,_⟩
    · rw [here] at unborn
      cases unborn
    · rw [going] at failed
      cases failed
  | forkFails going fewer =>
    have unborn := ledger.family.unborn (p := ⟨s.parent.born,fewer⟩) rfl
    rcases gone ⟨s.parent.born,fewer⟩ with here | ⟨failed,_⟩
    · rw [here] at unborn
      cases unborn
    · rw [going] at failed
      cases failed
  | reaps waits going all less =>
    have reaped := (ledger.family.last (main waits going)).2
    omega
  | exits waits going all reaped running =>
    rw [main waits going] at running
    cases running
  | loops here | tests _ here | ends here =>
    rcases gone _ with there | ⟨_,there⟩ <;> rw [here] at there <;> cases there

structure Searched (program : Program) (left right : Int) (log : List (Event count)) (s : State count) : Prop where
  order : ∀ p, share p log <+: (program.work left right p.val).filter primer
  all : (∀ p, (s.pc p).done = true) → (printed log).Perm (primers left right)
  waited : s.parent.exited = true → ∀ p, s.pc p = .exited
  ends : Stuck (Step program left right) s ↔ Ended program s

end

end LinuxCoding.Primes.Farm
