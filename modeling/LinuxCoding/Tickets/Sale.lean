import LinuxCoding.Library.CInt
import LinuxCoding.Library.Mutex
import LinuxCoding.Library.Transition
import Mathlib.Data.List.Nodup

-- homework/tickets.c: threads sell tickets, locking before the loop and unlocking in it.
namespace LinuxCoding.Tickets
open CInt Mutex Transition

-- Before the lock, at the test, before tickets--, before the unlock, behind the loop.
inductive Place where
  | locking
  | testing
  | selling
  | unlocking
  | exited

structure State (τ : Type) where
  tickets : Int
  owner : Option τ
  pc : τ → Place

-- With a sale and an unlock goes whether the thread holds the mutex.
inductive Event (τ : Type) where
  | locked (t : τ)
  | tested (t : τ)
  | sold (t : τ) (n : Int) (held : Bool)
  | unlocked (t : τ) (held : Bool)

section
variable {τ : Type}

def start (τ : Type) (tickets : IntValue) : State τ := ⟨tickets.val,none,fun _ => .locking⟩

def Event.number : Event τ → Option Int
  | .sold _ n _ => some n
  | _ => none

def Event.guarded : Event τ → Bool
  | .sold _ _ held => held
  | .unlocked _ held => held
  | _ => true

def sold (log : List (Event τ)) : List Int := log.filterMap Event.number

structure Sold (tickets : Int) (log : List (Event τ)) (s : State τ) : Prop where
  once : (sold log).Nodup
  within : ∀ n ∈ sold log, 1 ≤ n ∧ n ≤ tickets
  all : ∀ t, s.pc t = .exited → ∀ n, 1 ≤ n → n ≤ tickets → n ∈ sold log
  guarded : ∀ event ∈ log, event.guarded = true
  unblocked : ∀ t u, s.owner = some t → s.pc t = .exited → s.pc u ≠ .locking

-- The tickets that have been sold lie above those that are left.
structure Ledger (tickets left : Int) (log : List (Event τ)) : Prop where
  small : left ≤ tickets
  floor : left < tickets → 0 ≤ left
  once : (sold log).Nodup
  numbers : ∀ n, n ∈ sold log ↔ left < n ∧ n ≤ tickets
  guarded : ∀ event ∈ log, event.guarded = true

-- As long as the program is orderly, a thread sells and unlocks with the mutex held, and a
-- thread that leaves with it leaves nobody behind.
structure Places (left : Int) (owner : Option τ) (pc : τ → Place) : Prop where
  sells : ∀ t, pc t = .selling → owner = some t ∧ 0 < left
  unlocks : ∀ t, pc t = .unlocking → owner = some t
  exited : ∀ t, pc t = .exited → left ≤ 0
  unblocked : ∀ t u, owner = some t → pc t = .exited → pc u ≠ .locking

theorem start_ledger (tickets : Int) : Ledger tickets tickets ([] : List (Event τ)) := by
  refine ⟨Int.le_refl _,fun less => absurd less (Int.lt_irrefl _),.nil,fun n => ?_,nofun⟩
  change n ∈ [] ↔ tickets < n ∧ n ≤ tickets
  simp

theorem start_places (tickets : IntValue) : Places tickets.val (start τ tickets).owner (start τ tickets).pc := ⟨nofun,nofun,nofun,nofun⟩

theorem Ledger.silent {log : List (Event τ)} {event : Event τ} (ledger : Ledger tickets left log) (silent : event.number = none)
    (guarded : event.guarded = true) : Ledger tickets left (log ++ [event]) := by
  have same : sold (log ++ [event]) = sold log := by simp [sold,silent]
  refine ⟨ledger.small,ledger.floor,?_,?_,?_⟩
  · rw [same]
    exact ledger.once
  · rw [same]
    exact ledger.numbers
  · exact List.forall_mem_append.mpr ⟨ledger.guarded,List.forall_mem_singleton.mpr guarded⟩

theorem Ledger.sell {log : List (Event τ)} (ledger : Ledger tickets left log) (some : 0 < left) (t : τ) :
    Ledger tickets (left - 1) (log ++ [.sold t left true]) := by
  have more : sold (log ++ [.sold t left true]) = sold log ++ [left] := by simp [sold,Event.number]
  have small := ledger.small
  have fresh : left ∉ sold log := by
    intro member
    have above := ((ledger.numbers left).mp member).1
    omega
  refine ⟨by omega,fun _ => by omega,?_,?_,?_⟩
  · rw [more]
    exact ledger.once.append (List.nodup_singleton _) (fun n earlier new => fresh (List.mem_singleton.mp new ▸ earlier))
  · intro n
    rw [more,List.mem_append,List.mem_singleton,ledger.numbers]
    omega
  · exact List.forall_mem_append.mpr ⟨ledger.guarded,List.forall_mem_singleton.mpr rfl⟩

-- What the two parts say together.
theorem Ledger.law {log : List (Event τ)} {s : State τ} (ledger : Ledger tickets s.tickets log) (places : Places s.tickets s.owner s.pc) :
    Sold tickets log s := by
  refine ⟨ledger.once,?_,?_,ledger.guarded,places.unblocked⟩
  · intro n member
    obtain ⟨above,below⟩ := (ledger.numbers n).mp member
    have floor := ledger.floor (by omega)
    omega
  · intro t gone n low high
    have none := places.exited t gone
    exact (ledger.numbers n).mpr ⟨by omega,high⟩

theorem holder_alone {owner : Option τ} (holds : owner = some t) (apart : v ≠ t) : owner ≠ some v := by
  intro owned
  rw [holds] at owned
  exact apart (Option.some.inj owned).symm

theorem Places.inside {pc : τ → Place} (places : Places left owner pc) (some : 0 < left) (v : τ) : pc v ≠ .exited := by
  intro gone
  have done := places.exited v gone
  omega

variable [DecidableEq τ]

def State.go (s : State τ) (t : τ) (place : Place) : State τ := {s with pc := Function.update s.pc t place}

-- sale_tickets. An unlock of a default mutex does not ask who holds it.
inductive Step : State τ → List (Event τ) → State τ → Prop where
  | locks : s.pc t = .locking → s.owner = none → Step s [.locked t] {s.go t .testing with owner := some t}
  | breaks : s.pc t = .testing → s.tickets ≤ 0 → Step s [.tested t] (s.go t .exited)
  | tests : s.pc t = .testing → 0 < s.tickets → Step s [.tested t] (s.go t .selling)
  | sells : s.pc t = .selling →
      Step s [.sold t s.tickets (s.owner = some t)] {s.go t .unlocking with tickets := toInt (s.tickets - 1)}
  | unlocks : s.pc t = .unlocking → Step s [.unlocked t (s.owner = some t)] {s.go t .testing with owner := none}

-- A thread that comes to the test a second time, without the mutex, finds no ticket left;
-- one that comes with it finds a ticket, or every other thread has locked before.
def Orderly (s : State τ) (emitted : List (Event τ)) : Prop :=
  ∀ t, .tested t ∈ emitted → if s.owner = some t then 0 < s.tickets ∨ ∀ u, s.pc u ≠ .locking else s.tickets ≤ 0

variable {pc : τ → Place} {t v : τ} {owner : Option τ} {left : Int}

theorem Places.locks (places : Places left none pc) : Places left (some t) (Function.update pc t .testing) := by
  refine ⟨?_,?_,?_,?_⟩
  · intro v there
    have owned := (places.sells v (elsewhere there (by simp)).2).1
    cases owned
  · intro v there
    have owned := places.unlocks v (elsewhere there (by simp)).2
    cases owned
  · intro v there
    exact places.exited v (elsewhere there (by simp)).2
  · intro v w owned there
    exact absurd (Option.some.inj owned).symm (elsewhere there (by simp)).1

theorem Places.breaks (places : Places left owner pc) (none : left ≤ 0) (last : owner = some t → ∀ v, pc v ≠ .locking) :
    Places left owner (Function.update pc t .exited) := by
  refine ⟨?_,?_,fun _ _ => none,?_⟩
  · intro v there
    exact places.sells v (elsewhere there (by simp)).2
  · intro v there
    exact places.unlocks v (elsewhere there (by simp)).2
  · intro v w owned there waits
    have waiting := (elsewhere waits (by simp)).2
    by_cases own : v = t
    · exact last (own ▸ owned) w waiting
    · rw [Function.update_of_ne own] at there
      exact places.unblocked v w owned there waiting

theorem Places.tests (places : Places left owner pc) (some : 0 < left) (holds : owner = .some t) :
    Places left owner (Function.update pc t .selling) := by
  have inside := places.inside some
  refine ⟨?_,?_,?_,?_⟩
  · intro v there
    by_cases own : v = t
    · exact ⟨own ▸ holds,some⟩
    · rw [Function.update_of_ne own] at there
      exact places.sells v there
  · intro v there
    exact places.unlocks v (elsewhere there (by simp)).2
  · intro v there
    exact absurd (elsewhere there (by simp)).2 (inside v)
  · intro v w _ there
    exact absurd (elsewhere there (by simp)).2 (inside v)

-- The holder is the only one that sells or unlocks.
theorem Places.sell (places : Places left owner pc) (place : pc t = .selling) : Places (left - 1) owner (Function.update pc t .unlocking) := by
  obtain ⟨holds,some⟩ := places.sells t place
  have inside := places.inside some
  refine ⟨?_,?_,?_,?_⟩
  · intro v there
    obtain ⟨apart,selling⟩ := elsewhere there (by simp)
    exact absurd (places.sells v selling).1 (holder_alone holds apart)
  · intro v there
    by_cases own : v = t
    · exact own ▸ holds
    · rw [Function.update_of_ne own] at there
      exact places.unlocks v there
  · intro v there
    exact absurd (elsewhere there (by simp)).2 (inside v)
  · intro v w _ there
    exact absurd (elsewhere there (by simp)).2 (inside v)

theorem Places.unlock (places : Places left owner pc) (place : pc t = .unlocking) : Places left none (Function.update pc t .testing) := by
  have holds := places.unlocks t place
  refine ⟨?_,?_,?_,nofun⟩
  · intro v there
    obtain ⟨apart,selling⟩ := elsewhere there (by simp)
    exact absurd (places.sells v selling).1 (holder_alone holds apart)
  · intro v there
    obtain ⟨apart,unlocking⟩ := elsewhere there (by simp)
    exact absurd (places.unlocks v unlocking) (holder_alone holds apart)
  · intro v there
    exact places.exited v (elsewhere there (by simp)).2

variable {s u : State τ} {log emitted : List (Event τ)} {tickets : IntValue}

theorem step_places (fits : s.tickets ≤ intMax) (places : Places s.tickets s.owner s.pc) (taken : Where Step Orderly s emitted u) :
    Places u.tickets u.owner u.pc := by
  obtain ⟨taken,orderly⟩ := taken
  cases taken with
  | locks place free =>
    rw [free] at places
    exact places.locks
  | breaks place none =>
    refine places.breaks none fun holds => ?_
    have last := orderly _ (List.mem_singleton_self _)
    rw [if_pos holds] at last
    exact last.resolve_left (Int.not_lt.mpr none)
  | tests place some =>
    refine places.tests some ?_
    by_contra without
    have empty := orderly _ (List.mem_singleton_self _)
    rw [if_neg without] at empty
    omega
  | sells place =>
    have some := (places.sells _ place).2
    rw [toInt_of_nonneg (by omega) (by omega)]
    exact places.sell place
  | unlocks place => exact places.unlock place

theorem step_ledger (fits : s.tickets ≤ intMax) (places : Places s.tickets s.owner s.pc) (ledger : Ledger most s.tickets log)
    (taken : Step s emitted u) : Ledger most u.tickets (log ++ emitted) := by
  cases taken with
  | locks => exact ledger.silent rfl rfl
  | breaks => exact ledger.silent rfl rfl
  | tests => exact ledger.silent rfl rfl
  | sells place =>
    obtain ⟨holds,some⟩ := places.sells _ place
    rw [toInt_of_nonneg (by omega) (by omega),decide_eq_true holds]
    exact ledger.sell some _
  | unlocks place => exact ledger.silent rfl (decide_eq_true (places.unlocks _ place))

theorem orderly_run (run : Runs (Where Step Orderly) (start τ tickets) log s) :
    Ledger tickets.val s.tickets log ∧ Places s.tickets s.owner s.pc := by
  refine run.invariant (I := fun log s => Ledger tickets.val s.tickets log ∧ Places s.tickets s.owner s.pc) ?_
    ⟨start_ledger tickets.val,start_places tickets⟩
  rintro log s emitted u ⟨ledger,places⟩ taken
  have fits : s.tickets ≤ intMax := Int.le_trans ledger.small tickets.property.2
  exact ⟨step_ledger fits places ledger taken.1,step_places fits places taken⟩

-- Any other step is the beginning of a sale without the mutex, or leaves a thread behind.
theorem disorderly (taken : Step s emitted u) (disorder : ¬ Orderly s emitted) (log : List (Event τ)) (most : Int) :
    ∃ more v, Runs Step u more v ∧ ¬ Sold most (log ++ emitted ++ more) v := by
  cases taken with
  | locks => exact absurd (fun t member => by simp at member) disorder
  | sells => exact absurd (fun t member => by simp at member) disorder
  | unlocks => exact absurd (fun t member => by simp at member) disorder
  | @breaks t place none =>
    refine ⟨[],_,.nil,fun law => disorder ?_⟩
    intro v member
    cases List.mem_singleton.mp member
    split
    · rename_i holds
      refine .inr fun w waits => ?_
      have apart : w ≠ t := by
        intro same
        rw [same,place] at waits
        cases waits
      refine law.unblocked t w holds (Function.update_self _ _ _) ?_
      change Function.update s.pc t .exited w = .locking
      rw [Function.update_of_ne apart]
      exact waits
    · exact none
  | @tests t place some =>
    have without : ¬ s.owner = .some t := by
      intro holds
      refine disorder fun v member => ?_
      cases List.mem_singleton.mp member
      rw [if_pos holds]
      exact .inl some
    have next : (s.go t .selling).pc t = .selling := Function.update_self _ _ _
    refine ⟨_,_,.one (.sells next),fun law => ?_⟩
    have held := law.guarded (.sold t s.tickets (decide (s.owner = .some t))) (List.mem_append_right _ (List.mem_singleton_self _))
    exact without (of_decide_eq_true held)

theorem sale_exact (run : Runs (Where Step Orderly) (start τ tickets) log s) :
    Sold tickets.val log s ∧ ∀ emitted u, Step s emitted u → ¬ Orderly s emitted →
      ∃ more v, Runs Step u more v ∧ ¬ Sold tickets.val (log ++ emitted ++ more) v := by
  obtain ⟨ledger,places⟩ := orderly_run run
  exact ⟨ledger.law places,fun _ _ taken disorder => disorderly taken disorder log tickets.val⟩

end

def one : IntValue := store 1
def hundred : IntValue := store 100

-- A single thread sells the only ticket, and leaves without the mutex.
theorem one_sold : ∃ log s, Runs (Where Step Orderly) (start Unit one) log s ∧ s.pc () = .exited ∧ sold log = [1] ∧ Sold 1 log s := by
  have begins : Runs (Where Step Orderly) (start Unit one) [] (start Unit one) := .nil
  have locked := begins.step ⟨.locks (t := ()) rfl rfl,fun _ member => by simp at member⟩
  have tested := locked.step ⟨.tests (t := ()) rfl (by decide),fun _ member => by rw [if_pos rfl]; exact .inl (by decide)⟩
  have sold := tested.step ⟨.sells (t := ()) rfl,fun _ member => by simp at member⟩
  have unlocked := sold.step ⟨.unlocks (t := ()) rfl,fun _ member => by simp at member⟩
  have left := unlocked.step ⟨.breaks (t := ()) rfl (by decide),fun _ member => by rw [if_neg (by simp)]; decide⟩
  exact ⟨_,_,left,rfl,rfl,(sale_exact left).1⟩

-- The first of three threads goes round the loop, and sells its second ticket unlocked.
theorem second_unlocked : ∃ log s, Runs Step (start (Fin 3) hundred) log s ∧ .sold 0 99 false ∈ log ∧ ¬ Sold 100 log s := by
  have begins : Runs Step (start (Fin 3) hundred) [] (start (Fin 3) hundred) := .nil
  have first := ((begins.step (.locks (t := 0) rfl rfl)).step (.tests (t := 0) rfl (by decide))).step (.sells (t := 0) rfl)
  have second := ((first.step (.unlocks (t := 0) rfl)).step (.tests (t := 0) rfl (by decide))).step (.sells (t := 0) rfl)
  refine ⟨_,_,second,List.mem_append_right _ (List.mem_singleton_self _),fun law => ?_⟩
  have held := law.guarded (.sold 0 99 false) (List.mem_append_right _ (List.mem_singleton_self _))
  cases held

end LinuxCoding.Tickets
