import Mathlib.Data.Int.Interval
import LinuxCoding.Library.Mutex
import LinuxCoding.Library.Total
import LinuxCoding.Library.Transition
import LinuxCoding.Primes.Trials

-- thread/posix/Newer/second.c: threads draw the numbers to examine from a shared counter.
namespace LinuxCoding.Primes.Counter
open CInt Mutex Total Transition Trials

-- Before the lock, in the lock section before and after its two statements, at the test
-- of the number drawn, behind the loop.
inductive Place where
  | locking
  | drawing
  | unlocking (n : Int)
  | testing (n : Int)
  | exited

def Place.holds : Place → Bool
  | .drawing => true
  | .unlocking _ => true
  | _ => false

structure State (threads : Nat) where
  count : Int
  owner : Option (Fin threads)
  pc : Fin threads → Place

inductive Event (threads : Nat) where
  | locked (t : Fin threads)
  | drew (t : Fin threads) (n : Int)
  | unlocked (t : Fin threads)
  | examined (t : Fin threads) (n : Int)
  | printed (t : Fin threads) (n : Int)
  | left (t : Fin threads)

section
variable {threads : Nat}

def State.go (s : State threads) (t : Fin threads) (place : Place) : State threads := {s with pc := Function.update s.pc t place}

-- primer(2, range2)
inductive Step (range2 : Int) : State threads → List (Event threads) → State threads → Prop where
  | locks : s.pc t = .locking → s.owner = none → Step range2 s [.locked t] {s.go t .drawing with owner := some t}
  | draws : s.pc t = .drawing →
      Step range2 s [.drew t (toInt (2 + s.count))] {s.go t (.unlocking (toInt (2 + s.count))) with count := toInt (s.count + 1)}
  | unlocks : s.pc t = .unlocking n → Step range2 s [.unlocked t] {s.go t (.testing n) with owner := none}
  | leaves : s.pc t = .testing n → n > range2 → Step range2 s [.left t] (s.go t .exited)
  | examines : s.pc t = .testing n → n ≤ range2 → Trials.isPrimer fuel n = some mark →
      Step range2 s (.examined t n :: if mark then [.printed t n] else []) (s.go t .locking)

def start (threads : Nat) : State threads := ⟨0,none,fun _ => .locking⟩

def Event.number : Event threads → Option Int
  | .examined _ n => some n
  | _ => none

def Event.output : Event threads → Option Int
  | .printed _ n => some n
  | _ => none

def Event.over (range2 : Int) (t : Fin threads) : Event threads → Bool
  | .drew u n => u = t ∧ range2 < n
  | _ => false

def examined (log : List (Event threads)) : List Int := log.filterMap Event.number
def printed (log : List (Event threads)) : List Int := log.filterMap Event.output

structure Distributed (range2 : Int) (log : List (Event threads)) (s : State threads) : Prop where
  within : ∀ n ∈ examined log, 2 ≤ n ∧ n ≤ range2
  once : (examined log).Nodup
  output : ∀ n, n ∈ printed log ↔ n ∈ examined log ∧ Indivisible n
  outputOnce : (printed log).Nodup
  bounded : log.length ≤ 5 * (range2 - 1) + 4 * threads
  above : ∀ t, log.countP (Event.over range2 t) ≤ 1
  gone : ∀ t, s.pc t = .exited → log.countP (Event.over range2 t) = 1
  ends : Stuck (Step range2) s → (∀ t, s.pc t = .exited) ∧ ∀ n, 2 ≤ n → n ≤ range2 → n ∈ examined log

def Place.number : Place → Option Int
  | .unlocking n => some n
  | .testing n => some n
  | _ => none

-- The thread has drawn a number above the range.
def Place.over (range2 : Int) : Place → Bool
  | .unlocking n => range2 < n
  | .testing n => range2 < n
  | .exited => true
  | _ => false

-- The events since the thread's last examination.
def Place.events : Place → Nat
  | .locking => 0
  | .drawing => 1
  | .unlocking _ => 2
  | .testing _ => 3
  | .exited => 4

-- What has been drawn is held by one thread, or has been examined, or lies above the range.
structure Draws (range2 : Int) (done : List Int) (count : Int) (pc : Fin threads → Place) : Prop where
  positive : 0 ≤ count
  drawn : ∀ t n, (pc t).number = some n → 2 ≤ n ∧ n < count + 2 ∧ n ∉ done
  apart : ∀ t u n, (pc t).number = some n → (pc u).number = some n → t = u
  within : ∀ n ∈ done, 2 ≤ n ∧ n ≤ range2 ∧ n < count + 2
  once : done.Nodup
  complete : ∀ n, 2 ≤ n → n ≤ range2 → n < count + 2 → n ∈ done ∨ ∃ t, (pc t).number = some n
  overdrawn : max 0 (count + 1 - range2) = tally (Place.over range2) pc

variable {range2 count : Int} {done : List Int} {pc : Fin threads → Place} {s after : State threads} {t u : Fin threads} {log : List (Event threads)}

theorem number_update : (Function.update pc t place u).number = some n ↔ u = t ∧ place.number = some n ∨ u ≠ t ∧ (pc u).number = some n := by
  by_cases own : u = t
  · subst own
    simp
  · simp [own]

-- A thread that takes a place without a number lets its own go.
theorem number_dropped (none : place.number = none) (held : (Function.update pc t place u).number = some n) :
    u ≠ t ∧ (pc u).number = some n := by
  rcases number_update.mp held with ⟨_,own⟩ | other
  · rw [none] at own
    cases own
  · exact other

theorem Draws.start (low : 2 ≤ range2) : Draws range2 [] 0 (start threads).pc := by
  refine ⟨Int.le_refl 0,nofun,nofun,nofun,.nil,fun n _ _ high => by omega,?_⟩
  rw [tally_zero (fun _ => rfl)]
  omega

-- The thread moves on, with the number it held.
theorem Draws.moved (draws : Draws range2 done count pc) (same : place.number = (pc t).number)
    (sameOver : place.over range2 = (pc t).over range2) : Draws range2 done count (Function.update pc t place) := by
  have numbers : ∀ u n, (Function.update pc t place u).number = some n ↔ (pc u).number = some n := by
    intro u n
    by_cases own : u = t
    · subst own
      rw [Function.update_self,same]
    · rw [Function.update_of_ne own]
  have tallies := tally_update (Place.over range2) pc t place
  rw [sameOver] at tallies
  refine ⟨draws.positive,?_,?_,draws.within,draws.once,?_,?_⟩
  · intro u n held
    exact draws.drawn u n ((numbers u n).mp held)
  · intro u v n held held'
    exact draws.apart u v n ((numbers u n).mp held) ((numbers v n).mp held')
  · intro n low high below
    rcases draws.complete n low high below with member | ⟨u,held⟩
    · exact .inl member
    · exact .inr ⟨u,(numbers u n).mpr held⟩
  · have before := draws.overdrawn
    omega

theorem Draws.draw (draws : Draws range2 done count pc) (place : pc t = .drawing) :
    Draws range2 done (count + 1) (Function.update pc t (.unlocking (2 + count))) := by
  have positive := draws.positive
  have tallies := tally_update (Place.over range2) pc t (.unlocking (2 + count))
  refine ⟨by omega,?_,?_,?_,draws.once,?_,?_⟩
  · intro u n held
    rcases number_update.mp held with ⟨_,own⟩ | ⟨_,other⟩
    · cases own
      refine ⟨by omega,by omega,fun member => ?_⟩
      have below := (draws.within _ member).2.2
      omega
    · obtain ⟨low,below,fresh⟩ := draws.drawn u n other
      exact ⟨low,by omega,fresh⟩
  · intro u v n held held'
    rcases number_update.mp held with ⟨same,own⟩ | ⟨_,other⟩ <;> rcases number_update.mp held' with ⟨same',own'⟩ | ⟨_,other'⟩
    · rw [same,same']
    · cases own
      have below := (draws.drawn v _ other').2.1
      omega
    · cases own'
      have below := (draws.drawn u _ other).2.1
      omega
    · exact draws.apart u v n other other'
  · intro n member
    obtain ⟨low,high,below⟩ := draws.within n member
    exact ⟨low,high,by omega⟩
  · intro n low high below
    by_cases new : n = 2 + count
    · exact .inr ⟨t,by rw [Function.update_self,new]; rfl⟩
    · rcases draws.complete n low high (by omega) with member | ⟨u,held⟩
      · exact .inl member
      · refine .inr ⟨u,number_update.mpr (.inr ⟨?_,held⟩)⟩
        intro same
        rw [same,place] at held
        cases held
  · have before := draws.overdrawn
    rw [place] at tallies
    simp only [Place.over,Bool.toNat_false] at tallies
    by_cases above : range2 < 2 + count
    · rw [decide_eq_true above,Bool.toNat_true] at tallies
      omega
    · rw [decide_eq_false above,Bool.toNat_false] at tallies
      omega

-- A thread whose number lies above the range lets it go.
theorem Draws.leave (draws : Draws range2 done count pc) (place : pc t = .testing n) (above : n > range2) :
    Draws range2 done count (Function.update pc t .exited) := by
  have tallies := tally_update (Place.over range2) pc t .exited
  refine ⟨draws.positive,?_,?_,draws.within,draws.once,?_,?_⟩
  · intro u m held
    exact draws.drawn u m (number_dropped rfl held).2
  · intro u v m held held'
    exact draws.apart u v m (number_dropped rfl held).2 (number_dropped rfl held').2
  · intro m low high below
    rcases draws.complete m low high below with member | ⟨u,held⟩
    · exact .inl member
    · refine .inr ⟨u,number_update.mpr (.inr ⟨?_,held⟩)⟩
      intro same
      rw [same,place] at held
      cases held
      omega
  · have before := draws.overdrawn
    rw [place] at tallies
    simp only [Place.over,decide_eq_true above,Bool.toNat_true] at tallies
    omega

theorem Draws.examine (draws : Draws range2 done count pc) (place : pc t = .testing n) (inside : n ≤ range2) :
    Draws range2 (done ++ [n]) count (Function.update pc t .locking) := by
  have tallies := tally_update (Place.over range2) pc t .locking
  obtain ⟨low,below,fresh⟩ := draws.drawn t n (by rw [place]; rfl)
  refine ⟨draws.positive,?_,?_,?_,?_,?_,?_⟩
  · intro u m held
    obtain ⟨other,before⟩ := number_dropped rfl held
    obtain ⟨lowM,belowM,freshM⟩ := draws.drawn u m before
    refine ⟨lowM,belowM,fun member => ?_⟩
    rcases List.mem_append.mp member with earlier | new
    · exact freshM earlier
    · rw [List.mem_singleton.mp new] at before
      exact other (draws.apart u t n before (by rw [place]; rfl))
  · intro u v m held held'
    exact draws.apart u v m (number_dropped rfl held).2 (number_dropped rfl held').2
  · exact List.forall_mem_append.mpr ⟨draws.within,List.forall_mem_singleton.mpr ⟨low,inside,below⟩⟩
  · exact draws.once.append (List.nodup_singleton n) (fun m member new => fresh (List.mem_singleton.mp new ▸ member))
  · intro m lowM highM belowM
    rcases draws.complete m lowM highM belowM with member | ⟨u,held⟩
    · exact .inl (List.mem_append_left _ member)
    · by_cases own : u = t
      · rw [own,place] at held
        cases held
        exact .inl (List.mem_append_right _ (List.mem_singleton_self n))
      · exact .inr ⟨u,number_update.mpr (.inr ⟨own,held⟩)⟩
  · have before := draws.overdrawn
    rw [place] at tallies
    simp only [Place.over,decide_eq_false (Int.not_lt.mpr inside),Bool.toNat_false] at tallies
    omega

open Classical in
structure Traced (range2 : Int) (log : List (Event threads)) (s : State threads) : Prop where
  owned : Owned Place.holds s.owner s.pc
  draws : Draws range2 (examined log) s.count s.pc
  output : printed log = (examined log).filter Indivisible
  counted : log.length ≤ 5 * (examined log).length + total Place.events s.pc
  above : ∀ t, log.countP (Event.over range2 t) = ((s.pc t).over range2).toNat

theorem Traced.start (low : 2 ≤ range2) : Traced range2 [] (start threads) := by
  refine ⟨fun t => ⟨nofun,nofun⟩,.start low,rfl,Nat.zero_le _,?_⟩
  intro t
  rfl

theorem examined_append (log more : List (Event threads)) : examined (log ++ more) = examined log ++ examined more := List.filterMap_append

theorem printed_append (log more : List (Event threads)) : printed (log ++ more) = printed log ++ printed more := List.filterMap_append

-- The counter does not run out: at most one draw a thread lies above the range.
theorem Draws.fits (draws : Draws range2 done count pc) (fits : range2 + threads ≤ intMax) (place : pc t = .drawing) : 2 + count ≤ intMax := by
  have room : tally (Place.over range2) pc < threads := tally_room place rfl
  have before := draws.overdrawn
  omega

-- The thread's own count of numbers above the range follows its place.
theorem over_update (more : Nat) (own : more + ((pc t).over range2).toNat = (place.over range2).toNat) (u : Fin threads) :
    (if u = t then more else 0) + ((pc u).over range2).toNat = ((Function.update pc t place u).over range2).toNat := by
  by_cases same : u = t
  · subst same
    rw [if_pos rfl,Function.update_self,own]
  · rw [if_neg same,Function.update_of_ne same,Nat.zero_add]

-- A step that examines nothing.
theorem Traced.goes (traced : Traced range2 log s) (more : Nat) {event : Event threads} {count : Int} {owner : Option (Fin threads)}
    (silent : event.number = none) (unprinted : event.output = none) (next : place.events = (s.pc t).events + 1)
    (owned : Owned Place.holds owner (Function.update s.pc t place)) (draws : Draws range2 (examined log) count (Function.update s.pc t place))
    (drew : ∀ u, (event.over range2 u).toNat = if u = t then more else 0) (beyond : more + ((s.pc t).over range2).toNat = (place.over range2).toNat) :
    Traced range2 (log ++ [event]) ⟨count,owner,Function.update s.pc t place⟩ := by
  have numbers : examined (log ++ [event]) = examined log := by simp [examined,silent]
  have outputs : printed (log ++ [event]) = printed log := by simp [printed,unprinted]
  refine ⟨owned,?_,?_,?_,?_⟩
  · rw [numbers]
    exact draws
  · rw [numbers,outputs]
    exact traced.output
  · have events := total_update Place.events s.pc t place
    have before := traced.counted
    rw [numbers,List.length_append,List.length_singleton]
    change log.length + 1 ≤ 5 * (examined log).length + total Place.events (Function.update s.pc t place)
    omega
  · intro u
    have mine := over_update more beyond u
    rw [← drew u] at mine
    rw [List.countP_append,traced.above u,List.countP_singleton,← mine]
    cases event.over range2 u <;> simp [Nat.add_comm]

theorem Traced.locks (traced : Traced range2 log s) (place : s.pc t = .locking) (free : s.owner = none) :
    Traced range2 (log ++ [.locked t]) {s.go t .drawing with owner := some t} := by
  refine traced.goes 0 rfl rfl (by rw [place]; rfl) (owned_take traced.owned free rfl) (traced.draws.moved ?_ ?_) ?_ ?_
  · rw [place]
    rfl
  · rw [place]
    rfl
  · intro u
    simp [Event.over]
  · rw [place]
    rfl

theorem Traced.draw (traced : Traced range2 log s) (fits : range2 + threads ≤ intMax) (place : s.pc t = .drawing) :
    Traced range2 (log ++ [.drew t (toInt (2 + s.count))]) {s.go t (.unlocking (toInt (2 + s.count))) with count := toInt (s.count + 1)} := by
  have positive := traced.draws.positive
  have below := traced.draws.fits fits place
  rw [toInt_of_nonneg (by omega) below,toInt_of_nonneg (n := s.count + 1) (by omega) (by omega)]
  refine traced.goes (decide (range2 < 2 + s.count)).toNat rfl rfl (by rw [place]; rfl) (owned_stay traced.owned place rfl)
    (traced.draws.draw place) ?_ ?_
  · intro u
    by_cases own : u = t
    · simp [Event.over,own]
    · simp [Event.over,own,Ne.symm own]
  · rw [place]
    rfl

theorem Traced.unlocks (traced : Traced range2 log s) (place : s.pc t = .unlocking n) :
    Traced range2 (log ++ [.unlocked t]) {s.go t (.testing n) with owner := none} := by
  have held : (s.pc t).holds = true := by rw [place]; rfl
  refine traced.goes 0 rfl rfl (by rw [place]; rfl) (owned_drop traced.owned place rfl rfl) (traced.draws.moved ?_ ?_) ?_ ?_
  · rw [place]
    rfl
  · rw [place]
    rfl
  · intro u
    simp [Event.over]
  · rw [place]
    simp [Place.over]

theorem Traced.leaves (traced : Traced range2 log s) (place : s.pc t = .testing n) (above : n > range2) :
    Traced range2 (log ++ [.left t]) (s.go t .exited) := by
  refine traced.goes 0 rfl rfl (by rw [place]; rfl) (owned_stay traced.owned place rfl) (traced.draws.leave place above) ?_ ?_
  · intro u
    simp [Event.over]
  · rw [place]
    simp [Place.over,above]

-- The numbers that are examined are below 46340 * 46340, so the mark is right.
theorem Traced.examines (traced : Traced range2 log s) (high : range2 < 46340 * 46340) (place : s.pc t = .testing n) (inside : n ≤ range2)
    (ran : Trials.isPrimer fuel n = some mark) :
    Traced range2 (log ++ (.examined t n :: if mark then [.printed t n] else [])) (s.go t .locking) := by
  have low := (traced.draws.drawn t n (by rw [place]; rfl)).1
  have right := isPrimer_right low (by omega) ran
  have numbers : examined (.examined t n :: if mark then [Event.printed t n] else []) = [n] := by
    cases mark <;> rfl
  refine ⟨owned_stay traced.owned place rfl,?_,?_,?_,?_⟩
  · rw [examined_append,numbers]
    exact traced.draws.examine place inside
  · rw [printed_append,examined_append,numbers,List.filter_append,traced.output]
    cases mark with
    | true =>
      rw [List.filter_cons_of_pos (by simpa using right)]
      rfl
    | false =>
      rw [List.filter_cons_of_neg (by simpa using right)]
      rfl
  · have events := total_update Place.events s.pc t .locking
    have before := traced.counted
    have emitted : (Event.examined t n :: if mark then [Event.printed t n] else []).length ≤ 2 := by cases mark <;> simp
    rw [place] at events
    rw [examined_append,numbers,List.length_append,List.length_append,List.length_singleton]
    simp only [Place.events] at events
    change _ ≤ 5 * ((examined log).length + 1) + total Place.events (Function.update s.pc t .locking)
    omega
  · intro u
    have none : (Event.examined t n :: if mark then [Event.printed t n] else []).countP (Event.over range2 u) = 0 := by cases mark <;> rfl
    have own : 0 + ((s.pc t).over range2).toNat = (Place.locking.over range2).toNat := by
      rw [place]
      simp [Place.over,inside]
    have mine := over_update 0 own u
    rw [List.countP_append,none,traced.above u]
    change _ = ((Function.update s.pc t .locking u).over range2).toNat
    rw [← mine]
    simp

theorem Traced.step (traced : Traced range2 log s) (high : range2 < 46340 * 46340) (fits : range2 + threads ≤ intMax)
    (taken : Step range2 s emitted after) : Traced range2 (log ++ emitted) after := by
  cases taken with
  | locks place free => exact traced.locks place free
  | draws place => exact traced.draw fits place
  | unlocks place => exact traced.unlocks place
  | leaves place above => exact traced.leaves place above
  | examines place inside ran => exact traced.examines high place inside ran

theorem reached_traced (low : 2 ≤ range2) (high : range2 < 46340 * 46340) (fits : range2 + threads ≤ intMax)
    (run : Runs (Step range2) (start threads) log s) : Traced range2 log s :=
  run.invariant (fun _ _ _ _ traced taken => traced.step high fits taken) (.start low)

theorem Place.holder (holds : Place.holds place = true) : place = .drawing ∨ ∃ n, place = .unlocking n := by
  cases place with
  | drawing => exact .inl rfl
  | unlocking n => exact .inr ⟨n,rfl⟩
  | locking | testing | exited => cases holds

-- As long as a thread is in the loop, the holder of the lock or the thread itself can go on.
theorem Traced.progress (traced : Traced range2 log s) (high : range2 < 46340 * 46340) (stuck : Stuck (Step range2) s) (t : Fin threads) :
    s.pc t = .exited := by
  have free : s.owner = none := by
    by_contra held
    obtain ⟨holder,owns⟩ := Option.ne_none_iff_exists'.mp held
    rcases Place.holder ((traced.owned holder).mp owns) with place | ⟨n,place⟩
    · exact stuck _ _ (.draws place)
    · exact stuck _ _ (.unlocks place)
  cases place : s.pc t with
  | exited => rfl
  | locking => exact (stuck _ _ (.locks place free)).elim
  | drawing => exact (stuck _ _ (.draws place)).elim
  | unlocking n => exact (stuck _ _ (.unlocks place)).elim
  | testing n =>
    rcases lt_or_ge range2 n with above | inside
    · exact (stuck _ _ (.leaves place above)).elim
    · have low := (traced.draws.drawn t n (by rw [place]; rfl)).1
      obtain ⟨fuel,mark,ran,_⟩ := isPrimer_verdict low (by omega)
      exact (stuck _ _ (.examines place inside ran)).elim

-- When a thread has left, every number of the range has been drawn.
theorem Draws.all (draws : Draws range2 done count pc) (gone : ∀ t, pc t = .exited) (some : 0 < threads) (low : 2 ≤ n) (high : n ≤ range2) :
    n ∈ done := by
  have tallies := tally_update (Place.over range2) pc ⟨0,some⟩ .locking
  have before := draws.overdrawn
  rw [gone ⟨0,some⟩] at tallies
  simp only [Place.over,Bool.toNat_true,Bool.toNat_false] at tallies
  rcases draws.complete n low high (by omega) with member | ⟨t,held⟩
  · exact member
  · rw [gone t] at held
    cases held

theorem Draws.few (draws : Draws range2 done count pc) (low : 2 ≤ range2) : (done.length : Int) ≤ range2 - 1 := by
  have inside : done.toFinset ⊆ Finset.Icc 2 range2 := by
    intro n member
    obtain ⟨above,below,_⟩ := draws.within n (List.mem_toFinset.mp member)
    exact Finset.mem_Icc.mpr ⟨above,below⟩
  have few := Finset.card_le_card inside
  rw [List.toFinset_card_of_nodup draws.once,Int.card_Icc] at few
  omega

theorem events_bound : total Place.events pc ≤ 4 * threads := by
  have each : ∀ t, Place.events (pc t) ≤ 4 := by
    intro t
    cases pc t <;> simp [Place.events]
  calc total Place.events pc ≤ ∑ _t : Fin threads, 4 := Finset.sum_le_sum fun t _ => each t
    _ = 4 * threads := by simp [Nat.mul_comm]

-- A pass of one thread while the others wait.
theorem drawing_run (place : s.pc t = .locking) (free : s.owner = none) :
    Runs (Step range2) s [.locked t,.drew t (toInt (2 + s.count)),.unlocked t]
      {s.go t (.testing (toInt (2 + s.count))) with count := toInt (s.count + 1)} := by
  have begins : Runs (Step range2) s [] s := .nil
  have locked := begins.step (.locks place free)
  have drew := locked.step (.draws (t := t) (by simp [State.go]))
  have unlocked := drew.step (.unlocks (t := t) (n := toInt (2 + s.count)) (by simp [State.go]))
  simpa [State.go,free] using unlocked

theorem examining_run (place : s.pc t = .locking) (free : s.owner = none) (inside : toInt (2 + s.count) ≤ range2)
    (ran : Trials.isPrimer fuel (toInt (2 + s.count)) = some mark) :
    ∃ log, Runs (Step range2) s log {s with count := toInt (s.count + 1)} ∧ toInt (2 + s.count) ∈ examined log := by
  have drawn : Runs (Step range2) s _ _ := drawing_run place free
  have done := drawn.step (.examines (t := t) (by simp [State.go]) inside ran)
  have back : Function.update s.pc t .locking = s.pc := by
    rw [← place,Function.update_eq_self]
  simp only [State.go,Function.update_idem,back] at done
  exact ⟨_,done,by simp [examined,Event.number]⟩

theorem leaving_run (place : s.pc t = .locking) (free : s.owner = none) (above : toInt (2 + s.count) > range2) :
    ∃ log, Runs (Step range2) s log {s.go t .exited with count := toInt (s.count + 1)} := by
  have drawn : Runs (Step range2) s _ _ := drawing_run place free
  have gone := drawn.step (.leaves (t := t) (by simp [State.go]) above)
  simp only [State.go,Function.update_idem] at gone
  exact ⟨_,gone⟩

def drawnBy (threads : Nat) (count : Int) : State threads := ⟨count,none,fun _ => .locking⟩

def leftBy (threads : Nat) (count : Int) (gone : Nat) : State threads :=
  ⟨count,none,fun t => if t.val < gone then .exited else .locking⟩

theorem leftBy_next (here : gone < threads) :
    Function.update (leftBy threads count gone).pc ⟨gone,here⟩ .exited = (leftBy threads count (gone + 1)).pc := by
  funext t
  by_cases own : t = ⟨gone,here⟩
  · rw [own,Function.update_self]
    simp [leftBy]
  · have other : t.val ≠ gone := fun same => own (Fin.ext same)
    have same : t.val < gone + 1 ↔ t.val < gone := by omega
    rw [Function.update_of_ne own]
    simp only [leftBy,same]

-- The first thread examines the whole range.
theorem range_run (high : range2 < 46340 * 46340) (some : 0 < threads) (draws : Nat) (inside : draws + 1 ≤ range2) :
    ∃ log, Runs (Step range2) (start threads) log (drawnBy threads draws) := by
  induction draws with
  | zero => exact ⟨[],.nil⟩
  | succ draws ih =>
    obtain ⟨log,run⟩ := ih (by omega)
    have next : toInt (2 + (draws : Int)) = 2 + draws := toInt_of_nonneg (by omega) (by simp only [intMax]; omega)
    have count : toInt ((draws : Int) + 1) = draws + 1 := toInt_of_nonneg (by omega) (by simp only [intMax]; omega)
    obtain ⟨fuel,mark,ran,_⟩ := isPrimer_verdict (n := 2 + draws) (by omega) (by omega)
    have waits : (drawnBy threads draws).pc ⟨0,some⟩ = .locking := rfl
    have here : toInt (2 + (drawnBy threads draws).count) = 2 + draws := next
    have reached : toInt (2 + (drawnBy threads draws).count) ≤ range2 := by omega
    obtain ⟨more,pass,_⟩ := examining_run waits rfl reached (by rw [here]; exact ran)
    change Runs _ _ _ (drawnBy threads (toInt (draws + 1))) at pass
    rw [count] at pass
    exact ⟨_,run.append pass⟩

-- Then the threads leave one after the other.
theorem leaving_runs (positive : 2 ≤ range2) (gone : Nat) (there : gone ≤ threads) (fits : range2 + gone ≤ intMax) :
    ∃ log, Runs (Step range2) (drawnBy threads (range2 - 1)) log (leftBy threads (range2 - 1 + gone) gone) := by
  induction gone with
  | zero =>
    refine ⟨[],?_⟩
    simpa [drawnBy,leftBy] using Runs.nil
  | succ gone ih =>
    obtain ⟨log,run⟩ := ih (by omega) (by omega)
    have next : toInt (2 + (range2 - 1 + gone)) = range2 + 1 + gone := by
      rw [toInt_of_nonneg (by omega) (by omega)]
      omega
    have count : toInt (range2 - 1 + gone + 1) = range2 - 1 + ((gone + 1 : Nat) : Int) := by
      rw [toInt_of_nonneg (by omega) (by omega)]
      omega
    have waits : (leftBy threads (range2 - 1 + gone) gone).pc ⟨gone,there⟩ = .locking := by simp [leftBy]
    have above : toInt (2 + (leftBy threads (range2 - 1 + gone) gone).count) > range2 := by
      change toInt (2 + (range2 - 1 + gone)) > range2
      omega
    obtain ⟨more,left⟩ := leaving_run waits rfl above
    simp only [State.go,leftBy_next] at left
    change Runs _ _ _ (leftBy threads (toInt (range2 - 1 + gone + 1)) (gone + 1)) at left
    rw [count] at left
    exact ⟨_,run.append left⟩

-- The last of very many threads draws a number that does not fit, and finds it in the range.
theorem overflow_run : ∃ log s, Runs (Step 2147395599) (start 88049) log s ∧ intMin ∈ examined log := by
  obtain ⟨first,range⟩ : ∃ log, Runs (Step 2147395599) (start 88049) log (drawnBy 88049 (2147395598 : Nat)) :=
    range_run (by decide) (by decide) 2147395598 (by decide)
  obtain ⟨second,leaving⟩ : ∃ log, Runs (Step 2147395599) (drawnBy 88049 (2147395599 - 1)) log
      (leftBy 88049 (2147395599 - 1 + (88048 : Nat)) 88048) :=
    leaving_runs (by decide) 88048 (by decide) (by decide)
  have waits : (leftBy 88049 (2147395599 - 1 + (88048 : Nat)) 88048).pc ⟨88048,by decide⟩ = .locking := by simp [leftBy]
  have draws : toInt (2 + (leftBy 88049 (2147395599 - 1 + (88048 : Nat)) 88048).count) = intMin := by decide
  have inside : toInt (2 + (leftBy 88049 (2147395599 - 1 + (88048 : Nat)) 88048).count) ≤ 2147395599 := by
    rw [draws]
    decide
  have ran : Trials.isPrimer 1 intMin = some true := by decide
  obtain ⟨last,pass,member⟩ := examining_run waits rfl inside (by rw [draws]; exact ran)
  refine ⟨_,_,(range.append leaving).append pass,?_⟩
  rw [examined_append]
  rw [draws] at member
  exact List.mem_append_right _ member

-- Each thread draws one number above the range, so the last one drawn is range2 + threads.
theorem distributed (low : 2 ≤ range2) (high : range2 < 46340 * 46340) (some : 0 < threads) (fits : range2 + threads ≤ intMax)
    (run : Runs (Step range2) (start threads) log s) : Distributed range2 log s := by
  have traced := reached_traced low high fits run
  refine ⟨?_,traced.draws.once,?_,?_,?_,?_,?_,?_⟩
  · intro n member
    obtain ⟨lowN,highN,_⟩ := traced.draws.within n member
    exact ⟨lowN,highN⟩
  · intro n
    rw [traced.output]
    simp
  · rw [traced.output]
    exact traced.draws.once.filter _
  · have few := traced.draws.few low
    have counted := traced.counted
    have events : total Place.events s.pc ≤ 4 * threads := events_bound
    omega
  · intro t
    rw [traced.above t]
    exact Bool.toNat_le _
  · intro t gone
    rw [traced.above t,gone]
    rfl
  · intro stuck
    have gone := traced.progress high stuck
    exact ⟨gone,fun n lowN highN => traced.draws.all gone some lowN highN⟩

theorem two_distributed : ∃ log, Runs (Step 2) (start 1) log (leftBy 1 2 1) ∧ Distributed 2 log (leftBy 1 2 1) := by
  obtain ⟨first,range⟩ : ∃ log, Runs (Step 2) (start 1) log (drawnBy 1 (1 : Nat)) := range_run (by decide) (by decide) 1 (by decide)
  obtain ⟨second,leaving⟩ : ∃ log, Runs (Step 2) (drawnBy 1 (2 - 1)) log (leftBy 1 (2 - 1 + (1 : Nat)) 1) :=
    leaving_runs (by decide) 1 (by decide) (by decide)
  have run : Runs (Step 2) (start 1) (first ++ second) (leftBy 1 2 1) := range.append leaving
  exact ⟨_,run,distributed (by decide) (by decide) (by decide) (by decide) run⟩

-- With too many threads the counter runs over, and with none nothing is examined.
theorem distribution_limits :
    (∃ log s, Runs (Step 2147395599) (start 88049) log s ∧ ¬ Distributed 2147395599 log s) ∧
    ∃ log s, Runs (Step 2) (start 0) log s ∧ ¬ Distributed 2 log s := by
  constructor
  · obtain ⟨log,s,run,member⟩ := overflow_run
    refine ⟨log,s,run,fun distributed => ?_⟩
    have low := (distributed.within _ member).1
    simp only [intMin] at low
    omega
  · refine ⟨[],start 0,.nil,fun distributed => ?_⟩
    have stuck : Stuck (Step 2) (start 0) := by
      intro emitted after taken
      cases taken <;> exact Fin.elim0 (by assumption)
    have member := (distributed.ends stuck).2 2 (by decide) (by decide)
    cases member

end

end LinuxCoding.Primes.Counter
