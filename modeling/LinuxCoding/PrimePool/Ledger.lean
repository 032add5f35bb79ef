import Mathlib.Data.List.Nodup
import Mathlib.Data.List.Range
import LinuxCoding.PrimePool.Mailbox

-- Which numbers have been taken, from the place of main and the number that waits.
namespace LinuxCoding.PrimePool
open CInt Transition

-- The ints from a on, below b.
def span (a b : Int) : List Int := (List.range (b - a).toNat).map fun k : Nat => a + k

theorem mem_span : i ∈ span a b ↔ a ≤ i ∧ i < b := by
  rw [span,List.mem_map]
  constructor
  · intro ⟨k,low,value⟩
    have bound := List.mem_range.mp low
    omega
  · intro ⟨low,high⟩
    exact ⟨(i - a).toNat,List.mem_range.mpr (by omega),by omega⟩

theorem span_nodup (a b : Int) : (span a b).Nodup := by
  refine List.nodup_range.map ?_
  intro k l same
  change a + (k : Int) = a + (l : Int) at same
  omega

theorem span_self (a : Int) : span a a = [] := by
  rw [span,Int.sub_self]
  rfl

theorem span_succ (low : a ≤ b) : span a (b + 1) = span a b ++ [b] := by
  have length : (b + 1 - a).toNat = (b - a).toNat + 1 := by omega
  have last : a + ((b - a).toNat : Int) = b := by omega
  rw [span,length,List.range_succ,List.map_append,List.map_singleton,last]
  rfl

def MainPlace.Within (left right : Int) : MainPlace → Prop
  | .forTest i => left ≤ i ∧ i ≤ right + 1
  | .locking i | .testing i | .asleep i | .notified i | .signaling i | .posted i => left ≤ i ∧ i ≤ right
  | _ => True

-- The numbers below `given` have been put into num.
def MainPlace.given (right : Int) : MainPlace → Int
  | .forTest i | .locking i | .testing i | .asleep i | .notified i => i
  | .signaling i | .posted i => i + 1
  | _ => right + 1

def MainPlace.closed : MainPlace → Bool
  | .broadcasting => true
  | .closing => true
  | .joining => true
  | .exited => true
  | _ => false

def WorkerPlace.gone : WorkerPlace → Bool
  | .leaving => true
  | .exited => true
  | _ => false

section
variable {n : Nat}

def Event.number : Event n → Option Int
  | .taken _ i => some i
  | _ => none

def taken (log : List (Event n)) : List Int := log.filterMap Event.number

def unread (num : Int) : List Int := if num = 0 ∨ num = -1 then [] else [num]

structure Ledger (left right : Int) (done : List Int) (s : State n) : Prop where
  within : s.main.Within left right
  shut : s.num = -1 ↔ s.main.closed = true
  handed : done ++ unread s.num = span left (s.main.given right)
  gone : ∀ w, (s.worker w).gone = true → s.num = -1

variable {left right : Int} {done : List Int} {s u : State n}

def Follows (left right : Int) (place next : MainPlace) : Prop :=
  next.Within left right ∧ next.given right = place.given right ∧ next.closed = place.closed

theorem Ledger.own (ledger : Ledger left right done s) (owner : Option (Option (Fin n))) : Ledger left right done {s with owner := owner} :=
  ⟨ledger.within,ledger.shut,ledger.handed,ledger.gone⟩

theorem Ledger.goMain (ledger : Ledger left right done s) (follows : s.main.Within left right → Follows left right s.main place) :
    Ledger left right (done ++ []) (s.goMain place) := by
  obtain ⟨within,shut,handed,gone⟩ := ledger
  obtain ⟨after,given,closed⟩ := follows within
  rw [List.append_nil]
  refine ⟨after,shut.trans ?_,handed.trans ?_,gone⟩
  · rw [← closed]
    exact Iff.rfl
  · rw [← given]
    rfl

theorem Ledger.goto (ledger : Ledger left right done s) (gone : place.gone = true → s.num = -1) :
    Ledger left right (done ++ []) (s.goto w place) := by
  rw [List.append_nil]
  refine ⟨ledger.within,ledger.shut,ledger.handed,?_⟩
  intro v here
  change (Function.update s.worker w place v).gone = true at here
  by_cases same : v = w
  · subst same
    rw [Function.update_self] at here
    exact gone here
  · rw [Function.update_of_ne same] at here
    exact ledger.gone v here

theorem Ledger.stays (ledger : Ledger left right done s) (stays : place.gone = false) : Ledger left right (done ++ []) (s.goto w place) :=
  ledger.goto fun gone => absurd (stays.symm.trans gone) Bool.false_ne_true

theorem wake_follows {place : MainPlace} (within : place.Within left right) : Follows left right place place.wake := by
  cases place <;> exact ⟨within,rfl,rfl⟩

theorem Ledger.wakeAll (ledger : Ledger left right done s) : Ledger left right done s.wakeAll := by
  have woken : Ledger left right (done ++ []) (s.goMain s.main.wake) := ledger.goMain wake_follows
  rw [List.append_nil] at woken
  refine ⟨woken.within,woken.shut,woken.handed,?_⟩
  intro w here
  refine ledger.gone w ?_
  change (s.worker w).wake.gone = true at here
  cases place : s.worker w <;> rw [place] at here <;> exact here

-- The number that main has put into num is the last one handed out.
theorem Ledger.posts (ledger : Ledger left right done s) (positive : 1 ≤ left) (here : s.main = .testing i) (empty : s.num = 0) :
    Ledger left right (done ++ []) {s.goMain (.signaling i) with num := i} := by
  obtain ⟨within,shut,handed,gone⟩ := ledger
  rw [here] at within handed
  rw [empty] at handed gone
  have nonzero : ¬ (i = 0 ∨ i = -1) := by
    have low := within.1
    omega
  refine ⟨within,?_,?_,?_⟩
  · constructor
    · intro closed
      exact absurd (.inr closed) nonzero
    · intro closed
      cases closed
  · change (done ++ []) ++ unread i = span left (i + 1)
    rw [span_succ within.1,unread,if_neg nonzero]
    exact congrArg (· ++ [i]) handed
  · intro w there
    cases gone w there

theorem Ledger.closes (ledger : Ledger left right done s) (here : s.main = .testingEnd) (empty : s.num = 0) :
    Ledger left right (done ++ []) {s.goMain .broadcasting with num := -1} := by
  obtain ⟨_,shut,handed,gone⟩ := ledger
  rw [here,empty] at handed
  refine ⟨trivial,⟨fun _ => rfl,fun _ => rfl⟩,?_,fun _ _ => rfl⟩
  change (done ++ []) ++ [] = span left (right + 1)
  rw [List.append_nil]
  exact handed

theorem Ledger.takes (ledger : Ledger left right done s) (nonzero : s.num ≠ 0) (job : s.num ≠ -1) :
    Ledger left right (done ++ [s.num]) {s.goto w (.broadcasting s.num) with num := 0} := by
  obtain ⟨within,shut,handed,gone⟩ := ledger
  rw [unread,if_neg (by omega)] at handed
  have going : Ledger left right (done ++ [s.num]) {s with num := 0} := by
    refine ⟨within,?_,?_,?_⟩
    · constructor
      · intro minusOne
        cases minusOne
      · intro closed
        exact absurd (shut.mpr closed) job
    · exact (List.append_nil _).trans handed
    · intro v there
      exact absurd (gone v there) job
  have went : Ledger left right ((done ++ [s.num]) ++ []) ({s with num := 0}.goto w (.broadcasting s.num)) := going.stays rfl
  rw [List.append_nil] at went
  exact went

theorem step_ledger (ledger : Ledger left right done s) (positive : 1 ≤ left) (small : right < intMax) (step : Step right s emitted u) :
    Ledger left right (done ++ taken emitted) u := by
  cases step with
  | enters i here low =>
    refine ledger.goMain ?_
    rw [here]
    intro within
    exact ⟨⟨within.1,low⟩,rfl,rfl⟩
  | ends i here high =>
    refine ledger.goMain ?_
    rw [here]
    intro within
    have most := within.2
    have last : right + 1 = i := by omega
    exact ⟨trivial,last,rfl⟩
  | locks i here free =>
    refine (ledger.goMain ?_).own _
    rcases here with here | here <;> rw [here] <;> exact fun within => ⟨within,rfl,rfl⟩
  | waits i here =>
    refine (ledger.goMain ?_).own _
    rw [here]
    exact fun within => ⟨within,rfl,rfl⟩
  | stirs i here | signalsNobody i here =>
    refine ledger.goMain ?_
    rw [here]
    exact fun within => ⟨within,rfl,rfl⟩
  | posts i here empty => exact ledger.posts positive here empty
  | signals i w here asleep =>
    have told : Ledger left right (done ++ []) (s.goto w .notified) := ledger.stays rfl
    rw [List.append_nil] at told
    refine told.goMain ?_
    change s.main.Within left right → Follows left right s.main _
    rw [here]
    exact fun within => ⟨within,rfl,rfl⟩
  | unlocks i here =>
    refine (ledger.goMain ?_).own _
    rw [here]
    rintro ⟨low,high⟩
    have next : toInt (i + 1) = i + 1 := toInt_of_nonneg (by omega) (by omega)
    rw [next]
    exact ⟨⟨by omega,by omega⟩,rfl,rfl⟩
  | locksEnd here | yields here | unlocksEnd here =>
    refine (ledger.goMain ?_).own _
    rw [here]
    exact fun _ => ⟨trivial,rfl,rfl⟩
  | joins here =>
    refine ledger.goMain ?_
    rw [here]
    exact fun _ => ⟨trivial,rfl,rfl⟩
  | closes here empty => exact ledger.closes here empty
  | broadcasts here =>
    refine ledger.wakeAll.goMain ?_
    change s.main.wake.Within left right → Follows left right s.main.wake _
    rw [here]
    exact fun _ => ⟨trivial,rfl,rfl⟩
  | workerLocks w here | workerWaits w here | workerUnlocks w i here =>
    refine (ledger.stays ?_).own _
    rfl
  | workerStirs w here => exact ledger.stays rfl
  | leaves w here shut => exact ledger.goto (fun _ => shut)
  | takes w here nonzero job => exact ledger.takes nonzero job
  | workerBroadcasts w i here => exact ledger.wakeAll.stays rfl
  | prints w i here =>
    have quiet : taken (if mark i then [Event.printed w i] else []) = [] := by
      split <;> rfl
    rw [quiet]
    exact ledger.stays rfl
  | exits w here => exact (ledger.goto fun _ => ledger.gone w (by rw [here]; rfl)).own _

theorem start_ledger (order : left ≤ right) : Ledger left right [] (start left : State n) := by
  refine ⟨⟨by omega,by omega⟩,?_,?_,nofun⟩
  · constructor <;> nofun
  · exact (span_self left).symm

theorem taken_append (log emitted : List (Event n)) : taken (log ++ emitted) = taken log ++ taken emitted := List.filterMap_append

-- Only the numbers from left to right are ever taken, in their order, and all of them
-- before a worker leaves.
theorem Ledger.taken_only (ledger : Ledger left right done s) : done.Nodup ∧ ∀ i ∈ done, left ≤ i ∧ i ≤ right := by
  obtain ⟨within,_,handed,_⟩ := ledger
  have limit : s.main.given right ≤ right + 1 := by
    cases here : s.main <;> rw [here] at within <;> simp only [MainPlace.given,MainPlace.Within] at within ⊢ <;> omega
  constructor
  · have all := span_nodup left (s.main.given right)
    rw [← handed] at all
    exact all.of_append_left
  · intro i member
    have spanned : i ∈ span left (s.main.given right) := by
      rw [← handed]
      exact List.mem_append_left _ member
    have bounds := mem_span.mp spanned
    omega

theorem Ledger.taken_all (ledger : Ledger left right done s) (shut : s.num = -1) (low : left ≤ i) (high : i ≤ right) : i ∈ done := by
  have given : s.main.given right = right + 1 := by
    have closed := ledger.shut.mp shut
    cases here : s.main <;> rw [here] at closed <;> first | rfl | cases closed
  have handed := ledger.handed
  rw [given,shut,unread,if_pos (.inr rfl),List.append_nil] at handed
  rw [handed]
  exact mem_span.mpr ⟨low,by omega⟩

end

end LinuxCoding.PrimePool
