import LinuxCoding.Library.Transition

-- A pump takes a portion of a stream when it has nothing in hand, gives it away piece by piece,
-- and is over at the end of its source, or when it has complained about what failed.
namespace LinuxCoding.Pump
open Transition

inductive Phase (α χ : Type) where
  | ready
  | holding (rest : List α)
  | failing (what : χ)
  | finished

inductive Event (α χ : Type) where
  | idle
  | took (portion : List α)
  | gave (piece : List α)
  | failed (what : χ)
  | complained (what : χ)

-- A pump that is idle waits, or has found the end.
inductive Pumps (most : Nat) : Phase α χ → List (Event α χ) → Phase α χ → Prop where
  | idle (phase : Phase α χ) : Pumps most phase [.idle] phase
  | ends : Pumps most .ready [.idle] .finished
  | takes (portion : List α) : portion ≠ [] → portion.length ≤ most → Pumps most .ready [.took portion] (.holding portion)
  | gives (piece rest : List α) : rest ≠ [] → Pumps most (.holding (piece ++ rest)) [.gave piece] (.holding rest)
  | empties (piece : List α) : Pumps most (.holding piece) [.gave piece] .ready
  | failsTaking (what : χ) : Pumps most .ready [.failed what] (.failing what)
  | failsGiving (what : χ) (rest : List α) : Pumps most (.holding rest) [.failed what] (.failing what)
  | complains (what : χ) : Pumps most (.failing what) [.complained what] .finished

def Event.portion : Event α χ → List α
  | .took portion => portion
  | _ => []

def Event.piece : Event α χ → List α
  | .gave piece => piece
  | _ => []

def Event.failure : Event α χ → Option χ
  | .failed what => some what
  | _ => none

def Event.complaint : Event α χ → Option χ
  | .complained what => some what
  | _ => none

def taken (log : List (Event α χ)) : List α := log.flatMap Event.portion
def given (log : List (Event α χ)) : List α := log.flatMap Event.piece
def failures (log : List (Event α χ)) : List χ := log.filterMap Event.failure
def complaints (log : List (Event α χ)) : List χ := log.filterMap Event.complaint

@[simp] theorem taken_append (earlier later : List (Event α χ)) : taken (earlier ++ later) = taken earlier ++ taken later :=
  List.flatMap_append
@[simp] theorem given_append (earlier later : List (Event α χ)) : given (earlier ++ later) = given earlier ++ given later :=
  List.flatMap_append
@[simp] theorem failures_append (earlier later : List (Event α χ)) : failures (earlier ++ later) = failures earlier ++ failures later :=
  List.filterMap_append
@[simp] theorem complaints_append (earlier later : List (Event α χ)) : complaints (earlier ++ later) = complaints earlier ++ complaints later :=
  List.filterMap_append

-- Nothing has failed, and the rest is what is still to be given.
structure Smooth (log : List (Event α χ)) (rest : List α) : Prop where
  stream : given log ++ rest = taken log
  failures : failures log = []
  complaints : complaints log = []

-- Something has failed once, and at most one portion is lost.
structure Broken (most : Nat) (log : List (Event α χ)) (what : χ) : Prop where
  stream : ∃ lost, given log ++ lost = taken log ∧ lost.length ≤ most
  failures : failures log = [what]

def Ledger (most : Nat) (log : List (Event α χ)) : Phase α χ → Prop
  | .ready => Smooth log []
  | .holding rest => Smooth log rest ∧ rest ≠ [] ∧ rest.length ≤ most
  | .failing what => Broken most log what ∧ complaints log = []
  | .finished => Smooth log [] ∨ ∃ what, Broken most log what ∧ complaints log = [what]

variable {most : Nat} {log : List (Event α χ)} {phase : Phase α χ}

theorem Smooth.next {event : Event α χ} {rest later : List α} (smooth : Smooth log rest) (fine : event.failure = none) (quiet : event.complaint = none)
    (moves : event.piece ++ later = rest ++ event.portion) : Smooth (log ++ [event]) later := by
  obtain ⟨stream,failures,complaints⟩ := smooth
  refine ⟨?_,?_,?_⟩
  · have piece : given [event] = event.piece := List.flatMap_singleton ..
    have portion : taken [event] = event.portion := List.flatMap_singleton ..
    rw [given_append,taken_append,piece,portion,List.append_assoc,moves,← List.append_assoc,stream]
  · rw [failures_append,failures]
    simp [Pump.failures,fine]
  · rw [complaints_append,complaints]
    simp [Pump.complaints,quiet]

theorem Broken.next {event : Event α χ} (broken : Broken most log what) (still : event.portion = [] ∧ event.piece = []) (fine : event.failure = none) :
    Broken most (log ++ [event]) what := by
  obtain ⟨⟨lost,stream,few⟩,failures⟩ := broken
  refine ⟨⟨lost,?_,few⟩,?_⟩
  · simpa [taken,given,still.1,still.2] using stream
  · rw [failures_append,failures]
    simp [Pump.failures,fine]

theorem said {event : Event α χ} (before : complaints log = []) : complaints (log ++ [event]) = event.complaint.toList := by
  rw [complaints_append,before]
  cases event <;> rfl

-- A failure loses what the pump has in hand.
theorem Smooth.fails {rest : List α} (smooth : Smooth log rest) (few : rest.length ≤ most) (what : χ) :
    Ledger most (log ++ [.failed what]) (.failing what) := by
  obtain ⟨stream,failures,complaints⟩ := smooth
  refine ⟨⟨⟨rest,?_,few⟩,?_⟩,said complaints⟩
  · simpa [taken,given,Event.portion,Event.piece] using stream
  · rw [failures_append,failures]
    rfl

theorem ledger_idle (ledger : Ledger most log phase) : Ledger most (log ++ [.idle]) phase := by
  have same : complaints (log ++ [.idle]) = complaints log := by simp [complaints,Event.complaint]
  cases phase with
  | ready => exact Smooth.next ledger rfl rfl rfl
  | holding rest => exact ⟨ledger.1.next rfl rfl (List.append_nil rest).symm,ledger.2⟩
  | failing what => exact ⟨ledger.1.next ⟨rfl,rfl⟩ rfl,same.trans ledger.2⟩
  | finished =>
    rcases ledger with fine | ⟨what,broken,complaint⟩
    · exact .inl (fine.next rfl rfl rfl)
    · exact .inr ⟨what,broken.next ⟨rfl,rfl⟩ rfl,same.trans complaint⟩

theorem step_ledger {next : Phase α χ} (ledger : Ledger most log phase) (step : Pumps most phase emitted next) : Ledger most (log ++ emitted) next := by
  cases step with
  | idle => exact ledger_idle ledger
  | ends => exact .inl (Smooth.next ledger rfl rfl rfl)
  | takes portion some few => exact ⟨Smooth.next ledger rfl rfl rfl,some,few⟩
  | gives piece rest more =>
    obtain ⟨smooth,_,few⟩ := ledger
    rw [List.length_append] at few
    exact ⟨smooth.next rfl rfl (List.append_nil _).symm,more,by omega⟩
  | empties piece => exact ledger.1.next rfl rfl rfl
  | failsTaking what => exact Smooth.fails ledger (Nat.zero_le _) what
  | failsGiving what rest => exact ledger.1.fails ledger.2.2 what
  | complains what => exact .inr ⟨what,ledger.1.next ⟨rfl,rfl⟩ rfl,said ledger.2⟩

theorem run_ledger (run : Runs (Pumps most) (.ready : Phase α χ) log phase) : Ledger most log phase := by
  have begins : Ledger most [] (.ready : Phase α χ) := Smooth.mk rfl rfl rfl
  exact run.invariant (I := Ledger most) (fun _ _ _ _ ledger step => step_ledger ledger step) begins

-- What has been given is the front of what has been taken, but for one portion at most.
theorem ledger_stream (ledger : Ledger most log phase) : ∃ rest, given log ++ rest = taken log ∧ rest.length ≤ most := by
  cases phase with
  | ready => exact ⟨[],ledger.stream,Nat.zero_le _⟩
  | holding rest => exact ⟨rest,ledger.1.stream,ledger.2.2⟩
  | failing what => exact ledger.1.stream
  | finished =>
    rcases ledger with smooth | ⟨what,broken,_⟩
    · exact ⟨[],smooth.stream,Nat.zero_le _⟩
    · exact broken.stream

end LinuxCoding.Pump
