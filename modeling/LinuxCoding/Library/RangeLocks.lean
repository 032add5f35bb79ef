import Mathlib.Logic.Function.Basic

-- Locks on ranges of bytes of one file: whoever locks a range waits for the others that have
-- locked some of it, unlocking may leave parts of a range locked, and closing leaves none.
namespace LinuxCoding.RangeLocks

-- A range without a stop has no last byte.
structure Range where
  start : Nat
  stop : Option Nat
  deriving DecidableEq

def Range.covers (r : Range) (byte : Nat) : Bool := decide (r.start ≤ byte) && r.stop.all fun stop => decide (byte < stop)

-- Ranges that meet do so where the later one starts.
def Range.meets (r other : Range) : Bool := r.covers (max r.start other.start) && other.covers (max r.start other.start)

-- What is left of a range without another one, before it and behind it.
def Range.before (r cut : Range) : Range := ⟨r.start,some (r.stop.elim cut.start (min cut.start))⟩
def Range.behind (r cut : Range) : List Range := cut.stop.toList.map fun stop => ⟨max r.start stop,r.stop⟩
def Range.without (r cut : Range) : List Range := r.before cut :: r.behind cut

def held (ranges : List Range) (byte : Nat) : Bool := ranges.any fun r => r.covers byte

theorem covers_iff {r : Range} : r.covers byte = true ↔ r.start ≤ byte ∧ ∀ stop, r.stop = some stop → byte < stop := by
  cases r with
  | mk start stop => cases stop <;> simp [Range.covers]

theorem meets_iff {r other : Range} : r.meets other = true ↔ ∃ byte, r.covers byte = true ∧ other.covers byte = true := by
  rw [Range.meets,Bool.and_eq_true]
  constructor
  · exact fun both => ⟨_,both⟩
  · rintro ⟨byte,mine,theirs⟩
    rw [covers_iff] at mine theirs ⊢
    rw [covers_iff]
    have latest : max r.start other.start ≤ byte := Nat.max_le.mpr ⟨mine.1,theirs.1⟩
    exact ⟨⟨Nat.le_max_left ..,fun stop ends => Nat.lt_of_le_of_lt latest (mine.2 stop ends)⟩,
      Nat.le_max_right ..,fun stop ends => Nat.lt_of_le_of_lt latest (theirs.2 stop ends)⟩

theorem held_without (r cut : Range) (byte : Nat) : held (r.without cut) byte = (r.covers byte && !cut.covers byte) := by
  obtain ⟨start,stop⟩ := r
  obtain ⟨first,last⟩ := cut
  rw [Bool.eq_iff_iff]
  cases stop <;> cases last <;> simp [held,Range.without,Range.before,Range.behind,Range.covers] <;> omega

section
variable {τ : Type} [DecidableEq τ] {locks : τ → List Range}

def lock (locks : τ → List Range) (t : τ) (r : Range) : τ → List Range := Function.update locks t (r :: locks t)
def unlock (locks : τ → List Range) (t : τ) (cut : Range) : τ → List Range := Function.update locks t ((locks t).flatMap fun r => r.without cut)
def close (locks : τ → List Range) (t : τ) : τ → List Range := Function.update locks t []

-- Nobody else has locked a byte of the range.
def Grants (locks : τ → List Range) (t : τ) (r : Range) : Prop := ∀ u, u ≠ t → ∀ other ∈ locks u, r.meets other = false

-- A byte is locked by one owner at most.
def Exclusive (locks : τ → List Range) : Prop := ∀ t u byte, held (locks t) byte = true → held (locks u) byte = true → t = u

theorem Exclusive.less (exclusive : Exclusive locks) (less : ∀ byte, held ranges byte = true → held (locks t) byte = true) :
    Exclusive (Function.update locks t ranges) := by
  have owned : ∀ u byte, held (Function.update locks t ranges u) byte = true → held (locks u) byte = true := by
    intro u byte here
    by_cases same : u = t
    · subst same
      rw [Function.update_self] at here
      exact less byte here
    · rwa [Function.update_of_ne same] at here
  exact fun u w byte mine theirs => exclusive u w byte (owned u byte mine) (owned w byte theirs)

theorem Exclusive.close (exclusive : Exclusive locks) (t : τ) : Exclusive (close locks t) := exclusive.less nofun

theorem held_unlock (locks : τ → List Range) (t : τ) (cut : Range) (byte : Nat) :
    held (unlock locks t cut t) byte = (held (locks t) byte && !cut.covers byte) := by
  rw [unlock,Function.update_self]
  induction locks t with
  | nil => rfl
  | cons r rest ih =>
    have first := held_without r cut byte
    simp only [held,List.flatMap_cons,List.any_append,List.any_cons] at ih first ⊢
    rw [first,ih]
    cases r.covers byte <;> cases cut.covers byte <;> simp

theorem Exclusive.unlock (exclusive : Exclusive locks) (t : τ) (cut : Range) : Exclusive (unlock locks t cut) := by
  refine exclusive.less ?_
  intro byte here
  have both := held_unlock locks t cut byte
  rw [RangeLocks.unlock,Function.update_self,here] at both
  exact (Bool.and_eq_true_iff.mp both.symm).1

theorem Exclusive.lock (exclusive : Exclusive locks) (granted : Grants locks t r) : Exclusive (lock locks t r) := by
  have apart : ∀ u byte, u ≠ t → held (locks u) byte = true → held (r :: locks t) byte = true → False := by
    intro u byte other theirs mine
    rw [held,List.any_cons,Bool.or_eq_true] at mine
    rcases mine with new | old
    · obtain ⟨range,member,covered⟩ := List.any_eq_true.mp theirs
      have meets : r.meets range = true := meets_iff.mpr ⟨byte,new,covered⟩
      rw [granted u other range member] at meets
      cases meets
    · exact other (exclusive u t byte theirs old)
  intro u w byte mine theirs
  unfold RangeLocks.lock at mine theirs
  by_cases first : u = t <;> by_cases second : w = t
  · rw [first,second]
  · subst first
    rw [Function.update_self] at mine
    rw [Function.update_of_ne second] at theirs
    exact (apart w byte second theirs mine).elim
  · subst second
    rw [Function.update_self] at theirs
    rw [Function.update_of_ne first] at mine
    exact (apart u byte first mine theirs).elim
  · rw [Function.update_of_ne first] at mine
    rw [Function.update_of_ne second] at theirs
    exact exclusive u w byte mine theirs

end

end LinuxCoding.RangeLocks
