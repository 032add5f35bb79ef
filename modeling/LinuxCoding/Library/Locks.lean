import Mathlib.Data.Set.Basic
import Mathlib.Logic.Function.Basic

-- Mutexes whose holders are known from where each thread is in its program.
namespace LinuxCoding.Locks

section
variable {α μ : Type}

-- The owner recorded in each mutex is the thread that is in a section it guards.
def Owned (owner : μ → Option α) (holds : α → μ → Prop) : Prop := ∀ m a, owner m = some a ↔ holds a m

theorem owned_unique {owner : μ → Option α} {holds : α → μ → Prop} (owned : Owned owner holds)
    (left : holds a m) (right : holds b m) : a = b := by
  have same := ((owned m a).mpr left).symm.trans ((owned m b).mpr right)
  exact Option.some.inj same

theorem owned_same {owner : μ → Option α} {holds after : α → μ → Prop} (owned : Owned owner holds)
    (same : ∀ a m, after a m ↔ holds a m) : Owned owner after :=
  fun m a => (owned m a).trans (same a m).symm

variable [DecidableEq μ]

theorem owned_take {owner : μ → Option α} {holds after : α → μ → Prop} (owned : Owned owner holds) (free : owner m = none)
    (takes : ∀ b k, after b k ↔ holds b k ∨ b = a ∧ k = m) : Owned (Function.update owner m (some a)) after := by
  intro k b
  rw [takes]
  by_cases same : k = m
  · subst same
    have nobody : ¬holds b k := fun held => by
      have owner := (owned k b).mpr held
      rw [free] at owner
      cases owner
    simp [nobody,eq_comm]
  · rw [Function.update_of_ne same,owned k b]
    simp [same]

theorem owned_drop {owner : μ → Option α} {holds after : α → μ → Prop} (owned : Owned owner holds) (here : holds a m)
    (others : ∀ b k, b ≠ a → (after b k ↔ holds b k)) (drops : ∀ k, after a k ↔ holds a k ∧ k ≠ m) :
    Owned (Function.update owner m none) after := by
  intro k b
  have left : after b k ↔ holds b k ∧ k ≠ m := by
    by_cases mine : b = a
    · rw [mine,drops]
    · rw [others b k mine]
      constructor
      · intro held
        refine ⟨held,?_⟩
        rintro rfl
        exact mine (owned_unique owned held here)
      · exact And.left
  rw [left]
  by_cases same : k = m
  · subst same
    simp
  · rw [Function.update_of_ne same,owned k b]
    simp [same]

end

-- A nonempty set of threads each of which wants a mutex that one of them holds.
structure Deadlock (owner : μ → Option α) (wants : α → μ → Prop) (stuck : Set α) : Prop where
  some : stuck.Nonempty
  blocked : ∀ a ∈ stuck, ∃ m b, wants a m ∧ owner m = .some b ∧ b ∈ stuck

-- Mutexes taken in the order of a bounded rank never deadlock.
theorem no_deadlock {owner : μ → Option α} {holds wants : α → μ → Prop} {rank : μ → Nat} {bound : Nat} {stuck : Set α}
    (owned : Owned owner holds) (ordered : ∀ a m k, holds a m → wants a k → rank m < rank k)
    (bounded : ∀ m, rank m ≤ bound) : ¬Deadlock owner wants stuck := by
  intro deadlock
  have climbs : ∀ height, ∃ m b, owner m = some b ∧ b ∈ stuck ∧ height ≤ rank m := by
    intro height
    induction height with
    | zero =>
      obtain ⟨a,member⟩ := deadlock.some
      obtain ⟨m,b,_,held,inside⟩ := deadlock.blocked a member
      exact ⟨m,b,held,inside,Nat.zero_le _⟩
    | succ height ih =>
      obtain ⟨m,b,held,inside,high⟩ := ih
      obtain ⟨k,c,wanted,next,further⟩ := deadlock.blocked b inside
      have higher := ordered b m k ((owned m b).mp held) wanted
      exact ⟨k,c,next,further,by omega⟩
  obtain ⟨m,_,_,_,high⟩ := climbs (bound + 1)
  have low := bounded m
  omega

end LinuxCoding.Locks
