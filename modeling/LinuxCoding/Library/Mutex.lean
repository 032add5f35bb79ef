import Mathlib.Logic.Function.Basic

-- One mutex, and threads whose program counters tell which of them holds it.
namespace LinuxCoding.Mutex

section
variable {τ π : Type} {holds : π → Bool} {owner : Option τ} {pc : τ → π}

def Owned (holds : π → Bool) (owner : Option τ) (pc : τ → π) : Prop := ∀ t, owner = some t ↔ holds (pc t) = true

theorem owned_unique (owned : Owned holds owner pc) (held : holds (pc t) = true) (held' : holds (pc u) = true) : t = u := by
  have same := ((owned t).mpr held).symm.trans ((owned u).mpr held')
  exact Option.some.inj same

theorem owned_map (owned : Owned holds owner pc) (f : π → π) (same : ∀ p, holds (f p) = holds p) : Owned holds owner (fun t => f (pc t)) := by
  intro t
  rw [owned t,same]

variable [DecidableEq τ]

-- What holds at each place is kept when it holds at the new one.
theorem update_all {P : τ → π → Prop} (kept : ∀ u, P u (pc u)) (new : P t p) : ∀ u, P u (Function.update pc t p u) :=
  (Function.forall_update_iff pc P).mpr ⟨new,fun u _ => kept u⟩

-- A place that a thread has not just come to is an older one of another thread.
theorem elsewhere (there : Function.update pc t p u = q) (differs : p ≠ q) : u ≠ t ∧ pc u = q := by
  by_cases own : u = t
  · rw [own,Function.update_self] at there
    exact absurd there differs
  · rw [Function.update_of_ne own] at there
    exact ⟨own,there⟩

-- What a thread does to the mutex on its way from one place to another.
theorem owned_stay (owned : Owned holds owner pc) (place : pc t = q) (same : holds p = holds q) : Owned holds owner (Function.update pc t p) := by
  intro u
  by_cases own : u = t
  · subst own
    rw [Function.update_self,owned u,same,place]
  · rw [Function.update_of_ne own,owned u]

theorem owned_take (owned : Owned holds owner pc) (free : owner = none) (held : holds p = true) : Owned holds (some t) (Function.update pc t p) := by
  subst free
  intro u
  by_cases own : u = t
  · subst own
    rw [Function.update_self,held]
    simp
  · rw [Function.update_of_ne own,← owned u]
    simp [Ne.symm own]

theorem owned_drop (owned : Owned holds owner pc) (place : pc t = q) (held : holds q = true) (released : holds p = false) :
    Owned holds none (Function.update pc t p) := by
  rw [← place] at held
  intro u
  by_cases own : u = t
  · subst own
    rw [Function.update_self,released]
    simp
  · rw [Function.update_of_ne own]
    constructor
    · intro free
      cases free
    · intro held'
      exact absurd (owned_unique owned held' held) own

end

end LinuxCoding.Mutex
