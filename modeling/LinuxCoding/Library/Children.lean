import LinuxCoding.Library.Mutex
import LinuxCoding.Library.Total

-- A process that creates children one after the other, in a loop that a failure ends, and
-- then waits for them. The places are those of the children.
namespace LinuxCoding.Children
open Mutex Total

structure Parent where
  born : Nat
  failed : Bool
  reaped : Nat
  exited : Bool

def young : Parent := ⟨0,false,0,false⟩

def Parent.created (parent : Parent) (count : Nat) : Prop := parent.failed = true ∨ parent.born = count
def Parent.steps (parent : Parent) : Nat := parent.born + parent.failed.toNat + parent.reaped + parent.exited.toNat

section
variable {π : Type} {count : Nat} {born ended : π → Bool} {parent : Parent} {pc : Fin count → π} {p : Fin count} {old place : π}

-- The children that have been created, and those the parent has waited for.
structure Family (born ended : π → Bool) (parent : Parent) (pc : Fin count → π) : Prop where
  each : ∀ p, born (pc p) = decide (p.val < parent.born)
  children : tally born pc = parent.born
  most : parent.born ≤ count
  reaped : parent.reaped ≤ parent.born
  enough : parent.reaped ≤ tally ended pc
  last : parent.exited = true → parent.created count ∧ parent.reaped = parent.born

theorem young_family (born ended : π → Bool) (unborn : ∀ p, born (pc p) = false) : Family born ended young pc :=
  ⟨unborn,tally_zero unborn,Nat.zero_le _,Nat.le_refl _,Nat.zero_le _,nofun⟩

theorem Family.unborn (family : Family born ended parent pc) (turn : parent.born = p.val) : born (pc p) = false := by
  have young := family.each p
  rwa [turn,decide_eq_false (Nat.lt_irrefl _)] at young

-- A child that goes on has been born, and does not come back from its end.
theorem Family.goes (family : Family born ended parent pc) (here : pc p = old) (alive : ended old = false) (same : born place = born old) :
    Family born ended parent (Function.update pc p place) := by
  have more : tally ended pc ≤ tally ended (Function.update pc p place) := by
    have split := tally_update ended pc p place
    rw [here,alive] at split
    change _ + 0 = _ at split
    omega
  refine ⟨?_,(tally_same here same).trans family.children,family.most,family.reaped,Nat.le_trans family.enough more,family.last⟩
  refine update_all (P := fun (q : Fin count) place => born place = decide (q.val < parent.born)) family.each ?_
  rw [same,← here]
  exact family.each p

theorem Family.forks (family : Family born ended parent pc) (going : parent.failed = false) (turn : parent.born = p.val)
    (lives : born place = true) (alive : ended place = false) (unended : ended (pc p) = false) :
    Family born ended {parent with born := parent.born + 1} (Function.update pc p place) := by
  have unborn := family.unborn turn
  have inside := p.isLt
  refine ⟨?_,?_,?_,Nat.le_succ_of_le family.reaped,?_,?_⟩
  · intro q
    change born (Function.update pc p place q) = decide (q.val < parent.born + 1)
    by_cases own : q = p
    · rw [own,Function.update_self,turn,lives,decide_eq_true (Nat.lt_succ_self _)]
    · have apart : q.val ≠ p.val := fun same => own (Fin.ext same)
      rw [Function.update_of_ne own,family.each q]
      exact decide_eq_decide.mpr (by omega)
  · rw [tally_more rfl unborn lives,family.children]
  · change parent.born + 1 ≤ count
    omega
  · rw [tally_same rfl (alive.trans unended.symm)]
    exact family.enough
  · intro exited
    rcases (family.last exited).1 with failed | all
    · rw [going] at failed
      cases failed
    · omega

theorem Family.fails (family : Family born ended parent pc) : Family born ended {parent with failed := true} pc :=
  ⟨family.each,family.children,family.most,family.reaped,family.enough,fun exited => ⟨.inl rfl,(family.last exited).2⟩⟩

theorem Family.reaps (family : Family born ended parent pc) (less : parent.reaped < parent.born) (more : parent.reaped < tally ended pc) :
    Family born ended {parent with reaped := parent.reaped + 1} pc := by
  refine ⟨family.each,family.children,family.most,less,more,?_⟩
  intro exited
  have all := (family.last exited).2
  omega

theorem Family.exits (family : Family born ended parent pc) (created : parent.created count) (all : parent.reaped = parent.born) :
    Family born ended {parent with exited := true} pc :=
  ⟨family.each,family.children,family.most,family.reaped,family.enough,fun _ => ⟨created,all⟩⟩

-- While fewer have ended than have been born, one of those is still there.
theorem Family.alive (family : Family born ended parent pc) (fewer : tally ended pc < parent.born) : ∃ p, born (pc p) = true ∧ ended (pc p) = false := by
  by_contra none
  have below : tally born pc ≤ tally ended pc := by
    refine total_mono ?_
    intro p
    cases lives : born (pc p) with
    | false => exact Nat.zero_le _
    | true =>
      cases gone : ended (pc p) with
      | false => exact absurd ⟨p,lives,gone⟩ none
      | true => exact Nat.le_refl 1
  have children := family.children
  omega

-- When the parent has exited its children have.
theorem Family.gone (family : Family born ended parent pc) (grown : ∀ place, ended place = true → born place = true) (exited : parent.exited = true)
    (lives : born (pc p) = true) : ended (pc p) = true := by
  obtain ⟨_,all⟩ := family.last exited
  by_contra alive
  have less : tally ended pc < tally born pc := by
    refine Finset.sum_lt_sum ?_ ⟨p,Finset.mem_univ p,?_⟩
    · intro q _
      change (ended (pc q)).toNat ≤ (born (pc q)).toNat
      cases gone : ended (pc q) with
      | false => exact Nat.zero_le _
      | true => rw [grown _ gone]
    · change (ended (pc p)).toNat < (born (pc p)).toNat
      rw [lives,eq_false_of_ne_true alive]
      exact Nat.zero_lt_one
  have children := family.children
  have enough := family.enough
  omega

theorem Family.short (family : Family born ended parent pc) : parent.steps ≤ 2 * count + 2 := by
  have failed := Bool.toNat_le parent.failed
  have exited := Bool.toNat_le parent.exited
  have most := family.most
  have reaped := family.reaped
  unfold Parent.steps
  omega

end

end LinuxCoding.Children
