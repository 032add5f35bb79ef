import LinuxCoding.Relay.Integrity

-- rel_addjob against the contract in relayer.h.
namespace LinuxCoding.Relay.Relayer
open Slots

def einval : Int := 22

-- One of the four calls of fcntl that prepare a job returns -1; `refused` is whether
-- F_SETFL does.
def Invalid (fcntl : Fcntl κ) (refused : Int → BitVec 32 → κ → Prop) (fd1 fd2 : Int) (files : κ) : Prop :=
  let fd1Save := fcntl.getfl fd1 files
  let after := fcntl.setfl fd1 (fd1Save ||| oNonblock) files
  let fd2Save := fcntl.getfl fd2 after
  fd1Save = -1 ∨ refused fd1 (fd1Save ||| oNonblock) files ∨ fd2Save = -1 ∨ refused fd2 (fd2Save ||| oNonblock) after

def Full (relJob : Jobs) : Prop := ∀ i, relJob i ≠ none

-- A job of the two descriptors, new in a slot that was empty.
def Stored (fd1 fd2 : Int) (relJob after : Jobs) (pos : Slot) : Prop :=
  relJob pos = none ∧ ∃ job : RelJobSt, job.fd1 = fd1 ∧ job.fd2 = fd2 ∧ after = Function.update relJob pos (some job)

-- A call in which several things fail may report any of them.
structure Contract (relJob : Jobs) (noMemory invalid : Prop) (fd1 fd2 : Int) (added : Added κ) : Prop where
  id : ∀ ret, added.ret = some ret → 0 ≤ ret → ∃ pos : Slot, ret = pos.val ∧ Stored fd1 fd2 relJob added.relJob pos
  error : ∀ ret, added.ret = some ret → ret < 0 → added.relJob = relJob ∧
    (ret = -enospc ∧ Full relJob ∨ ret = -enomem ∧ noMemory ∨ ret = -einval ∧ invalid)
  fails : noMemory ∨ invalid ∨ Full relJob → ∃ ret, added.ret = some ret ∧ ret < 0
  succeeds : ¬ noMemory → ¬ invalid → ¬ Full relJob → ∃ ret, added.ret = some ret ∧ 0 ≤ ret

-- The job is stored in the first empty slot, and then there is no value to return.
theorem addjob_stored {κ : Type} {relJob : Jobs} {pos : Slot} (fcntl : Fcntl κ) (me : RelJobSt) (fd1 fd2 : Int) (files : κ)
    (free : getFreePosUnlocked relJob = some pos) :
    Stored fd1 fd2 relJob (relAddjob fcntl (some me) fd1 fd2 relJob files).relJob pos ∧
    (relAddjob fcntl (some me) fd1 fd2 relJob files).ret = none := by
  unfold relAddjob
  dsimp only
  rw [free]
  exact ⟨⟨firstFree_empty free,_,rfl,rfl,rfl⟩,rfl⟩

theorem addjob_full {κ : Type} {relJob : Jobs} (fcntl : Fcntl κ) (me : RelJobSt) (fd1 fd2 : Int) (files : κ) (full : Full relJob) :
    (relAddjob fcntl (some me) fd1 fd2 relJob files).relJob = relJob ∧
    (relAddjob fcntl (some me) fd1 fd2 relJob files).ret = some (-enospc) := by
  have none_free : getFreePosUnlocked relJob = none := firstFree_full.mpr full
  unfold relAddjob
  dsimp only
  rw [none_free]
  exact ⟨rfl,rfl⟩

theorem stored_breaks {κ : Type} {relJob : Jobs} {invalid : Prop} (fcntl : Fcntl κ) (me : RelJobSt) (fd1 fd2 : Int) (files : κ)
    (free : ¬ Full relJob) : ¬ Contract relJob (some me = none) invalid fd1 fd2 (relAddjob fcntl (some me) fd1 fd2 relJob files) := by
  intro contract
  obtain ⟨pos,found⟩ : ∃ pos, getFreePosUnlocked relJob = some pos := by
    cases found : getFreePosUnlocked relJob with
    | some pos => exact ⟨pos,rfl⟩
    | none => exact absurd (firstFree_full.mp found) free
  have silent := (addjob_stored fcntl me fd1 fd2 files found).2
  have returns : ∃ ret, (relAddjob fcntl (some me) fd1 fd2 relJob files).ret = some ret := by
    by_cases bad : invalid
    · obtain ⟨ret,returned,_⟩ := contract.fails (.inr (.inl bad))
      exact ⟨ret,returned⟩
    · obtain ⟨ret,returned,_⟩ := contract.succeeds (by simp) bad free
      exact ⟨ret,returned⟩
  obtain ⟨ret,returned⟩ := returns
  rw [silent] at returned
  cases returned

-- An error that one of the failures explains, with the table as it was.
theorem error_contract {κ : Type} {relJob : Jobs} {noMemory invalid : Prop} {added : Added κ} (code : Int) (same : added.relJob = relJob)
    (returned : added.ret = some code) (negative : code < 0)
    (explained : code = -enospc ∧ Full relJob ∨ code = -enomem ∧ noMemory ∨ code = -einval ∧ invalid) :
    Contract relJob noMemory invalid fd1 fd2 added := by
  refine ⟨?_,?_,fun _ => ⟨code,returned,negative⟩,?_⟩
  · intro ret returns positive
    have equal : code = ret := Option.some.inj (returned.symm.trans returns)
    omega
  · intro ret returns _
    have equal : code = ret := Option.some.inj (returned.symm.trans returns)
    exact ⟨same,equal ▸ explained⟩
  · intro memory valid room
    rcases explained with ⟨_,full⟩ | ⟨_,short⟩ | ⟨_,bad⟩
    · exact absurd full room
    · exact absurd short memory
    · exact absurd bad valid

theorem contract_exact {κ : Type} (fcntl : Fcntl κ) (refused : Int → BitVec 32 → κ → Prop) (me : Option RelJobSt) (fd1 fd2 : Int)
    (relJob : Jobs) (files : κ) :
    Contract relJob (me = none) (Invalid fcntl refused fd1 fd2 files) fd1 fd2 (relAddjob fcntl me fd1 fd2 relJob files) ↔
      me = none ∨ Full relJob := by
  cases me with
  | none => exact ⟨fun _ => .inl rfl,fun _ => error_contract (-enomem) rfl rfl (by decide) (.inr (.inl ⟨rfl,rfl⟩))⟩
  | some me =>
    constructor
    · intro contract
      by_contra open_
      exact stored_breaks fcntl me fd1 fd2 files (fun full => open_ (.inr full)) contract
    · rintro (failed | full)
      · cases failed
      · obtain ⟨same,returned⟩ := addjob_full fcntl me fd1 fd2 files full
        exact error_contract (-enospc) same returned (by decide) (.inl ⟨rfl,full⟩)

-- Two open descriptors and an empty table.
def openFiles : Fcntl Unit := ⟨fun _ _ => 2,fun _ _ _ => ()⟩

theorem first_unanswered : ¬ Invalid openFiles (fun _ _ _ => False) 3 4 () ∧
    ¬ Contract empty (some blankJob = none) (Invalid openFiles (fun _ _ _ => False) 3 4 ()) 3 4
      (relAddjob openFiles (some blankJob) 3 4 empty ()) := by
  refine ⟨?_,stored_breaks openFiles blankJob 3 4 () (fun full => full first rfl)⟩
  simp [Invalid,openFiles]

end LinuxCoding.Relay.Relayer
