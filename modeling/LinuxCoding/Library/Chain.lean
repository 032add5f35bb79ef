import Mathlib.Logic.Function.Basic

-- Singly linked lists in a memory whose cells come and go.
namespace LinuxCoding.Chain

abbrev Addr : Type := Nat

structure Cell (α : Type) where
  value : α
  next : Option Addr
  deriving DecidableEq

-- A freed address holds nothing.
abbrev Heap (α : Type) : Type := Addr → Option (Cell α)

-- The cells that following `next` visits from a pointer to NULL, with their values.
inductive Path (heap : Heap α) : Option Addr → List (Addr × α) → Prop where
  | nil : Path heap none []
  | cons (a : Addr) : heap a = some ⟨v,after⟩ → Path heap after rest → Path heap (some a) ((a,v) :: rest)

def addrs (nodes : List (Addr × α)) : List Addr := nodes.map Prod.fst

theorem path_unique {heap : Heap α} (left : Path heap start nodes) (right : Path heap start others) : nodes = others := by
  induction left generalizing others with
  | nil =>
    cases right
    rfl
  | cons a here path ih =>
    cases right with
    | cons _ again rest =>
      rw [here] at again
      cases again
      rw [ih rest]

theorem path_live {heap : Heap α} (path : Path heap start nodes) (member : (a,v) ∈ nodes) :
    ∃ after, heap a = some ⟨v,after⟩ := by
  induction path with
  | nil => cases member
  | cons b here path ih =>
    rcases List.mem_cons.mp member with same | later
    · cases same
      exact ⟨_,here⟩
    · exact ih later

theorem path_from {heap : Heap α} (path : Path heap start nodes) (member : a ∈ addrs nodes) :
    ∃ suffix, Path heap (some a) suffix ∧ suffix.length ≤ nodes.length := by
  induction path with
  | nil => cases member
  | cons b here path ih =>
    rcases List.mem_cons.mp member with rfl | later
    · exact ⟨_,.cons a here path,Nat.le_refl _⟩
    · obtain ⟨suffix,found,short⟩ := ih later
      exact ⟨suffix,found,Nat.le_succ_of_le short⟩

-- A path that ends cannot come back to a cell.
theorem path_distinct {heap : Heap α} (path : Path heap start nodes) : (addrs nodes).Nodup := by
  induction path with
  | nil => exact List.nodup_nil
  | @cons v after rest a here path ih =>
    refine List.nodup_cons.mpr ⟨?_,ih⟩
    intro again
    obtain ⟨suffix,back,short⟩ := path_from path again
    have same := path_unique (.cons a here path) back
    have length := congrArg List.length same
    simp only [List.length_cons] at length
    omega

theorem path_frame {heap : Heap α} (path : Path heap start nodes) (outside : a ∉ addrs nodes) (cell : Option (Cell α)) :
    Path (Function.update heap a cell) start nodes := by
  induction path with
  | nil => exact .nil
  | cons b here path ih =>
    obtain ⟨other,outside⟩ := not_or.mp (fun both => outside (List.mem_cons.mpr both))
    refine .cons b ?_ (ih outside)
    rw [Function.update_of_ne (Ne.symm other)]
    exact here

theorem path_last {heap : Heap α} (path : Path heap start nodes) (last : nodes.getLast? = some (t,u)) :
    heap t = some ⟨u,none⟩ := by
  induction path with
  | nil => cases last
  | cons b here path ih =>
    cases path with
    | nil =>
      cases last
      exact here
    | cons c there rest => exact ih (by simpa [List.getLast?_cons_cons] using last)

-- The last cell is made to point to a fresh one.
theorem path_push {heap : Heap α} (path : Path heap start nodes) (last : nodes.getLast? = some (t,u))
    (new : heap a = some ⟨v,none⟩) (outside : a ∉ addrs nodes) :
    Path (Function.update heap t (some ⟨u,some a⟩)) start (nodes ++ [(a,v)]) := by
  have distinct := path_distinct path
  induction path with
  | nil => cases last
  | cons b here path ih =>
    obtain ⟨other,outside⟩ := not_or.mp (fun both => outside (List.mem_cons.mpr both))
    obtain ⟨fresh,distinct⟩ := List.nodup_cons.mp distinct
    cases path with
    | nil =>
      cases last
      refine .cons _ (Function.update_self ..) (.cons a ?_ .nil)
      rw [Function.update_of_ne other]
      exact new
    | cons c there rest =>
      rw [List.getLast?_cons_cons] at last
      have member : t ∈ addrs _ := List.mem_map.mpr ⟨_,List.mem_of_getLast? last,rfl⟩
      have apart : b ≠ t := by
        intro same
        apply fresh
        rw [same]
        exact member
      refine .cons b ?_ (ih last outside distinct)
      rw [Function.update_of_ne apart]
      exact here

end LinuxCoding.Chain
