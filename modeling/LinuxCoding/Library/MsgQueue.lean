import Mathlib.Algebra.Ring.Nat
import Mathlib.Data.List.Basic

-- System V message queues: messages of several types wait in one list, and a receiver
-- takes the first one of its type.
namespace LinuxCoding.MsgQueue
variable {μ : Type} (mtype size : μ → Nat)

-- msgsnd waits until the message fits: neither the bytes of all bodies nor the number of
-- messages may pass msg_qbytes.
def msgsnd (qbytes : Nat) (queue : List μ) (message : μ) : Option (List μ) :=
  if (queue.map size).sum + size message ≤ qbytes ∧ queue.length + 1 ≤ qbytes then some (queue ++ [message]) else none

def msgrcv (type : Nat) (queue : List μ) : Option (μ × List μ) :=
  (queue.find? (fun message => mtype message = type)).map (·,queue.eraseP (fun message => mtype message = type))

def ofType (type : Nat) (queue : List μ) : List μ := queue.filter (fun message => mtype message = type)

theorem msgsnd_some {size : μ → Nat} (sent : msgsnd size qbytes queue message = some after) : after = queue ++ [message] := by
  unfold msgsnd at sent
  split at sent
  · cases sent
    rfl
  · cases sent

theorem msgsnd_empty {size : μ → Nat} (fits : size message ≤ qbytes) (positive : 0 < qbytes) :
    msgsnd size qbytes [] message = some [message] := by
  apply if_pos
  constructor
  · simpa using fits
  · exact positive

@[simp] theorem ofType_append : ofType mtype type (left ++ right) = ofType mtype type left ++ ofType mtype type right :=
  List.filter_append ..

theorem ofType_same (same : mtype message = type) : ofType mtype type (queue ++ [message]) = ofType mtype type queue ++ [message] := by
  simp [ofType,same]

theorem ofType_other (other : mtype message ≠ type) : ofType mtype type (queue ++ [message]) = ofType mtype type queue := by
  simp [ofType,other]

theorem msgrcv_split (received : msgrcv mtype type queue = some (message,rest)) :
    mtype message = type ∧ ∃ before after, queue = before ++ message :: after ∧ rest = before ++ after ∧
      ∀ earlier ∈ before, mtype earlier ≠ type := by
  simp only [msgrcv,Option.map_eq_some_iff,Prod.mk.injEq] at received
  obtain ⟨first,found,rfl,rfl⟩ := received
  obtain ⟨typed,before,after,rfl,others⟩ := List.find?_eq_some_iff_append.mp found
  have passed : ∀ earlier ∈ before, mtype earlier ≠ type := by simpa using others
  refine ⟨of_decide_eq_true typed,before,after,rfl,?_,passed⟩
  rw [List.eraseP_append_right _ (by simpa using passed)]
  exact congrArg (before ++ ·) (List.eraseP_cons_of_pos (p := fun message => decide (mtype message = type)) typed)

-- The messages of one type leave in the order in which they came, and those of the other
-- types stay.
theorem msgrcv_some (received : msgrcv mtype type queue = some (message,rest)) :
    mtype message = type ∧ ofType mtype type queue = message :: ofType mtype type rest ∧
      ∀ other, other ≠ type → ofType mtype other rest = ofType mtype other queue := by
  obtain ⟨typed,before,after,rfl,rfl,passed⟩ := msgrcv_split mtype received
  refine ⟨typed,?_,?_⟩
  · have nothing : ofType mtype type before = [] := by simpa [ofType,List.filter_eq_nil_iff] using passed
    rw [ofType_append,ofType_append,nothing]
    simp [ofType,typed]
  · intro other apart
    have elsewhere : mtype message ≠ other := by
      rw [typed]
      exact apart.symm
    simp [ofType,elsewhere]

theorem msgrcv_perm (received : msgrcv mtype type queue = some (message,rest)) : queue.Perm (message :: rest) := by
  obtain ⟨_,before,after,rfl,rfl,_⟩ := msgrcv_split mtype received
  exact List.perm_middle

theorem msgrcv_rest (received : msgrcv mtype type queue = some (message,rest)) (member : other ∈ rest) : other ∈ queue :=
  (msgrcv_perm mtype received).mem_iff.mpr (List.mem_cons_of_mem message member)

theorem msgrcv_none : msgrcv mtype type queue = none ↔ ofType mtype type queue = [] := by
  simp [msgrcv,ofType,List.filter_eq_nil_iff]

theorem ofType_nil (waits : ∀ message rest, msgrcv mtype type queue ≠ some (message,rest)) : ofType mtype type queue = [] := by
  apply (msgrcv_none mtype).mp
  cases received : msgrcv mtype type queue with
  | none => rfl
  | some taken => exact absurd received (waits taken.1 taken.2)

end LinuxCoding.MsgQueue
