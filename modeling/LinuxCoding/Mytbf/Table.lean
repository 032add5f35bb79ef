import LinuxCoding.Library.Slots
import LinuxCoding.Library.Transition
import LinuxCoding.Mytbf.Bucket

-- The table of buckets, with every call and every pass of the refill loop in one step.
namespace LinuxCoding.Mytbf
open CInt Slots Transition

abbrev Ptr : Type := Nat

-- A freed address holds nothing.
structure Buckets where
  job : Table mytbfMax Ptr
  heap : Ptr → Option MytbfSt

-- mytbf/mytbf.c looks for a slot and then allocates, the threaded version the other way.
inductive Version where
  | signal
  | threaded
  deriving DecidableEq

def Buckets.write (b : Buckets) (ptr : Ptr) (me : MytbfSt) : Buckets := {b with heap := Function.update b.heap ptr (some me)}

def getFreePos (b : Buckets) : Option Slot := firstFree b.job

def publish (ptr : Ptr) (cps burst : IntValue) (pos : Slot) (b : Buckets) : Buckets :=
  {b.write ptr (newBucket cps burst pos) with job := Function.update b.job pos (some ptr)}

-- `memory` is what malloc returns.
def mytbfInit (version : Version) (memory : Option Ptr) (cps burst : IntValue) (b : Buckets) : Buckets × Option Ptr :=
  match version with
  | .signal =>
    match getFreePos b with
    | none => (b,none)
    | some pos =>
      match memory with
      | none => (b,none)
      | some ptr => (publish ptr cps burst pos b,some ptr)
  | .threaded =>
    match memory with
    | none => (b,none)
    | some ptr =>
      match getFreePos b with
      | none => (b,none)
      | some pos => (publish ptr cps burst pos b,some ptr)

def mytbfDestroy (ptr : Ptr) (me : MytbfSt) (b : Buckets) : Buckets :=
  ⟨Function.update b.job me.pos none,Function.update b.heap ptr none⟩

-- The refill of slot i; none is the use of a freed bucket.
def refillSlot (b : Buckets) (i : Slot) : Option Buckets :=
  match b.job i with
  | none => some b
  | some ptr => (b.heap ptr).map (fun me => b.write ptr me.refill)

def alrmHandler (b : Buckets) : Option Buckets := (List.finRange mytbfMax).foldlM refillSlot b

inductive Event where
  | inited (ret : Option Ptr) (cps burst : IntValue)
  | ticked
  | fetched (ptr : Ptr) (size : IntValue) (ret : Int)
  | gaveBack (ptr : Ptr) (size : IntValue) (ret : Int)
  | destroyed (ptr : Ptr)
  deriving DecidableEq

-- malloc returns an address that is not in use, and no call is made on a destroyed
-- bucket. A fetchToken that waits takes its step when there are tokens.
inductive Step (version : Version) : Buckets → List Event → Buckets → Prop where
  | init (memory : Option Ptr) (cps burst : IntValue) : (∀ ptr, memory = some ptr → b.heap ptr = none) →
      Step version b [.inited (mytbfInit version memory cps burst b).2 cps burst] (mytbfInit version memory cps burst b).1
  | tick : alrmHandler b = some after → Step version b [.ticked] after
  | fetch (ptr : Ptr) (size : IntValue) : b.heap ptr = some me → fetchToken size me = some (after,ret) →
      Step version b [.fetched ptr size ret] (b.write ptr after)
  | giveBack (ptr : Ptr) (size : IntValue) : b.heap ptr = some me →
      Step version b [.gaveBack ptr size (returnToken size me).2] (b.write ptr (returnToken size me).1)
  | destroy (ptr : Ptr) : b.heap ptr = some me → Step version b [.destroyed ptr] (mytbfDestroy ptr me b)

def noBuckets : Buckets := ⟨fun _ => none,fun _ => none⟩
def slot0 : Slot := ⟨0,by decide⟩

@[simp] theorem write_self (b : Buckets) (ptr : Ptr) (me : MytbfSt) : (b.write ptr me).heap ptr = some me := Function.update_self ..
theorem write_other (b : Buckets) (me : MytbfSt) (apart : other ≠ ptr) : (b.write ptr me).heap other = b.heap other :=
  Function.update_of_ne apart ..

@[simp] theorem destroy_self (ptr : Ptr) (me : MytbfSt) (b : Buckets) : (mytbfDestroy ptr me b).heap ptr = none := Function.update_self ..
@[simp] theorem destroy_slot (ptr : Ptr) (me : MytbfSt) (b : Buckets) : (mytbfDestroy ptr me b).job me.pos = none := Function.update_self ..
theorem destroy_other (me : MytbfSt) (b : Buckets) (apart : other ≠ ptr) : (mytbfDestroy ptr me b).heap other = b.heap other :=
  Function.update_of_ne apart ..
theorem destroy_elsewhere (ptr : Ptr) (b : Buckets) (apart : i ≠ me.pos) : (mytbfDestroy ptr me b).job i = b.job i :=
  Function.update_of_ne apart ..

@[simp] theorem publish_self (ptr : Ptr) (cps burst : IntValue) (pos : Slot) (b : Buckets) :
    (publish ptr cps burst pos b).heap ptr = some (newBucket cps burst pos) := Function.update_self ..
@[simp] theorem publish_slot (ptr : Ptr) (cps burst : IntValue) (pos : Slot) (b : Buckets) :
    (publish ptr cps burst pos b).job pos = some ptr := Function.update_self ..
theorem publish_other (cps burst : IntValue) (pos : Slot) (b : Buckets) (apart : other ≠ ptr) :
    (publish ptr cps burst pos b).heap other = b.heap other := Function.update_of_ne apart ..
theorem publish_elsewhere (ptr : Ptr) (cps burst : IntValue) (b : Buckets) (apart : i ≠ pos) :
    (publish ptr cps burst pos b).job i = b.job i := Function.update_of_ne apart ..

-- Slots and live buckets point at each other.
structure Paired (b : Buckets) : Prop where
  slots : ∀ i ptr, b.job i = some ptr → ∃ me, b.heap ptr = some me ∧ me.pos = i
  buckets : ∀ ptr me, b.heap ptr = some me → b.job me.pos = some ptr

theorem write_paired (paired : Paired b) (live : b.heap ptr = some me) (same : after.Is me) : Paired (b.write ptr after) := by
  constructor
  · intro i other held
    obtain ⟨found,present,pos⟩ := paired.slots i other held
    by_cases here : other = ptr
    · subst here
      rw [live] at present
      cases present
      exact ⟨after,write_self ..,same.2.2.trans pos⟩
    · exact ⟨found,(write_other b after here).trans present,pos⟩
  · intro other found present
    by_cases here : other = ptr
    · subst here
      rw [write_self] at present
      cases present
      rw [same.2.2]
      exact paired.buckets other me live
    · rw [write_other b after here] at present
      exact paired.buckets other found present

theorem publish_paired (paired : Paired b) (fresh : b.heap ptr = none) (free : b.job pos = none) (cps burst : IntValue) :
    Paired (publish ptr cps burst pos b) := by
  constructor
  · intro i other held
    by_cases here : i = pos
    · subst here
      rw [publish_slot] at held
      cases held
      exact ⟨_,publish_self ..,rfl⟩
    · rw [publish_elsewhere ptr cps burst b here] at held
      obtain ⟨found,present,at_⟩ := paired.slots i other held
      have apart : other ≠ ptr := by
        rintro rfl
        rw [fresh] at present
        cases present
      exact ⟨found,(publish_other cps burst pos b apart).trans present,at_⟩
  · intro other found present
    by_cases here : other = ptr
    · subst here
      rw [publish_self] at present
      cases present
      exact publish_slot ..
    · rw [publish_other cps burst pos b here] at present
      have held := paired.buckets other found present
      have apart : found.pos ≠ pos := by
        intro same
        rw [same,free] at held
        cases held
      exact (publish_elsewhere ptr cps burst b apart).trans held

theorem destroy_paired (paired : Paired b) (live : b.heap ptr = some me) : Paired (mytbfDestroy ptr me b) := by
  constructor
  · intro i other held
    by_cases here : i = me.pos
    · rw [here,destroy_slot] at held
      cases held
    · rw [destroy_elsewhere ptr b here] at held
      obtain ⟨found,present,at_⟩ := paired.slots i other held
      have apart : other ≠ ptr := by
        rintro rfl
        rw [live] at present
        cases present
        exact here at_.symm
      exact ⟨found,(destroy_other me b apart).trans present,at_⟩
  · intro other found present
    have apart : other ≠ ptr := by
      rintro rfl
      rw [destroy_self] at present
      cases present
    rw [destroy_other me b apart] at present
    have held := paired.buckets other found present
    have elsewhere : found.pos ≠ me.pos := by
      intro same
      rw [same,paired.buckets ptr me live] at held
      cases held
      exact apart rfl
    exact (destroy_elsewhere ptr b elsewhere).trans held

-- The loop of the handler over the slots still to visit refills the buckets there, once.
theorem refillSlots_exact (paired : Paired b) (slots : List Slot) (distinct : slots.Nodup) :
    ∃ after, slots.foldlM refillSlot b = some after ∧ Paired after ∧ after.job = b.job ∧
      ∀ ptr me, b.heap ptr = some me → after.heap ptr = some (if me.pos ∈ slots then me.refill else me) := by
  induction slots generalizing b with
  | nil => exact ⟨b,rfl,paired,rfl,fun ptr me live => by simpa using live⟩
  | cons i rest ih =>
    obtain ⟨fresh,distinct⟩ := List.nodup_cons.mp distinct
    cases held : b.job i with
    | none =>
      have skip : refillSlot b i = some b := by simp [refillSlot,held]
      obtain ⟨after,ran,kept,same,refilled⟩ := ih paired distinct
      refine ⟨after,by simp [skip,ran],kept,same,?_⟩
      intro ptr me live
      have apart : me.pos ≠ i := by
        intro here
        have pointed := paired.buckets ptr me live
        rw [here,held] at pointed
        cases pointed
      simp [refilled ptr me live,apart]
    | some owner =>
      obtain ⟨me,live,at_⟩ := paired.slots i owner held
      have visit : refillSlot b i = some (b.write owner me.refill) := by simp [refillSlot,held,live]
      obtain ⟨after,ran,kept,same,refilled⟩ := ih (write_paired paired live (refill_is me)) distinct
      refine ⟨after,by simp [visit,ran],kept,same,?_⟩
      intro ptr other present
      by_cases here : ptr = owner
      · subst here
        rw [live] at present
        cases present
        have last := refilled ptr me.refill (write_self ..)
        rw [(refill_is me).2.2,at_,if_neg fresh] at last
        rw [last,at_,if_pos List.mem_cons_self]
      · have elsewhere : other.pos ≠ i := by
          intro same
          have pointed := paired.buckets ptr other present
          rw [same,held] at pointed
          cases pointed
          exact here rfl
        rw [refilled ptr other ((write_other b _ here).trans present)]
        simp [elsewhere]

theorem alrmHandler_exact (paired : Paired b) : ∃ after, alrmHandler b = some after ∧ Paired after ∧
    ∀ ptr me, b.heap ptr = some me → after.heap ptr = some me.refill := by
  obtain ⟨after,ran,kept,-,refilled⟩ := refillSlots_exact paired (List.finRange mytbfMax) (List.nodup_finRange _)
  refine ⟨after,ran,kept,?_⟩
  intro ptr me live
  simpa using refilled ptr me live

end LinuxCoding.Mytbf
