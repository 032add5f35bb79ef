import LinuxCoding.Mytbf.Threads

-- What every interleaving keeps: where a bucket is and who works on it go together.
namespace LinuxCoding.Mytbf.Threads
open CInt Locks Slots Transition

section
variable {τ : Type}

def Role.Placed (job : Slot → Option Ptr) (cell : Option MytbfSt) (ptr : Ptr) : Role τ → Prop
  | .fresh => cell = none ∧ ∀ i, job i ≠ some ptr
  | .building _ => cell ≠ none ∧ ∀ i, job i ≠ some ptr
  | .unlinked _ => cell ≠ none ∧ ∀ i, job i ≠ some ptr
  | .usable => ∃ me, cell = some me ∧ ∀ i, job i = some ptr ↔ i = me.pos
  | .leaving _ => ∃ me, cell = some me ∧ ∀ i, job i = some ptr ↔ i = me.pos

-- What a caller takes for granted of the bucket its call is about.
def Pc.needs (t : τ) : Pc → Option (Ptr × Role τ)
  | .initing ptr => some (ptr,.building t)
  | .inited ptr => some (ptr,.building t)
  | .fetching ptr _ => some (ptr,.usable)
  | .fetched ptr _ => some (ptr,.usable)
  | .asleep ptr _ => some (ptr,.usable)
  | .returning ptr _ => some (ptr,.usable)
  | .returned ptr _ => some (ptr,.usable)
  | .destroying ptr => some (ptr,.leaving t)
  | .removing ptr => some (ptr,.leaving t)
  | .freeing ptr => some (ptr,.unlinked t)
  | _ => none

structure Pc.Fits (t : τ) (role : Ptr → Role τ) (pc : Pc) : Prop where
  alive : pc ≠ .crashed
  granted : ∀ ptr r, pc.needs t = some (ptr,r) → role ptr = r

def AlarmPc.Fits (job : Slot → Option Ptr) : AlarmPc → Prop
  | .locking i => job i ≠ none
  | .inside i ptr => job i = some ptr
  | .crashed => False
  | _ => True

-- The thread that alone may touch the bucket.
def Role.Of (t : τ) : Role τ → Prop
  | .building u => u = t
  | .leaving u => u = t
  | .unlinked u => u = t
  | _ => False

structure Sound (s : State τ) : Prop where
  placed : ∀ ptr, (s.role ptr).Placed s.memory.job (s.memory.heap ptr) ptr
  fits : ∀ t, (s.pc t).Fits t s.role
  alarm : s.alarm.Fits s.memory.job
  owned : Owned s.owner s.Holds

theorem listed {role : Role τ} (placed : role.Placed job cell ptr) (held : job i = some ptr) :
    ∃ me, cell = some me ∧ ∀ k, job k = some ptr ↔ k = me.pos := by
  cases role with
  | fresh => exact absurd held (placed.2 i)
  | building t => exact absurd held (placed.2 i)
  | unlinked t => exact absurd held (placed.2 i)
  | usable => exact placed
  | leaving t => exact placed

-- A bucket that is written to stays where it is.
theorem placed_write {role : Role τ} (placed : role.Placed job (some me) ptr) (same : after.pos = me.pos) :
    role.Placed job (some after) ptr := by
  cases role with
  | fresh => exact absurd placed.1 (Option.some_ne_none _)
  | building t => exact ⟨Option.some_ne_none _,placed.2⟩
  | unlinked t => exact ⟨Option.some_ne_none _,placed.2⟩
  | usable =>
    obtain ⟨other,here,at_⟩ := placed
    cases here
    exact ⟨after,rfl,fun i => by rw [same]; exact at_ i⟩
  | leaving t =>
    obtain ⟨other,here,at_⟩ := placed
    cases here
    exact ⟨after,rfl,fun i => by rw [same]; exact at_ i⟩

theorem placed_elsewhere {role : Role τ} (placed : role.Placed job cell ptr) (same : ∀ i, after i = some ptr ↔ job i = some ptr) :
    role.Placed after cell ptr := by
  cases role with
  | fresh => exact ⟨placed.1,fun i held => placed.2 i ((same i).mp held)⟩
  | building t => exact ⟨placed.1,fun i held => placed.2 i ((same i).mp held)⟩
  | unlinked t => exact ⟨placed.1,fun i held => placed.2 i ((same i).mp held)⟩
  | usable =>
    obtain ⟨me,here,at_⟩ := placed
    exact ⟨me,here,fun i => (same i).trans (at_ i)⟩
  | leaving t =>
    obtain ⟨me,here,at_⟩ := placed
    exact ⟨me,here,fun i => (same i).trans (at_ i)⟩

-- A bucket is put into an empty slot of the table, or taken out of its slot.
theorem put_others {job : Slot → Option Ptr} (empty : job pos = none) (other : q ≠ ptr) (i : Slot) :
    Function.update job pos (some ptr) i = some q ↔ job i = some q := by
  by_cases here : i = pos
  · simp [here,empty,Ne.symm other]
  · simp [here]

theorem put_own {job : Slot → Option Ptr} (unlisted : ∀ i, job i ≠ some ptr) (i : Slot) :
    Function.update job pos (some ptr) i = some ptr ↔ i = pos := by
  by_cases here : i = pos
  · simp [here]
  · simp [here,unlisted i]

theorem cut_others {job : Slot → Option Ptr} (there : job pos = some ptr) (other : q ≠ ptr) (i : Slot) :
    Function.update job pos none i = some q ↔ job i = some q := by
  by_cases here : i = pos
  · simp [here,there,Ne.symm other]
  · simp [here]

theorem cut_own {job : Slot → Option Ptr} (there : ∀ i, job i = some ptr ↔ i = pos) (i : Slot) :
    Function.update job pos none i ≠ some ptr := by
  by_cases here : i = pos
  · simp [here]
  · simp [here,there i]

theorem wake_needs (pc : Pc) (woken : Ptr) (t : τ) : (pc.wake woken).needs t = pc.needs t := by
  cases pc with
  | asleep ptr size =>
    by_cases same : ptr = woken
    · simp [Pc.wake,same,Pc.needs]
    · simp [Pc.wake,same]
  | _ => rfl

theorem wake_crashed (pc : Pc) (woken : Ptr) : pc.wake woken = .crashed ↔ pc = .crashed := by
  cases pc with
  | asleep ptr size =>
    by_cases same : ptr = woken
    · simp [Pc.wake,same]
    · simp [Pc.wake,same]
  | _ => simp [Pc.wake]

theorem wake_fits {pc : Pc} {role : Ptr → Role τ} (fits : pc.Fits t role) (woken : Ptr) : (pc.wake woken).Fits t role := by
  refine ⟨fun crashed => fits.alive ((wake_crashed pc woken).mp crashed),?_⟩
  rw [wake_needs]
  exact fits.granted

theorem wake_holds (pc : Pc) (woken : Ptr) : (pc.wake woken).holds = pc.holds := by
  cases pc with
  | asleep ptr size =>
    by_cases same : ptr = woken
    · simp [Pc.wake,same,Pc.holds]
    · simp [Pc.wake,same]
  | _ => rfl

theorem needs_ptr (pc : Pc) (t : τ) : pc.ptr = (pc.needs t).map Prod.fst := by cases pc <;> rfl

theorem needs_of {pc : Pc} {t u : τ} (needs : pc.needs u = some (ptr,r)) (mine : r.Of t) : u = t := by
  cases pc with
  | idle | entered | crashed => cases needs
  | initing | inited | destroying | removing | freeing =>
    cases needs
    exact mine
  | fetching | fetched | asleep | returning | returned =>
    cases needs
    exact mine.elim

theorem fresh_alone {pc : Pc} {role : Ptr → Role τ} (fits : pc.Fits u role) (fresh : role ptr = .fresh) : pc.ptr ≠ some ptr := by
  intro at_
  rw [needs_ptr pc u] at at_
  obtain ⟨⟨other,r⟩,needs,rfl⟩ := Option.map_eq_some_iff.mp at_
  rw [fits.granted other r needs] at fresh
  cases pc with
  | idle | entered | crashed => cases needs
  | initing | inited | destroying | removing | freeing | fetching | fetched | asleep | returning | returned =>
    cases needs
    cases fresh

-- Nobody else is at a bucket one thread builds or takes away.
theorem of_alone {pc : Pc} {role : Ptr → Role τ} (fits : pc.Fits u role) (mine : (role ptr).Of t) (at_ : pc.ptr = some ptr) : u = t := by
  rw [needs_ptr pc u] at at_
  obtain ⟨⟨other,r⟩,needs,rfl⟩ := Option.map_eq_some_iff.mp at_
  rw [fits.granted other r needs] at mine
  exact needs_of needs mine

end

section
variable {τ : Type} [DecidableEq τ]

omit [DecidableEq τ] in
theorem fits_elsewhere {pc : Pc} {role : Ptr → Role τ} (fits : pc.Fits t role) (apart : pc.ptr ≠ some ptr) (new : Role τ) :
    pc.Fits t (Function.update role ptr new) := by
  refine ⟨fits.alive,?_⟩
  intro other r needs
  have elsewhere : other ≠ ptr := by
    rintro rfl
    exact apart (by rw [needs_ptr pc t,needs]; rfl)
  rw [Function.update_of_ne elsewhere]
  exact fits.granted other r needs

theorem fits_goto {pcs : τ → Pc} {role : Ptr → Role τ} (fits : ∀ u, (pcs u).Fits u role) (own : pc.Fits t role) :
    ∀ u, (Function.update pcs t pc u).Fits u role := by
  intro u
  by_cases same : u = t
  · subst same
    rw [Function.update_self]
    exact own
  · rw [Function.update_of_ne same]
    exact fits u

-- A bucket changes its role under the one thread that is at it.
theorem fits_become {pcs : τ → Pc} {role : Ptr → Role τ} (fits : ∀ u, (pcs u).Fits u role)
    (alone : ∀ u, (pcs u).ptr = some ptr → u = t) (own : pc.Fits t (Function.update role ptr new)) :
    ∀ u, (Function.update pcs t pc u).Fits u (Function.update role ptr new) := by
  intro u
  by_cases same : u = t
  · subst same
    rw [Function.update_self]
    exact own
  · rw [Function.update_of_ne same]
    exact fits_elsewhere (fits u) (fun at_ => same (alone u at_)) new

omit [DecidableEq τ] in
theorem placed_update {job after : Slot → Option Ptr} {heap : Ptr → Option MytbfSt} {role : Ptr → Role τ}
    (placed : ∀ q, (role q).Placed job (heap q) q) (others : ∀ q, q ≠ ptr → ∀ i, after i = some q ↔ job i = some q)
    (own : new.Placed after cell ptr) : ∀ q, (Function.update role ptr new q).Placed after (Function.update heap ptr cell q) q := by
  intro q
  by_cases same : q = ptr
  · subst same
    rw [Function.update_self,Function.update_self]
    exact own
  · rw [Function.update_of_ne same,Function.update_of_ne same]
    exact placed_elsewhere (placed q) (others q same)

omit [DecidableEq τ] in
theorem placed_become {job after : Slot → Option Ptr} {heap : Ptr → Option MytbfSt} {role : Ptr → Role τ}
    (placed : ∀ q, (role q).Placed job (heap q) q) (others : ∀ q, q ≠ ptr → ∀ i, after i = some q ↔ job i = some q)
    (own : new.Placed after (heap ptr) ptr) : ∀ q, (Function.update role ptr new q).Placed after (heap q) q := by
  have updated := placed_update placed others own
  rwa [Function.update_eq_self] at updated

omit [DecidableEq τ] in
theorem placed_stays {job : Slot → Option Ptr} {heap : Ptr → Option MytbfSt} {role : Ptr → Role τ}
    (placed : ∀ q, (role q).Placed job (heap q) q) (live : heap ptr = some me) (same : after.pos = me.pos) :
    ∀ q, (role q).Placed job (Function.update heap ptr (some after) q) q := by
  have own := placed ptr
  rw [live] at own
  have updated := placed_update placed (fun _ _ _ => Iff.rfl) (placed_write own same)
  rwa [Function.update_eq_self] at updated

-- Which mutexes the threads hold, when one of them moves on.
theorem goto_holds (s : State τ) (t : τ) (pc : Pc) : (s.goto t pc).Holds a m ↔
    a = .caller t ∧ pc.holds = some m ∨ a ≠ .caller t ∧ s.Holds a m := by
  cases a with
  | alarm => simp [State.Holds,State.goto]
  | caller u =>
    by_cases same : u = t
    · simp [State.Holds,State.goto,same]
    · simp [State.Holds,State.goto,same]

theorem owned_goto {s : State τ} (owned : Owned s.owner s.Holds) (same : pc.holds = (s.pc t).holds) :
    Owned s.owner (s.goto t pc).Holds := by
  apply owned_same owned
  intro a m
  rw [goto_holds,same]
  by_cases mine : a = .caller t
  · simp [mine,State.Holds]
  · simp [mine]

theorem owned_lock {s : State τ} (owned : Owned s.owner s.Holds) (free : s.owner m = none) (before : (s.pc t).holds = none)
    (holds : pc.holds = some m) : Owned (Function.update s.owner m (some (.caller t))) (s.goto t pc).Holds := by
  apply owned_take owned free
  intro a k
  rw [goto_holds,holds]
  by_cases mine : a = .caller t
  · simp [mine,State.Holds,before,eq_comm]
  · simp [mine]

theorem owned_unlock {s : State τ} (owned : Owned s.owner s.Holds) (before : (s.pc t).holds = some m) (after : pc.holds = none) :
    Owned (Function.update s.owner m none) (s.goto t pc).Holds := by
  have here : s.Holds (.caller t) m := before
  refine owned_drop owned here ?_ ?_
  · intro a k other
    rw [goto_holds]
    simp [other]
  · intro k
    rw [goto_holds,after]
    simp [State.Holds,before,eq_comm]

omit [DecidableEq τ] in
theorem at_holds (s : State τ) (alarm : AlarmPc) : (s.at alarm).Holds a m ↔ a = .alarm ∧ alarm.Holds m ∨ a ≠ .alarm ∧ s.Holds a m := by
  cases a with
  | alarm => simp [State.Holds,State.at]
  | caller u => simp [State.Holds,State.at]

omit [DecidableEq τ] in
theorem owned_at {s : State τ} (owned : Owned s.owner s.Holds) (same : ∀ m, alarm.Holds m ↔ s.alarm.Holds m) :
    Owned s.owner (s.at alarm).Holds := by
  apply owned_same owned
  intro a m
  rw [at_holds,same]
  by_cases mine : a = .alarm
  · simp [mine,State.Holds]
  · simp [mine]

omit [DecidableEq τ] in
theorem owned_atLock {s : State τ} (owned : Owned s.owner s.Holds) (free : s.owner m = none)
    (takes : ∀ k, alarm.Holds k ↔ s.alarm.Holds k ∨ k = m) : Owned (Function.update s.owner m (some .alarm)) (s.at alarm).Holds := by
  apply owned_take owned free
  intro a k
  rw [at_holds,takes]
  by_cases mine : a = .alarm
  · simp [mine,State.Holds]
  · simp [mine]

omit [DecidableEq τ] in
theorem owned_atUnlock {s : State τ} (owned : Owned s.owner s.Holds) (before : s.alarm.Holds m)
    (drops : ∀ k, alarm.Holds k ↔ s.alarm.Holds k ∧ k ≠ m) : Owned (Function.update s.owner m none) (s.at alarm).Holds := by
  have here : s.Holds .alarm m := before
  refine owned_drop owned here ?_ ?_
  · intro a k other
    rw [at_holds]
    simp [other]
  · intro k
    rw [at_holds,drops]
    simp [State.Holds]

omit [DecidableEq τ] in
theorem owned_broadcast {s : State τ} (owned : Owned s.owner s.Holds) (ptr : Ptr) : Owned s.owner (s.broadcast ptr).Holds := by
  apply owned_same owned
  intro a m
  cases a with
  | alarm => rfl
  | caller u =>
    change ((s.pc u).wake ptr).holds = some m ↔ _
    rw [wake_holds]
    rfl

end
end LinuxCoding.Mytbf.Threads
