import LinuxCoding.Mytbf.Safety

-- What a pass of thr_alarm does, and that the threads never wait for each other in a ring.
namespace LinuxCoding.Mytbf.Threads
open CInt Locks Slots Transition

-- How often a bucket was refilled since the last pass began.
def Event.count (ptr : Ptr) (before : Nat) : Event → Nat
  | .began => 0
  | .refilled other => if other = ptr then before + 1 else before
  | _ => before

def since (ptr : Ptr) (log : List Event) : Nat := log.foldl (Event.count ptr) 0

-- The slot a pass has come to.
def AlarmPc.position : AlarmPc → Option Nat
  | .scanning i => some i
  | .locking i => some i
  | .inside i _ => some i
  | _ => none

section
variable {τ : Type}

def Passed (log : List Event) (s : State τ) : Prop :=
  ∀ k, s.alarm.position = some k → ∀ i ptr, s.memory.job i = some ptr → since ptr log = if i.val < k then 1 else 0

theorem position_holds {alarm : AlarmPc} (at_ : alarm.position = some k) : alarm.Holds .job := by
  cases alarm with
  | off | top | sleeping | crashed => cases at_
  | scanning | locking => exact rfl
  | inside => exact .inl rfl

theorem passed_quiet {s after : State τ} (passed : Passed log s) (same : after.alarm.position = s.alarm.position)
    (job : after.memory.job = s.memory.job) (quiet : ∀ ptr, emitted.foldl (Event.count ptr) (since ptr log) = since ptr log) :
    Passed (log ++ emitted) after := by
  intro k at_ i ptr held
  rw [since,List.foldl_append]
  rw [same] at at_
  rw [job] at held
  exact (quiet ptr).trans (passed k at_ i ptr held)

theorem passed_none {after : State τ} (none : after.alarm.position = .none) : Passed log after := by
  intro k at_
  rw [none] at at_
  cases at_

theorem table_outside {s : State τ} (sound : Sound s) (holds : (s.pc t).holds = some .job) : s.alarm.position = none := by
  cases at_ : s.alarm.position with
  | none => rfl
  | some k =>
    have same := owned_unique sound.owned (show s.Holds .alarm .job from position_holds at_) (show s.Holds (.caller t) .job from holds)
    cases same

-- One more slot is behind the thread, and it was empty.
theorem scan_passed {s : State τ} (passed : Passed log s) (at_ : s.alarm = .scanning n) :
    Passed (log ++ (scan n s).2) (scan n s).1 := by
  unfold scan
  split
  · rename_i bound
    cases held : s.memory.job ⟨n,bound⟩ with
    | none =>
      rintro k ⟨⟩ i ptr slot
      have there : s.memory.job i = some ptr := slot
      have count := passed n (by rw [at_]; rfl) i ptr there
      have apart : i.val ≠ n := by
        rintro rfl
        rw [held] at there
        cases there
      have same : i.val < n + 1 ↔ i.val < n := by omega
      simp only [List.append_nil,count,same]
    | some ptr =>
      have same : (AlarmPc.locking ⟨n,bound⟩).position = s.alarm.position := by rw [at_]; rfl
      exact passed_quiet passed same rfl (fun _ => rfl)
  · exact passed_none rfl

-- The bucket of this slot is in no other.
theorem refill_passed {s : State τ} (sound : Sound s) (passed : Passed log s) (at_ : s.alarm = .inside n ptr) :
    Passed (log ++ (refill n s).2) (refill n s).1 := by
  have held : s.memory.job n = some ptr := by
    have fits := sound.alarm
    rwa [at_] at fits
  obtain ⟨own,_,where_⟩ := slot_live sound held
  obtain ⟨me,_,ran⟩ := refill_ran sound at_
  rw [ran]
  rintro k ⟨⟩ i other slot
  have there : s.memory.job i = some other := slot
  have count := passed n (by rw [at_]; rfl) i other there
  rw [since,List.foldl_append]
  change Event.count other (since other log) (.refilled ptr) = _
  by_cases same : i = n
  · subst same
    rw [held] at there
    cases there
    simp [Event.count,count]
  · have apart : ptr ≠ other := by
      rintro rfl
      exact same (((where_ i).mp there).trans ((where_ n).mp held).symm)
    have index : i.val ≠ n.val := fun values => same (Fin.ext values)
    have before : i.val < n.val + 1 ↔ i.val < n.val := by omega
    simp only [Event.count,if_neg apart,count,before]

variable [DecidableEq τ]

theorem step_passed {s after : State τ} (sound : Sound s) (passed : Passed log s) (moves : Moves a s emitted after) :
    Passed (log ++ emitted) after := by
  cases moves with
  | once t cps burst at_ =>
    refine passed_quiet passed ?_ rfl (fun _ => rfl)
    change s.alarm.created.position = _
    cases s.alarm <;> rfl
  | malloc t memory garbage at_ fresh =>
    cases memory with
    | none => exact passed_quiet passed rfl rfl (fun _ => rfl)
    | some ptr => exact passed_quiet passed rfl rfl (fun _ => rfl)
  | lock | lockFreed | spurious | callDestroy => exact passed_quiet passed rfl rfl (fun _ => rfl)
  | @place _ ptr t at_ =>
    have outside := table_outside sound (show (s.pc t).holds = some .job by rw [at_]; rfl)
    apply passed_none
    unfold place
    cases getFreePos s.memory with
    | none => exact outside
    | some pos => cases s.memory.heap ptr <;> exact outside
  | callFetch t ptr size =>
    unfold callFetch
    split <;> exact passed_quiet passed rfl rfl (fun _ => rfl)
  | callReturn t ptr size =>
    unfold callReturn
    split <;> exact passed_quiet passed rfl rfl (fun _ => rfl)
  | @take _ ptr size t =>
    unfold take
    cases s.memory.heap ptr with
    | none => exact passed_quiet passed rfl rfl (fun _ => rfl)
    | some me => cases fetched : fetchToken size me <;> simp only [fetched] <;> exact passed_quiet passed rfl rfl (fun _ => rfl)
  | @give _ ptr size t =>
    unfold give
    cases s.memory.heap ptr <;> exact passed_quiet passed rfl rfl (fun _ => rfl)
  | @remove _ ptr t at_ =>
    have outside := table_outside sound (show (s.pc t).holds = some .job by rw [at_]; rfl)
    apply passed_none
    unfold remove
    cases s.memory.heap ptr <;> exact outside
  | @free _ ptr t at_ =>
    unfold free
    cases owner : s.owner (.bucket ptr) <;> cases live : s.memory.heap ptr <;> exact passed_quiet passed rfl rfl (fun _ => rfl)
  | begin =>
    rintro k ⟨⟩ i ptr _
    rw [since,List.foldl_append]
    rfl
  | scan at_ => exact scan_passed passed at_
  | @lockBucket ptr _ i at_ =>
    have same : (AlarmPc.inside i ptr).position = s.alarm.position := by rw [at_]; rfl
    exact passed_quiet passed same rfl (fun _ => rfl)
  | lockGone | sleep => exact passed_none rfl
  | refill at_ => exact refill_passed sound passed at_

theorem run_passed {s : State τ} (run : Runs Step start log s) : Passed log s := by
  induction run with
  | nil => exact passed_none rfl
  | step prior taken ih =>
    obtain ⟨a,moves⟩ := taken
    exact step_passed (reached_sound prior) ih moves

omit [DecidableEq τ] in
-- At the end of the table every bucket that can be used was refilled once in this pass.
theorem pass_refills {s : State τ} (sound : Sound s) (passed : Passed log s) (at_ : s.alarm = .scanning n) (last : mytbfMax ≤ n)
    (usable : s.role ptr = .usable) : since ptr log = 1 := by
  obtain ⟨me,_,where_⟩ := usable_live sound usable
  have held := (where_ me.pos).mpr rfl
  have small := me.pos.isLt
  rw [passed n (by rw [at_]; rfl) me.pos ptr held,if_pos (by omega)]

def Mutex.rank : Mutex → Nat
  | .job => 0
  | .bucket _ => 1

omit [DecidableEq τ] in
-- mut_job is taken before the mutex of a bucket, never after it.
theorem locks_ordered {s : State τ} (holds : s.Holds a m) (wants : s.Wants a k) : m.rank < k.rank := by
  cases a with
  | alarm =>
    have holds : s.alarm.Holds m := holds
    have wants : s.alarm.wants s.memory.job = some k := wants
    cases at_ : s.alarm with
    | off | sleeping | crashed | top =>
      rw [at_] at holds
      exact holds.elim
    | scanning | inside =>
      rw [at_] at wants
      cases wants
    | locking i =>
      rw [at_] at holds wants
      have first : m = .job := holds
      obtain ⟨ptr,_,rfl⟩ := Option.map_eq_some_iff.mp wants
      subst first
      exact Nat.zero_lt_one
  | caller t =>
    have holds : (s.pc t).holds = some m := holds
    rw [(wants_holds (show (s.pc t).wants = some k from wants)).1] at holds
    cases holds

omit [DecidableEq τ] in
theorem threads_deadlock_free {s : State τ} (sound : Sound s) (stuck : Set (Agent τ)) : ¬Deadlock s.owner s.Wants stuck := by
  have bounded : ∀ m : Mutex, m.rank ≤ 1 := by
    intro m
    cases m with
    | job => exact Nat.zero_le 1
    | bucket => exact Nat.le_refl 1
  exact no_deadlock sound.owned (fun _ _ _ => locks_ordered) bounded

theorem caller_moves {s : State τ} (holds : (s.pc t).holds = some m) : ∃ emitted after, Moves (.caller t) s emitted after := by
  cases at_ : s.pc t with
  | inited => exact ⟨_,_,.place t at_⟩
  | removing => exact ⟨_,_,.remove t at_⟩
  | fetched => exact ⟨_,_,.take t at_⟩
  | returned => exact ⟨_,_,.give t at_⟩
  | idle | entered | initing | fetching | asleep | returning | destroying | freeing | crashed =>
    rw [at_] at holds
    cases holds

-- Whoever holds a mutex can move, but for the alarm thread while a caller that can is in
-- the bucket it wants.
theorem holder_moves {s : State τ} (sound : Sound s) (owner : s.owner m = some a) : (∃ emitted after, Moves a s emitted after) ∨
    ∃ k b, s.Wants a k ∧ s.owner k = some b ∧ ∃ emitted after, Moves b s emitted after := by
  have holds := (sound.owned m a).mp owner
  cases a with
  | caller t => exact .inl (caller_moves holds)
  | alarm =>
    have holds : s.alarm.Holds m := holds
    have fits := sound.alarm
    cases at_ : s.alarm with
    | off | top | sleeping | crashed =>
      rw [at_] at holds
      exact holds.elim
    | scanning => exact .inl ⟨_,_,.scan at_⟩
    | inside => exact .inl ⟨_,_,.refill at_⟩
    | locking i =>
      rw [at_] at fits
      obtain ⟨ptr,held⟩ := Option.ne_none_iff_exists'.mp fits
      obtain ⟨me,live,_⟩ := slot_live sound held
      cases inside : s.owner (.bucket ptr) with
      | none => exact .inl ⟨_,_,.lockBucket at_ held (by simp [live]) inside⟩
      | some b =>
        refine .inr ⟨.bucket ptr,b,?_,inside,?_⟩
        · change s.alarm.wants s.memory.job = _
          rw [at_,AlarmPc.wants,held]
          rfl
        · have there := (sound.owned _ b).mp inside
          cases b with
          | caller u => exact caller_moves there
          | alarm =>
            have there : s.alarm.Holds (.bucket ptr) := there
            rw [at_] at there
            cases there

-- No thread uses freed memory; live buckets are in the table, each in a slot of its own;
-- a whole pass has refilled each of them once; and no threads wait in a ring.
structure Safe (log : List Event) (s : State τ) : Prop where
  alarm : s.alarm ≠ .crashed
  callers : ∀ t, s.pc t ≠ .crashed
  table : ∀ ptr, s.role ptr = .usable → ∃ me, s.memory.heap ptr = some me ∧ s.memory.job me.pos = some ptr
  distinct : ∀ p q me other, s.role p = .usable → s.role q = .usable → s.memory.heap p = some me → s.memory.heap q = some other →
    me.pos = other.pos → p = q
  passes : ∀ n ptr, s.alarm = .scanning n → mytbfMax ≤ n → s.role ptr = .usable → since ptr log = 1
  deadlockFree : ∀ stuck, ¬Deadlock s.owner s.Wants stuck
  moves : ∀ m a, s.owner m = some a → (∃ emitted after, Moves a s emitted after) ∨
    ∃ k b, s.Wants a k ∧ s.owner k = some b ∧ ∃ emitted after, Moves b s emitted after

theorem bucket_table_safe {s : State τ} (run : Runs Step start log s) : Safe log s := by
  have sound := reached_sound run
  refine ⟨?_,fun t => (sound.fits t).alive,?_,?_,?_,threads_deadlock_free sound,fun m a => holder_moves sound⟩
  · intro crashed
    have fits := sound.alarm
    rw [crashed] at fits
    exact fits
  · intro ptr usable
    obtain ⟨me,live,where_⟩ := usable_live sound usable
    exact ⟨me,live,(where_ me.pos).mpr rfl⟩
  · intro p q me other first second here there same
    obtain ⟨_,live,where_⟩ := usable_live sound first
    obtain ⟨_,found,elsewhere⟩ := usable_live sound second
    rw [here] at live
    cases live
    rw [there] at found
    cases found
    have left := (where_ me.pos).mpr rfl
    rw [same,(elsewhere other.pos).mpr rfl] at left
    exact (Option.some.inj left).symm
  · exact fun n ptr at_ last usable => pass_refills sound (run_passed run) at_ last usable

end

-- A pass comes to the slot of the bucket.
theorem table_shared : ∃ log, ∃ s : State Unit, Runs Step start log s ∧ .refilled 7 ∈ log ∧ Safe log s := by
  let scanning : State Unit := (oneBucket.lock .job .alarm).at (.scanning 0)
  let inside : State Unit := ((scanning.at (.locking slot0)).lock (.bucket 7) .alarm).at (.inside slot0 7)
  have begins : Runs Step oneBucket [.began] scanning := .one ⟨_,.begin rfl rfl⟩
  have scans : Runs Step scanning (Threads.scan 0 scanning).2 (Threads.scan 0 scanning).1 := .one ⟨_,.scan rfl⟩
  have enters : Runs Step (scanning.at (.locking slot0)) [] inside := .one ⟨_,.lockBucket rfl rfl (Option.some_ne_none _) rfl⟩
  have refills : Runs Step inside (Threads.refill slot0 inside).2 (Threads.refill slot0 inside).1 := .one ⟨_,.refill rfl⟩
  have run := (((oneBucket_reached.append begins).append scans).append enters).append refills
  exact ⟨_,_,run,List.mem_append_right _ List.mem_cons_self,bucket_table_safe run⟩

end LinuxCoding.Mytbf.Threads
