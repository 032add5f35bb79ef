import LinuxCoding.Relay.Driver

-- The two machines of a relay() loop and what one pass of the loop does to them.
namespace LinuxCoding.Relay

structure Machines where
  fsm12 : RelFsmSt
  fsm21 : RelFsmSt

def Machines.fsm (m : Machines) : Direction → RelFsmSt
  | .fsm12 => m.fsm12
  | .fsm21 => m.fsm21

-- The local variables of relay before its loop, over any stack content.
def start (s : States) (fd1 fd2 : Int) (stack : Machines) : Machines :=
  ⟨{stack.fsm12 with state := s.stateR,sfd := fd1,dfd := fd2},
    {stack.fsm21 with state := s.stateR,sfd := fd2,dfd := fd1}⟩

def blank : Machines := ⟨blankFsm,blankFsm⟩

-- The negation of the loop condition.
def Finished (s : States) (m : Machines) : Prop := m.fsm12.state = s.stateT ∧ m.fsm21.state = s.stateT

instance (s : States) (m : Machines) : Decidable (Finished s m) :=
  inferInstanceAs (Decidable (m.fsm12.state = s.stateT ∧ m.fsm21.state = s.stateT))

-- `calls` are the directions on which the pass called fsm_driver; a blocked pass
-- is still in the call that waits for a descriptor.
inductive Pass (σ : Type) where
  | again (after : σ) (calls : List Direction)
  | blocked
  | interrupted
  | exited
  | aborted

def Pass.map (f : σ → τ) : Pass σ → Pass τ
  | .again after calls => .again (f after) calls
  | .blocked => .blocked
  | .interrupted => .interrupted
  | .exited => .exited
  | .aborted => .aborted

theorem Pass.map_again {f : σ → τ} {p : Pass σ} (ran : p.map f = .again after calls) :
    ∃ before, p = .again before calls ∧ f before = after := by
  cases p with
  | again before own =>
    cases ran
    exact ⟨before,rfl,rfl⟩
  | blocked | interrupted | exited | aborted => cases ran

def driveIf (s : States) (test : Bool) (fsm : RelFsmSt) (answer : Answer) : Option RelFsmSt :=
  if test then (fsmDriver s fsm answer).map Prod.fst else some fsm

def driveBoth (s : States) (m : Machines) (test12 test21 : Bool) (answer12 answer21 : Answer) : Pass Machines :=
  match driveIf s test12 m.fsm12 answer12 with
  | none => .aborted
  | some fsm12 =>
    match driveIf s test21 m.fsm21 answer21 with
    | none => .aborted
    | some fsm21 =>
      .again ⟨fsm12,fsm21⟩ ((if test12 then [.fsm12] else []) ++ if test21 then [.fsm21] else [])

structure Wired (s : States) (fd1 fd2 : Int) (m : Machines) : Prop where
  known : ∀ d, Known s (m.fsm d)
  sfd12 : m.fsm12.sfd = fd1
  dfd12 : m.fsm12.dfd = fd2
  sfd21 : m.fsm21.sfd = fd2
  dfd21 : m.fsm21.dfd = fd1

theorem start_wired (s : States) (fd1 fd2 : Int) (stack : Machines) : Wired s fd1 fd2 (start s fd1 fd2 stack) := by
  refine ⟨?_,rfl,rfl,rfl,rfl⟩
  intro d
  cases d <;> exact .inl rfl

theorem driver_frame (ran : fsmDriver s fsm answer = some (next,effect)) :
    Known s next ∧ next.sfd = fsm.sfd ∧ next.dfd = fsm.dfd := by
  cases driver_sound ran with
  | readEnd => exact ⟨.inr (.inr (.inr rfl)),rfl,rfl⟩
  | readAgain => exact ⟨.inl rfl,rfl,rfl⟩
  | readError => exact ⟨.inr (.inr (.inl rfl)),rfl,rfl⟩
  | readBytes => exact ⟨.inr (.inl rfl),rfl,rfl⟩
  | writeAgain => exact ⟨.inr (.inl rfl),rfl,rfl⟩
  | writeError => exact ⟨.inr (.inr (.inl rfl)),rfl,rfl⟩
  | wrote ret =>
    refine ⟨?_,rfl,rfl⟩
    by_cases done : fsm.len - ret = 0
    · exact .inl (if_pos done)
    · exact .inr (.inl (if_neg done))
  | report => exact ⟨.inr (.inr (.inr rfl)),rfl,rfl⟩
  | rest stopped => exact ⟨.inr (.inr (.inr stopped)),rfl,rfl⟩

theorem driveIf_cases (ran : driveIf s test fsm answer = some next) :
    (test = false ∧ next = fsm) ∨ test = true ∧ ∃ effect, fsmDriver s fsm answer = some (next,effect) := by
  unfold driveIf at ran
  cases test with
  | false => exact .inl ⟨rfl,(Option.some.inj ran).symm⟩
  | true =>
    rw [if_pos rfl] at ran
    obtain ⟨result,drove,rfl⟩ := Option.map_eq_some_iff.mp ran
    exact .inr ⟨rfl,result.2,drove⟩

theorem driveIf_frame (known : Known s fsm) (ran : driveIf s test fsm answer = some next) :
    Known s next ∧ next.sfd = fsm.sfd ∧ next.dfd = fsm.dfd := by
  rcases driveIf_cases ran with ⟨_,rfl⟩ | ⟨_,effect,ran⟩
  · exact ⟨known,rfl,rfl⟩
  · exact driver_frame ran

theorem driveIf_total (known : Known s fsm) (test : Bool) (answer : Answer) :
    ∃ next, driveIf s test fsm answer = some next := by
  unfold driveIf
  cases test with
  | false => exact ⟨_,rfl⟩
  | true =>
    obtain ⟨next,effect,ran⟩ := driver_total known answer
    exact ⟨next,by simp [ran]⟩

theorem driveBoth_parts (ran : driveBoth s m test12 test21 answer12 answer21 = .again after calls) :
    driveIf s test12 m.fsm12 answer12 = some after.fsm12 ∧ driveIf s test21 m.fsm21 answer21 = some after.fsm21 ∧
      (.fsm12 ∈ calls ↔ test12 = true) ∧ (.fsm21 ∈ calls ↔ test21 = true) := by
  unfold driveBoth at ran
  split at ran
  · cases ran
  · split at ran
    · cases ran
    · rename_i ran12 _ _ ran21
      cases ran
      refine ⟨ran12,ran21,?_,?_⟩ <;> cases test12 <;> cases test21 <;> simp

theorem driveBoth_total (known : ∀ d, Known s (m.fsm d)) (test12 test21 : Bool) (answer12 answer21 : Answer) :
    ∃ after calls, driveBoth s m test12 test21 answer12 answer21 = .again after calls := by
  obtain ⟨next12,ran12⟩ : ∃ next, driveIf s test12 m.fsm12 answer12 = some next := driveIf_total (known .fsm12) test12 answer12
  obtain ⟨next21,ran21⟩ : ∃ next, driveIf s test21 m.fsm21 answer21 = some next := driveIf_total (known .fsm21) test21 answer21
  simp only [driveBoth,ran12,ran21]
  exact ⟨_,_,rfl⟩

theorem driveBoth_wired (wired : Wired s fd1 fd2 m)
    (ran : driveBoth s m test12 test21 answer12 answer21 = .again after calls) : Wired s fd1 fd2 after := by
  obtain ⟨ran12,ran21,_,_⟩ := driveBoth_parts ran
  obtain ⟨known12,s12,d12⟩ := driveIf_frame (wired.known .fsm12) ran12
  obtain ⟨known21,s21,d21⟩ := driveIf_frame (wired.known .fsm21) ran21
  refine ⟨?_,s12.trans wired.sfd12,d12.trans wired.dfd12,s21.trans wired.sfd21,d21.trans wired.dfd21⟩
  intro d
  cases d with
  | fsm12 => exact known12
  | fsm21 => exact known21

theorem driver_leavesEX (ran : fsmDriver s fsm answer = some (next,effect)) (failing : fsm.state = s.stateEX) :
    next.state = s.stateT := by
  obtain ⟨_,rex,_,wex,_,ext⟩ := s.apart
  cases driver_sound ran with
  | readEnd reading | readAgain reading | readError reading | readBytes _ reading => exact absurd (reading.symm.trans failing) rex
  | writeAgain writing | writeError writing | wrote _ writing => exact absurd (writing.symm.trans failing) wex
  | report => rfl
  | rest stopped => exact absurd (failing.symm.trans stopped) ext

end LinuxCoding.Relay
