import LinuxCoding.AnyTimer.Model

-- What a step can do, seen from one slot of the table. Every result about the
-- timer is an invariant of this view.
namespace LinuxCoding.AnyTimer
open CInt Slots Transition

theorem lookup_some {id : Int} : lookup id job = some (i,me) ↔ id = (i : Nat) ∧ job i = some me := by
  unfold lookup
  constructor
  · intro found
    split at found
    · rename_i valid
      obtain ⟨entry,present,same⟩ := Option.map_eq_some_iff.mp found
      cases same
      exact ⟨by simp only [Int.toNat_of_nonneg valid.1],present⟩
    · cases found
  · rintro ⟨rfl,present⟩
    have bound := i.isLt
    rw [dif_pos ⟨by omega,by omega⟩]
    exact Option.map_eq_some_iff.mpr ⟨me,present,rfl⟩

theorem reap_cases (i : Slot) (me : AtJobSt) (t : Timer) :
    (me.jobState = .running ∧ reap i me t = none) ∨
      (me.jobState ≠ .running ∧ reap i me t = some ({t with job := Function.update t.job i none},0)) := by
  unfold reap
  cases stated : me.jobState with
  | running => exact .inl ⟨rfl,rfl⟩
  | canceled => exact .inr ⟨by decide,by simp⟩
  | isOver => exact .inr ⟨by decide,by simp⟩

theorem canceljob_running {i : Slot} (present : t.job i = some me) (running : me.jobState = .running) :
    atCanceljob (i : Nat) t = ({t with job := Function.update t.job i (some {me with jobState := .canceled})},0) := by
  have found := lookup_some.mpr ⟨rfl,present⟩
  simp [atCanceljob,found,running]

theorem waitjob_ended {i : Slot} (present : t.job i = some me) (single : me.repeats ≠ 1) (ended : me.jobState ≠ .running) :
    atWaitjob (i : Nat) t = some ({t with job := Function.update t.job i none},0) := by
  have found := lookup_some.mpr ⟨rfl,present⟩
  rcases reap_cases i me t with ⟨running,_⟩ | ⟨_,reaped⟩
  · exact absurd running ended
  · simp only [atWaitjob,found,if_neg single,reaped]

-- The job an add stores when it is accepted.
def Call.request : Call → Option AtJobSt
  | .addjob sec jobp arg => some (newJob 0 sec jobp arg)
  | .addjobRepeat sec jobp arg => some (newJob 1 sec jobp arg)
  | .canceljob _ => none
  | .waitjob _ => none

inductive Performed (job : Jobs) : Call → Jobs → Int → Prop where
  | refused : ret < 0 → Performed job call job ret
  | added (me : AtJobSt) (i : Slot) : call.request = some me → 0 ≤ me.sec.val → job i = none →
      Performed job call (Function.update job i (some me)) (i : Nat)
  | canceled (me : AtJobSt) (i : Slot) : job i = some me → me.jobState = .running →
      Performed job (.canceljob (i : Nat)) (Function.update job i (some {me with jobState := .canceled})) 0
  | reaped (me : AtJobSt) (i : Slot) : job i = some me → me.repeats ≠ 1 → me.jobState ≠ .running →
      Performed job (.waitjob (i : Nat)) (Function.update job i none) 0

theorem addjob_performed (request : call.request = some (newJob repeats sec jobp arg))
    (ran : addjob repeats loads memory sec jobp arg t = some (after,ret)) : Performed t.job call after.job ret := by
  unfold addjob at ran
  split at ran
  · cases ran
    exact .refused (by decide)
  · rename_i accepted
    split at ran
    · cases ran
    · cases found : getFreePos t.job with
      | none =>
        simp only [found] at ran
        cases ran
        exact .refused (by decide)
      | some pos =>
        simp only [found] at ran
        split at ran
        · cases ran
          exact .refused (by decide)
        · cases ran
          exact .added _ pos request (by simpa [newJob] using accepted) (firstFree_empty found)

theorem canceljob_performed {id : Int} (ran : atCanceljob id t = (after,ret)) : Performed t.job (.canceljob id) after.job ret := by
  unfold atCanceljob at ran
  cases found : lookup id t.job with
  | none =>
    simp only [found] at ran
    cases ran
    exact .refused (by decide)
  | some entry =>
    obtain ⟨i,me⟩ := entry
    obtain ⟨rfl,present⟩ := lookup_some.mp found
    simp only [found] at ran
    cases stated : me.jobState with
    | running =>
      simp only [stated] at ran
      cases ran
      exact .canceled me i present stated
    | canceled | isOver =>
      simp only [stated] at ran
      cases ran
      exact .refused (by decide)

theorem waitjob_performed {id : Int} (ran : atWaitjob id t = some (after,ret)) : Performed t.job (.waitjob id) after.job ret := by
  unfold atWaitjob at ran
  cases found : lookup id t.job with
  | none =>
    simp only [found] at ran
    cases ran
    exact .refused (by decide)
  | some entry =>
    obtain ⟨i,me⟩ := entry
    obtain ⟨rfl,present⟩ := lookup_some.mp found
    simp only [found] at ran
    split at ran
    · cases ran
      exact .refused (by decide)
    · rename_i single
      rcases reap_cases i me t with ⟨_,pauses⟩ | ⟨ended,reaped⟩
      · rw [pauses] at ran
        cases ran
      · rw [reaped] at ran
        cases ran
        exact .reaped me i present single ended

theorem perform_performed (ran : perform loads memory call t = some (after,ret)) : Performed t.job call after.job ret := by
  cases call with
  | addjob sec jobp arg =>
    have ran : addjob 0 loads memory sec jobp arg t = some (after,ret) := ran
    exact addjob_performed rfl ran
  | addjobRepeat sec jobp arg =>
    have ran : addjob 1 loads memory sec jobp arg t = some (after,ret) := ran
    exact addjob_performed rfl ran
  | canceljob id => exact canceljob_performed (Option.some.inj ran)
  | waitjob id => exact waitjob_performed ran

-- A slot and how far the running handler has come with it.
inductive Phase where
  | settled
  | due
  | called
  | crashed
  deriving DecidableEq

structure Cell where
  job : Option AtJobSt
  phase : Phase

def phase (i : Slot) : Handler → Phase
  | .off => .settled
  | .scan p => if p ≤ i then .due else .settled
  | .callback k => if k < i then .due else if k = i then .called else .settled
  | .crashed k => if k < i then .due else if k = i then .crashed else .settled

def cell (i : Slot) (s : State) : Cell := ⟨s.timer.job i,phase i s.handler⟩

-- The events that say something about a slot.
def Event.Concerns (i : Slot) : Event → Prop
  | .tick => True
  | .fired k _ _ => k = i
  | .returned (.canceljob id) ret => id = (i : Nat) ∧ ret = 0
  | .returned (.waitjob id) ret => id = (i : Nat) ∧ ret = 0
  | .returned (.addjob _ _ _) ret => ret = (i : Nat)
  | .returned (.addjobRepeat _ _ _) ret => ret = (i : Nat)

-- What is folded over a log by the events of one slot.
theorem fold_unconcerned {f : β → Event → β} {emitted : List Event} (ignores : ∀ b event, ¬event.Concerns i → f b event = b)
    (apart : ∀ event ∈ emitted, ¬event.Concerns i) : emitted.foldl f b = b := by
  induction emitted with
  | nil => rfl
  | cons event rest ih =>
    rw [List.foldl_cons,ignores b event (apart event List.mem_cons_self)]
    exact ih (fun other present => apart other (List.mem_cons_of_mem _ present))

inductive Cell.Step (i : Slot) : Cell → List Event → Cell → Prop where
  | other : (∀ event ∈ emitted, ¬event.Concerns i) → Cell.Step i c emitted c
  | tick : c.phase = .settled → Cell.Step i c [.tick] {c with phase := .due}
  | passed : c.phase = .due → (∀ me, c.job = some me → me.jobState ≠ .running) →
      Cell.Step i c [] {c with phase := .settled}
  | counted (me : AtJobSt) : c.phase = .due → c.job = some me → me.jobState = .running →
      (store (me.timeRemain.val - 1)).val ≠ 0 →
      Cell.Step i c [] ⟨some {me with timeRemain := store (me.timeRemain.val - 1)},.settled⟩
  | fired (me : AtJobSt) : c.phase = .due → c.job = some me → me.jobState = .running →
      (store (me.timeRemain.val - 1)).val = 0 →
      Cell.Step i c [.fired i me.jobp me.arg] ⟨some {me with timeRemain := store (me.timeRemain.val - 1)},.called⟩
  | back (me : AtJobSt) : c.phase = .called → c.job = some me → Cell.Step i c [] ⟨some (rearm me),.settled⟩
  | crashed : c.phase = .called → c.job = none → Cell.Step i c [] ⟨none,.crashed⟩
  | added (me : AtJobSt) : c.job = none → call.request = some me → 0 ≤ me.sec.val →
      Cell.Step i c [.returned call (i : Nat)] {c with job := some me}
  | canceled (me : AtJobSt) : c.job = some me → me.jobState = .running →
      Cell.Step i c [.returned (.canceljob (i : Nat)) 0] {c with job := some {me with jobState := .canceled}}
  | reaped (me : AtJobSt) : c.job = some me → (c.phase ≠ .settled → me.repeats ≠ 1) → me.jobState ≠ .running →
      Cell.Step i c [.returned (.waitjob (i : Nat)) 0] {c with job := none}

-- Between two ticks and before its turn in one, a slot is left alone by the handler.
def Away (now : Phase) : Prop := now = .settled ∨ now = .due

theorem Away.uncalled (away : Away now) : now ≠ .called := by
  intro called
  subst called
  rcases away with settled | due <;> contradiction

theorem Away.alive (away : Away now) : now ≠ .crashed := by
  intro crashed
  subst crashed
  rcases away with settled | due <;> contradiction

theorem slot_cast {i k : Slot} (same : ((k : Nat) : Int) = (i : Nat)) : k = i := Fin.ext (by omega)

theorem request_concerns {call : Call} (request : call.request = some me) (concerns : (Event.returned call ret).Concerns i) :
    ret = (i : Nat) := by
  cases call with
  | addjob | addjobRepeat => exact concerns
  | canceljob | waitjob => cases request

theorem refused_unconcerned {call : Call} (refused : ret < 0) : ¬(Event.returned call ret).Concerns i := by
  intro concerns
  cases call with
  | addjob | addjobRepeat =>
    have same : ret = (i : Nat) := concerns
    omega
  | canceljob | waitjob =>
    have zero : ret = 0 := concerns.2
    omega

-- A call that is about another slot.
theorem Cell.Step.apart (apart : ¬(Event.returned call ret).Concerns i) : Cell.Step i c [.returned call ret] c := by
  apply Cell.Step.other
  intro event present
  cases List.mem_singleton.mp present
  exact apart

theorem performed_cell (performed : Performed job call after ret) (i : Slot) (at_ : Phase) :
    Cell.Step i ⟨job i,at_⟩ [.returned call ret] ⟨after i,at_⟩ := by
  cases performed with
  | refused refused => exact .apart (refused_unconcerned refused)
  | added me k request enough empty =>
    by_cases same : k = i
    · subst same
      rw [Function.update_self]
      exact .added me empty request enough
    · rw [Function.update_of_ne (Ne.symm same)]
      exact .apart fun concerns => same (slot_cast (request_concerns request concerns))
  | canceled me k present running =>
    by_cases same : k = i
    · subst same
      rw [Function.update_self]
      exact .canceled me present running
    · rw [Function.update_of_ne (Ne.symm same)]
      exact .apart fun concerns => same (slot_cast concerns.1)
  | reaped me k present single ended =>
    by_cases same : k = i
    · subst same
      rw [Function.update_self]
      exact .reaped me present (fun _ => single) ended
    · rw [Function.update_of_ne (Ne.symm same)]
      exact .apart fun concerns => same (slot_cast concerns.1)

theorem Cell.Step.quiet (i : Slot) (c : Cell) : Cell.Step i c [] c := .other (by simp)

-- The handler at slot k moves on: for the other slots nothing changes.
theorem phase_next {i k : Slot} (other : k ≠ i) : phase i (.scan (k + 1)) = phase i (.scan k) := by
  have apart : (k : Nat) ≠ i := fun same => other (Fin.ext same)
  simp only [phase]
  by_cases before : (k : Nat) + 1 ≤ i
  · rw [if_pos before,if_pos (by omega)]
  · rw [if_neg before,if_neg (by omega)]

theorem phase_callback {i k : Slot} (other : k ≠ i) : phase i (.callback k) = phase i (.scan k) := by
  have apart : (k : Nat) ≠ i := fun same => other (Fin.ext same)
  simp only [phase,if_neg other,Fin.lt_def]
  by_cases before : (k : Nat) < i
  · rw [if_pos before,if_pos (by omega)]
  · rw [if_neg before,if_neg (by omega)]

theorem phase_crashed {i k : Slot} (other : k ≠ i) : phase i (.crashed k) = phase i (.callback k) := by
  simp only [phase,if_neg other]

@[simp] theorem phase_passed (i : Slot) : phase i (.scan (i + 1)) = .settled := by simp [phase]
@[simp] theorem phase_at (i : Slot) : phase i (.scan i) = .due := by simp [phase]
@[simp] theorem phase_called (i : Slot) : phase i (.callback i) = .called := by simp [phase]
@[simp] theorem phase_lost (i : Slot) : phase i (.crashed i) = .crashed := by simp [phase]

theorem handler_called (called : (cell i s).phase = .called) : s.handler = .callback i := by
  unfold cell at called
  cases at_ : s.handler with
  | off => simp [at_,phase] at called
  | scan p =>
    simp only [at_,phase] at called
    split at called <;> cases called
  | callback k =>
    simp only [at_,phase] at called
    split at called
    · cases called
    · split at called
      · rename_i same
        rw [same]
      · cases called
  | crashed k =>
    simp only [at_,phase] at called
    split at called
    · cases called
    · split at called <;> cases called

theorem visit_cell (at_ : s.handler = .scan k) (i : Slot) : Cell.Step i (cell i s) (visit k s).2 (cell i (visit k s).1) := by
  unfold visit
  by_cases same : k = i
  · subst same
    have here : phase k s.handler = .due := by rw [at_,phase_at]
    cases present : s.timer.job k with
    | none =>
      simp only [cell,present,here,phase_passed]
      exact .passed rfl (by simp)
    | some me =>
      by_cases running : me.jobState = .running
      · simp only [if_pos running]
        by_cases zero : (store (me.timeRemain.val - 1)).val = 0
        · simp only [if_pos zero,cell,State.withJob,Function.update_self,present,here,phase_called]
          exact .fired me rfl rfl running zero
        · simp only [if_neg zero,cell,State.withJob,Function.update_self,present,here,phase_passed]
          exact .counted me rfl rfl running zero
      · simp only [if_neg running,cell,present,here,phase_passed]
        refine .passed rfl ?_
        intro other same
        cases same
        exact running
  · have here : phase i s.handler = phase i (.scan k) := by rw [at_]
    have apart : i ≠ k := Ne.symm same
    cases present : s.timer.job k with
    | none =>
      simp only [cell,here,phase_next same]
      exact .quiet i _
    | some me =>
      by_cases running : me.jobState = .running
      · simp only [if_pos running]
        by_cases zero : (store (me.timeRemain.val - 1)).val = 0
        · simp only [if_pos zero,cell,State.withJob,Function.update_of_ne apart,here,phase_callback same]
          apply Cell.Step.other
          intro event emitted concerns
          cases List.mem_singleton.mp emitted
          exact same concerns
        · simp only [if_neg zero,cell,State.withJob,Function.update_of_ne apart,here,phase_next same]
          exact .quiet i _
      · simp only [if_neg running,cell,here,phase_next same]
        exact .quiet i _

theorem comeBack_cell (at_ : s.handler = .callback k) (i : Slot) : Cell.Step i (cell i s) [] (cell i (comeBack k s)) := by
  unfold comeBack
  by_cases same : k = i
  · subst same
    have here : phase k s.handler = .called := by rw [at_,phase_called]
    cases present : s.timer.job k with
    | none =>
      simp only [cell,present,here,phase_lost]
      exact .crashed rfl rfl
    | some me =>
      simp only [cell,State.withJob,Function.update_self,present,here,phase_passed]
      exact .back me rfl rfl
  · have here : phase i s.handler = phase i (.callback k) := by rw [at_]
    cases present : s.timer.job k with
    | none =>
      simp only [cell,here,phase_crashed same]
      exact .quiet i _
    | some me =>
      simp only [cell,State.withJob,Function.update_of_ne (Ne.symm same),here,phase_next same,phase_callback same]
      exact .quiet i _

-- Only here can a repeating job be freed, when a callback put it in the slot that
-- at_waitjob is waiting for.
theorem resume_cell (off : s.handler = .off) (k i : Slot) :
    Cell.Step i (cell i s) (resume k s).2 (cell i (resume k s).1) := by
  have here : phase i s.handler = .settled := by rw [off]; rfl
  unfold resume
  cases present : s.timer.job k with
  | none => exact .quiet i _
  | some me =>
    rcases reap_cases k me s.timer with ⟨_,pauses⟩ | ⟨ended,reaped⟩
    · simp only [pauses]
      exact .quiet i _
    · simp only [reaped,cell,here]
      by_cases same : k = i
      · subst same
        rw [Function.update_self]
        exact .reaped me present (fun unsettled => absurd rfl unsettled) ended
      · rw [Function.update_of_ne (Ne.symm same)]
        apply Cell.Step.other
        intro event emitted concerns
        cases List.mem_singleton.mp emitted
        exact same (slot_cast concerns.1)

theorem step_cell (step : Step s emitted t) (i : Slot) : Cell.Step i (cell i s) emitted (cell i t) := by
  cases step with
  | alarm siCode off alive loaded =>
    unfold alrmAction
    split
    · exact .quiet i _
    · simp only [cell,off]
      exact .tick rfl
  | visit k at_ => exact visit_cell at_ i
  | finish at_ =>
    have past : ¬jobMax ≤ i := by omega
    simp only [cell,at_,phase,if_neg past]
    exact .quiet i _
  | inside k loads memory call at_ ran => exact performed_cell (perform_performed ran) i _
  | comeBack k at_ => exact comeBack_cell at_ i
  | call loads memory call off ready ran => exact performed_cell (perform_performed ran) i _
  | pause id off ready found pauses => exact .quiet i _
  | resume k off waits => exact resume_cell off k i

theorem visit_returns (k : Slot) (s : State) (call : Call) (ret : Int) : .returned call ret ∉ (visit k s).2 := by
  unfold visit
  split
  · simp
  · split
    · simp only
      split
      · simp
      · simp
    · simp

-- A call returns outside the handler or inside a callback; at_waitjob may return
-- later than it was called.
theorem step_returned (step : Step s emitted t) (returned : .returned call ret ∈ emitted) :
    (s.handler = .off ∨ ∃ k, s.handler = .callback k) ∧
      ((∃ timer, Performed s.timer.job call timer.job ret ∧ t = {s with timer := timer}) ∨ ∃ id, call = .waitjob id) := by
  cases step with
  | alarm siCode off =>
    unfold alrmAction at returned
    split at returned
    · cases returned
    · cases List.mem_singleton.mp returned
  | visit k at_ => exact absurd returned (visit_returns k s call ret)
  | finish => cases returned
  | inside k loads memory own at_ ran =>
    cases List.mem_singleton.mp returned
    exact ⟨.inr ⟨k,at_⟩,.inl ⟨_,perform_performed ran,rfl⟩⟩
  | comeBack => cases returned
  | call loads memory own off ready ran =>
    cases List.mem_singleton.mp returned
    exact ⟨.inl off,.inl ⟨_,perform_performed ran,rfl⟩⟩
  | pause => cases returned
  | resume k off waits =>
    refine ⟨.inl off,.inr ?_⟩
    unfold resume at returned
    split at returned
    · cases returned
    · split at returned
      · cases returned
      · cases List.mem_singleton.mp returned
        exact ⟨_,rfl⟩

theorem request_new {call : Call} (request : call.request = some me) :
    me.jobState = .running ∧ me.timeRemain = me.sec := by
  cases call with
  | addjob | addjobRepeat =>
    cases request
    exact ⟨rfl,rfl⟩
  | canceljob | waitjob => cases request

@[simp] theorem rearm_repeats (me : AtJobSt) : (rearm me).repeats = me.repeats := by
  unfold rearm
  split <;> rfl

theorem performed_added {ret : Int} (performed : Performed job call after ret) (request : call.request = some me)
    (accepted : 0 ≤ ret) : ∃ i : Slot, ret = (i : Nat) ∧ job i = none ∧ after = Function.update job i (some me) := by
  cases performed with
  | refused refused => omega
  | added own i requested enough empty =>
    rw [request] at requested
    cases requested
    exact ⟨i,rfl,empty,rfl⟩
  | canceled => cases request
  | reaped => cases request

-- An accepted add, seen from the slot it returns.
theorem added_slot {id : Int} (step : Step s [.returned call id] t) (request : call.request = some me) (accepted : 0 ≤ id) :
    ∃ i : Slot, id = (i : Nat) ∧ s.timer.job i = none ∧ t.timer.job i = some me ∧ t.handler = s.handler := by
  rcases (step_returned step List.mem_cons_self).2 with ⟨timer,performed,rfl⟩ | ⟨other,rfl⟩
  · obtain ⟨i,same,empty,stored⟩ := performed_added performed request accepted
    refine ⟨i,same,empty,?_,rfl⟩
    change timer.job i = some me
    rw [stored,Function.update_self]
  · cases request

end LinuxCoding.AnyTimer
