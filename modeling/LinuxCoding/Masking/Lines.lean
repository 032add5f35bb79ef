import LinuxCoding.Library.Transition

-- block.c, suspend.c, sigsuspend.c and suspend_rt.c: lines of stars that their signal must
-- not interrupt, and how each program lets the signal in between two lines.
namespace LinuxCoding.Masking
open Transition

inductive Program where
  | block
  | suspend
  | sigsuspend
  | suspendRt
  deriving DecidableEq

def lines : Nat := 1000
def stars : Nat := 10

-- MYRTSIG is queued; of SIGINT only one is pending.
def Program.queues : Program → Bool
  | .suspendRt => true
  | _ => false

def Program.atomic : Program → Bool
  | .sigsuspend => true
  | .suspendRt => true
  | _ => false

-- Before SIG_BLOCK, with i stars of a line written, behind the newline, before pause, in
-- pause, in sigsuspend with the mask it restores; before and behind the last SIG_SETMASK.
inductive Place where
  | blocking (j : Nat)
  | row (j i : Nat)
  | opening (j : Nat)
  | pausing (j : Nat)
  | paused (j : Nat)
  | suspended (j : Nat) (mask : Bool)
  | leaving
  | restored
  | exited

-- Of each signal set, whether the signal is in it.
structure State where
  pending : Nat
  blocked : Bool
  oldset : Bool
  saveset : Bool
  handling : Bool
  place : Place

inductive Event where
  | sent (queued : Bool)
  | star
  | newline
  | bang
  deriving DecidableEq

-- Behind signal and SIG_UNBLOCK.
def start (inherited : Bool) : State := ⟨0,false,false,inherited,false,.blocking 0⟩

-- The loop goes on behind its line j. In sigsuspend.c SIG_BLOCK stands before the loop.
def Program.next (program : Program) (j : Nat) : Place :=
  if j + 1 = lines then .leaving else if program = .sigsuspend then .row (j + 1) 0 else .blocking (j + 1)

-- The program itself goes on when no handler runs and no signal is to be delivered first.
def State.ready (s : State) : Prop := s.handling = false ∧ (s.blocked = true ∨ s.pending = 0)

-- The handler returns; it has interrupted pause, or sigsuspend, which restores the mask.
def State.returns (program : Program) (s : State) : State :=
  match s.place with
  | .paused j => {s with handling := false,place := program.next j}
  | .suspended j mask => {s with handling := false,blocked := mask,place := program.next j}
  | _ => {s with handling := false}

-- A signal may come at any time until exit. While its handler runs it is blocked.
inductive Step (program : Program) : State → List Event → State → Prop where
  | blocks : s.ready → s.place = .blocking j →
      Step program s [] {s with blocked := true,oldset := if program = .block then s.oldset else s.blocked,place := .row j 0}
  | writes : s.ready → s.place = .row j i → i < stars → Step program s [.star] {s with place := .row j (i + 1)}
  | ends : s.ready → s.place = .row j i → i = stars → Step program s [.newline] {s with place := .opening j}
  | unblocks : s.ready → s.place = .opening j → program = .block → Step program s [] {s with blocked := false,place := program.next j}
  | restores : s.ready → s.place = .opening j → program = .suspend → Step program s [] {s with blocked := s.oldset,place := .pausing j}
  | pauses : s.ready → s.place = .pausing j → Step program s [] {s with place := .paused j}
  | suspends : s.ready → s.place = .opening j → program.atomic = true →
      Step program s [] {s with blocked := if program = .suspendRt then false else s.oldset,place := .suspended j s.blocked}
  | leaves : s.ready → s.place = .leaving → Step program s [] {s with blocked := s.saveset,place := .restored}
  | exits : s.ready → s.place = .restored → Step program s [] {s with place := .exited}
  | delivers : s.handling = false → s.blocked = false → 0 < s.pending → s.place ≠ .exited →
      Step program s [] {s with pending := s.pending - 1,handling := true}
  | handles : s.handling = true → Step program s [.bang] (s.returns program)
  | sends : s.place ≠ .exited →
      Step program s [.sent (program.queues || s.pending == 0)] {s with pending := if program.queues then s.pending + 1 else 1}

-- What comes out, without the signals that are sent.
inductive Out where
  | star
  | newline
  | bang
  deriving DecidableEq

def Event.output : Event → Option Out
  | .sent _ => none
  | .star => some .star
  | .newline => some .newline
  | .bang => some .bang

def output (log : List Event) : List Out := log.filterMap Event.output
def kept (log : List Event) : Nat := log.count (.sent true)
def printed (log : List Event) : Nat := log.count .bang

-- The language of the output: whole lines of ten stars, with an exclamation mark behind each
-- in the programs that wait, and no more than one in those that wait with sigsuspend.
structure Phase where
  rows : Nat
  stars : Nat
  bangs : Nat
  deriving DecidableEq

def Program.least (program : Program) : Nat := if program = .block then 0 else 1

def Program.reads (program : Program) (phase : Phase) : Out → Option Phase
  | .star =>
    if phase.rows < lines ∧ phase.stars < Masking.stars ∧ (0 < phase.stars ∨ phase.rows = 0 ∨ program.least ≤ phase.bangs)
    then some ⟨phase.rows,phase.stars + 1,0⟩ else none
  | .newline => if phase.stars = Masking.stars then some ⟨phase.rows + 1,0,0⟩ else none
  | .bang =>
    if phase.stars = 0 ∧ (phase.rows = 0 ∨ phase.rows = lines ∨ program.atomic = false ∨ phase.bangs = 0)
    then some ⟨phase.rows,0,phase.bangs + 1⟩ else none

def Program.scan (program : Program) (outs : List Out) : Option Phase := outs.foldlM program.reads ⟨0,0,0⟩

def Place.rows : Place → Nat
  | .blocking j => j
  | .row j _ => j
  | .opening j => j + 1
  | .pausing j => j + 1
  | .paused j => j + 1
  | .suspended j _ => j + 1
  | .leaving => lines
  | .restored => lines
  | .exited => lines

def Place.stars : Place → Nat
  | .row _ i => i
  | _ => 0

section
variable {program : Program} {s u : State} {place after : Place} {log emitted : List Event} {outs : List Out} {bangs now : Nat}

theorem output_append (log emitted : List Event) : output (log ++ emitted) = output log ++ output emitted := List.filterMap_append

theorem scan_append (outs more : List Out) : program.scan (outs ++ more) = (program.scan outs).bind fun phase => more.foldlM program.reads phase :=
  List.foldlM_append

-- How far the loop has come, and what the masks hold there.
def Place.masked (program : Program) (blocked : Bool) : Place → Prop
  | .blocking j => j < lines ∧ blocked = (program.atomic && decide (0 < j)) ∧ (program = .sigsuspend → j = 0)
  | .row j i => j < lines ∧ i ≤ Masking.stars ∧ blocked = true
  | .opening j => j < lines ∧ blocked = true
  | .pausing j => j < lines ∧ blocked = false ∧ program = .suspend
  | .paused j => j < lines ∧ blocked = false ∧ program = .suspend
  | .suspended j mask => j < lines ∧ blocked = false ∧ mask = true ∧ program.atomic = true
  | .leaving => blocked = program.atomic
  | .restored => True
  | .exited => True

structure Masked (program : Program) (s : State) : Prop where
  place : s.place.masked program s.blocked
  sets : program = .suspendRt ∨ s.oldset = false
  handler : s.handling = true → s.blocked = false ∧ s.place ≠ .exited
  single : program.queues = false → s.pending ≤ 1

theorem next_masked (inside : j < lines) (blocked : Bool) (same : blocked = program.atomic) : (program.next j).masked program blocked := by
  unfold Program.next
  split
  · exact same
  · have more : j + 1 < lines := by omega
    split
    · rename_i sigsuspend
      subst sigsuspend
      exact ⟨more,Nat.zero_le _,same⟩
    · rename_i other
      refine ⟨more,?_,fun sigsuspend => absurd sigsuspend other⟩
      rw [same,decide_eq_true (Nat.succ_pos j),Bool.and_true]

theorem next_stays (program : Program) (j : Nat) : program.next j ≠ .exited := by
  unfold Program.next
  split
  · nofun
  · split <;> nofun

theorem step_masked (masked : Masked program s) (taken : Step program s emitted u) : Masked program u := by
  obtain ⟨place,sets,handler,single⟩ := masked
  have idle : ∀ {blocked : Bool} {after : Place}, s.ready → s.handling = true → blocked = false ∧ after ≠ .exited := by
    intro blocked after ready handling
    rw [ready.1] at handling
    cases handling
  cases taken with
  | blocks ready here =>
    rw [here] at place
    obtain ⟨inside,blocked,first⟩ := place
    refine ⟨⟨inside,Nat.zero_le _,rfl⟩,?_,idle ready,single⟩
    by_cases block : program = .block
    · rw [if_pos block]
      exact sets
    · rw [if_neg block]
      cases program with
      | block => exact absurd rfl block
      | suspend => exact .inr blocked
      | sigsuspend =>
        rw [first rfl] at blocked
        exact .inr blocked
      | suspendRt => exact .inl rfl
  | writes ready here less =>
    rw [here] at place
    exact ⟨⟨place.1,less,place.2.2⟩,sets,idle ready,single⟩
  | ends ready here =>
    rw [here] at place
    exact ⟨⟨place.1,place.2.2⟩,sets,idle ready,single⟩
  | unblocks ready here block =>
    subst block
    rw [here] at place
    exact ⟨next_masked place.1 false rfl,sets,idle ready,single⟩
  | restores ready here suspend =>
    subst suspend
    rw [here] at place
    exact ⟨⟨place.1,sets.resolve_left nofun,rfl⟩,sets,idle ready,single⟩
  | pauses ready here =>
    rw [here] at place
    exact ⟨place,sets,idle ready,single⟩
  | suspends ready here atomic =>
    rw [here] at place
    refine ⟨⟨place.1,?_,place.2,atomic⟩,sets,idle ready,single⟩
    split
    · rfl
    · exact sets.resolve_left ‹_›
  | leaves ready here => exact ⟨trivial,sets,idle ready,single⟩
  | exits ready here => exact ⟨trivial,sets,idle ready,single⟩
  | delivers running opened some stays => exact ⟨place,sets,fun _ => ⟨opened,stays⟩,fun queues => Nat.le_trans (Nat.sub_le ..) (single queues)⟩
  | handles running =>
    unfold State.returns
    split
    · rename_i j here
      rw [here] at place
      obtain ⟨inside,blocked,suspend⟩ := place
      subst suspend
      exact ⟨next_masked inside s.blocked blocked,sets,nofun,single⟩
    · rename_i j mask here
      rw [here] at place
      obtain ⟨inside,_,mask,atomic⟩ := place
      exact ⟨next_masked inside _ (mask.trans atomic.symm),sets,nofun,single⟩
    · exact ⟨place,sets,nofun,single⟩
  | sends stays =>
    refine ⟨place,sets,handler,?_⟩
    intro queues
    rw [queues]
    exact Nat.le_refl 1

theorem start_masked (inherited : Bool) : Masked program (start inherited) := by
  refine ⟨⟨by decide,?_,fun _ => rfl⟩,.inr rfl,nofun,fun _ => Nat.zero_le _⟩
  exact (Bool.and_false _).symm

-- Every signal that was not merged with a pending one is printed, pending, or in its handler.
def Counted (log : List Event) (s : State) : Prop := kept log = printed log + s.pending + s.handling.toNat

theorem Counted.silent (counted : Counted log s) (pending : u.pending = s.pending) (handling : u.handling = s.handling)
    (unsent : .sent true ∉ emitted) (silent : .bang ∉ emitted) : Counted (log ++ emitted) u := by
  unfold Counted kept printed at counted ⊢
  rw [List.count_append,List.count_append,List.count_eq_zero.mpr unsent,List.count_eq_zero.mpr silent,pending,handling]
  exact counted

theorem returns_pending (program : Program) (s : State) : (s.returns program).pending = s.pending := by
  unfold State.returns
  split <;> rfl

theorem returns_handling (program : Program) (s : State) : (s.returns program).handling = false := by
  unfold State.returns
  split <;> rfl

theorem step_counted (masked : Masked program s) (counted : Counted log s) (taken : Step program s emitted u) : Counted (log ++ emitted) u := by
  cases taken with
  | blocks | unblocks | restores | pauses | suspends | leaves | exits => exact counted.silent rfl rfl List.not_mem_nil List.not_mem_nil
  | writes | ends => exact counted.silent rfl rfl (by simp) (by simp)
  | delivers running opened some stays =>
    unfold Counted at counted ⊢
    rw [running] at counted
    rw [List.append_nil,counted]
    simp only [Bool.toNat_true,Bool.toNat_false]
    omega
  | handles running =>
    unfold Counted kept printed at counted ⊢
    rw [running] at counted
    rw [List.count_append,List.count_append,returns_pending,returns_handling,counted]
    simp only [List.count_singleton_self,List.count_singleton,Bool.toNat_true,Bool.toNat_false]
    simp
    omega
  | sends stays =>
    have single := masked.single
    unfold Counted kept printed at counted ⊢
    rw [List.count_append,List.count_append,counted]
    cases queues : program.queues with
    | true =>
      simp
      omega
    | false =>
      have few := single queues
      by_cases none : s.pending = 0
      · simp [none]
        omega
      · have one : s.pending = 1 := by omega
        simp [one]

-- The exclamation marks behind the last line.
def Place.between (program : Program) (bangs : Nat) : Place → Prop
  | .blocking j => j = 0 ∨ program.least ≤ bangs
  | .row j i => 0 < i ∨ j = 0 ∨ program.least ≤ bangs
  | .opening _ => bangs = 0
  | .pausing _ => True
  | .paused _ => True
  | .suspended _ _ => bangs = 0
  | .leaving => program.least ≤ bangs
  | .restored => program.least ≤ bangs
  | .exited => program.least ≤ bangs

structure Shaped (program : Program) (log : List Event) (place : Place) (bangs : Nat) : Prop where
  scanned : program.scan (output log) = some ⟨place.rows,place.stars,bangs⟩
  between : place.between program bangs

theorem Shaped.silent (shaped : Shaped program log place bangs) (silent : output emitted = []) : Shaped program (log ++ emitted) place bangs := by
  refine ⟨?_,shaped.between⟩
  rw [output_append,silent,List.append_nil]
  exact shaped.scanned

theorem Shaped.reads (shaped : Shaped program log place bangs) (one : output emitted = [out])
    (read : program.reads ⟨place.rows,place.stars,bangs⟩ out = some ⟨after.rows,after.stars,now⟩) (between : after.between program now) :
    Shaped program (log ++ emitted) after now := by
  refine ⟨?_,between⟩
  rw [output_append,one,scan_append,shaped.scanned]
  exact (bind_pure _).trans read

theorem next_rows (program : Program) (j : Nat) : (program.next j).rows = j + 1 := by
  unfold Program.next
  split
  · exact Eq.symm ‹_›
  · split <;> rfl

theorem next_stars (program : Program) (j : Nat) : (program.next j).stars = 0 := by
  unfold Program.next
  split
  · rfl
  · split <;> rfl

theorem next_between (enough : program.least ≤ bangs) (j : Nat) : (program.next j).between program bangs := by
  unfold Program.next
  split
  · exact enough
  · split
    · exact .inr (.inr enough)
    · exact .inr enough

theorem Shaped.next (shaped : Shaped program log place bangs) (rows : place.rows = j + 1) (none : place.stars = 0) (enough : program.least ≤ bangs) :
    Shaped program log (program.next j) bangs := by
  refine ⟨?_,next_between enough j⟩
  rw [next_rows,next_stars,← rows,← none]
  exact shaped.scanned

-- A handler that runs may write here.
theorem bang_read (masked : place.masked program false) (between : place.between program bangs) (stays : place ≠ .exited) :
    program.reads ⟨place.rows,place.stars,bangs⟩ .bang = some ⟨place.rows,place.stars,bangs + 1⟩ := by
  have allowed : place.stars = 0 ∧ (place.rows = 0 ∨ place.rows = lines ∨ program.atomic = false ∨ bangs = 0) := by
    cases place with
    | blocking j =>
      refine ⟨rfl,?_⟩
      obtain ⟨_,blocked,_⟩ := masked
      by_cases first : j = 0
      · exact .inl first
      · refine .inr (.inr (.inl ?_))
        rw [decide_eq_true (Nat.pos_of_ne_zero first),Bool.and_true] at blocked
        exact blocked.symm
    | row j i => cases masked.2.2
    | opening j => cases masked.2
    | pausing j | paused j =>
      obtain ⟨_,_,suspend⟩ := masked
      subst suspend
      exact ⟨rfl,.inr (.inr (.inl rfl))⟩
    | suspended j mask => exact ⟨rfl,.inr (.inr (.inr between))⟩
    | leaving | restored => exact ⟨rfl,.inr (.inl rfl)⟩
    | exited => exact absurd rfl stays
  unfold Program.reads
  rw [if_pos allowed,allowed.1]

theorem between_more (between : place.between program bangs) (masked : place.masked program false) (waits : ∀ j mask, place ≠ .suspended j mask) :
    place.between program (bangs + 1) := by
  cases place with
  | blocking j => exact between.imp id Nat.le_succ_of_le
  | row j i => cases masked.2.2
  | opening j => cases masked.2
  | pausing | paused => trivial
  | suspended j mask => exact absurd rfl (waits j mask)
  | leaving | restored | exited => exact Nat.le_succ_of_le between

theorem least_one (program : Program) : program.least ≤ 1 := by
  unfold Program.least
  split <;> decide

theorem step_shaped (masked : Masked program s) (shaped : Shaped program log s.place bangs) (taken : Step program s emitted u) :
    ∃ now, Shaped program (log ++ emitted) u.place now := by
  cases taken with
  | blocks ready here =>
    rw [here] at shaped
    exact ⟨bangs,Shaped.silent ⟨shaped.scanned,.inr shaped.between⟩ rfl⟩
  | writes ready here less =>
    rw [here] at shaped
    have place := masked.place
    rw [here] at place
    refine ⟨0,shaped.reads rfl ?_ (.inl (Nat.succ_pos _))⟩
    exact if_pos ⟨place.1,less,shaped.between⟩
  | ends ready here all =>
    rw [here] at shaped
    exact ⟨0,shaped.reads rfl (if_pos all) rfl⟩
  | unblocks ready here block =>
    rw [here] at shaped
    subst block
    exact ⟨bangs,(shaped.next rfl rfl (Nat.zero_le _)).silent rfl⟩
  | restores ready here | pauses ready here =>
    rw [here] at shaped
    exact ⟨bangs,Shaped.silent ⟨shaped.scanned,trivial⟩ rfl⟩
  | suspends ready here atomic =>
    rw [here] at shaped
    exact ⟨bangs,Shaped.silent ⟨shaped.scanned,shaped.between⟩ rfl⟩
  | leaves ready here | exits ready here =>
    rw [here] at shaped
    exact ⟨bangs,Shaped.silent ⟨shaped.scanned,shaped.between⟩ rfl⟩
  | delivers | sends => exact ⟨bangs,shaped.silent rfl⟩
  | handles running =>
    obtain ⟨blocked,stays⟩ := masked.handler running
    have place := masked.place
    rw [blocked] at place
    have read := bang_read place shaped.between stays
    refine ⟨bangs + 1,?_⟩
    unfold State.returns
    split
    · rename_i j here
      rw [here] at shaped read
      have wrote : Shaped program (log ++ [.bang]) (.paused j) (bangs + 1) := shaped.reads rfl read trivial
      exact wrote.next rfl rfl (Nat.le_trans (least_one program) (Nat.le_add_left 1 bangs))
    · rename_i j mask here
      rw [here] at shaped read
      refine shaped.reads rfl ?_ (next_between (Nat.le_trans (least_one program) (Nat.le_add_left 1 bangs)) j)
      rw [next_rows,next_stars]
      exact read
    · rename_i unwaited waits
      exact shaped.reads rfl read (between_more shaped.between place waits)

-- What has been written of the line, and what has come since its beginning.
def Since (outs : List Out) (log : List Event) (s : State) : Prop :=
  ∃ earlier later, log = earlier ++ later ∧ output later = outs ∧ (s.pending = 0 → s.handling = false → ∀ queued, .sent queued ∉ later)

def starRow (i : Nat) : List Out := List.replicate i .star
def fullRow : List Out := starRow stars ++ [.newline]

def Place.line : Place → Option (List Out)
  | .row _ i => some (starRow i)
  | .opening _ => some fullRow
  | .suspended _ _ => some fullRow
  | _ => none

def Fresh (log : List Event) (s : State) : Prop := ∀ outs, s.place.line = some outs → Since outs log s

theorem Since.begins (log : List Event) (s : State) : Since [] log s := ⟨log,[],(List.append_nil _).symm,rfl,fun _ _ _ => List.not_mem_nil⟩

theorem Since.goes (since : Since outs log s) (pending : u.pending = s.pending) (handling : u.handling = s.handling) (unsent : ∀ queued, .sent queued ∉ emitted) :
    Since (outs ++ output emitted) (log ++ emitted) u := by
  obtain ⟨earlier,later,rfl,wrote,quiet⟩ := since
  refine ⟨earlier,later ++ emitted,List.append_assoc ..,?_,?_⟩
  · rw [output_append,wrote]
  · rw [pending,handling]
    intro none idle queued member
    exact (List.mem_append.mp member).elim (quiet none idle queued) (unsent queued)

theorem Since.disturbed (since : Since outs log s) (silent : output emitted = []) (busy : 0 < u.pending ∨ u.handling = true) : Since outs (log ++ emitted) u := by
  obtain ⟨earlier,later,rfl,wrote,quiet⟩ := since
  refine ⟨earlier,later ++ emitted,List.append_assoc ..,?_,?_⟩
  · rw [output_append,wrote,silent,List.append_nil]
  · intro none idle
    rcases busy with some | handling
    · omega
    · rw [idle] at handling
      cases handling

theorem next_fresh (program : Program) (j : Nat) (log : List Event) {s : State} (here : s.place = program.next j) : Fresh log s := by
  intro outs line
  rw [here] at line
  unfold Program.next at line
  split at line
  · cases line
  · split at line
    · cases line
      exact .begins log s
    · cases line

theorem step_fresh (masked : Masked program s) (fresh : Fresh log s) (taken : Step program s emitted u) : Fresh (log ++ emitted) u := by
  cases taken with
  | blocks ready here =>
    intro outs line
    cases line
    exact .begins _ _
  | writes ready here less =>
    rename_i i j
    intro outs line
    cases line
    have since := fresh (starRow i) (by rw [here]; rfl)
    have more : starRow (i + 1) = starRow i ++ output [.star] := List.replicate_succ'
    rw [more]
    exact since.goes rfl rfl (by simp)
  | ends ready here all =>
    intro outs line
    cases line
    subst all
    exact (fresh (starRow stars) (by rw [here]; rfl)).goes rfl rfl (by simp)
  | unblocks ready here block => exact next_fresh program _ _ rfl
  | suspends ready here atomic =>
    intro outs line
    cases line
    obtain ⟨earlier,later,rfl,wrote,quiet⟩ := fresh fullRow (by rw [here]; rfl)
    exact ⟨earlier,later,List.append_nil _,wrote,quiet⟩
  | restores | pauses | leaves | exits =>
    intro outs line
    cases line
  | delivers running opened some stays => exact fun outs line => (fresh outs line).disturbed rfl (.inr rfl)
  | handles running =>
    unfold State.returns
    split
    · exact next_fresh program _ _ rfl
    · exact next_fresh program _ _ rfl
    · rename_i unwaited waits
      intro outs line
      have blocked := (masked.handler running).1
      have place := masked.place
      rw [blocked] at place
      change s.place.line = some outs at line
      cases here : s.place with
      | row j i =>
        rw [here] at place
        cases place.2.2
      | opening j =>
        rw [here] at place
        cases place.2
      | suspended j mask => exact absurd here (waits j mask)
      | blocking | pausing | paused | leaving | restored | exited =>
        rw [here] at line
        cases line
  | sends stays =>
    refine fun outs line => (fresh outs line).disturbed rfl (.inl ?_)
    change 0 < if program.queues then s.pending + 1 else 1
    split <;> omega

structure Ledger (program : Program) (log : List Event) (s : State) : Prop where
  masked : Masked program s
  counted : Counted log s
  shaped : ∃ bangs, Shaped program log s.place bangs
  fresh : Fresh log s

theorem run_ledger (run : Runs (Step program) (start inherited) log s) : Ledger program log s := by
  refine run.invariant (I := Ledger program) ?_ ⟨start_masked inherited,rfl,⟨0,rfl,.inl rfl⟩,nofun⟩
  intro log s emitted u ⟨masked,counted,⟨bangs,shaped⟩,fresh⟩ taken
  exact ⟨step_masked masked taken,step_counted masked counted taken,step_shaped masked shaped taken,step_fresh masked fresh taken⟩

-- Nothing goes on but by another signal.
def Idle (program : Program) (s : State) : Prop := ∀ emitted u, Step program s emitted u → ∃ queued, emitted = [.sent queued]

def Place.waits : Place → Bool
  | .paused _ => true
  | .suspended _ _ => true
  | _ => false

theorem ready_moves (masked : Masked program s) (ready : s.ready) (busy : s.place.waits = false) (stays : s.place ≠ .exited) :
    ∃ emitted u, Step program s emitted u ∧ ∀ queued, emitted ≠ [.sent queued] := by
  have place := masked.place
  cases here : s.place with
  | blocking j => exact ⟨_,_,.blocks ready here,nofun⟩
  | row j i =>
    rw [here] at place
    by_cases all : i = stars
    · exact ⟨_,_,.ends ready here all,nofun⟩
    · exact ⟨_,_,.writes ready here (Nat.lt_of_le_of_ne place.2.1 all),nofun⟩
  | opening j =>
    cases program with
    | block => exact ⟨_,_,.unblocks ready here rfl,nofun⟩
    | suspend => exact ⟨_,_,.restores ready here rfl,nofun⟩
    | sigsuspend | suspendRt => exact ⟨_,_,.suspends ready here rfl,nofun⟩
  | pausing j => exact ⟨_,_,.pauses ready here,nofun⟩
  | leaving => exact ⟨_,_,.leaves ready here,nofun⟩
  | restored => exact ⟨_,_,.exits ready here,nofun⟩
  | exited => exact absurd here stays
  | paused | suspended =>
    rw [here] at busy
    cases busy

theorem waits_unblocked (masked : Masked program s) (waits : s.place.waits = true) : s.blocked = false := by
  have place := masked.place
  cases here : s.place with
  | paused | suspended =>
    rw [here] at place
    exact place.2.1
  | blocking | row | opening | pausing | leaving | restored | exited =>
    rw [here] at waits
    cases waits

theorem idle_iff (masked : Masked program s) : Idle program s ↔ s.place = .exited ∨ s.place.waits = true ∧ s.pending = 0 ∧ s.handling = false := by
  constructor
  · intro idle
    by_cases exited : s.place = .exited
    · exact .inl exited
    have running : s.handling = false := by
      refine eq_false_of_ne_true fun handling => ?_
      obtain ⟨_,same⟩ := idle _ _ (.handles handling)
      cases same
    have undelivered : s.blocked = true ∨ s.pending = 0 := by
      cases opened : s.blocked with
      | true => exact .inl rfl
      | false =>
        refine .inr (Nat.eq_zero_of_not_pos fun some => ?_)
        obtain ⟨_,same⟩ := idle _ _ (.delivers running opened some exited)
        cases same
    refine .inr ?_
    by_cases waits : s.place.waits = true
    · refine ⟨waits,undelivered.resolve_left ?_,running⟩
      rw [waits_unblocked masked waits]
      nofun
    · obtain ⟨emitted,u,taken,other⟩ := ready_moves masked ⟨running,undelivered⟩ (eq_false_of_ne_true waits) exited
      obtain ⟨queued,same⟩ := idle emitted u taken
      exact absurd same (other queued)
  · intro still emitted u taken
    cases taken with
    | sends => exact ⟨_,rfl⟩
    | blocks _ here | writes _ here | ends _ here | unblocks _ here | restores _ here | pauses _ here | suspends _ here | leaves _ here
    | exits _ here =>
      rcases still with exited | ⟨waits,_⟩
      · rw [here] at exited
        cases exited
      · rw [here] at waits
        cases waits
    | delivers _ _ some stays =>
      rcases still with exited | ⟨_,none,_⟩
      · exact absurd exited stays
      · omega
    | handles running =>
      rcases still with exited | ⟨_,_,idle⟩
      · exact absurd exited (masked.handler running).2
      · rw [idle] at running
        cases running

structure Written (program : Program) (log : List Event) (s : State) : Prop where
  shaped : ∃ bangs, program.scan (output log) = some ⟨s.place.rows,s.place.stars,bangs⟩
  counted : kept log = printed log + s.pending + s.handling.toNat
  idle : Idle program s ↔ s.place = .exited ∨ s.place.waits = true ∧ s.pending = 0 ∧ s.handling = false
  ended : s.place = .exited → ∃ bangs, program.scan (output log) = some ⟨lines,0,bangs⟩ ∧ program.least ≤ bangs
  woken : Idle program s → program.atomic = true → s.place ≠ .exited →
    ∃ earlier later, log = earlier ++ later ∧ output later = fullRow ∧ ∀ queued, .sent queued ∉ later

theorem stars_written (count : Nat) (room : i + count ≤ stars) {pending : Nat} {oldset saveset : Bool} :
    Runs (Step program) ⟨pending,true,oldset,saveset,false,.row j i⟩ (List.replicate count .star) ⟨pending,true,oldset,saveset,false,.row j (i + count)⟩ := by
  induction count with
  | zero => exact .nil
  | succ count ih =>
    rw [List.replicate_succ']
    exact (ih (by omega)).step (.writes ⟨rfl,.inl rfl⟩ rfl room)

-- The programs with sigsuspend only wait when no signal has come since they began the line,
-- and suspend.c may sleep through one that has.
theorem rows_exact : (∀ program inherited log s, Runs (Step program) (start inherited) log s → Written program log s) ∧
    ∃ s, Runs (Step .suspend) (start false) (.star :: .sent true :: (List.replicate 9 .star ++ [.newline,.bang])) s ∧
      s.place = .paused 0 ∧ Idle .suspend s := by
  constructor
  · intro program inherited log s run
    obtain ⟨masked,counted,⟨bangs,shaped⟩,fresh⟩ := run_ledger run
    have still := idle_iff masked
    refine ⟨⟨bangs,shaped.scanned⟩,counted,still,?_,?_⟩
    · intro exited
      obtain ⟨scanned,between⟩ := shaped
      rw [exited] at scanned between
      exact ⟨bangs,scanned,between⟩
    · intro idle atomic stays
      obtain ⟨waits,none,handling⟩ := (still.mp idle).resolve_left stays
      have line : s.place.line = some fullRow := by
        have place := masked.place
        cases here : s.place with
        | suspended => rfl
        | paused j =>
          rw [here] at place
          obtain ⟨_,_,suspend⟩ := place
          rw [suspend] at atomic
          cases atomic
        | blocking | row | opening | pausing | leaving | restored | exited =>
          rw [here] at waits
          cases waits
      obtain ⟨earlier,later,same,wrote,quiet⟩ := fresh fullRow line
      exact ⟨earlier,later,same,wrote,quiet none handling⟩
  · have starts : Runs (Step .suspend) (start false) [] ⟨0,true,false,false,false,.row 0 0⟩ := .one (.blocks ⟨rfl,.inr rfl⟩ rfl)
    have first := starts.step (.writes ⟨rfl,.inl rfl⟩ rfl (by decide))
    have sent := first.step (.sends nofun)
    have rest := sent.append (stars_written 9 (by decide))
    have ended := rest.step (.ends ⟨rfl,.inl rfl⟩ rfl rfl)
    have restored := ended.step (.restores ⟨rfl,.inl rfl⟩ rfl rfl)
    have delivered := restored.step (.delivers rfl rfl Nat.zero_lt_one nofun)
    have handled := delivered.step (.handles rfl)
    have asleep := handled.step (.pauses ⟨rfl,.inr rfl⟩ rfl)
    refine ⟨_,asleep,rfl,(idle_iff (run_ledger asleep).masked).mpr (.inr ⟨rfl,rfl,rfl⟩)⟩

end

end LinuxCoding.Masking
