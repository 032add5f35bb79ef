import LinuxCoding.AddRace.Counting
import LinuxCoding.Library.Transition

-- IPC/xsi/sem/add_race.c: processes that count in a file, between P and V of a semaphore.
namespace LinuxCoding.AddRace.Processes
open CInt Decimal Mutex Stdio Total Transition

def eintr : Int := 4
def eagain : Int := 11

-- The test of P for an error that is none of these two.
def realError (errno : Int) : Bool := errno ≠ eintr || errno ≠ eagain

-- fopen, semop in P, fgets, fseek to fclose with what is in linebuf, semop in V, after the
-- return of func_add; and an exit(1) after fopen, in P and in V.
inductive Place where
  | opening
  | waiting
  | reading
  | writing (linebuf : List UInt8)
  | posting
  | exited
  | unopened
  | terminated
  | unposted

-- The process is between P and V.
def Place.holds : Place → Bool
  | .reading => true
  | .writing _ => true
  | .posting => true
  | _ => false

def Place.ended : Place → Bool
  | .exited => true
  | .unopened => true
  | .terminated => true
  | .unposted => true
  | _ => false

structure State (processes : Nat) where
  file : List UInt8
  sem : Nat
  pc : Fin processes → Place

inductive Event (processes : Nat) where
  | opened (p : Fin processes)
  | openFailed (p : Fin processes)
  | waited (p : Fin processes)
  | waitFailed (p : Fin processes) (errno : Int)
  | fetched (p : Fin processes) (linebuf : List UInt8)
  | wrote (p : Fin processes) (text : List UInt8)
  | posted (p : Fin processes)
  | postFailed (p : Fin processes)

section
variable {processes : Nat}

def start (processes : Nat) (file : List UInt8) : State processes := ⟨file,1,fun _ => .opening⟩

def State.go (s : State processes) (p : Fin processes) (place : Place) : State processes := {s with pc := Function.update s.pc p place}

-- func_add with P and V. The stream goes to the file with fflush; the descriptor that lockf
-- unlocks has no lock.
inductive Step : State processes → List (Event processes) → State processes → Prop where
  | opens : s.pc p = .opening → Step s [.opened p] (s.go p .waiting)
  | openFails : s.pc p = .opening → Step s [.openFailed p] (s.go p .unopened)
  | waits : s.pc p = .waiting → 0 < s.sem → Step s [.waited p] {s.go p .reading with sem := s.sem - 1}
  | waitFails (errno : Int) : s.pc p = .waiting →
      Step s [.waitFailed p errno] (s.go p (if realError errno then .terminated else .waiting))
  | reads (stack : List UInt8) : s.pc p = .reading → Step s [.fetched p (fetch stack s.file)] (s.go p (.writing (fetch stack s.file)))
  | writes : s.pc p = .writing linebuf → Step s [.wrote p (reply linebuf)] {s.go p .posting with file := overwrite s.file (reply linebuf)}
  | posts : s.pc p = .posting → Step s [.posted p] {s.go p .exited with sem := s.sem + 1}
  | postFails : s.pc p = .posting → Step s [.postFailed p] (s.go p .unposted)

-- The failures of semop in P are interruptions.
def Interruptions (_ : State processes) (emitted : List (Event processes)) : Prop :=
  ∀ p errno, .waitFailed p errno ∈ emitted → errno = eintr ∨ errno = eagain

def Event.failure : Event processes → Bool
  | .waitFailed _ _ => true
  | .openFailed _ => true
  | _ => false

-- Each number that was read is an int, and so is its successor.
def Defined (log : List (Event processes)) : Prop :=
  ∀ p linebuf, .fetched p linebuf ∈ log → intMin ≤ parse linebuf ∧ parse linebuf + 1 ≤ intMax

def Exclusive (s : State processes) : Prop := ∀ p q, (s.pc p).holds = true → (s.pc q).holds = true → p = q

structure Lossless (v : Int) (log : List (Event processes)) (s : State processes) : Prop where
  survives : ∀ p, s.pc p ≠ .terminated
  defined : Defined log
  line : firstLine s.file = print (v + processes)

-- The process has taken the token of the semaphore, has written its number, has met a failure.
def Place.taken : Place → Bool
  | .unposted => true
  | place => place.holds

def Place.counted : Place → Bool
  | .posting => true
  | .exited => true
  | .unposted => true
  | _ => false

-- What the process has in linebuf.
def Place.fetched : Place → Option (List UInt8)
  | .writing linebuf => some linebuf
  | _ => none

def Place.failed : Place → Bool
  | .unopened => true
  | .terminated => true
  | _ => false

def Tokens (s : State processes) : Prop := s.sem + tally Place.taken s.pc = 1

def Marked (log : List (Event processes)) (s : State processes) : Prop := (∃ e ∈ log, e.failure = true) ↔ ∃ p, (s.pc p).failed = true

variable {v : Int} {s u : State processes} {p q : Fin processes} {place : Place} {log emitted : List (Event processes)} {file : List UInt8}

theorem real_error (errno : Int) : realError errno = true := by
  unfold realError eintr eagain
  by_cases interrupted : errno = 4
  · subst interrupted
    rfl
  · simp [interrupted]

-- The token is in the semaphore or with one process.
theorem step_tokens (tokens : Tokens s) (taken : Step s emitted u) : Tokens u := by
  unfold Tokens at tokens ⊢
  cases taken with
  | opens place | openFails place | reads _ place | writes place | postFails place =>
    change s.sem + tally Place.taken (Function.update _ _ _) = 1
    rw [tally_same place (by rfl)]
    exact tokens
  | waitFails errno place =>
    change s.sem + tally Place.taken (Function.update _ _ _) = 1
    rw [tally_same place (by rw [real_error]; rfl)]
    exact tokens
  | waits place free =>
    change s.sem - 1 + tally Place.taken (Function.update _ _ _) = 1
    rw [tally_more place rfl rfl]
    omega
  | @posts p place =>
    have split := tally_update Place.taken s.pc p .exited
    rw [place] at split
    change _ + 1 = _ + 0 at split
    change s.sem + 1 + tally Place.taken (Function.update s.pc p .exited) = 1
    omega

theorem tokens_exclusive (tokens : Tokens s) : Exclusive s := by
  have taken : ∀ place : Place, place.holds = true → place.taken = true := by
    intro place held
    cases place <;> first | exact held | rfl
  intro p q held held'
  have one : tally Place.taken s.pc ≤ 1 := Nat.le_trans (Nat.le_add_left _ _) (Nat.le_of_eq tokens)
  exact tally_unique one (taken _ held) (taken _ held')

-- A process that has not failed goes on, and fails with the event of a failure.
theorem Marked.goes (marked : Marked log s) {event : Event processes} (before : (s.pc p).failed = false) (same : event.failure = place.failed)
    (moved : u.pc = Function.update s.pc p place) : Marked (log ++ [event]) u := by
  unfold Marked at marked ⊢
  rw [moved]
  constructor
  · rintro ⟨e,member,failure⟩
    rcases List.mem_append.mp member with earlier | new
    · obtain ⟨q,failed⟩ := marked.mp ⟨e,earlier,failure⟩
      have other : q ≠ p := by
        intro own
        rw [own,before] at failed
        cases failed
      exact ⟨q,by rw [Function.update_of_ne other]; exact failed⟩
    · rw [List.mem_singleton.mp new,same] at failure
      exact ⟨p,by rw [Function.update_self]; exact failure⟩
  · rintro ⟨q,failed⟩
    by_cases own : q = p
    · rw [own,Function.update_self,← same] at failed
      exact ⟨event,List.mem_append_right _ (List.mem_singleton_self _),failed⟩
    · rw [Function.update_of_ne own] at failed
      obtain ⟨e,member,failure⟩ := marked.mpr ⟨q,failed⟩
      exact ⟨e,List.mem_append_left _ member,failure⟩

theorem step_marked (marked : Marked log s) (taken : Step s emitted u) : Marked (log ++ emitted) u := by
  cases taken with
  | opens place | openFails place | waits place | reads _ place | writes place | posts place | postFails place =>
    exact marked.goes (by rw [place]; rfl) rfl rfl
  | waitFails errno place => exact marked.goes (by rw [place]; rfl) (by rw [real_error]; rfl) rfl

-- The file holds the count, and who is between P and V has it, as long as the numbers are ints.
def Counted (v : Int) (s : State processes) : Prop := Counting Place.counted Place.fetched v s.file s.pc

theorem fetched_holds {place : Place} (there : place.fetched = some linebuf) : place.holds = true := by
  cases place with
  | writing => rfl
  | opening | waiting | reading | posting | exited | unopened | terminated | unposted => cases there

theorem Counted.goes (counted : Counted v s) (there : s.pc p = place) (file : u.file = s.file) (moved : u.pc = Function.update s.pc p next)
    (same : next.counted = place.counted) (unread : next.fetched = none) : Counted v u := by
  unfold Counted
  rw [file,moved]
  refine Counting.goes counted there same ?_
  intro linebuf read
  rw [unread] at read
  cases read

theorem step_counted (exclusive : Exclusive s) (counted : Counted v s) (taken : Step s emitted u) (defined : Defined emitted) : Counted v u := by
  cases taken with
  | opens place | openFails place | waits place | posts place | postFails place => exact counted.goes place rfl rfl rfl rfl
  | waitFails errno place => exact counted.goes place rfl rfl (by rw [real_error]; rfl) (by rw [real_error]; rfl)
  | reads stack place =>
    refine Counting.goes counted place rfl ?_
    intro linebuf same
    cases same
    obtain ⟨low,high⟩ := defined _ _ (List.mem_singleton_self _)
    exact ⟨fetch_number counted.line low (Int.le_trans (Int.le_add_one (Int.le_refl _)) high),low,high⟩
  | @writes p linebuf place =>
    refine Counting.writes counted place rfl ?_ rfl rfl rfl
    intro q text there
    exact exclusive q p (fetched_holds there) (by rw [place]; rfl)

theorem step_defined (low : intMin ≤ v) (fits : v + processes ≤ intMax) (counted : Counted v s) (taken : Step s emitted u) : Defined emitted := by
  intro q linebuf member
  cases taken with
  | reads stack place =>
    cases List.mem_singleton.mp member
    have room : tally Place.counted s.pc < processes := tally_room place rfl
    rw [fetch_int counted.line (by omega) (by omega)]
    omega
  | opens | openFails | waits | waitFails | writes | posts | postFails => cases List.mem_singleton.mp member

theorem defined_append (log more : List (Event processes)) : Defined (log ++ more) ↔ Defined log ∧ Defined more := by
  constructor
  · intro defined
    exact ⟨fun p linebuf member => defined p linebuf (List.mem_append_left _ member),
      fun p linebuf member => defined p linebuf (List.mem_append_right _ member)⟩
  · rintro ⟨earlier,now⟩ p linebuf member
    exact (List.mem_append.mp member).elim (earlier p linebuf) (now p linebuf)

structure Ledger (v : Int) (log : List (Event processes)) (s : State processes) : Prop where
  tokens : Tokens s
  marked : Marked log s
  counted : Defined log → Counted v s
  defined : intMin ≤ v → v + processes ≤ intMax → Defined log

theorem run_ledger (first : firstLine file = print v) (run : Runs Step (start processes file) log s) : Ledger v log s := by
  refine run.invariant (I := Ledger v) ?_ ⟨?_,?_,fun _ => .start (fun _ => rfl) (fun _ => rfl) first,fun _ _ => nofun⟩
  · intro log s emitted u ledger taken
    refine ⟨step_tokens ledger.tokens taken,step_marked ledger.marked taken,?_,?_⟩
    · intro defined
      obtain ⟨earlier,now⟩ := (defined_append log emitted).mp defined
      exact step_counted (tokens_exclusive ledger.tokens) (ledger.counted earlier) taken now
    · intro low fits
      have earlier := ledger.defined low fits
      exact (defined_append log emitted).mpr ⟨earlier,step_defined low fits (ledger.counted earlier) taken⟩
  · unfold Tokens
    rw [tally_zero (fun _ => rfl)]
    rfl
  · constructor
    · rintro ⟨e,member,_⟩
      cases member
    · rintro ⟨p,failed⟩
      cases failed

theorem failed_uncounted {place : Place} (failed : place.failed = true) : place.counted = false := by
  cases place with
  | unopened | terminated => rfl
  | opening | waiting | reading | writing | posting | exited | unposted => cases failed

theorem ended_counted {place : Place} (ended : place.ended = true) (passed : place.failed = false) : place.counted = true := by
  cases place with
  | posting | exited | unposted => rfl
  | unopened | terminated => cases passed
  | opening | waiting | reading | writing => cases ended

theorem lossless_passes (ledger : Ledger v log s) (lossless : Lossless v log s) :
    (∀ e ∈ log, e.failure = false) ∧ (processes = 0 ∨ intMin ≤ v ∧ v + processes ≤ intMax) := by
  have counted := ledger.counted lossless.defined
  have all : tally Place.counted s.pc = processes := by
    have same := print_injective (counted.line.symm.trans lossless.line)
    omega
  refine ⟨?_,?_⟩
  · intro e member
    by_contra failure
    obtain ⟨p,failed⟩ := ledger.marked.mp ⟨e,member,by simpa using failure⟩
    have room : tally Place.counted s.pc < processes := tally_room rfl (failed_uncounted failed)
    omega
  · by_cases none : processes = 0
    · exact .inl none
    · have range := counted.range (by omega)
      rw [all] at range
      exact .inr range

theorem passes_lossless (ledger : Ledger v log s) (ended : ∀ p, (s.pc p).ended = true) (passed : ∀ e ∈ log, e.failure = false)
    (fits : processes = 0 ∨ intMin ≤ v ∧ v + processes ≤ intMax) : Lossless v log s := by
  have unfailed : ∀ p, (s.pc p).failed = false := by
    intro p
    by_contra failed
    obtain ⟨e,member,failure⟩ := ledger.marked.mpr ⟨p,by simpa using failed⟩
    rw [passed e member] at failure
    cases failure
  have defined : Defined log := by
    rcases fits with none | ⟨low,high⟩
    · intro p
      exact absurd p.isLt (by omega)
    · exact ledger.defined low high
  have line := (ledger.counted defined).all (fun p => ended_counted (ended p) (unfailed p))
  refine ⟨?_,defined,line⟩
  intro p place
  have passing := unfailed p
  rw [place] at passing
  cases passing

theorem interrupted_exact (first : firstLine file = print v) (run : Runs (Where Step Interruptions) (start processes file) log s) :
    Exclusive s ∧ ((∀ p, (s.pc p).ended = true) →
      (Lossless v log s ↔ (∀ e ∈ log, e.failure = false) ∧ (processes = 0 ∨ intMin ≤ v ∧ v + processes ≤ intMax))) := by
  have ledger := run_ledger first run.unrestricted
  refine ⟨tokens_exclusive ledger.tokens,?_⟩
  intro ended
  constructor
  · exact lossless_passes ledger
  · rintro ⟨passed,fits⟩
    exact passes_lossless ledger ended passed fits

end

-- A single process without an interruption.
theorem one_uninterrupted : ∃ log s, Runs (Where Step Interruptions) (start 1 [57,10]) log s ∧ Lossless 9 log s := by
  have begins : Runs (Where Step Interruptions) (start 1 [57,10]) [] _ := .nil
  have opened := begins.step ⟨.opens (p := 0) rfl,fun _ _ member => by cases List.mem_singleton.mp member⟩
  have waited := opened.step ⟨.waits (p := 0) rfl Nat.zero_lt_one,fun _ _ member => by cases List.mem_singleton.mp member⟩
  have fetched := waited.step ⟨.reads (p := 0) [] rfl,fun _ _ member => by cases List.mem_singleton.mp member⟩
  have wrote := fetched.step ⟨.writes (p := 0) rfl,fun _ _ member => by cases List.mem_singleton.mp member⟩
  have posted := wrote.step ⟨.posts (p := 0) rfl,fun _ _ member => by cases List.mem_singleton.mp member⟩
  refine ⟨_,_,posted,((interrupted_exact (by decide) posted).2 ?_).mpr ⟨?_,.inr (by decide)⟩⟩
  · intro p
    rw [Fin.fin_one_eq_zero p]
    rfl
  · decide

-- A single process that a signal interrupts in P ends there, and the file is as it was.
theorem interrupted_lost : ∃ log s, Runs (Where Step Interruptions) (start 1 [57,10]) log s ∧ .waitFailed 0 eintr ∈ log ∧
    (∀ p, (s.pc p).ended = true) ∧ s.pc 0 = .terminated ∧ firstLine s.file = [57] ∧ ¬ Lossless 9 log s := by
  have begins : Runs (Where Step Interruptions) (start 1 [57,10]) [] _ := .nil
  have opened := begins.step ⟨.opens (p := 0) rfl,fun _ _ member => by cases List.mem_singleton.mp member⟩
  have failed := opened.step ⟨.waitFails (p := 0) eintr rfl,fun _ _ member => by cases List.mem_singleton.mp member; exact .inl rfl⟩
  refine ⟨_,_,failed,List.mem_append_right _ (List.mem_singleton_self _),?_,rfl,rfl,?_⟩
  · intro p
    rw [Fin.fin_one_eq_zero p]
    rfl
  · intro lossless
    exact lossless.survives 0 rfl

end LinuxCoding.AddRace.Processes
