import LinuxCoding.AddRace.Counting
import LinuxCoding.Library.Children
import LinuxCoding.Library.RangeLocks
import LinuxCoding.Library.Transition

-- proIO/mmap/add_race.c: processes that count in a file, with lockf. F_LOCK comes at the
-- beginning of the file and F_ULOCK behind what has been written.
namespace LinuxCoding.AddRace.Ranges
open Children CInt Decimal Mutex RangeLocks Stdio Total Transition

-- Before its fork; fopen, F_LOCK, fgets, fseek to fflush with what is in linebuf, F_ULOCK,
-- fclose, after exit(0); and after the exit(1) behind fopen. The offset is that of the file.
inductive Place where
  | unborn
  | opening
  | locking
  | reading
  | writing (linebuf : List UInt8)
  | unlocking (offset : Nat)
  | closing (offset : Nat)
  | exited
  | unopened

structure State (procnum : Nat) where
  file : List UInt8
  locks : Fin procnum → List Range
  pc : Fin procnum → Place
  parent : Parent

inductive Event (procnum : Nat) where
  | forked (p : Fin procnum)
  | forkFailed
  | opened (p : Fin procnum)
  | openFailed (p : Fin procnum)
  | locked (p : Fin procnum)
  | fetched (p : Fin procnum) (linebuf : List UInt8)
  | wrote (p : Fin procnum) (text : List UInt8)
  | unlocked (p : Fin procnum) (offset : Nat)
  | closed (p : Fin procnum)
  | reaped
  | exited (code : Nat)

-- lockf with a size of 0 is about all bytes from the offset on.
def onward (offset : Nat) : Range := ⟨offset,none⟩

def Place.born : Place → Bool
  | .unborn => false
  | _ => true

def Place.ended : Place → Bool
  | .exited => true
  | .unopened => true
  | _ => false

-- The process has locked the beginning of the file.
def Place.holds : Place → Bool
  | .reading => true
  | .writing _ => true
  | .unlocking _ => true
  | .closing _ => true
  | _ => false

def Place.counted : Place → Bool
  | .unlocking _ => true
  | .closing _ => true
  | .exited => true
  | _ => false

def Place.fetched : Place → Option (List UInt8)
  | .writing linebuf => some linebuf
  | _ => none

-- Behind the text that has been written.
def Place.offset : Place → Option Nat
  | .unlocking offset => some offset
  | .closing offset => some offset
  | _ => none

def Place.steps : Place → Nat
  | .unborn => 0
  | .opening => 0
  | .locking => 1
  | .reading => 2
  | .writing _ => 3
  | .unlocking _ => 4
  | .closing _ => 5
  | .exited => 6
  | .unopened => 1

section
variable {procnum : Nat}

def start (procnum : Nat) (file : List UInt8) : State procnum := ⟨file,fun _ => [],fun _ => .unborn,young⟩

def State.go (s : State procnum) (p : Fin procnum) (place : Place) : State procnum := {s with pc := Function.update s.pc p place}

-- func_add and main. A wait takes a child that has ended, and there are as many waits as
-- children; lockf goes on when nobody else has a lock in its way.
inductive Step : State procnum → List (Event procnum) → State procnum → Prop where
  | forks (p : Fin procnum) : s.parent.failed = false → s.parent.born = p.val →
      Step s [.forked p] {s.go p .opening with parent := {s.parent with born := s.parent.born + 1}}
  | forkFails : s.parent.failed = false → s.parent.born < procnum → Step s [.forkFailed] {s with parent := {s.parent with failed := true}}
  | reaps : s.parent.created procnum → s.parent.reaped < s.parent.born → s.parent.reaped < tally Place.ended s.pc →
      Step s [.reaped] {s with parent := {s.parent with reaped := s.parent.reaped + 1}}
  | exits : s.parent.created procnum → s.parent.reaped = s.parent.born → s.parent.exited = false →
      Step s [.exited s.parent.failed.toNat] {s with parent := {s.parent with exited := true}}
  | opens : s.pc p = .opening → Step s [.opened p] (s.go p .locking)
  | openFails : s.pc p = .opening → Step s [.openFailed p] (s.go p .unopened)
  | locks : s.pc p = .locking → Grants s.locks p (onward 0) → Step s [.locked p] {s.go p .reading with locks := lock s.locks p (onward 0)}
  | reads (stack : List UInt8) : s.pc p = .reading → Step s [.fetched p (fetch stack s.file)] (s.go p (.writing (fetch stack s.file)))
  | writes : s.pc p = .writing linebuf →
      Step s [.wrote p (reply linebuf)] {s.go p (.unlocking (reply linebuf).length) with file := overwrite s.file (reply linebuf)}
  | unlocks : s.pc p = .unlocking offset →
      Step s [.unlocked p offset] {s.go p (.closing offset) with locks := unlock s.locks p (onward offset)}
  | closes : s.pc p = .closing offset → Step s [.closed p] {s.go p .exited with locks := close s.locks p}

variable {v : Int} {s u : State procnum} {p q : Fin procnum} {place : Place} {log emitted : List (Event procnum)} {file : List UInt8}

def Born (s : State procnum) : Prop := Family Place.born Place.ended s.parent s.pc

theorem start_born (file : List UInt8) : Born (start procnum file) := young_family Place.born Place.ended (fun _ => rfl)

theorem Born.unborn (family : Born s) (turn : s.parent.born = p.val) : s.pc p = .unborn := by
  have young := Family.unborn family turn
  cases here : s.pc p with
  | unborn => rfl
  | opening | locking | reading | writing | unlocking | closing | exited | unopened =>
    rw [here] at young
    cases young

theorem step_born (family : Born s) (taken : Step s emitted u) : Born u := by
  cases taken with
  | forks p going turn => exact Family.forks family going turn rfl rfl (by rw [family.unborn turn]; rfl)
  | forkFails => exact Family.fails family
  | reaps _ less more => exact Family.reaps family less more
  | exits created all => exact Family.exits family created all
  | opens here | openFails here | locks here | reads _ here | writes here | unlocks here | closes here => exact Family.goes family here rfl rfl

-- The byte at the beginning stays locked until the file is closed, since something has been
-- written by then.
structure Guards (place : Place) (ranges : List Range) : Prop where
  held : place.holds = true → held ranges 0 = true
  free : place.holds = false → ranges = []
  behind : ∀ offset, place.offset = some offset → 0 < offset

structure Guarded (s : State procnum) : Prop where
  exclusive : RangeLocks.Exclusive s.locks
  guards : ∀ p, Guards (s.pc p) (s.locks p)

theorem Guarded.alone (guarded : Guarded s) (mine : (s.pc p).holds = true) (theirs : (s.pc q).holds = true) : p = q :=
  guarded.exclusive p q 0 ((guarded.guards p).held mine) ((guarded.guards q).held theirs)

theorem Guarded.goes (guarded : Guarded s) {ranges : List Range} (guards : Guards place ranges) (q : Fin procnum) :
    Guards (Function.update s.pc p place q) (Function.update s.locks p ranges q) := by
  by_cases own : q = p
  · rw [own,Function.update_self,Function.update_self]
    exact guards
  · rw [Function.update_of_ne own,Function.update_of_ne own]
    exact guarded.guards q

theorem Guarded.stays (guarded : Guarded s) (here : s.pc p = old) (moved : u.pc = Function.update s.pc p place) (locks : u.locks = s.locks)
    (same : place.holds = old.holds) (behind : ∀ offset, place.offset = some offset → 0 < offset) : Guarded u := by
  refine ⟨locks ▸ guarded.exclusive,?_⟩
  have kept : Guards place (s.locks p) := by
    obtain ⟨held,free,_⟩ := guarded.guards p
    rw [here,← same] at held free
    exact ⟨held,free,behind⟩
  intro q
  have all := guarded.goes (p := p) kept q
  rw [Function.update_eq_self] at all
  rw [locks,moved]
  exact all

theorem reply_length (linebuf : List UInt8) : 0 < (reply linebuf).length := by
  rw [reply,List.length_append]
  exact Nat.lt_add_left _ Nat.zero_lt_one

-- F_ULOCK leaves the bytes before the offset as they were.
theorem Guarded.unlocks (guarded : Guarded s) (here : s.pc p = .unlocking offset) :
    Guarded {s.go p (.closing offset) with locks := unlock s.locks p (onward offset)} := by
  obtain ⟨held,_,behind⟩ := guarded.guards p
  rw [here] at held behind
  have positive : 0 < offset := behind offset rfl
  refine ⟨guarded.exclusive.unlock p (onward offset),guarded.goes ⟨?_,nofun,behind⟩⟩
  intro _
  have left := held_unlock s.locks p (onward offset) 0
  have before : (onward offset).covers 0 = false := by
    simp [onward,Range.covers]
    omega
  rw [held rfl,before,unlock,Function.update_self] at left
  exact left

theorem step_guarded (family : Born s) (guarded : Guarded s) (taken : Step s emitted u) : Guarded u := by
  cases taken with
  | forks p going turn => exact guarded.stays (family.unborn turn) rfl rfl rfl nofun
  | forkFails | reaps | exits => exact ⟨guarded.exclusive,guarded.guards⟩
  | opens here | openFails here | reads _ here => exact guarded.stays here rfl rfl rfl nofun
  | writes here =>
    refine guarded.stays here rfl rfl rfl ?_
    intro offset same
    cases same
    exact reply_length _
  | locks here granted => exact ⟨guarded.exclusive.lock granted,guarded.goes ⟨fun _ => rfl,nofun,nofun⟩⟩
  | unlocks here => exact guarded.unlocks here
  | closes here => exact ⟨guarded.exclusive.close _,guarded.goes ⟨nofun,fun _ => rfl,nofun⟩⟩

def Counted (v : Int) (s : State procnum) : Prop := Counting Place.counted Place.fetched v s.file s.pc

theorem fetched_holds {place : Place} (there : place.fetched = some linebuf) : place.holds = true := by
  cases place with
  | writing => rfl
  | unborn | opening | locking | reading | unlocking | closing | exited | unopened => cases there

theorem Counted.goes (counted : Counted v s) (here : s.pc p = old) (moved : u.pc = Function.update s.pc p place) (file : u.file = s.file)
    (same : place.counted = old.counted) (unread : place.fetched = none) : Counted v u := by
  unfold Counted
  rw [file,moved]
  refine Counting.goes counted here same ?_
  intro linebuf read
  rw [unread] at read
  cases read

theorem step_counted (low : intMin ≤ v) (fits : v + procnum ≤ intMax) (family : Born s) (guarded : Guarded s) (counted : Counted v s)
    (taken : Step s emitted u) : Counted v u := by
  cases taken with
  | forks p going turn => exact counted.goes (family.unborn turn) rfl rfl rfl rfl
  | forkFails | reaps | exits => exact counted
  | opens here | openFails here | locks here | unlocks here | closes here => exact counted.goes here rfl rfl rfl rfl
  | reads stack here =>
    have room : tally Place.counted s.pc < procnum := tally_room here rfl
    refine Counting.goes counted here rfl ?_
    intro linebuf same
    cases same
    rw [fetch_int counted.line (by omega) (by omega)]
    omega
  | writes here =>
    refine Counting.writes counted here rfl ?_ rfl rfl rfl
    intro q text there
    exact guarded.alone (fetched_holds there) (by rw [here]; rfl)

-- Each event is a step of main or of a child.
def Timed (log : List (Event procnum)) (s : State procnum) : Prop := log.length = s.parent.steps + total Place.steps s.pc

theorem Timed.goes (timed : Timed log s) (here : s.pc p = old) (moved : u.pc = Function.update s.pc p place) (parent : u.parent = s.parent)
    (next : place.steps = old.steps + 1) : Timed (log ++ [event]) u := by
  have sum := total_update Place.steps s.pc p place
  rw [here] at sum
  unfold Timed at timed ⊢
  rw [List.length_append,List.length_singleton,parent,moved]
  omega

theorem step_timed (family : Born s) (timed : Timed log s) (taken : Step s emitted u) : Timed (log ++ emitted) u := by
  cases taken with
  | forks p going turn =>
    have same : total Place.steps (Function.update s.pc p .opening) = total Place.steps s.pc := by
      have sum := total_update Place.steps s.pc p .opening
      rw [family.unborn turn] at sum
      exact sum
    unfold Timed Parent.steps at timed ⊢
    change (log ++ [_]).length = (s.parent.born + 1) + s.parent.failed.toNat + s.parent.reaped + s.parent.exited.toNat + total Place.steps (Function.update s.pc p .opening)
    rw [List.length_append,List.length_singleton,same]
    omega
  | forkFails going | exits _ _ going =>
    unfold Timed Parent.steps at timed ⊢
    rw [going] at timed
    rw [List.length_append,List.length_singleton,timed]
    simp only [Bool.toNat_true,Bool.toNat_false]
    omega
  | reaps =>
    unfold Timed Parent.steps at timed ⊢
    rw [List.length_append,List.length_singleton,timed]
    simp only
    omega
  | opens here | openFails here | locks here | reads _ here | writes here | unlocks here | closes here => exact timed.goes here rfl rfl rfl

structure Ledger (v : Int) (log : List (Event procnum)) (s : State procnum) : Prop where
  family : Born s
  guarded : Guarded s
  counted : Counted v s
  timed : Timed log s

theorem run_ledger (low : intMin ≤ v) (fits : v + procnum ≤ intMax) (first : firstLine file = print v)
    (run : Runs Step (start procnum file) log s) : Ledger v log s := by
  refine run.invariant (I := Ledger v) ?_ ⟨start_born file,⟨?_,?_⟩,?_,?_⟩
  · intro log s emitted u ⟨family,guarded,counted,timed⟩ taken
    exact ⟨step_born family taken,step_guarded family guarded taken,step_counted low fits family guarded counted taken,step_timed family timed taken⟩
  · intro _ _ _ mine
    cases mine
  · exact fun _ => ⟨nofun,fun _ => rfl,nofun⟩
  · exact .start (fun _ => rfl) (fun _ => rfl) first
  · have none : total Place.steps (start procnum file).pc = 0 := Finset.sum_eq_zero (fun _ _ => rfl)
    unfold Timed
    rw [none]
    rfl

theorem steps_most (place : Place) : place.steps ≤ 6 := by
  cases place <;> simp [Place.steps]

theorem Ledger.short (ledger : Ledger v log s) : log.length ≤ 8 * procnum + 2 := by
  have children : total Place.steps s.pc ≤ ∑ _p : Fin procnum, 6 := Finset.sum_le_sum (fun p _ => steps_most (s.pc p))
  rw [Finset.sum_const_nat (fun _ _ => rfl),Finset.card_univ,Fintype.card_fin] at children
  have parent := Family.short ledger.family
  rw [ledger.timed]
  omega

-- Who has locked the beginning goes on.
theorem holder_moves (here : (s.pc p).holds = true) : ∃ emitted u, Step s emitted u := by
  cases place : s.pc p with
  | reading => exact ⟨_,_,.reads [] place⟩
  | writing => exact ⟨_,_,.writes place⟩
  | unlocking => exact ⟨_,_,.unlocks place⟩
  | closing => exact ⟨_,_,.closes place⟩
  | unborn | opening | locking | exited | unopened =>
    rw [place] at here
    cases here

theorem child_moves (guarded : Guarded s) (born : (s.pc p).born = true) (alive : (s.pc p).ended = false) : ∃ emitted u, Step s emitted u := by
  cases place : s.pc p with
  | opening => exact ⟨_,_,.opens place⟩
  | locking =>
    by_cases granted : Grants s.locks p (onward 0)
    · exact ⟨_,_,.locks place granted⟩
    · simp only [Grants,not_forall] at granted
      obtain ⟨q,_,range,member,_⟩ := granted
      refine holder_moves (p := q) ?_
      by_contra outside
      rw [(guarded.guards q).free (eq_false_of_ne_true outside)] at member
      cases member
  | reading | writing | unlocking | closing => exact holder_moves (by rw [place]; rfl)
  | unborn =>
    rw [place] at born
    cases born
  | exited | unopened =>
    rw [place] at alive
    cases alive

theorem main_moves (family : Born s) (guarded : Guarded s) (going : s.parent.exited = false) : ∃ emitted u, Step s emitted u := by
  by_cases created : s.parent.created procnum
  · by_cases all : s.parent.reaped = s.parent.born
    · exact ⟨_,_,.exits created all going⟩
    · have less : s.parent.reaped < s.parent.born := Nat.lt_of_le_of_ne family.reaped all
      by_cases more : s.parent.reaped < tally Place.ended s.pc
      · exact ⟨_,_,.reaps created less more⟩
      · obtain ⟨p,born,alive⟩ := Family.alive family (by omega)
        exact child_moves guarded born alive
  · obtain ⟨passing,fewer⟩ := not_or.mp created
    have room := Nat.lt_of_le_of_ne family.most fewer
    exact ⟨_,_,.forks ⟨s.parent.born,room⟩ (eq_false_of_ne_true passing) rfl⟩

theorem ended_born (place : Place) (ended : place.ended = true) : place.born = true := by
  cases place <;> first | rfl | cases ended

theorem exited_stuck (family : Born s) (exited : s.parent.exited = true) : Stuck Step s := by
  obtain ⟨created,all⟩ := family.last exited
  have passive : ∀ p, (s.pc p).born = true → (s.pc p).ended = false → False := by
    intro p born alive
    rw [Family.gone family ended_born exited born] at alive
    cases alive
  intro emitted u taken
  cases taken with
  | forks p going turn =>
    have inside := p.isLt
    rcases created with failed | full
    · rw [going] at failed
      cases failed
    · omega
  | forkFails going fewer =>
    rcases created with failed | full
    · rw [going] at failed
      cases failed
    · omega
  | reaps _ less => omega
  | exits _ _ going =>
    rw [exited] at going
    cases going
  | opens here | openFails here | locks here | reads _ here | writes here | unlocks here | closes here =>
    exact passive _ (by rw [here]; rfl) (by rw [here]; rfl)

structure Lossless (v : Int) (log : List (Event procnum)) (s : State procnum) : Prop where
  exclusive : ∀ p q, (s.pc p).holds = true → (s.pc q).holds = true → p = q
  line : firstLine s.file = print (v + tally Place.counted s.pc)
  short : log.length ≤ 8 * procnum + 2
  ends : Stuck Step s ↔ s.parent.exited = true
  waited : s.parent.exited = true → ∀ p, (s.pc p).born = true → (s.pc p).ended = true
  all : s.parent.exited = true → s.parent.failed = false → (∀ p, s.pc p ≠ .unopened) → firstLine s.file = print (v + procnum)

end

end LinuxCoding.AddRace.Ranges
