import LinuxCoding.AddRace.Counting
import LinuxCoding.Library.Transition

-- thread/posix/add_race.c: threads that count in a file, under a mutex.
namespace LinuxCoding.AddRace.Threads
open CInt Decimal Mutex Stdio Total Transition

-- fopen, the lock, fgets, fseek to fclose with what is in linebuf, the unlock, behind
-- pthread_exit; and what an exit(1) of the process leaves of each thread.
inductive Place where
  | opening
  | locking
  | reading
  | writing (linebuf : List UInt8)
  | unlocking
  | exited
  | gone

def Place.holds : Place → Bool
  | .reading => true
  | .writing _ => true
  | .unlocking => true
  | _ => false

-- The thread has written its number.
def Place.counted : Place → Bool
  | .unlocking => true
  | .exited => true
  | _ => false

structure State (threads : Nat) where
  file : List UInt8
  owner : Option (Fin threads)
  pc : Fin threads → Place

inductive Event (threads : Nat) where
  | wrote (t : Fin threads) (text : List UInt8)

section
variable {threads : Nat}

def start (threads : Nat) (file : List UInt8) : State threads := ⟨file,none,fun _ => .opening⟩

def State.go (s : State threads) (t : Fin threads) (place : Place) : State threads := {s with pc := Function.update s.pc t place}

-- thr_func. What the stream holds goes to the file when it is closed.
inductive Step : State threads → List (Event threads) → State threads → Prop where
  | opens : s.pc t = .opening → Step s [] (s.go t .locking)
  | fails : s.pc t = .opening → Step s [] {s with owner := none,pc := fun _ => .gone}
  | locks : s.pc t = .locking → s.owner = none → Step s [] {s.go t .reading with owner := some t}
  | reads (stack : List UInt8) : s.pc t = .reading → Step s [] (s.go t (.writing (fetch stack s.file)))
  | writes : s.pc t = .writing linebuf → Step s [.wrote t (reply linebuf)] {s.go t .unlocking with file := overwrite s.file (reply linebuf)}
  | unlocks : s.pc t = .unlocking → Step s [] {s.go t .exited with owner := none}

-- What the thread has in linebuf.
def Place.fetched : Place → Option (List UInt8)
  | .writing linebuf => some linebuf
  | _ => none

structure Counted (v : Int) (s : State threads) : Prop where
  owned : Owned Place.holds s.owner s.pc
  counting : Counting Place.counted Place.fetched v s.file s.pc

def Gone (s : State threads) : Prop := (∃ t, s.pc t = .gone) ∧ ∀ t, s.pc t = .gone

variable {v : Int} {s u : State threads} {t : Fin threads} {place : Place} {emitted : List (Event threads)} {file : List UInt8}

theorem gone_stays (gone : Gone s) : ¬ Step s emitted u := by
  intro taken
  cases taken with
  | opens place | fails place | locks place | reads _ place | writes place | unlocks place =>
    rw [gone.2] at place
    cases place

theorem fetched_holds {place : Place} (there : place.fetched = some linebuf) : place.holds = true := by
  cases place with
  | writing => rfl
  | opening | locking | reading | unlocking | exited | gone => cases there

-- A step that counts nothing, and reads nothing new.
theorem Counted.goes (counted : Counted v s) {owner : Option (Fin threads)} (there : s.pc t = place)
    (owned : Owned Place.holds owner (s.go t next).pc) (same : next.counted = place.counted) (unread : next.fetched = none) :
    Counted v {s.go t next with owner := owner} := by
  refine ⟨owned,counted.counting.goes there same ?_⟩
  intro linebuf read
  rw [unread] at read
  cases read

theorem step_counted (low : intMin ≤ v) (fits : v + threads ≤ intMax) (counted : Counted v s) (taken : Step s emitted u) :
    Gone u ∨ Counted v u := by
  have owned := counted.owned
  cases taken with
  | opens place => exact .inr (counted.goes place (owned_stay owned place rfl) rfl rfl)
  | @fails t place => exact .inl ⟨⟨t,rfl⟩,fun _ => rfl⟩
  | locks place free => exact .inr (counted.goes place (owned_take owned free rfl) rfl rfl)
  | reads stack place =>
    refine .inr ⟨owned_stay owned place rfl,counted.counting.goes place rfl ?_⟩
    intro linebuf same
    cases same
    have room : tally Place.counted s.pc < threads := tally_room place rfl
    rw [fetch_int counted.counting.line (by omega) (by omega)]
    omega
  | @writes t linebuf place =>
    refine .inr ⟨owned_stay owned place rfl,counted.counting.writes place rfl ?_ rfl rfl rfl⟩
    intro u text there
    exact owned_unique owned (fetched_holds there) (by rw [place]; rfl)
  | unlocks place => exact .inr (counted.goes place (owned_drop owned place rfl rfl) rfl rfl)

theorem start_counted (first : firstLine file = print v) : Counted v (start threads file) :=
  ⟨fun _ => ⟨nofun,nofun⟩,.start (fun _ => rfl) (fun _ => rfl) first⟩

theorem run_counted (low : intMin ≤ v) (fits : v + threads ≤ intMax) (first : firstLine file = print v)
    (run : Runs Step (start threads file) log s) : Gone s ∨ Counted v s := by
  refine run.stateInvariant (I := fun s => Gone s ∨ Counted v s) ?_ (.inr (start_counted first))
  intro s emitted u holds taken
  rcases holds with gone | counted
  · exact absurd taken (gone_stays gone)
  · exact step_counted low fits counted taken

theorem counted_all (v : IntValue) (fits : v.val + threads ≤ intMax) (first : firstLine file = print v.val)
    (run : Runs Step (start threads file) log s) (exited : ∀ t, s.pc t = .exited) : firstLine s.file = print (v.val + threads) := by
  rcases run_counted v.property.1 fits first run with gone | counted
  · obtain ⟨t,place⟩ := gone.1
    rw [exited t] at place
    cases place
  · exact counted.counting.all (fun t => by rw [exited t]; rfl)

end

-- One thread counts from -10 to -9; the newline of the longer text stays behind the new one.
theorem one_counted : ∃ log s, Runs Step (start 1 [45,49,48,10]) log s ∧ (∀ t, s.pc t = .exited) ∧ s.file = [45,57,10,10] ∧
    firstLine s.file = print (store (-10) + (1 : Nat)) := by
  have begins : Runs Step (start 1 [45,49,48,10]) [] _ := .nil
  have fetched := ((begins.step (.opens (t := 0) rfl)).step (.locks (t := 0) rfl rfl)).step (.reads (t := 0) [] rfl)
  have written := (fetched.step (.writes (t := 0) rfl)).step (.unlocks (t := 0) rfl)
  obtain ⟨log,s,run,exited,file⟩ : ∃ log s, Runs Step (start 1 [45,49,48,10]) log s ∧ (∀ t, s.pc t = .exited) ∧ s.file = [45,57,10,10] := by
    refine ⟨_,_,written,?_,by decide⟩
    intro t
    rw [Fin.fin_one_eq_zero t]
    rfl
  exact ⟨log,s,run,exited,file,counted_all (store (-10)) (by decide) (by decide) run exited⟩

end LinuxCoding.AddRace.Threads
