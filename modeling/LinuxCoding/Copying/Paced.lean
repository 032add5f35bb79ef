import Mathlib.Algebra.Ring.Int.Defs
import LinuxCoding.Library.Pump

-- slowcat2.c: a block of the file for each token, of which an alarm brings one a second. The
-- handler may run between any two accesses to token.
namespace LinuxCoding.Copying.Paced
open Transition

def bufSize : Nat := 10
def burst : Int := 100

-- The test of token, before and in pause, token-- before and after token is loaded, read,
-- write, perror.
inductive Place where
  | testing
  | pausing
  | paused
  | loading
  | storing (loaded : Int)
  | reading
  | writing (pos len : Nat)
  | failing (call : String)
  | ended

-- `file` is what has not been read yet.
structure State where
  token : Int
  place : Place
  buf : List UInt8
  file : List UInt8

inductive Event where
  | ticked (kept : Bool)
  | spent (lost : Int)
  | moved (event : Pump.Event UInt8 String)

def alrmHandler (token : Int) : Int := if token + 1 > burst then burst else token + 1

-- pause returns behind the handler.
def Place.woken : Place → Place
  | .paused => .testing
  | place => place

def start (buf content : List UInt8) : State := ⟨0,.testing,buf,content⟩

-- The handler sets the next alarm first, so there always is one. A store of token-- forgets
-- what the handler has added since the load.
inductive Step : State → List Event → State → Prop where
  | ticks : s.place ≠ .ended →
      Step s [.ticked (decide (s.token + 1 ≤ burst))] {s with token := alrmHandler s.token,place := s.place.woken}
  | finds : s.place = .testing → 0 < s.token → Step s [] {s with place := .loading}
  | misses : s.place = .testing → s.token ≤ 0 → Step s [] {s with place := .pausing}
  | pauses : s.place = .pausing → Step s [] {s with place := .paused}
  | loads : s.place = .loading → Step s [] {s with place := .storing s.token}
  | stores : s.place = .storing loaded → Step s [.spent (s.token - loaded)] {s with token := loaded - 1,place := .reading}
  | reads (bytes rest : List UInt8) : s.place = .reading → s.file = bytes ++ rest → bytes ≠ [] → bytes.length ≤ bufSize →
      Step s [.moved (.took bytes)] {s with place := .writing 0 bytes.length,buf := bytes ++ s.buf.drop bytes.length,file := rest}
  | eof : s.place = .reading → s.file = [] → Step s [.moved .idle] {s with place := .ended}
  | readFails : s.place = .reading → Step s [.moved (.failed "read()")] {s with place := .failing "read()"}
  | writes (ret : Nat) : s.place = .writing pos len → ret < len →
      Step s [.moved (.gave ((s.buf.drop pos).take ret))] {s with place := .writing (pos + ret) (len - ret)}
  | written : s.place = .writing pos len → Step s [.moved (.gave ((s.buf.drop pos).take len))] {s with place := .testing}
  | writeFails : s.place = .writing pos len → Step s [.moved (.failed "write()")] {s with place := .failing "write()"}
  | complains : s.place = .failing call → Step s [.moved (.complained call)] {s with place := .ended}

def Event.move : Event → Option (Pump.Event UInt8 String)
  | .moved event => some event
  | _ => none

def moves (log : List Event) : List (Pump.Event UInt8 String) := log.filterMap Event.move

def Event.kept : Event → Int
  | .ticked true => 1
  | _ => 0

def Event.tick : Event → Int
  | .ticked _ => 1
  | _ => 0

def Event.spending : Event → Int
  | .spent _ => 1
  | _ => 0

def Event.loss : Event → Int
  | .spent lost => lost
  | _ => 0

def sum (count : Event → Int) (log : List Event) : Int := (log.map count).sum

section
variable {s t u : State} {log emitted : List Event} {buf content : List UInt8}

theorem moves_append (log emitted : List Event) : moves (log ++ emitted) = moves log ++ moves emitted := List.filterMap_append

theorem sum_append (count : Event → Int) (log emitted : List Event) : sum count (log ++ emitted) = sum count log + sum count emitted := by
  rw [sum,List.map_append,List.sum_append]
  rfl

theorem sum_one (count : Event → Int) (event : Event) : sum count [event] = count event := Int.add_zero _

-- What main holds, as a pump.
def State.phase (s : State) : Pump.Phase UInt8 String :=
  match s.place with
  | .writing pos len => .holding ((s.buf.drop pos).take len)
  | .failing call => .failing call
  | .ended => .finished
  | _ => .ready

-- A write is about bytes of the buffer that are still to be written.
def Held (s : State) : Prop := ∀ pos len, s.place = .writing pos len → 0 < len ∧ pos + len ≤ s.buf.length

theorem step_held (held : Held s) (step : Step s emitted u) : Held u := by
  cases step with
  | ticks =>
    intro pos len there
    refine held pos len ?_
    change s.place.woken = .writing pos len at there
    cases here : s.place <;> rw [here] at there <;> first | exact there | cases there
  | finds | misses | pauses | loads | stores | eof | readFails | written | writeFails | complains =>
    intro pos len there
    cases there
  | reads bytes rest here file some few =>
    intro pos len there
    cases there
    refine ⟨List.length_pos_iff.mpr some,?_⟩
    change 0 + bytes.length ≤ (bytes ++ s.buf.drop bytes.length).length
    rw [List.length_append]
    omega
  | writes ret here less =>
    intro pos len there
    cases there
    obtain ⟨positive,inside⟩ := held _ _ here
    refine ⟨by omega,?_⟩
    change _ ≤ s.buf.length
    omega

theorem phase_of (here : s.place = place) : s.phase = (State.mk s.token place s.buf s.file).phase := by
  rw [← here]

theorem step_pumps (held : Held s) (step : Step s emitted u) : Runs (Pump.Pumps bufSize) s.phase (moves emitted) u.phase := by
  cases step with
  | ticks stays =>
    have same : (State.mk (alrmHandler s.token) s.place.woken s.buf s.file).phase = s.phase := by
      unfold State.phase
      cases s.place <;> rfl
    rw [same]
    exact .nil
  | finds here | misses here | pauses here | loads here | stores here =>
    rw [phase_of here]
    exact .nil
  | reads bytes rest here file some few =>
    have front : ((bytes ++ s.buf.drop bytes.length).drop 0).take bytes.length = bytes := by simp
    rw [phase_of here]
    change Runs (Pump.Pumps bufSize) .ready [.took bytes] (.holding (((bytes ++ s.buf.drop bytes.length).drop 0).take bytes.length))
    rw [front]
    exact .one (.takes bytes some few)
  | eof here =>
    rw [phase_of here]
    exact .one .ends
  | readFails here =>
    rw [phase_of here]
    exact .one (.failsTaking _)
  | writes ret here less =>
    rename_i len pos
    obtain ⟨_,inside⟩ := held _ _ here
    obtain ⟨more,rfl⟩ : ∃ more, len = ret + more := ⟨len - ret,by omega⟩
    have cut : (s.buf.drop pos).take (ret + more) = (s.buf.drop pos).take ret ++ (s.buf.drop (pos + ret)).take more := by
      rw [List.take_add,List.drop_drop]
    have rest : (s.buf.drop (pos + ret)).take more ≠ [] := by
      refine List.ne_nil_of_length_pos ?_
      rw [List.length_take,List.length_drop]
      omega
    rw [phase_of here]
    change Runs (Pump.Pumps bufSize) (.holding ((s.buf.drop pos).take (ret + more))) [.gave ((s.buf.drop pos).take ret)]
      (.holding ((s.buf.drop (pos + ret)).take (ret + more - ret)))
    rw [cut,Nat.add_sub_cancel_left]
    exact .one (.gives _ _ rest)
  | written here =>
    rw [phase_of here]
    exact .one (.empties _)
  | writeFails here =>
    rw [phase_of here]
    exact .one (.failsGiving _ _)
  | complains here =>
    rw [phase_of here]
    exact .one (.complains _)

theorem run_pumps (run : Runs Step (start buf content) log s) : Runs (Pump.Pumps bufSize) .ready (moves log) s.phase ∧ Held s := by
  refine run.invariant (I := fun log s => Runs (Pump.Pumps bufSize) .ready (moves log) s.phase ∧ Held s) ?_ ⟨.nil,fun pos len there => by cases there⟩
  intro log s emitted u ⟨pumped,held⟩ step
  rw [moves_append]
  exact ⟨pumped.append (step_pumps held step),step_held held step⟩

-- What has been read of the file.
theorem run_file (run : Runs Step (start buf content) log s) : Pump.taken (moves log) ++ s.file = content := by
  refine run.invariant (I := fun log s => Pump.taken (moves log) ++ s.file = content) ?_ rfl
  intro log s emitted u before step
  rw [moves_append,Pump.taken_append,List.append_assoc]
  cases step with
  | reads bytes rest here file =>
    rw [file] at before
    have taken : Pump.taken (moves [.moved (.took bytes)]) = bytes := List.flatMap_singleton ..
    rw [taken]
    exact before
  | ticks | finds | misses | pauses | loads | stores | eof | readFails | writes | written | writeFails | complains => exact before

-- Main never has more of token in hand than there is.
structure Fair (s : State) : Prop where
  low : 0 ≤ s.token
  high : s.token ≤ burst
  found : s.place = .loading → 0 < s.token
  loaded : ∀ loaded, s.place = .storing loaded → 0 < loaded ∧ loaded ≤ s.token

theorem handler_token (high : token ≤ burst) : token ≤ alrmHandler token ∧ alrmHandler token ≤ burst ∧
    alrmHandler token = token + Event.kept (.ticked (decide (token + 1 ≤ burst))) := by
  unfold alrmHandler
  by_cases room : token + 1 ≤ burst
  · rw [if_neg (by omega),decide_eq_true room]
    exact ⟨by omega,room,rfl⟩
  · rw [if_pos (by omega),decide_eq_false room]
    refine ⟨high,Int.le_refl _,?_⟩
    change burst = token + 0
    omega

theorem step_fair (fair : Fair s) (step : Step s emitted u) : Fair u := by
  obtain ⟨low,high,found,loaded⟩ := fair
  cases step with
  | ticks stays =>
    obtain ⟨more,most,_⟩ := handler_token high
    have before : ∀ place, s.place.woken = place → place ≠ .testing → s.place = place := by
      intro place there other
      cases here : s.place <;> rw [here] at there <;> first | exact there | exact absurd there.symm other
    refine ⟨Int.le_trans low more,most,?_,?_⟩
    · intro there
      exact Int.lt_of_lt_of_le (found (before _ there nofun)) more
    · intro value there
      obtain ⟨positive,few⟩ := loaded value (before _ there nofun)
      exact ⟨positive,Int.le_trans few more⟩
  | finds here some => exact ⟨low,high,fun _ => some,nofun⟩
  | loads here =>
    refine ⟨low,high,nofun,?_⟩
    intro value there
    cases there
    exact ⟨found here,Int.le_refl _⟩
  | stores here =>
    obtain ⟨positive,few⟩ := loaded _ here
    refine ⟨?_,?_,nofun,nofun⟩
    · change 0 ≤ _ - 1
      omega
    · change _ - 1 ≤ burst
      omega
  | misses | pauses | reads | eof | readFails | writes | written | writeFails | complains => exact ⟨low,high,nofun,nofun⟩

theorem start_fair (buf content : List UInt8) : Fair (start buf content) := ⟨Int.le_refl 0,by change (0 : Int) ≤ 100; decide,nofun,nofun⟩

theorem run_fair (fair : Fair s) (run : Runs Step s log t) : Fair t :=
  run.stateInvariant (fun _ _ _ fair step => step_fair fair step) fair

def Balanced (s : State) (log : List Event) (t : State) : Prop := t.token + sum Event.spending log + sum Event.loss log = s.token + sum Event.kept log

-- What the kept ticks have brought is in token, or has been spent, or was lost to a store.
theorem run_balanced (fair : Fair s) (run : Runs Step s log t) : Balanced s log t ∧ 0 ≤ sum Event.loss log := by
  have all : Fair t ∧ Balanced s log t ∧ 0 ≤ sum Event.loss log := by
    refine run.invariant (I := fun log t => Fair t ∧ Balanced s log t ∧ 0 ≤ sum Event.loss log) ?_ ⟨fair,?_,Int.le_refl _⟩
    · intro log t emitted u ⟨fair,balanced,lossless⟩ step
      refine ⟨step_fair fair step,?_⟩
      unfold Balanced at balanced ⊢
      simp only [sum_append]
      cases step with
      | ticks stays =>
        obtain ⟨_,_,exact⟩ := handler_token fair.high
        simp only [sum_one,exact]
        simp only [Event.spending,Event.loss]
        omega
      | stores here =>
        have few := (fair.loaded _ here).2
        simp only [sum_one,Event.spending,Event.loss,Event.kept]
        omega
      | finds | misses | pauses | loads => exact ⟨by simpa [sum] using balanced,by simpa [sum] using lossless⟩
      | reads | eof | readFails | writes | written | writeFails | complains =>
        exact ⟨by simpa [sum,Event.spending,Event.loss,Event.kept] using balanced,by simpa [sum,Event.loss] using lossless⟩
    · unfold Balanced
      simp [sum]
  exact all.2

-- A token pays for one block.
def Place.paid : Place → Int
  | .reading => bufSize
  | _ => 0

theorem paid_positive (place : Place) : 0 ≤ place.paid := by
  cases place <;> first | exact Int.le_refl 0 | exact Int.natCast_nonneg _

theorem step_paid (step : Step s emitted u) :
    (Pump.taken (moves emitted)).length + u.place.paid ≤ bufSize * sum Event.spending emitted + s.place.paid := by
  have positive := paid_positive s.place
  cases step with
  | ticks stays =>
    have same : s.place.woken.paid = s.place.paid := by cases s.place <;> rfl
    change 0 + s.place.woken.paid ≤ bufSize * (0 + 0) + s.place.paid
    omega
  | finds | misses | pauses | loads =>
    change (0 : Int) + 0 ≤ bufSize * 0 + s.place.paid
    omega
  | stores =>
    change (0 : Int) + bufSize ≤ bufSize * (1 + 0) + s.place.paid
    omega
  | reads bytes rest here file some few =>
    have taken : Pump.taken (moves [.moved (.took bytes)]) = bytes := List.flatMap_singleton ..
    have paid : s.place.paid = bufSize := by rw [here]; rfl
    rw [taken,paid]
    change (bytes.length : Int) + 0 ≤ bufSize * (0 + 0) + bufSize
    omega
  | eof | readFails | writes | written | writeFails | complains =>
    change (0 : Int) + 0 ≤ bufSize * (0 + 0) + s.place.paid
    omega

theorem run_paid (run : Runs Step (start buf content) log s) : (Pump.taken (moves log)).length ≤ bufSize * sum Event.spending log := by
  have paid : (Pump.taken (moves log)).length + s.place.paid ≤ bufSize * sum Event.spending log := by
    refine run.invariant (I := fun log s => (Pump.taken (moves log)).length + s.place.paid ≤ bufSize * sum Event.spending log) ?_ (Int.le_refl 0)
    intro log s emitted u before step
    have more := step_paid step
    rw [moves_append,Pump.taken_append,List.length_append,sum_append,Int.mul_add,Int.natCast_add]
    omega
  have positive := paid_positive s.place
  omega

theorem kept_ticks (log : List Event) : sum Event.kept log ≤ sum Event.tick log := by
  induction log with
  | nil => exact Int.le_refl 0
  | cons event rest ih =>
    have one : event.kept ≤ event.tick := by
      cases event with
      | ticked kept => cases kept <;> decide
      | spent | moved => exact Int.le_refl 0
    exact Int.add_le_add one ih

structure Copied (content : List UInt8) (log : List Event) (s : State) : Prop where
  stream : ∃ rest, Pump.given (moves log) ++ rest ++ s.file = content ∧ rest.length ≤ bufSize
  whole : s.place = .ended → Pump.complaints (moves log) = [] → Pump.given (moves log) = content
  failed : s.place = .ended → Pump.complaints (moves log) = Pump.failures (moves log) ∧ (Pump.failures (moves log)).length ≤ 1
  tokens : 0 ≤ s.token ∧ s.token ≤ burst
  balanced : s.token + sum Event.spending log + sum Event.loss log = sum Event.kept log
  rate : (Pump.given (moves log)).length ≤ bufSize * sum Event.tick log
  window : ∀ later t, Runs Step s later t → sum Event.spending later ≤ burst + sum Event.tick later

-- Without a complaint main has ended at the end of the file.
theorem run_ended (run : Runs Step (start buf content) log s) : s.place = .ended → Pump.complaints (moves log) = [] → s.file = [] := by
  refine run.invariant (I := fun log s => s.place = .ended → Pump.complaints (moves log) = [] → s.file = []) ?_ (fun ended => by cases ended)
  intro log s emitted u _ step ended quiet
  cases step with
  | ticks stays =>
    change s.place.woken = .ended at ended
    cases here : s.place <;> rw [here] at ended <;> first | exact absurd here stays | cases ended
  | eof here file => exact file
  | complains here =>
    rw [moves_append,Pump.complaints_append] at quiet
    cases (List.append_eq_nil_iff.mp quiet).2
  | finds | misses | pauses | loads | stores | reads | readFails | writes | written | writeFails => cases ended

-- The copy is exact and never faster than its tokens, though a token may be lost.
theorem slowcat_paced (buf content : List UInt8) : (∀ log s, Runs Step (start buf content) log s → Copied content log s) ∧
    ∃ log s, Runs Step (start buf content) log s ∧ sum Event.loss log = 1 := by
  constructor
  · intro log s run
    obtain ⟨pumped,_⟩ := run_pumps run
    have file := run_file run
    have ledger := Pump.run_ledger pumped
    have fair := run_fair (start_fair buf content) run
    obtain ⟨balanced,lossless⟩ := run_balanced (start_fair buf content) run
    obtain ⟨rest,stream,few⟩ := Pump.ledger_stream ledger
    have paid := run_paid run
    have ticks := kept_ticks log
    have low := fair.low
    have exact : s.token + sum Event.spending log + sum Event.loss log = sum Event.kept log := balanced.trans (Int.zero_add _)
    refine ⟨⟨rest,by rw [stream]; exact file,few⟩,?_,?_,⟨low,fair.high⟩,exact,?_,?_⟩
    · intro ended quiet
      rw [phase_of ended] at ledger
      rcases ledger with smooth | ⟨what,_,complaint⟩
      · have all := smooth.stream
        rw [List.append_nil] at all
        rw [all]
        rwa [run_ended run ended quiet,List.append_nil] at file
      · rw [quiet] at complaint
        cases complaint
    · intro ended
      rw [phase_of ended] at ledger
      rcases ledger with smooth | ⟨what,broken,complaint⟩
      · rw [smooth.complaints,smooth.failures]
        exact ⟨rfl,Nat.zero_le _⟩
      · rw [complaint,broken.failures]
        exact ⟨rfl,Nat.le_refl _⟩
    · have length := congrArg List.length stream
      rw [List.length_append] at length
      have spent : bufSize * sum Event.spending log ≤ bufSize * sum Event.tick log := Int.mul_le_mul_of_nonneg_left (by omega) (Int.natCast_nonneg _)
      omega
    · intro later t more
      obtain ⟨onward,none⟩ := run_balanced fair more
      have least := (run_fair fair more).low
      have high := fair.high
      have ticks := kept_ticks later
      unfold Balanced at onward
      omega
  · have ticked : Runs Step (start buf content) _ _ := .one (.ticks nofun)
    have found := ticked.step (.finds rfl Int.zero_lt_one)
    have loaded := found.step (.loads rfl)
    have again := loaded.step (.ticks nofun)
    exact ⟨_,_,again.step (.stores rfl),rfl⟩

end

end LinuxCoding.Copying.Paced
