import LinuxCoding.Relay.NonBlocked

-- proIO/non-blocked/realy_file.c: the relay between two regular files.
namespace LinuxCoding.Relay.Regular
open Transition NonBlocked

-- A file opened once, and the offset that reads and writes share.
structure File where
  content : List UInt8
  offset : Nat

def File.rest (file : File) : List UInt8 := file.content.drop file.offset
def File.advance (file : File) (n : Nat) : File := {file with offset := file.offset + n}
def File.put (file : File) (bytes : List UInt8) : File :=
  ⟨file.content.take file.offset ++ (bytes ++ file.content.drop (file.offset + bytes.length)),file.offset + bytes.length⟩

-- What the call on one machine may answer, and the source and the destination before and
-- after it. A read gives nothing only at the end of the file.
inductive Serves (fsm : RelFsmSt) (answer : Answer) (source dest : File) : File → File → Prop where
  | ends : fsm.state = states.stateR → source.rest = [] → answer.read = .endOfFile → Serves fsm answer source dest source dest
  | reads (chunk : Chunk) (more : List UInt8) : fsm.state = states.stateR → source.rest = chunk.val ++ more → answer.read = .bytes chunk →
      Serves fsm answer source dest (source.advance chunk.val.length) dest
  | writes (ret : Nat) : fsm.state = states.stateW → 1 ≤ ret → answer.write = .wrote ret →
      Serves fsm answer source dest source (dest.put (fsm.buf.slice fsm.pos ret))
  | stands : fsm.state ≠ states.stateR → fsm.state ≠ states.stateW → Serves fsm answer source dest source dest

structure Relaying where
  machines : Machines
  file1 : File
  file2 : File

-- A pass of the loop: the call on fsm21 finds the files as that on fsm12 has left them.
inductive Step : Relaying → List Direction → Relaying → Prop where
  | pass (s : Relaying) (input : Input) (file1 file2 : File) : ¬Finished states s.machines → input.Fits s.machines →
      Serves s.machines.fsm12 input.answer12 s.file1 s.file2 file1 file2 →
      Serves s.machines.fsm21 input.answer21 file2 file1 file2' file1' →
      NonBlocked.pass s.machines input = .again after calls → Step s calls ⟨after,file1',file2'⟩

-- FILE2 is opened with O_TRUNC.
def opened (fd1 fd2 : Int) (stack : Machines) (content1 content2 : List UInt8) : Relaying :=
  ⟨start states fd1 fd2 stack,⟨content1,0⟩,⟨content2.take 0,0⟩⟩

-- What fsm12 has done so far, by the effects of its calls.
structure Copying (content : List UInt8) (fsm : RelFsmSt) (file1 file2 : File) (effects : List Effect) : Prop where
  source : file1.content = content
  carried : Carried states fsm effects
  clean : ¬EnteredEX effects
  read : bytesRead effects ++ file1.rest = content
  written : file2 = ⟨bytesWritten effects,(bytesWritten effects).length⟩
  ended : fsm.state = states.stateT → file1.rest = []

-- Bytes read and written, and one for a machine that has ended.
def progress (fsm : RelFsmSt) (effects : List Effect) : Nat :=
  (bytesRead effects).length + (bytesWritten effects).length + if fsm.state = states.stateT then 1 else 0

theorem slice_length {ret : Nat} (buf : Buffer) (low : 0 ≤ pos) (fits : pos + (ret : Int) ≤ bufSize) : (buf.slice pos ret).length = ret := by
  have size := buf.property
  rw [Buffer.slice,List.length_take,List.length_drop,size]
  omega

theorem put_end (content bytes : List UInt8) : File.put ⟨content,content.length⟩ bytes = ⟨content ++ bytes,(content ++ bytes).length⟩ := by
  simp [File.put]

theorem clean_append {effects : List Effect} (clean : ¬EnteredEX effects) (moved : ∀ call, effect ≠ .failed call) : ¬EnteredEX (effects ++ [effect]) := by
  intro entered
  rcases entered_append.mp entered with before | ⟨call,failed⟩
  · exact clean before
  · exact moved call failed

theorem rest_advance {file : File} (next : file.rest = bytes ++ more) : (file.advance bytes.length).rest = more := by
  change file.content.drop (file.offset + bytes.length) = more
  rw [← List.drop_drop]
  change file.rest.drop bytes.length = more
  rw [next,List.drop_left]

-- A call that moves no byte.
theorem Copying.still (copying : Copying content fsm file1 file2 effects) (carried : Carried states next (effects ++ [effect]))
    (moved : ∀ call, effect ≠ .failed call) (nothing : effect.readBytes = [] ∧ effect.wroteBytes = [])
    (ended : next.state = states.stateT → file1.rest = []) : Copying content next file1 file2 (effects ++ [effect]) := by
  refine ⟨copying.source,carried,clean_append copying.clean moved,?_,?_,ended⟩
  · rw [read_append,nothing.1,List.append_nil]
    exact copying.read
  · rw [written_append,nothing.2,List.append_nil]
    exact copying.written

theorem copying_call (copying : Copying content fsm file1 file2 effects) (fits : answer.Fits fsm) (serves : Serves fsm answer file1 file2 file1' file2')
    (ran : fsmDriver states fsm answer = some (next,effect)) :
    Copying content next file1' file2' (effects ++ [effect]) ∧ (fsm.state = states.stateR → file2' = file2) ∧
      (fsm.state ≠ states.stateT → progress fsm effects < progress next (effects ++ [effect])) := by
  obtain ⟨rw',_,rt,_,wt,_⟩ := states.apart
  have carried := driver_carried copying.carried fits ran
  cases serves with
  | ends reading nothing answered =>
    rw [fsmDriver,if_pos reading,answered] at ran
    cases ran
    refine ⟨copying.still carried (by intro _ failed; cases failed) ⟨rfl,rfl⟩ fun _ => nothing,fun _ => rfl,?_⟩
    intro live
    simp [progress,live,Effect.readBytes,Effect.wroteBytes]
  | reads chunk more reading next answered =>
    rw [fsmDriver,if_pos reading,answered] at ran
    cases ran
    have short := chunk.property.1
    have clean : ¬EnteredEX (effects ++ [.read chunk.val]) := clean_append copying.clean (by intro _ failed; cases failed)
    refine ⟨⟨copying.source,carried,clean,?_,?_,fun stopped => absurd stopped wt⟩,fun _ => rfl,?_⟩
    · have read := copying.read
      rw [next] at read
      simpa [Effect.readBytes,rest_advance next] using read
    · simpa [Effect.wroteBytes] using copying.written
    · intro live
      simp [progress,live,Effect.readBytes,Effect.wroteBytes]
      omega
  | writes ret writing some answered =>
    have reading : ¬ fsm.state = states.stateR := fun reading => rw' (reading.symm.trans writing)
    obtain ⟨_,low,high⟩ := copying.carried.window writing
    have enough := fits ret answered
    have length : (fsm.buf.slice fsm.pos ret).length = ret := slice_length fsm.buf low (by omega)
    rw [fsmDriver,if_neg reading,if_pos writing,answered] at ran
    cases ran
    have lives : (if fsm.len - ret = 0 then states.stateR else states.stateW) ≠ states.stateT := by
      split
      · exact rt
      · exact wt
    have clean : ¬EnteredEX (effects ++ [.wrote (fsm.buf.slice fsm.pos ret)]) := clean_append copying.clean (by intro _ failed; cases failed)
    refine ⟨⟨copying.source,carried,clean,?_,?_,fun stopped => absurd stopped lives⟩,fun again => absurd again reading,?_⟩
    · simpa [Effect.readBytes] using copying.read
    · rw [copying.written,put_end,written_append]
      rfl
    · intro live
      simp [progress,live,lives,Effect.readBytes,Effect.wroteBytes,length]
      omega
  | stands idle idle' =>
    have stopped : fsm.state = states.stateT := by
      rcases copying.carried.known with reading | writing | failing | stopped
      · exact absurd reading idle
      · exact absurd writing idle'
      · exact absurd (copying.carried.failed failing) copying.clean
      · exact stopped
    cases driver_sound ran with
    | readEnd reading | readAgain reading | readError reading | readBytes _ reading => exact absurd reading idle
    | writeAgain writing | writeError writing | wrote _ writing => exact absurd writing idle'
    | report failing => exact absurd (copying.carried.failed failing) copying.clean
    | rest =>
      exact ⟨copying.still carried (by intro _ failed; cases failed) ⟨rfl,rfl⟩ copying.ended,fun _ => rfl,fun live => absurd stopped live⟩

-- fsm21 reads once, from FILE2 before anything is written there, and has ended.
structure Reached (content : List UInt8) (s : Relaying) (effects : List Effect) : Prop where
  copying : Copying content s.machines.fsm12 s.file1 s.file2 effects
  second : s.machines.fsm21.state = states.stateT ∨
    s.machines.fsm21.state = states.stateR ∧ s.machines.fsm12.state = states.stateR ∧ bytesWritten effects = []

theorem second_call (fsm21 : fsm.state = states.stateT ∨ fsm.state = states.stateR ∧ source.rest = [])
    (serves : Serves fsm answer source dest source' dest') (ran : fsmDriver states fsm answer = some (next,effect)) :
    source' = source ∧ dest' = dest ∧ next.state = states.stateT := by
  obtain ⟨_,_,rt,_,wt,_⟩ := states.apart
  rcases fsm21 with stopped | ⟨reading,nothing⟩
  · cases serves with
    | ends reading | reads _ _ reading => exact absurd (reading.symm.trans stopped) rt
    | writes _ writing => exact absurd (writing.symm.trans stopped) wt
    | stands => exact ⟨rfl,rfl,driver_ended ran stopped⟩
  · cases serves with
    | ends _ _ answered =>
      rw [fsmDriver,if_pos reading,answered] at ran
      cases ran
      exact ⟨rfl,rfl,rfl⟩
    | reads chunk more _ split =>
      have some := chunk.property.1
      rw [nothing] at split
      rw [(List.append_eq_nil_iff.mp split.symm).1] at some
      cases some
    | writes _ writing => exact absurd (reading.symm.trans writing) states.apart.1
    | stands idle => exact absurd reading idle

theorem reached_live (reached : Reached content s effects) (running : ¬Finished states s.machines) : s.machines.fsm12.state ≠ states.stateT := by
  intro stopped
  rcases reached.second with stopped' | ⟨_,reading,_⟩
  · exact running ⟨stopped,stopped'⟩
  · exact states.apart.2.2.1 (reading.symm.trans stopped)

theorem step_reached (reached : Reached content s effects) (step : Step s calls t) :
    ∃ effect, Reached content t (effects ++ [effect]) ∧ calls.length = 2 ∧
      progress s.machines.fsm12 effects < progress t.machines.fsm12 (effects ++ [effect]) := by
  cases step with
  | pass _ input file1 file2 running fits serves12 serves21 ran =>
    obtain ⟨both,effect,effect',ran12,ran21⟩ := pass_drives ran
    obtain ⟨copied,reading,more⟩ := copying_call reached.copying fits.answer12 serves12 ran12
    have empty : s.machines.fsm21.state = states.stateT ∨ s.machines.fsm21.state = states.stateR ∧ file2.rest = [] := by
      rcases reached.second with stopped | ⟨reads21,reads12,nothing⟩
      · exact .inl stopped
      · refine .inr ⟨reads21,?_⟩
        rw [reading reads12,reached.copying.written,nothing]
        rfl
    obtain ⟨rfl,rfl,stopped⟩ := second_call empty serves21 ran21
    exact ⟨effect,⟨copied,.inl stopped⟩,by rw [both]; rfl,more (reached_live reached running)⟩

theorem opened_reached (fd1 fd2 : Int) (stack : Machines) (content1 content2 : List UInt8) :
    Reached content1 (opened fd1 fd2 stack content1 content2) [] := by
  obtain ⟨rw',rex,rt,_,_,_⟩ := states.apart
  have clean : ¬EnteredEX [] := by
    intro ⟨call,member⟩
    cases member
  refine ⟨⟨rfl,⟨.inl rfl,fun writing => absurd writing rw',fun failing => absurd failing rex,fun _ => ?_⟩,clean,rfl,rfl,fun stopped => absurd stopped rt⟩,
    .inr ⟨rfl,rfl,rfl⟩⟩
  exact pending_idle (show (opened fd1 fd2 stack content1 content2).machines.fsm12.state ≠ states.stateW from rw')

-- The bytes of FILE1 are read once and written once.
theorem progress_bound (copying : Copying content fsm file1 file2 effects) : progress fsm effects ≤ 2 * content.length + 1 := by
  have moved := copying.carried.data copying.clean
  have most : (bytesWritten effects).length ≤ (bytesRead effects).length := by
    rw [← moved,List.length_append]
    omega
  have all : (bytesRead effects).length ≤ content.length := by
    rw [← copying.read,List.length_append]
    omega
  unfold progress
  split <;> omega

theorem run_reached (run : Runs Step (opened fd1 fd2 stack content1 content2) log s) :
    ∃ effects, Reached content1 s effects ∧ log.length ≤ 2 * progress s.machines.fsm12 effects := by
  refine run.invariant (I := fun log s => ∃ effects, Reached content1 s effects ∧ log.length ≤ 2 * progress s.machines.fsm12 effects) ?_
    ⟨[],opened_reached fd1 fd2 stack content1 content2,Nat.zero_le _⟩
  intro log s calls t ⟨effects,reached,bound⟩ step
  obtain ⟨effect,after,two,more⟩ := step_reached reached step
  refine ⟨effects ++ [effect],after,?_⟩
  rw [List.length_append,two]
  omega

-- A call that a regular file can answer.
theorem call_served (known : Known states fsm) (window : fsm.state = states.stateW → 1 ≤ fsm.len) (source dest : File) :
    ∃ answer source' dest', answer.Fits fsm ∧ Serves fsm answer source dest source' dest' := by
  have idle : ∀ read : ReadAnswer, Answer.Fits ⟨read,.again⟩ fsm := by
    intro read ret wrote
    cases wrote
  rcases known with reading | writing | past
  · cases left : source.rest with
    | nil => exact ⟨⟨.endOfFile,.again⟩,_,_,idle _,.ends reading left rfl⟩
    | cons byte more =>
      have one : 1 ≤ [byte].length ∧ [byte].length ≤ bufSize := by
        rw [List.length_singleton]
        decide
      exact ⟨⟨.bytes ⟨[byte],one⟩,.again⟩,_,_,idle _,.reads ⟨[byte],one⟩ more reading left rfl⟩
  · refine ⟨⟨.again,.wrote 1⟩,_,_,?_,.writes 1 writing (Nat.le_refl 1) rfl⟩
    intro ret wrote
    cases wrote
    exact window writing
  · obtain ⟨_,rex,rt,wex,wt,_⟩ := states.apart
    refine ⟨⟨.again,.again⟩,_,_,idle _,.stands ?_ ?_⟩
    · rcases past with failing | stopped
      · exact fun reading => rex (reading.symm.trans failing)
      · exact fun reading => rt (reading.symm.trans stopped)
    · rcases past with failing | stopped
      · exact fun writing => wex (writing.symm.trans failing)
      · exact fun writing => wt (writing.symm.trans stopped)

theorem stuck_finished (reached : Reached content s effects) (stuck : Stuck Step s) : Finished states s.machines := by
  by_contra running
  have known21 : Known states s.machines.fsm21 ∧ s.machines.fsm21.state ≠ states.stateW := by
    rcases reached.second with stopped | ⟨reading,_⟩
    · exact ⟨.inr (.inr (.inr stopped)),fun writing => states.apart.2.2.2.2.1 (writing.symm.trans stopped)⟩
    · exact ⟨.inl reading,fun writing => states.apart.1 (reading.symm.trans writing)⟩
  have carried := reached.copying.carried
  obtain ⟨answer12,file1,file2,fits12,serves12⟩ := call_served carried.known (fun writing => (carried.window writing).1) s.file1 s.file2
  obtain ⟨answer21,_,_,fits21,serves21⟩ := call_served known21.1 (fun writing => absurd writing known21.2) file2 file1
  have known : ∀ d, Known states (s.machines.fsm d) := by
    intro d
    cases d with
    | fsm12 => exact carried.known
    | fsm21 => exact known21.1
  obtain ⟨after,calls,ran⟩ := driveBoth_total known true true answer12 answer21
  exact stuck _ _ (.pass s ⟨answer12,answer21⟩ file1 file2 running ⟨fits12,fits21⟩ serves12 serves21 ran)

theorem regular_copy (run : Runs Step (opened fd1 fd2 stack content1 content2) log s) :
    log.length ≤ 4 * content1.length + 2 ∧ s.file1.content = content1 ∧
      (Stuck Step s → Finished states s.machines ∧ s.file2.content = content1) := by
  obtain ⟨effects,reached,bound⟩ := run_reached run
  have most := progress_bound reached.copying
  refine ⟨by omega,reached.copying.source,?_⟩
  intro stuck
  have finished := stuck_finished reached stuck
  have all := reached.copying.read
  have moved := reached.copying.carried.data reached.copying.clean
  rw [reached.copying.ended finished.1,List.append_nil] at all
  rw [pending_idle (fun writing => states.apart.2.2.2.2.1 (writing.symm.trans finished.1)),List.append_nil,all] at moved
  exact ⟨finished,by rw [reached.copying.written]; exact moved⟩

theorem finished_stuck (finished : Finished states s.machines) : Stuck Step s := by
  intro calls t step
  cases step with
  | pass _ _ _ _ running => exact running finished

-- A file of one byte is copied over a longer one in three passes.
theorem one_length : 1 ≤ [(7 : UInt8)].length ∧ [(7 : UInt8)].length ≤ bufSize := by decide

def sevenRead : Input := ⟨⟨.bytes ⟨[7],one_length⟩,.again⟩,⟨.endOfFile,.again⟩⟩
def sevenWritten : Input := ⟨⟨.again,.wrote 1⟩,⟨.again,.again⟩⟩
def sevenEnded : Input := ⟨⟨.endOfFile,.again⟩,⟨.again,.again⟩⟩

theorem seven_run : ∃ log s, Runs Step (opened 3 4 blank [7] [1,2,3]) log s ∧ Finished states s.machines := by
  have idle : ∀ (fsm : RelFsmSt) (read : ReadAnswer), Answer.Fits ⟨read,.again⟩ fsm := by
    intro fsm read ret wrote
    cases wrote
  have first := Step.pass (opened 3 4 blank [7] [1,2,3]) sevenRead _ _ (by decide) ⟨idle _ _,idle _ _⟩
    (.reads ⟨[7],one_length⟩ [] rfl rfl rfl) (.ends rfl rfl rfl) rfl
  have second := (Runs.one first).step (.pass _ sevenWritten _ _ (by decide) ⟨fun ret wrote => by cases wrote; decide,idle _ _⟩
    (.writes 1 rfl (Nat.le_refl 1) rfl) (.stands (by decide) (by decide)) rfl)
  have third := second.step (.pass _ sevenEnded _ _ (by decide) ⟨idle _ _,idle _ _⟩ (.ends rfl rfl rfl) (.stands (by decide) (by decide)) rfl)
  exact ⟨_,_,third,by decide⟩

theorem seven_copied : ∃ log s, log.length ≤ 6 ∧ Finished states s.machines ∧ s.file1.content = [7] ∧ s.file2.content = [7] ∧
    Runs Step (opened 3 4 blank [7] [1,2,3]) log s := by
  obtain ⟨log,s,run,finished⟩ := seven_run
  obtain ⟨bound,source,ends⟩ := regular_copy run
  exact ⟨log,s,bound,finished,source,(ends (finished_stuck finished)).2,run⟩

end LinuxCoding.Relay.Regular
