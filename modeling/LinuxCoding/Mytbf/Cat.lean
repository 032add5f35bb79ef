import LinuxCoding.Mytbf.Law

-- mytbf/main.c: cat at the rate of a token bucket. The handler of SIGALRM may run between
-- any two accesses to the tokens.
namespace LinuxCoding.Mytbf.Cat
open CInt Transition

theorem burst_small : 100 ≤ 2147483647 := by decide
theorem cps_small : 10 ≤ 2147483647 := by decide

def cps : IntValue := int 10 cps_small
def burst : IntValue := int 100 burst_small
def bufSize : Nat := 1024

-- What comes next. From `testing` to `storing` it is in mytbf_fetchToken, with the value of
-- n and what it has loaded of token; from `giving` to `lowering` in mytbf_returnToken.
inductive Place where
  | testing
  | choosing
  | taking (n : Int)
  | storing (n token : Int)
  | reading (size : Int)
  | giving (back : Int) (len : Nat)
  | pouring (back token : Int) (len : Nat)
  | capping (len : Nat)
  | lowering (len : Nat)
  | writing (len pos : Nat)
  | ended
  | failed
  deriving DecidableEq

-- `file` is what has not been read yet.
structure State where
  tbf : MytbfSt
  place : Place
  buf : List UInt8
  file : List UInt8
  output : List UInt8

inductive Event where
  | ticked
  | read (len : Nat)
  deriving DecidableEq

def State.token (s : State) (n : Int) (place : Place) : State := {s with tbf := {s.tbf with token := store n},place := place}

-- read(sfd, buf, size) has returned bytes.
def State.received (s : State) (size : Int) (bytes rest : List UInt8) : State :=
  {s with
    buf := bytes ++ s.buf.drop bytes.length
    file := rest
    place := if size - bytes.length > 0 then .giving (size - bytes.length) bytes.length else .writing bytes.length 0}

inductive Step : State → List Event → State → Prop where
  | tick (s : State) : Step s [.ticked] {s with tbf := s.tbf.refill}
  | test : s.place = .testing → 0 < s.tbf.token.val → Step s [] {s with place := .choosing}
  | choose : s.place = .choosing → Step s [] {s with place := .taking (min s.tbf.token.val bufSize)}
  | load (n : Int) : s.place = .taking n → Step s [] {s with place := .storing n s.tbf.token.val}
  | take (n token : Int) : s.place = .storing n token → Step s [] (s.token (token - n) (.reading n))
  | read (size : Int) (bytes rest : List UInt8) : s.place = .reading size → s.file = bytes ++ rest → bytes ≠ [] →
      bytes.length ≤ size → Step s [.read bytes.length] (s.received size bytes rest)
  | eof (size : Int) : s.place = .reading size → s.file = [] → Step s [] {s with place := .ended}
  | readFails (size : Int) : s.place = .reading size → Step s [] {s with place := .failed}
  | loadBack (back : Int) (len : Nat) : s.place = .giving back len → Step s [] {s with place := .pouring back s.tbf.token.val len}
  | give (back token : Int) (len : Nat) : s.place = .pouring back token len → Step s [] (s.token (token + back) (.capping len))
  | keep (len : Nat) : s.place = .capping len → s.tbf.token.val ≤ s.tbf.burst.val → Step s [] {s with place := .writing len 0}
  | exceeds (len : Nat) : s.place = .capping len → s.tbf.burst.val < s.tbf.token.val → Step s [] {s with place := .lowering len}
  | lower (len : Nat) : s.place = .lowering len →
      Step s [] {s with tbf := {s.tbf with token := s.tbf.burst},place := .writing len 0}
  | write (len pos ret : Nat) : s.place = .writing len pos → 0 < ret → ret ≤ len →
      Step s [] {s with output := s.output ++ (s.buf.drop pos).take ret,place := .writing (len - ret) (pos + ret)}
  | written (pos : Nat) : s.place = .writing 0 pos → Step s [] {s with place := .testing}
  | writeFails (len pos : Nat) : s.place = .writing len pos → 0 < len → Step s [] {s with place := .failed}

-- `buf` is uninitialized and the slot is the one mytbf_init has found.
def start (slot : Slot) (buf content : List UInt8) : State := ⟨newBucket cps burst slot,.testing,buf,content,[]⟩

def Event.tick : Event → Int
  | .ticked => 1
  | .read _ => 0

def Event.len : Event → Int
  | .ticked => 0
  | .read len => len

def ticks (log : List Event) : Int := (log.map Event.tick).sum
def bytesRead (log : List Event) : Int := (log.map Event.len).sum

-- With no tick in between these are the calls of the bucket.
theorem fetch_runs {s : State} (at_ : s.place = .testing) (fetched : fetchToken (int 1024 (by decide)) s.tbf = some (after,n)) :
    Runs Step s [] {s with tbf := after,place := .reading n} := by
  unfold fetchToken at fetched
  rw [if_neg (by decide)] at fetched
  split at fetched
  · cases fetched
  · rename_i positive
    cases fetched
    have tested := Runs.one (Step.test at_ (by omega))
    exact ((tested.step (.choose rfl)).step (.load _ rfl)).step (.take _ _ rfl)

theorem return_runs {s : State} {size : IntValue} (at_ : s.place = .giving size.val len) (positive : 0 < size.val) :
    Runs Step s [] {s with tbf := (returnToken size s.tbf).1,place := .writing len 0} := by
  have given := (Runs.one (Step.loadBack _ _ at_)).step (.give _ _ _ rfl)
  rw [returnToken,if_neg (by omega)]
  unfold MytbfSt.cap
  split
  · rename_i above
    exact (given.step (.exceeds _ rfl above)).step (.lower _ rfl)
  · rename_i below
    exact given.step (.keep _ rfl (Int.not_lt.mp below))

-- The tokens in the bucket, those that main has taken and what it has read with them are
-- what the refills have brought.
def Place.Funded (used filled token : Int) : Place → Prop
  | .choosing => 0 < token ∧ token ≤ 100 ∧ used + token ≤ filled
  | .taking n => 0 < n ∧ n ≤ token ∧ token ≤ 100 ∧ used + token ≤ filled
  | .storing n loaded => 0 < n ∧ n ≤ loaded ∧ loaded ≤ 100 ∧ token ≤ 100 ∧ used + loaded ≤ filled
  | .reading size => 0 < size ∧ size ≤ 100 ∧ token ≤ 100 ∧ used + size + token ≤ filled
  | .giving back _ => 0 < back ∧ back ≤ 100 ∧ token ≤ 100 ∧ used + back + token ≤ filled
  | .pouring back loaded _ => 0 < back ∧ back ≤ 100 ∧ 0 ≤ loaded ∧ loaded ≤ 100 ∧ token ≤ 100 ∧ used + back + loaded ≤ filled
  | .capping _ => token ≤ 200 ∧ used + token ≤ filled
  | .lowering _ => 100 ≤ token ∧ token ≤ 200 ∧ used + token ≤ filled
  | _ => token ≤ 100 ∧ used + token ≤ filled

structure Funded (log : List Event) (s : State) : Prop where
  rate : s.tbf.cps = cps
  room : s.tbf.burst = burst
  low : 0 ≤ s.tbf.token.val
  paid : s.place.Funded (bytesRead log) (ticks log * cps.val) s.tbf.token.val

theorem funded_high {place : Place} (paid : place.Funded used filled token) : token ≤ 200 ∧ (used ≤ filled ∨ token < 0) := by
  cases place <;> simp only [Place.Funded] at paid <;> omega

theorem refill_token {me : MytbfSt} (rate : me.cps = cps) (room : me.burst = burst) (low : 0 ≤ me.token.val) (high : me.token.val ≤ 200) :
    me.refill.token.val = min (me.token.val + 10) 100 := by
  have sum : (store (me.token.val + me.cps.val)).val = me.token.val + 10 := by
    rw [rate]
    apply store_of_nonneg
    · simp only [cps,int]
      omega
    · simp only [intMax,cps,int]
      omega
  have ceiling : me.burst.val = 100 := by
    rw [room]
    rfl
  unfold MytbfSt.refill MytbfSt.cap
  split
  · rename_i above
    change me.burst.val = _
    simp only [sum] at above
    omega
  · rename_i below
    change (store (me.token.val + me.cps.val)).val = _
    simp only [sum] at below
    omega

-- A refill adds at most CPS tokens, and lowers the tokens only to BURST.
theorem tick_funded {place : Place} (paid : place.Funded used filled token) (low : 0 ≤ token) :
    place.Funded used (filled + 10) (min (token + 10) 100) := by
  cases place <;> simp only [Place.Funded] at paid ⊢ <;> omega

theorem ticks_one (log : List Event) : ticks (log ++ [.ticked]) = ticks log + 1 ∧ bytesRead (log ++ [.ticked]) = bytesRead log := by
  simp [ticks,bytesRead,Event.tick,Event.len]

theorem read_one (log : List Event) (len : Nat) :
    ticks (log ++ [.read len]) = ticks log ∧ bytesRead (log ++ [.read len]) = bytesRead log + len := by
  simp [ticks,bytesRead,Event.tick,Event.len]

theorem token_funded {s : State} (funded : Funded log s) (inRange : 0 ≤ n ∧ n ≤ 200)
    (paid : place.Funded (bytesRead log) (ticks log * cps.val) n) : Funded log (s.token n place) := by
  have value : (store n).val = n := by
    apply store_of_nonneg
    · omega
    · simp only [intMax]
      omega
  refine ⟨funded.rate,funded.room,?_,?_⟩
  · change 0 ≤ (store n).val
    omega
  · change place.Funded _ _ (store n).val
    rw [value]
    exact paid

theorem quiet_funded {s next : State} (funded : Funded log s) (same : next.tbf = s.tbf)
    (paid : next.place.Funded (bytesRead log) (ticks log * cps.val) s.tbf.token.val) : Funded (log ++ []) next := by
  rw [List.append_nil]
  exact ⟨same ▸ funded.rate,same ▸ funded.room,same ▸ funded.low,same ▸ paid⟩

theorem refill_funded {s : State} (funded : Funded log s) : Funded (log ++ [.ticked]) {s with tbf := s.tbf.refill} := by
  obtain ⟨rate,room,low,paid⟩ := funded
  have token := refill_token rate room low (funded_high paid).1
  obtain ⟨counted,unread⟩ := ticks_one log
  have is := refill_is s.tbf
  refine ⟨is.1.trans rate,is.2.1.trans room,?_,?_⟩
  · rw [token]
    omega
  · have brought : (ticks log + 1) * cps.val = ticks log * cps.val + 10 := by
      rw [Int.add_mul]
      rfl
    rw [counted,unread,token,brought]
    exact tick_funded paid low

theorem lower_funded {s : State} (funded : Funded log s) (at_ : s.place = .lowering len) :
    Funded log {s with tbf := {s.tbf with token := s.tbf.burst},place := .writing len 0} := by
  obtain ⟨rate,room,low,paid⟩ := funded
  rw [at_] at paid
  simp only [Place.Funded] at paid
  have full : s.tbf.burst.val = 100 := by
    rw [room]
    rfl
  refine ⟨rate,room,?_,?_⟩
  · change 0 ≤ s.tbf.burst.val
    omega
  · change s.tbf.burst.val ≤ 100 ∧ _ + s.tbf.burst.val ≤ _
    omega

theorem step_funded {s : State} (funded : Funded log s) (step : Step s emitted after) : Funded (log ++ emitted) after := by
  obtain ⟨rate,room,low,paid⟩ := id funded
  cases step with
  | tick => exact refill_funded funded
  | test at_ positive =>
    rw [at_] at paid
    exact quiet_funded funded rfl ⟨positive,paid⟩
  | choose at_ =>
    rw [at_] at paid
    simp only [Place.Funded] at paid
    refine quiet_funded funded rfl ?_
    simp only [Place.Funded,bufSize]
    omega
  | take n token at_ | give back token len at_ =>
    rw [at_] at paid
    simp only [Place.Funded] at paid
    rw [List.append_nil]
    apply token_funded funded (by omega)
    simp only [Place.Funded]
    omega
  | read size bytes rest at_ content nonempty short =>
    rw [at_] at paid
    simp only [Place.Funded] at paid
    obtain ⟨counted,more⟩ := read_one log bytes.length
    refine ⟨rate,room,low,?_⟩
    rw [counted,more]
    change (if _ then Place.giving _ _ else Place.writing _ _).Funded _ _ s.tbf.token.val
    split
    · simp only [Place.Funded]
      omega
    · simp only [Place.Funded]
      omega
  | load n at_ | eof size at_ | readFails size at_ | loadBack back len at_ =>
    rw [at_] at paid
    simp only [Place.Funded] at paid
    refine quiet_funded funded rfl ?_
    simp only [Place.Funded]
    omega
  | keep len at_ below =>
    rw [at_] at paid
    simp only [Place.Funded] at paid
    rw [room] at below
    exact quiet_funded funded rfl ⟨below,paid.2⟩
  | exceeds len at_ above =>
    rw [at_] at paid
    simp only [Place.Funded] at paid
    rw [room] at above
    exact quiet_funded funded rfl ⟨Int.le_of_lt above,paid⟩
  | lower len at_ =>
    rw [List.append_nil]
    exact lower_funded funded at_
  | write len pos ret at_ positive short | written pos at_ | writeFails len pos at_ filled =>
    rw [at_] at paid
    exact quiet_funded funded rfl paid

-- What main has read and not yet written.
def Place.pending (buf : List UInt8) : Place → List UInt8
  | .giving _ len => buf.take len
  | .pouring _ _ len => buf.take len
  | .capping len => buf.take len
  | .lowering len => buf.take len
  | .writing len pos => (buf.drop pos).take len
  | _ => []

-- The part of buf that a call is about.
def Place.reach : Place → Nat
  | .giving _ len => len
  | .pouring _ _ len => len
  | .capping len => len
  | .lowering len => len
  | .writing len pos => pos + len
  | _ => 0

structure Copied (content : List UInt8) (s : State) : Prop where
  size : s.buf.length = bufSize
  inside : s.place.reach ≤ bufSize
  whole : s.place ≠ .failed → s.output ++ (s.place.pending s.buf ++ s.file) = content
  ends : s.place = .ended → s.file = []

theorem received_copied {s : State} {size : Int} (copied : Copied content s) (at_ : s.place = .reading size) (split : s.file = bytes ++ rest)
    (short : bytes.length ≤ size) (fits : size ≤ 100) : Copied content (s.received size bytes rest) := by
  obtain ⟨block,_,whole,_⟩ := copied
  rw [at_,split] at whole
  have read : s.output ++ (bytes ++ rest) = content := whole (by simp)
  have long : (bytes ++ s.buf.drop bytes.length).length = bufSize := by
    simp only [List.length_append,List.length_drop,block,bufSize] at block ⊢
    omega
  have held : (bytes ++ s.buf.drop bytes.length).take bytes.length = bytes := List.take_left
  have bounded : bytes.length ≤ bufSize := by
    simp only [bufSize]
    omega
  unfold State.received
  split
  · refine ⟨long,bounded,fun _ => ?_,fun ended => by cases ended⟩
    change s.output ++ ((bytes ++ s.buf.drop bytes.length).take bytes.length ++ rest) = content
    rw [held]
    exact read
  · refine ⟨long,?_,fun _ => ?_,fun ended => by cases ended⟩
    · change 0 + bytes.length ≤ bufSize
      omega
    · change s.output ++ ((bytes ++ s.buf.drop bytes.length).take bytes.length ++ rest) = content
      rw [held]
      exact read

-- What a write has taken is at the front of what was pending.
theorem write_pending (buf : List UInt8) (short : ret ≤ len) :
    (buf.drop pos).take len = (buf.drop pos).take ret ++ (buf.drop (pos + ret)).take (len - ret) := by
  have sum : len = ret + (len - ret) := by omega
  rw [sum,List.take_add,List.drop_drop,← sum]

theorem step_copied {s : State} (copied : Copied content s) (funded : Funded log s) (step : Step s emitted after) : Copied content after := by
  obtain ⟨size,inside,whole,ends⟩ := id copied
  have paid := funded.paid
  -- A step that leaves buf, file, output and what is pending alone.
  have same {next : State} (buf : next.buf = s.buf) (file : next.file = s.file) (output : next.output = s.output)
      (pending : next.place ≠ .failed → s.place ≠ .failed ∧ next.place.pending s.buf = s.place.pending s.buf)
      (reach : next.place.reach ≤ bufSize) (empty : next.place = .ended → s.file = []) : Copied content next := by
    refine ⟨buf ▸ size,reach,fun runs => ?_,?_⟩
    · rw [buf,file,output,(pending runs).2]
      exact whole (pending runs).1
    · rw [file]
      exact empty
  cases step with
  | tick => exact same rfl rfl rfl (fun runs => ⟨runs,rfl⟩) inside ends
  | test at_ | choose at_ | load n at_ | take n token at_ =>
    exact same rfl rfl rfl (fun _ => by rw [at_]; exact ⟨by simp,rfl⟩) (Nat.zero_le _) (fun ended => by cases ended)
  | read asked bytes rest at_ split nonempty short =>
    rw [at_] at paid
    exact received_copied copied at_ split short paid.2.1
  | eof asked at_ empty => exact same rfl rfl rfl (fun _ => by rw [at_]; exact ⟨by simp,rfl⟩) (Nat.zero_le _) (fun _ => empty)
  | readFails asked at_ => exact same rfl rfl rfl (fun _ => by rw [at_]; exact ⟨by simp,rfl⟩) (Nat.zero_le _) (fun ended => by cases ended)
  | loadBack back len at_ | give back token len at_ | exceeds len at_ =>
    rw [at_] at inside
    exact same rfl rfl rfl (fun _ => by rw [at_]; exact ⟨by simp,rfl⟩) inside (fun ended => by cases ended)
  | keep len at_ | lower len at_ =>
    rw [at_] at inside
    refine same rfl rfl rfl (fun _ => by rw [at_]; exact ⟨by simp,rfl⟩) ?_ (fun ended => by cases ended)
    change 0 + _ ≤ bufSize
    rw [Nat.zero_add]
    exact inside
  | write len pos ret at_ positive short =>
    rw [at_] at inside whole
    refine ⟨size,?_,fun _ => ?_,fun ended => by cases ended⟩
    · change pos + ret + (len - ret) ≤ bufSize
      simp only [Place.reach] at inside
      omega
    · have before := whole (by simp)
      simp only [Place.pending] at before ⊢
      rw [write_pending s.buf short,List.append_assoc] at before
      rw [List.append_assoc]
      exact before
  | written pos at_ => exact same rfl rfl rfl (fun _ => by rw [at_]; exact ⟨by simp,by simp [Place.pending]⟩) (Nat.zero_le _) (fun ended => by cases ended)
  | writeFails len pos at_ filled => exact same rfl rfl rfl (fun runs => absurd rfl runs) (Nat.zero_le _) (fun ended => by cases ended)

theorem start_funded (slot : Slot) (buf content : List UInt8) : Funded [] (start slot buf content) := by
  have low : 0 ≤ (store 0).val := by decide
  have paid : Place.testing.Funded (bytesRead []) (ticks [] * cps.val) (store 0).val := ⟨by decide,by decide⟩
  exact ⟨rfl,rfl,low,paid⟩

theorem start_copied (slot : Slot) {buf : List UInt8} (content : List UInt8) (block : buf.length = bufSize) :
    Copied content (start slot buf content) := ⟨block,Nat.zero_le _,fun _ => rfl,fun ended => by cases ended⟩

theorem run_kept {slot : Slot} (block : buf.length = bufSize) (run : Runs Step (start slot buf content) log s) :
    Funded log s ∧ Copied content s := by
  induction run with
  | nil => exact ⟨start_funded slot buf content,start_copied slot content block⟩
  | step prior taken ih => exact ⟨step_funded ih.1 taken,step_copied ih.2 ih.1 taken⟩

theorem cat_exact {slot : Slot} (block : buf.length = bufSize) (run : Runs Step (start slot buf content) log s) :
    (s.place = .ended → s.output = content) ∧
    (∀ size, s.place = .reading size → 0 < size ∧ size ≤ bufSize) ∧
    (∀ len pos, s.place = .writing len pos → pos + len ≤ s.buf.length) ∧
    s.buf.length = bufSize ∧
    bytesRead log ≤ ticks log * cps.val := by
  obtain ⟨funded,copied⟩ := run_kept block run
  have low := funded.low
  refine ⟨?_,?_,?_,copied.size,?_⟩
  · intro ended
    have whole := copied.whole (by rw [ended]; simp)
    rw [copied.ends ended,ended] at whole
    simpa [Place.pending] using whole
  · intro size reading
    have paid := funded.paid
    rw [reading] at paid
    simp only [Place.Funded] at paid
    simp only [bufSize]
    omega
  · intro len pos writing
    have inside := copied.inside
    rw [writing] at inside
    rw [copied.size]
    exact inside
  · rcases (funded_high funded.paid).2 with paid | negative
    · exact paid
    · omega

-- Two bytes read with ten tokens, of which eight go back, and written one by one.
theorem cat_hello : ∃ log s, Runs Step (start slot0 (List.replicate bufSize 0) [104,105]) log s ∧ s.place = .ended ∧
    s.output = [104,105] ∧ bytesRead log = 2 ∧ bytesRead log ≤ ticks log * cps.val := by
  have ticked := Runs.one (Step.tick (start slot0 (List.replicate bufSize 0) [104,105]))
  have tested := (ticked.step (.test rfl (by decide))).step (.choose rfl)
  have fetched := (tested.step (.load _ rfl)).step (.take _ _ rfl)
  have received := fetched.step (.read _ [104,105] [] rfl rfl (by simp) (by decide))
  have returned := ((received.step (.loadBack _ _ rfl)).step (.give _ _ _ rfl)).step (.keep _ rfl (by decide))
  have wrote := ((returned.step (.write _ _ 1 rfl (by decide) (by decide))).step (.write _ _ 1 rfl (by decide) (by decide))).step (.written _ rfl)
  have again := (wrote.step (.test rfl (by decide))).step (.choose rfl)
  have ended := ((again.step (.load _ rfl)).step (.take _ _ rfl)).step (.eof _ rfl rfl)
  have kept := cat_exact List.length_replicate ended
  exact ⟨_,_,ended,rfl,kept.1 rfl,rfl,kept.2.2.2.2⟩

end LinuxCoding.Mytbf.Cat
