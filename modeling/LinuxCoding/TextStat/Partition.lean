import LinuxCoding.Library.Split
import LinuxCoding.TextStat.Source

-- When each line of the source is counted once.
namespace LinuxCoding.TextStat
open CInt Split

-- How often "*/" ends in a line, whether "//" does, and whether a block comment is open at
-- its end: whether the last of all "/*" and "*/" so far is "/*". The character before a
-- line belongs to its pairs.
def closers (prev : Int) : List Int → Nat
  | [] => 0
  | ch :: rest => (if prev = 42 ∧ ch = 47 then 1 else 0) + closers ch rest

def slashes (prev : Int) : List Int → Bool
  | [] => false
  | ch :: rest => (prev = 47 ∧ ch = 47 : Bool) || slashes ch rest

def block (prev : Int) (inside : Bool) : List Int → Bool
  | [] => inside
  | ch :: rest => block ch (if prev = 42 ∧ ch = 47 then false else inside || (prev = 47 ∧ ch = 42 : Bool)) rest

def blank (line : List Int) : Bool := line.all isspace

-- How many of the counts of comments and blank lines a line raises.
def weight (prev : Int) (inside : Bool) (line : List Int) : Nat :=
  closers prev line + (slashes prev line || block prev inside line).toNat + (blank line).toNat

-- No line raises two, from a line on.
def Light (prev : Int) (inside : Bool) : List (List Int) → Prop
  | [] => True
  | line :: rest => weight prev inside line ≤ 1 ∧ Light 10 (block prev inside line) rest

-- The last line is counted unless the text ends in white space other than a newline.
def ended (ch : Int) : Bool := ch = 10 || !isspace ch

structure Passed (s : State) (line : List Int) (t : State) : Prop where
  comment1 : t.isCommentType1 = (s.isCommentType1 || slashes s.lastch line)
  comment2 : t.isCommentType2 = block s.lastch s.isCommentType2 line
  space : t.isSpace = (s.isSpace && blank line)
  lastch : t.lastch = (s.lastch :: line).getLast (List.cons_ne_nil _ _)
  past : t.past = s.past
  now : t.now = s.now ++ List.replicate (closers s.lastch line) .comment

-- A line with "//" so far is not blank.
def Tidy (s : State) : Prop := s.isCommentType1 = true → s.isSpace = false

theorem slash_not_space : isspace 47 = false := by decide
theorem star_not_space : isspace 42 = false := by decide

-- What a character of a line does, by the pair it ends.
theorem step_slashes (s : State) (slash : s.lastch = 47) : step s 47 = {s with isCommentType1 := true, isSpace := false} := by
  cases type1 : s.isCommentType1 <;> simp [step,slash,type1,slash_not_space]

theorem step_opens (s : State) (slash : s.lastch = 47) : step s 42 = {s with isCommentType2 := true, isSpace := false, lastch := 42} := by
  cases type2 : s.isCommentType2 <;> simp [step,slash,type2,star_not_space]

theorem step_closes (s : State) (star : s.lastch = 42) :
    step s 47 = {s.add .comment with isCommentType2 := false, isSpace := false, lastch := 47} := by
  simp [step,star,slash_not_space,State.add]

theorem step_plain (s : State) (inLine : ch ≠ 10) (noSlashes : ¬ (s.lastch = 47 ∧ ch = 47)) (noOpen : ¬ (s.lastch = 47 ∧ ch = 42))
    (noClose : ¬ (s.lastch = 42 ∧ ch = 47)) :
    step s ch = {s with isSpace := !(!isspace ch || s.isCommentType1) && s.isSpace, lastch := ch} := by
  have slashes : (!s.isCommentType1 && decide (s.lastch = 47) && decide (ch = 47)) = false := by
    simp only [Bool.and_assoc,← Bool.decide_and,decide_eq_false noSlashes,Bool.and_false]
  have opens : (!s.isCommentType2 && decide (s.lastch = 47) && decide (ch = 42)) = false := by
    simp only [Bool.and_assoc,← Bool.decide_and,decide_eq_false noOpen,Bool.and_false]
  have closes : (decide (s.lastch = 42) && decide (ch = 47)) = false := by
    rw [← Bool.decide_and,decide_eq_false noClose]
  simp only [step,slashes,opens,Bool.false_eq_true,if_false,inLine]
  cases ends : !isspace ch || s.isCommentType1 <;> simp [closes]

theorem step_passed (tidy : Tidy s) (inLine : ch ≠ 10) : Passed s [ch] (step s ch) ∧ Tidy (step s ch) := by
  by_cases doubled : s.lastch = 47 ∧ ch = 47
  · obtain ⟨slash,same⟩ := doubled
    subst same
    rw [step_slashes s slash]
    refine ⟨⟨?_,?_,?_,?_,rfl,?_⟩,fun _ => rfl⟩ <;> simp [slashes,block,blank,closers,slash,slash_not_space]
  by_cases opens : s.lastch = 47 ∧ ch = 42
  · obtain ⟨slash,same⟩ := opens
    subst same
    rw [step_opens s slash]
    refine ⟨⟨?_,?_,?_,rfl,rfl,?_⟩,fun _ => rfl⟩ <;> simp [slashes,block,blank,closers,slash,star_not_space]
  by_cases closes : s.lastch = 42 ∧ ch = 47
  · obtain ⟨star,same⟩ := closes
    subst same
    rw [step_closes s star]
    refine ⟨⟨?_,?_,?_,rfl,rfl,?_⟩,fun _ => rfl⟩ <;> simp [slashes,block,blank,closers,star,slash_not_space,State.add]
  rw [step_plain s inLine doubled opens closes]
  refine ⟨⟨?_,?_,?_,rfl,rfl,?_⟩,?_⟩
  · simp [slashes,doubled]
  · simp [block,opens,closes]
  · cases comment : s.isCommentType1 with
    | true => simp [blank,tidy comment]
    | false => simp [blank,Bool.and_comm]
  · simp [closers,closes]
  · intro comment
    rw [tidy comment,Bool.and_false]

theorem line_passed (tidy : Tidy s) (inLine : 10 ∉ line) : Passed s line (line.foldl step s) ∧ Tidy (line.foldl step s) := by
  induction line generalizing s with
  | nil => exact ⟨⟨by simp [slashes],rfl,by simp [blank],rfl,rfl,by simp [closers]⟩,tidy⟩
  | cons ch rest ih =>
    rw [List.mem_cons,not_or] at inLine
    obtain ⟨first,tidyFirst⟩ := step_passed tidy (Ne.symm inLine.1)
    obtain ⟨later,tidyLater⟩ := ih tidyFirst inLine.2
    have next : (step s ch).lastch = ch := first.lastch
    refine ⟨⟨?_,?_,?_,?_,later.past.trans first.past,?_⟩,tidyLater⟩
    · rw [List.foldl_cons,later.comment1,first.comment1,next]
      simp [slashes,Bool.or_assoc]
    · rw [List.foldl_cons,later.comment2,first.comment2,next]
      rfl
    · rw [List.foldl_cons,later.space,first.space]
      simp [blank,Bool.and_assoc]
    · rw [List.foldl_cons,later.lastch,List.getLast_cons (List.cons_ne_nil _ _)]
      simp only [next]
    · rw [List.foldl_cons,later.now,first.now,next,List.append_assoc,List.replicate_append_replicate]
      simp [closers]

-- What is counted for a line that is counted.
def marks (prev : Int) (inside : Bool) (line : List Int) : List Counter :=
  List.replicate (closers prev line) .comment ++ .total ::
    ((if slashes prev line || block prev inside line then [.comment] else []) ++ if blank line then [.space] else [])

-- A state in which no character of the current line has been read.
structure Fresh (s : State) (prev : Int) (inside : Bool) (prior : List (List Counter)) : Prop where
  comment1 : s.isCommentType1 = false
  comment2 : s.isCommentType2 = inside
  space : s.isSpace = true
  lastch : s.lastch = prev
  past : s.past = prior
  now : s.now = []

theorem start_fresh (lastch : Int) : Fresh (start lastch) lastch false [] := ⟨rfl,rfl,rfl,rfl,rfl,rfl⟩

theorem Fresh.tidy (fresh : Fresh s prev inside prior) : Tidy s := by
  intro comment
  rw [fresh.comment1] at comment
  cases comment

theorem lineEnd_now (s : State) : s.lineEnd.now = s.now ++ .total ::
    ((if s.isCommentType1 || s.isCommentType2 then [.comment] else []) ++ if s.isSpace then [.space] else []) := by
  cases comment : s.isCommentType1 || s.isCommentType2 <;> cases space : s.isSpace <;>
    simp only [State.lineEnd,State.add,comment,space,Bool.false_eq_true,if_true,if_false] <;> simp

theorem lineEnd_past (s : State) : s.lineEnd.past = s.past := by
  unfold State.lineEnd
  dsimp only
  split <;> split <;> rfl

theorem lineEnd_comment2 (s : State) : s.lineEnd.isCommentType2 = s.isCommentType2 := by
  unfold State.lineEnd
  dsimp only
  split <;> split <;> rfl

-- The end of a line's counting.
theorem Fresh.counted (fresh : Fresh s prev inside prior) (passed : Passed s line t) : t.lineEnd.now = marks prev inside line := by
  rw [lineEnd_now,passed.now,passed.comment1,passed.comment2,passed.space,fresh.now,fresh.lastch,fresh.comment1,fresh.comment2,fresh.space]
  simp [marks]

theorem newline_space : isspace 10 = true := by decide

theorem step_newline (tidy : Tidy s) : step s 10 =
    {s.lineEnd with isCommentType1 := false, isSpace := true, past := s.past ++ [s.lineEnd.now], now := [], lastch := 10} := by
  have same : (if s.isCommentType1 then {s with isSpace := false} else s) = s := by
    cases comment : s.isCommentType1 with
    | true =>
      obtain ⟨count,type1,type2,space,lastch,past,now⟩ := s
      have shown : type1 = true := comment
      have blank : space = false := tidy comment
      subst shown blank
      rfl
    | false => rw [if_neg Bool.false_ne_true]
  simp [step,newline_space,same,lineEnd_past]

theorem Fresh.newline (fresh : Fresh s prev inside prior) (inLine : 10 ∉ line) :
    Fresh ((line ++ [10]).foldl step s) 10 (block prev inside line) (prior ++ [marks prev inside line]) := by
  obtain ⟨passed,tidy⟩ := line_passed fresh.tidy inLine
  rw [List.foldl_append,List.foldl_cons,List.foldl_nil,step_newline tidy]
  refine ⟨rfl,?_,rfl,rfl,?_,rfl⟩
  · change (line.foldl step s).lineEnd.isCommentType2 = _
    rw [lineEnd_comment2,passed.comment2,fresh.comment2,fresh.lastch]
  · change (line.foldl step s).past ++ [(line.foldl step s).lineEnd.now] = _
    rw [passed.past,fresh.past,fresh.counted passed]

-- What is counted for each line; the last one is counted or not.
def groups (prev : Int) (inside : Bool) : List (List Int) → List (List Counter)
  | [] => []
  | [line] =>
    [if ended ((prev :: line).getLast (List.cons_ne_nil _ _)) then marks prev inside line
     else List.replicate (closers prev line) .comment]
  | line :: next :: rest => marks prev inside line :: groups 10 (block prev inside line) (next :: rest)

theorem Fresh.last (fresh : Fresh s prev inside prior) (inLine : 10 ∉ line) :
    (finish (line.foldl step s)).past ++ [(finish (line.foldl step s)).now] = prior ++ groups prev inside [line] := by
  obtain ⟨passed,_⟩ := line_passed fresh.tidy inLine
  have final : (line.foldl step s).lastch = (prev :: line).getLast (List.cons_ne_nil _ _) := by
    rw [passed.lastch]
    simp only [fresh.lastch]
  rw [finish,groups,← final]
  by_cases counts : ended (line.foldl step s).lastch = true
  · rw [if_pos counts]
    simp only [ended,Bool.or_eq_true,decide_eq_true_eq] at counts
    simp only [Bool.or_eq_true,decide_eq_true_eq,counts,if_true]
    rw [lineEnd_past,passed.past,fresh.past,fresh.counted passed]
  · rw [if_neg counts]
    simp only [ended] at counts
    rw [if_neg counts,passed.past,fresh.past,passed.now,fresh.now,fresh.lastch,List.nil_append]

theorem line_cases (text : List Int) : 10 ∉ text ∨ ∃ line rest, text = line ++ 10 :: rest ∧ 10 ∉ line := by
  by_cases member : 10 ∈ text
  · obtain ⟨line,rest,same,first⟩ := List.eq_append_cons_of_mem member
    exact .inr ⟨line,rest,same,first⟩
  · exact .inl member

theorem groups_cons (prev : Int) (inside : Bool) (line rest : List Int) :
    groups prev inside (line :: rest.splitOn 10) = marks prev inside line :: groups 10 (block prev inside line) (rest.splitOn 10) := by
  cases more : rest.splitOn 10 with
  | nil => exact absurd more (List.splitOn_ne_nil _ _)
  | cons next others => rfl

theorem Fresh.read (fresh : Fresh s prev inside prior) (text : List Int) :
    (finish (text.foldl step s)).past ++ [(finish (text.foldl step s)).now] = prior ++ groups prev inside (text.splitOn 10) := by
  induction size : text.length using Nat.strongRecOn generalizing s prev inside prior text with
  | ind left ih =>
    rcases line_cases text with inLine | ⟨line,rest,same,inLine⟩
    · rw [List.splitOn_eq_singleton inLine]
      exact fresh.last inLine
    · have shorter : rest.length < left := by
        rw [← size,same,List.length_append,List.length_cons]
        omega
      have later := ih rest.length shorter (fresh.newline inLine) rest rfl
      rw [← List.foldl_append,List.append_assoc,List.singleton_append,← same] at later
      rw [later,same,List.splitOn_append_cons_self_of_not_mem inLine,groups_cons,List.append_assoc,List.singleton_append]

-- The counters are the numbers of their increments.
def Counted (s : State) : Prop := ∀ c, s.count c = toInt ((s.past ++ [s.now]).flatten.count c)

theorem Counted.add (counted : Counted s) (c : Counter) : Counted (s.add c) := by
  intro d
  have before := counted d
  rw [List.flatten_append,List.flatten_singleton,List.count_append] at before ⊢
  change Function.update s.count c (toInt (s.count c + 1)) d = toInt ((s.past.flatten.count d + (s.now ++ [c]).count d : Nat) : Int)
  rw [List.count_append,List.count_singleton]
  by_cases same : d = c
  · subst same
    rw [Function.update_self,before,toInt_add]
    simp [Int.add_assoc]
  · rw [Function.update_of_ne same,before]
    simp [Ne.symm same]

theorem Counted.lineEnd (counted : Counted s) : Counted s.lineEnd := by
  unfold State.lineEnd
  dsimp only
  split
  · split
    · exact ((counted.add _).add _).add _
    · exact (counted.add _).add _
  · split
    · exact (counted.add _).add _
    · exact counted.add _

theorem Counted.same (counted : Counted s) (count : t.count = s.count) (log : (t.past ++ [t.now]).flatten = (s.past ++ [s.now]).flatten) :
    Counted t := by
  intro c
  rw [count,log]
  exact counted c

theorem Counted.step (counted : Counted s) (ch : Int) : Counted (step s ch) := by
  unfold TextStat.step
  extract_lets first second ended third closed fourth
  have afterFirst : Counted first := by
    unfold first
    split <;> exact counted.same rfl rfl
  have afterSecond : Counted second := by
    unfold second
    split
    · exact afterFirst.same rfl rfl
    · split <;> exact afterFirst.same rfl rfl
  have afterThird : Counted third := by
    unfold third
    split
    · exact afterSecond.lineEnd.same rfl (by simp [ended])
    · exact afterSecond
  have afterFourth : Counted fourth := by
    unfold fourth
    split
    · exact (afterThird.add .comment).same rfl rfl
    · exact afterThird
  exact afterFourth.same rfl rfl

theorem start_counted (lastch : Int) : Counted (start lastch) := by
  intro c
  have zero : (0 : Int) = toInt 0 := by decide
  exact zero

theorem read_counted (counted : Counted s) (text : List Int) : Counted (text.foldl step s) := by
  induction text generalizing s with
  | nil => exact counted
  | cons ch rest ih => exact ih (counted.step ch)

theorem main_counted (lastch : Int) (file : List UInt8) : Counted (main lastch file) := by
  have counted := read_counted (start_counted lastch) (file.map fgetc)
  unfold main finish
  split
  · exact counted.lineEnd
  · exact counted

theorem marks_count (prev : Int) (inside : Bool) (line : List Int) :
    (marks prev inside line).count .total = 1 ∧
    (marks prev inside line).count .comment = closers prev line + (slashes prev line || block prev inside line).toNat ∧
    (marks prev inside line).count .space = (blank line).toNat := by
  cases comment : slashes prev line || block prev inside line <;> cases space : blank line <;> simp [marks,List.count_replicate,comment,space]

theorem single_iff (line : List Counter) : Single line ↔ line.count .total = 1 ∧ line.count .comment + line.count .space ≤ 1 := by
  simp only [Single,code,Prod.mk.injEq]
  omega

theorem marks_single (prev : Int) (inside : Bool) (line : List Int) : Single (marks prev inside line) ↔ weight prev inside line ≤ 1 := by
  obtain ⟨total,comment,space⟩ := marks_count prev inside line
  rw [single_iff,total,comment,space,weight]
  omega

theorem uncounted_not_single (n : Nat) : ¬ Single (List.replicate n .comment) := by
  rw [single_iff]
  simp [List.count_replicate]

-- The character at which the text ends.
def lastOf (prev : Int) : List (List Int) → Int
  | [] => prev
  | [line] => (prev :: line).getLast (List.cons_ne_nil _ _)
  | _ :: next :: rest => lastOf 10 (next :: rest)

theorem groups_single (prev : Int) (inside : Bool) (first : List Int) (rest : List (List Int)) :
    (∀ line ∈ groups prev inside (first :: rest), Single line) ↔ ended (lastOf prev (first :: rest)) = true ∧ Light prev inside (first :: rest) := by
  induction rest generalizing prev inside first with
  | nil =>
    simp only [groups,lastOf,Light,List.mem_singleton,forall_eq,and_true]
    by_cases counts : ended ((prev :: first).getLast (List.cons_ne_nil _ _)) = true
    · rw [if_pos counts,marks_single]
      simp [counts]
    · rw [if_neg counts]
      exact ⟨fun single => absurd single (uncounted_not_single _),fun ⟨counts',_⟩ => absurd counts' counts⟩
  | cons next rest ih =>
    have later := ih 10 (block prev inside first) next
    rw [groups,lastOf,Light,List.forall_mem_cons,marks_single]
    constructor
    · intro ⟨light,single⟩
      obtain ⟨counts,lightLater⟩ := later.mp single
      exact ⟨counts,light,lightLater⟩
    · intro ⟨counts,light,lightLater⟩
      exact ⟨light,later.mpr ⟨counts,lightLater⟩⟩

theorem lastOf_read (prev : Int) (text : List Int) : lastOf prev (text.splitOn 10) = (prev :: text).getLast (List.cons_ne_nil _ _) := by
  induction size : text.length using Nat.strongRecOn generalizing prev text with
  | ind left ih =>
    rcases line_cases text with inLine | ⟨line,rest,same,inLine⟩
    · rw [List.splitOn_eq_singleton inLine]
      rfl
    · have shorter : rest.length < left := by
        rw [← size,same,List.length_append,List.length_cons]
        omega
      have later := ih rest.length shorter 10 rest rfl
      subst same
      rw [List.splitOn_append_cons_self_of_not_mem inLine]
      have skip : lastOf prev (line :: rest.splitOn 10) = lastOf 10 (rest.splitOn 10) := by
        cases more : rest.splitOn 10 with
        | nil => exact absurd more (List.splitOn_ne_nil _ _)
        | cons next others => rfl
      have nonempty : line ++ 10 :: rest ≠ [] := List.append_ne_nil_of_right_ne_nil _ (List.cons_ne_nil _ _)
      rw [skip,later,List.getLast_cons nonempty,List.getLast_append_of_ne_nil _ (List.cons_ne_nil _ _)]

theorem groups_length (prev : Int) (inside : Bool) (lines : List (List Int)) : (groups prev inside lines).length = lines.length := by
  induction lines generalizing prev inside with
  | nil => rfl
  | cons line rest ih =>
    cases rest with
    | nil => rfl
    | cons next others =>
      rw [groups,List.length_cons,ih,List.length_cons,List.length_cons,List.length_cons]

theorem main_groups (lastch : Int) (file : List UInt8) :
    (main lastch file).past ++ [(main lastch file).now] = groups lastch false ((file.map fgetc).splitOn 10) :=
  (start_fresh lastch).read _

-- Lines that are counted once add up to their number.
theorem single_sums (lines : List (List Counter)) (single : ∀ line ∈ lines, Single line) :
    lines.flatten.count .total = lines.length ∧ lines.flatten.count .comment + lines.flatten.count .space ≤ lines.length := by
  induction lines with
  | nil => exact ⟨rfl,Nat.le_refl _⟩
  | cons line rest ih =>
    obtain ⟨total,fits⟩ := ih (fun line member => single line (List.mem_cons_of_mem _ member))
    obtain ⟨one,most⟩ := (single_iff line).mp (single line List.mem_cons_self)
    simp only [List.flatten_cons,List.count_append,List.length_cons]
    omega

-- The text ends in a newline or in no white space, and no line raises two counts.
structure Fits (lastch : Int) (first : UInt8) (rest : List UInt8) : Prop where
  few : (newlines (first :: rest) : Int) + 1 ≤ intMax
  ends : ended (fgetc ((first :: rest).getLast (List.cons_ne_nil _ _))) = true
  light : Light lastch false (((first :: rest).map fgetc).splitOn 10)

theorem main_lines (lastch : Int) (file : List UInt8) : ((main lastch file).past ++ [(main lastch file).now]).length = newlines file + 1 := by
  rw [main_groups,groups_length,splitOn_length,newlines_read]

theorem main_single (lastch : Int) (first : UInt8) (rest : List UInt8) :
    (∀ line ∈ (main lastch (first :: rest)).past ++ [(main lastch (first :: rest)).now], Single line) ↔
      ended (fgetc ((first :: rest).getLast (List.cons_ne_nil _ _))) = true ∧ Light lastch false (((first :: rest).map fgetc).splitOn 10) := by
  have last := lastOf_read lastch ((first :: rest).map fgetc)
  rw [List.getLast_cons (by simp),List.getLast_map] at last
  rw [main_groups,← last]
  cases split : ((first :: rest).map fgetc).splitOn 10 with
  | nil => exact absurd split (List.splitOn_ne_nil _ _)
  | cons line others => exact groups_single lastch false line others

theorem partition_exact (lastch : Int) (first : UInt8) (rest : List UInt8) :
    Partition (first :: rest) (main lastch (first :: rest)) ↔ Fits lastch first rest := by
  have singles := main_single lastch first rest
  have lines := main_lines lastch (first :: rest)
  have counted := main_counted lastch (first :: rest)
  rw [Counted] at counted
  constructor
  · intro partition
    obtain ⟨ends,light⟩ := singles.mp partition.single
    refine ⟨?_,ends,light⟩
    rw [← partition.total,counted .total]
    exact (toInt_bounds _).2
  · intro fits
    have single := singles.mpr ⟨fits.ends,fits.light⟩
    obtain ⟨total,most⟩ := single_sums _ single
    have few := fits.few
    have exact : ∀ c, (main lastch (first :: rest)).count c =
        ((main lastch (first :: rest)).past ++ [(main lastch (first :: rest)).now]).flatten.count c := by
      intro c
      rw [counted c]
      apply toInt_of_nonneg
      · omega
      · cases c <;> omega
    refine ⟨lines,single,?_,?_,?_⟩
    · rw [exact,exact,exact]
      omega
    · rw [State.codeLineCount,exact,exact,exact]
      rw [toInt_of_nonneg (n := ((_ : Nat) : Int) - ((_ : Nat) : Int)) (by omega) (by omega),
        toInt_of_nonneg (by omega) (by omega)]
      omega
    · rw [exact]
      omega

-- "/*", an empty line and "*/": the empty line counts as a comment and as blank. And "a ",
-- where no line is counted.
theorem commented_blank : (main 0 [47,42,10,10,42,47]).codeLineCount = -1 ∧ (main 0 [97,32]).count .total = 0 ∧
    ¬ ∀ lastch first rest, Partition (first :: rest) (main lastch (first :: rest)) := by
  have negative : (main 0 [47,42,10,10,42,47]).codeLineCount = -1 := by decide
  refine ⟨negative,by decide,fun all => ?_⟩
  have code := (all 0 47 [42,10,10,42,47]).code
  rw [negative] at code
  omega

end LinuxCoding.TextStat
