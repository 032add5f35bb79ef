import LinuxCoding.TextStat.Source

-- homework/IO_std/MyWC.c counts bytes, lines and words in one pass, and MyWC_op.c in three.
namespace LinuxCoding.TextStat
open CInt

def mark (ch : Int) : Bool := ch = 46 ∨ ch = 63 ∨ ch = 33

-- main of MyWC.c, with what the uninitialised lastch happens to hold.
structure MyWC where
  wordCount : Int
  byteCount : Int
  lineCount : Int
  inWord : Bool
  lastch : Int

def MyWC.step (s : MyWC) (ch : Int) : MyWC :=
  let s := {s with byteCount := toInt (s.byteCount + 1)}
  let s := if ch = 10 then {s with lineCount := toInt (s.lineCount + 1)} else s
  let s :=
    if isspace ch || mark s.lastch then {s with inWord := false}
    else if !s.inWord then {s with wordCount := toInt (s.wordCount + 1), inWord := true}
    else s
  {s with lastch := ch}

def myWC (lastch : Int) (file : List UInt8) : MyWC :=
  match file with
  | [] => ⟨0,0,0,false,lastch⟩
  | _ :: rest => (rest.map fgetc).foldl MyWC.step ⟨0,1,1,false,lastch⟩

-- The functions of MyWC_op.c.
def countByte (count _ch : Int) : Int := toInt (count + 1)
def countLine (count ch : Int) : Int := if ch = 10 then toInt (count + 1) else count

def byteCount (file : List UInt8) : Int := (file.map fgetc).foldl countByte 0

def lineCount (file : List UInt8) : Int :=
  match file with
  | [] => 0
  | _ :: rest => (rest.map fgetc).foldl countLine 1

structure Words where
  wordCount : Int
  inWord : Bool
  lastch : Int

def Words.step (s : Words) (ch : Int) : Words :=
  let s :=
    if isspace ch || mark s.lastch then {s with inWord := false}
    else if !s.inWord then {s with wordCount := toInt (s.wordCount + 1), inWord := true}
    else s
  {s with lastch := ch}

def wordCount (lastch : Int) (file : List UInt8) : Int := ((file.map fgetc).foldl Words.step ⟨0,false,lastch⟩).wordCount

structure Agree (lastch lastch' : Int) (file : List UInt8) : Prop where
  bytes : (myWC lastch file).byteCount = byteCount file
  lines : (myWC lastch file).lineCount = lineCount file
  words : (myWC lastch file).wordCount = wordCount lastch' file
  length : byteCount file = file.length
  newlines : file ≠ [] → lineCount file = newlines file + 1

-- How often a word begins.
def begins (inWord : Bool) (lastch : Int) : List Int → Nat
  | [] => 0
  | ch :: rest =>
    if isspace ch || mark lastch then begins false ch rest
    else (if inWord then 0 else 1) + begins true ch rest

-- MyWC.c does not look at the first character, so a word has to begin at the second
-- wherever one begins at the first, and to go on in the same way.
def SameWords : List Int → Prop
  | [] => True
  | [ch] => isspace ch = true
  | [ch,next] => isspace ch = true ∨ isspace next = false
  | ch :: next :: third :: _ =>
    isspace ch = true ∨ isspace next = false ∧ (mark ch = false ∨ mark next = true ∨ isspace third = true)

structure Fair (file : List UInt8) : Prop where
  few : (file.length : Int) ≤ intMax
  first : file.head? ≠ some 10
  words : SameWords (file.map fgetc)

theorem begins_length (inWord : Bool) (lastch : Int) (text : List Int) : begins inWord lastch text ≤ text.length := by
  induction text generalizing inWord lastch with
  | nil => exact Nat.le_refl _
  | cons ch rest ih =>
    rw [begins,List.length_cons]
    split
    · have later := ih false ch
      omega
    · have later := ih true ch
      split <;> omega

theorem begins_unmarked (clear : mark lastch = false) (clear' : mark lastch' = false) (inWord : Bool) (text : List Int) :
    begins inWord lastch text = begins inWord lastch' text := by
  cases text with
  | nil => rfl
  | cons ch rest => rw [begins,begins,clear,clear']

theorem mark_not_space (marks : mark ch = true) : isspace ch = false := by
  simp only [mark,decide_eq_true_eq] at marks
  simp only [isspace,decide_eq_false_iff_not]
  omega

theorem begins_same (clear : mark lastch = false) (clear' : mark lastch' = false) (first : Int) (rest : List Int) :
    begins false lastch rest = begins false lastch' (first :: rest) ↔ SameWords (first :: rest) := by
  rw [begins,clear',Bool.or_false]
  cases space : isspace first with
  | true =>
    have unmarked : mark first = false := by
      by_contra marks
      rw [mark_not_space (by simpa using marks)] at space
      cases space
    rw [if_pos rfl,begins_unmarked clear unmarked]
    rcases rest with _ | ⟨next,_ | ⟨third,more⟩⟩ <;> simp [SameWords,space]
  | false =>
    rw [if_neg Bool.false_ne_true]
    rcases rest with _ | ⟨next,_ | ⟨third,more⟩⟩
    · simp [begins,SameWords,space]
    · cases nextSpace : isspace next <;> cases marks : mark first <;> simp [begins,SameWords,space,nextSpace,marks,clear]
    · cases nextSpace : isspace next <;> cases marks : mark first <;> cases nextMarks : mark next <;> cases thirdSpace : isspace third <;>
        simp [begins,SameWords,space,nextSpace,marks,nextMarks,thirdSpace,clear]

def MyWC.words (s : MyWC) : Words := ⟨s.wordCount,s.inWord,s.lastch⟩

theorem MyWC.step_byte (s : MyWC) (ch : Int) : (s.step ch).byteCount = countByte s.byteCount ch := by
  simp only [step,countByte]
  split <;> split <;> first | rfl | (split <;> rfl)

theorem MyWC.step_line (s : MyWC) (ch : Int) : (s.step ch).lineCount = countLine s.lineCount ch := by
  simp only [step,countLine]
  split <;> split <;> first | rfl | (split <;> rfl)

theorem MyWC.step_words (s : MyWC) (ch : Int) : (s.step ch).words = s.words.step ch := by
  obtain ⟨word,byte,line,inside,lastch⟩ := s
  unfold step Words.step words
  by_cases newline : ch = 10
  · simp only [if_pos newline]
    cases isspace ch || mark lastch <;> cases inside <;> rfl
  · simp only [if_neg newline]
    cases isspace ch || mark lastch <;> cases inside <;> rfl

-- The single pass does what the three loops do.
theorem MyWC.read (s : MyWC) (text : List Int) : (text.foldl step s).byteCount = text.foldl countByte s.byteCount ∧
    (text.foldl step s).lineCount = text.foldl countLine s.lineCount ∧ (text.foldl step s).words = text.foldl Words.step s.words := by
  induction text generalizing s with
  | nil => exact ⟨rfl,rfl,rfl⟩
  | cons ch rest ih =>
    rw [List.foldl_cons,List.foldl_cons,List.foldl_cons,List.foldl_cons,← step_byte,← step_line,← step_words]
    exact ih (s.step ch)

theorem countByte_read (text : List Int) (count : Int) : text.foldl countByte (toInt count) = toInt (count + text.length) := by
  induction text generalizing count with
  | nil => simp
  | cons ch rest ih =>
    rw [List.foldl_cons,countByte,toInt_add,ih,List.length_cons]
    congr 1
    omega

theorem countLine_read (text : List Int) (count : Int) : text.foldl countLine (toInt count) = toInt (count + text.count 10) := by
  induction text generalizing count with
  | nil => simp
  | cons ch rest ih =>
    rw [List.foldl_cons,countLine,List.count_cons]
    by_cases newline : ch = 10
    · subst newline
      rw [if_pos rfl,toInt_add,ih,beq_self_eq_true,if_pos rfl]
      congr 1
      omega
    · rw [if_neg newline,ih,if_neg (by simpa using newline)]
      rfl

theorem Words.read (text : List Int) (count : Int) (inWord : Bool) (lastch : Int) :
    (text.foldl step ⟨toInt count,inWord,lastch⟩).wordCount = toInt (count + begins inWord lastch text) := by
  induction text generalizing count inWord lastch with
  | nil => simp [begins]
  | cons ch rest ih =>
    rw [List.foldl_cons,begins,step]
    dsimp only
    cases isspace ch || mark lastch with
    | true => exact ih count false ch
    | false =>
      cases inWord with
      | true =>
        have later := ih count true ch
        simpa using later
      | false =>
        have later := ih (count + 1) true ch
        rw [← toInt_add] at later
        simpa [Int.add_assoc] using later

theorem byteCount_read (file : List UInt8) : byteCount file = toInt file.length := by
  have read := countByte_read (file.map fgetc) 0
  rw [List.length_map,Int.zero_add] at read
  exact read

theorem lineCount_read (first : UInt8) (rest : List UInt8) : lineCount (first :: rest) = toInt (1 + newlines rest) := by
  have read := countLine_read (rest.map fgetc) 1
  rw [newlines_read] at read
  exact read

theorem wordCount_read (lastch : Int) (file : List UInt8) : wordCount lastch file = toInt (begins false lastch (file.map fgetc)) := by
  have read := Words.read (file.map fgetc) 0 false lastch
  rw [Int.zero_add] at read
  exact read

theorem myWC_read (lastch : Int) (first : UInt8) (rest : List UInt8) :
    (myWC lastch (first :: rest)).byteCount = byteCount (first :: rest) ∧
    (myWC lastch (first :: rest)).lineCount = lineCount (first :: rest) ∧
    (myWC lastch (first :: rest)).wordCount = wordCount lastch rest := by
  obtain ⟨bytes,lines,words⟩ := MyWC.read ⟨0,1,1,false,lastch⟩ (rest.map fgetc)
  exact ⟨bytes,lines,congrArg Words.wordCount words⟩

theorem toInt_injective (low : 0 ≤ m) (high : m ≤ intMax) (low' : 0 ≤ n) (high' : n ≤ intMax) : toInt m = toInt n ↔ m = n := by
  rw [toInt_of_nonneg (by omega) high,toInt_of_nonneg (by omega) high']

theorem byteCount_exact (file : List UInt8) : byteCount file = file.length ↔ (file.length : Int) ≤ intMax := by
  rw [byteCount_read]
  exact toInt_exact (Int.natCast_nonneg _)

-- The first character is counted as a line, but not looked at.
theorem lineCount_exact {first : UInt8} (few : ((first :: rest).length : Int) ≤ intMax) :
    lineCount (first :: rest) = newlines (first :: rest) + 1 ↔ (first :: rest).head? ≠ some 10 := by
  have short : newlines rest ≤ rest.length := List.count_le_length
  have number : newlines (first :: rest) = newlines rest + if first = 10 then 1 else 0 := by
    rw [newlines,List.count_cons]
    simp [newlines]
  have head : (first :: rest).head? ≠ some 10 ↔ ¬ first = 10 := by simp
  rw [List.length_cons] at few
  rw [lineCount_read,toInt_of_nonneg (by omega) (by omega),head]
  by_cases newline : first = 10
  · rw [if_pos newline] at number
    exact ⟨fun same => by omega,fun other => absurd newline other⟩
  · rw [if_neg newline] at number
    exact ⟨fun _ => newline,fun _ => by omega⟩

theorem wordCount_exact {first : UInt8} (clear : mark lastch = false) (clear' : mark lastch' = false)
    (few : ((first :: rest).length : Int) ≤ intMax) :
    (myWC lastch (first :: rest)).wordCount = wordCount lastch' (first :: rest) ↔ SameWords ((first :: rest).map fgetc) := by
  have mine := begins_length false lastch (rest.map fgetc)
  have its := begins_length false lastch' ((first :: rest).map fgetc)
  rw [List.length_map] at mine its
  rw [List.length_cons] at its few
  rw [(myWC_read lastch first rest).2.2,wordCount_read,wordCount_read,toInt_injective (by omega) (by omega) (by omega) (by omega),Int.natCast_inj]
  exact begins_same clear clear' (fgetc first) (rest.map fgetc)

theorem counters_exact (clear : mark lastch = false) (clear' : mark lastch' = false) (file : List UInt8) :
    Agree lastch lastch' file ↔ Fair file := by
  cases file with
  | nil =>
    refine ⟨fun _ => ⟨by decide,by decide,trivial⟩,fun _ => ⟨rfl,rfl,rfl,rfl,fun some => absurd rfl some⟩⟩
  | cons first rest =>
    constructor
    · intro agree
      have few := (byteCount_exact (first :: rest)).mp agree.length
      refine ⟨few,?_,?_⟩
      · exact (lineCount_exact few).mp (agree.newlines (List.cons_ne_nil _ _))
      · exact (wordCount_exact clear clear' few).mp agree.words
    · intro fair
      obtain ⟨bytes,lines,_⟩ := myWC_read lastch first rest
      refine ⟨bytes,lines,?_,?_,?_⟩
      · exact (wordCount_exact clear clear' fair.few).mpr fair.words
      · exact (byteCount_exact (first :: rest)).mpr fair.few
      · intro _
        exact (lineCount_exact fair.few).mpr fair.first

theorem letters_agree : mark 0 = false ∧ Agree 0 0 [97,98,32,99] :=
  ⟨by decide,(counters_exact (by decide) (by decide) [97,98,32,99]).mpr ⟨by decide,by decide,.inr ⟨by decide,.inl (by decide)⟩⟩⟩

-- A word of one letter, and a text that begins with a newline.
theorem letter_differs : (myWC 0 [97,32]).wordCount = 0 ∧ wordCount 0 [97,32] = 1 ∧ lineCount [10] = 1 ∧ newlines [10] + 1 = 2 ∧
    ¬ ∀ lastch lastch' file, mark lastch = false → mark lastch' = false → Agree lastch lastch' file := by
  refine ⟨by decide,by decide,by decide,by decide,fun all => ?_⟩
  have words : (myWC 0 [97,32]).wordCount = wordCount 0 [97,32] := (all 0 0 [97,32] (by decide) (by decide)).words
  exact absurd words (by decide)

end LinuxCoding.TextStat
