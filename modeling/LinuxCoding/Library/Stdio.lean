import Mathlib.Data.List.Basic

-- fgets of the C library: a line of a stream, cut off at the size of the buffer.
namespace LinuxCoding.Stdio

def newline : UInt8 := 10

-- The bytes that have come so far hold a whole line, or fill the buffer.
def line : Nat → List UInt8 → Option (List UInt8 × List UInt8)
  | 0,bytes => some ([],bytes)
  | _ + 1,[] => none
  | limit + 1,byte :: bytes =>
    if byte = newline then some ([byte],bytes) else (line limit bytes).map (fun (text,rest) => (byte :: text,rest))

-- The same for a stream of which no more will come.
def fgets (size : Nat) (bytes : List UInt8) : Option (List UInt8 × List UInt8) :=
  match line (size - 1) bytes with
  | some found => some found
  | none => if bytes = [] then none else some (bytes,[])

theorem line_join (found : line limit bytes = some (text,rest)) : text ++ rest = bytes := by
  induction limit,bytes using line.induct generalizing text rest with
  | case1 bytes =>
    cases found
    rfl
  | case2 => cases found
  | case3 limit bytes =>
    rw [line,if_pos rfl] at found
    cases found
    rfl
  | case4 limit byte bytes other ih =>
    rw [line,if_neg other] at found
    obtain ⟨⟨more,left⟩,shorter,same⟩ := Option.map_eq_some_iff.mp found
    cases same
    rw [List.cons_append,ih shorter]

theorem line_append (found : line limit bytes = some (text,rest)) (more : List UInt8) : line limit (bytes ++ more) = some (text,rest ++ more) := by
  induction limit,bytes using line.induct generalizing text rest with
  | case1 bytes =>
    cases found
    simp [line]
  | case2 => cases found
  | case3 limit bytes =>
    rw [line,if_pos rfl] at found
    cases found
    rw [List.cons_append,line,if_pos rfl]
  | case4 limit byte bytes other ih =>
    rw [line,if_neg other] at found
    obtain ⟨⟨text,left⟩,shorter,same⟩ := Option.map_eq_some_iff.mp found
    cases same
    rw [List.cons_append,line,if_neg other,ih shorter]
    rfl

-- A line is found in nothing shorter than itself.
theorem line_text (found : line limit bytes = some (text,rest)) : line limit text = some (text,[]) := by
  induction limit,bytes using line.induct generalizing text rest with
  | case1 bytes =>
    cases found
    rfl
  | case2 => cases found
  | case3 limit bytes =>
    rw [line,if_pos rfl] at found
    cases found
    rw [line,if_pos rfl]
  | case4 limit byte bytes other ih =>
    rw [line,if_neg other] at found
    obtain ⟨⟨more,left⟩,shorter,same⟩ := Option.map_eq_some_iff.mp found
    cases same
    rw [line,if_neg other,ih shorter]
    rfl

theorem line_shorter (found : line limit text = some (text,[])) (split : text = early ++ late) (more : late ≠ []) : line limit early = none := by
  cases earlier : line limit early with
  | none => rfl
  | some result =>
    obtain ⟨first,rest⟩ := result
    have whole := line_append earlier late
    rw [← split,found] at whole
    have parts := line_join earlier
    obtain ⟨_,nothing⟩ : text = first ∧ rest ++ late = [] := by simpa [eq_comm] using whole
    exact absurd (List.append_eq_nil_iff.mp nothing).2 more

-- Once it is found, all of it has come.
theorem line_arrived (whole : line limit text = some (text,[])) (split : text = early ++ late) (found : line limit early = some (buffer,rest)) :
    late = [] ∧ early = text ∧ buffer = text ∧ rest = [] := by
  have all : late = [] := by
    by_contra more
    rw [line_shorter whole split more] at found
    cases found
  subst all
  rw [List.append_nil] at split
  subst split
  have same : (text,[]) = (buffer,rest) := Option.some.inj (whole.symm.trans found)
  cases same
  exact ⟨rfl,rfl,rfl,rfl⟩

theorem line_none (found : line limit bytes = none) : newline ∉ bytes ∧ bytes.length < limit := by
  induction limit,bytes using line.induct with
  | case1 => cases found
  | case2 => simp
  | case3 limit bytes =>
    rw [line,if_pos rfl] at found
    cases found
  | case4 limit byte bytes other ih =>
    rw [line,if_neg other] at found
    obtain ⟨absent,short⟩ := ih (Option.map_eq_none_iff.mp found)
    constructor
    · simp [absent,Ne.symm other]
    · simp
      omega

-- The line of a text that has no newline, before a newline and where it does not fit.
theorem line_newline (absent : newline ∉ text) (fits : text.length < limit) (rest : List UInt8) :
    line limit (text ++ newline :: rest) = some (text ++ [newline],rest) := by
  induction text generalizing limit with
  | nil =>
    obtain ⟨less,rfl⟩ := Nat.exists_eq_add_of_lt fits
    rw [List.nil_append,line,if_pos rfl]
    rfl
  | cons byte text ih =>
    obtain ⟨less,rfl⟩ := Nat.exists_eq_add_of_lt fits
    have other : byte ≠ newline := fun same => absent (same ▸ List.mem_cons_self)
    rw [List.cons_append,line,if_neg other,ih (fun member => absent (List.mem_cons_of_mem _ member)) (by rw [List.length_cons]; omega)]
    rfl

theorem line_full (absent : newline ∉ text) (rest : List UInt8) : line text.length (text ++ rest) = some (text,rest) := by
  induction text with
  | nil => rfl
  | cons byte text ih =>
    have other : byte ≠ newline := fun same => absent (same ▸ List.mem_cons_self)
    rw [List.length_cons,List.cons_append,line,if_neg other,ih (fun member => absent (List.mem_cons_of_mem _ member))]
    rfl

theorem line_missing (absent : newline ∉ text) (fits : text.length < limit) : line limit text = none := by
  induction text generalizing limit with
  | nil =>
    obtain ⟨less,rfl⟩ := Nat.exists_eq_add_of_lt fits
    rfl
  | cons byte text ih =>
    obtain ⟨less,rfl⟩ := Nat.exists_eq_add_of_lt fits
    have other : byte ≠ newline := fun same => absent (same ▸ List.mem_cons_self)
    rw [line,if_neg other,ih (fun member => absent (List.mem_cons_of_mem _ member)) (by rw [List.length_cons]; omega)]
    rfl

-- A whole line ends with its newline or fills the buffer.
theorem line_ends (found : line limit text = some (text,[])) : text.getLast? = some newline ∨ text.length = limit := by
  induction limit,text using line.induct with
  | case1 text =>
    obtain ⟨rfl,_⟩ : text = [] ∧ text = [] := by simpa [line,eq_comm] using found
    exact .inr rfl
  | case2 => cases found
  | case3 limit text =>
    rw [line,if_pos rfl] at found
    obtain rfl : text = [] := by simpa using found
    exact .inl rfl
  | case4 limit byte text other ih =>
    rw [line,if_neg other] at found
    obtain ⟨⟨more,left⟩,shorter,same⟩ := Option.map_eq_some_iff.mp found
    cases same
    rcases ih shorter with last | full
    · left
      rw [List.getLast?_cons,last]
      rfl
    · right
      rw [List.length_cons,full]

theorem line_nonempty (positive : 0 < limit) (found : line limit bytes = some (text,rest)) : text ≠ [] := by
  cases limit with
  | zero => cases positive
  | succ limit =>
    cases bytes with
    | nil => cases found
    | cons byte bytes =>
      rw [line] at found
      split at found
      · cases found
        nofun
      · obtain ⟨⟨more,left⟩,_,same⟩ := Option.map_eq_some_iff.mp found
        cases same
        nofun

-- fgets returns a whole line, or all that is left of the stream.
theorem fgets_cases (found : fgets (limit + 1) bytes = some (text,rest)) :
    line limit bytes = some (text,rest) ∨ line limit bytes = none ∧ text = bytes ∧ rest = [] ∧ bytes ≠ [] := by
  unfold fgets at found
  rw [Nat.add_sub_cancel] at found
  split at found
  · rename_i here
    cases found
    exact .inl here
  · rename_i unfound
    split at found
    · cases found
    · rename_i nonempty
      cases found
      exact .inr ⟨unfound,rfl,rfl,nonempty⟩

theorem fgets_join (positive : 0 < limit) (found : fgets (limit + 1) bytes = some (text,rest)) : text ++ rest = bytes ∧ text ≠ [] := by
  rcases fgets_cases found with here | ⟨_,rfl,rfl,nonempty⟩
  · exact ⟨line_join here,line_nonempty positive here⟩
  · exact ⟨List.append_nil _,nonempty⟩

theorem fgets_whole (found : fgets (limit + 1) bytes = some (text,rest)) :
    line limit text = some (text,[]) ↔ text.getLast? = some newline ∨ text.length = limit := by
  constructor
  · exact line_ends
  · intro ends
    rcases fgets_cases found with here | ⟨unfound,rfl,_,_⟩
    · exact line_text here
    · obtain ⟨absent,short⟩ := line_none unfound
      rcases ends with last | full
      · exact absurd (List.mem_of_getLast? last) absent
      · omega

-- Any other text is not even the beginning of a line that is whole.
theorem fgets_stalls (found : fgets (limit + 1) bytes = some (text,rest)) (split : text = early ++ late)
    (cut : late ≠ [] ∨ line limit text ≠ some (text,[])) : line limit early = none := by
  by_cases whole : line limit text = some (text,[])
  · exact line_shorter whole split (cut.resolve_right (fun other => other whole))
  · rcases fgets_cases found with here | ⟨unfound,rfl,_,_⟩
    · exact absurd (line_text here) whole
    · cases earlier : line limit early with
      | none => rfl
      | some result =>
        have longer := line_append earlier late
        rw [← split,unfound] at longer
        cases longer

end LinuxCoding.Stdio
