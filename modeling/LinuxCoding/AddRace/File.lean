import LinuxCoding.Library.CInt
import LinuxCoding.Library.Decimal
import LinuxCoding.Library.Stdio

-- The number in the file of thread/posix/add_race.c and of IPC/xsi/sem/add_race.c: its first
-- line is read, and a new one is written over the beginning of the file.
namespace LinuxCoding.AddRace
open CInt Decimal Stdio

def bufSize : Nat := 1024

def firstLine (file : List UInt8) : List UInt8 := file.takeWhile (· ≠ newline)

-- linebuf after fgets from the beginning of the file, which leaves an uninitialised buffer
-- as it is when the file is empty.
def fetch (stack file : List UInt8) : List UInt8 :=
  match fgets bufSize file with
  | none => stack
  | some (linebuf,_) => linebuf

def atoi (linebuf : List UInt8) : Int := toInt (parse linebuf)

-- fprintf(fp, "%d\n", atoi(linebuf)+1)
def reply (linebuf : List UInt8) : List UInt8 := print (toInt (atoi linebuf + 1)) ++ [newline]

-- The bytes behind the new ones stay.
def overwrite (file text : List UInt8) : List UInt8 := text ++ file.drop text.length

theorem digits_newline (bytes : List UInt8) (all : ∀ byte ∈ bytes, isDigit byte = true) : newline ∉ bytes := by
  intro member
  have digit := all newline member
  cases digit

theorem print_newline (n : Int) : newline ∉ print n := by
  have plain := digits_newline _ (digits_isDigit n.natAbs)
  unfold print
  split
  · intro member
    rcases List.mem_cons.mp member with same | later
    · cases same
    · exact plain later
  · exact plain

theorem print_nonempty (n : Int) : print n ≠ [] := by
  unfold print
  split
  · nofun
  · exact digits_nonempty _

theorem print_short (low : intMin ≤ n) (high : n ≤ intMax) : (print n).length < bufSize - 1 := by
  simp only [intMin,intMax] at low high
  have short := (digits_length (n := n.natAbs) 10 (by decide)).mpr (by omega)
  unfold print bufSize
  split
  · rw [List.length_cons]
    omega
  · omega

theorem firstLine_print (n : Int) (rest : List UInt8) : firstLine (print n ++ newline :: rest) = print n := by
  have plain : ∀ byte ∈ print n, decide (byte ≠ newline) = true := by
    intro byte member
    apply decide_eq_true
    intro same
    exact print_newline n (same ▸ member)
  rw [firstLine,List.takeWhile_append_of_pos plain]
  simp

-- Old bytes that are left do not touch the first line.
theorem overwrite_first (file : List UInt8) (n : Int) : firstLine (overwrite file (print n ++ [newline])) = print n := by
  rw [overwrite,List.append_assoc]
  exact firstLine_print n _

theorem file_cases (file : List UInt8) : newline ∉ firstLine file ∧ (file = firstLine file ∨ ∃ rest, file = firstLine file ++ newline :: rest) := by
  constructor
  · intro member
    have other := List.mem_takeWhile_imp member
    simp at other
  · have split := List.takeWhile_append_dropWhile (p := fun byte => decide (byte ≠ newline)) (l := file)
    cases left : file.dropWhile (fun byte => decide (byte ≠ newline)) with
    | nil =>
      rw [left,List.append_nil] at split
      exact .inl split.symm
    | cons byte rest =>
      have ends : byte = newline := by
        have stops := List.head?_dropWhile_not (fun byte => decide (byte ≠ newline)) file
        rw [left] at stops
        simpa using stops
      rw [left,ends] at split
      exact .inr ⟨rest,split.symm⟩

theorem fetch_short (short : (firstLine file).length < bufSize - 1) (some : firstLine file ≠ []) (stack : List UInt8) :
    ∃ rest, fetch stack file = firstLine file ++ rest ∧ ∀ byte ∈ rest.head?, isDigit byte = false := by
  obtain ⟨absent,whole | ⟨rest,split⟩⟩ := file_cases file
  · refine ⟨[],?_,nofun⟩
    have missing := line_missing absent short
    rw [← whole] at missing some
    unfold fetch fgets
    rw [missing,List.append_nil,← whole]
    simp [some]
  · refine ⟨[newline],?_,?_⟩
    · have found := line_newline absent short rest
      rw [← split] at found
      unfold fetch fgets
      rw [found]
    · intro byte member
      cases member
      rfl

theorem fetch_long (long : bufSize - 1 ≤ (firstLine file).length) (stack : List UInt8) : fetch stack file = (firstLine file).take (bufSize - 1) := by
  obtain ⟨absent,_⟩ := file_cases file
  have prefixed : (firstLine file).take (bufSize - 1) <+: file := (List.take_prefix _ _).trans (List.takeWhile_prefix _)
  obtain ⟨rest,split⟩ := prefixed
  have plain : newline ∉ (firstLine file).take (bufSize - 1) := fun member => absent (List.mem_of_mem_take member)
  have full := line_full plain rest
  rw [split,List.length_take_of_le long] at full
  unfold fetch fgets
  rw [full]

theorem fetch_int (first : firstLine file = print n) (low : intMin ≤ n) (high : n ≤ intMax) (stack : List UInt8) : parse (fetch stack file) = n := by
  have short := print_short low high
  rw [← first] at short
  obtain ⟨rest,fetched,ends⟩ := fetch_short short (by rw [first]; exact print_nonempty n) stack
  rw [fetched,first]
  exact parse_print n rest ends

theorem reply_int (read : parse linebuf = n) (low : intMin ≤ n) (high : n + 1 ≤ intMax) : reply linebuf = print (n + 1) ++ [newline] := by
  have above : intMin ≤ n + 1 := Int.le_trans low (Int.le_add_one (Int.le_refl n))
  rw [reply,atoi,read,toInt_add,toInt_inRange above high]

-- A number that is cut off at the size of the buffer is out of range all the same.
theorem fetch_number (first : firstLine file = print n) (low : intMin ≤ parse (fetch stack file)) (high : parse (fetch stack file) ≤ intMax) :
    parse (fetch stack file) = n := by
  by_cases short : (firstLine file).length < bufSize - 1
  · obtain ⟨rest,fetched,ends⟩ := fetch_short short (by rw [first]; exact print_nonempty n) stack
    rw [fetched,first]
    exact parse_print n rest ends
  · rw [fetch_long (Nat.le_of_not_lt short),first] at low high ⊢
    rw [first] at short
    by_cases whole : (print n).length = bufSize - 1
    · have read := parse_print n [] nofun
      rw [List.append_nil] at read
      rw [← whole,List.take_length,read]
    · have large := parse_take (k := bufSize - 1) n (by decide) (by omega)
      have power : 10 ^ 10 ≤ 10 ^ (bufSize - 1 - 2) := Nat.pow_le_pow_right (by decide) (by decide)
      simp only [intMin,intMax] at low high
      omega

end LinuxCoding.AddRace
