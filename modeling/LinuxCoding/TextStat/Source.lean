import LinuxCoding.Library.CInt

-- homework/IO_std/cSourceStatist.c: the lines of a C source, counted character by character.
namespace LinuxCoding.TextStat
open CInt

-- What fgetc returns for a byte, and isspace in the C locale.
def fgetc (byte : UInt8) : Int := byte.toNat
def isspace (ch : Int) : Bool := ch = 32 ∨ 9 ≤ ch ∧ ch ≤ 13

inductive Counter where
  | total
  | comment
  | space
  deriving DecidableEq

-- The counters and flags of main. `past` and `now` keep which counters have been
-- increased for each line read and for the one being read; the program does not have them.
structure State where
  count : Counter → Int
  isCommentType1 : Bool
  isCommentType2 : Bool
  isSpace : Bool
  lastch : Int
  past : List (List Counter)
  now : List Counter

def State.add (s : State) (c : Counter) : State :=
  {s with count := Function.update s.count c (toInt (s.count c + 1)), now := s.now ++ [c]}

-- The counting at the end of a line, which stands twice in main.
def State.lineEnd (s : State) : State :=
  let s := s.add .total
  let s := if s.isCommentType1 || s.isCommentType2 then s.add .comment else s
  if s.isSpace then s.add .space else s

def step (s : State) (ch : Int) : State :=
  let s := if !s.isCommentType1 && s.lastch = 47 && ch = 47 then {s with isCommentType1 := true, isSpace := false} else s
  let s :=
    if !s.isCommentType2 && s.lastch = 47 && ch = 42 then {s with isCommentType2 := true, isSpace := false}
    else if !isspace ch || s.isCommentType1 then {s with isSpace := false}
    else s
  let s :=
    if ch = 10 then
      let s := s.lineEnd
      {s with isCommentType1 := false, isSpace := true, past := s.past ++ [s.now], now := []}
    else s
  let s := if s.lastch = 42 && ch = 47 then {s.add .comment with isCommentType2 := false} else s
  {s with lastch := ch}

-- After the loop.
def finish (s : State) : State := if s.lastch = 10 || !isspace s.lastch then s.lineEnd else s

def start (lastch : Int) : State := ⟨fun _ => 0,false,false,true,lastch,[],[]⟩

-- main, with what the uninitialised lastch happens to hold.
def main (lastch : Int) (file : List UInt8) : State := finish ((file.map fgetc).foldl step (start lastch))

def State.codeLineCount (s : State) : Int := toInt (toInt (s.count .total - s.count .comment) - s.count .space)

-- The counts one line contributes to: code_line_count is what remains of the total.
def code (line : List Counter) : Int := line.count .total - line.count .comment - line.count .space

def Single (line : List Counter) : Prop :=
  (code line,line.count .comment,line.count .space) = (1,0,0) ∨
  (code line,line.count .comment,line.count .space) = (0,1,0) ∨
  (code line,line.count .comment,line.count .space) = (0,0,1)

def newlines (file : List UInt8) : Nat := file.count 10

theorem newlines_read (file : List UInt8) : (file.map fgetc).count 10 = newlines file := by
  have injective : ∀ byte, fgetc byte = 10 ↔ byte = 10 := by
    intro byte
    rw [← UInt8.toNat_inj]
    change (byte.toNat : Int) = 10 ↔ byte.toNat = 10
    omega
  induction file with
  | nil => rfl
  | cons byte rest ih =>
    have same : (fgetc byte == 10) = (byte == 10) := by rw [Bool.eq_iff_iff,beq_iff_eq,beq_iff_eq,injective]
    rw [List.map_cons,List.count_cons,ih,newlines,newlines,List.count_cons,same]

structure Partition (file : List UInt8) (s : State) : Prop where
  lines : (s.past ++ [s.now]).length = newlines file + 1
  single : ∀ line ∈ s.past ++ [s.now], Single line
  within : s.count .comment + s.count .space ≤ s.count .total
  code : 0 ≤ s.codeLineCount
  total : s.count .total = newlines file + 1

end LinuxCoding.TextStat
