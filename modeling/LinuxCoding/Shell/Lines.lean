import LinuxCoding.Library.Bytes
import LinuxCoding.Library.Split

-- myshell.c: a line is split into words, which glob expands into the argument vector that
-- the child executes.
namespace LinuxCoding.Shell
open Bytes Split

abbrev Word : Type := List UInt8

-- DELIMIS
def delimis (byte : UInt8) : Bool := byte = 32 ∨ byte = 9 ∨ byte = 10

-- strsep cuts the line behind the first delimiter; the last token leaves a null pointer.
def strsep : Option Word → Option (Word × Option Word)
  | none => none
  | some line =>
    match line.dropWhile (fun byte => !delimis byte) with
    | [] => some (line,none)
    | _ :: rest => some (line.takeWhile (fun byte => !delimis byte),some rest)

-- glob stores the words that a pattern expands to, or appends them.
def glob (expand : Word → List Word) (tok : Word) (append : Bool) (globres : List Word) : List Word :=
  if append then globres ++ expand tok else expand tok

def size : Option Word → Nat
  | none => 0
  | some line => line.length + 1

theorem strsep_shorter (separated : strsep line = some (tok,rest)) : size rest < size line := by
  cases line with
  | none => cases separated
  | some line =>
    have suffix := (List.dropWhile_suffix (fun byte => !delimis byte) (l := line)).length_le
    simp only [strsep] at separated
    split at separated
    · cases separated
      exact Nat.succ_pos _
    · rename_i first more left
      cases separated
      rw [left,List.length_cons] at suffix
      simp only [size]
      omega

-- The loop of parse, with its i.
def parseFrom (expand : Word → List Word) (line : Option Word) (i : Bool) (globres : List Word) : List Word :=
  match _separated : strsep line with
  | none => globres
  | some (tok,rest) =>
    if tok = [] then parseFrom expand rest i globres
    else parseFrom expand rest true (glob expand tok i globres)
termination_by size line
decreasing_by
  all_goals exact strsep_shorter _separated

def parse (expand : Word → List Word) (line : List UInt8) (globres : List Word) : List Word :=
  parseFrom expand (some (cstr line).val) false globres

-- A line that getline reads, what glob expands a word to when it is parsed, and whether
-- fork succeeds.
structure Line where
  text : List UInt8
  expand : Word → List Word
  forks : Bool

-- main, with what cmd.globres holds: the lines for which a child runs, and the argument
-- vector it executes.
def run (globres : List Word) : List Line → List (List UInt8 × List Word)
  | [] => []
  | line :: rest =>
    let globres := parse line.expand line.text globres
    if line.forks then (line.text,globres) :: run globres rest else []

def tokens (text : List UInt8) : List Word := ((cstr text).val.splitOnP delimis).filter (· ≠ [])

def Line.vector (line : Line) : List Word := (tokens line.text).flatMap line.expand

-- The lines read as long as fork succeeds, without those that are blank.
def intended (lines : List Line) : List (List UInt8 × List Word) :=
  ((lines.takeWhile Line.forks).filter fun line => tokens line.text ≠ []).map fun line => (line.text,line.vector)

theorem parseFrom_none (expand : Word → List Word) (i : Bool) (globres : List Word) : parseFrom expand none i globres = globres := by
  rw [parseFrom]
  rfl

theorem parseFrom_some (expand : Word → List Word) (separated : strsep line = some (tok,rest)) (i : Bool) (globres : List Word) :
    parseFrom expand line i globres =
      if tok = [] then parseFrom expand rest i globres else parseFrom expand rest true (glob expand tok i globres) := by
  rw [parseFrom]
  split
  · rename_i none
    rw [separated] at none
    cases none
  · rename_i tok' rest' same
    cases separated.symm.trans same
    rfl

theorem strsep_last (inside : ∀ byte ∈ line, delimis byte = false) : strsep (some line) = some (line,none) := by
  have all : line.dropWhile (fun byte => !delimis byte) = [] := by
    rw [List.dropWhile_eq_nil_iff]
    intro byte member
    rw [inside byte member]
    rfl
  simp only [strsep,all]

theorem strsep_cut (inside : ∀ byte ∈ tok, delimis byte = false) (ends : delimis byte = true) (rest : Word) :
    strsep (some (tok ++ byte :: rest)) = some (tok,some rest) := by
  have goes : ∀ byte ∈ tok, (!delimis byte) = true := by
    intro byte member
    rw [inside byte member]
    rfl
  have dropped : (tok ++ byte :: rest).dropWhile (fun byte => !delimis byte) = byte :: rest := by
    rw [List.dropWhile_append_of_pos goes]
    simp [ends]
  have taken : (tok ++ byte :: rest).takeWhile (fun byte => !delimis byte) = tok := by
    rw [List.takeWhile_append_of_pos goes]
    simp [ends]
  simp only [strsep,dropped,taken]

-- What parse makes of the rest of a line: the words expand in their order, behind those
-- of the line that have been expanded, and without a word nothing changes.
def joined (expand : Word → List Word) (i : Bool) (globres words : List Word) : List Word :=
  if words = [] then globres else (if i then globres else []) ++ words.flatMap expand

theorem joined_cons (expand : Word → List Word) (i : Bool) (globres words : List Word) (tok : Word) :
    joined expand true (glob expand tok i globres) words = joined expand i globres (tok :: words) := by
  cases i <;> cases words <;> simp [joined,glob]

theorem parseFrom_joined (expand : Word → List Word) (line : Word) (i : Bool) (globres : List Word) :
    parseFrom expand (some line) i globres = joined expand i globres ((line.splitOnP delimis).filter (· ≠ [])) := by
  induction length : line.length using Nat.strongRecOn generalizing line i globres with
  | ind left ih =>
    rcases first_separator delimis line with inside | ⟨tok,byte,rest,same,inside,ends⟩
    · rw [parseFrom_some expand (strsep_last inside),parseFrom_none,parseFrom_none,List.splitOnP_eq_singleton inside]
      by_cases empty : line = []
      · rw [if_pos empty]
        simp [joined,empty]
      · rw [if_neg empty]
        cases i <;> simp [joined,glob,empty]
    · have shorter : rest.length < left := by
        rw [← length,same,List.length_append,List.length_cons]
        omega
      rw [same,parseFrom_some expand (strsep_cut inside ends rest),List.splitOnP_append_cons_of_forall_mem inside byte ends,
        ih rest.length shorter rest _ _ rfl,ih rest.length shorter rest _ _ rfl]
      by_cases empty : tok = []
      · rw [if_pos empty,List.filter_cons_of_neg (by simpa using empty)]
      · rw [if_neg empty,List.filter_cons_of_pos (by simpa using empty),joined_cons]

theorem parse_tokens (line : Line) (globres : List Word) :
    parse line.expand line.text globres = if tokens line.text = [] then globres else line.vector :=
  parseFrom_joined line.expand _ false globres

-- Every line for which a process is forked has a word.
def Worded (lines : List Line) : Prop := ∀ line ∈ lines.takeWhile Line.forks, tokens line.text ≠ []

theorem run_length (lines : List Line) (globres : List Word) : (run globres lines).length = (lines.takeWhile Line.forks).length := by
  induction lines generalizing globres with
  | nil => rfl
  | cons line rest ih =>
    cases forks : line.forks <;> simp [run,forks,ih]

def literal (text : List UInt8) : Line := ⟨text,fun tok => [tok],true⟩

end LinuxCoding.Shell
