import Mathlib.Algebra.Ring.Nat
import Mathlib.Data.List.Range
import LinuxCoding.Library.CInt

-- mycat.c and slowcat.c: a file read in blocks, each of which may take several writes.
namespace LinuxCoding.Copying
open CInt

inductive Program where
  | mycat
  | slowcat
  deriving DecidableEq

-- BUFSIZE
def Program.bufsize : Program → Nat
  | .mycat => 1024
  | .slowcat => 10

-- What one read returns, and the results of the writes that follow it.
structure Block (size : Nat) where
  chunk : List UInt8
  rets : List Nat
  filled : chunk ≠ []
  fits : chunk.length ≤ size
  positive : ∀ ret ∈ rets, 0 < ret
  whole : rets.sum = chunk.length

-- A call of write, the length of the latest read and the bytes that were written.
structure Write where
  pos : Int
  len : Int
  latest : Nat
  bytes : List UInt8

-- The memory from buf on, the variables of main, and the calls of write.
structure State where
  memory : Int → UInt8
  pos : Int
  len : Int
  latest : Nat
  writes : List Write

def bytesAt (memory : Int → UInt8) (pos : Int) (n : Nat) : List UInt8 := (List.range n).map fun k : Nat => memory (pos + k)

def fill (memory : Int → UInt8) (chunk : List UInt8) (i : Int) : UInt8 :=
  if 0 ≤ i then chunk.getD i.toNat (memory i) else memory i

-- while(len > 0)
def drain (s : State) : List Nat → State
  | [] => s
  | ret :: rets =>
    if s.len > 0 then
      drain {s with
        pos := toInt (s.pos + ret)
        len := toInt (s.len - ret)
        writes := s.writes ++ [⟨s.pos,s.len,s.latest,bytesAt s.memory s.pos ret⟩]} rets
    else s

-- A pass of while(1); slowcat.c has pos = 0 in it.
def pass (program : Program) (s : State) (block : Block program.bufsize) : State :=
  let s := {s with memory := fill s.memory block.chunk, len := block.chunk.length, latest := block.chunk.length}
  let s := if program = .slowcat then {s with pos := 0} else s
  drain s block.rets

def start (memory : Int → UInt8) : State := ⟨memory,0,0,0,[]⟩

def run (program : Program) (memory : Int → UInt8) (blocks : List (Block program.bufsize)) : State := blocks.foldl (pass program) (start memory)

def content {size : Nat} (blocks : List (Block size)) : List UInt8 := (blocks.map Block.chunk).flatten

def output (writes : List Write) : List UInt8 := (writes.map Write.bytes).flatten

def Write.Inside (w : Write) : Prop := 0 ≤ w.pos ∧ w.pos + w.len ≤ w.latest

structure Copies (file : List UInt8) (s : State) : Prop where
  output : output s.writes = file
  inside : ∀ w ∈ s.writes, w.Inside

theorem bytesAt_append (memory : Int → UInt8) (pos : Int) (m n : Nat) :
    bytesAt memory pos (m + n) = bytesAt memory pos m ++ bytesAt memory (pos + m) n := by
  rw [bytesAt,List.range_add,List.map_append,List.map_map]
  congr 1
  apply List.map_congr_left
  intro k _
  simp [Int.add_assoc]

theorem fill_bytes (memory : Int → UInt8) (chunk : List UInt8) : bytesAt (fill memory chunk) 0 chunk.length = chunk := by
  apply List.ext_getElem
  · simp [bytesAt]
  · intro i low high
    simp [bytesAt,fill,List.getElem?_eq_getElem high]

-- The loop writes the rest of the block, from pos on.
structure Drained (s t : State) (n : Nat) : Prop where
  memory : t.memory = s.memory
  pos : t.pos = s.pos + n
  len : t.len = 0
  writes : ∃ more, t.writes = s.writes ++ more ∧ output more = bytesAt s.memory s.pos n ∧
    ∀ w ∈ more, s.pos ≤ w.pos ∧ w.pos + w.len = s.pos + n ∧ w.latest = s.latest

theorem drain_drained (s : State) (rets : List Nat) (positive : ∀ ret ∈ rets, 0 < ret) (whole : s.len = rets.sum) (low : 0 ≤ s.pos)
    (high : s.pos + rets.sum ≤ intMax) : Drained s (drain s rets) rets.sum := by
  induction rets generalizing s with
  | nil => exact ⟨rfl,by simp [drain],whole,[],by simp [drain],rfl,nofun⟩
  | cons ret rets ih =>
    have some := positive ret List.mem_cons_self
    rw [List.sum_cons] at whole high ⊢
    have first : toInt (s.pos + ret) = s.pos + ret := toInt_of_nonneg (by omega) (by omega)
    have rest : toInt (s.len - ret) = rets.sum := by
      rw [toInt_of_nonneg (by omega) (by omega)]
      omega
    rw [drain,if_pos (by omega),first,rest]
    obtain ⟨memory,pos,len,more,writes,output,inside⟩ := ih ⟨s.memory,s.pos + ret,rets.sum,s.latest,
      s.writes ++ [⟨s.pos,s.len,s.latest,bytesAt s.memory s.pos ret⟩]⟩
      (fun ret member => positive ret (List.mem_cons_of_mem _ member)) rfl (by dsimp only; omega) (by dsimp only; omega)
    refine ⟨memory,by rw [pos]; dsimp only; omega,len,_,by rw [writes,List.append_assoc],?_,?_⟩
    · rw [bytesAt_append,← output]
      rfl
    · intro w member
      rcases List.mem_cons.mp member with own | later
      · subst own
        exact ⟨Int.le_refl _,by dsimp only; omega,rfl⟩
      · obtain ⟨above,whole,latest⟩ := inside w later
        dsimp only at above whole latest
        exact ⟨by omega,by omega,latest⟩

-- The state in which the writes of a pass begin.
def State.filled (s : State) (program : Program) (chunk : List UInt8) : State :=
  ⟨fill s.memory chunk,if program = .slowcat then 0 else s.pos,chunk.length,chunk.length,s.writes⟩

theorem pass_filled (program : Program) (s : State) (block : Block program.bufsize) :
    pass program s block = drain (s.filled program block.chunk) block.rets := by
  cases program <;> rfl

-- What a pass does when it starts at the front of buf.
structure Passed (s t : State) (chunk : List UInt8) : Prop where
  pos : t.pos = chunk.length
  writes : ∃ more, t.writes = s.writes ++ more ∧ output more = chunk ∧ ∀ w ∈ more, w.Inside

theorem pass_front (program : Program) (s : State) (block : Block program.bufsize) (front : program = .slowcat ∨ s.pos = 0) :
    Passed s (pass program s block) block.chunk := by
  have reset : (s.filled program block.chunk).pos = 0 := by
    rcases front with slow | zero
    · exact if_pos slow
    · cases program
      · exact zero
      · rfl
  have small : (block.chunk.length : Int) ≤ 1024 := by
    have fits := block.fits
    cases program <;> simp only [Program.bufsize] at fits <;> omega
  have sum := block.whole
  obtain ⟨_,pos,_,more,writes,written,inside⟩ := drain_drained (s.filled program block.chunk) block.rets block.positive
    (by rw [sum]; rfl) (by omega) (by simp only [intMax]; omega)
  rw [sum,reset] at pos written inside
  rw [pass_filled]
  refine ⟨by omega,more,writes,?_,?_⟩
  · rw [written]
    exact fill_bytes s.memory block.chunk
  · intro w member
    obtain ⟨low,whole,latest⟩ := inside w member
    exact ⟨low,by rw [whole,latest]; exact Int.le_of_eq (Int.zero_add _)⟩

theorem Copies.pass (copies : Copies file s) (passed : Passed s t chunk) : Copies (file ++ chunk) t := by
  obtain ⟨_,more,writes,written,inside⟩ := passed
  refine ⟨?_,?_⟩
  · have before := copies.output
    simp only [Copying.output] at before written ⊢
    rw [writes,List.map_append,List.flatten_append,before,written]
  · rw [writes]
    exact List.forall_mem_append.mpr ⟨copies.inside,inside⟩

theorem start_copies (memory : Int → UInt8) : Copies [] (start memory) := ⟨rfl,nofun⟩

theorem slowcat_copies (blocks : List (Block Program.slowcat.bufsize)) (copies : Copies file s) :
    Copies (file ++ content blocks) (blocks.foldl (pass .slowcat) s) := by
  induction blocks generalizing file s with
  | nil => simpa [content] using copies
  | cons block rest ih =>
    have next := ih (copies.pass (pass_front .slowcat s block (.inl rfl)))
    rw [List.append_assoc] at next
    exact next

-- Writes are not taken back.
theorem drain_grows (s : State) (rets : List Nat) : s.writes <+: (drain s rets).writes := by
  induction rets generalizing s with
  | nil => exact List.prefix_refl _
  | cons ret rets ih =>
    rw [drain]
    split
    · have first : s.writes <+: s.writes ++ [⟨s.pos,s.len,s.latest,bytesAt s.memory s.pos ret⟩] := List.prefix_append _ _
      exact first.trans (ih ⟨s.memory,_,_,s.latest,s.writes ++ [⟨s.pos,s.len,s.latest,bytesAt s.memory s.pos ret⟩]⟩)
    · exact List.prefix_refl _

theorem pass_grows (program : Program) (s : State) (block : Block program.bufsize) : s.writes <+: (pass program s block).writes := by
  rw [pass_filled]
  exact drain_grows (s.filled program block.chunk) block.rets

theorem passes_grow (program : Program) (s : State) (blocks : List (Block program.bufsize)) : s.writes <+: (blocks.foldl (pass program) s).writes := by
  induction blocks generalizing s with
  | nil => exact List.prefix_refl _
  | cons block rest ih => exact (pass_grows program s block).trans (ih _)

theorem Block.returns (block : Block size) : ∃ ret rets, block.rets = ret :: rets := by
  cases returns : block.rets with
  | nil =>
    have whole := block.whole
    rw [returns] at whole
    exact absurd (List.eq_nil_of_length_eq_zero whole.symm) block.filled
  | cons ret rets => exact ⟨ret,rets,rfl⟩

-- With pos left where the block before ended, mycat.c writes what lies behind this one.
theorem mycat_outside (s : State) (block : Block Program.mycat.bufsize) (moved : 0 < s.pos) : ∃ w ∈ (pass .mycat s block).writes, ¬ w.Inside := by
  obtain ⟨ret,rets,returns⟩ := block.returns
  have some := List.length_pos_iff.mpr block.filled
  rw [pass_filled,returns,drain,if_pos (by change (0 : Int) < block.chunk.length; omega)]
  refine ⟨⟨s.pos,block.chunk.length,block.chunk.length,bytesAt (fill s.memory block.chunk) s.pos ret⟩,?_,?_⟩
  · apply (drain_grows ⟨_,_,_,_,_⟩ rets).subset
    exact List.mem_append_right _ (List.mem_singleton_self _)
  · intro ⟨_,inside⟩
    dsimp only at inside
    omega

theorem copies_exact (program : Program) (memory : Int → UInt8) (blocks : List (Block program.bufsize)) :
    Copies (content blocks) (run program memory blocks) ↔ program = .slowcat ∨ blocks.length ≤ 1 := by
  cases program with
  | slowcat => exact ⟨fun _ => .inl rfl,fun _ => slowcat_copies blocks (start_copies memory)⟩
  | mycat =>
    match blocks with
    | [] => exact ⟨fun _ => .inr (Nat.zero_le 1),fun _ => start_copies memory⟩
    | [block] =>
      refine ⟨fun _ => .inr (Nat.le_refl 1),fun _ => ?_⟩
      have copies := (start_copies memory).pass (pass_front .mycat (start memory) block (.inr rfl))
      simpa [content,run] using copies
    | first :: second :: rest =>
      constructor
      · intro copies
        have passed := pass_front .mycat (start memory) first (.inr rfl)
        have some := List.length_pos_iff.mpr first.filled
        obtain ⟨w,member,outside⟩ := mycat_outside (pass .mycat (start memory) first) second (by rw [passed.pos]; omega)
        have stays := (passes_grow .mycat (pass .mycat (pass .mycat (start memory) first) second) rest).subset member
        exact absurd (copies.inside w stays) outside
      · intro short
        rcases short with other | few
        · cases other
        · simp at few

theorem one_positive (ret : Nat) (member : ret ∈ [1]) : 0 < ret := by
  rw [List.mem_singleton.mp member]
  exact Nat.one_pos

theorem one_fits : 1 ≤ Program.mycat.bufsize := by decide

def letter (byte : UInt8) : Block Program.mycat.bufsize := ⟨[byte],[1],List.cons_ne_nil _ _,one_fits,one_positive,rfl⟩

theorem second_lost : output (run .mycat (fun _ => 0) [letter 97,letter 98]).writes = [97,0] ∧ content [letter 97,letter 98] = [97,98] ∧
    ¬ ∀ program memory blocks, Copies (content blocks) (run program memory blocks) := by
  refine ⟨by decide,by decide,fun all => ?_⟩
  have copied := (all .mycat (fun _ => 0) [letter 97,letter 98]).output
  exact absurd copied (by decide)

end LinuxCoding.Copying
