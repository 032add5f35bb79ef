import LinuxCoding.Library.Rotation

-- What thread/posix/abcd_race.c and mytbf_multithread/abcd_race_notice.c share: the successor
-- of a thread, and the letter that it writes.
namespace LinuxCoding.AbcdRace
open Rotation

def next (i : Fin thrnum) : Fin thrnum := if wrapped : i.val + 1 = thrnum then ⟨0,i.pos⟩ else ⟨i.val + 1,Nat.lt_of_le_of_ne i.isLt wrapped⟩

-- write takes the first byte of the int 'a' + n.
def letter (n : Nat) : UInt8 := UInt8.ofNat (97 + n)

-- The output is a prefix of the letters of the threads in order, over and over.
def Repeats (thrnum : Nat) (output : List UInt8) : Prop := output = (List.range output.length).map (fun k => letter (k % thrnum))

theorem next_val (i : Fin thrnum) : (next i).val = (i.val + 1) % thrnum := by
  unfold next
  split
  · rename_i wrapped
    rw [wrapped,Nat.mod_self]
  · rename_i inside
    exact (Nat.mod_eq_of_lt (Nat.lt_of_le_of_ne i.isLt inside)).symm

theorem next_iterate (first : 0 < thrnum) (k : Nat) : (next^[k] ⟨0,first⟩).val = k % thrnum := by
  induction k with
  | zero => exact (Nat.zero_mod thrnum).symm
  | succ k ih => rw [Function.iterate_succ_apply',next_val,ih,Nat.mod_add_mod]

def turns (first : 0 < thrnum) (k : Nat) : List UInt8 := repetition (fun t : Fin thrnum => letter t) next ⟨0,first⟩ k

theorem turns_repeat (first : 0 < thrnum) (same : output = turns first output.length) : Repeats thrnum output := by
  unfold Repeats
  refine same.trans ?_
  unfold turns repetition
  apply List.map_congr_left
  intro k _
  change letter (next^[k] ⟨0,first⟩).val = letter (k % thrnum)
  rw [next_iterate]

-- Of two outputs one goes on where the other ends.
theorem turns_agree (first : 0 < thrnum) (left : output = turns first output.length) (right : other = turns first other.length) :
    output <+: other ∨ other <+: output := by
  rw [left,right]
  rcases Nat.le_total output.length other.length with shorter | longer
  · exact .inl (repetition_extends shorter)
  · exact .inr (repetition_extends longer)

end LinuxCoding.AbcdRace
