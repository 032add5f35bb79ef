import LinuxCoding.Dgram.Ebasic

-- IPC/socket/dgram/ebasic/rcver.c: one block receives the datagrams of every sender.
namespace LinuxCoding.Dgram
open Bytes

-- The passes of the loop: each datagram is laid over what the ones before it left.
def receive (fresh : List UInt8) (history : List (List UInt8)) : List UInt8 :=
  history.foldl (fun buffer datagram => recvfrom rcvSize datagram buffer) fresh

-- What is printed of the last datagram. The string may run on into the heap behind the
-- block, which holds what the program has put there until then.
def record (order : Order) (fresh : List UInt8) (heap : List (List UInt8) → List UInt8)
    (history : List (List UInt8)) (last : List UInt8) : Scores :=
  rcver order (receive fresh (history ++ [last]) ++ heap (history ++ [last]))

def Independent (order : Order) (last : List UInt8) : Prop :=
  ∀ fresh heap, fresh.length = rcvSize →
    ∀ history other, record order fresh heap history last = record order fresh heap other last

-- Both scores and the NUL of the name are among the bytes received.
def Whole (last : List UInt8) : Prop := 0 ∈ (last.take rcvSize).drop 8

theorem receive_last (fresh : List UInt8) (history : List (List UInt8)) (last : List UInt8) :
    receive fresh (history ++ [last]) = last.take rcvSize ++ (receive fresh history).drop (last.take rcvSize).length := by
  simp only [receive,List.foldl_append,List.foldl_cons,List.foldl_nil,recvfrom]

theorem rcver_whole (order : Order) {kept : List UInt8} (rest : List UInt8) (whole : 0 ∈ kept.drop 8) :
    rcver order (kept ++ rest) = rcver order kept := by
  have long : 8 ≤ kept.length := by
    by_contra short
    rw [List.drop_of_length_le (by omega)] at whole
    cases whole
  have third : (kept ++ rest).drop 8 = kept.drop 8 ++ rest := List.drop_append_of_le_length long
  have first : (kept ++ rest).take 4 = kept.take 4 := List.take_append_of_le_length (by omega)
  have second : ((kept ++ rest).drop 4).take 4 = (kept.drop 4).take 4 := by
    rw [List.drop_append_of_le_length (by omega),List.take_append_of_le_length]
    rw [List.length_drop]
    omega
  rw [rcver,rcver,third,first,second,cstr_ends _ _ whole]

theorem whole_independent (order : Order) (whole : Whole last) : Independent order last := by
  intro fresh heap _ history other
  simp only [record,receive_last,List.append_assoc]
  rw [rcver_whole order _ whole,rcver_whole order _ whole]

-- A name without its NUL ends in a block that is still zero, and goes on over the letters
-- that a full datagram has left.
def letters : List UInt8 := List.replicate rcvSize 65
def zeros : List UInt8 := List.replicate rcvSize 0
def lettersBehind (history : List (List UInt8)) : List UInt8 := List.replicate (history.length - 1) 65

theorem name_unended (order : Order) (rest : List UInt8) (unended : 0 ∉ kept.drop 8) :
    (rcver order (kept ++ rest)).name.val = kept.drop 8 ++ (cstr (rest.drop (8 - kept.length))).val := by
  change (cstr ((kept ++ rest).drop 8)).val = _
  rw [List.drop_append,cstr_goes_on _ _ unended]

theorem name_zeros (order : Order) (last : List UInt8) (unended : ¬ Whole last) :
    (record order zeros lettersBehind [] last).name.val.length = (last.take rcvSize).length - 8 := by
  have nothing (n : Nat) : (cstr (List.replicate n 0)).val = [] := by cases n <;> simp [cstr,List.replicate_succ]
  simp only [record,receive_last,List.append_assoc]
  rw [name_unended order _ unended]
  simp [receive,zeros,lettersBehind,nothing]

theorem name_letters (order : Order) (last : List UInt8) (unended : ¬ Whole last) :
    (record order zeros lettersBehind [letters] last).name.val.length = rcvSize - 7 := by
  have kept : (last.take rcvSize).length ≤ rcvSize := List.length_take_le _ _
  have left : receive zeros [letters] = letters := by simp [receive,recvfrom,letters,zeros]
  have all (n : Nat) : (cstr (List.replicate n 65)).val = List.replicate n 65 := congrArg Subtype.val (cstr_val ⟨List.replicate n 65,by simp⟩)
  have behind : lettersBehind ([letters] ++ [last]) = List.replicate 1 65 := rfl
  simp only [record,receive_last,List.append_assoc,left,behind]
  rw [name_unended order _ unended,letters,List.drop_replicate,List.replicate_append_replicate,List.drop_replicate,all]
  rw [List.length_append,List.length_drop,List.length_replicate]
  simp only [rcvSize,sizeofMsgSt,nameMax] at kept ⊢
  omega

theorem independent_whole (order : Order) (independent : Independent order last) : Whole last := by
  by_contra unended
  have same := independent zeros lettersBehind List.length_replicate [] [letters]
  have short := name_zeros order last unended
  rw [same,name_letters order last unended] at short
  have kept : (last.take rcvSize).length ≤ rcvSize := List.length_take_le _ _
  simp only [rcvSize,sizeofMsgSt,nameMax] at short kept
  omega

theorem independent_exact (order : Order) (last : List UInt8) : Independent order last ↔ Whole last :=
  ⟨independent_whole order,whole_independent order⟩

-- An empty datagram is printed as the one before it.
theorem empty_repeats : ¬ Independent .little [] := by
  intro independent
  have same := independent zeros lettersBehind List.length_replicate [[0,0,0,100,0,0,0,99,65,0]] [[0,0,0,1,0,0,0,2,66,0]]
  have math := congrArg Scores.math same
  exact absurd math (by decide +kernel)

end LinuxCoding.Dgram
