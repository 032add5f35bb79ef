import LinuxCoding.AddRace.File
import LinuxCoding.Library.Mutex
import LinuxCoding.Library.Total

-- What the two programs have in common: some have counted, and who has fetched the number
-- has the current one. The places are those of either program.
namespace LinuxCoding.AddRace
open CInt Decimal Mutex Stdio Total

section
variable {π : Type} {n : Nat} {counted : π → Bool} {fetched : π → Option (List UInt8)} {v : Int} {file : List UInt8} {pc : Fin n → π}

structure Counting (counted : π → Bool) (fetched : π → Option (List UInt8)) (v : Int) (file : List UInt8) (pc : Fin n → π) : Prop where
  line : firstLine file = print (v + tally counted pc)
  read : ∀ t linebuf, fetched (pc t) = some linebuf → parse linebuf = v + tally counted pc ∧ intMin ≤ parse linebuf ∧ parse linebuf + 1 ≤ intMax
  range : tally counted pc ≠ 0 → intMin ≤ v ∧ v + tally counted pc ≤ intMax

theorem Counting.start (none : ∀ t, counted (pc t) = false) (unread : ∀ t, fetched (pc t) = .none) (first : firstLine file = print v) :
    Counting counted fetched v file pc := by
  have zero : tally counted pc = 0 := tally_zero none
  refine ⟨?_,?_,fun some => absurd zero some⟩
  · rw [zero]
    simpa using first
  · intro t linebuf there
    rw [unread t] at there
    cases there

-- A step that counts nothing.
theorem Counting.goes (counting : Counting counted fetched v file pc) (place : pc t = q) (same : counted p = counted q)
    (read : ∀ linebuf, fetched p = some linebuf → parse linebuf = v + tally counted pc ∧ intMin ≤ parse linebuf ∧ parse linebuf + 1 ≤ intMax) :
    Counting counted fetched v file (Function.update pc t p) := by
  have kept : tally counted (Function.update pc t p) = tally counted pc := tally_same place same
  refine ⟨?_,?_,?_⟩
  · rw [kept]
    exact counting.line
  · rw [kept]
    exact update_all (P := fun _ q => ∀ linebuf, fetched q = some linebuf → parse linebuf = v + tally counted pc ∧ intMin ≤ parse linebuf ∧ parse linebuf + 1 ≤ intMax)
      counting.read read
  · rw [kept]
    exact counting.range

theorem Counting.writes (counting : Counting counted fetched v file pc) (place : pc t = q) (own : fetched q = some linebuf)
    (alone : ∀ u text, fetched (pc u) = some text → u = t) (old : counted q = false) (new : counted p = true) (unread : fetched p = none) :
    Counting counted fetched v (overwrite file (reply linebuf)) (Function.update pc t p) := by
  obtain ⟨read,low,high⟩ := counting.read t linebuf (by rw [place,own])
  have more : tally counted (Function.update pc t p) = tally counted pc + 1 := tally_more place old new
  have next : v + (tally counted (Function.update pc t p) : Nat) = parse linebuf + 1 := by omega
  refine ⟨?_,?_,?_⟩
  · rw [reply_int rfl low high,overwrite_first,next]
  · intro u text there
    by_cases same : u = t
    · subst same
      rw [Function.update_self,unread] at there
      cases there
    · rw [Function.update_of_ne same] at there
      exact absurd (alone u text there) same
  · intro _
    refine ⟨?_,by omega⟩
    by_cases some : tally counted pc = 0
    · omega
    · exact (counting.range some).1

theorem Counting.all (counting : Counting counted fetched v file pc) (all : ∀ t, counted (pc t) = true) : firstLine file = print (v + n) := by
  have line := counting.line
  rw [tally_full all,Fintype.card_fin] at line
  exact line

end

end LinuxCoding.AddRace
