import Mathlib.Algebra.BigOperators.Group.Finset.Basic
import LinuxCoding.FileCopy.Model

-- IO/FileIO/filecopy/client.c: the loop that sends the content of the file.
namespace LinuxCoding.FileCopy

-- What sendfile returns when it is asked for MAX_BUFSIZE bytes: -1 for an error, 0 at the
-- end of the file, or the number of bytes it has sent.
abbrev SendLen : Type := {n : Int // -1 ≤ n ∧ n ≤ maxBufsize}

-- The loop from the k-th call on; none is a loop that still runs when the fuel is used up.
-- sent is also the offset that sendfile keeps in an off_t, so that it never overflows.
def sendLoop (fileSize : Int) (sendfile : Nat → SendLen) : Nat → Nat → Int → Option Int
  | 0,_,_ => none
  | fuel + 1,k,sent =>
    if sent < fileSize then
      if (sendfile k).val ≤ 0 then sendLoop fileSize sendfile fuel (k + 1) sent
      else sendLoop fileSize sendfile fuel (k + 1) (sent + (sendfile k).val)
    else some sent

def Terminates (fileSize : Int) (sendfile : Nat → SendLen) : Prop := ∃ fuel sent, sendLoop fileSize sendfile fuel 0 0 = some sent

-- The bytes that the first n calls deliver.
def delivered (sendfile : Nat → SendLen) : Nat → Int
  | 0 => 0
  | n + 1 => delivered sendfile n + max (sendfile n).val 0

theorem delivered_grows (sendfile : Nat → SendLen) (n more : Nat) : delivered sendfile n ≤ delivered sendfile (n + more) := by
  induction more with
  | zero => exact Int.le_refl _
  | succ more ih =>
    have next : delivered sendfile (n + (more + 1)) = delivered sendfile (n + more) + max (sendfile (n + more)).val 0 := rfl
    omega

theorem delivered_idle (idle : ∀ i, n ≤ i → (sendfile i).val ≤ 0) (more : Nat) :
    delivered sendfile (n + more) = delivered sendfile n := by
  induction more with
  | zero => rfl
  | succ more ih =>
    have nothing := idle (n + more) (Nat.le_add_right n more)
    have next : delivered sendfile (n + (more + 1)) = delivered sendfile (n + more) + max (sendfile (n + more)).val 0 := rfl
    omega

-- One pass of the loop.
theorem send_pass (fileSize : Int) (sendfile : Nat → SendLen) (fuel k : Nat) :
    sendLoop fileSize sendfile (fuel + 1) k (delivered sendfile k) =
      if delivered sendfile k < fileSize then sendLoop fileSize sendfile fuel (k + 1) (delivered sendfile (k + 1))
      else some (delivered sendfile k) := by
  have next : delivered sendfile (k + 1) = delivered sendfile k + max (sendfile k).val 0 := rfl
  rw [sendLoop]
  by_cases idle : (sendfile k).val ≤ 0
  · rw [if_pos idle,next,max_eq_right idle,Int.add_zero]
  · rw [if_neg idle,next,max_eq_left (by omega)]

theorem loop_sent (returns : sendLoop fileSize sendfile fuel k (delivered sendfile k) = some sent) :
    ∃ n, sent = delivered sendfile n ∧ fileSize ≤ sent := by
  induction fuel generalizing k with
  | zero => cases returns
  | succ fuel ih =>
    rw [send_pass] at returns
    by_cases short : delivered sendfile k < fileSize
    · rw [if_pos short] at returns
      exact ih returns
    · rw [if_neg short] at returns
      cases returns
      exact ⟨k,rfl,by omega⟩

theorem loop_ends (enough : fileSize ≤ delivered sendfile (k + n)) :
    ∃ sent, sendLoop fileSize sendfile (n + 1) k (delivered sendfile k) = some sent := by
  induction n generalizing k with
  | zero =>
    refine ⟨delivered sendfile k,?_⟩
    have done : ¬ delivered sendfile k < fileSize := Int.not_lt.mpr enough
    rw [send_pass,if_neg done]
  | succ n ih =>
    rw [send_pass]
    by_cases short : delivered sendfile k < fileSize
    · rw [if_pos short]
      apply ih
      rwa [Nat.add_assoc,Nat.add_comm 1]
    · rw [if_neg short]
      exact ⟨_,rfl⟩

-- With a positive result always still to come, what is delivered passes every bound.
theorem delivered_enough (comes : ∀ n, delivered sendfile n < fileSize → ∃ i, n ≤ i ∧ 0 < (sendfile i).val) (n : Nat) :
    ∃ m, fileSize ≤ delivered sendfile m := by
  induction missing : (fileSize - delivered sendfile n).toNat using Nat.strongRecOn generalizing n with
  | ind missing ih =>
    by_cases enough : fileSize ≤ delivered sendfile n
    · exact ⟨n,enough⟩
    · obtain ⟨i,later,positive⟩ := comes n (by omega)
      have kept := delivered_grows sendfile n (i - n)
      rw [Nat.add_sub_cancel' later] at kept
      have next : delivered sendfile (i + 1) = delivered sendfile i + max (sendfile i).val 0 := rfl
      exact ih _ (by omega) (i + 1) rfl

theorem sending_exact (fileSize : Int) (sendfile : Nat → SendLen) :
    Terminates fileSize sendfile ↔ ∀ n, delivered sendfile n < fileSize → ∃ i, n ≤ i ∧ 0 < (sendfile i).val := by
  constructor
  · intro ⟨fuel,sent,returns⟩ n short
    obtain ⟨m,rfl,enough⟩ := loop_sent (k := 0) returns
    by_contra none
    have idle : ∀ i, n ≤ i → (sendfile i).val ≤ 0 := by
      intro i later
      by_contra positive
      exact none ⟨i,later,by omega⟩
    have same := delivered_idle idle m
    have most := delivered_grows sendfile m n
    rw [Nat.add_comm] at most
    omega
  · intro comes
    obtain ⟨m,enough⟩ := delivered_enough comes 0
    have ever : fileSize ≤ delivered sendfile (0 + m) := by rwa [Nat.zero_add]
    obtain ⟨sent,returns⟩ := loop_ends ever
    exact ⟨m + 1,sent,returns⟩

theorem zero_len : (-1 : Int) ≤ 0 ∧ (0 : Int) ≤ maxBufsize := by decide

def endOfFile : SendLen := ⟨0,zero_len⟩

-- The file is cut to nothing between fstat and the first call.
theorem truncated_runs : ¬ Terminates 1 (fun _ => endOfFile) := by
  intro ⟨fuel,sent,returns⟩
  obtain ⟨m,rfl,enough⟩ := loop_sent (k := 0) returns
  have same : delivered (fun _ => endOfFile) (0 + m) = 0 := delivered_idle (fun _ _ => Int.le_refl 0) m
  rw [Nat.zero_add] at same
  rw [same] at enough
  exact absurd enough (by decide)

end LinuxCoding.FileCopy
