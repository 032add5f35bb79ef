import LinuxCoding.MyFtp.Packets

-- Any number of clients on the one queue.
namespace LinuxCoding.MyFtp
open Bytes CInt MsgQueue Transition
variable {τ : Type} [DecidableEq τ] {paths : τ → CString} {files : CString → Option (List UInt8)} {log : List (Event τ)} {s : System τ}

omit [DecidableEq τ] in
-- The bytes of the files asked for leave in the order in which the requests are handled.
theorem taken_prefix (flow : Flow paths files log s) :
    (log.filterMap Event.takes).flatten <+: ((log.filterMap Event.requests).map (fun c => asked (paths c))).flatMap (content files) := by
  have sent : (log.filterMap Event.takes).flatten <+: (log.filterMap Event.sends).flatten := by
    rw [← flow.packets,List.flatten_append]
    exact List.prefix_append ..
  have cut : (log.filterMap Event.sends).flatten <+: (log.filterMap Event.handles).flatMap (content files) := by
    rw [← flow.cut]
    exact List.prefix_append ..
  have handled : (log.filterMap Event.handles).flatMap (content files) <+:
      ((log.filterMap Event.requests).map (fun c => asked (paths c))).flatMap (content files) := by
    rw [← flow.requests,List.flatMap_append]
    exact List.prefix_append ..
  exact (sent.trans cut).trans handled

-- Packets taken by nobody but one client.
theorem taken_alone {c : τ} (others : ∀ other, other ≠ c → log.filterMap (Event.takesBy other) = []) :
    log.filterMap (Event.takesBy c) = log.filterMap Event.takes := by
  apply List.filterMap_congr
  intro event member
  cases event with
  | requested | handled | sent => rfl
  | received other bytes =>
    by_cases same : other = c
    · simp [Event.takesBy,Event.takes,same]
    · have none := List.filterMap_eq_nil_iff.mp (others other same) _ member
      simp [Event.takesBy] at none

-- No packet says which client it is for: the packets that the clients have received, in
-- the order of their receipts, and those in the queue are the ones the server has sent,
-- cut from the files in the order of the requests it has handled. A client has its own
-- file as long as it is the only one that has asked.
theorem packets_shared (run : Runs (Step qbytes files) (start paths) log s) :
    log.filterMap Event.handles ++ (ofType Message.mtype msgPath s.queue).map Message.asked =
      (log.filterMap Event.requests).map (fun c => asked (paths c)) ∧
    log.filterMap Event.takes ++ (ofType Message.mtype msgData s.queue).map Message.payload = log.filterMap Event.sends ∧
    (log.filterMap Event.sends).flatten ++ s.server.unsent = (log.filterMap Event.handles).flatMap (content files) ∧
    (∀ c, (s.clients c).saved = (log.filterMap (Event.takesBy c)).flatten) ∧
    ∀ c, (paths c).val.length < pathMax → (∀ other, other ≠ c → (s.clients other).place = .requesting) →
      (s.clients c).saved <+: content files (paths c) := by
  obtain ⟨flow,books⟩ := reached_books run
  refine ⟨flow.requests,flow.packets,flow.cut,fun c => (books.account c).saved,?_⟩
  intro c short others
  have alone : log.filterMap (Event.takesBy c) = log.filterMap Event.takes := by
    apply taken_alone
    intro other apart
    exact (books.account other).early (.inl (others other apart))
  have taken := taken_prefix flow
  rw [(books.account c).saved,alone]
  apply taken.trans
  have whole : asked (paths c) = paths c := take_short (Nat.le_pred_of_lt short)
  have only : ∀ other ∈ log.filterMap Event.requests, other = c := by
    intro other member
    by_contra apart
    exact (books.account other).asks.mp member (others other apart)
  rcases books.asked_alone only with unasked | one
  · rw [unasked]
    exact List.nil_prefix
  · rw [one]
    simp [whole]

-- The first packet for one client is received by another.
theorem packet_strays {c d : τ} (apart : c ≠ d) (opens : files (asked (paths c)) = some (byte :: rest)) (fits : 2 * (dataMax + 8) ≤ qbytes) :
    ∃ log s, Runs (Step qbytes files) (start paths) log s ∧ (s.clients d).saved = [byte] := by
  let request := fun c => sendPathRequest (paths c)
  let packet := sendDataPacket [byte] (List.replicate (dataMax - 1) 0)
  let asking : System τ := {start paths with queue := [request c]}.setClient c ⟨paths c,.opening,[],0⟩
  let both : System τ := {asking with queue := [request c,request d]}.setClient d ⟨paths d,.opening,[],0⟩
  let waiting : System τ := both.setClient d ⟨paths d,.receiving,[],0⟩
  let opened : System τ := {waiting with queue := [request d],server := .reading (byte :: rest)}
  let read : System τ := {opened with server := .sending [byte] rest}
  let sent : System τ := {opened with queue := [request d,packet],server := .reading rest}
  let taken : System τ := {sent with queue := [request d]}.setClient d ⟨paths d,.receiving,[byte],1⟩
  have first : Step qbytes files (start paths) [.requested c] asking := by
    apply Step.requests (start paths) c [request c] rfl
    apply msgsnd_empty
    · change pathMax ≤ qbytes
      simp only [pathMax,dataMax] at fits ⊢
      omega
    · omega
  have second : Step qbytes files asking [.requested d] both := by
    have fresh : asking.clients d = ⟨paths d,.requesting,[],0⟩ := Function.update_of_ne apart.symm ..
    have step : Step qbytes files asking _ _ := .requests asking d [request c,request d] (by rw [fresh]) (by
      rw [fresh]
      apply if_pos
      change pathMax + 0 + pathMax ≤ qbytes ∧ 2 ≤ qbytes
      simp only [pathMax,dataMax] at fits ⊢
      omega)
    rw [fresh] at step
    exact step
  have opening : Step qbytes files both [] waiting := by
    have asked : both.clients d = ⟨paths d,.opening,[],0⟩ := Function.update_self ..
    have step : Step qbytes files both _ _ := .opens both d (by rw [asked])
    rw [asked] at step
    exact step
  have handles : Step qbytes files waiting [.handled (asked (paths c))] opened := by
    have step : Step qbytes files waiting _ _ := .handles waiting (strncpy (pathMax - 1) (paths c) ++ [0]) [request d] rfl rfl
    rw [cstr_strncpy] at step
    have reading : handleFileRequest files (strncpy (pathMax - 1) (paths c) ++ [0]) = .reading (byte :: rest) := by
      rw [handleFileRequest,cstr_strncpy,show files ((paths c).take (pathMax - 1)) = _ from opens]
    rw [reading] at step
    exact step
  have reads : Step qbytes files opened [] read := .reads opened [byte] rest rfl (by simp) (by simp [dataMax])
  have sends : Step qbytes files read [.sent [byte]] sent := by
    apply Step.sends read [byte] rest (List.replicate (dataMax - 1) 0) [request d,packet] rfl (by rw [List.length_replicate]; rfl)
    apply if_pos
    change pathMax + 0 + (dataMax + 8) ≤ qbytes ∧ 2 ≤ qbytes
    simp only [pathMax,dataMax] at fits ⊢
    omega
  have takes : Step qbytes files sent [.received d [byte]] taken := by
    have waits : sent.clients d = ⟨paths d,.receiving,[],0⟩ := Function.update_self ..
    have step : Step qbytes files sent _ _ := .receives sent d 1 (byte :: List.replicate (dataMax - 1) 0) [request d]
      (by rw [waits]) rfl
    rw [waits] at step
    exact step
  refine ⟨_,taken,((((((Runs.one first).step second).step opening).step handles).step reads).step sends).step takes,?_⟩
  simp [taken,System.setClient]

theorem firstPath_nonzero : (0 : UInt8) ∉ [97] := by decide

-- Two clients ask for files of one byte each, and the second one gets the byte of the
-- first one's file.
def twoPaths (first : Bool) : CString := if first then ⟨[97],firstPath_nonzero⟩ else ⟨[98],by decide⟩
def twoFiles (path : CString) : Option (List UInt8) := if path.val = [97] then some [1] else some [2]

theorem two_stray : ∃ log s, Runs (Step 16384 twoFiles) (start twoPaths) log s ∧ (s.clients false).saved = [1] := by
  have first : twoFiles (asked (twoPaths true)) = some [1] := rfl
  exact packet_strays (d := false) (by decide) first (by decide : 2 * (dataMax + 8) ≤ 16384)

theorem two_shared : ∃ log s, Runs (Step 16384 twoFiles) (start twoPaths) log s ∧ (s.clients false).saved = [1] ∧
    log.filterMap Event.takes ++ (ofType Message.mtype msgData s.queue).map Message.payload = log.filterMap Event.sends := by
  obtain ⟨log,s,run,saved⟩ := two_stray
  exact ⟨log,s,run,saved,(packets_shared run).2.1⟩

theorem downloads_mix : ¬ ∀ (paths : Bool → CString) (files : CString → Option (List UInt8)) (log : List (Event Bool)) (s : System Bool),
    (∀ c, (paths c).val.length < pathMax ∧ (files (paths c)).isSome) → Runs (Step 16384 files) (start paths) log s →
    ∀ c, (s.clients c).saved <+: content files (paths c) := by
  intro apart
  obtain ⟨log,s,run,saved⟩ := two_stray
  have own := apart twoPaths twoFiles log s (by decide) run false
  have other : content twoFiles (twoPaths false) = [2] := rfl
  rw [saved,other] at own
  revert own
  decide

end LinuxCoding.MyFtp
