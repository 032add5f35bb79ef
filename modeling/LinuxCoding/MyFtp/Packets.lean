import Mathlib.Data.List.Nodup
import LinuxCoding.MyFtp.Model

-- Where the bytes of the requested files are, whoever receives them.
namespace LinuxCoding.MyFtp
open Bytes CInt MsgQueue Transition
variable {τ : Type} [DecidableEq τ]

def Event.requests : Event τ → Option τ
  | .requested c => some c
  | _ => none
def Event.takes : Event τ → Option (List UInt8)
  | .received _ bytes => some bytes
  | _ => none
def Event.takesBy (c : τ) : Event τ → Option (List UInt8)
  | .received other bytes => if other = c then some bytes else none
  | _ => none
def Event.handles : Event τ → Option CString
  | .handled path => some path
  | _ => none
def Event.sends : Event τ → Option (List UInt8)
  | .sent bytes => some bytes
  | _ => none

def Message.payload : Message → List UInt8
  | .data datalen body => written datalen body
  | .path _ => []
  | .eot => []

def Message.asked : Message → CString
  | .path body => cstr body
  | .data .. => cstr []
  | .eot => cstr []

def ServerPlace.unsent : ServerPlace → List UInt8
  | .reading rest => rest
  | .sending buffer rest => buffer ++ rest
  | _ => []

def ServerPlace.handling : ServerPlace → Nat
  | .receiving => 0
  | _ => 1

def content (files : CString → Option (List UInt8)) (path : CString) : List UInt8 := (files path).getD []

def asked (path : CString) : CString := path.take (pathMax - 1)

-- What the queue and the server hold of the requests, the files and the end marks.
structure Flow (paths : τ → CString) (files : CString → Option (List UInt8)) (log : List (Event τ)) (s : System τ) : Prop where
  packets : log.filterMap Event.takes ++ (ofType Message.mtype msgData s.queue).map Message.payload = log.filterMap Event.sends
  cut : (log.filterMap Event.sends).flatten ++ s.server.unsent = (log.filterMap Event.handles).flatMap (content files)
  requests : log.filterMap Event.handles ++ (ofType Message.mtype msgPath s.queue).map Message.asked =
    (log.filterMap Event.requests).map (fun c => asked (paths c))
  marks : (ofType Message.mtype msgEot s.queue).length + s.server.handling = (log.filterMap Event.handles).length
  nonempty : [] ∉ log.filterMap Event.sends
  counted : ∀ datalen data, .data datalen data ∈ s.queue → 0 < datalen
  buffers : ∀ buffer rest, s.server = .sending buffer rest → buffer ≠ [] ∧ buffer.length ≤ dataMax

-- A client after it has taken some packets.
structure Account (path : CString) (client : Client) (asks : Prop) (taken : List (List UInt8)) : Prop where
  path : client.path = path
  saved : client.saved = taken.flatten
  asks : asks ↔ client.place ≠ .requesting
  early : client.place = .requesting ∨ client.place = .opening → taken = []
  goesOn : ∀ ret, client.place ≠ .returned ret

structure Books (paths : τ → CString) (log : List (Event τ)) (s : System τ) : Prop where
  once : (log.filterMap Event.requests).Nodup
  account : ∀ c, Account (paths c) (s.clients c) (c ∈ log.filterMap Event.requests) (log.filterMap (Event.takesBy c))

@[simp] theorem setClient_queue (s : System τ) (c : τ) (client : Client) : (s.setClient c client).queue = s.queue := rfl
@[simp] theorem setClient_server (s : System τ) (c : τ) (client : Client) : (s.setClient c client).server = s.server := rfl

theorem payload_packet (data unset : List UInt8) : (sendDataPacket data unset).payload = data := by
  simp [sendDataPacket,Message.payload,written]

theorem asked_request (path : CString) : (sendPathRequest path).asked = asked path := cstr_strncpy _ path

section
variable {paths : τ → CString} {files : CString → Option (List UInt8)} {log : List (Event τ)} {s t : System τ}

omit [DecidableEq τ] in
theorem start_flow : Flow paths files [] (start paths) where
  packets := rfl
  cut := rfl
  requests := rfl
  marks := rfl
  nonempty := List.not_mem_nil
  counted := by simp [start]
  buffers := by simp [start]

theorem start_books : Books paths [] (start paths) :=
  ⟨List.nodup_nil,fun c => ⟨rfl,rfl,by simp [start],fun _ => rfl,nofun⟩⟩

-- What one more message in the queue changes, and then what one message less does.
theorem requests_flow (flow : Flow paths files log s) (books : Books paths log s)
    (sent : msgsnd Message.size qbytes s.queue (sendPathRequest (s.clients c).path) = some queue) (client : Client) :
    Flow paths files (log ++ [.requested c]) ({s with queue := queue}.setClient c client) := by
  obtain ⟨packets,cut,requests,marks,nonempty,counted,buffers⟩ := flow
  obtain rfl := msgsnd_some sent
  have data : (sendPathRequest (s.clients c).path).mtype ≠ msgData := by simp [sendPathRequest,Message.mtype,msgPath,msgData]
  have eot : (sendPathRequest (s.clients c).path).mtype ≠ msgEot := by simp [sendPathRequest,Message.mtype,msgPath,msgEot]
  have grown : ofType Message.mtype msgPath (s.queue ++ [sendPathRequest (s.clients c).path]) =
      ofType Message.mtype msgPath s.queue ++ [sendPathRequest (s.clients c).path] := ofType_same _ rfl
  refine ⟨?_,?_,?_,?_,?_,?_,buffers⟩
  · simpa [List.filterMap_cons,Event.takes,Event.sends,ofType_other _ data] using packets
  · simpa [List.filterMap_cons,Event.sends,Event.handles] using cut
  · simp only [List.filterMap_append,List.map_append,setClient_queue,grown,← requests]
    simp [List.filterMap_cons,Event.handles,Event.requests,asked_request,(books.account c).path]
  · simpa [List.filterMap_cons,Event.handles,ofType_other _ eot] using marks
  · simpa [List.filterMap_cons,Event.sends] using nonempty
  · intro datalen data member
    apply counted datalen data
    simpa [sendPathRequest] using member

omit [DecidableEq τ] in
theorem sends_flow (flow : Flow paths files log s) (here : s.server = .sending buffer rest)
    (sent : msgsnd Message.size qbytes s.queue (sendDataPacket buffer unset) = some queue) :
    Flow paths files (log ++ [.sent buffer]) {s with queue := queue,server := .reading rest} := by
  obtain ⟨packets,cut,requests,marks,nonempty,counted,buffers⟩ := flow
  obtain rfl := msgsnd_some sent
  have path : (sendDataPacket buffer unset).mtype ≠ msgPath := by simp [sendDataPacket,Message.mtype,msgPath,msgData]
  have eot : (sendDataPacket buffer unset).mtype ≠ msgEot := by simp [sendDataPacket,Message.mtype,msgEot,msgData]
  have grown : ofType Message.mtype msgData (s.queue ++ [sendDataPacket buffer unset]) =
      ofType Message.mtype msgData s.queue ++ [sendDataPacket buffer unset] := ofType_same _ rfl
  rw [here] at cut marks
  refine ⟨?_,?_,?_,?_,?_,?_,fun _ _ sending => by cases sending⟩
  · simp only [List.filterMap_append,List.map_append,grown,← packets]
    simp [List.filterMap_cons,Event.takes,Event.sends,payload_packet]
  · simpa [List.filterMap_cons,Event.sends,Event.handles,ServerPlace.unsent] using cut
  · simpa [List.filterMap_cons,Event.handles,Event.requests,ofType_other _ path] using requests
  · simpa [List.filterMap_cons,Event.handles,ofType_other _ eot,ServerPlace.handling] using marks
  · simpa [List.filterMap_cons,Event.sends,nonempty] using (buffers buffer rest here).1.symm
  · intro datalen data member
    rcases List.mem_append.mp member with old | new
    · exact counted datalen data old
    · obtain ⟨rfl,_⟩ : datalen = buffer.length ∧ data = buffer ++ unset := by simpa [sendDataPacket] using new
      have positive := List.length_pos_of_ne_nil (buffers buffer rest here).1
      omega

omit [DecidableEq τ] in
theorem sendsEot_flow (flow : Flow paths files log s) (here : s.server = .ending)
    (sent : msgsnd Message.size qbytes s.queue .eot = some queue) :
    Flow paths files log {s with queue := queue,server := .receiving} := by
  obtain ⟨packets,cut,requests,marks,nonempty,counted,buffers⟩ := flow
  obtain rfl := msgsnd_some sent
  have grown : ofType Message.mtype msgEot (s.queue ++ [.eot]) = ofType Message.mtype msgEot s.queue ++ [.eot] := ofType_same _ rfl
  have data : Message.eot.mtype ≠ msgData := by decide
  have path : Message.eot.mtype ≠ msgPath := by decide
  rw [here] at cut marks
  refine ⟨?_,cut,?_,?_,nonempty,?_,fun _ _ sending => by cases sending⟩
  · rw [ofType_other _ data]
    exact packets
  · rw [ofType_other _ path]
    exact requests
  · rw [grown,List.length_append]
    exact marks
  · intro datalen data member
    apply counted datalen data
    simpa using member

theorem receives_flow (flow : Flow paths files log s) (received : msgrcv Message.mtype msgData s.queue = some (.data datalen data,queue))
    (c : τ) (client : Client) :
    Flow paths files (log ++ [.received c (written datalen data)]) ({s with queue := queue}.setClient c client) := by
  obtain ⟨packets,cut,requests,marks,nonempty,counted,buffers⟩ := flow
  obtain ⟨_,order,others⟩ := msgrcv_some _ received
  refine ⟨?_,?_,?_,?_,?_,?_,buffers⟩
  · rw [order] at packets
    simpa [List.filterMap_cons,Event.takes,Event.sends,Message.payload] using packets
  · simpa [List.filterMap_cons,Event.sends,Event.handles] using cut
  · simpa [List.filterMap_cons,Event.handles,Event.requests,others msgPath (by decide)] using requests
  · simpa [List.filterMap_cons,Event.handles,others msgEot (by decide)] using marks
  · simpa [List.filterMap_cons,Event.sends] using nonempty
  · intro datalen data member
    exact counted datalen data (msgrcv_rest _ received member)

-- The server has the whole file before it, or goes on to the end mark.
theorem handle_opens (files : CString → Option (List UInt8)) (path : List UInt8) :
    (handleFileRequest files path).unsent = content files (cstr path) ∧ (handleFileRequest files path).handling = 1 ∧
      ∀ buffer rest, handleFileRequest files path ≠ .sending buffer rest := by
  unfold handleFileRequest content
  cases files (cstr path) <;> simp [ServerPlace.unsent,ServerPlace.handling]

omit [DecidableEq τ] in
theorem handles_flow (flow : Flow paths files log s) (here : s.server = .receiving)
    (received : msgrcv Message.mtype msgPath s.queue = some (.path path,queue)) :
    Flow paths files (log ++ [.handled (cstr path)]) {s with queue := queue,server := handleFileRequest files path} := by
  obtain ⟨packets,cut,requests,marks,nonempty,counted,buffers⟩ := flow
  obtain ⟨_,order,others⟩ := msgrcv_some _ received
  obtain ⟨unsent,handling,silent⟩ := handle_opens files path
  rw [here] at cut marks
  refine ⟨?_,?_,?_,?_,?_,?_,?_⟩
  · simpa [List.filterMap_cons,Event.takes,Event.sends,others msgData (by decide)] using packets
  · have sent : (log.filterMap Event.sends).flatten = (log.filterMap Event.handles).flatMap (content files) := by
      simpa [ServerPlace.unsent] using cut
    simp [List.filterMap_cons,Event.sends,Event.handles,sent,unsent]
  · rw [order] at requests
    simpa [List.filterMap_cons,Event.handles,Event.requests,Message.asked] using requests
  · have done : (ofType Message.mtype msgEot s.queue).length = (log.filterMap Event.handles).length := by
      simpa [ServerPlace.handling] using marks
    simp [Event.handles,others msgEot (by decide),done,handling]
  · simpa [List.filterMap_cons,Event.sends] using nonempty
  · intro datalen data member
    exact counted datalen data (msgrcv_rest _ received member)
  · intro buffer rest sending
    exact absurd sending (silent buffer rest)

theorem step_flow (flow : Flow paths files log s) (books : Books paths log s) (step : Step qbytes files s emitted t) :
    Flow paths files (log ++ emitted) t := by
  cases step with
  | requests c queue asking sent => exact requests_flow flow books sent _
  | opens c here =>
    rw [List.append_nil]
    exact ⟨flow.packets,flow.cut,flow.requests,flow.marks,flow.nonempty,flow.counted,flow.buffers⟩
  | receives c datalen data queue here received => exact receives_flow flow received c _
  | handles path queue here received => exact handles_flow flow here received
  | reads buffer rest here more small =>
    obtain ⟨packets,cut,requests,marks,nonempty,counted,buffers⟩ := flow
    rw [here] at cut marks
    rw [List.append_nil]
    refine ⟨packets,cut,requests,marks,nonempty,counted,?_⟩
    intro read left sending
    cases sending
    exact ⟨more,small⟩
  | endOfFile here =>
    obtain ⟨packets,cut,requests,marks,nonempty,counted,buffers⟩ := flow
    rw [here] at cut marks
    rw [List.append_nil]
    exact ⟨packets,cut,requests,marks,nonempty,counted,fun _ _ sending => by cases sending⟩
  | sends buffer rest unset queue here whole sent => exact sends_flow flow here sent
  | sendsEot queue here sent =>
    rw [List.append_nil]
    exact sendsEot_flow flow here sent

-- Nobody asks twice.
theorem Books.asked_alone {c : τ} (books : Books paths log s) (only : ∀ other ∈ log.filterMap Event.requests, other = c) :
    log.filterMap Event.requests = [] ∨ log.filterMap Event.requests = [c] := by
  have once := books.once
  cases asked : log.filterMap Event.requests with
  | nil => exact .inl rfl
  | cons first rest =>
    rw [asked] at once only
    obtain rfl := only first List.mem_cons_self
    cases rest with
    | nil => exact .inr rfl
    | cons second rest =>
      obtain rfl := only second (List.mem_cons_of_mem _ List.mem_cons_self)
      exact absurd List.mem_cons_self (List.nodup_cons.mp once).1

-- A step of the server, and one of a client.
theorem Books.served (books : Books paths log s) (same : t.clients = s.clients)
    (asks : emitted.filterMap Event.requests = []) (takes : ∀ c, emitted.filterMap (Event.takesBy c) = []) :
    Books paths (log ++ emitted) t := by
  refine ⟨?_,?_⟩
  · rw [List.filterMap_append,asks,List.append_nil]
    exact books.once
  · intro c
    rw [same,List.filterMap_append,List.filterMap_append,asks,takes,List.append_nil,List.append_nil]
    exact books.account c

theorem Books.served_client {c : τ} (books : Books paths log s) (others : ∀ other, other ≠ c → t.clients other = s.clients other)
    (asks : ∀ other, other ≠ c → other ∉ emitted.filterMap Event.requests) (takes : ∀ other, other ≠ c → emitted.filterMap (Event.takesBy other) = [])
    (once : (log.filterMap Event.requests ++ emitted.filterMap Event.requests).Nodup)
    (own : Account (paths c) (t.clients c) (c ∈ (log ++ emitted).filterMap Event.requests) ((log ++ emitted).filterMap (Event.takesBy c))) :
    Books paths (log ++ emitted) t := by
  refine ⟨by rw [List.filterMap_append]; exact once,?_⟩
  intro other
  by_cases same : other = c
  · subst same
    exact own
  · have unasked : other ∈ (log ++ emitted).filterMap Event.requests ↔ other ∈ log.filterMap Event.requests := by
      rw [List.filterMap_append,List.mem_append]
      exact or_iff_left (asks other same)
    have untaken : (log ++ emitted).filterMap (Event.takesBy other) = log.filterMap (Event.takesBy other) := by
      rw [List.filterMap_append,takes other same,List.append_nil]
    rw [others other same,untaken,propext unasked]
    exact books.account other

theorem step_books (flow : Flow paths files log s) (books : Books paths log s) (step : Step qbytes files s emitted t) :
    Books paths (log ++ emitted) t := by
  have others : ∀ (s : System τ) c client other, other ≠ c → (s.setClient c client).clients other = s.clients other :=
    fun _ _ _ _ apart => Function.update_of_ne apart ..
  cases step with
  | requests c queue asking sent =>
    obtain ⟨path,saved,asks,early,goesOn⟩ := books.account c
    have fresh : c ∉ log.filterMap Event.requests := fun member => asks.mp member asking
    have nothing := early (.inl asking)
    refine books.served_client (c := c) (others _ c _) ?_ (fun _ _ => rfl) ?_ ?_
    · intro other apart
      simpa [List.filterMap_cons,Event.requests] using apart
    · have single : [Event.requested c].filterMap Event.requests = [c] := rfl
      rw [single]
      apply books.once.append (List.nodup_singleton c)
      simpa using fresh
    · refine ⟨?_,?_,?_,?_,?_⟩
      · simpa [System.setClient] using path
      · simpa [System.setClient,List.filterMap_cons,Event.takesBy] using saved
      · simp [System.setClient,Event.requests]
      · simpa [System.setClient,List.filterMap_cons,Event.takesBy] using nothing
      · simp [System.setClient]
  | opens c here =>
    obtain ⟨path,saved,asks,early,goesOn⟩ := books.account c
    have nothing := early (.inr here)
    refine books.served_client (c := c) (others _ c _) (fun _ _ => List.not_mem_nil) (fun _ _ => rfl) ?_ ?_
    · simpa using books.once
    · simp only [List.append_nil]
      refine ⟨?_,?_,?_,?_,?_⟩
      · simpa [System.setClient] using path
      · simp [System.setClient,nothing]
      · simpa [System.setClient,here] using asks
      · simp [System.setClient]
      · simp [System.setClient]
  | receives c datalen data queue here received =>
    obtain ⟨path,saved,asks,early,goesOn⟩ := books.account c
    have positive : 0 < datalen := flow.counted datalen data ((msgrcv_perm _ received).mem_iff.mpr List.mem_cons_self)
    have receive : (s.clients c).receive datalen data =
        {s.clients c with saved := (s.clients c).saved ++ written datalen data,totalBytes := toInt ((s.clients c).totalBytes + datalen)} := by
      have nonzero : datalen ≠ 0 := by omega
      rw [Client.receive,if_neg nonzero,if_pos positive]
    rw [receive]
    refine books.served_client (c := c) (others _ c _) (fun _ _ => List.not_mem_nil) ?_ ?_ ?_
    · intro other apart
      simp [Event.takesBy,apart.symm]
    · simpa [List.filterMap_cons,Event.requests] using books.once
    · refine ⟨?_,?_,?_,?_,?_⟩
      · simpa [System.setClient] using path
      · simp [System.setClient,Event.takesBy,saved]
      · simpa [System.setClient,List.filterMap_cons,Event.requests,here] using asks
      · simp [System.setClient,here]
      · simpa [System.setClient] using goesOn
  | handles path queue here received => exact books.served rfl rfl (fun _ => rfl)
  | reads buffer rest here nonempty small => exact books.served rfl rfl (fun _ => rfl)
  | endOfFile here => exact books.served rfl rfl (fun _ => rfl)
  | sends buffer rest unset queue here whole sent => exact books.served rfl rfl (fun _ => rfl)
  | sendsEot queue here sent => exact books.served rfl rfl (fun _ => rfl)

theorem reached_books (run : Runs (Step qbytes files) (start paths) log s) : Flow paths files log s ∧ Books paths log s := by
  refine run.invariant (I := fun log s => Flow paths files log s ∧ Books paths log s) ?_ ⟨start_flow,start_books⟩
  intro log s emitted t ⟨flow,books⟩ step
  exact ⟨step_flow flow books step,step_books flow books step⟩

end

end LinuxCoding.MyFtp
