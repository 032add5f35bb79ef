import LinuxCoding.MyFtp.Packets

-- One client and the server: what has come of a request when neither of them can go on.
namespace LinuxCoding.MyFtp
open Bytes CInt MsgQueue Transition
variable {files : CString → Option (List UInt8)}

-- Every step brings a single client and the server nearer to their ends.
def Message.work (files : CString → Option (List UInt8)) : Message → Nat
  | .path body => 3 * (content files (cstr body)).length + 4
  | .data .. => 1
  | .eot => 0

def ServerPlace.work : ServerPlace → Nat
  | .receiving => 0
  | .reading rest => 3 * rest.length + 2
  | .sending _ rest => 3 * rest.length + 4
  | .ending => 1

def Client.work (files : CString → Option (List UInt8)) (client : Client) : Nat :=
  match client.place with
  | .requesting => 3 * (content files (asked client.path)).length + 6
  | .opening => 1
  | .receiving => 0
  | .returned _ => 0

def System.work (files : CString → Option (List UInt8)) (s : System Unit) : Nat :=
  (s.queue.map (Message.work files)).sum + s.server.work + (s.clients ()).work files

theorem receive_work (client : Client) (datalen : Int) (data : List UInt8) (here : client.place = .receiving) :
    (client.receive datalen data).work files = 0 := by
  unfold Client.receive
  split
  · rfl
  · split <;> simp [Client.work,here]

theorem received_work (received : msgrcv Message.mtype type queue = some (message,rest)) :
    (queue.map (Message.work files)).sum = message.work files + (rest.map (Message.work files)).sum := by
  rw [((msgrcv_perm _ received).map _).sum_nat,List.map_cons,List.sum_cons]

theorem sent_work (sent : msgsnd Message.size qbytes queue message = some after) :
    (after.map (Message.work files)).sum = (queue.map (Message.work files)).sum + message.work files := by
  obtain rfl := msgsnd_some sent
  simp

theorem handle_work (path : List UInt8) : (handleFileRequest files path).work < (Message.path path).work files := by
  unfold handleFileRequest Message.work content
  cases found : files (cstr path) with
  | none => simp [ServerPlace.work]
  | some bytes => simp [ServerPlace.work,found]

theorem step_work {s t : System Unit} (step : Step qbytes files s emitted t) : t.work files < s.work files := by
  cases step with
  | requests c queue asking sent =>
    have grown : (queue.map (Message.work files)).sum = _ + (sendPathRequest (s.clients ()).path).work files := sent_work sent
    have message : (sendPathRequest (s.clients ()).path).work files = 3 * (content files (asked (s.clients ()).path)).length + 4 := by
      rw [← asked_request]
      rfl
    have before : (s.clients ()).work files = 3 * (content files (asked (s.clients ()).path)).length + 6 := by
      rw [Client.work,show (s.clients ()).place = .requesting from asking]
    change (queue.map (Message.work files)).sum + s.server.work + 1 < (s.queue.map (Message.work files)).sum + s.server.work + _
    omega
  | opens c here =>
    have before : (s.clients ()).work files = 1 := by
      rw [Client.work,show (s.clients ()).place = .opening from here]
    change (s.queue.map (Message.work files)).sum + s.server.work + 0 < (s.queue.map (Message.work files)).sum + s.server.work + _
    omega
  | receives c datalen data queue here received =>
    have fewer : _ = 1 + (queue.map (Message.work files)).sum := received_work received
    have after : ((s.clients ()).receive datalen data).work files = 0 := receive_work _ datalen data here
    change (queue.map (Message.work files)).sum + s.server.work + ((s.clients ()).receive datalen data).work files < s.work files
    unfold System.work
    omega
  | handles path queue here received =>
    have fewer : _ = (Message.path path).work files + (queue.map (Message.work files)).sum := received_work received
    have less : _ < (Message.path path).work files := handle_work path
    have idle : s.server.work = 0 := by rw [here]; rfl
    change (queue.map (Message.work files)).sum + (handleFileRequest files path).work + (s.clients ()).work files < s.work files
    unfold System.work
    omega
  | reads buffer rest here nonempty small =>
    have before : s.server.work = 3 * (buffer.length + rest.length) + 2 := by rw [here,ServerPlace.work,List.length_append]
    have more := List.length_pos_of_ne_nil nonempty
    change (s.queue.map (Message.work files)).sum + (3 * rest.length + 4) + (s.clients ()).work files < s.work files
    unfold System.work
    omega
  | endOfFile here =>
    have before : s.server.work = 2 := by rw [here]; rfl
    change (s.queue.map (Message.work files)).sum + 1 + (s.clients ()).work files < s.work files
    unfold System.work
    omega
  | sends buffer rest unset queue here whole sent =>
    have grown : (queue.map (Message.work files)).sum = _ + 1 := sent_work sent
    have before : s.server.work = 3 * rest.length + 4 := by rw [here]; rfl
    change (queue.map (Message.work files)).sum + (3 * rest.length + 2) + (s.clients ()).work files < s.work files
    unfold System.work
    omega
  | sendsEot queue here sent =>
    have same : (queue.map (Message.work files)).sum = (s.queue.map (Message.work files)).sum := sent_work sent
    have before : s.server.work = 1 := by rw [here]; rfl
    change (queue.map (Message.work files)).sum + 0 + (s.clients ()).work files < s.work files
    unfold System.work
    omega

-- Messages of all types are in the queue.
theorem queue_types (queue : List Message) : queue.length = (ofType Message.mtype msgPath queue).length +
    (ofType Message.mtype msgData queue).length + (ofType Message.mtype msgEot queue).length := by
  induction queue with
  | nil => rfl
  | cons message queue ih => cases message <;> simp [ofType,Message.mtype,msgPath,msgData,msgEot] at ih ⊢ <;> omega

section
variable {path : CString} {s : System Unit}

-- With one client there is never more than one request.
theorem single_unasked (books : Books (fun _ => path) log s) (place : (s.clients ()).place = .requesting) : log.filterMap Event.requests = [] := by
  apply (books.asked_alone (c := ()) (fun _ _ => rfl)).resolve_right
  intro asked
  refine (books.account ()).asks.mp ?_ place
  rw [asked]
  exact List.mem_cons_self

theorem single_asked (books : Books (fun _ => path) log s) (place : (s.clients ()).place ≠ .requesting) : log.filterMap Event.requests = [()] := by
  apply (books.asked_alone (c := ()) (fun _ _ => rfl)).resolve_left
  intro unasked
  have requested := (books.account ()).asks.mpr place
  rw [unasked] at requested
  cases requested

theorem requests_length (flow : Flow (fun _ => path) files log s) : (log.filterMap Event.handles).length +
    (ofType Message.mtype msgPath s.queue).length = (log.filterMap Event.requests).length := by
  simpa using congrArg List.length flow.requests

-- Before the request nothing has been sent.
theorem unasked_empty (flow : Flow (fun _ => path) files log s) (unasked : log.filterMap Event.requests = []) : s.queue = [] := by
  have handled := requests_length flow
  rw [unasked,List.length_nil] at handled
  have unhandled : log.filterMap Event.handles = [] := List.eq_nil_of_length_eq_zero (by omega)
  have unsent : log.filterMap Event.sends = [] := by
    have empty := flow.cut
    rw [unhandled,List.flatMap_nil,List.append_eq_nil_iff,List.flatten_eq_nil_iff] at empty
    by_contra sent
    obtain ⟨packet,member⟩ := List.exists_mem_of_ne_nil _ sent
    exact flow.nonempty (empty.1 packet member ▸ member)
  have lengths := queue_types s.queue
  have packets := congrArg List.length flow.packets
  have marks := flow.marks
  rw [unsent,List.length_append,List.length_map,List.length_nil] at packets
  rw [unhandled,List.length_nil] at marks
  exact List.eq_nil_of_length_eq_zero (by omega)

theorem send_empty (fits : dataMax + 8 ≤ qbytes) {message : Message} (small : message.size ≤ dataMax + 8) (empty : s.queue = []) :
    msgsnd Message.size qbytes s.queue message = some [message] := by
  rw [empty]
  apply msgsnd_empty (Nat.le_trans small fits)
  apply Nat.lt_of_lt_of_le _ fits
  decide

-- Nobody waits for a message that is there.
theorem stuck_data (stuck : Stuck (Step qbytes files) s) (place : (s.clients ()).place = .receiving) :
    ofType Message.mtype msgData s.queue = [] := by
  apply ofType_nil
  intro message rest received
  obtain ⟨typed,_⟩ := msgrcv_some _ received
  cases message with
  | path | eot => cases typed
  | data datalen data => exact stuck _ _ (.receives s () datalen data rest place received)

theorem stuck_paths (stuck : Stuck (Step qbytes files) s) (server : s.server = .receiving) : ofType Message.mtype msgPath s.queue = [] := by
  apply ofType_nil
  intro message rest received
  obtain ⟨typed,_⟩ := msgrcv_some _ received
  cases message with
  | data | eot => cases typed
  | path path => exact stuck _ _ (.handles s path rest server received)

theorem mark_left {queue : List Message} (data : ofType Message.mtype msgData queue = []) (paths : ofType Message.mtype msgPath queue = [])
    (one : (ofType Message.mtype msgEot queue).length = 1) : queue = [.eot] := by
  have lengths := queue_types queue
  rw [paths,data,one] at lengths
  obtain ⟨message,alone⟩ := List.length_eq_one_iff.mp lengths
  rw [alone] at paths data
  rw [alone]
  cases message with
  | path => cases paths
  | data => cases data
  | eot => rfl

theorem stuck_transfer (fits : dataMax + 8 ≤ qbytes) (flow : Flow (fun _ => path) files log s) (books : Books (fun _ => path) log s)
    (stuck : Stuck (Step qbytes files) s) : (s.clients ()).place = .receiving ∧ s.server = .receiving ∧ s.queue = [.eot] := by
  cases place : (s.clients ()).place with
  | returned ret => exact absurd place ((books.account ()).goesOn ret)
  | opening => exact absurd (.opens s () place) (stuck _ _)
  | requesting =>
    have empty := unasked_empty flow (single_unasked books place)
    exact absurd (.requests s () _ place (send_empty fits (by simp [sendPathRequest,Message.size,pathMax,dataMax]) empty)) (stuck _ _)
  | receiving =>
    have asked := single_asked books (by simp [place])
    have handled := requests_length flow
    have lengths := queue_types s.queue
    have data := stuck_data stuck place
    have marks := flow.marks
    rw [asked,List.length_singleton] at handled
    rw [data,List.length_nil] at lengths
    cases server : s.server with
    | receiving =>
      have paths := stuck_paths stuck server
      rw [paths,List.length_nil] at handled
      rw [server] at marks
      simp only [ServerPlace.handling] at marks
      exact ⟨rfl,rfl,mark_left data paths (by omega)⟩
    | reading rest =>
      cases rest with
      | nil => exact absurd (.endOfFile s server) (stuck _ _)
      | cons byte rest => exact absurd (.reads s [byte] rest server (by simp) (by simp [dataMax])) (stuck _ _)
    | sending buffer rest =>
      rw [server] at marks
      simp only [ServerPlace.handling] at marks
      have empty : s.queue = [] := List.eq_nil_of_length_eq_zero (by omega)
      have whole : buffer.length + (List.replicate (dataMax - buffer.length) (0 : UInt8)).length = dataMax := by
        have small := (flow.buffers buffer rest server).2
        rw [List.length_replicate]
        omega
      exact absurd (.sends s buffer rest _ _ server whole (send_empty fits (Nat.le_refl _) empty)) (stuck _ _)
    | ending =>
      rw [server] at marks
      simp only [ServerPlace.handling] at marks
      have empty : s.queue = [] := List.eq_nil_of_length_eq_zero (by omega)
      exact absurd (.sendsEot s _ server (send_empty fits (by decide) empty)) (stuck _ _)

end

section
variable {path : CString} {bytes : List UInt8}

-- What is left when nobody can go on: the client has all bytes and waits for a packet of
-- length 0, but the end of the file has come as a message of another type.
theorem transfer_ends {s : System Unit} (short : path.val.length < pathMax) (opens : files path = some bytes) (fits : dataMax + 8 ≤ qbytes)
    (run : Runs (Step qbytes files) (start fun _ => path) log s) (stuck : Stuck (Step qbytes files) s) :
    (s.clients ()).place = .receiving ∧ (s.clients ()).saved = bytes ∧ s.queue = [.eot] := by
  obtain ⟨flow,books⟩ := reached_books run
  obtain ⟨place,server,queue⟩ := stuck_transfer fits flow books stuck
  refine ⟨place,?_,queue⟩
  have asked : log.filterMap Event.requests = [()] := single_asked books (by simp [place])
  have all : log.filterMap (Event.takesBy ()) = log.filterMap Event.takes := by
    apply List.filterMap_congr
    intro event _
    cases event <;> rfl
  have packets : log.filterMap Event.takes = log.filterMap Event.sends := by
    have kept := flow.packets
    rw [queue] at kept
    simpa [ofType,Message.mtype,msgEot,msgData] using kept
  have handled : log.filterMap Event.handles = [path] := by
    have requests := flow.requests
    rw [queue,asked] at requests
    have whole : MyFtp.asked path = path := take_short (Nat.le_pred_of_lt short)
    simpa [ofType,Message.mtype,msgEot,msgPath,whole] using requests
  have cut : (log.filterMap Event.sends).flatten = bytes := by
    have files := flow.cut
    rw [server,handled] at files
    simpa [ServerPlace.unsent,content,opens] using files
  rw [(books.account ()).saved,all,packets,cut]

-- What a transfer comes to: in the end the client has the file and returns 0, and the
-- queue is empty.
def Completes (qbytes : Nat) (files : CString → Option (List UInt8)) (path : CString) (bytes : List UInt8) : Prop :=
  ∀ log s, Runs (Step qbytes files) (start fun _ : Unit => path) log s → Stuck (Step qbytes files) s →
    (s.clients ()).place = .returned 0 ∧ (s.clients ()).saved = bytes ∧ s.queue = []

theorem transfer_never (qbytes : Nat) (files : CString → Option (List UInt8)) (path : CString) (bytes : List UInt8) :
    ¬ Completes qbytes files path bytes := by
  intro completes
  obtain ⟨log,s,run,stuck⟩ := Runs.ending (Step qbytes files) (fun _ _ _ => step_work) (start fun _ : Unit => path)
  obtain ⟨returned,_⟩ := completes log s run stuck
  exact ((reached_books run).2.account ()).goesOn 0 returned

end

-- A file of the two bytes "hi".
theorem transfer_hangs : ¬ Completes 16384 (fun _ => some [104,105]) ⟨[97],by decide⟩ [104,105] := by
  intro completes
  let files : CString → Option (List UInt8) := fun _ => some [104,105]
  obtain ⟨log,s,run,stuck⟩ := Runs.ending (Step 16384 files) (fun _ _ _ => step_work) (start fun _ : Unit => ⟨[97],by decide⟩)
  obtain ⟨waits,_⟩ := transfer_ends (by decide) rfl (by decide) run stuck
  obtain ⟨returned,_⟩ := completes log s run stuck
  rw [waits] at returned
  cases returned

end LinuxCoding.MyFtp
