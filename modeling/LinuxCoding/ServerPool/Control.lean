import LinuxCoding.ServerPool.Model

namespace LinuxCoding.ServerPool
open Total

def ServerSt.Known (server : ServerSt) : Prop := server.empty = true ∨ server.idle = true ∨ server.busy = true

theorem idle_nonempty {server : ServerSt} (idle : server.idle = true) : server.empty = false ∧ server.busy = false := by
  simp only [ServerSt.idle,Bool.and_eq_true,decide_eq_true_eq] at idle
  simp [ServerSt.empty,ServerSt.busy,idle.1,idle.2,stateIdle,stateBusy]

theorem busy_nonempty {server : ServerSt} (busy : server.busy = true) : server.empty = false ∧ server.idle = false := by
  simp only [ServerSt.busy,Bool.and_eq_true,decide_eq_true_eq] at busy
  simp [ServerSt.empty,ServerSt.idle,busy.1,busy.2,stateIdle,stateBusy]

theorem empty_unused {server : ServerSt} (empty : server.empty = true) : server.idle = false ∧ server.busy = false := by
  have gone : server.pid = -1 := by simpa [ServerSt.empty] using empty
  simp [ServerSt.idle,ServerSt.busy,gone]

theorem clear_empty (server : ServerSt) : server.clear.empty = true := by simp [ServerSt.clear,ServerSt.empty]

def Pool.idleServers (p : Pool n) : Nat := tally ServerSt.idle p.serverpool
def Pool.busyServers (p : Pool n) : Nat := tally ServerSt.busy p.serverpool
def Pool.emptySlots (p : Pool n) : Nat := tally ServerSt.empty p.serverpool

-- The two counters agree with the slots.
structure Counted (p : Pool n) : Prop where
  idle : p.idleCount = p.idleServers
  busy : p.busyCount = p.busyServers
  known : ∀ i, (p.serverpool i).Known

theorem tally_list (kind : α → Bool) (f : Fin n → α) : tally kind f = (List.finRange n).countP (fun i => kind (f i)) := by
  have sums : ∀ l : List (Fin n), (l.map (fun i => (kind (f i)).toNat)).sum = l.countP (fun i => kind (f i)) := by
    intro l
    induction l with
    | nil => rfl
    | cons i rest ih =>
      rw [List.map_cons,List.sum_cons,List.countP_cons,ih]
      cases kind (f i) with
      | true => exact Nat.add_comm ..
      | false => exact Nat.zero_add _
  rw [← sums,← List.sum_toFinset _ (List.nodup_finRange n)]
  simp [tally,total]

theorem scanFrom_visit {p q : Pool n} (ran : scanFrom alive (i :: rest) p idle busy = some q) :
    ∃ server : ServerSt, server.Known ∧
      scanFrom alive rest (p.put i server) (idle + server.idle.toNat) (busy + server.busy.toNat) = some q := by
  have unchanged : p.put i (p.serverpool i) = p := by simp [Pool.put]
  unfold scanFrom at ran
  split at ran
  · rename_i gone
    have empty : (p.serverpool i).empty = true := by simp [ServerSt.empty,gone]
    exact ⟨p.serverpool i,.inl empty,by simpa [unchanged,empty_unused empty] using ran⟩
  · rename_i present
    split at ran
    · have empty := clear_empty (p.serverpool i)
      exact ⟨_,.inl empty,by simpa [empty_unused empty] using ran⟩
    · split at ran
      · rename_i idling
        have idle : (p.serverpool i).idle = true := by simp [ServerSt.idle,present,idling]
        exact ⟨p.serverpool i,.inr (.inl idle),by simpa [unchanged,idle,idle_nonempty idle] using ran⟩
      · split at ran
        · rename_i working
          have busy : (p.serverpool i).busy = true := by simp [ServerSt.busy,present,working]
          exact ⟨p.serverpool i,.inr (.inr busy),by simpa [unchanged,busy,busy_nonempty busy] using ran⟩
        · cases ran

theorem scanFrom_counts {p q : Pool n} {slots : List (Fin n)} (distinct : slots.Nodup) (ran : scanFrom alive slots p idle busy = some q) :
    (∀ k, k ∉ slots → q.serverpool k = p.serverpool k) ∧
    q.idleCount = idle + slots.countP (fun i => (q.serverpool i).idle) ∧
    q.busyCount = busy + slots.countP (fun i => (q.serverpool i).busy) ∧
    ∀ i ∈ slots, (q.serverpool i).Known := by
  induction slots generalizing p idle busy with
  | nil =>
    cases ran
    exact ⟨fun _ _ => rfl,by simp,by simp,by simp⟩
  | cons i rest ih =>
    obtain ⟨fresh,distinct⟩ := List.nodup_cons.mp distinct
    obtain ⟨server,new,ran⟩ := scanFrom_visit ran
    obtain ⟨kept,idles,busys,known⟩ := ih distinct ran
    have here : q.serverpool i = server := by
      rw [kept i fresh]
      exact Function.update_self ..
    refine ⟨?_,?_,?_,List.forall_mem_cons.mpr ⟨by rw [here]; exact new,known⟩⟩
    · intro k outside
      rw [kept k (fun member => outside (List.mem_cons_of_mem i member))]
      exact Function.update_of_ne (fun same => outside (by rw [same]; exact List.mem_cons_self)) ..
    · rw [idles,List.countP_cons,here]
      cases server.idle with
      | true => simp; omega
      | false => simp
    · rw [busys,List.countP_cons,here]
      cases server.busy with
      | true => simp; omega
      | false => simp

theorem scanPool_counts {p q : Pool n} (scanned : scanPool alive p = some q) : Counted q := by
  obtain ⟨_,idles,busys,known⟩ := scanFrom_counts (List.nodup_finRange n) scanned
  refine ⟨?_,?_,fun i => known i (List.mem_finRange i)⟩
  · rw [idles,Pool.idleServers,tally_list]
    omega
  · rw [busys,Pool.busyServers,tally_list]
    omega

theorem put_counted {p : Pool n} (counted : Counted p) (new : server.Known)
    (idles : idleCount + (p.serverpool i).idle.toNat = p.idleCount + server.idle.toNat)
    (busys : (p.serverpool i).busy = server.busy) : Counted {p.put i server with idleCount := idleCount} := by
  have idleMoved : (p.put i server).idleServers + (p.serverpool i).idle.toNat = p.idleServers + server.idle.toNat :=
    tally_update ..
  have busyMoved : (p.put i server).busyServers + (p.serverpool i).busy.toNat = p.busyServers + server.busy.toNat :=
    tally_update ..
  refine ⟨?_,?_,?_⟩
  · have before := counted.idle
    change idleCount = ((p.put i server).idleServers : Int)
    omega
  · have before := counted.busy
    rw [busys] at busyMoved
    change p.busyCount = ((p.put i server).busyServers : Int)
    omega
  · intro k
    by_cases same : k = i
    · subst same
      simpa [Pool.put] using new
    · simpa [Pool.put,same] using counted.known k

theorem slots_partition {p : Pool n} (known : ∀ i, (p.serverpool i).Known) :
    p.idleServers + p.busyServers + p.emptySlots = n := by
  have one : ∀ i, (p.serverpool i).idle.toNat + (p.serverpool i).busy.toNat + (p.serverpool i).empty.toNat = 1 := by
    intro i
    rcases known i with empty | idle | busy
    · simp [empty,empty_unused empty]
    · simp [idle,idle_nonempty idle]
    · simp [busy,busy_nonempty busy]
  calc p.idleServers + p.busyServers + p.emptySlots
      = ∑ i, ((p.serverpool i).idle.toNat + (p.serverpool i).busy.toNat + (p.serverpool i).empty.toNat) := by
        simp [Pool.idleServers,Pool.busyServers,Pool.emptySlots,tally,total,Finset.sum_add_distrib]
    _ = n := by simp [one]

theorem del1Server_counts {p : Pool n} (counted : Counted p) (positive : 0 < p.idleCount) :
    Counted (del1Server p).1 ∧ (del1Server p).1.idleCount = p.idleCount - 1 ∧
      (del1Server p).1.busyCount = p.busyCount := by
  unfold del1Server
  rw [if_neg (by omega)]
  cases found : (List.finRange n).find? (fun i => (p.serverpool i).idle) with
  | none =>
    have unused : p.idleServers = 0 := tally_zero (fun i => by simpa using List.find?_eq_none.mp found i (List.mem_finRange i))
    have := counted.idle
    omega
  | some i =>
    have idle : (p.serverpool i).idle = true := by simpa using List.find?_some found
    have gone := clear_empty (p.serverpool i)
    refine ⟨put_counted counted (.inl gone) ?_ ?_,rfl,rfl⟩
    · simp [idle,empty_unused gone]
    · rw [(idle_nonempty idle).2,(empty_unused gone).2]

theorem add1Server_counts {p : Pool n} (fork : Fin n → Option Pid) (counted : Counted p) (room : p.idleCount + p.busyCount < n) :
    (∃ q, add1Server fork p = .ok (q,0) ∧ Counted q ∧ q.idleCount = p.idleCount + 1 ∧ q.busyCount = p.busyCount) ∨
      (add1Server fork p = .error .exits ∧ ∃ slot, fork slot = none) := by
  unfold add1Server
  rw [if_neg (by omega)]
  cases found : (List.finRange n).find? (fun slot => (p.serverpool slot).empty) with
  | none =>
    have full : p.emptySlots = 0 := tally_zero (fun i => by simpa using List.find?_eq_none.mp found i (List.mem_finRange i))
    have := slots_partition counted.known
    have := counted.idle
    have := counted.busy
    omega
  | some slot =>
    have empty : (p.serverpool slot).empty = true := by simpa using List.find?_some found
    cases forked : fork slot with
    | none => exact .inr ⟨by simp only [forked],slot,forked⟩
    | some pid =>
      left
      have positive := pid.property
      have idle : (⟨pid,stateIdle⟩ : ServerSt).idle = true := by
        have named : pid.val ≠ -1 := by omega
        simp [ServerSt.idle,named]
      refine ⟨{p.put slot ⟨pid,stateIdle⟩ with idleCount := p.idleCount + 1},by simp only [forked],put_counted counted (.inr (.inl idle)) ?_ ?_,rfl,rfl⟩
      · simp [idle,empty_unused empty]
      · rw [(idle_nonempty idle).2,(empty_unused empty).2]

theorem add1Server_moves {p q : Pool n} (counted : Counted p) (added : add1Server fork p = .ok (q,ret)) :
    (p.idleCount + p.busyCount ≥ n ∧ p = q) ∨ (p.idleCount + p.busyCount < n ∧ Counted q ∧
      q.busyCount = p.busyCount ∧ q.idleCount = p.idleCount + 1) := by
  by_cases full : p.idleCount + p.busyCount ≥ n
  · simp only [add1Server,if_pos full,Except.ok.injEq,Prod.mk.injEq] at added
    exact .inl ⟨full,added.1⟩
  · have room : p.idleCount + p.busyCount < n := by omega
    rcases add1Server_counts fork counted room with ⟨r,grown,counts,idle,busy⟩ | ⟨exits,_⟩
    · rw [added] at grown
      cases grown
      exact .inr ⟨room,counts,busy,idle⟩
    · rw [added] at exits
      cases exits

-- The bound of either loop moves towards its index, so each loop covers half the
-- distance, rounded up.
def half (distance : Int) : Nat := (distance.toNat + 1) / 2

theorem half_step (positive : 0 < distance) : half distance = half (distance - 2) + 1 := by
  simp only [half]
  omega

theorem half_bound (positive : 0 < distance) : (half distance : Int) ≤ distance := by
  simp only [half]
  omega

theorem half_one {distance : Int} (positive : 0 < distance) : distance ≤ 1 ↔ (half distance : Int) = distance := by
  simp only [half]
  omega

theorem half_enough {missing : Int} (positive : 0 < missing) (free : Int) :
    min missing free ≤ min free (half missing) ↔ missing ≤ 1 ∨ free ≤ half missing := by
  have bound := half_bound positive
  have one := half_one positive
  constructor
  · intro enough
    by_cases covers : free ≤ half missing
    · exact .inr covers
    · rw [min_eq_right (le_of_not_ge covers)] at enough
      exact .inl (one.mpr (by omega))
  · rintro (single | covers)
    · rw [one.mp single,min_comm]
    · rw [min_eq_left covers]
      exact min_le_right _ _

theorem delLoop_counts (maxSpare : Nat) {p : Pool n} (counted : Counted p) (begun : 0 ≤ i) :
    Counted (delLoop maxSpare i p) ∧ (delLoop maxSpare i p).busyCount = p.busyCount ∧
      (delLoop maxSpare i p).idleCount = p.idleCount - half (p.idleCount - maxSpare - i) := by
  induction i, p using delLoop.induct maxSpare with
  | case1 i p more ih =>
    obtain ⟨counts,idle,busy⟩ := del1Server_counts counted (by omega)
    obtain ⟨final,busyFinal,idleFinal⟩ := ih counts (by omega)
    rw [delLoop,if_pos more]
    refine ⟨final,busyFinal.trans busy,?_⟩
    rw [idleFinal,idle]
    simp only [half]
    omega
  | case2 i p done =>
    rw [delLoop,if_neg done]
    refine ⟨counted,rfl,?_⟩
    simp only [half]
    omega

theorem addLoop_exits {minSpare : Nat} {p : Pool n} (more : i < minSpare - p.idleCount) (failed : add1Server fork p = .error fault) :
    addLoop minSpare fork i p = .error fault := by
  rw [addLoop,if_pos more]
  split
  · rename_i same
    rw [failed] at same
    cases same
    rfl
  · rename_i same
    rw [failed] at same
    cases same

theorem addLoop_goes {minSpare : Nat} {p q : Pool n} (more : i < minSpare - p.idleCount) (added : add1Server fork p = .ok (q,ret)) :
    addLoop minSpare fork i p = addLoop minSpare fork (i + 1) q := by
  rw [addLoop,if_pos more]
  split
  · rename_i same
    rw [added] at same
    cases same
  · rename_i same
    rw [added] at same
    cases same
    rfl

theorem addLoop_counts (minSpare : Nat) (fork : Fin n → Option Pid) {p : Pool n} (counted : Counted p) :
    (∃ q, addLoop minSpare fork i p = .ok q ∧ Counted q ∧ q.busyCount = p.busyCount ∧
      q.idleCount = p.idleCount + min (n - p.busyCount - p.idleCount).toNat (half (minSpare - p.idleCount - i))) ∨
    (addLoop minSpare fork i p = .error .exits ∧ ∃ slot, fork slot = none) := by
  have room := slots_partition counted.known
  have idles := counted.idle
  have busys := counted.busy
  induction i, p using addLoop.induct minSpare fork with
  | case1 i p more fault failed =>
    by_cases full : p.idleCount + p.busyCount ≥ n
    · simp [add1Server,full] at failed
    · rcases add1Server_counts fork counted (by omega) with ⟨q,added,_⟩ | ⟨exits,forks⟩
      · rw [failed] at added
        cases added
      · rw [failed] at exits
        cases exits
        exact .inr ⟨addLoop_exits more failed,forks⟩
  | case2 i p more q ret added ih =>
    rw [addLoop_goes more added]
    rcases add1Server_moves counted added with ⟨full,rfl⟩ | ⟨roomy,counts,busy,idle⟩
    · rcases ih counted room idles busys with ⟨final,ran,finalCounts,finalBusy,finalIdle⟩ | exits
      · left
        refine ⟨final,ran,finalCounts,finalBusy,?_⟩
        have none : (n - p.busyCount - p.idleCount).toNat = 0 := by omega
        rw [finalIdle,none,Nat.zero_min,Nat.zero_min]
      · exact .inr exits
    · have roomAfter := slots_partition counts.known
      rcases ih counts roomAfter counts.idle counts.busy with ⟨final,ran,finalCounts,finalBusy,finalIdle⟩ | exits
      · left
        refine ⟨final,ran,finalCounts,finalBusy.trans busy,?_⟩
        have fewer : (n - p.busyCount - p.idleCount).toNat = (n - q.busyCount - q.idleCount).toNat + 1 := by omega
        have nearer : half (minSpare - p.idleCount - i) = half (minSpare - q.idleCount - (i + 1)) + 1 := by
          rw [half_step (by omega)]
          congr 2
          omega
        rw [finalIdle,fewer,nearer,Nat.add_min_add_right]
        omega
      · exact .inr exits
  | case3 i p done =>
    left
    refine ⟨p,by rw [addLoop,if_neg done],counted,rfl,?_⟩
    simp only [half]
    omega

-- What a pass of the control block is for.
def Restored (minSpare maxSpare : Nat) (q : Pool n) : Prop :=
  q.idleCount ≤ maxSpare ∧ min (minSpare : Int) (n - q.busyCount) ≤ q.idleCount

-- At most one server is to be removed, or at most one to be started, or there is room
-- for no more than half of those to be started.
def Within (minSpare maxSpare : Nat) (p : Pool n) : Prop :=
  p.idleCount ≤ maxSpare + 1 ∧
    (minSpare ≤ p.idleCount + 1 ∨ n - p.busyCount - p.idleCount ≤ half (minSpare - p.idleCount))

theorem control_exact (minSpare maxSpare : Nat) {before p : Pool n} (fork : Fin n → Option Pid)
    (order : minSpare ≤ maxSpare ∧ maxSpare ≤ n) (scanned : scanPool alive before = some p) :
    (∀ q, control minSpare maxSpare fork p = .ok q → Counted q ∧ q.busyCount = p.busyCount ∧
      (Restored minSpare maxSpare q ↔ Within minSpare maxSpare p)) ∧
    control minSpare maxSpare fork p ≠ .error .overrun ∧
    ((∀ slot, fork slot ≠ none) → ∃ q, control minSpare maxSpare fork p = .ok q) := by
  have counted := scanPool_counts scanned
  have room := slots_partition counted.known
  have idles := counted.idle
  have busys := counted.busy
  unfold control
  by_cases surplus : p.idleCount > maxSpare
  · rw [if_pos surplus]
    obtain ⟨counts,busy,idle⟩ := delLoop_counts maxSpare counted (i := 0) (by omega)
    refine ⟨?_,by simp,fun _ => ⟨_,rfl⟩⟩
    rintro q ⟨⟩
    refine ⟨counts,busy,?_⟩
    simp only [Restored,Within,idle,busy,half]
    omega
  · rw [if_neg surplus]
    by_cases missing : p.idleCount < minSpare
    · rw [if_pos missing]
      rcases addLoop_counts minSpare fork (i := 0) counted with ⟨final,ran,counts,busy,idle⟩ | ⟨exits,slot,failed⟩
      · rw [ran]
        refine ⟨?_,by simp,fun _ => ⟨_,rfl⟩⟩
        rintro q ⟨⟩
        refine ⟨counts,busy,?_⟩
        have positive : 0 < (minSpare : Int) - p.idleCount := by omega
        have bound := half_bound positive
        have free : 0 ≤ n - p.busyCount - p.idleCount := by omega
        have enough := half_enough positive (n - p.busyCount - p.idleCount)
        rw [Int.sub_zero] at idle
        simp only [Restored,Within,idle,busy]
        generalize half ((minSpare : Int) - p.idleCount) = covered at bound enough ⊢
        constructor
        · rintro ⟨-,low⟩
          refine ⟨by omega,?_⟩
          rcases enough.mp (by omega) with one | short
          · exact .inl (by omega)
          · exact .inr short
        · rintro ⟨-,within⟩
          have low := enough.mpr (within.imp (fun one => by omega) id)
          exact ⟨by omega,by omega⟩
      · rw [exits]
        refine ⟨?_,by simp,fun forks => absurd failed (forks slot)⟩
        intro q returned
        cases returned
    · rw [if_neg missing]
      refine ⟨?_,by simp,fun _ => ⟨_,rfl⟩⟩
      rintro q ⟨⟩
      refine ⟨counted,rfl,?_⟩
      simp only [Restored,Within,half]
      omega

-- A pool of MAXCLIENT = 20 slots whose first `idle` slots hold idle servers.
def waiting (idle : Nat) : Pool 20 := ⟨fun i => ⟨if (i : Nat) < idle then (i : Nat) + 100 else -1,stateIdle⟩,0,0⟩

theorem waiting_scanned : scanPool (fun _ => true) (waiting 11) = some {waiting 11 with idleCount := 11} ∧
    scanPool (fun _ => true) (waiting 12) = some {waiting 12 with idleCount := 12} := ⟨rfl,rfl⟩

-- One idle server too many is removed.
theorem control_one_surplus : ∃ q, control 5 10 (fun _ => none) {waiting 11 with idleCount := 11} = .ok q ∧
    Restored 5 10 q := by
  have exactly := control_exact 5 10 (fun _ => none) (by decide) waiting_scanned.1
  have ran : control 5 10 (fun _ => none) {waiting 11 with idleCount := 11} = .ok (delLoop 10 0 {waiting 11 with idleCount := 11}) := rfl
  exact ⟨_,ran,(exactly.1 _ ran).2.2.mpr (by simp [Within,waiting])⟩

theorem control_broken : ¬ ∀ (n minSpare maxSpare : Nat) (alive : Int → Bool) (fork : Fin n → Option Pid)
    (before p q : Pool n), minSpare ≤ maxSpare → maxSpare ≤ n → (∀ slot, fork slot ≠ none) →
    scanPool alive before = some p → control minSpare maxSpare fork p = .ok q → Restored minSpare maxSpare q := by
  intro restores
  have counted := scanPool_counts waiting_scanned.2
  have left : (delLoop 10 0 {waiting 12 with idleCount := 12}).idleCount = 11 :=
    (delLoop_counts 10 counted (i := 0) (by decide)).2.2
  have restored := restores 20 5 10 (fun _ => true) (fun _ => some ⟨7,by decide⟩) (waiting 12) _ _
    (by decide) (by decide) (by simp) waiting_scanned.2 rfl
  have bound := restored.1
  rw [left] at bound
  exact absurd bound (by decide)

end LinuxCoding.ServerPool
