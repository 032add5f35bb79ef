import Mathlib.Algebra.Order.BigOperators.Group.List
import Mathlib.Algebra.Order.Group.Nat
import Mathlib.Algebra.Ring.Nat
import Mathlib.Data.List.Nodup
import Mathlib.Data.Nat.Find

-- A recursive walk over a graph that keeps no record of where it has been.
namespace LinuxCoding.Traversal

section
variable {α : Type}

-- The visits of a list, one after the other.
def visitAll (visit : α → Option (List α)) : List α → Option (List α)
  | [] => some []
  | a :: rest => do
    let first ← visit a
    let later ← visitAll visit rest
    some (first ++ later)

-- What a walk comes to. The fuel bounds its depth, and none is a walk that has not returned.
def visit (next : α → List α) : Nat → α → Option (List α)
  | 0,_ => none
  | fuel + 1,a => do
    let below ← visitAll (visit next fuel) (next a)
    some (a :: below)

variable {next : α → List α}

theorem visitAll_cons {f : α → Option (List α)} (visited : visitAll f (a :: rest) = some v) :
    ∃ first later, f a = some first ∧ visitAll f rest = some later ∧ v = first ++ later := by
  simp only [visitAll,bind,Option.bind_eq_some_iff,Option.some.injEq] at visited
  obtain ⟨first,first_,later,later_,same⟩ := visited
  exact ⟨first,later,first_,later_,same.symm⟩

theorem visit_succ (visited : visit next (fuel + 1) a = some v) :
    ∃ below, visitAll (visit next fuel) (next a) = some below ∧ v = a :: below := by
  simp only [visit,bind,Option.bind_eq_some_iff,Option.some.injEq] at visited
  obtain ⟨below,below_,same⟩ := visited
  exact ⟨below,below_,same.symm⟩

theorem visitAll_mono {f g : α → Option (List α)} (agree : ∀ a v, f a = some v → g a = some v) (visited : visitAll f list = some v) :
    visitAll g list = some v := by
  induction list generalizing v with
  | nil => exact visited
  | cons a rest ih =>
    obtain ⟨first,later,first_,later_,same⟩ := visitAll_cons visited
    simp [visitAll,agree a first first_,ih later_,same]

theorem visit_more (visited : visit next fuel a = some v) : visit next (fuel + 1) a = some v := by
  induction fuel generalizing a v with
  | zero => cases visited
  | succ fuel ih =>
    obtain ⟨below,below_,same⟩ := visit_succ visited
    have again := visitAll_mono (fun a v => ih) below_
    rw [visit,again,same]
    rfl

theorem visit_le (visited : visit next fuel a = some v) (le : fuel ≤ more) : visit next more a = some v := by
  induction le with
  | refl => exact visited
  | step _ ih => exact visit_more ih

-- Each visit lists what follows its visits.
theorem visitAll_flat {f : α → Option (List α)} (each : ∀ a v, f a = some v → v.Perm (a :: v.flatMap next)) (visited : visitAll f list = some v) :
    v.Perm (list ++ v.flatMap next) := by
  induction list generalizing v with
  | nil =>
    cases visited
    exact .nil
  | cons a rest ih =>
    obtain ⟨first,later,first_,later_,rfl⟩ := visitAll_cons visited
    have joined := (each a first first_).append (ih later_)
    refine joined.trans ?_
    rw [List.flatMap_append,List.cons_append,List.cons_append]
    refine .cons a ?_
    rw [← List.append_assoc,← List.append_assoc]
    exact .append_right _ List.perm_append_comm

theorem visit_flat (visited : visit next fuel a = some v) : v.Perm (a :: v.flatMap next) := by
  induction fuel generalizing a v with
  | zero => cases visited
  | succ fuel ih =>
    obtain ⟨below,below_,rfl⟩ := visit_succ visited
    rw [List.flatMap_cons]
    exact .cons a (visitAll_flat (fun a v => ih) below_)

theorem visitAll_member {f : α → Option (List α)} (visited : visitAll f list = some v) (member : a ∈ list) : ∃ w, f a = some w := by
  induction list generalizing v with
  | nil => cases member
  | cons b rest ih =>
    obtain ⟨first,later,first_,later_,_⟩ := visitAll_cons visited
    rcases List.mem_cons.mp member with rfl | inRest
    · exact ⟨first,first_⟩
    · exact ih later_ inRest

theorem visitAll_source {f : α → Option (List α)} (visited : visitAll f list = some v) (member : a ∈ v) :
    ∃ b ∈ list, ∃ w, f b = some w ∧ a ∈ w := by
  induction list generalizing v with
  | nil =>
    cases visited
    cases member
  | cons b rest ih =>
    obtain ⟨first,later,first_,later_,rfl⟩ := visitAll_cons visited
    rcases List.mem_append.mp member with inFirst | inLater
    · exact ⟨b,List.mem_cons_self,first,first_,inFirst⟩
    · obtain ⟨c,inRest,w,w_,inW⟩ := ih later_ inLater
      exact ⟨c,List.mem_cons_of_mem b inRest,w,w_,inW⟩

-- A walk returns from whatever it comes to, and from what follows that with less fuel.
theorem visit_inner (visited : visit next fuel a = some v) (member : b ∈ v) : ∃ w, visit next fuel b = some w := by
  induction fuel generalizing a v with
  | zero => cases visited
  | succ fuel ih =>
    have whole := visited
    obtain ⟨below,below_,rfl⟩ := visit_succ visited
    rcases List.mem_cons.mp member with rfl | inBelow
    · exact ⟨_,whole⟩
    · obtain ⟨c,_,w,w_,inW⟩ := visitAll_source below_ inBelow
      obtain ⟨u,u_⟩ := ih w_ inW
      exact ⟨u,visit_more u_⟩

theorem visit_next (visited : visit next (fuel + 1) a = some v) (member : b ∈ next a) : ∃ w, visit next fuel b = some w := by
  obtain ⟨below,below_,_⟩ := visit_succ visited
  exact visitAll_member below_ member

theorem visitAll_returns {f : α → Option (List α)} {nodes : List α}
    (each : ∀ a ∈ list, ∃ v, f a = some v ∧ ∀ b ∈ v, b ∈ nodes) : ∃ v, visitAll f list = some v ∧ ∀ b ∈ v, b ∈ nodes := by
  induction list with
  | nil => exact ⟨[],rfl,nofun⟩
  | cons a rest ih =>
    obtain ⟨first,first_,inFirst⟩ := each a List.mem_cons_self
    obtain ⟨later,later_,inLater⟩ := ih (fun b member => each b (List.mem_cons_of_mem a member))
    exact ⟨first ++ later,by simp [visitAll,first_,later_],List.forall_mem_append.mpr ⟨inFirst,inLater⟩⟩

-- A walk returns if something falls along every edge it can take.
theorem visit_returns {nodes : List α} {measure : α → Nat} (closed : ∀ a ∈ nodes, ∀ b ∈ next a, b ∈ nodes)
    (falls : ∀ a ∈ nodes, ∀ b ∈ next a, measure b < measure a) (inside : a ∈ nodes) (enough : measure a < fuel) :
    ∃ v, visit next fuel a = some v ∧ ∀ b ∈ v, b ∈ nodes := by
  induction fuel generalizing a with
  | zero => exact absurd enough (Nat.not_lt_zero _)
  | succ fuel ih =>
    have each : ∀ b ∈ next a, ∃ v, visit next fuel b = some v ∧ ∀ c ∈ v, c ∈ nodes := by
      intro b edge
      have less := falls a inside b edge
      exact ih (closed a inside b edge) (by omega)
    obtain ⟨below,below_,inBelow⟩ := visitAll_returns each
    exact ⟨a :: below,by simp [visit,below_],List.forall_mem_cons.mpr ⟨inside,inBelow⟩⟩

theorem falls_fuel (visited : visit next fuel root = some v) :
    ∃ measure : α → Nat, ∀ a ∈ v, ∀ b ∈ next a, measure b < measure a := by
  classical
  refine ⟨fun a => if returns : ∃ fuel w, visit next fuel a = some w then Nat.find returns else 0,?_⟩
  intro a member b edge
  have returns : ∃ fuel w, visit next fuel a = some w := ⟨fuel,visit_inner visited member⟩
  obtain ⟨w,w_⟩ := Nat.find_spec returns
  dsimp only
  rw [dif_pos returns]
  cases least : Nat.find returns with
  | zero =>
    rw [least] at w_
    cases w_
  | succ fewer =>
    rw [least] at w_
    obtain ⟨u,u_⟩ := visit_next w_ edge
    have inner : ∃ fuel w, visit next fuel b = some w := ⟨fewer,u,u_⟩
    rw [dif_pos inner]
    exact Nat.lt_succ_of_le (Nat.find_min' inner ⟨u,u_⟩)

variable [DecidableEq α]

-- Where numbers add up to one, one of them is one and the others are zero.
theorem sum_one {weight : α → Nat} {list : List α} (distinct : list.Nodup) (sum : (list.map weight).sum = 1) :
    ∃ a ∈ list, ∀ b ∈ list, weight b = if b = a then 1 else 0 := by
  induction list with
  | nil => cases sum
  | cons a rest ih =>
    rw [List.map_cons,List.sum_cons] at sum
    obtain ⟨fresh,distinct⟩ := List.nodup_cons.mp distinct
    cases own : weight a with
    | zero =>
      obtain ⟨c,member,others⟩ := ih distinct (by omega)
      refine ⟨c,List.mem_cons_of_mem a member,List.forall_mem_cons.mpr ⟨?_,others⟩⟩
      have apart : a ≠ c := fun same => fresh (same ▸ member)
      rw [own,if_neg apart]
    | succ n =>
      have zero : (rest.map weight).sum = 0 := by omega
      refine ⟨a,List.mem_cons_self,List.forall_mem_cons.mpr ⟨?_,?_⟩⟩
      · rw [if_pos rfl]
        omega
      · intro b member
        have apart : b ≠ a := fun same => fresh (same ▸ member)
        rw [if_neg apart]
        exact List.sum_eq_zero_iff_forall_eq_nat.mp zero _ (List.mem_map_of_mem member)

theorem sum_indicator {weight : α → Nat} {list : List α} (others : ∀ b ∈ list, weight b = if b = a then 1 else 0) :
    (list.map weight).sum = list.count a := by
  induction list with
  | nil => rfl
  | cons b rest ih =>
    obtain ⟨first,later⟩ := List.forall_mem_cons.mp others
    rw [List.map_cons,List.sum_cons,first,ih later,List.count_cons]
    simp [Nat.add_comm]

-- Each node but the root follows exactly one node, once.
def Covers (next : α → List α) (root : α) (below : List α) : Prop :=
  ((root :: below).flatMap next).Perm below ∧ ∃ measure : α → Nat, ∀ a ∈ root :: below, ∀ b ∈ next a, measure b < measure a

theorem Covers.parent {root : α} {below : List α} (covers : ((root :: below).flatMap next).Perm below) (distinct : (root :: below).Nodup)
    (member : x ∈ below) : ∃ a ∈ root :: below, ∀ b ∈ root :: below, (next b).count x = if b = a then 1 else 0 := by
  have count : ((root :: below).map (fun a => (next a).count x)).sum = 1 := by
    have flat := List.count_flatMap (l := root :: below) (f := next) (x := x)
    rw [covers.count_eq,List.count_eq_one_of_mem (List.nodup_cons.mp distinct).2 member] at flat
    exact flat.symm
  exact sum_one distinct count

-- The walk from the root meets each node as often as the one that it follows.
theorem Covers.visits {root : α} {below v : List α} (covers : Covers next root below) (distinct : (root :: below).Nodup)
    (flat : v.Perm (root :: v.flatMap next)) (inside : ∀ a ∈ v, a ∈ root :: below) : v.Perm (root :: below) := by
  obtain ⟨covers,measure,falls⟩ := covers
  have closed : ∀ a ∈ root :: below, ∀ b ∈ next a, b ∈ below := by
    intro a member b edge
    exact covers.mem_iff.mp (List.mem_flatMap.mpr ⟨a,member,edge⟩)
  have rootFree : ∀ a ∈ v, root ∉ next a := by
    intro a member edge
    exact (List.nodup_cons.mp distinct).1 (closed a (inside a member) root edge)
  have each : ∀ x ∈ root :: below, v.count x = 1 := by
    intro x member
    induction above : ((root :: below).map measure).sum - measure x using Nat.strongRecOn generalizing x with
    | ind above ih =>
      by_cases first : x = root
      · subst first
        have none : (v.flatMap next).count x = 0 := by
          apply List.count_eq_zero_of_not_mem
          intro later
          obtain ⟨a,member,edge⟩ := List.mem_flatMap.mp later
          exact rootFree a member edge
        rw [flat.count_eq,List.count_cons_self,none]
      · have later : x ∈ below := (List.mem_cons.mp member).resolve_left first
        obtain ⟨a,parent,others⟩ := Covers.parent covers distinct later
        have edge : x ∈ next a := by
          have one := others a parent
          rw [if_pos rfl] at one
          exact List.count_pos_iff.mp (by omega)
        have less := falls a parent x edge
        have bound := List.le_sum_of_mem (List.mem_map_of_mem (f := measure) parent)
        have counted := ih _ (by omega) a parent rfl
        rw [flat.count_eq,List.count_cons_of_ne (Ne.symm first),List.count_flatMap,← counted]
        exact sum_indicator fun b inV => others b (inside b inV)
  rw [List.perm_iff_count]
  intro x
  by_cases member : x ∈ root :: below
  · rw [each x member,List.count_eq_one_of_mem distinct member]
  · rw [List.count_eq_zero_of_not_mem member,List.count_eq_zero_of_not_mem fun inV => member (inside x inV)]

theorem visit_covers {root : α} {below : List α} (distinct : (root :: below).Nodup) :
    (∃ fuel v, visit next fuel root = some v ∧ v.Perm (root :: below)) ↔ Covers next root below := by
  constructor
  · intro ⟨fuel,v,visited,whole⟩
    obtain ⟨measure,falls⟩ := falls_fuel visited
    have flat := (visit_flat visited).symm.trans whole
    refine ⟨(whole.symm.flatMap_right next).trans flat.cons_inv,measure,?_⟩
    intro a member b edge
    exact falls a (whole.mem_iff.mpr member) b edge
  · intro covers
    obtain ⟨perm,measure,falls⟩ := covers
    have closed : ∀ a ∈ root :: below, ∀ b ∈ next a, b ∈ root :: below := by
      intro a member b edge
      exact List.mem_cons_of_mem _ (perm.mem_iff.mp (List.mem_flatMap.mpr ⟨a,member,edge⟩))
    obtain ⟨v,visited,inside⟩ := visit_returns closed falls List.mem_cons_self (Nat.lt_succ_self (measure root))
    exact ⟨_,v,visited,Covers.visits ⟨perm,measure,falls⟩ distinct (visit_flat visited) inside⟩

end

end LinuxCoding.Traversal
