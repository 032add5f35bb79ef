import Mathlib.Algebra.Ring.Nat
import Mathlib.Logic.Relation
import LinuxCoding.Library.Total

-- A game of hands on a table: each hand holds one tree at a time, takes it from the front
-- of a queue and puts its subtrees at the back, one after the other. The queue is bounded,
-- and the hands that fill it are the ones that empty it.
namespace LinuxCoding.Hands
open Relation Total

-- The subtrees of a tree, in order, each as the forest below it.
inductive Forest where
  | nil
  | node (sub rest : Forest)
  deriving DecidableEq

structure Table (n : Nat) where
  hands : Fin n → Option Forest
  queue : List Forest

inductive Move (capacity : Nat) : Table n → Table n → Prop where
  | take (t : Table n) (i : Fin n) (item : Forest) (queue : List Forest) : t.hands i = none → t.queue = item :: queue →
      Move capacity t ⟨Function.update t.hands i (some item),queue⟩
  | store (t : Table n) (i : Fin n) (sub rest : Forest) : t.hands i = some (.node sub rest) → t.queue.length < capacity →
      Move capacity t ⟨Function.update t.hands i (some rest),t.queue ++ [sub]⟩
  | close (t : Table n) (i : Fin n) : t.hands i = some .nil → Move capacity t ⟨Function.update t.hands i none,t.queue⟩

def start (n : Nat) (root : Forest) : Table n := ⟨fun _ => none,[root]⟩

def Reaches (capacity : Nat) (root : Forest) (t : Table n) : Prop := ReflTransGen (Move capacity) (start n root) t

-- No hand can move: each has a subtree left and no place to put it.
structure Jammed (capacity : Nat) (t : Table n) : Prop where
  full : capacity ≤ t.queue.length
  holding : ∀ i, ∃ sub rest, t.hands i = some (.node sub rest)

def Jams (n capacity : Nat) (root : Forest) : Prop := ∃ t : Table n, Reaches capacity root t ∧ Jammed capacity t

def Forest.size : Forest → Nat
  | .nil => 0
  | .node sub rest => sub.size + rest.size + 1

-- The trees that are in a hand or wait for one, with all that is still to come of them.
def held : Option Forest → Nat
  | none => 0
  | some forest => forest.size + 1

def queued (queue : List Forest) : Nat := (queue.map (fun forest => forest.size + 1)).sum

def Table.weight (t : Table n) : Nat := total held t.hands + queued t.queue

theorem queued_length (queue : List Forest) : queue.length ≤ queued queue := by
  induction queue with
  | nil => exact Nat.le_refl 0
  | cons forest rest ih =>
    simp only [queued,List.map_cons,List.sum_cons,List.length_cons] at *
    omega

theorem move_weight {t after : Table n} (move : Move capacity t after) : after.weight ≤ t.weight := by
  cases move with
  | take i item queue idle front =>
    have moved := total_update held t.hands i (some item)
    simp only [idle,held] at moved
    simp only [Table.weight,front,queued,List.map_cons,List.sum_cons]
    omega
  | store i sub rest holds room =>
    have moved := total_update held t.hands i (some rest)
    simp only [holds,held,Forest.size] at moved
    simp only [Table.weight,queued,List.map_append,List.sum_append,List.map_cons,List.map_nil,List.sum_cons,List.sum_nil]
    omega
  | close i holds =>
    have moved := total_update held t.hands i none
    simp only [holds,held,Forest.size] at moved
    simp only [Table.weight]
    omega

theorem reaches_weight {t : Table n} (reach : Reaches capacity root t) : t.weight ≤ root.size + 1 := by
  induction reach with
  | refl =>
    have none : total held (start n root).hands = 0 := Finset.sum_eq_zero (fun _ _ => rfl)
    rw [Table.weight,none]
    simp [queued,start]
  | tail _ move ih => exact Nat.le_trans (move_weight move) ih

-- A jam needs a full queue and, in each hand, a tree with a subtree to come.
theorem jammed_weight {t : Table n} (jammed : Jammed capacity t) : capacity + 2 * n ≤ t.weight := by
  have hands : total (fun _ => 2) t.hands ≤ total held t.hands := by
    apply total_mono
    intro i
    obtain ⟨sub,rest,holds⟩ := jammed.holding i
    simp only [holds,held,Forest.size]
    omega
  have two : total (fun _ => 2) t.hands = 2 * n := by
    rw [total,Finset.sum_const,Finset.card_univ,Fintype.card_fin,Nat.nsmul_eq_mul,Nat.mul_comm]
  have full := jammed.full
  have queue := queued_length t.queue
  simp only [Table.weight]
  omega

theorem small_never_jams (small : root.size + 1 < capacity + 2 * n) : ¬Jams n capacity root := by
  intro ⟨t,reach,jammed⟩
  have enough := jammed_weight jammed
  have bound := reaches_weight reach
  omega

-- Trees that jam: each hand but the first keeps a tree with one subtree, and
-- then the first fills the queue with leaves.
def leaves : Nat → Forest
  | 0 => .nil
  | k + 1 => .node .nil (leaves k)

def wedge (capacity : Nat) : Nat → Forest
  | 0 => leaves (capacity + 1)
  | j + 1 => .node (leaves 1) (wedge capacity j)

theorem leaves_size (k : Nat) : (leaves k).size = k := by
  induction k with
  | zero => rfl
  | succ k ih =>
    simp only [leaves,Forest.size,ih]
    omega

-- The first hand holds `first` and the next k keep theirs.
def spread (n k : Nat) (first : Forest) (queue : List Forest) : Table (n + 1) :=
  ⟨fun i => if i.val = 0 then some first else if i.val ≤ k then some (leaves 1) else none,queue⟩

theorem spread_first (n k : Nat) (first after : Forest) (queue : List Forest) :
    Function.update (spread n k first queue).hands 0 (some after) = (spread n k after queue).hands := by
  funext i
  by_cases here : i = 0
  · subst here
    simp [spread]
  · simp [spread,here]

theorem spread_store (capacity n k : Nat) (sub rest : Forest) (queue : List Forest) (room : queue.length < capacity) :
    Move capacity (spread n k (.node sub rest) queue) (spread n k rest (queue ++ [sub])) := by
  have move : Move capacity (spread n k (.node sub rest) queue) _ := .store _ 0 sub rest rfl room
  rwa [spread_first] at move

theorem spread_take (capacity n k : Nat) (first : Forest) (more : k < n) :
    Move capacity (spread n k first [leaves 1]) (spread n (k + 1) first []) := by
  have free : (spread n k first [leaves 1]).hands ⟨k + 1,Nat.succ_lt_succ more⟩ = none := by
    simp [spread]
  have move : Move capacity (spread n k first [leaves 1]) _ := .take _ _ _ _ free rfl
  have same : Function.update (spread n k first [leaves 1]).hands ⟨k + 1,Nat.succ_lt_succ more⟩ (some (leaves 1)) =
      (spread n (k + 1) first []).hands := by
    funext i
    by_cases here : i = ⟨k + 1,Nat.succ_lt_succ more⟩
    · subst here
      simp [spread]
    · have apart : i.val ≠ k + 1 := fun equal => here (Fin.ext equal)
      have bounds : i.val ≤ k ↔ i.val ≤ k + 1 := by omega
      simp [spread,here,bounds]
  rwa [same] at move

theorem wedge_spreads (positive : 0 < capacity) (n : Nat) : ∀ k j, k + j = n →
    Reaches capacity (wedge capacity n) (spread n k (wedge capacity j) []) := by
  intro k
  induction k with
  | zero =>
    intro j all
    obtain rfl : j = n := by omega
    have move : Move capacity (start (j + 1) (wedge capacity j)) _ := .take _ 0 _ _ rfl rfl
    have same : Function.update (start (j + 1) (wedge capacity j)).hands 0 (some (wedge capacity j)) =
        (spread j 0 (wedge capacity j) []).hands := by
      funext i
      by_cases here : i = 0
      · subst here
        simp [spread]
      · simp [spread,start,here]
    rw [same] at move
    exact .single move
  | succ k ih =>
    intro j all
    have before := ih (j + 1) (by omega)
    exact (before.tail (spread_store capacity n k _ _ [] positive)).tail (spread_take capacity n k _ (by omega))

theorem wedge_fills (positive : 0 < capacity) (n : Nat) : ∀ filled left, filled + left = capacity →
    Reaches capacity (wedge capacity n) (spread n n (leaves (left + 1)) (.replicate filled .nil)) := by
  intro filled
  induction filled with
  | zero =>
    intro left all
    obtain rfl : left = capacity := by omega
    exact wedge_spreads positive n n 0 rfl
  | succ filled ih =>
    intro left all
    have before := ih (left + 1) (by omega)
    rw [List.replicate_succ']
    exact before.tail (spread_store capacity n n _ _ _ (by simp; omega))

theorem wedge_jams (positive : 0 < capacity) (n : Nat) : Jams (n + 1) capacity (wedge capacity n) := by
  refine ⟨_,wedge_fills positive n capacity 0 rfl,⟨by simp [spread],?_⟩⟩
  intro i
  refine ⟨.nil,.nil,?_⟩
  have all : i.val ≤ n := Nat.le_of_lt_succ i.isLt
  by_cases here : i.val = 0
  · simp only [spread,here,if_true,leaves]
  · simp only [spread,here,if_false,all,if_true,leaves]

end LinuxCoding.Hands
