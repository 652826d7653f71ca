import Mathlib.Data.List.Perm.Basic

/-!
Finite forests, and the order in which a first-in-first-out queue takes them apart:
whoever removes a tree appends its children. It is the order by levels.
-/

set_option autoImplicit false

namespace Interleaving

universe u

inductive Rose (α : Type u) where
  | node (value : α) (children : List (Rose α))

namespace Rose

def value {α : Type u} : Rose α → α
  | .node a _ => a

def children {α : Type u} : Rose α → List (Rose α)
  | .node _ ts => ts

mutual

/-- In preorder. -/
def values {α : Type u} : Rose α → List α
  | .node a ts => a :: forestValues ts

def forestValues {α : Type u} : List (Rose α) → List α
  | [] => []
  | t :: ts => t.values ++ forestValues ts

end

def forestSize {α : Type u} (ts : List (Rose α)) : Nat := (forestValues ts).length

@[simp] theorem forestValues_nil {α : Type u} : forestValues ([] : List (Rose α)) = [] := by
  rw [forestValues]

theorem forestValues_cons {α : Type u} (t : Rose α) (ts : List (Rose α)) :
    forestValues (t :: ts) = t.value :: (forestValues t.children ++ forestValues ts) := by
  cases t
  rw [forestValues, values]
  rfl

theorem forestValues_append {α : Type u} (ts us : List (Rose α)) :
    forestValues (ts ++ us) = forestValues ts ++ forestValues us := by
  induction ts with
  | nil => simp
  | cons t ts ih => simp [forestValues_cons, ih]

@[simp] theorem forestSize_nil {α : Type u} : forestSize ([] : List (Rose α)) = 0 := by
  simp [forestSize]

theorem forestSize_cons {α : Type u} (t : Rose α) (ts : List (Rose α)) :
    forestSize (t :: ts) = forestSize (ts ++ t.children) + 1 := by
  simp only [forestSize, forestValues_cons, forestValues_append, List.length_cons,
    List.length_append]
  omega

/-- The roots are taken off one by one; their children come after them. -/
theorem forestSize_levels {α : Type u} (ts us : List (Rose α)) :
    forestSize (ts ++ us) = ts.length + forestSize (us ++ ts.flatMap children) := by
  induction ts generalizing us with
  | nil => simp
  | cons t ts ih =>
    rw [List.cons_append, forestSize_cons, List.append_assoc, ih, List.append_assoc]
    simp only [List.length_cons, List.flatMap_cons]
    omega

def queueOrder {α : Type u} : List (Rose α) → List α
  | [] => []
  | t :: ts => t.value :: queueOrder (ts ++ t.children)
termination_by ts => forestSize ts
decreasing_by rw [forestSize_cons]; omega

/-- Breadth first: all roots, then all their children, and so on. -/
def levelOrder {α : Type u} : List (Rose α) → List α
  | [] => []
  | t :: ts => (t :: ts).map value ++ levelOrder ((t :: ts).flatMap children)
termination_by ts => forestSize ts
decreasing_by
  have h := forestSize_levels (t :: ts) []
  simp only [List.append_nil, List.nil_append, List.length_cons] at h
  omega

@[simp] theorem queueOrder_nil {α : Type u} : queueOrder ([] : List (Rose α)) = [] := by
  rw [queueOrder]

theorem queueOrder_cons {α : Type u} (t : Rose α) (ts : List (Rose α)) :
    queueOrder (t :: ts) = t.value :: queueOrder (ts ++ t.children) := by
  rw [queueOrder]

theorem queueOrder_append {α : Type u} (ts us : List (Rose α)) :
    queueOrder (ts ++ us) = ts.map value ++ queueOrder (us ++ ts.flatMap children) := by
  induction ts generalizing us with
  | nil => simp
  | cons t ts ih =>
    calc queueOrder (t :: (ts ++ us))
        = t.value :: queueOrder (ts ++ (us ++ t.children)) := by
          rw [queueOrder_cons, List.append_assoc]
      _ = t.value :: (ts.map value ++ queueOrder (us ++ t.children ++ ts.flatMap children)) := by
          rw [ih]
      _ = _ := by simp [List.append_assoc]

theorem queueOrder_eq_levelOrder {α : Type u} (ts : List (Rose α)) :
    queueOrder ts = levelOrder ts := by
  induction ts using levelOrder.induct with
  | case1 => rw [queueOrder, levelOrder]
  | case2 t ts ih =>
    have happend := queueOrder_append (t :: ts) []
    rw [List.append_nil, List.nil_append] at happend
    rw [happend, ih, levelOrder]

theorem queueOrder_perm {α : Type u} (ts : List (Rose α)) :
    (queueOrder ts).Perm (forestValues ts) := by
  induction ts using queueOrder.induct with
  | case1 => simp
  | case2 t ts ih =>
    rw [queueOrder_cons, forestValues_cons]
    refine List.Perm.cons _ (ih.trans ?_)
    rw [forestValues_append]
    exact List.perm_append_comm

theorem length_queueOrder {α : Type u} (ts : List (Rose α)) :
    (queueOrder ts).length = forestSize ts := (queueOrder_perm ts).length_eq

end Rose

end Interleaving
