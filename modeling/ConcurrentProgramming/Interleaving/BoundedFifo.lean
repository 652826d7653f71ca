import ConcurrentProgramming.Interleaving.Machine

/-!
What a bounded queue is for: items enter at the back in blocks that fit, and
leave from the front in blocks.
-/

set_option autoImplicit false

namespace Interleaving

universe u

structure BoundedFifo (T : Type u) where
  entered : List T
  left : List T
  queue : List T

inductive FifoLabel (T : Type u) where
  | push (items : List T)
  | pop (count : Nat)

def BoundedFifo.step {T : Type u} (capacity : Nat) (q : BoundedFifo T) :
    FifoLabel T → Option (BoundedFifo T)
  | .push items =>
    if q.queue.length + items.length ≤ capacity then
      some ⟨q.entered ++ items, q.left, q.queue ++ items⟩
    else none
  | .pop count =>
    if count ≤ q.queue.length then
      some ⟨q.entered, q.left ++ q.queue.take count, q.queue.drop count⟩
    else none

def boundedFifo (T : Type u) (capacity : Nat) : Machine (BoundedFifo T) (FifoLabel T) where
  init := ⟨[], [], []⟩
  step := BoundedFifo.step capacity

theorem BoundedFifo.bounded {T : Type u} {capacity : Nat} {q : BoundedFifo T}
    (h : (boundedFifo T capacity).Reachable q) : q.queue.length ≤ capacity := by
  apply h.invariant (I := fun q => q.queue.length ≤ capacity)
  · exact Nat.zero_le _
  · intro q l r _ hq hr
    cases l with
    | push items =>
      simp only [boundedFifo, BoundedFifo.step, Option.ite_none_right_eq_some] at hr
      obtain ⟨hfits, hr⟩ := hr
      obtain rfl := Option.some.inj hr
      simpa using hfits
    | pop count =>
      simp only [boundedFifo, BoundedFifo.step, Option.ite_none_right_eq_some] at hr
      obtain ⟨-, hr⟩ := hr
      obtain rfl := Option.some.inj hr
      simp only [List.length_drop]
      omega

/-- Nothing is lost, duplicated or reordered. -/
theorem BoundedFifo.conserved {T : Type u} {capacity : Nat} {q : BoundedFifo T}
    (h : (boundedFifo T capacity).Reachable q) : q.entered = q.left ++ q.queue := by
  apply h.invariant (I := fun q => q.entered = q.left ++ q.queue)
  · rfl
  · intro q l r _ hq hr
    cases l with
    | push items =>
      simp only [boundedFifo, BoundedFifo.step, Option.ite_none_right_eq_some] at hr
      obtain ⟨-, hr⟩ := hr
      obtain rfl := Option.some.inj hr
      simp [hq]
    | pop count =>
      simp only [boundedFifo, BoundedFifo.step, Option.ite_none_right_eq_some] at hr
      obtain ⟨-, hr⟩ := hr
      obtain rfl := Option.some.inj hr
      simp [hq]

end Interleaving
