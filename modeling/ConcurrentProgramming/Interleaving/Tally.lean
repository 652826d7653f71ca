import Mathlib.Algebra.BigOperators.Group.Finset.Basic
import Mathlib.Algebra.BigOperators.Group.Finset.Piecewise
import Mathlib.Algebra.Order.BigOperators.Group.Finset
import Mathlib.Tactic.Abel

/-!
Weights summed over the parties of an interleaving. A step moves one party, so
the sum changes by what that party's weight changes by.
-/

set_option autoImplicit false

namespace Interleaving
open Finset

universe u v w

/-- The weight of all parties in `s`, given where each of them is. -/
def tally {ι : Type u} {α : Type v} {M : Type w} [AddCommMonoid M] (s : Finset ι)
    (weight : α → M) (p : ι → α) : M := ∑ i ∈ s, weight (p i)

theorem tally_update {ι : Type u} {α : Type v} {M : Type w} [DecidableEq ι] [AddCommMonoid M]
    {s : Finset ι} (weight : α → M) (p : ι → α) {i : ι} (hi : i ∈ s) (a : α) :
    tally s weight (Function.update p i a) + weight (p i) = tally s weight p + weight a := by
  have hrest : ∑ j ∈ s.erase i, weight (Function.update p i a j) =
      ∑ j ∈ s.erase i, weight (p j) :=
    sum_congr rfl fun j hj => by rw [Function.update_of_ne (ne_of_mem_erase hj)]
  rw [tally, tally, ← add_sum_erase s _ hi, ← add_sum_erase s (fun j => weight (p j)) hi, hrest,
    Function.update_self]
  abel

theorem tally_update_of_eq {ι : Type u} {α : Type v} {M : Type w} [DecidableEq ι]
    [AddCommMonoid M] {s : Finset ι} (weight : α → M) (p : ι → α) {i : ι} {a : α}
    (h : weight a = weight (p i)) :
    tally s weight (Function.update p i a) = tally s weight p := by
  refine sum_congr rfl fun j _ => ?_
  by_cases hj : j = i
  · rw [hj, Function.update_self, h]
  · rw [Function.update_of_ne hj]

theorem tally_update_lt {ι : Type u} {α : Type v} [DecidableEq ι] {s : Finset ι}
    (weight : α → Nat) (p : ι → α) {i : ι} {a : α} (hi : i ∈ s) (h : weight a < weight (p i)) :
    tally s weight (Function.update p i a) < tally s weight p := by
  have := tally_update weight p hi a
  omega

theorem tally_update_le {ι : Type u} {α : Type v} [DecidableEq ι] {s : Finset ι}
    (weight : α → Nat) (p : ι → α) {i : ι} {a : α} (h : weight a ≤ weight (p i)) :
    tally s weight (Function.update p i a) ≤ tally s weight p := by
  apply sum_le_sum
  intro j _
  by_cases hj : j = i
  · simpa [hj] using h
  · simp [hj]

theorem tally_eq_zero {ι : Type u} {α : Type v} {s : Finset ι} {weight : α → Nat} {p : ι → α} :
    tally s weight p = 0 ↔ ∀ i ∈ s, weight (p i) = 0 :=
  sum_eq_zero_iff

theorem le_tally {ι : Type u} {α : Type v} {s : Finset ι} (weight : α → Nat) (p : ι → α)
    {i : ι} (hi : i ∈ s) : weight (p i) ≤ tally s weight p :=
  single_le_sum (f := fun i => weight (p i)) (fun _ _ => Nat.zero_le _) hi

/-- All parties move at once, and none by more than `c`. -/
theorem tally_le_add {ι : Type u} {α : Type v} {s : Finset ι} {weight weight' : α → Nat}
    {p q : ι → α} {c : Nat} (h : ∀ i ∈ s, weight' (q i) ≤ weight (p i) + c) :
    tally s weight' q ≤ tally s weight p + s.card * c := by
  calc tally s weight' q ≤ ∑ i ∈ s, (weight (p i) + c) := sum_le_sum h
    _ = tally s weight p + s.card * c := by
      rw [sum_add_distrib, sum_const, Nat.nsmul_eq_mul]
      rfl

end Interleaving
