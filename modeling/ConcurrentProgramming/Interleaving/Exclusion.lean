import Mathlib.Logic.Basic

/-!
Mutual exclusion as seen from outside: a word that says whether the lock is free,
and for every party whether it is inside. Who takes a free lock is alone inside,
and who leaves has left nobody behind.
-/

set_option autoImplicit false

namespace Interleaving

universe u

/-- Nobody but `holder` is inside, and `free` says whether that is nobody at all. -/
structure Exclusive {P : Type u} (free : Bool) (holder : Option P) (inside : P → Prop) : Prop where
  free_eq : free = holder.isNone
  inside_iff : ∀ p, inside p ↔ holder = some p

namespace Exclusive

theorem init {P : Type u} {inside : P → Prop} (h : ∀ p, ¬ inside p) :
    Exclusive true none inside :=
  ⟨rfl, fun p => by simp [h p]⟩

theorem congr {P : Type u} {free : Bool} {holder : Option P} {inside inside' : P → Prop}
    (h : Exclusive free holder inside) (hsame : ∀ p, inside' p ↔ inside p) :
    Exclusive free holder inside' :=
  ⟨h.free_eq, fun p => (hsame p).trans (h.inside_iff p)⟩

theorem holder_eq {P : Type u} {free : Bool} {holder : Option P} {inside : P → Prop}
    (h : Exclusive free holder inside) {p : P} (hp : inside p) : holder = some p :=
  (h.inside_iff p).mp hp

theorem eq_none {P : Type u} {holder : Option P} {inside : P → Prop}
    (h : Exclusive true holder inside) : holder = none := by
  simpa using h.free_eq.symm

/-- Two parties are never inside at once. -/
theorem unique {P : Type u} {free : Bool} {holder : Option P} {inside : P → Prop}
    (h : Exclusive free holder inside) {p q : P} (hp : inside p) (hq : inside q) : p = q :=
  Option.some.inj ((h.holder_eq hp).symm.trans (h.holder_eq hq))

theorem acquire {P : Type u} {holder : Option P} {inside inside' : P → Prop}
    (h : Exclusive true holder inside) {p : P} (hp : inside' p)
    (hsame : ∀ q, q ≠ p → (inside' q ↔ inside q)) : Exclusive false (some p) inside' := by
  refine ⟨rfl, fun q => ?_⟩
  by_cases hq : q = p
  · simp [hq, hp]
  · rw [hsame q hq, h.inside_iff, h.eq_none]
    simp [Ne.symm hq]

theorem release {P : Type u} {free : Bool} {holder : Option P} {inside inside' : P → Prop}
    (h : Exclusive free holder inside) {p : P} (hp : inside p) (hleft : ¬ inside' p)
    (hsame : ∀ q, q ≠ p → (inside' q ↔ inside q)) : Exclusive true none inside' := by
  refine .init fun q hq => ?_
  by_cases heq : q = p
  · exact hleft (heq ▸ hq)
  · exact heq (h.unique ((hsame q heq).mp hq) hp)

/-- The party inside goes on without leaving, or one outside without entering. -/
theorem stay {P : Type u} {free : Bool} {holder : Option P} {inside inside' : P → Prop}
    (h : Exclusive free holder inside) {p : P} (hp : inside' p ↔ inside p)
    (hsame : ∀ q, q ≠ p → (inside' q ↔ inside q)) : Exclusive free holder inside' := by
  refine h.congr fun q => ?_
  by_cases hq : q = p
  · rwa [hq]
  · exact hsame q hq

end Exclusive

end Interleaving
