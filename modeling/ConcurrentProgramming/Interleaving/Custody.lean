import Mathlib.Data.List.Basic
import Mathlib.Logic.Function.Basic

/-!
Tokens in places. Every token is in at most one place at a time, which a ghost
map names; a step takes one token from place to place. The same for locks: a
party inside a section of a lock is the one recorded as its holder.
-/

set_option autoImplicit false

namespace Interleaving

universe u v w

/-- `own` names the place of every token that is in some place. -/
def Custody {P : Type u} {T : Type v} (holds : P → T → Prop) (own : T → Option P) : Prop :=
  ∀ p t, holds p t ↔ own t = some p

namespace Custody

theorem unique {P : Type u} {T : Type v} {holds : P → T → Prop} {own : T → Option P}
    (h : Custody holds own) {t : T} (ht : own t ≠ none) : ∃! p, holds p t := by
  obtain ⟨p, hp⟩ := Option.ne_none_iff_exists'.mp ht
  refine ⟨p, (h p t).mpr hp, fun q hq => ?_⟩
  have hq := (h q t).mp hq
  simpa [hp, eq_comm] using hq

theorem eq {P : Type u} {T : Type v} {holds : P → T → Prop} {own : T → Option P}
    (h : Custody holds own) {p q : P} {t : T} (hp : holds p t) (hq : holds q t) : p = q := by
  have hp := (h p t).mp hp
  have hq := (h q t).mp hq
  simpa [hp] using hq

/-- One token moves, and the others stay where they are. -/
theorem move {P : Type u} {T : Type v} [DecidableEq T] {holds holds' : P → T → Prop}
    {own : T → Option P} (h : Custody holds own) {t : T} {q : Option P}
    (hto : ∀ p, holds' p t ↔ q = some p) (hrest : ∀ p u, u ≠ t → (holds' p u ↔ holds p u)) :
    Custody holds' (Function.update own t q) := by
  intro p u
  by_cases hu : u = t
  · subst hu
    simpa using hto p
  · rw [hrest p u hu, h p u, Function.update_of_ne hu]

theorem arrive {P : Type u} {T : Type v} [DecidableEq T] {holds holds' : P → T → Prop}
    {own : T → Option P} (h : Custody holds own) {t : T} {q : P} (ht : own t = none)
    (hto : ∀ u, holds' q u ↔ holds q u ∨ u = t) (hrest : ∀ r, r ≠ q → holds' r = holds r) :
    Custody holds' (Function.update own t (some q)) := by
  apply h.move
  · intro r
    by_cases hr : r = q
    · subst hr
      simp [hto]
    · rw [hrest r hr, h r t, ht]
      simpa using Ne.symm hr
  · intro r u hu
    by_cases hr : r = q
    · subst hr
      simp [hto, hu]
    · rw [hrest r hr]

theorem depart {P : Type u} {T : Type v} [DecidableEq T] {holds holds' : P → T → Prop}
    {own : T → Option P} (h : Custody holds own) {t : T} {p : P} (ht : own t = some p)
    (hfrom : ∀ u, holds' p u ↔ holds p u ∧ u ≠ t) (hrest : ∀ r, r ≠ p → holds' r = holds r) :
    Custody holds' (Function.update own t none) := by
  apply h.move
  · intro r
    by_cases hr : r = p
    · subst hr
      simp [hfrom]
    · rw [hrest r hr, h r t, ht]
      simpa using Ne.symm hr
  · intro r u hu
    by_cases hr : r = p
    · subst hr
      simp [hfrom, hu]
    · rw [hrest r hr]

/-- From one place to another. -/
theorem transfer {P : Type u} {T : Type v} [DecidableEq P] [DecidableEq T]
    {holds holds' : P → T → Prop} {own : T → Option P} (h : Custody holds own) {t : T} {p q : P}
    (ht : own t = some p) (hfrom : ∀ u, holds' p u ↔ holds p u ∧ u ≠ t)
    (hto : ∀ u, holds' q u ↔ holds q u ∨ u = t)
    (hrest : ∀ r, r ≠ p → r ≠ q → holds' r = holds r) :
    Custody holds' (Function.update own t (some q)) := by
  have hleft : Custody (fun r => if r = q then holds q else holds' r)
      (Function.update own t none) := by
    apply h.depart ht
    · intro u
      split
      · rename_i hpq
        subst hpq
        have := hfrom t
        have := hto t
        simp_all
      · exact hfrom u
    · intro r hr
      split
      · rename_i hrq
        rw [hrq]
      · rename_i hrq
        exact hrest r hr hrq
  have harrived : Custody holds' (Function.update (Function.update own t none) t (some q)) := by
    apply hleft.arrive (by simp)
    · simpa using hto
    · intro r hr
      simp [hr]
  simpa using harrived

end Custody

/-- Whoever is inside a section of a lock holds it. -/
def Guarded {H : Type u} {L : Type v} (section_ : H → Option L) (locks : L → Option H) : Prop :=
  ∀ h l, section_ h = some l → locks l = some h

namespace Guarded

theorem exclusive {H : Type u} {L : Type v} {section_ : H → Option L} {locks : L → Option H}
    (hg : Guarded section_ locks) {h k : H} {l : L} (hh : section_ h = some l)
    (hk : section_ k = some l) : h = k := by
  have hh := hg h l hh
  have hk := hg k l hk
  simpa [hh] using hk

theorem acquire {H : Type u} {L : Type v} [DecidableEq H] [DecidableEq L]
    {section_ : H → Option L} {locks : L → Option H} (hg : Guarded section_ locks) {h : H} {l : L}
    (hfree : locks l = none) :
    Guarded (Function.update section_ h (some l)) (Function.update locks l (some h)) := by
  intro k m hk
  by_cases hkh : k = h
  · subst hkh
    obtain rfl : l = m := by simpa using hk
    simp
  · rw [Function.update_of_ne hkh] at hk
    have hm := hg k m hk
    have hne : m ≠ l := by
      rintro rfl
      simp [hfree] at hm
    rw [Function.update_of_ne hne, hm]

theorem release {H : Type u} {L : Type v} [DecidableEq H] [DecidableEq L]
    {section_ : H → Option L} {locks : L → Option H} (hg : Guarded section_ locks) {h : H} {l : L}
    (hl : section_ h = some l) :
    Guarded (Function.update section_ h none) (Function.update locks l none) := by
  intro k m hk
  by_cases hkh : k = h
  · simp [hkh] at hk
  · rw [Function.update_of_ne hkh] at hk
    have hm := hg k m hk
    have hne : m ≠ l := by
      rintro rfl
      have := hg.exclusive hk hl
      exact hkh this
    rw [Function.update_of_ne hne, hm]

end Guarded

end Interleaving
