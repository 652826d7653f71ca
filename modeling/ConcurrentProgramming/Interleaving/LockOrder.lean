import Mathlib.Order.WellFounded

/-!
Hierarchies of locks. Where every lock that a party waits for ranks below all that
it holds, nobody waits in a circle.
-/

set_option autoImplicit false

namespace Interleaving

universe u v w

/-- Everybody in `S` waits for what somebody in `S` holds. -/
def CircularWait {P : Type u} {R : Type v} (waits holds : P → R → Prop) (S : Set P) : Prop :=
  S.Nonempty ∧ ∀ p ∈ S, ∃ r, waits p r ∧ ∃ q ∈ S, holds q r

/-- Parties take resources from higher to lower ranks. -/
def Ranked {P : Type u} {R : Type v} {ρ : Type w} [LT ρ] (rank : R → ρ)
    (waits holds : P → R → Prop) : Prop :=
  ∀ p r held, waits p r → holds p held → rank r < rank held

/-- Along a circle the resources that are waited for would rank ever lower. -/
theorem Ranked.not_circularWait {P : Type u} {R : Type v} {ρ : Type w} [LT ρ]
    [WellFoundedLT ρ] {rank : R → ρ} {waits holds : P → R → Prop}
    (h : Ranked rank waits holds) (S : Set P) : ¬ CircularWait waits holds S := by
  rintro ⟨⟨p, hp⟩, hwaits⟩
  obtain ⟨r, -, q, hq, hholds⟩ := hwaits p hp
  induction hk : rank r using WellFoundedLT.induction generalizing r q with
  | ind k ih =>
    obtain ⟨next, hnext, holder, hholder, hheld⟩ := hwaits q hq
    have hlower : rank next < rank r := h q next r hnext hholds
    exact ih (rank next) (hk ▸ hlower) next holder hholder hheld rfl

end Interleaving
