import ConcurrentProgramming.Interleaving.Machine

/-!
Forward simulations. The events that a machine logs are the labels of an abstract
one; if every step can be matched, then every log is a run of the abstract machine.
-/

set_option autoImplicit false

namespace Interleaving

universe u v w

namespace Machine

/-- `R` relates the states, and the events of a step are a run between related states. -/
theorem Reachable.simulates {σ : Type u} {ℓ : Type v} {τ κ : Type w} {M : Machine σ ℓ}
    {A : Machine τ κ} {events : σ → ℓ → List κ} {R : σ → τ → Prop} (hinit : R M.init A.init)
    (hstep : ∀ s a l t, M.Reachable s → R s a → M.step s l = some t →
      ∃ b, A.exec a (events s l) = some b ∧ R t b)
    {s : σ × List κ} (h : (M.observe events).Reachable s) :
    M.Reachable s.1 ∧ ∃ a, A.exec A.init s.2 = some a ∧ R s.1 a := by
  induction h with
  | init => exact ⟨.init, A.init, rfl, hinit⟩
  | step _ hl ih =>
    obtain ⟨hreach, a, hexec, hR⟩ := ih
    obtain ⟨hM, hlog⟩ := observe_step hl
    obtain ⟨b, hb, hRb⟩ := hstep _ a _ _ hreach hR hM
    refine ⟨.step hreach hM, b, ?_, hRb⟩
    rw [hlog, exec_append, hexec, Option.bind_some, hb]

end Machine

end Interleaving
