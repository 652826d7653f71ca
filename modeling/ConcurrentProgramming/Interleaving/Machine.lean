import Mathlib.Algebra.GroupWithZero.Nat
import Mathlib.Data.List.Basic
import Mathlib.Data.Option.Basic

/-!
Executable interleaving machines. One label is one atomic step of one party, so
a run is a list of labels and every interleaving is some run. Invariants are
proved from single steps; a guarded machine keeps only the steps that meet a
condition, so statements about "every run whose steps all meet it" are
statements about reachability again.
-/

set_option autoImplicit false

namespace Interleaving

universe u v w

structure Machine (σ : Type u) (ℓ : Type v) where
  init : σ
  step : σ → ℓ → Option σ

namespace Machine

def exec {σ : Type u} {ℓ : Type v} (M : Machine σ ℓ) : σ → List ℓ → Option σ
  | s, [] => some s
  | s, l :: ls => (M.step s l).bind (fun t => M.exec t ls)

@[simp] theorem exec_nil {σ : Type u} {ℓ : Type v} (M : Machine σ ℓ) (s : σ) :
    M.exec s [] = some s := rfl

@[simp] theorem exec_cons {σ : Type u} {ℓ : Type v} (M : Machine σ ℓ) (s : σ) (l : ℓ)
    (ls : List ℓ) : M.exec s (l :: ls) = (M.step s l).bind (fun t => M.exec t ls) := rfl

inductive Reachable {σ : Type u} {ℓ : Type v} (M : Machine σ ℓ) : σ → Prop where
  | init : M.Reachable M.init
  | step {s t : σ} {l : ℓ} : M.Reachable s → M.step s l = some t → M.Reachable t

theorem Reachable.exec {σ : Type u} {ℓ : Type v} {M : Machine σ ℓ} {s t : σ} {ls : List ℓ}
    (hs : M.Reachable s) (h : M.exec s ls = some t) : M.Reachable t := by
  induction ls generalizing s with
  | nil =>
    simp only [exec_nil, Option.some.injEq] at h
    exact h ▸ hs
  | cons l ls ih =>
    cases hl : M.step s l with
    | none => simp [hl] at h
    | some u =>
      simp only [exec_cons, hl, Option.bind_some] at h
      exact ih (.step hs hl) h

theorem exec_append {σ : Type u} {ℓ : Type v} (M : Machine σ ℓ) (s : σ) (ls ms : List ℓ) :
    M.exec s (ls ++ ms) = (M.exec s ls).bind fun t => M.exec t ms := by
  induction ls generalizing s with
  | nil => rfl
  | cons l ls ih =>
    rw [List.cons_append, exec_cons, exec_cons, Option.bind_assoc]
    exact congrArg _ (funext ih)

theorem reachable_of_exec {σ : Type u} {ℓ : Type v} {M : Machine σ ℓ} {t : σ} (ls : List ℓ)
    (h : M.exec M.init ls = some t) : M.Reachable t :=
  Reachable.init.exec h

theorem Reachable.exists_run {σ : Type u} {ℓ : Type v} {M : Machine σ ℓ} {s : σ}
    (h : M.Reachable s) : ∃ ls, M.exec M.init ls = some s := by
  induction h with
  | init => exact ⟨[], rfl⟩
  | step _ hl ih =>
    obtain ⟨ls, hls⟩ := ih
    exact ⟨ls ++ [_], by rw [exec_append, hls, Option.bind_some, exec_cons, hl]; rfl⟩

/-- A run of which only some facts about its end are wanted. -/
theorem exists_exec {σ : Type u} {ℓ : Type v} {M : Machine σ ℓ} {s : σ} (ls : List ℓ)
    {p : σ → Bool} (h : (M.exec s ls).any p = true) : ∃ t, M.exec s ls = some t ∧ p t = true := by
  cases ht : M.exec s ls with
  | none => simp [ht] at h
  | some t =>
    simp only [ht, Option.any_some] at h
    exact ⟨t, rfl, h⟩

theorem exists_reachable_of_exec {σ : Type u} {ℓ : Type v} {M : Machine σ ℓ} (ls : List ℓ)
    {p : σ → Bool} (h : (M.exec M.init ls).any p = true) : ∃ s, M.Reachable s ∧ p s = true := by
  obtain ⟨s, hs, hp⟩ := exists_exec ls h
  exact ⟨s, reachable_of_exec ls hs, hp⟩

/-- The run lemma behind every safety result: what holds at the start and is
kept by one step from a reachable state holds in every reachable state. -/
theorem Reachable.invariant {σ : Type u} {ℓ : Type v} {M : Machine σ ℓ} {I : σ → Prop}
    (hinit : I M.init)
    (hstep : ∀ s l t, M.Reachable s → I s → M.step s l = some t → I t)
    {s : σ} (h : M.Reachable s) : I s := by
  induction h with
  | init => exact hinit
  | step hs hl ih => exact hstep _ _ _ hs ih hl

/-- The same rule from an arbitrary start, for the tail of a run whose labels
all satisfy `ok`. -/
theorem exec_invariant {σ : Type u} {ℓ : Type v} {M : Machine σ ℓ} {ok : ℓ → Prop}
    {I : σ → Prop} (hstep : ∀ s l t, ok l → I s → M.step s l = some t → I t)
    {ls : List ℓ} (hok : ∀ l ∈ ls, ok l) {s t : σ} (hs : I s)
    (h : M.exec s ls = some t) : I t := by
  induction ls generalizing s with
  | nil =>
    simp only [exec_nil, Option.some.injEq] at h
    exact h ▸ hs
  | cons l ls ih =>
    cases hl : M.step s l with
    | none => simp [hl] at h
    | some u =>
      simp only [exec_cons, hl, Option.bind_some] at h
      have hu := hstep s l u (hok l (by simp)) hs hl
      exact ih (fun k hk => hok k (by simp [hk])) hu h

/-- A quantity that every step of a kind lowers bounds the length of runs of such steps. -/
theorem Reachable.exec_length_le_of {σ : Type u} {ℓ : Type v} {M : Machine σ ℓ} {m : σ → Nat}
    {ok : ℓ → Prop}
    (hstep : ∀ s l t, M.Reachable s → ok l → M.step s l = some t → m t < m s) {s t : σ}
    {ls : List ℓ} (hs : M.Reachable s) (hok : ∀ l ∈ ls, ok l) (h : M.exec s ls = some t) :
    ls.length + m t ≤ m s := by
  induction ls generalizing s with
  | nil =>
    simp only [exec_nil, Option.some.injEq] at h
    subst h
    simp
  | cons l ls ih =>
    cases hl : M.step s l with
    | none => simp [hl] at h
    | some u =>
      simp only [exec_cons, hl, Option.bind_some] at h
      have hu := ih (.step hs hl) (fun k hk => hok k (by simp [hk])) h
      have hlt := hstep s l u hs (hok l (by simp)) hl
      simp only [List.length_cons]
      omega

/-- The same where a step may also raise the quantity, by less than it is paid for. -/
theorem exec_length_le_cost {σ : Type u} {ℓ : Type v} {M : Machine σ ℓ} {I : σ → Prop}
    {ok : ℓ → Prop} {m : σ → Nat} {cost : ℓ → Nat}
    (hstep : ∀ s l t, ok l → I s → M.step s l = some t → I t ∧ m t < m s + cost l) {s t : σ}
    {ls : List ℓ} (hok : ∀ l ∈ ls, ok l) (hs : I s) (h : M.exec s ls = some t) :
    ls.length + m t ≤ m s + (ls.map cost).sum := by
  induction ls generalizing s with
  | nil =>
    simp only [exec_nil, Option.some.injEq] at h
    subst h
    simp
  | cons l ls ih =>
    obtain ⟨u, hu, h⟩ := Option.bind_eq_some_iff.mp h
    obtain ⟨hkept, hless⟩ := hstep s l u (hok l (by simp)) hs hu
    have hrest := ih (fun k hk => hok k (by simp [hk])) hkept h
    simp only [List.length_cons, List.map_cons, List.sum_cons]
    omega

/-- The steps labelled `back` are paid for. -/
theorem Reachable.exec_length_le_count {σ : Type u} {ℓ : Type v} [DecidableEq ℓ]
    {M : Machine σ ℓ} {m : σ → Nat} {back : ℓ} {c : Nat}
    (hstep : ∀ s l t, M.Reachable s → M.step s l = some t → m t < m s + if l = back then c else 0)
    {s t : σ} {ls : List ℓ} (hs : M.Reachable s) (h : M.exec s ls = some t) :
    ls.length + m t ≤ m s + c * ls.count back := by
  have hcost : (ls.map fun l => if l = back then c else 0).sum = c * ls.count back := by
    clear h
    induction ls with
    | nil => rfl
    | cons l ls ih =>
      by_cases hl : l = back
      · simp [hl, ih, Nat.mul_succ, Nat.add_comm]
      · simp [hl, ih]
  rw [← hcost]
  exact exec_length_le_cost
    (fun s l t (_ : True) hs hl => ⟨.step hs hl, hstep s l t hs hl⟩) (fun _ _ => trivial) hs h

theorem Reachable.exec_length_le {σ : Type u} {ℓ : Type v} {M : Machine σ ℓ} {m : σ → Nat}
    (hstep : ∀ s l t, M.Reachable s → M.step s l = some t → m t < m s) {s t : σ} {ls : List ℓ}
    (hs : M.Reachable s) (h : M.exec s ls = some t) : ls.length + m t ≤ m s :=
  hs.exec_length_le_of (fun s l t hs _ hl => hstep s l t hs hl) (fun _ _ => trivial) h

/-- The run that goes on as long as it can ends. -/
theorem Reachable.exists_ended {σ : Type u} {ℓ : Type v} {M : Machine σ ℓ} {m : σ → Nat}
    (hstep : ∀ s l t, M.Reachable s → M.step s l = some t → m t < m s) {s : σ}
    (hs : M.Reachable s) : ∃ t, M.Reachable t ∧ ∀ l, M.step t l = none := by
  induction hm : m s using Nat.strongRecOn generalizing s with
  | ind k ih =>
    by_cases hend : ∀ l, M.step s l = none
    · exact ⟨s, hs, hend⟩
    · obtain ⟨l, hl⟩ := not_forall.mp hend
      obtain ⟨t, ht⟩ := Option.ne_none_iff_exists'.mp hl
      exact ih (m t) (hm ▸ hstep s l t hs ht) (.step hs ht) rfl

/-- Only the steps that meet `ok` in the state they start from. -/
def guard {σ : Type u} {ℓ : Type v} (M : Machine σ ℓ) (ok : σ → ℓ → Bool) : Machine σ ℓ where
  init := M.init
  step s l := if ok s l then M.step s l else none

@[simp] theorem guard_init {σ : Type u} {ℓ : Type v} (M : Machine σ ℓ) (ok : σ → ℓ → Bool) :
    (M.guard ok).init = M.init := rfl

theorem guard_step {σ : Type u} {ℓ : Type v} {M : Machine σ ℓ} {ok : σ → ℓ → Bool}
    {s t : σ} {l : ℓ} :
    (M.guard ok).step s l = some t ↔ ok s l = true ∧ M.step s l = some t := by
  simp [guard]

theorem guard_exec_cons {σ : Type u} {ℓ : Type v} {M : Machine σ ℓ} {ok : σ → ℓ → Bool} {s t : σ}
    {l : ℓ} (hok : ok s l = true) (h : M.step s l = some t) (ls : List ℓ) :
    (M.guard ok).exec s (l :: ls) = (M.guard ok).exec t ls := by
  rw [exec_cons, guard_step.mpr ⟨hok, h⟩, Option.bind_some]

theorem guard_exec_refused {σ : Type u} {ℓ : Type v} (M : Machine σ ℓ) {ok : σ → ℓ → Bool} {s : σ}
    {l : ℓ} (hok : ok s l = false) (ls : List ℓ) : (M.guard ok).exec s (l :: ls) = none := by
  simp [guard, hok]

theorem exec_of_guard {σ : Type u} {ℓ : Type v} {M : Machine σ ℓ} {ok : σ → ℓ → Bool} {s t : σ}
    {ls : List ℓ} (h : (M.guard ok).exec s ls = some t) : M.exec s ls = some t := by
  induction ls generalizing s with
  | nil => exact h
  | cons l ls ih =>
    obtain ⟨u, hu, h⟩ := Option.bind_eq_some_iff.mp h
    rw [exec_cons, (guard_step.mp hu).2]
    exact ih h

theorem Reachable.of_guard {σ : Type u} {ℓ : Type v} {M : Machine σ ℓ} {ok : σ → ℓ → Bool} {s : σ}
    (h : (M.guard ok).Reachable s) : M.Reachable s := by
  obtain ⟨ls, hrun⟩ := h.exists_run
  exact reachable_of_exec ls (exec_of_guard hrun)

/-- Allowed steps keep `I`, and with it `P`, and any other step breaks `P` at once:
the runs that have `P` all along are the runs of allowed steps. -/
theorem Reachable.guard_exec_iff {σ : Type u} {ℓ : Type v} {M : Machine σ ℓ} {ok : σ → ℓ → Bool}
    {I P : σ → Prop} (hP : ∀ s, M.Reachable s → I s → P s)
    (hkeeps : ∀ s l t, M.Reachable s → I s → M.step s l = some t → ok s l = true → I t)
    (hbreaks : ∀ s l t, M.Reachable s → I s → M.step s l = some t → ok s l = false → ¬ P t)
    {s t : σ} {ls : List ℓ} (hs : M.Reachable s) (hI : I s) (h : M.exec s ls = some t) :
    (∀ k u, M.exec s (ls.take k) = some u → P u) ↔ (M.guard ok).exec s ls = some t := by
  induction ls generalizing s with
  | nil =>
    refine ⟨fun _ => h, fun _ k u hu => ?_⟩
    simp only [List.take_nil, exec_nil, Option.some.injEq] at hu
    exact hu ▸ hP s hs hI
  | cons l ls ih =>
    obtain ⟨v, hv, h⟩ := Option.bind_eq_some_iff.mp h
    have hrest (hok : ok s l = true) := ih (.step hs hv) (hkeeps s l v hs hI hv hok) h
    constructor
    · intro hall
      have hok : ok s l = true := by
        by_contra hok
        exact hbreaks s l v hs hI hv (Bool.eq_false_iff.mpr hok) (hall 1 v (by simp [hv]))
      rw [guard_exec_cons hok hv]
      refine (hrest hok).mp fun k u hu => hall (k + 1) u ?_
      simpa [hv] using hu
    · intro hguard k u hu
      obtain ⟨w, hw, hguard⟩ := Option.bind_eq_some_iff.mp hguard
      obtain ⟨hok, hw⟩ := guard_step.mp hw
      obtain rfl := Option.some.inj (hv.symm.trans hw)
      cases k with
      | zero =>
        simp only [List.take_zero, exec_nil, Option.some.injEq] at hu
        exact hu ▸ hP s hs hI
      | succ k =>
        simp only [List.take_succ_cons, exec_cons, hv, Option.bind_some] at hu
        exact (hrest hok).mpr hguard k u hu

/-- A quantity that steps never lower and that is small at the end of a run was
small all along: the run is one of the guarded machine. -/
theorem Reachable.guard_of_mono {σ : Type u} {ℓ : Type v} {M : Machine σ ℓ} {m : σ → Nat}
    (hmono : ∀ s l t, M.step s l = some t → m s ≤ m t) {bound : Nat} {s : σ}
    (h : M.Reachable s) (hs : m s < bound) :
    (M.guard fun s l => (M.step s l).any fun t => m t < bound).Reachable s := by
  induction h with
  | init => exact .init
  | step _ hl ih =>
    have hle := hmono _ _ _ hl
    exact .step (ih (by omega)) (guard_step.mpr ⟨by simp [hl, hs], hl⟩)

/-- The same machine with a log of what its steps do. -/
def observe {σ : Type u} {ℓ : Type v} {ε : Type w} (M : Machine σ ℓ) (events : σ → ℓ → List ε) :
    Machine (σ × List ε) ℓ where
  init := (M.init, [])
  step s l := (M.step s.1 l).map fun t => (t, s.2 ++ events s.1 l)

theorem observe_step {σ : Type u} {ℓ : Type v} {ε : Type w} {M : Machine σ ℓ}
    {events : σ → ℓ → List ε} {s t : σ × List ε} {l : ℓ}
    (h : (M.observe events).step s l = some t) :
    M.step s.1 l = some t.1 ∧ t.2 = s.2 ++ events s.1 l := by
  obtain ⟨u, hu, rfl⟩ := Option.map_eq_some_iff.mp h
  exact ⟨hu, rfl⟩

/-- To be observed keeps nobody from a step. -/
theorem Reachable.exists_observed {σ : Type u} {ℓ : Type v} {ε : Type w} {M : Machine σ ℓ}
    (events : σ → ℓ → List ε) {s : σ} (h : M.Reachable s) :
    ∃ log, (M.observe events).Reachable (s, log) := by
  induction h with
  | init => exact ⟨[], .init⟩
  | @step s t l hs hl ih =>
    obtain ⟨log, hlog⟩ := ih
    have hstep : (M.observe events).step (s, log) l = some (t, log ++ events s l) := by
      simp [observe, hl]
    exact ⟨_, hlog.step hstep⟩

/-- `f` reads an abstract state off every concrete one and `act` the abstract
labels that one concrete step performs (none for a step that is invisible). -/
structure Refinement {σ : Type u} {ℓ : Type v} {τ : Type w} {κ : Type w} (M : Machine σ ℓ)
    (A : Machine τ κ) where
  f : σ → τ
  act : σ → ℓ → List κ
  init : f M.init = A.init
  step : ∀ s l t, M.Reachable s → M.step s l = some t → A.exec (f s) (act s l) = some (f t)

theorem Refinement.reachable {σ : Type u} {ℓ : Type v} {τ κ : Type w} {M : Machine σ ℓ}
    {A : Machine τ κ} (R : Refinement M A) {s : σ} (h : M.Reachable s) :
    A.Reachable (R.f s) := by
  induction h with
  | init => exact R.init ▸ .init
  | step hs hl ih => exact ih.exec (R.step _ _ _ hs hl)

end Machine

end Interleaving
