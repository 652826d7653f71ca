import ConcurrentProgramming.Fast.PoolInvariant

/-!
What the steps of the others do to a worker of the pool: they steal from the front
of its ring, wake it up or stop it.
-/

set_option autoImplicit false

namespace ConcurrentProgramming.Fast
open Interleaving

/-- A step of somebody else, seen from a worker. -/
inductive Worker.Aside {n : Nat} {T : Type} (x : Worker n T) : Worker n T → Prop where
  | robbed (k : Nat) : x.Aside { x with localTasks := x.localTasks.drop k }
  | woken (h : x.work = .asleep) : x.Aside (x.goto .notified)
  | stopped : x.Aside { x with stopped := true }

theorem Worker.Aside.refl {n : Nat} {T : Type} (x : Worker n T) : x.Aside x := .robbed 0

theorem Worker.Aside.work {n : Nat} {T : Type} {x y : Worker n T} (h : x.Aside y)
    (hx : x.work ≠ .asleep) : y.work = x.work ∧ ∃ k, y.localTasks = x.localTasks.drop k := by
  cases h with
  | robbed k => exact ⟨rfl, k, rfl⟩
  | woken hasleep => exact absurd hasleep hx
  | stopped => exact ⟨rfl, 0, rfl⟩

/-- The worker whose step it is. -/
def PoolLabel.actor {n : Nat} {O T : Type} : PoolLabel n O T → Option (Fin n)
  | .worker w _ | .execute w _ _ | .return_ w | .throw w | .spurious w => some w
  | _ => none

namespace Pool

theorem workerStep_local {n : Nat} {O T : Type} {s t : Pool n O T} {w : Fin n} {c : Choice n T}
    {x : Worker n T} (h : s.workerStep w c = some t)
    (hx : (s.workers w).localStep (s.coordinator.impudence w) = some x) : t = s.setWorker w x := by
  simpa [workerStep, hx, eq_comm] using h

theorem globalStep_goto {n : Nat} {O T : Type} {s t : Pool n O T} {w : Fin n}
    (h : s.globalStep w = some t) : ∃ pc global, t = { s.goto w pc with global := global } := by
  cases globalStep_cases h with
  | grab _ h =>
    obtain ⟨global, items, -, rfl⟩ := grab_eq h
    exact ⟨_, _, rfl⟩
  | _ => exact ⟨_, _, rfl⟩

theorem aside_notifyOne {n : Nat} {O T : Type} {s t : Pool n O T} {woken : Option (Fin n)}
    (h : s.notifyOne woken = some t) (v : Fin n) : (s.workers v).Aside (t.workers v) := by
  rcases notifyOne_cases h with ⟨u, hu, rfl⟩ | ⟨-, rfl⟩
  · by_cases hv : v = u
    · subst hv
      rw [goto_self]
      exact .woken hu
    · rw [goto_ne s _ hv]
      exact .refl _
  · exact .refl _

theorem aside_setWorker {n : Nat} {O T : Type} (s : Pool n O T) {v w : Fin n} (x : Worker n T)
    (hv : v ≠ w) : (s.workers v).Aside ((s.setWorker w x).workers v) := by
  rw [setWorker_ne s x hv]
  exact .refl _

theorem aside_coordinatorStep {n : Nat} {O T : Type} {s t : Pool n O T} {v w : Fin n}
    {c : Choice n T} (hv : v ≠ w) (h : s.coordinatorStep w c = some t) :
    (s.workers v).Aside (t.workers v) := by
  cases coordinatorStep_cases h with
  | awakeOne _ hu =>
    rw [goto_ne _ _ hv]
    exact aside_notifyOne hu v
  | prohibitParking _ hu =>
    rw [goto_ne _ _ hv]
    exact aside_notifyOne (s := { s with coordinator := s.coordinator.prohibitParking }) hu v
  | _ => exact aside_setWorker s _ hv

theorem aside_stealStep {n : Nat} {O T : Type} {s t : Pool n O T} {v w : Fin n} {c : Choice n T}
    (hv : v ≠ w) (h : s.stealStep w c = some t) : (s.workers v).Aside (t.workers v) := by
  cases stealStep_cases h with
  | @steal remaining victim limit hw =>
    rw [goto_ne _ _ hv]
    by_cases hvictim : v = victim
    · subst hvictim
      rw [setWorker_self]
      exact .robbed limit
    · exact aside_setWorker s _ hvictim
  | _ => exact aside_setWorker s _ hv

theorem aside_workerStep {n : Nat} {O T : Type} {s t : Pool n O T} {v w : Fin n} {c : Choice n T}
    (hv : v ≠ w) (h : s.workerStep w c = some t) : (s.workers v).Aside (t.workers v) := by
  rcases workerStep_cases h with ⟨x, -, rfl⟩ | hglobal | hcoordinator | hsteal
  · exact aside_setWorker s x hv
  · obtain ⟨pc, global, rfl⟩ := globalStep_goto hglobal
    exact aside_setWorker s _ hv
  · exact aside_coordinatorStep hv hcoordinator
  · exact aside_stealStep hv hsteal

theorem aside_outsideStep {n : Nat} {O T : Type} [DecidableEq O] {s t : Pool n O T} {o : O}
    {woken : Option (Fin n)} (h : s.outsideStep o woken = some t) (v : Fin n) :
    (s.workers v).Aside (t.workers v) := by
  unfold outsideStep at h
  cases ho : s.outside o with
  | idle => simp [ho] at h
  | pushOne _ | pushOneLocked _ | discard _ =>
    simp only [ho, Option.some.injEq] at h
    subst h
    exact .refl _
  | prohibitParking =>
    simp only [ho, prohibitParking] at h
    obtain ⟨u, hu, rfl⟩ := Option.map_eq_some_iff.mp h
    exact aside_notifyOne hu v

theorem aside_stopStep {n : Nat} {O T : Type} {s t : Pool n O T} (h : s.stopStep = some t)
    (v : Fin n) : (s.workers v).Aside (t.workers v) := by
  unfold stopStep at h
  cases hstop : s.stop with
  | notCalled | returned => simp [hstop] at h
  | stopWorkers i =>
    simp only [hstop] at h
    split at h
    · rename_i hi
      obtain rfl := Option.some.inj h
      by_cases hv : v = ⟨i, hi⟩
      · subst hv
        simp only [setWorker_self]
        exact .stopped
      · exact aside_setWorker s _ hv
    · obtain rfl := Option.some.inj h
      exact .refl _
  | drain =>
    simp only [hstop] at h
    split at h
    · obtain rfl := Option.some.inj h
      exact .refl _
    · obtain rfl := Option.some.inj h
      exact .refl _
  | discard rest =>
    cases rest with
    | nil =>
      simp only [hstop, Option.some.injEq] at h
      subst h
      exact .refl _
    | cons item rest =>
      simp only [hstop, Option.some.injEq] at h
      subst h
      exact .refl _
  | storeClosed =>
    simp only [hstop, Option.some.injEq] at h
    subst h
    exact .refl _
  | awakeEveryoneForever =>
    simp only [hstop, Option.some.injEq] at h
    subst h
    simp only [notifyAll]
    split
    · rename_i hasleep
      exact .woken (Worker.asleep_iff.mp hasleep)
    · exact .refl _
  | join i =>
    simp only [hstop] at h
    split at h
    · split at h
      · obtain rfl := Option.some.inj h
        exact .refl _
      · cases h
    · obtain rfl := Option.some.inj h
      exact .refl _

theorem aside_step {n : Nat} {O T : Type} [DecidableEq O] {s t : Pool n O T}
    {l : PoolLabel n O T} (h : s.step l = some t) {v : Fin n} (hv : l.actor ≠ some v) :
    (s.workers v).Aside (t.workers v) := by
  unfold Pool.step at h
  have apart {w : Fin n} (hl : l.actor = some w) : v ≠ w := by
    rintro rfl
    exact hv hl
  cases l with
  | worker w c => exact aside_workerStep (apart rfl) h
  | execute w task hint =>
    cases hw : (s.workers w).work <;> simp only [hw, reduceCtorEq, Option.some.injEq] at h
    subst h
    exact aside_setWorker s _ (apart rfl)
  | return_ w | throw w =>
    cases hw : (s.workers w).work <;> simp only [hw, reduceCtorEq, Option.some.injEq] at h
    subst h
    exact aside_setWorker s _ (apart rfl)
  | spurious w =>
    simp only [Option.ite_none_right_eq_some, Option.some.injEq] at h
    obtain ⟨-, rfl⟩ := h
    exact aside_setWorker s _ (apart rfl)
  | submit o task =>
    cases ho : s.outside o <;> simp only [ho, reduceCtorEq, Option.some.injEq] at h
    subst h
    exact .refl _
  | outside o woken => exact aside_outsideStep h v
  | callWaitIdle =>
    cases hwait : s.waitIdle <;> simp only [hwait, reduceCtorEq, Option.some.injEq] at h
    subst h
    exact .refl _
  | waitIdle =>
    cases hwait : s.waitIdle <;> simp only [waitIdleStep, hwait, reduceCtorEq,
      Option.ite_none_right_eq_some, Option.some.injEq] at h
    · obtain ⟨-, rfl⟩ := h
      exact .refl _
    · obtain ⟨-, rfl⟩ := h
      exact .refl _
  | callStop =>
    cases hstop : s.stop <;> simp only [hstop, reduceCtorEq, Option.some.injEq] at h
    subst h
    exact .refl _
  | stop => exact aside_stopStep h v

theorem outsideStep_queue {n : Nat} {O T : Type} [DecidableEq O] {s t : Pool n O T} {o : O}
    {woken : Option (Fin n)} (h : s.outsideStep o woken = some t) :
    (∃ k, t.global.queue = s.global.queue.drop k) ∨
      ∃ task, t.global.queue = s.global.queue ++ [some task] := by
  unfold Pool.outsideStep at h
  cases ho : s.outside o with
  | idle => simp [ho] at h
  | pushOne task | discard task =>
    simp only [ho, Option.some.injEq] at h
    subst h
    exact .inl ⟨0, rfl⟩
  | pushOneLocked task =>
    simp only [ho, Option.some.injEq] at h
    subst h
    exact .inr ⟨task, rfl⟩
  | prohibitParking =>
    simp only [ho, Pool.prohibitParking] at h
    obtain ⟨u, hu, rfl⟩ := Option.map_eq_some_iff.mp h
    rcases notifyOne_cases hu with ⟨v, -, rfl⟩ | ⟨-, rfl⟩
    · exact .inl ⟨0, rfl⟩
    · exact .inl ⟨0, rfl⟩

theorem stopStep_queue {n : Nat} {O T : Type} {s t : Pool n O T} (h : s.stopStep = some t) :
    ∃ k, t.global.queue = s.global.queue.drop k := by
  unfold Pool.stopStep at h
  cases hstop : s.stop with
  | notCalled | returned => simp [hstop] at h
  | stopWorkers i =>
    simp only [hstop] at h
    split at h
    · obtain rfl := Option.some.inj h
      exact ⟨0, rfl⟩
    · obtain rfl := Option.some.inj h
      exact ⟨0, rfl⟩
  | storeClosed =>
    simp only [hstop, Option.some.injEq] at h
    subst h
    exact ⟨0, rfl⟩
  | drain =>
    simp only [hstop, GlobalQueue.drain] at h
    split at h
    · obtain rfl := Option.some.inj h
      exact ⟨0, rfl⟩
    · rename_i global items _ hdrain
      obtain rfl := Option.some.inj h
      obtain ⟨rfl, -⟩ := Prod.mk.inj hdrain
      exact ⟨256, rfl⟩
  | discard rest =>
    cases rest with
    | nil =>
      simp only [hstop, Option.some.injEq] at h
      subst h
      exact ⟨0, rfl⟩
    | cons item rest =>
      simp only [hstop, Option.some.injEq] at h
      subst h
      exact ⟨0, rfl⟩
  | awakeEveryoneForever =>
    simp only [hstop, Option.some.injEq] at h
    subst h
    exact ⟨0, rfl⟩
  | join i =>
    simp only [hstop] at h
    split at h
    · split at h
      · obtain rfl := Option.some.inj h
        exact ⟨0, rfl⟩
      · cases h
    · obtain rfl := Option.some.inj h
      exact ⟨0, rfl⟩

/-- What everybody but the workers does to the global queue. -/
theorem queue_step {n : Nat} {O T : Type} [DecidableEq O] {s t : Pool n O T}
    {l : PoolLabel n O T} (hl : l.actor = none) (h : s.step l = some t) :
    (∃ k, t.global.queue = s.global.queue.drop k) ∨
      ∃ task, t.global.queue = s.global.queue ++ [some task] := by
  cases l with
  | worker w c | execute w task hint | return_ w | throw w | spurious w => cases hl
  | submit o task =>
    cases ho : s.outside o <;> simp only [Pool.step, ho, reduceCtorEq, Option.some.injEq] at h
    subst h
    exact .inl ⟨0, rfl⟩
  | outside o woken => exact outsideStep_queue h
  | callWaitIdle =>
    cases hwait : s.waitIdle <;>
      simp only [Pool.step, hwait, reduceCtorEq, Option.some.injEq] at h
    subst h
    exact .inl ⟨0, rfl⟩
  | waitIdle =>
    cases hwait : s.waitIdle <;> simp only [Pool.step, waitIdleStep, hwait, reduceCtorEq,
      Option.ite_none_right_eq_some, Option.some.injEq] at h
    · obtain ⟨-, rfl⟩ := h
      exact .inl ⟨0, rfl⟩
    · obtain ⟨-, rfl⟩ := h
      exact .inl ⟨0, rfl⟩
  | callStop =>
    cases hstop : s.stop <;> simp only [Pool.step, hstop, reduceCtorEq, Option.some.injEq] at h
    subst h
    exact .inl ⟨0, rfl⟩
  | stop => exact .inl (stopStep_queue h)

end Pool

end ConcurrentProgramming.Fast
