import ConcurrentProgramming.Interleaving.Machine
import ConcurrentProgramming.Fibers.Futex
import Mathlib.Logic.Function.Basic

/-!
The fiber mutex: `access_` is taken by an exchange outside the futex lock and
given back by a store outside it, so a newcomer may barge in between a store and
the wake-up that follows it.
-/

set_option autoImplicit false

namespace ConcurrentProgramming.Fibers
open Interleaving

/-- `exchange woken` is the top of the loop in `Lock`; `woken` remembers that the
fiber got there from its own `ParkIfEqual`. -/
inductive MutexPc where
  | outside
  | exchange (woken : Bool)
  | park (pc : ParkIfEqual)
  | critical
  | wakeOne
  deriving DecidableEq, Repr

structure Mutex (F : Type) where
  access : Bool
  waiter : FutexLike F
  pc : F → MutexPc

inductive MutexLabel (F : Type) where
  | lock (f : F)
  | unlock (f : F)
  | step (f : F)
  deriving DecidableEq, Repr

def Mutex.goto {F : Type} [DecidableEq F] (s : Mutex F) (f : F) (pc : MutexPc) : Mutex F :=
  { s with pc := Function.update s.pc f pc }

def Mutex.step {F : Type} [DecidableEq F] (s : Mutex F) : MutexLabel F → Option (Mutex F)
  | .lock f =>
    match s.pc f with
    | .outside => some (s.goto f (.exchange false))
    | _ => none
  | .unlock f =>
    match s.pc f with
    | .critical => some ({ s with access := false }.goto f .wakeOne)
    | _ => none
  | .step f =>
    match s.pc f with
    | .outside | .critical | .park .parked => none
    | .exchange _ =>
      some ({ s with access := true }.goto f (if s.access then .park .setAwaiter else .critical))
    | .park .setAwaiter => some (s.goto f (.park .awaitSuspend))
    | .park .awaitSuspend =>
      let (waiter, scheduled) := s.waiter.awaitSuspend f (s.access == true)
      some ({ s with waiter := waiter }.goto f (.park (if scheduled then .scheduled else .parked)))
    | .park .scheduled => some (s.goto f (.park .relock))
    | .park .relock => some (s.goto f (.exchange true))
    | .wakeOne =>
      match s.waiter.wakeOne with
      | (_, none) => some (s.goto f .outside)
      | (waiter, some g) =>
        some (({ s with waiter := waiter }.goto f .outside).goto g (.park .scheduled))

def mutex (F : Type) [DecidableEq F] : Machine (Mutex F) (MutexLabel F) where
  init := ⟨false, ⟨[]⟩, fun _ => .outside⟩
  step := Mutex.step

/-- Scheduled by a wake-up or by its own `AwaitSuspend`, next exchange still to come. -/
def MutexPc.woken : MutexPc → Bool
  | .park .scheduled | .park .relock | .exchange true => true
  | _ => false

def MutexPc.attends (pc : MutexPc) : Prop := pc = .wakeOne ∨ pc.woken = true

structure Mutex.Inv {F : Type} (s : Mutex F) : Prop where
  held : ∀ f, s.pc f = .critical → s.access = true
  unique : ∀ f g, s.pc f = .critical → s.pc g = .critical → f = g
  parked : ∀ f, f ∈ s.waiter.queue ↔ s.pc f = .park .parked
  nodup : s.waiter.queue.Nodup
  /-- A free cell with parked fibers is attended by somebody. -/
  attended : s.access = false → s.waiter.queue ≠ [] → ∃ f, (s.pc f).attends

/-- A step of `f` that touches neither the cell nor the queue. -/
theorem Mutex.Inv.goto {F : Type} [DecidableEq F] {s : Mutex F} (hs : s.Inv) {f : F}
    {pc : MutexPc} (hold : s.pc f ≠ .park .parked) (hpark : pc ≠ .park .parked)
    (hcrit : pc ≠ .critical)
    (hatt : s.access = false → s.waiter.queue ≠ [] → (s.pc f).attends → pc.attends) :
    (s.goto f pc).Inv := by
  refine ⟨fun g hg => ?_, fun g k hg hk => ?_, fun g => ?_, hs.nodup, fun ha hq => ?_⟩
  · by_cases h : g = f <;> simp_all [Mutex.goto]
    exact hs.held g hg
  · by_cases h : g = f <;> by_cases h' : k = f <;> simp_all [Mutex.goto]
    exact hs.unique g k hg hk
  · by_cases h : g = f
    · subst h
      simp [Mutex.goto, hpark, hs.parked, hold]
    · simp [Mutex.goto, h, hs.parked]
  · obtain ⟨g, hg⟩ := hs.attended ha hq
    by_cases h : g = f
    · subst h
      exact ⟨g, by simpa [Mutex.goto, MutexPc.attends] using hatt ha hq hg⟩
    · exact ⟨g, by simpa [Mutex.goto, h] using hg⟩

theorem Mutex.Inv.unlock {F : Type} [DecidableEq F] {s : Mutex F} (hs : s.Inv) {f : F}
    (hf : s.pc f = .critical) : ({ s with access := false }.goto f .wakeOne : Mutex F).Inv := by
  have none (g : F) : Function.update s.pc f .wakeOne g ≠ .critical := by
    by_cases h : g = f
    · simp [h]
    · intro hg
      rw [Function.update_of_ne h] at hg
      exact h (hs.unique g f hg hf)
  refine ⟨fun g hg => (none g hg).elim, fun g _ hg => (none g hg).elim, fun g => ?_, hs.nodup,
    fun _ _ => ⟨f, .inl (by simp [Mutex.goto])⟩⟩
  by_cases h : g = f
  · subst h
    simp [Mutex.goto, hs.parked, hf]
  · simp [Mutex.goto, h, hs.parked]

theorem Mutex.Inv.acquire {F : Type} [DecidableEq F] {s : Mutex F} (hs : s.Inv) {f : F}
    {w : Bool} (hf : s.pc f = .exchange w) (ha : s.access = false) :
    ({ s with access := true }.goto f .critical : Mutex F).Inv := by
  have only (g : F) (hg : Function.update s.pc f .critical g = .critical) : g = f := by
    by_contra h
    rw [Function.update_of_ne h] at hg
    simpa [ha] using hs.held g hg
  refine ⟨fun _ _ => rfl, fun g k hg hk => (only g hg).trans (only k hk).symm, fun g => ?_,
    hs.nodup, by simp [Mutex.goto]⟩
  by_cases h : g = f
  · subst h
    simp [Mutex.goto, hs.parked, hf]
  · simp [Mutex.goto, h, hs.parked]

/-- The cell was still taken when the worker compared it, so `f` stays linked. -/
theorem Mutex.Inv.enqueue {F : Type} [DecidableEq F] {s : Mutex F} (hs : s.Inv) {f : F}
    (hf : s.pc f = .park .awaitSuspend) (ha : s.access = true) :
    ({ s with waiter := ⟨s.waiter.queue ++ [f]⟩ }.goto f (.park .parked) : Mutex F).Inv := by
  have hmem : f ∉ s.waiter.queue := by simp [hs.parked, hf]
  have crit {g : F} (hg : Function.update s.pc f (.park .parked) g = .critical) :
      s.pc g = .critical := by
    by_cases h : g = f
    · simp [h] at hg
    · rwa [Function.update_of_ne h] at hg
  refine ⟨fun g hg => hs.held g (crit hg), fun g k hg hk => hs.unique g k (crit hg) (crit hk),
    fun g => ?_, ?_, fun h => ?_⟩
  · by_cases h : g = f
    · simp [h, Mutex.goto]
    · simp [Mutex.goto, h, hs.parked]
  · exact List.nodup_append.mpr ⟨hs.nodup, by simp, by
      intro g hg k hk hgk
      simp only [List.mem_singleton] at hk
      exact hmem (hk ▸ hgk ▸ hg)⟩
  · simp [Mutex.goto, ha] at h

theorem Mutex.Inv.wakeOne {F : Type} [DecidableEq F] {s : Mutex F} (hs : s.Inv) {f g : F}
    {rest : List F} (hf : s.pc f = .wakeOne) (hq : s.waiter.queue = g :: rest) :
    (({ s with waiter := ⟨rest⟩ }.goto f .outside).goto g (.park .scheduled) : Mutex F).Inv := by
  have hg : s.pc g = .park .parked := (hs.parked g).mp (by simp [hq])
  have hgr : g ∉ rest := (List.nodup_cons.mp (hq ▸ hs.nodup)).1
  have crit {k : F} (hk : Function.update (Function.update s.pc f .outside) g
      (.park .scheduled) k = .critical) : s.pc k = .critical := by
    by_cases h : k = g
    · simp [h] at hk
    · rw [Function.update_of_ne h] at hk
      by_cases h' : k = f
      · simp [h'] at hk
      · rwa [Function.update_of_ne h'] at hk
  refine ⟨fun k hk => hs.held k (crit hk), fun k m hk hm => hs.unique k m (crit hk) (crit hm),
    fun k => ?_, (List.nodup_cons.mp (hq ▸ hs.nodup)).2,
    fun _ _ => ⟨g, .inr (by simp [Mutex.goto, MutexPc.woken])⟩⟩
  by_cases h : k = g
  · subst h
    simp [Mutex.goto, hgr]
  · have hk : k ∈ rest ↔ s.pc k = .park .parked := by
      rw [← hs.parked, hq, List.mem_cons, or_iff_right h]
    by_cases h' : k = f
    · subst h'
      simp [Mutex.goto, h, hk, hf]
    · simp [Mutex.goto, h, h', hk]

theorem Mutex.step_inv {F : Type} [DecidableEq F] {s t : Mutex F} {l : MutexLabel F}
    (hs : s.Inv) (h : s.step l = some t) : t.Inv := by
  cases l with
  | lock f =>
    cases hp : s.pc f <;> simp only [Mutex.step, hp, reduceCtorEq, Option.some.injEq] at h
    subst h
    exact hs.goto (by simp [hp]) (by simp) (by simp) (by simp [hp, MutexPc.attends, MutexPc.woken])
  | unlock f =>
    cases hp : s.pc f <;> simp only [Mutex.step, hp, reduceCtorEq, Option.some.injEq] at h
    subst h
    exact hs.unlock hp
  | step f =>
    cases hp : s.pc f with
    | outside | critical => simp [Mutex.step, hp] at h
    | exchange w =>
      simp only [Mutex.step, hp, Option.some.injEq] at h
      subst h
      cases ha : s.access with
      | true =>
        have hacc : ({ s with access := true } : Mutex F) = s := by rw [← ha]
        simp only [hacc, if_true]
        exact hs.goto (by simp [hp]) (by simp) (by simp) (by simp [ha])
      | false => exact hs.acquire hp ha
    | wakeOne =>
      cases hq : s.waiter.queue with
      | nil =>
        simp only [Mutex.step, hp, FutexLike.wakeOne, hq, Option.some.injEq] at h
        subst h
        exact hs.goto (by simp [hp]) (by simp) (by simp) (by simp [hq])
      | cons g rest =>
        simp only [Mutex.step, hp, FutexLike.wakeOne, hq, Option.some.injEq] at h
        subst h
        exact hs.wakeOne hp hq
    | park pc =>
      cases pc with
      | parked => simp [Mutex.step, hp] at h
      | setAwaiter | scheduled | relock =>
        simp only [Mutex.step, hp, Option.some.injEq] at h
        subst h
        exact hs.goto (by simp [hp]) (by simp) (by simp)
          (by simp [hp, MutexPc.attends, MutexPc.woken])
      | awaitSuspend =>
        have hf : f ∉ s.waiter.queue := by simp [hs.parked, hp]
        cases ha : s.access with
        | true =>
          have ht : { s with waiter := ⟨s.waiter.queue ++ [f]⟩ }.goto f (.park .parked) = t := by
            simpa [Mutex.step, hp, ha, FutexLike.awaitSuspend_equal] using h
          exact ht ▸ hs.enqueue hp ha
        | false =>
          have hacc : ({ s with access := false } : Mutex F) = s := by rw [← ha]
          have ht : ({ s with access := false } : Mutex F).goto f (.park .scheduled) = t := by
            simpa [Mutex.step, hp, ha, FutexLike.awaitSuspend_changed hf] using h
          rw [hacc] at ht
          exact ht ▸ hs.goto (by simp [hp]) (by simp) (by simp)
            (by simp [MutexPc.attends, MutexPc.woken])

theorem mutex_inv {F : Type} [DecidableEq F] {s : Mutex F} (h : (mutex F).Reachable s) :
    s.Inv :=
  h.invariant (I := Mutex.Inv) ⟨by simp [mutex], by simp [mutex], by simp [mutex], by simp [mutex],
    by simp [mutex]⟩ (fun _ _ _ _ hs hl => Mutex.step_inv hs hl)

/-- Exclusion, and no fiber parked on a free mutex that nobody will look at. -/
theorem mutex_exclusive_attended {F : Type} [DecidableEq F] {s : Mutex F}
    (h : (mutex F).Reachable s) :
    (∀ f g, s.pc f = .critical → s.pc g = .critical → f = g) ∧
      (s.access = false → s.waiter.queue ≠ [] →
        ∃ f, s.pc f = .wakeOne ∨ (s.pc f).woken = true) :=
  ⟨(mutex_inv h).unique, (mutex_inv h).attended⟩

/-- Fiber 1 parks behind fiber 0, which then unlocks: the cell is free, fiber 1 is
still queued and fiber 0 is the one that attends to it. -/
theorem mutex_exclusive_attended_unlock :
    ∃ s, (mutex (Fin 2)).Reachable s ∧ s.access = false ∧ s.waiter.queue = [1] ∧
      ∃ f, s.pc f = .wakeOne ∨ (s.pc f).woken = true := by
  have h : (mutex (Fin 2)).Reachable _ := Machine.reachable_of_exec
    ([.lock 0, .lock 1, .step 0, .step 1, .step 1, .step 1, .unlock 0]) rfl
  exact ⟨_, h, rfl, rfl, (mutex_exclusive_attended h).2 rfl (by decide)⟩

end ConcurrentProgramming.Fibers
