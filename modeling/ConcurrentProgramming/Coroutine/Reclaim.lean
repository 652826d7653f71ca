import ConcurrentProgramming.Coroutine.Fiber

/-!
Every fiber is in one place, the queue or the hands of one thread, from `Go` to
its deletion; so at the end there is none.
-/

set_option autoImplicit false

namespace ConcurrentProgramming.Coroutine
open Interleaving Compute

/-- All stacks are either free or in `held`. -/
def StackAllocator.Owns (a : StackAllocator) (held : List Nat) : Prop :=
  (a.freed ++ held).Perm (List.range a.pages)

theorem StackAllocator.Owns.allocate {a : StackAllocator} {held : List Nat} (h : a.Owns held) :
    a.allocate.1.Owns (a.allocate.2 :: held) := by
  unfold StackAllocator.Owns StackAllocator.allocate
  cases hlast : a.freed.getLast? with
  | none =>
    have hfreed := List.getLast?_eq_none_iff.mp hlast
    have hheld : held.Perm (List.range a.pages) := by simpa [StackAllocator.Owns, hfreed] using h
    simp only [hfreed, List.nil_append, List.range_succ]
    exact (hheld.cons _).trans (List.perm_append_singleton _ _).symm
  | some stack =>
    have hfreed : a.freed = a.freed.dropLast ++ [stack] :=
      (List.dropLast_append_getLast? stack hlast).symm
    have hsplit := h
    rw [StackAllocator.Owns, hfreed, List.append_assoc] at hsplit
    exact hsplit

theorem StackAllocator.Owns.release {a : StackAllocator} {held rest : List Nat} {stack : Nat}
    (h : a.Owns held) (hheld : held.Perm (stack :: rest)) : (a.release stack).Owns rest := by
  unfold StackAllocator.Owns StackAllocator.release
  rw [List.append_assoc]
  exact (hheld.symm.append_left _).trans h

def FiberObject.stack : FiberObject → Option Nat
  | .alive x => some x.stack
  | _ => none

@[simp] theorem FiberObject.stack_alive (x : Fiber) : (alive x).stack = some x.stack := rfl

@[simp] theorem FiberObject.stack_deleted : deleted.stack = none := rfl

/-- `live` lists the fibers that exist, with their stacks. -/
structure Live {F : Type} (fibers : F → FiberObject) (live : List (F × Nat)) : Prop where
  nodup : live.Nodup
  mem : ∀ f stack, (f, stack) ∈ live ↔ (fibers f).stack = some stack

theorem Live.create {F : Type} [DecidableEq F] {fibers : F → FiberObject} {live : List (F × Nat)}
    (h : Live fibers live) {f : F} (hf : (fibers f).stack = none) (x : Fiber) :
    Live (Function.update fibers f (.alive x)) ((f, x.stack) :: live) := by
  refine ⟨List.nodup_cons.mpr ⟨?_, h.nodup⟩, fun g stack => ?_⟩
  · rw [h.mem, hf]
    nofun
  · rw [List.mem_cons, h.mem]
    by_cases hg : g = f
    · subst hg
      simp [hf, eq_comm]
    · simp [hg]

theorem Live.delete {F : Type} [DecidableEq F] {fibers : F → FiberObject} {live : List (F × Nat)}
    (h : Live fibers live) {f : F} {stack : Nat} (hf : (fibers f).stack = some stack) :
    Live (Function.update fibers f .deleted) (live.erase (f, stack)) := by
  refine ⟨h.nodup.erase _, fun g k => ?_⟩
  rw [h.nodup.mem_erase_iff, h.mem]
  by_cases hg : g = f
  · subst hg
    simp [hf, eq_comm]
  · simp [hg]

/-- A fiber changes and keeps its stack. -/
theorem Live.modify {F : Type} [DecidableEq F] {fibers : F → FiberObject} {live : List (F × Nat)}
    (h : Live fibers live) {f : F} {x y : Fiber} (hf : fibers f = .alive x)
    (hstack : y.stack = x.stack) : Live (Function.update fibers f (.alive y)) live := by
  refine ⟨h.nodup, fun g k => ?_⟩
  rw [h.mem]
  by_cases hg : g = f
  · subst hg
    simp [hf, hstack]
  · simp [hg]

/-- What the log says about a fiber, given where it is in its life. -/
def FiberObject.Logged {F : Type} [DecidableEq F] (log : List (FiberEvent F)) (f : F) :
    FiberObject → Prop
  | .uncreated => (∀ stack, log.count (.created f stack) = 0) ∧ log.count (.deleted f) = 0 ∧
      ∀ stack, log.count (.released f stack) = 0
  | .alive x => (∀ stack, log.count (.created f stack) = if stack = x.stack then 1 else 0) ∧
      log.count (.deleted f) = 0 ∧ ∀ stack, log.count (.released f stack) = 0
  | .deleted => log.count (.deleted f) = 1 ∧ ∃ k, ∀ stack,
      log.count (.created f stack) = (if stack = k then 1 else 0) ∧
      log.count (.released f stack) = if stack = k then 1 else 0

def FiberObject.count : FiberObject → Nat
  | .alive _ => 1
  | _ => 0

def Step.fiber {F : Type} : Step F → Option F
  | .outside => none
  | .routine f | .resumed f | .finish f => some f

/-- The worker still runs the task of `f`, but has passed `f` on or deleted it. -/
def Step.finished {F : Type} [DecidableEq F] (f : F) : Step F → Nat
  | .finish g => [g].count f
  | _ => 0

def pending {F : Type} [DecidableEq F] (f : F) (go : Option F) : Nat := go.toList.count f

namespace Runtime

structure Reclaims {n : Nat} {C F : Type} [Fintype C] [DecidableEq F] (s : Runtime n C F)
    (log : List (FiberEvent F)) : Prop where
  steps : ∀ w f, (s.steps w).fiber = some f → s.pool.workers w = .run f
  current : ∀ w f, s.steps w = .routine f → s.current w = some f
  caught : ∀ f x, s.fibers f = .alive x → x.caught = false
  stopping : s.pool.Stopping
  undiscarded : ∀ i f, s.pool.calls i ≠ .discard f
  owned : ∃ live, Live s.fibers live ∧ s.allocator.Owns (live.map Prod.snd)
  logged : ∀ f, (s.fibers f).Logged log f
  custody : ∀ f, (s.fibers f).count + tally Finset.univ (Step.finished f) s.steps =
    s.pool.holding f + tally Finset.univ (pending f) s.goes

end Runtime

/-! What the steps of the pool do for the fibers. -/

theorem workers_of_internal {n : Nat} {C F : Type} [DecidableEq C] {s t : ThreadPool n C F}
    {l : ThreadPoolLabel n C F} (hl : internal l = true) (h : s.step .first l = some t)
    {w : Fin n} {f : F} (hw : s.workers w = .run f) : t.workers w = .run f := by
  cases l with
  | worker v =>
    have other {pc : Work F} (hv : ∀ f, s.workers v ≠ .run f) :
        Function.update s.workers v pc w = .run f := by
      have hne : w ≠ v := fun he => hv f (he ▸ hw)
      rwa [Function.update_of_ne hne]
    rcases ThreadPool.workerStep_cases h with ⟨tasks, taken, hv, -, rfl⟩ | ⟨task, hv, rfl⟩ |
      ⟨waiter, hv, -, rfl⟩
    · exact other fun f => by rcases hv with hv | hv <;> simp [hv]
    · exact other fun f => by simp [hv]
    · exact other fun f => by simp [hv]
  | return_ v | throw v | execute i task => cases hl
  | waitIdle i =>
    simp only [ThreadPool.step, Option.ite_none_right_eq_some, Option.some.injEq] at h
    obtain ⟨-, rfl⟩ := h
    exact hw
  | call i woken => rw [(ThreadPool.callStep_frame h).1, hw]
  | wakeWorker v =>
    obtain ⟨tasks, -, rfl⟩ := Option.map_eq_some_iff.mp h
    exact hw
  | wakeCaller i =>
    obtain ⟨waiter, -, rfl⟩ := Option.map_eq_some_iff.mp h
    exact hw
  | callStop =>
    cases hstop : s.stop <;>
      simp only [ThreadPool.step, hstop, reduceCtorEq, Option.some.injEq] at h
    subst h
    exact hw
  | stop =>
    rcases ThreadPool.stopStep_cases h with ⟨-, rfl⟩ | ⟨i, hi, -, -, rfl⟩ | ⟨i, -, -, rfl⟩
    · exact hw
    · exact hw
    · exact hw

/-- The first pool has no `Discard`. -/
theorem undiscarded_step {n : Nat} {C F : Type} [DecidableEq C] {s t : ThreadPool n C F}
    {l : ThreadPoolLabel n C F} (hs : ∀ i f, s.calls i ≠ .discard f)
    (h : s.step .first l = some t) : ∀ i f, t.calls i ≠ .discard f := by
  have enter {j : Fin n ⊕ C} {pc : Call F} (hpc : ∀ f, pc ≠ .discard f) (i : Fin n ⊕ C) (f : F) :
      Function.update s.calls j pc i ≠ .discard f := by
    by_cases hi : i = j
    · simpa [hi] using hpc f
    · simpa [hi] using hs i f
  cases l with
  | worker v =>
    rcases ThreadPool.workerStep_cases h with ⟨tasks, taken, -, -, rfl⟩ | ⟨task, -, rfl⟩ |
      ⟨waiter, -, -, rfl⟩
    · exact hs
    · exact hs
    · exact hs
  | return_ v | throw v =>
    obtain ⟨task, -, -, rfl⟩ := ThreadPool.finish_eq h
    exact hs
  | execute i task | waitIdle i =>
    simp only [ThreadPool.step, Option.ite_none_right_eq_some, Option.some.injEq] at h
    obtain ⟨-, rfl⟩ := h
    exact enter (by simp)
  | call i woken =>
    simp only [ThreadPool.step, ThreadPool.callStep] at h
    cases hi : s.calls i with
    | idle => simp [hi] at h
    | discard task => exact (hs i task hi).elim
    | incrementValue task =>
      simp only [hi, Option.some.injEq] at h
      subst h
      exact enter (by simp)
    | put task =>
      simp only [hi] at h
      obtain ⟨⟨tasks, accepted⟩, -, rfl⟩ := Option.map_eq_some_iff.mp h
      exact enter fun f => by cases accepted <;> simp [Discards.first]
    | decrementValue =>
      simp only [hi] at h
      obtain ⟨waiter, -, rfl⟩ := Option.map_eq_some_iff.mp h
      exact enter (by simp)
    | wait =>
      simp only [hi, Option.some.injEq] at h
      subst h
      exact enter fun f => by split <;> simp
    | waiting =>
      simp only [hi] at h
      obtain ⟨x, -, rfl⟩ := Option.map_eq_some_iff.mp h
      exact enter fun f => by split <;> simp
  | wakeWorker v =>
    obtain ⟨tasks, -, rfl⟩ := Option.map_eq_some_iff.mp h
    exact hs
  | wakeCaller i =>
    obtain ⟨waiter, -, rfl⟩ := Option.map_eq_some_iff.mp h
    exact hs
  | callStop =>
    cases hstop : s.stop <;>
      simp only [ThreadPool.step, hstop, reduceCtorEq, Option.some.injEq] at h
    subst h
    exact hs
  | stop =>
    rcases ThreadPool.stopStep_cases h with ⟨-, rfl⟩ | ⟨i, hi, -, -, rfl⟩ | ⟨i, -, -, rfl⟩
    · exact hs
    · exact hs
    · exact hs

theorem holding_of_internal {n : Nat} {C F : Type} [Fintype C] [DecidableEq C] [DecidableEq F]
    {s t : ThreadPool n C F} {l : ThreadPoolLabel n C F} (hl : internal l = true)
    (hs : ∀ i f, s.calls i ≠ .discard f) (hdiscards : s.discards .first l = true)
    (h : s.step .first l = some t) (f : F) : t.holding f = s.holding f := by
  have hbalance := (ThreadPool.balance_step hdiscards h).held f
  have hnone (e : Event F) (he : ∀ f, e ≠ .discardedRun f) : (s.events .first l).count e = 0 := by
    rw [List.count_eq_zero]
    cases l with
    | worker w => cases hw : s.workers w <;> simp [ThreadPool.events, Work.events, hw, he]
    | call i woken =>
      cases hi : s.calls i with
      | discard task => exact (hs i task hi).elim
      | _ => simp [ThreadPool.events, Call.events, hi]
    | stop => cases hstop : s.stop <;> simp [ThreadPool.events, Discards.first, hstop]
    | return_ w | throw w | execute i task => cases hl
    | _ => simp [ThreadPool.events]
  simp only [hnone (.passed f) (by simp), hnone (.ran f) (by simp), hnone (.discarded f) (by simp)] at hbalance
  omega

theorem execute_eq {n : Nat} {C F : Type} [Fintype C] [DecidableEq C] [DecidableEq F]
    {s t : ThreadPool n C F} {i : Fin n ⊕ C} {f : F}
    (h : s.step .first (.execute i f) = some t) :
    t = s.enter i (.incrementValue f) ∧ ∀ g, t.holding g = s.holding g + [f].count g := by
  refine ⟨?_, fun g => ?_⟩
  · simp only [ThreadPool.step, Option.ite_none_right_eq_some, Option.some.injEq] at h
    exact h.2.symm
  · have hbalance := (ThreadPool.balance_step (v := .first) rfl h).held g
    simp [ThreadPool.events, List.count_singleton] at hbalance ⊢
    omega

theorem return_eq {n : Nat} {C F : Type} [Fintype C] [DecidableEq C] [DecidableEq F]
    {s t : ThreadPool n C F} {w : Fin n} (h : s.step .first (.return_ w) = some t) :
    ∃ f, s.workers w = .run f ∧ t = s.goto w .decrementValue ∧
      ∀ g, s.holding g = t.holding g + [f].count g := by
  obtain ⟨f, hw, -, ht⟩ := ThreadPool.finish_eq h
  refine ⟨f, hw, ht, fun g => ?_⟩
  have hbalance := (ThreadPool.balance_step (v := .first) rfl h).held g
  simp [ThreadPool.events, hw, List.count_singleton] at hbalance ⊢
  omega

theorem FiberObject.Logged.append {F : Type} [DecidableEq F] {log events : List (FiberEvent F)}
    {f : F} {x : FiberObject} (h : x.Logged log f) (hevents : ∀ stack,
      FiberEvent.created f stack ∉ events ∧ .released f stack ∉ events)
    (hdeleted : FiberEvent.deleted f ∉ events) : x.Logged (log ++ events) f := by
  have hcreated (stack : Nat) := List.count_eq_zero.mpr (hevents stack).1
  have hreleased (stack : Nat) := List.count_eq_zero.mpr (hevents stack).2
  have hdeleted := List.count_eq_zero.mpr hdeleted
  cases x <;> simpa [Logged, List.count_append, hcreated, hreleased, hdeleted] using h

namespace Runtime

theorem modify_eq {n : Nat} {C F : Type} [DecidableEq F] {s t : Runtime n C F} {f : F}
    {change : Fiber → Fiber} (h : s.modify f change = some t) :
    ∃ x, s.fibers f = .alive x ∧
      t = { s with fibers := Function.update s.fibers f (.alive (change x)) } := by
  unfold modify at h
  cases hf : s.fibers f with
  | uncreated | deleted => simp [hf] at h
  | alive x =>
    simp only [hf, Option.some.injEq] at h
    exact ⟨x, rfl, h.symm⟩

/-- The pool goes on, with no fiber involved. -/
theorem Reclaims.pool {n : Nat} {C F : Type} [Fintype C] [DecidableEq F] {s : Runtime n C F}
    {log : List (FiberEvent F)} (hs : s.Reclaims log) {pool : ThreadPool n C F}
    (hworkers : ∀ w f, s.pool.workers w = .run f → pool.workers w = .run f)
    (hstopping : pool.Stopping) (hundiscarded : ∀ i f, pool.calls i ≠ .discard f)
    (hholding : ∀ f, pool.holding f = s.pool.holding f) :
    ({ s with pool := pool } : Runtime n C F).Reclaims log :=
  { hs with
    steps := fun w f hw => hworkers w f (hs.steps w f hw)
    stopping := hstopping
    undiscarded := hundiscarded
    custody := fun f => by
      show _ = pool.holding f + _
      rw [hholding]
      exact hs.custody f }

/-! What moves one worker, or changes one fiber, leaves the others as they are. -/

theorem Reclaims.steps_goto {n : Nat} {C F : Type} [Fintype C] [DecidableEq F]
    {s : Runtime n C F} {log : List (FiberEvent F)} (hs : s.Reclaims log) {w : Fin n}
    {pc : Step F} (hpc : ∀ f, pc.fiber = some f → s.pool.workers w = .run f) (v : Fin n) (f : F)
    (hv : ((s.goto w pc).steps v).fiber = some f) : s.pool.workers v = .run f := by
  by_cases he : v = w
  · subst he
    simp only [Runtime.goto, Function.update_self] at hv
    exact hpc f hv
  · simp only [Runtime.goto, Function.update_of_ne he] at hv
    exact hs.steps v f hv

theorem Reclaims.current_goto {n : Nat} {C F : Type} [Fintype C] [DecidableEq F]
    {s : Runtime n C F} {log : List (FiberEvent F)} (hs : s.Reclaims log) {w : Fin n}
    {pc : Step F} {current : Fin n → Option F}
    (hself : ∀ f, pc = .routine f → current w = some f)
    (hother : ∀ v, v ≠ w → current v = s.current v) (v : Fin n) (f : F)
    (hv : (s.goto w pc).steps v = .routine f) : current v = some f := by
  by_cases he : v = w
  · subst he
    simp only [Runtime.goto, Function.update_self] at hv
    exact hself f hv
  · simp only [Runtime.goto, Function.update_of_ne he] at hv
    rw [hother v he]
    exact hs.current v f hv

theorem Reclaims.caught_update {n : Nat} {C F : Type} [Fintype C] [DecidableEq F]
    {s : Runtime n C F} {log : List (FiberEvent F)} (hs : s.Reclaims log) {f : F}
    {object : FiberObject} (hobject : ∀ x, object = .alive x → x.caught = false) (g : F)
    (y : Fiber) (hy : Function.update s.fibers f object g = .alive y) : y.caught = false := by
  by_cases hg : g = f
  · subst hg
    rw [Function.update_self] at hy
    exact hobject y hy
  · rw [Function.update_of_ne hg] at hy
    exact hs.caught g y hy

theorem Reclaims.modify {n : Nat} {C F : Type} [Fintype C] [DecidableEq F] {s : Runtime n C F}
    {log : List (FiberEvent F)} (hs : s.Reclaims log) {f : F} {x y : Fiber}
    (hf : s.fibers f = .alive x) (hstack : y.stack = x.stack) (hcaught : y.caught = false) :
    ({ s with fibers := Function.update s.fibers f (.alive y) } : Runtime n C F).Reclaims log := by
  obtain ⟨live, hlive, howns⟩ := hs.owned
  refine { hs with
    caught := hs.caught_update fun z hz => FiberObject.alive.inj hz ▸ hcaught
    owned := ⟨live, hlive.modify hf hstack, howns⟩
    logged := fun g => ?_
    custody := fun g => ?_ }
  · by_cases hg : g = f
    · subst hg
      have hlogged := hs.logged g
      simpa [hf, FiberObject.Logged, hstack] using hlogged
    · simpa [hg] using hs.logged g
  · have hcustody := hs.custody g
    by_cases hg : g = f
    · subst hg
      simpa [hf, FiberObject.count] using hcustody
    · simpa [hg] using hcustody

/-- A worker goes from one point of `Step` to the next. -/
theorem Reclaims.goto {n : Nat} {C F : Type} [Fintype C] [DecidableEq F] {s : Runtime n C F}
    {log : List (FiberEvent F)} (hs : s.Reclaims log) {w : Fin n} {pc : Step F}
    (current : Option F) (hpc : ∀ f, pc.fiber = some f → s.pool.workers w = .run f)
    (hcurrent : ∀ f, pc = .routine f → current = some f)
    (hfinished : ∀ f, pc.finished f = (s.steps w).finished f) :
    ({ s.goto w pc with current := Function.update s.current w current } :
      Runtime n C F).Reclaims log := by
  refine { hs with
    steps := hs.steps_goto hpc
    current := hs.current_goto (fun f hf => by simpa using hcurrent f hf) fun v hv => by simp [hv]
    custody := fun f => ?_ }
  · have hsame := tally_update_of_eq (s := Finset.univ) (Step.finished f) s.steps (hfinished f)
    show _ + tally Finset.univ (Step.finished f) (Function.update s.steps w pc) = _
    rw [hsame]
    exact hs.custody f

/-- `delete this`, with the stack. -/
theorem Reclaims.delete {n : Nat} {C F : Type} [Fintype C] [DecidableEq F] {s : Runtime n C F}
    {log : List (FiberEvent F)} (hs : s.Reclaims log) {w : Fin n} {f : F} {x : Fiber}
    (hw : s.steps w = .resumed f) (hf : s.fibers f = .alive x) :
    ({ s.goto w (.finish f) with
      fibers := Function.update s.fibers f .deleted
      allocator := s.allocator.release x.stack } : Runtime n C F).Reclaims
        (log ++ [.released f x.stack, .deleted f]) := by
  obtain ⟨live, hlive, howns⟩ := hs.owned
  have hstack : (s.fibers f).stack = some x.stack := by rw [hf]; rfl
  have hfinish (g : F) (hg : (Step.finish f).fiber = some g) : s.pool.workers w = .run g :=
    hs.steps w g (by rw [hw]; exact hg)
  refine ⟨hs.steps_goto hfinish, hs.current_goto nofun fun _ _ => rfl, hs.caught_update nofun,
    hs.stopping, hs.undiscarded, ⟨_, hlive.delete hstack, howns.release ?_⟩, fun g => ?_,
    fun g => ?_⟩
  · exact (List.perm_cons_erase ((hlive.mem f x.stack).mpr hstack)).map Prod.snd
  · by_cases hg : g = f
    · subst hg
      have hlogged := hs.logged g
      rw [hf] at hlogged
      obtain ⟨hcreated, hdeleted, hreleased⟩ := hlogged
      simp only [Function.update_self]
      refine ⟨by simp [hdeleted], x.stack, fun stack => ?_⟩
      by_cases he : stack = x.stack
      · simp [hcreated, hreleased, he]
      · simp [hcreated, hreleased, he, Ne.symm he]
    · simp only [Function.update_of_ne hg]
      exact (hs.logged g).append (fun stack => by simp [hg]) (by simp [hg])
  · have hcustody := hs.custody g
    have hsteps := tally_update (Step.finished g) s.steps (Finset.mem_univ w) (.finish f)
    simp only [hw, Step.finished] at hsteps
    by_cases hg : g = f
    · subst hg
      simp only [hf, FiberObject.count, Runtime.goto, Function.update_self] at hcustody ⊢
      simp only [List.count_singleton_self] at hsteps
      omega
    · have hnone : [f].count g = 0 := by simp [Ne.symm hg]
      simp only [Runtime.goto, Function.update_of_ne hg] at hcustody ⊢
      omega

/-- `Schedule` at the end of a step: the fiber goes back to the pool. -/
theorem Reclaims.reschedule {n : Nat} {C F : Type} [Fintype C] [DecidableEq C] [DecidableEq F]
    {s : Runtime n C F} {log : List (FiberEvent F)} (hs : s.Reclaims log) {w : Fin n} {f : F}
    (hw : s.steps w = .resumed f) {pool : ThreadPool n C F}
    (h : s.pool.step .first (.execute (.inl w) f) = some pool) :
    ({ s.goto w (.finish f) with pool := pool } : Runtime n C F).Reclaims log := by
  obtain ⟨heq, hholding⟩ := execute_eq h
  have hworkers : pool.workers = s.pool.workers := by rw [heq]; rfl
  have hfinish (g : F) (hg : (Step.finish f).fiber = some g) : s.pool.workers w = .run g :=
    hs.steps w g (by rw [hw]; exact hg)
  refine { hs with
    steps := fun v g hv => ?_
    current := hs.current_goto nofun fun _ _ => rfl
    stopping := hs.stopping.step h
    undiscarded := undiscarded_step hs.undiscarded h
    custody := fun g => ?_ }
  · show pool.workers v = _
    rw [hworkers]
    exact hs.steps_goto hfinish v g hv
  · have hcustody := hs.custody g
    have hsteps := tally_update (Step.finished g) s.steps (Finset.mem_univ w) (.finish f)
    simp only [hw, Step.finished] at hsteps
    simp only [Runtime.goto, hholding]
    omega

/-- The task is over; the worker goes on to `DecrementValue`. -/
theorem Reclaims.finish {n : Nat} {C F : Type} [Fintype C] [DecidableEq C] [DecidableEq F]
    {s : Runtime n C F} {log : List (FiberEvent F)} (hs : s.Reclaims log) {w : Fin n} {f : F}
    (hw : s.steps w = .finish f) {pool : ThreadPool n C F}
    (h : s.pool.step .first (.return_ w) = some pool) :
    ({ s.goto w .outside with pool := pool, current := Function.update s.current w none } :
      Runtime n C F).Reclaims log := by
  obtain ⟨g, hrun, heq, hholding⟩ := return_eq h
  obtain rfl : f = g := by
    have hf := hs.steps w f (by rw [hw]; rfl)
    rw [hf] at hrun
    exact Work.run.inj hrun
  refine { hs with
    steps := fun v g hv => ?_
    current := hs.current_goto nofun fun v hv => by simp [hv]
    stopping := hs.stopping.step h
    undiscarded := undiscarded_step hs.undiscarded h
    custody := fun g => ?_ }
  · by_cases he : v = w
    · subst he
      simp [Runtime.goto, Step.fiber] at hv
    · simp only [Runtime.goto, Function.update_of_ne he] at hv
      show pool.workers v = _
      simpa [heq, ThreadPool.goto, he] using hs.steps v g hv
  · have hcustody := hs.custody g
    have hsteps := tally_update (Step.finished g) s.steps (Finset.mem_univ w) .outside
    have hpool := hholding g
    simp only [hw, Step.finished] at hsteps
    simp only [Runtime.goto]
    omega

theorem Reclaims.go {n : Nat} {C F : Type} [Fintype C] [DecidableEq C] [DecidableEq F]
    {s t : Runtime n C F} {log : List (FiberEvent F)} (hs : s.Reclaims log) {i : Fin n ⊕ C} {f : F}
    (hi : s.goes i = none) (h : s.go i f = some t) :
    t.Reclaims (log ++ [.created f s.allocator.allocate.2]) := by
  obtain ⟨live, hlive, howns⟩ := hs.owned
  cases hf : s.fibers f with
  | alive x | deleted => simp [Runtime.go, hf] at h
  | uncreated =>
    simp only [Runtime.go, hf, Option.some.injEq] at h
    subst h
    refine { hs with
      caught := hs.caught_update fun y hy => FiberObject.alive.inj hy ▸ rfl
      owned := ⟨_, hlive.create (by rw [hf]; rfl) ⟨s.allocator.allocate.2, .waiting, false⟩,
        howns.allocate⟩
      logged := fun g => ?_
      custody := fun g => ?_ }
    · by_cases hg : g = f
      · subst hg
        have hlogged := hs.logged g
        rw [hf] at hlogged
        obtain ⟨hcreated, hdeleted, hreleased⟩ := hlogged
        simp only [Function.update_self]
        refine ⟨fun stack => ?_, by simp [hdeleted], fun stack => by simp [hreleased]⟩
        by_cases he : stack = s.allocator.allocate.2
        · simp [hcreated, he]
        · simp [hcreated, he, Ne.symm he]
      · simp only [Function.update_of_ne hg]
        exact (hs.logged g).append (fun stack => by simp [hg]) (by simp)
    · have hcustody := hs.custody g
      have hgoes := tally_update (pending g) s.goes (Finset.mem_univ i) (some f)
      have hone : pending g (some f) = [f].count g := rfl
      have hnone : pending g (s.goes i) = 0 := by rw [hi]; rfl
      by_cases hg : g = f
      · subst hg
        simp only [hf, FiberObject.count, Function.update_self] at hcustody ⊢
        simp only [List.count_singleton_self] at hone
        omega
      · have hother : [f].count g = 0 := by simp [Ne.symm hg]
        simp only [Function.update_of_ne hg] at hcustody ⊢
        omega

/-- A new fiber goes to the pool. -/
theorem Reclaims.schedule {n : Nat} {C F : Type} [Fintype C] [DecidableEq C] [DecidableEq F]
    {s : Runtime n C F} {log : List (FiberEvent F)} (hs : s.Reclaims log) {i : Fin n ⊕ C} {f : F}
    (hi : s.goes i = some f) {pool : ThreadPool n C F}
    (h : s.pool.step .first (.execute i f) = some pool) :
    ({ s with pool := pool, goes := Function.update s.goes i none } :
      Runtime n C F).Reclaims log := by
  obtain ⟨heq, hholding⟩ := execute_eq h
  have hworkers : pool.workers = s.pool.workers := by rw [heq]; rfl
  refine { hs with
    steps := fun v g hv => ?_
    stopping := hs.stopping.step h
    undiscarded := undiscarded_step hs.undiscarded h
    custody := fun g => ?_ }
  · show pool.workers v = _
    rw [hworkers]
    exact hs.steps v g hv
  · have hcustody := hs.custody g
    have hgoes := tally_update (pending g) s.goes (Finset.mem_univ i) none
    have hone : pending g (s.goes i) = [f].count g := by rw [hi]; rfl
    have hnone : pending g none = 0 := rfl
    simp only [hholding]
    omega

theorem Reclaims.stepStep {n : Nat} {C F : Type} [Fintype C] [DecidableEq C] [DecidableEq F]
    {s t : Runtime n C F} {log : List (FiberEvent F)} (hs : s.Reclaims log) {w : Fin n}
    (h : s.stepStep w = some t) :
    t.Reclaims (log ++ s.events (.step w : RuntimeLabel n C F)) := by
  unfold Runtime.stepStep at h
  cases hw : s.steps w with
  | outside =>
    cases hrun : s.pool.workers w with
    | run f =>
      simp only [hw, hrun] at h
      obtain ⟨u, hu, rfl⟩ := Option.map_eq_some_iff.mp h
      obtain ⟨x, hf, rfl⟩ := modify_eq hu
      have hmodified := hs.modify (y := { x with state := .running }) hf rfl (hs.caught f x hf)
      have hevents : s.events (.step w : RuntimeLabel n C F) = [] := by simp only [events, hw]
      rw [hevents, List.append_nil]
      refine hmodified.goto (some f) (fun g hg => ?_) (fun g hg => ?_) fun g => ?_
      · obtain rfl := Option.some.inj hg
        exact hrun
      · obtain rfl := Step.routine.inj hg
        rfl
      · show 0 = Step.finished g (s.steps w)
        rw [hw]
        rfl
    | _ => simp [hw, hrun] at h
  | routine f => simp [hw] at h
  | resumed f =>
    simp only [hw, resumedStep] at h
    cases hf : s.fibers f with
    | uncreated | deleted => simp [hf] at h
    | alive x =>
      have hcaught := hs.caught f x hf
      simp only [hf, hcaught, Bool.false_eq_true, if_false] at h
      split at h
      · rename_i hstate
        simp only [Option.some.injEq] at h
        subst h
        have hevents : s.events (.step w : RuntimeLabel n C F) =
            [.released f x.stack, .deleted f] := by
          obtain ⟨stack, state, caught⟩ := x
          obtain rfl : state = .terminated := hstate
          obtain rfl : caught = false := hcaught
          simp only [events, hw, hf]
        rw [hevents]
        exact hs.delete hw hf
      · rename_i hstate
        obtain ⟨pool, hpool, rfl⟩ := Option.map_eq_some_iff.mp h
        have hevents : s.events (.step w : RuntimeLabel n C F) = [] := by
          obtain ⟨stack, state, caught⟩ := x
          cases state <;> simp_all [events]
        rw [hevents, List.append_nil]
        exact hs.reschedule hw hpool
  | finish f =>
    simp only [hw] at h
    obtain ⟨pool, hpool, rfl⟩ := Option.map_eq_some_iff.mp h
    have hevents : s.events (.step w : RuntimeLabel n C F) = [] := by simp only [events, hw]
    rw [hevents, List.append_nil]
    exact hs.finish hw hpool

theorem Reclaims.routineStep {n : Nat} {C F : Type} [Fintype C] [DecidableEq F]
    {s t : Runtime n C F} {log : List (FiberEvent F)} (hs : s.Reclaims log) {w : Fin n}
    {o : Outcome} (ho : o ≠ .throw) (h : s.routineStep w o = some t) : t.Reclaims log := by
  unfold Runtime.routineStep at h
  cases hw : s.steps w with
  | outside | resumed f | finish f => simp [hw] at h
  | routine f =>
    -- the fiber that the thread calls current is the one it runs
    have hcurrent := hs.current w f hw
    simp only [hw, hcurrent, ite_self, Option.ite_none_left_eq_some, Option.bind_some] at h
    obtain ⟨-, h⟩ := h
    obtain ⟨u, hu, rfl⟩ := Option.map_eq_some_iff.mp h
    obtain ⟨x, hf, rfl⟩ := modify_eq hu
    have hleave : (x.leave o).stack = x.stack ∧ (x.leave o).caught = false := by
      have hcaught := hs.caught f x hf
      cases o with
      | yield | return_ => exact ⟨rfl, hcaught⟩
      | throw => exact (ho rfl).elim
    have hmodified := hs.modify hf hleave.1 hleave.2
    have hgoto : ({ ({ s with fibers := Function.update s.fibers f (.alive (x.leave o)) } :
        Runtime n C F).goto w (.resumed f) with
          current := Function.update s.current w (s.current w) } : Runtime n C F).Reclaims log :=
      hmodified.goto (s.current w) (fun g hg => hs.steps w g (by rw [hw]; exact hg)) nofun
        fun g => by
          show 0 = Step.finished g (s.steps w)
          rw [hw]
          rfl
    rwa [Function.update_eq_self] at hgoto

theorem Reclaims.step {n : Nat} {C F : Type} [Fintype C] [DecidableEq C] [DecidableEq F]
    {s t : Runtime n C F} {log : List (FiberEvent F)} (hs : s.Reclaims log)
    {l : RuntimeLabel n C F} (hkeeps : s.keepsFibers l = true) (h : s.step l = some t) :
    t.Reclaims (log ++ s.events l) := by
  cases l with
  | pool l =>
    simp only [Runtime.step, Option.ite_none_right_eq_some] at h
    obtain ⟨hinternal, h⟩ := h
    obtain ⟨pool, hpool, rfl⟩ := Option.map_eq_some_iff.mp h
    rw [show s.events (.pool l) = [] from rfl, List.append_nil]
    exact hs.pool (fun w f => workers_of_internal hinternal hpool) (hs.stopping.step hpool)
      (undiscarded_step hs.undiscarded hpool)
      (holding_of_internal hinternal hs.undiscarded hkeeps hpool)
  | step w => exact hs.stepStep h
  | routine w o =>
    rw [show s.events (.routine w o) = [] from rfl, List.append_nil]
    exact hs.routineStep (by simpa [keepsFibers] using hkeeps) h
  | go i f =>
    simp only [Runtime.step, Option.ite_none_right_eq_some] at h
    obtain ⟨hfree, h⟩ := h
    refine hs.go ?_ h
    have hbusy : s.busy i = false := by
      simp only [free, Bool.and_eq_true, Bool.not_eq_true'] at hfree
      exact hfree.1
    unfold busy at hbusy
    split at hbusy
    · assumption
    · cases hbusy
  | schedule i =>
    obtain ⟨f, hi, h⟩ := Option.bind_eq_some_iff.mp h
    obtain ⟨pool, hpool, rfl⟩ := Option.map_eq_some_iff.mp h
    rw [show s.events (.schedule i) = [] from rfl, List.append_nil]
    exact hs.schedule hi hpool

/-- The fiber that a worker has in hand exists, so that no access to one is stuck. -/
theorem Reclaims.alive {n : Nat} {C F : Type} [Fintype C] [DecidableEq F] {s : Runtime n C F}
    {log : List (FiberEvent F)} (hs : s.Reclaims log) {w : Fin n} {f : F}
    (hw : s.pool.workers w = .run f) (hpc : ∀ g, s.steps w ≠ .finish g) :
    ∃ x, s.fibers f = .alive x := by
  have hcustody := hs.custody f
  have hfinished (v : Fin n) : (s.steps v).finished f ≤ (s.pool.workers v).holding f := by
    cases hv : s.steps v with
    | finish g =>
      rw [hs.steps v g (by rw [hv]; rfl)]
      exact Nat.le_refl _
    | _ => exact Nat.zero_le _
  have hhere : (s.steps w).finished f < (s.pool.workers w).holding f := by
    have hone : (s.pool.workers w).holding f = 1 := by rw [hw]; exact List.count_singleton_self
    rw [hone]
    cases hv : s.steps w with
    | finish g => exact (hpc g hv).elim
    | _ => exact Nat.one_pos
  have hlt : tally Finset.univ (Step.finished f) s.steps <
      tally Finset.univ (Work.holding f) s.pool.workers :=
    Finset.sum_lt_sum (fun v _ => hfinished v) ⟨w, Finset.mem_univ w, hhere⟩
  cases hf : s.fibers f with
  | alive x => exact ⟨x, rfl⟩
  | uncreated | deleted =>
    simp only [hf, FiberObject.count, ThreadPool.holding] at hcustody
    omega

end Runtime

/-- Runs that drop no fiber, with what becomes of the fibers. -/
def reclaimingRuntime (n : Nat) (C F : Type) [DecidableEq C] [DecidableEq F] :
    Machine (Runtime n C F × List (FiberEvent F)) (RuntimeLabel n C F) :=
  ((runtime n C F).guard Runtime.keepsFibers).observe Runtime.events

theorem reclaimingRuntime_inv {n : Nat} {C F : Type} [Fintype C] [DecidableEq C] [DecidableEq F]
    {s : Runtime n C F × List (FiberEvent F)} (h : (reclaimingRuntime n C F).Reachable s) :
    s.1.Reclaims s.2 := by
  apply h.invariant (I := fun s => s.1.Reclaims s.2)
  · refine ⟨nofun, nofun, nofun, ThreadPool.stopping_init .first, fun _ _ => nofun,
      ⟨[], ⟨List.nodup_nil, fun _ _ => ⟨nofun, nofun⟩⟩, List.Perm.refl _⟩,
      fun f => ⟨fun _ => rfl, rfl, fun _ => rfl⟩, fun f => ?_⟩
    simp [reclaimingRuntime, Machine.observe, runtime, threadPool, ThreadPool.holding, tally,
      Sync.UnboundedBlockingQueue.new, Work.holding, Call.holding, FiberObject.count,
      Step.finished, pending]
  · intro s l t _ hs ht
    obtain ⟨hguarded, hlog⟩ := Machine.observe_step ht
    obtain ⟨hkeeps, hstep⟩ := Machine.guard_step.mp hguarded
    rw [hlog]
    exact hs.step hkeeps hstep

/-- Every fiber that was created is deleted, once, and every stack is back. -/
structure Reclaimed {n : Nat} {C F : Type} [DecidableEq F] (s : Runtime n C F)
    (log : List (FiberEvent F)) : Prop where
  deleted : ∀ f stack, .created f stack ∈ log →
    log.count (.deleted f) = 1 ∧ log.count (.released f stack) = 1
  stacks_freed : s.allocator.freed.Perm (List.range s.allocator.pages)

theorem fibers_reclaimed {n : Nat} {C F : Type} [Fintype C] [DecidableEq C] [DecidableEq F]
    {s : Runtime n C F} {log : List (FiberEvent F)}
    (h : (reclaimingRuntime n C F).Reachable (s, log)) (hreturned : s.pool.stop = .returned)
    (hgoes : ∀ i, s.goes i = none) (hcalls : ∀ i, (s.pool.calls i).executing = false) :
    Reclaimed s log := by
  have hs : s.Reclaims log := reclaimingRuntime_inv h
  have hdead (f : F) : (s.fibers f).count = 0 := by
    have hcustody := hs.custody f
    have hpending : tally Finset.univ (pending f) s.goes = 0 :=
      tally_eq_zero.mpr fun i _ => by rw [hgoes i]; rfl
    have hholding := hs.stopping.holding_eq_zero hreturned hcalls f
    omega
  refine ⟨fun f stack hcreated => ?_, ?_⟩
  · have hlogged := hs.logged f
    have hpos : log.count (.created f stack) ≠ 0 :=
      fun hzero => List.count_eq_zero.mp hzero hcreated
    cases hf : s.fibers f with
    | uncreated =>
      rw [hf] at hlogged
      exact (hpos (hlogged.1 stack)).elim
    | alive x =>
      have := hdead f
      simp [hf, FiberObject.count] at this
    | deleted =>
      rw [hf] at hlogged
      obtain ⟨hdeleted, k, hstacks⟩ := hlogged
      obtain ⟨hcreated, hreleased⟩ := hstacks stack
      have hk : stack = k := by
        by_contra hne
        exact hpos (by rw [hcreated, if_neg hne])
      exact ⟨hdeleted, by rw [hreleased, if_pos hk]⟩
  · obtain ⟨live, hlive, howns⟩ := hs.owned
    have hnil : live = [] := by
      rw [List.eq_nil_iff_forall_not_mem]
      rintro ⟨f, stack⟩ hmem
      have hstack := (hlive.mem f stack).mp hmem
      have hcount := hdead f
      cases hf : s.fibers f <;> simp_all [FiberObject.stack, FiberObject.count]
    simpa [StackAllocator.Owns, hnil] using howns

/-- A fiber from outside starts another one and yields; `Stop` comes when both
are done. -/
theorem fibers_reclaimed_two :
    ∃ s log, (reclaimingRuntime 1 (Fin 1) Nat).Reachable (s, log) ∧ s.pool.stop = .returned ∧
      log.count (.created 0 0) = 1 ∧ log.count (.created 1 1) = 1 ∧ Reclaimed s log := by
  have h : (reclaimingRuntime 1 (Fin 1) Nat).Reachable (_, _) := Machine.reachable_of_exec
    [.go (.inr 0) 0, .schedule (.inr 0), .pool (.call (.inr 0) none),
      .pool (.call (.inr 0) none), .pool (.worker 0), .step 0,
      .go (.inl 0) 1, .schedule (.inl 0), .pool (.call (.inl 0) none),
      .pool (.call (.inl 0) none), .routine 0 .yield, .step 0, .pool (.call (.inl 0) none),
      .pool (.call (.inl 0) none), .step 0, .pool (.worker 0),
      .pool (.worker 0), .step 0, .routine 0 .return_, .step 0, .step 0, .pool (.worker 0),
      .pool (.worker 0), .step 0, .routine 0 .return_, .step 0, .step 0, .pool (.worker 0),
      .pool .callStop, .pool .stop, .pool (.worker 0), .pool .stop, .pool .stop] rfl
  exact ⟨_, _, h, rfl, rfl, rfl, fibers_reclaimed h rfl (by decide) (by decide)⟩

/-- `Cancel` clears the queue with a fiber in it. -/
theorem fibers_leaked_cancel :
    ∃ s log, ((runtime 1 (Fin 1) Nat).observe Runtime.events).Reachable (s, log) ∧
      s.pool.stop = .returned ∧ (∀ i, s.goes i = none) ∧
      (∀ i, (s.pool.calls i).executing = false) ∧ log = [.created 0 0] ∧ ¬ Reclaimed s log := by
  have h : ((runtime 1 (Fin 1) Nat).observe Runtime.events).Reachable (_, _) :=
    Machine.reachable_of_exec [.go (.inr 0) 0, .schedule (.inr 0), .pool (.call (.inr 0) none),
      .pool (.call (.inr 0) none), .pool .callStop, .pool .stop, .pool (.worker 0), .pool .stop,
      .pool .stop] rfl
  refine ⟨_, _, h, rfl, by decide, by decide, rfl, fun hreclaimed => ?_⟩
  have hdeleted := (hreclaimed.deleted 0 0 (by decide)).1
  revert hdeleted
  decide

end ConcurrentProgramming.Coroutine
