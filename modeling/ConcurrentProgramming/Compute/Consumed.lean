import ConcurrentProgramming.Compute.ThreadPool
import Mathlib.Data.Fintype.Sum

/-!
What becomes of the tasks: run, run and discarded after a throw, or discarded.
-/

set_option autoImplicit false

namespace ConcurrentProgramming.Compute
open Interleaving Sync

/-- `discardedRun` is the `Discard` of a task whose `Run` threw. -/
inductive Event (T : Type) where
  | passed (task : T)
  | ran (task : T)
  | threw (task : T)
  | discardedRun (task : T)
  | discarded (task : T)
  deriving DecidableEq, Repr

def Work.holding {T : Type} [DecidableEq T] (t : T) : Work T → Nat
  | .run task => [task].count t
  | _ => 0

def Work.thrown {T : Type} [DecidableEq T] (t : T) : Work T → Nat
  | .discard task => [task].count t
  | _ => 0

def Call.holding {T : Type} [DecidableEq T] (t : T) : Call T → Nat
  | .incrementValue task | .put task | .discard task => [task].count t
  | _ => 0

def Work.events {T : Type} : Work T → List (Event T)
  | .discard task => [.discardedRun task]
  | _ => []

def Call.events {T : Type} : Call T → List (Event T)
  | .discard task => [.discarded task]
  | _ => []

namespace ThreadPool

def events {n : Nat} {C T : Type} (v : Discards) (s : ThreadPool n C T) :
    ThreadPoolLabel n C T → List (Event T)
  | .execute _ task => [.passed task]
  | .worker w => (s.workers w).events
  | .call i _ => (s.calls i).events
  | .return_ w =>
    match s.workers w with
    | .run task => [.ran task]
    | _ => []
  | .throw w =>
    match s.workers w with
    | .run task => [.ran task, .threw task]
    | _ => []
  | .stop =>
    match s.stop with
    | .cancel => if v.cancelled then s.tasks.queue.map .discarded else []
    | _ => []
  | _ => []

/-- No task is dropped where the pool does not call `Discard`. -/
def discards {n : Nat} {C T : Type} (v : Discards) (s : ThreadPool n C T) :
    ThreadPoolLabel n C T → Bool
  | .call i _ =>
    match s.calls i with
    | .put _ => v.rejected || !s.tasks.closed
    | _ => true
  | .throw _ => v.thrown
  | .stop =>
    match s.stop with
    | .cancel => v.cancelled || s.tasks.queue.isEmpty
    | _ => true
  | _ => true

/-- How often the pool has `t`: queued, on its way into the queue, rejected and
not yet discarded, or being run. -/
def holding {n : Nat} {C T : Type} [Fintype C] [DecidableEq T] (t : T) (s : ThreadPool n C T) :
    Nat :=
  s.tasks.queue.count t + tally Finset.univ (Work.holding t) s.workers +
    tally Finset.univ (Call.holding t) s.calls

def thrown {n : Nat} {C T : Type} [DecidableEq T] (t : T) (s : ThreadPool n C T) : Nat :=
  tally Finset.univ (Work.thrown t) s.workers

/-- The tasks of the pool and the events of a step balance. -/
structure Balance {n : Nat} {C T : Type} [Fintype C] [DecidableEq T] (s t : ThreadPool n C T)
    (events : List (Event T)) : Prop where
  held : ∀ task, s.holding task + events.count (.passed task) =
    t.holding task + events.count (.ran task) + events.count (.discarded task)
  thrown : ∀ task, s.thrown task + events.count (.threw task) =
    t.thrown task + events.count (.discardedRun task)

theorem balance_goto {n : Nat} {C T : Type} [Fintype C] [DecidableEq T] {s : ThreadPool n C T}
    {w : Fin n} {pc : Work T} {tasks : UnboundedBlockingQueue (Fin n) T}
    {waiter : ZeroWaiter (Fin n ⊕ C)} {events : List (Event T)}
    (hheld : ∀ t, s.tasks.queue.count t + (s.workers w).holding t + events.count (.passed t) =
      tasks.queue.count t + pc.holding t + events.count (.ran t) + events.count (.discarded t))
    (hthrown : ∀ t, (s.workers w).thrown t + events.count (.threw t) =
      pc.thrown t + events.count (.discardedRun t)) :
    s.Balance { s.goto w pc with tasks := tasks, waiter := waiter } events := by
  refine ⟨fun t => ?_, fun t => ?_⟩
  · have htally := tally_update (Work.holding t) s.workers (Finset.mem_univ w) pc
    have hbalance := hheld t
    simp only [holding, goto]
    omega
  · have htally := tally_update (Work.thrown t) s.workers (Finset.mem_univ w) pc
    have hbalance := hthrown t
    simp only [ThreadPool.thrown, goto]
    omega

theorem balance_enter {n : Nat} {C T : Type} [Fintype C] [DecidableEq C] [DecidableEq T]
    {s : ThreadPool n C T} {i : Fin n ⊕ C} {pc : Call T}
    {tasks : UnboundedBlockingQueue (Fin n) T} {waiter : ZeroWaiter (Fin n ⊕ C)}
    {events : List (Event T)}
    (hheld : ∀ t, s.tasks.queue.count t + (s.calls i).holding t + events.count (.passed t) =
      tasks.queue.count t + pc.holding t + events.count (.ran t) + events.count (.discarded t))
    (hthrown : ∀ t, events.count (.threw t) = events.count (.discardedRun t)) :
    s.Balance { s.enter i pc with tasks := tasks, waiter := waiter } events := by
  refine ⟨fun t => ?_, fun t => ?_⟩
  · have htally := tally_update (Call.holding t) s.calls (Finset.mem_univ i) pc
    have hbalance := hheld t
    simp only [holding, enter]
    omega
  · have hbalance := hthrown t
    simp only [ThreadPool.thrown, enter]
    omega

/-- A step that moves no task. -/
theorem balance_frame {n : Nat} {C T : Type} [Fintype C] [DecidableEq T]
    {s t : ThreadPool n C T} (hworkers : t.workers = s.workers) (hcalls : t.calls = s.calls)
    (hqueue : t.tasks.queue = s.tasks.queue) : s.Balance t [] := by
  refine ⟨fun task => ?_, fun task => ?_⟩
  · simp [holding, hworkers, hcalls, hqueue]
  · simp [ThreadPool.thrown, hworkers]

theorem balance_workerStep {n : Nat} {C T : Type} [Fintype C] [DecidableEq T]
    {s t : ThreadPool n C T} {w : Fin n} (h : s.workerStep w = some t) :
    s.Balance t (s.workers w).events := by
  rcases workerStep_cases h with ⟨tasks, taken, hw, ⟨-, hlooks⟩, rfl⟩ | ⟨task, hw, rfl⟩ |
    ⟨waiter, hw, -, rfl⟩
  · have hevents : (s.workers w).events = [] := by rcases hw with hw | hw <;> rw [hw] <;> rfl
    have hholding (t : T) : (s.workers w).holding t = 0 := by
      rcases hw with hw | hw <;> rw [hw] <;> rfl
    have hthrown (t : T) : (s.workers w).thrown t = 0 := by
      rcases hw with hw | hw <;> rw [hw] <;> rfl
    rw [hevents]
    apply balance_goto
    · intro t
      cases taken with
      | wait | nullopt =>
        rw [hholding, hlooks.2.1, hlooks.2.2]
        rfl
      | value task =>
        rw [hholding, hlooks, List.count_cons]
        simp [Taken.work, Work.holding, List.count_singleton]
    · intro t
      rw [hthrown]
      cases taken <;> rfl
  · rw [hw]
    apply balance_goto
    · intro t
      rw [hw]
      simp [Work.holding, Work.events]
    · intro t
      rw [hw]
      simp [Work.thrown, Work.events, List.count_singleton]
  · rw [hw]
    apply balance_goto
    · intro t
      rw [hw]
      rfl
    · intro t
      rw [hw]
      rfl

theorem balance_callStep {n : Nat} {C T : Type} [Fintype C] [DecidableEq C] [DecidableEq T]
    {v : Discards} {s t : ThreadPool n C T} {i : Fin n ⊕ C} {woken : Option (Fin n)}
    (hdiscards : s.discards v (.call i woken) = true) (h : s.callStep v i woken = some t) :
    s.Balance t (s.calls i).events := by
  unfold callStep at h
  cases hi : s.calls i with
  | idle => simp [hi] at h
  | incrementValue task =>
    simp only [hi, Option.some.injEq] at h
    subst h
    exact balance_enter (fun t => by rw [hi]; rfl) fun _ => rfl
  | put task =>
    simp only [hi] at h
    obtain ⟨⟨tasks, accepted⟩, hput, rfl⟩ := Option.map_eq_some_iff.mp h
    obtain ⟨haccepted, -, hqueue⟩ := UnboundedBlockingQueue.put_eq hput
    simp only [discards, hi, ← haccepted, Bool.or_eq_true] at hdiscards
    refine balance_enter (fun t => ?_) fun _ => rfl
    rw [hi, hqueue]
    cases accepted with
    | true => simp [Call.holding, Call.events]
    | false =>
      have hrejected := hdiscards.resolve_right nofun
      simp [hrejected, Call.holding, Call.events]
  | discard task =>
    simp only [hi, Option.some.injEq] at h
    subst h
    refine balance_enter (fun t => ?_) fun _ => by simp [Call.events]
    rw [hi]
    simp [Call.holding, Call.events, List.count_singleton]
  | decrementValue =>
    simp only [hi] at h
    obtain ⟨waiter, -, rfl⟩ := Option.map_eq_some_iff.mp h
    exact balance_enter (fun t => by rw [hi]; rfl) fun _ => rfl
  | wait =>
    simp only [hi, Option.some.injEq] at h
    subst h
    refine balance_enter (fun t => ?_) fun _ => rfl
    rw [hi]
    split <;> rfl
  | waiting =>
    simp only [hi] at h
    obtain ⟨x, -, rfl⟩ := Option.map_eq_some_iff.mp h
    refine balance_enter (fun t => ?_) fun _ => rfl
    rw [hi]
    split <;> rfl

theorem balance_stopStep {n : Nat} {C T : Type} [Fintype C] [DecidableEq T] {v : Discards}
    {s t : ThreadPool n C T} (hdiscards : s.discards v (.stop : ThreadPoolLabel n C T) = true)
    (h : s.stopStep = some t) : s.Balance t (s.events v (.stop : ThreadPoolLabel n C T)) := by
  rcases stopStep_cases h with ⟨hstop, rfl⟩ | ⟨i, hi, hstop, -, rfl⟩ | ⟨i, -, hstop, rfl⟩
  · simp only [discards, hstop, Bool.or_eq_true, List.isEmpty_iff] at hdiscards
    have hevents (t : T) : (s.events v (.stop : ThreadPoolLabel n C T)).count (.discarded t) =
        s.tasks.queue.count t := by
      simp only [events, hstop]
      split
      · exact List.count_map_of_injective _ _ (fun _ _ he => Event.discarded.inj he) t
      · rename_i hcancelled
        rw [hdiscards.resolve_left hcancelled]
        rfl
    have hother {e : Event T} (he : ∀ t, e ≠ .discarded t) :
        (s.events v (.stop : ThreadPoolLabel n C T)).count e = 0 := by
      rw [List.count_eq_zero]
      intro hmem
      simp only [events, hstop] at hmem
      split at hmem
      · obtain ⟨t, -, rfl⟩ := List.mem_map.mp hmem
        exact he t rfl
      · cases hmem
    refine ⟨fun t => ?_, fun t => ?_⟩
    · rw [hevents, hother (e := .passed t) nofun, hother (e := .ran t) nofun]
      simp only [holding, UnboundedBlockingQueue.cancel_queue, List.count_nil]
      omega
    · rw [hother (e := .threw t) nofun, hother (e := .discardedRun t) nofun]
      rfl
  · have hevents : s.events v (.stop : ThreadPoolLabel n C T) = [] := by simp [events, hstop]
    rw [hevents]
    exact balance_frame rfl rfl rfl
  · have hevents : s.events v (.stop : ThreadPoolLabel n C T) = [] := by simp [events, hstop]
    rw [hevents]
    exact balance_frame rfl rfl rfl

theorem balance_step {n : Nat} {C T : Type} [Fintype C] [DecidableEq C] [DecidableEq T]
    {v : Discards} {s t : ThreadPool n C T} {l : ThreadPoolLabel n C T}
    (hdiscards : s.discards v l = true) (h : s.step v l = some t) :
    s.Balance t (s.events v l) := by
  cases l with
  | worker w => exact balance_workerStep h
  | return_ w =>
    obtain ⟨task, hw, -, rfl⟩ := finish_eq h
    apply balance_goto
    · intro t
      simp [events, hw, Work.holding, List.count_singleton]
    · intro t
      simp [events, hw, Work.thrown]
  | throw w =>
    obtain ⟨task, hw, -, rfl⟩ := finish_eq h
    have hthrown : v.thrown = true := hdiscards
    apply balance_goto
    · intro t
      simp [events, hw, hthrown, Work.holding, List.count_cons]
    · intro t
      simp [events, hw, hthrown, Work.thrown, List.count_cons]
  | execute i task =>
    simp only [step, Option.ite_none_right_eq_some, Option.some.injEq] at h
    obtain ⟨hfree, rfl⟩ := h
    refine balance_enter (fun t => ?_) fun _ => by simp [events]
    rw [free_idle hfree]
    simp [events, Call.holding, List.count_singleton]
  | waitIdle i =>
    simp only [step, Option.ite_none_right_eq_some, Option.some.injEq] at h
    obtain ⟨hfree, rfl⟩ := h
    exact balance_enter (fun t => by rw [free_idle hfree]; rfl) fun _ => rfl
  | call i woken => exact balance_callStep hdiscards h
  | wakeWorker w =>
    obtain ⟨tasks, hwake, rfl⟩ := Option.map_eq_some_iff.mp h
    exact balance_frame rfl rfl (UnboundedBlockingQueue.wake_frame hwake).2
  | wakeCaller i =>
    obtain ⟨waiter, -, rfl⟩ := Option.map_eq_some_iff.mp h
    exact balance_frame rfl rfl rfl
  | callStop =>
    cases hstop : s.stop <;> simp only [step, hstop, reduceCtorEq, Option.some.injEq] at h
    subst h
    exact balance_frame rfl rfl rfl
  | stop => exact balance_stopStep hdiscards h

end ThreadPool

/-- The pool under the futures with its events, in runs in which no task is
dropped without a `Discard`. -/
def consumingPool (n : Nat) (C T : Type) [DecidableEq C] :
    Machine (ThreadPool n C T × List (Event T)) (ThreadPoolLabel n C T) :=
  ((futuresPool n C T).guard (ThreadPool.discards .futures)).observe
    (ThreadPool.events .futures)

structure ThreadPool.Consumes {n : Nat} {C T : Type} [Fintype C] [DecidableEq T]
    (s : ThreadPool n C T) (log : List (Event T)) : Prop where
  held : ∀ t, log.count (.passed t) =
    log.count (.ran t) + log.count (.discarded t) + s.holding t
  thrown : ∀ t, log.count (.threw t) = log.count (.discardedRun t) + s.thrown t
  stopping : s.Stopping

theorem consumingPool_inv {n : Nat} {C T : Type} [Fintype C] [DecidableEq C] [DecidableEq T]
    {s : ThreadPool n C T × List (Event T)} (h : (consumingPool n C T).Reachable s) :
    s.1.Consumes s.2 := by
  apply h.invariant (I := fun s => s.1.Consumes s.2)
  · refine ⟨fun t => ?_, fun t => ?_, ThreadPool.stopping_init .futures⟩
    · simp [consumingPool, Machine.observe, futuresPool, threadPool, ThreadPool.holding, tally,
        UnboundedBlockingQueue.new, Work.holding, Call.holding]
    · simp [consumingPool, Machine.observe, futuresPool, threadPool, ThreadPool.thrown, tally,
        Work.thrown]
  · intro s l t _ hs ht
    obtain ⟨hguarded, hlog⟩ := Machine.observe_step ht
    obtain ⟨hdiscards, hstep⟩ := Machine.guard_step.mp hguarded
    have hbalance := ThreadPool.balance_step hdiscards hstep
    refine ⟨fun task => ?_, fun task => ?_, hs.stopping.step hstep⟩
    · have hheld := hs.held task
      have hstep := hbalance.held task
      simp only [hlog, List.count_append]
      omega
    · have hthrown := hs.thrown task
      have hstep := hbalance.thrown task
      simp only [hlog, List.count_append]
      omega

/-- After `Stop`, with no `Execute` under way, the pool has nothing. -/
theorem ThreadPool.Stopping.holding_eq_zero {n : Nat} {C T : Type} [Fintype C] [DecidableEq T]
    {s : ThreadPool n C T} (hs : s.Stopping) (hreturned : s.stop = .returned)
    (hcalls : ∀ i, (s.calls i).executing = false) (t : T) : s.holding t = 0 := by
  obtain ⟨hqueue, hexited⟩ := hs.ended hreturned
  have hworkers : tally Finset.univ (Work.holding t) s.workers = 0 :=
    tally_eq_zero.mpr fun w _ => by rw [hexited w]; rfl
  have hcallers : tally Finset.univ (Call.holding t) s.calls = 0 :=
    tally_eq_zero.mpr fun i _ => by
      have := hcalls i
      cases hi : s.calls i <;> simp_all [Call.executing, Call.holding]
  simp [ThreadPool.holding, hqueue, hworkers, hcallers]

/-- Every task passed to `Execute` was run or discarded, once, and discarded
after its run just where that threw. -/
structure ConsumedOnce {T : Type} [DecidableEq T] (log : List (Event T)) : Prop where
  accounted : ∀ t, log.count (.ran t) + log.count (.discarded t) = log.count (.passed t)
  once : ∀ t, log.count (.passed t) = 1 →
    log.count (.ran t) = 1 ∧ log.count (.discarded t) = 0 ∨
      log.count (.ran t) = 0 ∧ log.count (.discarded t) = 1
  thrown : ∀ t, log.count (.discardedRun t) = log.count (.threw t)

theorem futuresPool_consumes_once {n : Nat} {C T : Type} [Fintype C] [DecidableEq C]
    [DecidableEq T] {s : ThreadPool n C T} {log : List (Event T)}
    (h : (consumingPool n C T).Reachable (s, log)) (hreturned : s.stop = .returned)
    (hcalls : ∀ i, (s.calls i).executing = false) : ConsumedOnce log := by
  have hs : s.Consumes log := consumingPool_inv h
  have hholding := hs.stopping.holding_eq_zero hreturned hcalls
  have hexited := (hs.stopping.ended hreturned).2
  have hthrown (t : T) : s.thrown t = 0 :=
    tally_eq_zero.mpr fun w _ => by rw [hexited w]; rfl
  have haccounted (t : T) :
      log.count (.ran t) + log.count (.discarded t) = log.count (.passed t) := by
    have := hs.held t
    simp only [hholding] at this
    omega
  refine ⟨haccounted, fun t ht => ?_, fun t => ?_⟩
  · have := haccounted t
    omega
  · have := hs.thrown t
    simp only [hthrown] at this
    omega

/-- One task throws and one is in the queue when `Stop` cancels it. -/
theorem futuresPool_consumes_once_cancelled :
    ∃ s log, (consumingPool 1 (Fin 1) Nat).Reachable (s, log) ∧ s.stop = .returned ∧
      log.count (.discardedRun 7) = 1 ∧ log.count (.discarded 8) = 1 ∧ ConsumedOnce log := by
  have h : (consumingPool 1 (Fin 1) Nat).Reachable (_, _) :=
    Machine.reachable_of_exec [.execute (.inr 0) 7, .call (.inr 0) none, .call (.inr 0) none,
      .worker 0, .execute (.inl 0) 8, .call (.inl 0) none, .call (.inl 0) none, .callStop, .stop,
      .throw 0, .worker 0, .worker 0, .worker 0, .stop, .stop] rfl
  exact ⟨_, _, h, rfl, rfl, rfl, futuresPool_consumes_once h rfl (by decide)⟩

/-- A task passed to `Execute` after `Stop` is rejected by the closed queue; nobody
runs it and nobody discards it. -/
theorem futuresPool_drops_rejected :
    ∃ s log, ((futuresPool 1 (Fin 1) Nat).observe
        (ThreadPool.events .futures)).Reachable (s, log) ∧ s.stop = .returned ∧
      (∀ i, (s.calls i).executing = false) ∧ log = [.passed 7] ∧ ¬ ConsumedOnce log := by
  have h : ((futuresPool 1 (Fin 1) Nat).observe
      (ThreadPool.events .futures)).Reachable (_, _) :=
    Machine.reachable_of_exec [.callStop, .stop, .worker 0, .stop, .stop, .execute (.inr 0) 7,
      .call (.inr 0) none, .call (.inr 0) none, .call (.inr 0) none] rfl
  refine ⟨_, _, h, rfl, by decide, rfl, fun hconsumed => ?_⟩
  have haccounted := hconsumed.accounted 7
  revert haccounted
  decide

end ConcurrentProgramming.Compute
