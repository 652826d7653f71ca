import ConcurrentProgramming.Compute.Outstanding

/-!
The first pool, where `Submit` is the `execute` of the later ones. Its `Wait` looks
at the counter once, and returns from whatever wakes it up. A watcher notes for every
caller whether there has been nothing to wait for since its `WaitIdle` began.
-/

set_option autoImplicit false

namespace ConcurrentProgramming.Compute
open Interleaving Sync

/-- `Wait` once it is back from `is_null_.wait`. -/
def ZeroWaiter.back {ι : Type} [DecidableEq ι] (w : ZeroWaiter ι) (i : ι) :
    Option (ZeroWaiter ι) :=
  (w.isNull.resume i).map fun isNull => { w with isNull := isNull }

namespace ThreadPool

def callOnce {n : Nat} {C T : Type} [DecidableEq C] (s : ThreadPool n C T) (i : Fin n ⊕ C)
    (woken : Option (Fin n)) : Option (ThreadPool n C T) :=
  match s.calls i with
  | .waiting => (s.waiter.back i).map fun waiter => { s.enter i .idle with waiter := waiter }
  | _ => s.callStep .first i woken

def stepOnce {n : Nat} {C T : Type} [DecidableEq C] (s : ThreadPool n C T) :
    ThreadPoolLabel n C T → Option (ThreadPool n C T)
  | .call i woken => s.callOnce i woken
  | l => s.step .first l

/-- What a `Cancel` drops. -/
def cancelled {n : Nat} {C T : Type} (s : ThreadPool n C T) : ThreadPoolLabel n C T → Nat
  | .stop =>
    match s.stop with
    | .cancel => s.tasks.queue.length
    | _ => 0
  | _ => 0

end ThreadPool

def ThreadPoolLabel.begins {n : Nat} {C T : Type} [DecidableEq C] (i : Fin n ⊕ C) :
    ThreadPoolLabel n C T → Bool
  | .waitIdle j => j = i
  | _ => false

/-- The tasks that have been submitted and neither finished nor rejected are those
`outstanding` and those `dropped` by `Stop`. -/
structure WatchedPool (n : Nat) (C T : Type) where
  pool : ThreadPool n C T
  dropped : Nat
  seen : Fin n ⊕ C → Bool

namespace WatchedPool

def unfinished {n : Nat} {C T : Type} [Fintype C] (s : WatchedPool n C T) : Nat :=
  s.pool.outstanding + s.dropped

/-- There is nothing to wait for: `counter_` says so, and it is so. -/
def zero {n : Nat} {C T : Type} [Fintype C] (s : WatchedPool n C T) : Bool :=
  s.pool.waiter.counter = 0 ∧ s.unfinished = 0

/-- The watcher looks at the state after the step. -/
def watch {n : Nat} {C T : Type} [Fintype C] [DecidableEq C] (l : ThreadPoolLabel n C T)
    (s : WatchedPool n C T) : WatchedPool n C T :=
  { s with seen := fun i => !l.begins i && s.seen i || s.zero }

def step {n : Nat} {C T : Type} [Fintype C] [DecidableEq C] (s : WatchedPool n C T)
    (l : ThreadPoolLabel n C T) : Option (WatchedPool n C T) :=
  (s.pool.stepOnce l).map fun pool =>
    watch l { s with pool := pool, dropped := s.dropped + s.pool.cancelled l }

end WatchedPool

def firstPool (n : Nat) (C T : Type) [Fintype C] [DecidableEq C] :
    Machine (WatchedPool n C T) (ThreadPoolLabel n C T) where
  init := ⟨(threadPool .first n C T).init, 0, fun _ => true⟩
  step := WatchedPool.step

namespace WatchedPool

/-- `++counter_` does not wrap around. -/
def roomy {n : Nat} {C T : Type} (s : WatchedPool n C T) : ThreadPoolLabel n C T → Bool
  | .call i _ =>
    match s.pool.calls i with
    | .incrementValue _ => s.pool.waiter.counter + 1 < 2 ^ 32
    | _ => true
  | _ => true

/-- Nobody wakes up for no reason who has not seen a zero yet. -/
def attentive {n : Nat} {C T : Type} (s : WatchedPool n C T) : ThreadPoolLabel n C T → Bool
  | .wakeCaller i => s.seen i
  | _ => true

/-- Whoever returns from `WaitIdle` in the next step has seen a zero in its call. -/
def Prompt {n : Nat} {C T : Type} [DecidableEq C] (s : WatchedPool n C T) : Prop :=
  ∀ i woken t, s.pool.calls i = .wait ∨ s.pool.calls i = .waiting →
    s.pool.stepOnce (.call i woken) = some t → t.calls i = .idle → s.seen i = true

structure Inv {n : Nat} {C T : Type} [Fintype C] (s : WatchedPool n C T) : Prop where
  exact : s.pool.ExactBeyond s.dropped
  zero : s.pool.waiter.counter = 0 → ∀ i, s.seen i = true
  notified : ∀ i ∈ s.pool.waiter.isNull.notified, s.seen i = true

end WatchedPool

/-! What a step does to the counter, and to whoever is notified. -/

theorem ZeroWaiter.Counts.back {ι : Type} [DecidableEq ι] {w x : ZeroWaiter ι} {k : Nat}
    (h : w.Counts k) {i : ι} (hb : w.back i = some x) : x.Counts k := by
  obtain ⟨isNull, hresume, rfl⟩ := Option.map_eq_some_iff.mp hb
  exact ⟨h.counter, fun hzero => (ConditionVariable.resume_eq hresume).2.1.trans (h.awake hzero)⟩

theorem ZeroWaiter.back_notified {ι : Type} [DecidableEq ι] {w x : ZeroWaiter ι} {i : ι}
    (h : w.back i = some x) :
    i ∈ w.isNull.notified ∧ ∀ j ∈ x.isNull.notified, j ∈ w.isNull.notified := by
  obtain ⟨isNull, hresume, rfl⟩ := Option.map_eq_some_iff.mp h
  obtain ⟨hi, -, hnotified⟩ := ConditionVariable.resume_eq hresume
  exact ⟨hi, fun j hj => List.mem_of_mem_erase (hnotified ▸ hj)⟩

theorem ZeroWaiter.decrementValue_notified {ι : Type} {w x : ZeroWaiter ι}
    (h : w.decrementValue = some x) :
    ∀ i ∈ x.isNull.notified, i ∈ w.isNull.notified ∨ x.counter = 0 := by
  simp only [ZeroWaiter.decrementValue, Option.ite_none_left_eq_some, Option.some.injEq] at h
  obtain ⟨-, rfl⟩ := h
  intro i hi
  by_cases hzero : w.counter - 1 = 0
  · exact .inr hzero
  · simp only [if_neg hzero] at hi
    exact .inl hi

namespace ThreadPool

theorem stepOnce_eq {n : Nat} {C T : Type} [DecidableEq C] (s : ThreadPool n C T)
    {l : ThreadPoolLabel n C T} (hl : ∀ i woken, l ≠ .call i woken) :
    s.stepOnce l = s.step .first l := by
  cases l with
  | call i woken => exact (hl i woken rfl).elim
  | _ => rfl

theorem callOnce_cases {n : Nat} {C T : Type} [DecidableEq C] {s t : ThreadPool n C T}
    {i : Fin n ⊕ C} {woken : Option (Fin n)} (h : s.callOnce i woken = some t) :
    (∃ waiter, s.calls i = .waiting ∧ s.waiter.back i = some waiter ∧
      t = { s.enter i .idle with waiter := waiter }) ∨
    s.calls i ≠ .waiting ∧ s.callStep .first i woken = some t := by
  unfold callOnce at h
  cases hi : s.calls i with
  | waiting =>
    simp only [hi] at h
    obtain ⟨waiter, hback, rfl⟩ := Option.map_eq_some_iff.mp h
    exact .inl ⟨waiter, rfl, hback, rfl⟩
  | _ =>
    simp only [hi] at h
    exact .inr ⟨nofun, h⟩

theorem exists_callOnce {n : Nat} {C T : Type} [DecidableEq C] {s : ThreadPool n C T}
    {i : Fin n ⊕ C} (hi : s.calls i = .waiting) (hmem : i ∈ s.waiter.isNull.notified)
    (woken : Option (Fin n)) : ∃ t, s.callOnce i woken = some t ∧ t.calls i = .idle := by
  simp [callOnce, hi, ZeroWaiter.back, ConditionVariable.resume, hmem, enter]

theorem callStep_notified {n : Nat} {C T : Type} [DecidableEq C] {v : Discards}
    {s t : ThreadPool n C T} {i : Fin n ⊕ C} {woken : Option (Fin n)} (hi : s.calls i ≠ .waiting)
    (h : s.callStep v i woken = some t) :
    ∀ j ∈ t.waiter.isNull.notified, j ∈ s.waiter.isNull.notified ∨ t.waiter.counter = 0 := by
  unfold callStep at h
  cases hc : s.calls i with
  | idle => simp [hc] at h
  | waiting => exact (hi hc).elim
  | incrementValue _ | discard _ =>
    simp only [hc, Option.some.injEq] at h
    subst h
    exact fun j hj => .inl hj
  | put task =>
    simp only [hc] at h
    obtain ⟨⟨tasks, accepted⟩, -, rfl⟩ := Option.map_eq_some_iff.mp h
    exact fun j hj => .inl hj
  | decrementValue =>
    simp only [hc] at h
    obtain ⟨waiter, hwaiter, rfl⟩ := Option.map_eq_some_iff.mp h
    exact ZeroWaiter.decrementValue_notified hwaiter
  | wait =>
    simp only [hc, Option.some.injEq] at h
    subst h
    exact fun j hj => .inl (s.waiter.wait_notified i ▸ hj)

theorem stepOnce_notified {n : Nat} {C T : Type} [DecidableEq C] {s t : ThreadPool n C T}
    {l : ThreadPoolLabel n C T} (h : s.stepOnce l = some t) :
    ∀ i ∈ t.waiter.isNull.notified,
      i ∈ s.waiter.isNull.notified ∨ t.waiter.counter = 0 ∨ l = .wakeCaller i := by
  cases l with
  | worker w =>
    rcases workerStep_cases h with ⟨tasks, taken, -, -, rfl⟩ | ⟨task, -, rfl⟩ | ⟨waiter, -, hw, rfl⟩
    · exact fun i hi => .inl hi
    · exact fun i hi => .inl hi
    · exact fun i hi => (ZeroWaiter.decrementValue_notified hw i hi).imp_right .inl
  | return_ w | throw w =>
    obtain ⟨task, -, -, rfl⟩ := finish_eq h
    exact fun i hi => .inl hi
  | execute i task | waitIdle i =>
    simp only [stepOnce, step, Option.ite_none_right_eq_some, Option.some.injEq] at h
    obtain ⟨-, rfl⟩ := h
    exact fun i hi => .inl hi
  | call i woken =>
    rcases callOnce_cases h with ⟨waiter, -, hback, rfl⟩ | ⟨hi, hcall⟩
    · exact fun j hj => .inl ((ZeroWaiter.back_notified hback).2 j hj)
    · exact fun j hj => (callStep_notified hi hcall j hj).imp_right .inl
  | wakeWorker w =>
    obtain ⟨tasks, -, rfl⟩ := Option.map_eq_some_iff.mp h
    exact fun i hi => .inl hi
  | wakeCaller j =>
    obtain ⟨waiter, hwake, rfl⟩ := Option.map_eq_some_iff.mp h
    obtain ⟨isNull, hisNull, rfl⟩ := Option.map_eq_some_iff.mp hwake
    obtain ⟨-, -, hnotified⟩ := ConditionVariable.wake_eq hisNull
    intro i hi
    rw [hnotified, List.mem_append, List.mem_singleton] at hi
    rcases hi with hi | rfl
    · exact .inl hi
    · exact .inr (.inr rfl)
  | callStop =>
    cases hstop : s.stop <;>
      simp only [stepOnce, step, hstop, reduceCtorEq, Option.some.injEq] at h
    subst h
    exact fun i hi => .inl hi
  | stop =>
    rcases stopStep_cases h with ⟨-, rfl⟩ | ⟨i, hi, -, -, rfl⟩ | ⟨i, -, -, rfl⟩ <;>
      exact fun i hi => .inl hi

theorem ExactBeyond.stepOnce {n : Nat} {C T : Type} [Fintype C] [DecidableEq C] {lost : Nat}
    {s t : ThreadPool n C T} (hs : s.ExactBeyond lost) {l : ThreadPoolLabel n C T}
    (hroom : ∀ i woken, l = .call i woken → s.orderly l = true) (h : s.stepOnce l = some t) :
    t.ExactBeyond (lost + s.cancelled l) := by
  cases l with
  | call i woken =>
    rcases callOnce_cases h with ⟨waiter, hi, hback, rfl⟩ | ⟨-, hcall⟩
    · apply beyond_enter (hs.counts.back hback)
      · obtain ⟨isNull, hresume, rfl⟩ := Option.map_eq_some_iff.mp hback
        refine (ConditionVariable.Tracks.resume hs.tracks hresume).congr fun j => ?_
        by_cases hj : j = i <;> simp [hj]
      · rw [hi]
        rfl
    · exact hs.callStep (hroom i woken rfl) hcall
  | stop =>
    rcases stopStep_cases h with ⟨hstop, rfl⟩ | ⟨i, hi, hstop, -, rfl⟩ | ⟨i, -, hstop, rfl⟩
    · have hsame : s.outstanding + lost = ({ s with tasks := s.tasks.cancel, stop := .join 0 } :
          ThreadPool n C T).outstanding + (lost + s.tasks.queue.length) := by
        simp only [outstanding, UnboundedBlockingQueue.cancel, UnboundedBlockingQueue.closeImpl,
          if_true, List.length_nil]
        omega
      simp only [cancelled, hstop]
      exact ⟨hsame ▸ hs.counts, hs.tracks⟩
    · simp only [cancelled, hstop]
      exact ⟨hs.counts, hs.tracks⟩
    · simp only [cancelled, hstop]
      exact ⟨hs.counts, hs.tracks⟩
  | _ =>
    rw [s.stepOnce_eq (by simp)] at h
    exact hs.step rfl h

end ThreadPool

/-! The watched pool. -/

namespace WatchedPool

theorem watch_seen {n : Nat} {C T : Type} [Fintype C] [DecidableEq C] {l : ThreadPoolLabel n C T}
    {s : WatchedPool n C T} {i : Fin n ⊕ C} :
    (watch l s).seen i = true ↔ l.begins i = false ∧ s.seen i = true ∨ s.zero = true := by
  simp [watch]

theorem Inv.step {n : Nat} {C T : Type} [Fintype C] [DecidableEq C] {s t : WatchedPool n C T}
    (hs : s.Inv) {l : ThreadPoolLabel n C T} (hroom : s.roomy l = true)
    (hattentive : s.attentive l = true) (h : s.step l = some t) : t.Inv := by
  obtain ⟨pool, hpool, rfl⟩ := Option.map_eq_some_iff.mp h
  have hexact := hs.exact.stepOnce (fun i woken hl => by subst hl; exact hroom) hpool
  have hzero (hcounter : pool.waiter.counter = 0) (i : Fin n ⊕ C) :
      (watch l { s with pool := pool, dropped := s.dropped + s.pool.cancelled l }).seen i =
        true := by
    have hunfinished := hexact.counts.counter.symm.trans hcounter
    exact watch_seen.mpr (.inr (decide_eq_true ⟨hcounter, hunfinished⟩))
  refine ⟨hexact, hzero, fun i hi => ?_⟩
  rcases ThreadPool.stepOnce_notified hpool i hi with hi | hcounter | rfl
  · refine watch_seen.mpr (.inl ⟨?_, hs.notified i hi⟩)
    -- a thread that is inside `wait` cannot call `WaitIdle`
    have hcall := (hs.exact.tracks.mem i).mp (List.mem_append_right _ hi)
    cases l with
    | waitIdle j =>
      simp only [ThreadPool.stepOnce, ThreadPool.step, Option.ite_none_right_eq_some] at hpool
      have hidle := ThreadPool.free_idle hpool.1
      refine decide_eq_false fun hj => ?_
      subst hj
      rw [hidle] at hcall
      cases hcall
    | _ => rfl
  · exact hzero hcounter i
  · exact watch_seen.mpr (.inl ⟨rfl, hattentive⟩)

theorem Inv.prompt {n : Nat} {C T : Type} [Fintype C] [DecidableEq C] {s : WatchedPool n C T}
    (hs : s.Inv) : s.Prompt := by
  intro i woken t hi h hidle
  rcases ThreadPool.callOnce_cases h with ⟨waiter, -, hback, -⟩ | ⟨hwaiting, hcall⟩
  · exact hs.notified i (ZeroWaiter.back_notified hback).1
  · have hwait : s.pool.calls i = .wait := hi.resolve_right hwaiting
    simp only [ThreadPool.callStep, hwait, Option.some.injEq] at hcall
    subst hcall
    refine hs.zero ((s.pool.waiter.wait_snd i).mp ?_) i
    cases hdone : (s.pool.waiter.wait i).2 with
    | true => rfl
    | false => simp [ThreadPool.waited, ThreadPool.enter, hdone] at hidle

/-- A thread that wakes up for no reason returns in its next step. -/
theorem Inv.breaks {n : Nat} {C T : Type} [Fintype C] [DecidableEq C] {s t : WatchedPool n C T}
    (hs : s.Inv) {l : ThreadPoolLabel n C T} (hattentive : s.attentive l = false)
    (h : s.step l = some t) : ¬ t.Prompt := by
  obtain ⟨pool, hpool, rfl⟩ := Option.map_eq_some_iff.mp h
  cases l with
  | wakeCaller i =>
    obtain ⟨waiter, hwake, rfl⟩ := Option.map_eq_some_iff.mp hpool
    obtain ⟨isNull, hisNull, rfl⟩ := Option.map_eq_some_iff.mp hwake
    obtain ⟨hi, -, hnotified⟩ := ConditionVariable.wake_eq hisNull
    have hcall := (hs.exact.tracks.mem i).mp (List.mem_append_left _ hi)
    have hmem : i ∈ isNull.notified := by simp [hnotified]
    have hcounter : s.pool.waiter.counter ≠ 0 := by
      intro hzero
      rw [attentive, hs.zero hzero i] at hattentive
      cases hattentive
    intro hprompt
    obtain ⟨t, ht, hidle⟩ := ThreadPool.exists_callOnce (s := { s.pool with
      waiter := { s.pool.waiter with isNull := isNull } }) hcall hmem none
    have hseen := hprompt i none t (.inr hcall) ht hidle
    rcases watch_seen.mp hseen with ⟨-, hseen⟩ | hzero
    · exact Bool.false_ne_true (hattentive.symm.trans hseen)
    · simp [WatchedPool.zero, hcounter] at hzero
  | _ => cases hattentive

theorem inv_init {n : Nat} {C T : Type} [Fintype C] [DecidableEq C] :
    (firstPool n C T).init.Inv :=
  ⟨ThreadPool.exact_iff_beyond.mp (ThreadPool.exact_init .first), fun _ _ => rfl, nofun⟩

end WatchedPool

/-- In every run in which the counter does not wrap around: no `WaitIdle` returns
early from any of its states exactly if nobody is woken for no reason. -/
theorem firstPool_prompt_iff {n : Nat} {C T : Type} [Fintype C] [DecidableEq C]
    {ls : List (ThreadPoolLabel n C T)} {s : WatchedPool n C T}
    (h : ((firstPool n C T).guard WatchedPool.roomy).exec (firstPool n C T).init ls = some s) :
    (∀ k u, ((firstPool n C T).guard WatchedPool.roomy).exec (firstPool n C T).init (ls.take k) =
      some u → u.Prompt) ↔
    (((firstPool n C T).guard WatchedPool.roomy).guard WatchedPool.attentive).exec
      (firstPool n C T).init ls = some s := by
  refine Machine.Reachable.guard_exec_iff (fun u _ hu => WatchedPool.Inv.prompt hu)
    (fun u l v _ hu hstep hattentive => ?_) (fun u l v _ hu hstep hattentive => ?_) .init
    WatchedPool.inv_init h
  · obtain ⟨hroom, hstep⟩ := Machine.guard_step.mp hstep
    exact hu.step hroom hattentive hstep
  · exact hu.breaks hattentive (Machine.guard_step.mp hstep).2

/-- A caller falls asleep, and is notified when the task has finished. -/
theorem firstPool_prompt_iff_notified :
    ∃ ls s, ((firstPool 1 (Fin 2) Nat).guard WatchedPool.roomy).exec (firstPool 1 (Fin 2) Nat).init
      ls = some s ∧ s.pool.waiter.isNull.notified = [.inr 1] ∧
      ∀ k u, ((firstPool 1 (Fin 2) Nat).guard WatchedPool.roomy).exec
        (firstPool 1 (Fin 2) Nat).init (ls.take k) = some u → u.Prompt := by
  have h : ((firstPool 1 (Fin 2) Nat).guard WatchedPool.roomy).exec
      (firstPool 1 (Fin 2) Nat).init [.execute (.inr 0) 7, .call (.inr 0) none, .waitIdle (.inr 1),
        .call (.inr 1) none, .call (.inr 0) none, .worker 0, .return_ 0, .worker 0] = some _ := rfl
  exact ⟨_, _, h, rfl, (firstPool_prompt_iff h).mpr rfl⟩

/-- A spurious wake-up: `WaitIdle` returns while the task is still in the queue, and
the counter has been one since the call. -/
theorem firstPool_returns_early :
    ∃ s t, ((firstPool 1 (Fin 2) Nat).guard WatchedPool.roomy).exec (firstPool 1 (Fin 2) Nat).init
      [.execute (.inr 0) 7, .call (.inr 0) none, .call (.inr 0) none, .waitIdle (.inr 1),
        .call (.inr 1) none, .wakeCaller (.inr 1)] = some s ∧ ¬ s.Prompt ∧
      (firstPool 1 (Fin 2) Nat).step s (.call (.inr 1) none) = some t ∧
      t.pool.calls (.inr 1) = .idle ∧ t.pool.tasks.queue = [7] ∧ t.pool.waiter.counter = 1 ∧
      t.seen (.inr 1) = false := by
  refine ⟨_, _, rfl, fun hprompt => ?_, rfl, rfl, rfl, rfl, rfl⟩
  exact Bool.false_ne_true (hprompt (.inr 1) none _ (.inr rfl) rfl rfl)

end ConcurrentProgramming.Compute
