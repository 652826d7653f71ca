import ConcurrentProgramming.Compute.ThreadPool
import Mathlib.Data.Fintype.Sum

/-!
The counter of outstanding work: what it counts, and what it says after `Stop`.
-/

set_option autoImplicit false

namespace ConcurrentProgramming.Compute
open Interleaving Sync

/-- From the `Take` of a task up to the `DecrementValue` for it. -/
def Work.outstanding {T : Type} : Work T → Nat
  | .run _ | .discard _ | .decrementValue => 1
  | .take | .waiting | .exited => 0

/-- From `IncrementValue` up to an accepted `Put` or a `DecrementValue`. -/
def Call.outstanding {T : Type} : Call T → Nat
  | .put _ | .discard _ | .decrementValue => 1
  | .idle | .incrementValue _ | .wait | .waiting => 0

namespace ThreadPool

def outstanding {n : Nat} {C T : Type} [Fintype C] (s : ThreadPool n C T) : Nat :=
  s.tasks.queue.length + tally Finset.univ Work.outstanding s.workers +
    tally Finset.univ Call.outstanding s.calls

/-- `Cancel` finds nothing to discard, and the counter does not wrap around. -/
def orderly {n : Nat} {C T : Type} (s : ThreadPool n C T) : ThreadPoolLabel n C T → Bool
  | .stop =>
    match s.stop with
    | .cancel => s.tasks.queue.isEmpty
    | _ => true
  | .call i _ =>
    match s.calls i with
    | .incrementValue _ => s.waiter.counter + 1 < 2 ^ 32
    | _ => true
  | _ => true

theorem outstanding_goto {n : Nat} {C T : Type} [Fintype C] (s : ThreadPool n C T) (w : Fin n)
    (pc : Work T) (tasks : UnboundedBlockingQueue (Fin n) T) (waiter : ZeroWaiter (Fin n ⊕ C)) :
    ({ s.goto w pc with tasks := tasks, waiter := waiter } : ThreadPool n C T).outstanding +
        s.tasks.queue.length + (s.workers w).outstanding =
      s.outstanding + tasks.queue.length + pc.outstanding := by
  have htally := tally_update Work.outstanding s.workers (Finset.mem_univ w) pc
  simp only [outstanding, goto]
  omega

theorem outstanding_enter {n : Nat} {C T : Type} [Fintype C] [DecidableEq C]
    (s : ThreadPool n C T) (i : Fin n ⊕ C) (pc : Call T)
    (tasks : UnboundedBlockingQueue (Fin n) T) (waiter : ZeroWaiter (Fin n ⊕ C)) :
    ({ s.enter i pc with tasks := tasks, waiter := waiter } : ThreadPool n C T).outstanding +
        s.tasks.queue.length + (s.calls i).outstanding =
      s.outstanding + tasks.queue.length + pc.outstanding := by
  have htally := tally_update Call.outstanding s.calls (Finset.mem_univ i) pc
  simp only [outstanding, enter]
  omega

structure Exact {n : Nat} {C T : Type} [Fintype C] (s : ThreadPool n C T) : Prop where
  counts : s.waiter.Counts s.outstanding
  tracks : s.waiter.Tracks fun i => s.calls i = .waiting

/-- The counter counts `lost` tasks more, for which nobody will decrement it. -/
structure ExactBeyond {n : Nat} {C T : Type} [Fintype C] (lost : Nat) (s : ThreadPool n C T) :
    Prop where
  counts : s.waiter.Counts (s.outstanding + lost)
  tracks : s.waiter.Tracks fun i => s.calls i = .waiting

theorem exact_iff_beyond {n : Nat} {C T : Type} [Fintype C] {s : ThreadPool n C T} :
    s.Exact ↔ s.ExactBeyond 0 :=
  ⟨fun ⟨hcounts, htracks⟩ => ⟨hcounts, htracks⟩, fun ⟨hcounts, htracks⟩ => ⟨hcounts, htracks⟩⟩

theorem tracks_update {n : Nat} {C T : Type} [DecidableEq C] {s : ThreadPool n C T}
    {waiter : ZeroWaiter (Fin n ⊕ C)} {i : Fin n ⊕ C} {pc : Call T}
    (h : waiter.Tracks fun j => s.calls j = .waiting) (hi : s.calls i ≠ .waiting)
    (hpc : pc ≠ .waiting) : waiter.Tracks fun j => Function.update s.calls i pc j = .waiting := by
  refine ConditionVariable.Tracks.congr h fun j => ?_
  by_cases hj : j = i
  · simp [hj, hi, hpc]
  · simp [hj]

/-! Who is inside of the `wait` of `WaitIdle`, whatever the counter does. -/

theorem tracks_workerStep {n : Nat} {C T : Type} {s t : ThreadPool n C T}
    (hs : s.waiter.Tracks fun i => s.calls i = .waiting) {w : Fin n}
    (h : s.workerStep w = some t) : t.waiter.Tracks fun i => t.calls i = .waiting := by
  rcases workerStep_cases h with ⟨tasks, taken, -, -, rfl⟩ | ⟨task, -, rfl⟩ |
    ⟨waiter, -, hwaiter, rfl⟩
  · exact hs
  · exact hs
  · exact hs.decrementValue hwaiter

theorem tracks_callStep {n : Nat} {C T : Type} [DecidableEq C] {v : Discards}
    {s t : ThreadPool n C T} (hs : s.waiter.Tracks fun i => s.calls i = .waiting) {i : Fin n ⊕ C}
    {woken : Option (Fin n)} (h : s.callStep v i woken = some t) :
    t.waiter.Tracks fun i => t.calls i = .waiting := by
  unfold ThreadPool.callStep at h
  cases hi : s.calls i with
  | idle => simp [hi] at h
  | incrementValue task =>
    simp only [hi, Option.some.injEq] at h
    exact h ▸ tracks_update hs.incrementValue (by simp [hi]) (by nofun)
  | put task =>
    simp only [hi] at h
    obtain ⟨⟨tasks, accepted⟩, -, rfl⟩ := Option.map_eq_some_iff.mp h
    exact tracks_update hs (by simp [hi]) (by cases accepted <;> cases v.rejected <;> simp)
  | discard task =>
    simp only [hi, Option.some.injEq] at h
    exact h ▸ tracks_update hs (by simp [hi]) (by nofun)
  | decrementValue =>
    simp only [hi] at h
    obtain ⟨waiter, hwaiter, rfl⟩ := Option.map_eq_some_iff.mp h
    exact tracks_update (hs.decrementValue hwaiter) (by simp [hi]) (by nofun)
  | wait =>
    simp only [hi, Option.some.injEq] at h
    subst h
    refine (hs.wait (i := i) (by simp [hi])).congr fun j => ?_
    by_cases hj : j = i
    · cases hdone : (s.waiter.wait i).2 <;> simp [waited, enter, hj, hi, hdone]
    · simp [waited, enter, hj]
  | waiting =>
    simp only [hi] at h
    obtain ⟨x, hx, rfl⟩ := Option.map_eq_some_iff.mp h
    refine (hs.rewait hx).congr fun j => ?_
    by_cases hj : j = i
    · cases hdone : x.2 <;> simp [waited, enter, hj, hdone]
    · simp [waited, enter, hj]

theorem tracks_step {n : Nat} {C T : Type} [DecidableEq C] {v : Discards}
    {s t : ThreadPool n C T} (hs : s.waiter.Tracks fun i => s.calls i = .waiting)
    {l : ThreadPoolLabel n C T} (h : s.step v l = some t) :
    t.waiter.Tracks fun i => t.calls i = .waiting := by
  cases l with
  | worker w => exact tracks_workerStep hs h
  | return_ w | throw w =>
    obtain ⟨task, -, -, rfl⟩ := finish_eq h
    exact hs
  | execute i task | waitIdle i =>
    simp only [ThreadPool.step, Option.ite_none_right_eq_some, Option.some.injEq] at h
    obtain ⟨hfree, rfl⟩ := h
    exact tracks_update hs (by simp [free_idle hfree]) (by simp)
  | call i woken => exact tracks_callStep hs h
  | wakeWorker w =>
    obtain ⟨tasks, -, rfl⟩ := Option.map_eq_some_iff.mp h
    exact hs
  | wakeCaller i =>
    obtain ⟨waiter, hwake, rfl⟩ := Option.map_eq_some_iff.mp h
    exact hs.wake hwake
  | callStop =>
    cases hstop : s.stop <;> simp only [ThreadPool.step, hstop, reduceCtorEq, Option.some.injEq] at h
    subst h
    exact hs
  | stop =>
    rcases stopStep_cases h with ⟨-, rfl⟩ | ⟨i, -, -, -, rfl⟩ | ⟨i, -, -, rfl⟩
    all_goals exact hs

/-- A worker goes on; the counter has been told of it. -/
theorem beyond_goto {n : Nat} {C T : Type} [Fintype C] {lost : Nat} {s : ThreadPool n C T}
    {w : Fin n} {pc : Work T} {tasks : UnboundedBlockingQueue (Fin n) T}
    {waiter : ZeroWaiter (Fin n ⊕ C)} {k : Nat} (hcounts : waiter.Counts k)
    (htracks : waiter.Tracks fun i => s.calls i = .waiting)
    (hk : s.outstanding + lost + tasks.queue.length + pc.outstanding =
      k + s.tasks.queue.length + (s.workers w).outstanding) :
    ({ s.goto w pc with tasks := tasks, waiter := waiter } : ThreadPool n C T).ExactBeyond
      lost := by
  refine ⟨?_, htracks⟩
  have hgoto := s.outstanding_goto w pc tasks waiter
  have hsame : ({ s.goto w pc with tasks := tasks, waiter := waiter } :
      ThreadPool n C T).outstanding + lost = k := by omega
  rwa [hsame]

theorem beyond_enter {n : Nat} {C T : Type} [Fintype C] [DecidableEq C] {lost : Nat}
    {s : ThreadPool n C T} {i : Fin n ⊕ C} {pc : Call T}
    {tasks : UnboundedBlockingQueue (Fin n) T} {waiter : ZeroWaiter (Fin n ⊕ C)} {k : Nat}
    (hcounts : waiter.Counts k)
    (htracks : waiter.Tracks fun j => Function.update s.calls i pc j = .waiting)
    (hk : s.outstanding + lost + tasks.queue.length + pc.outstanding =
      k + s.tasks.queue.length + (s.calls i).outstanding) :
    ({ s.enter i pc with tasks := tasks, waiter := waiter } : ThreadPool n C T).ExactBeyond
      lost := by
  refine ⟨?_, htracks⟩
  have henter := s.outstanding_enter i pc tasks waiter
  have hsame : ({ s.enter i pc with tasks := tasks, waiter := waiter } :
      ThreadPool n C T).outstanding + lost = k := by omega
  rwa [hsame]

theorem ExactBeyond.workerStep {n : Nat} {C T : Type} [Fintype C] {lost : Nat}
    {s t : ThreadPool n C T} (hs : s.ExactBeyond lost) {w : Fin n} (h : s.workerStep w = some t) :
    t.ExactBeyond lost := by
  rcases workerStep_cases h with ⟨tasks, taken, hw, ⟨-, hlooks⟩, rfl⟩ | ⟨task, hw, rfl⟩ |
    ⟨waiter, hw, hwaiter, rfl⟩
  · apply beyond_goto hs.counts hs.tracks
    have hwork : (s.workers w).outstanding = 0 := by
      rcases hw with hw | hw <;> rw [hw] <;> rfl
    cases taken with
    | wait | nullopt =>
      rw [hwork, hlooks.2.1, hlooks.2.2]
      rfl
    | value task =>
      rw [hlooks, hwork, List.length_cons]
      show _ + _ + 1 = _
      omega
  · apply beyond_goto hs.counts hs.tracks
    rw [hw]
    rfl
  · apply beyond_goto (hs.counts.decrementValue hwaiter) (hs.tracks.decrementValue hwaiter)
    -- the worker itself is outstanding, so that the counter is not zero
    have hpos := le_tally Work.outstanding s.workers (Finset.mem_univ w)
    simp only [hw, Work.outstanding, outstanding, goto_tasks] at hpos ⊢
    omega

theorem ExactBeyond.callStep {n : Nat} {C T : Type} [Fintype C] [DecidableEq C] {v : Discards}
    {lost : Nat} {s t : ThreadPool n C T} (hs : s.ExactBeyond lost) {i : Fin n ⊕ C}
    {woken : Option (Fin n)} (hroom : s.orderly (.call i woken) = true)
    (h : s.callStep v i woken = some t) : t.ExactBeyond lost := by
  have htracks := tracks_callStep hs.tracks h
  unfold ThreadPool.callStep at h
  cases hi : s.calls i with
  | idle => simp [hi] at h
  | incrementValue task =>
    simp only [hi, Option.some.injEq] at h
    subst h
    simp only [orderly, hi, decide_eq_true_eq, hs.counts.counter] at hroom
    apply beyond_enter (hs.counts.incrementValue hroom) htracks
    simp only [hi, Call.outstanding, enter_tasks]
    omega
  | put task =>
    simp only [hi] at h
    obtain ⟨⟨tasks, accepted⟩, hput, rfl⟩ := Option.map_eq_some_iff.mp h
    obtain ⟨-, -, hqueue⟩ := UnboundedBlockingQueue.put_eq hput
    apply beyond_enter hs.counts htracks
    rw [hi, hqueue]
    cases accepted <;> cases v.rejected <;> simp [Call.outstanding] <;> omega
  | discard task =>
    simp only [hi, Option.some.injEq] at h
    subst h
    apply beyond_enter hs.counts htracks
    rw [hi]
    rfl
  | decrementValue =>
    simp only [hi] at h
    obtain ⟨waiter, hwaiter, rfl⟩ := Option.map_eq_some_iff.mp h
    apply beyond_enter (hs.counts.decrementValue hwaiter) htracks
    have hpos := le_tally Call.outstanding s.calls (Finset.mem_univ i)
    simp only [hi, Call.outstanding, outstanding, enter_tasks] at hpos ⊢
    omega
  | wait =>
    simp only [hi, Option.some.injEq] at h
    subst h
    apply beyond_enter (hs.counts.wait i) htracks
    rw [hi, enter_tasks]
    split <;> rfl
  | waiting =>
    simp only [hi] at h
    obtain ⟨x, hx, rfl⟩ := Option.map_eq_some_iff.mp h
    apply beyond_enter (hs.counts.rewait hx) htracks
    rw [hi, enter_tasks]
    split <;> rfl

theorem ExactBeyond.step {n : Nat} {C T : Type} [Fintype C] [DecidableEq C] {v : Discards}
    {lost : Nat} {s t : ThreadPool n C T} (hs : s.ExactBeyond lost) {l : ThreadPoolLabel n C T}
    (horderly : s.orderly l = true) (h : s.step v l = some t) : t.ExactBeyond lost := by
  cases l with
  | worker w => exact hs.workerStep h
  | return_ w =>
    obtain ⟨task, hw, -, rfl⟩ := finish_eq h
    apply beyond_goto hs.counts hs.tracks
    rw [hw]
    rfl
  | throw w =>
    obtain ⟨task, hw, -, rfl⟩ := finish_eq h
    apply beyond_goto hs.counts hs.tracks
    rw [hw]
    cases v.thrown <;> rfl
  | execute i task | waitIdle i =>
    simp only [ThreadPool.step, Option.ite_none_right_eq_some, Option.some.injEq] at h
    obtain ⟨hfree, rfl⟩ := h
    have hi := free_idle hfree
    apply beyond_enter hs.counts (tracks_update hs.tracks (by simp [hi]) (by simp))
    rw [hi]
    rfl
  | call i woken => exact hs.callStep horderly h
  | wakeWorker w =>
    obtain ⟨tasks, hwake, rfl⟩ := Option.map_eq_some_iff.mp h
    have hqueue := (UnboundedBlockingQueue.wake_frame hwake).2
    refine ⟨?_, hs.tracks⟩
    have hcounts := hs.counts
    rwa [outstanding, ← hqueue] at hcounts
  | wakeCaller i =>
    obtain ⟨waiter, hwake, rfl⟩ := Option.map_eq_some_iff.mp h
    exact ⟨hs.counts.wake hwake, hs.tracks.wake hwake⟩
  | callStop =>
    cases hstop : s.stop <;> simp only [ThreadPool.step, hstop, reduceCtorEq, Option.some.injEq] at h
    subst h
    exact ⟨hs.counts, hs.tracks⟩
  | stop =>
    rcases stopStep_cases h with ⟨hstop, rfl⟩ | ⟨i, hi, -, -, rfl⟩ | ⟨i, -, -, rfl⟩
    · simp only [orderly, hstop, List.isEmpty_iff] at horderly
      have hcounts := hs.counts
      rw [outstanding, horderly] at hcounts
      exact ⟨hcounts, hs.tracks⟩
    · exact ⟨hs.counts, hs.tracks⟩
    · exact ⟨hs.counts, hs.tracks⟩

theorem exact_init {n : Nat} {C T : Type} [Fintype C] [DecidableEq C] (v : Discards) :
    (threadPool v n C T).init.Exact := by
  refine ⟨?_, ConditionVariable.tracks_new nofun⟩
  have hnone : (threadPool v n C T).init.outstanding = 0 := by
    simp [outstanding, threadPool, UnboundedBlockingQueue.new, tally, Work.outstanding,
      Call.outstanding]
  rw [hnone]
  exact ZeroWaiter.counts_new _

end ThreadPool

theorem schedulerPool_inv {n : Nat} {C T : Type} [Fintype C] [DecidableEq C]
    {s : ThreadPool n C T} (h : ((schedulerPool n C T).guard ThreadPool.orderly).Reachable s) :
    s.Exact ∧ s.Stopping := by
  apply h.invariant
  · exact ⟨ThreadPool.exact_init .scheduler, ThreadPool.stopping_init .scheduler⟩
  · rintro s l t - ⟨hexact, hstopping⟩ ht
    obtain ⟨horderly, hstep⟩ := Machine.guard_step.mp ht
    have hbeyond := (ThreadPool.exact_iff_beyond.mp hexact).step horderly hstep
    exact ⟨ThreadPool.exact_iff_beyond.mpr hbeyond, hstopping.step hstep⟩

/-- What the counter promises. -/
structure ThreadPool.CountsOutstanding {n : Nat} {C T : Type} [Fintype C]
    (s : ThreadPool n C T) : Prop where
  counter : s.waiter.counter = s.outstanding
  worker_assert : ∀ w, s.workers w = .decrementValue → s.waiter.counter ≠ 0
  caller_assert : ∀ i, s.calls i = .decrementValue → s.waiter.counter ≠ 0
  ended : s.stop = .returned → (∀ i, (s.calls i).executing = false) →
    s.waiter.counter = 0 ∧ s.waiter.isNull.asleep = [] ∧
      ∀ i, s.calls i = .waiting → i ∈ s.waiter.isNull.notified

theorem schedulerPool_counts_outstanding {n : Nat} {C T : Type} [Fintype C] [DecidableEq C]
    {s : ThreadPool n C T} (h : ((schedulerPool n C T).guard ThreadPool.orderly).Reachable s) :
    s.CountsOutstanding := by
  obtain ⟨hexact, hstopping⟩ := schedulerPool_inv h
  have hcounter := hexact.counts.counter
  refine ⟨hcounter, fun w hw => ?_, fun i hi => ?_, fun hreturned hcalls => ?_⟩
  · have hpos := le_tally Work.outstanding s.workers (Finset.mem_univ w)
    simp only [hw, Work.outstanding] at hpos
    simp only [hcounter, ThreadPool.outstanding]
    omega
  · have hpos := le_tally Call.outstanding s.calls (Finset.mem_univ i)
    simp only [hi, Call.outstanding] at hpos
    simp only [hcounter, ThreadPool.outstanding]
    omega
  · obtain ⟨hqueue, hexited⟩ := hstopping.ended hreturned
    have hworkers : tally Finset.univ Work.outstanding s.workers = 0 :=
      tally_eq_zero.mpr fun w _ => by rw [hexited w]; rfl
    have hcallers : tally Finset.univ Call.outstanding s.calls = 0 :=
      tally_eq_zero.mpr fun i _ => by
        have := hcalls i
        cases hi : s.calls i <;> simp_all [Call.executing, Call.outstanding]
    have hzero : s.outstanding = 0 := by
      simp [ThreadPool.outstanding, hqueue, hworkers, hcallers]
    have hasleep := hexact.counts.awake hzero
    refine ⟨hcounter.trans hzero, hasleep, fun i hi => ?_⟩
    have hmem := (hexact.tracks.mem i).mpr hi
    rwa [hasleep] at hmem

/-- A worker and a caller in `WaitIdle`, which is notified before `Stop`. -/
theorem schedulerPool_counts_outstanding_idle :
    ∃ s, ((schedulerPool 1 (Fin 2) Nat).guard ThreadPool.orderly).Reachable s ∧
      s.stop = .returned ∧ s.CountsOutstanding := by
  have h : ((schedulerPool 1 (Fin 2) Nat).guard ThreadPool.orderly).Reachable _ :=
    Machine.reachable_of_exec [.execute (.inr 0) 7, .call (.inr 0) none, .waitIdle (.inr 1),
      .call (.inr 1) none, .call (.inr 0) none, .worker 0, .throw 0, .worker 0, .worker 0,
      .callStop, .stop, .worker 0, .stop, .stop] rfl
  exact ⟨_, h, rfl, schedulerPool_counts_outstanding h⟩

/-- `Cancel` discards a queued task without a `DecrementValue`: the counter stays
at one, and whoever is inside `WaitIdle` sleeps on. -/
theorem schedulerPool_counts_discarded :
    ∃ s, (schedulerPool 1 (Fin 2) Nat).Reachable s ∧ s.stop = .returned ∧
      (∀ i, (s.calls i).executing = false) ∧ s.outstanding = 0 ∧ s.waiter.counter = 1 ∧
      s.waiter.isNull.asleep = [.inr 1] ∧ ¬ s.CountsOutstanding := by
  have h : (schedulerPool 1 (Fin 2) Nat).Reachable _ :=
    Machine.reachable_of_exec [.execute (.inr 0) 7, .call (.inr 0) none, .waitIdle (.inr 1),
      .call (.inr 1) none, .call (.inr 0) none, .callStop, .stop, .worker 0, .stop, .stop] rfl
  refine ⟨_, h, rfl, by decide, by decide, rfl, rfl, fun hcounts => ?_⟩
  have hzero := (hcounts.ended rfl (by decide)).1
  revert hzero
  decide

end ConcurrentProgramming.Compute
