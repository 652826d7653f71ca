import ConcurrentProgramming.Compute.AtRest

/-!
How long the pools with one shared queue can go on without a new call.
-/

set_option autoImplicit false

namespace ConcurrentProgramming.Compute
open Interleaving Sync

/-- The steps that a worker has before it, among `callers` that a `DecrementValue` may
wake. -/
def Work.ahead {T : Type} (callers : Nat) : Work T → Nat
  | .waiting | .exited => 0
  | .take => 2
  | .decrementValue => callers + 3
  | .discard _ => callers + 4
  | .run _ => callers + 5

def Call.ahead {T : Type} (callers : Nat) : Call T → Nat
  | .idle | .waiting => 0
  | .wait => 1
  | .decrementValue => callers + 1
  | .discard _ => callers + 2
  | .put _ => callers + 8
  | .incrementValue _ => callers + 9

def StopCall.ahead (n : Nat) : StopCall → Nat
  | .notCalled | .returned => 0
  | .join i => n - i + 1
  | .cancel => n + n + 2

namespace ThreadPool

/-- A queued task is worth the `Take` and all that a worker does with it. -/
def ahead {n : Nat} {C T : Type} [Fintype C] (s : ThreadPool n C T) : Nat :=
  s.tasks.queue.length * (Fintype.card (Fin n ⊕ C) + 6) + s.tasks.queueAccess.notified.length +
    s.waiter.isNull.notified.length +
    tally Finset.univ (Work.ahead (Fintype.card (Fin n ⊕ C))) s.workers +
    tally Finset.univ (Call.ahead (Fintype.card (Fin n ⊕ C))) s.calls + s.stop.ahead n

theorem ahead_goto {n : Nat} {C T : Type} [Fintype C] (s : ThreadPool n C T) (w : Fin n)
    (pc : Work T) :
    tally Finset.univ (Work.ahead (Fintype.card (Fin n ⊕ C))) (s.goto w pc).workers +
        (s.workers w).ahead (Fintype.card (Fin n ⊕ C)) =
      tally Finset.univ (Work.ahead (Fintype.card (Fin n ⊕ C))) s.workers +
        pc.ahead (Fintype.card (Fin n ⊕ C)) :=
  tally_update _ s.workers (Finset.mem_univ w) pc

theorem ahead_enter {n : Nat} {C T : Type} [Fintype C] [DecidableEq C] (s : ThreadPool n C T)
    (i : Fin n ⊕ C) (pc : Call T) :
    tally Finset.univ (Call.ahead (Fintype.card (Fin n ⊕ C))) (s.enter i pc).calls +
        (s.calls i).ahead (Fintype.card (Fin n ⊕ C)) =
      tally Finset.univ (Call.ahead (Fintype.card (Fin n ⊕ C))) s.calls +
        pc.ahead (Fintype.card (Fin n ⊕ C)) :=
  tally_update _ s.calls (Finset.mem_univ i) pc

/-- A look at the queue leaves a worker nothing to do or gives it a task, whose steps
were counted for the queue. -/
theorem ahead_looks {n : Nat} {C T : Type} [Fintype C] {s : ThreadPool n C T} {w : Fin n}
    {tasks : UnboundedBlockingQueue (Fin n) T} {taken : Taken T} (hlooks : s.tasks.Looks tasks taken)
    (hspent : tasks.queueAccess.notified.length < s.tasks.queueAccess.notified.length +
      (s.workers w).ahead (Fintype.card (Fin n ⊕ C))) :
    ({ s.goto w (Taken.work taken) with tasks := tasks } : ThreadPool n C T).ahead < s.ahead := by
  obtain ⟨-, hcase⟩ := hlooks
  have hgoto := s.ahead_goto w (Taken.work taken)
  cases taken with
  | wait | nullopt =>
    have hnone : (Taken.work (T := T) .wait).ahead (Fintype.card (Fin n ⊕ C)) = 0 := rfl
    have hleft : (Taken.work (T := T) .nullopt).ahead (Fintype.card (Fin n ⊕ C)) = 0 := rfl
    obtain ⟨-, hqueue, hempty⟩ := hcase
    simp only [ahead, hqueue, hempty]
    simp only [goto] at hgoto ⊢
    omega
  | value task =>
    have hrun : (Taken.work (.value task)).ahead (Fintype.card (Fin n ⊕ C)) =
      Fintype.card (Fin n ⊕ C) + 5 := rfl
    simp only [ahead, hcase, List.length_cons, Nat.succ_mul]
    simp only [goto] at hgoto ⊢
    omega

theorem ahead_workerStep {n : Nat} {C T : Type} [Fintype C] {s t : ThreadPool n C T}
    (htracks : s.waiter.Tracks fun i => s.calls i = .waiting) {w : Fin n}
    (h : s.workerStep w = some t) : t.ahead < s.ahead := by
  unfold ThreadPool.workerStep at h
  cases hw : s.workers w with
  | take =>
    simp only [hw, Option.some.injEq] at h
    subst h
    refine ahead_looks (UnboundedBlockingQueue.take_looks rfl) ?_
    rw [UnboundedBlockingQueue.take_notified, hw]
    simp [Work.ahead]
  | waiting =>
    simp only [hw] at h
    obtain ⟨⟨tasks, taken⟩, hretake, rfl⟩ := Option.map_eq_some_iff.mp h
    refine ahead_looks (UnboundedBlockingQueue.retake_looks hretake) ?_
    have hspent := UnboundedBlockingQueue.retake_notified hretake
    omega
  | discard task =>
    simp only [hw, Option.some.injEq] at h
    subst h
    have hgoto := s.ahead_goto w .decrementValue
    simp only [hw, Work.ahead] at hgoto
    simp only [ahead]
    simp only [goto] at hgoto ⊢
    omega
  | decrementValue =>
    simp only [hw] at h
    obtain ⟨waiter, hwaiter, rfl⟩ := Option.map_eq_some_iff.mp h
    have hgoto := s.ahead_goto w .take
    have hwoken := ZeroWaiter.decrementValue_notified_length hwaiter htracks
    simp only [hw, Work.ahead] at hgoto
    simp only [ahead]
    simp only [goto] at hgoto ⊢
    omega
  | run task | exited => simp [hw] at h

theorem ahead_callStep {n : Nat} {C T : Type} [Fintype C] [DecidableEq C] {v : Discards}
    {s t : ThreadPool n C T} (htracks : s.waiter.Tracks fun i => s.calls i = .waiting)
    {i : Fin n ⊕ C} {woken : Option (Fin n)} (h : s.callStep v i woken = some t) :
    t.ahead < s.ahead := by
  unfold ThreadPool.callStep at h
  cases hi : s.calls i with
  | idle => simp [hi] at h
  | incrementValue task =>
    simp only [hi, Option.some.injEq] at h
    subst h
    have henter := s.ahead_enter i (.put task)
    simp only [hi, Call.ahead] at henter
    simp only [ahead, ZeroWaiter.incrementValue]
    simp only [enter] at henter ⊢
    omega
  | put task =>
    simp only [hi] at h
    obtain ⟨⟨tasks, accepted⟩, hput, rfl⟩ := Option.map_eq_some_iff.mp h
    obtain ⟨-, -, hqueue⟩ := UnboundedBlockingQueue.put_eq hput
    have hwoken := UnboundedBlockingQueue.put_notified hput
    cases accepted with
    | true =>
      have henter := s.ahead_enter i .idle
      simp only [hi, Call.ahead] at henter
      simp only [ahead, hqueue, if_true, List.length_append, List.length_singleton, Nat.add_mul,
        Nat.one_mul]
      simp only [enter] at henter ⊢
      omega
    | false =>
      have henter := s.ahead_enter i (if v.rejected then .discard task else .decrementValue)
      have hless : (if v.rejected then Call.discard task else .decrementValue).ahead
          (Fintype.card (Fin n ⊕ C)) ≤ Fintype.card (Fin n ⊕ C) + 2 := by
        cases v.rejected <;> simp [Call.ahead]
      have hput : (s.calls i).ahead (Fintype.card (Fin n ⊕ C)) = Fintype.card (Fin n ⊕ C) + 8 := by
        rw [hi]
        rfl
      simp only [ahead, hqueue, Bool.false_eq_true, if_false, List.append_nil]
      simp only [enter] at henter ⊢
      omega
  | discard task =>
    simp only [hi, Option.some.injEq] at h
    subst h
    have henter := s.ahead_enter i .decrementValue
    simp only [hi, Call.ahead] at henter
    simp only [ahead]
    simp only [enter] at henter ⊢
    omega
  | decrementValue =>
    simp only [hi] at h
    obtain ⟨waiter, hwaiter, rfl⟩ := Option.map_eq_some_iff.mp h
    have henter := s.ahead_enter i .idle
    have hwoken := ZeroWaiter.decrementValue_notified_length hwaiter htracks
    simp only [hi, Call.ahead] at henter
    simp only [ahead]
    simp only [enter] at henter ⊢
    omega
  | wait =>
    simp only [hi, Option.some.injEq] at h
    subst h
    have henter := s.ahead_enter i (if (s.waiter.wait i).2 then .idle else .waiting)
    have hless : (if (s.waiter.wait i).2 then Call.idle else (.waiting : Call T)).ahead
        (Fintype.card (Fin n ⊕ C)) = 0 := by
      split <;> rfl
    have hnotified := congrArg List.length (s.waiter.wait_notified i)
    rw [hi, hless] at henter
    simp only [Call.ahead] at henter
    simp only [ahead, waited]
    simp only [enter] at henter ⊢
    omega
  | waiting =>
    simp only [hi] at h
    obtain ⟨x, hx, rfl⟩ := Option.map_eq_some_iff.mp h
    have henter := s.ahead_enter i (if x.2 then .idle else .waiting)
    have hless : (if x.2 then Call.idle else (.waiting : Call T)).ahead
        (Fintype.card (Fin n ⊕ C)) = 0 := by
      split <;> rfl
    have hnotified := ZeroWaiter.rewait_notified_length hx
    rw [hi, hless] at henter
    simp only [Call.ahead] at henter
    simp only [ahead, waited]
    simp only [enter] at henter ⊢
    omega

theorem ahead_stopStep {n : Nat} {C T : Type} [Fintype C] {s t : ThreadPool n C T}
    (hs : s.Queued) (h : s.stopStep = some t) : t.ahead < s.ahead := by
  rcases stopStep_cases h with ⟨hstop, rfl⟩ | ⟨i, hi, hstop, -, rfl⟩ | ⟨i, -, hstop, rfl⟩
  · obtain ⟨history, hinv⟩ := hs
    have hwoken := hinv.tracks.notifyAll_notified_length
    simp only [Fintype.card_fin] at hwoken
    simp only [ahead, hstop, StopCall.ahead, UnboundedBlockingQueue.cancel_queue, List.length_nil]
    simp only [UnboundedBlockingQueue.cancel, UnboundedBlockingQueue.closeImpl]
    simp only [ThreadPool.queueRun] at hwoken
    omega
  · simp only [ahead, hstop, StopCall.ahead]
    omega
  · simp only [ahead, hstop, StopCall.ahead]
    omega

/-- Whatever the pool does by itself brings it nearer to rest. -/
theorem ahead_step {n : Nat} {C T : Type} [Fintype C] [DecidableEq C] {v : Discards}
    {s t : ThreadPool n C T} (hs : s.Queued)
    (htracks : s.waiter.Tracks fun i => s.calls i = .waiting) {l : ThreadPoolLabel n C T}
    (hl : l.outside = false) (h : s.step v l = some t) : t.ahead < s.ahead := by
  cases l with
  | worker w => exact ahead_workerStep htracks h
  | return_ w =>
    obtain ⟨task, hw, -, rfl⟩ := finish_eq h
    have hgoto := s.ahead_goto w .decrementValue
    simp only [hw, Work.ahead] at hgoto
    simp only [ahead]
    simp only [goto] at hgoto ⊢
    omega
  | throw w =>
    obtain ⟨task, hw, -, rfl⟩ := finish_eq h
    have hgoto := s.ahead_goto w (if v.thrown then .discard task else .decrementValue)
    have hless : (if v.thrown then Work.discard task else .decrementValue).ahead
        (Fintype.card (Fin n ⊕ C)) ≤ Fintype.card (Fin n ⊕ C) + 4 := by
      cases v.thrown <;> simp [Work.ahead]
    have hrun : (s.workers w).ahead (Fintype.card (Fin n ⊕ C)) = Fintype.card (Fin n ⊕ C) + 5 := by
      rw [hw]
      rfl
    simp only [ahead]
    simp only [goto] at hgoto ⊢
    omega
  | call i woken => exact ahead_callStep htracks h
  | stop => exact ahead_stopStep hs h
  | execute i task | waitIdle i | callStop | wakeWorker w | wakeCaller i => cases hl

end ThreadPool

/-- Without a new call, and with nobody woken for no reason, a run is no longer than
`ahead`, whoever goes first: `Stop` and `WaitIdle` cannot spin. -/
theorem threadPool_halts {v : Discards} {n : Nat} {C T : Type} [Fintype C] [DecidableEq C]
    {s t : ThreadPool n C T} (h : (threadPool v n C T).Reachable s)
    {ls : List (ThreadPoolLabel n C T)} (hls : ∀ l ∈ ls, l.outside = false)
    (hrun : (threadPool v n C T).exec s ls = some t) : ls.length + t.ahead ≤ s.ahead := by
  refine h.exec_length_le_of (fun s l t hs hl hstep => ?_) hls hrun
  have hkept : s.Queued ∧ s.waiter.Tracks fun i => s.calls i = .waiting :=
    hs.invariant (I := fun s => s.Queued ∧ s.waiter.Tracks fun i => s.calls i = .waiting)
      ⟨ThreadPool.queued_init v, ConditionVariable.tracks_new nofun⟩
      fun _ _ _ _ ⟨hqueued, htracks⟩ ht => ⟨hqueued.step ht, ThreadPool.tracks_step htracks ht⟩
  exact ThreadPool.ahead_step hkept.1 hkept.2 hl hstep

/-- One task is queued when `Stop` is called; the worker finds the queue cleared. -/
theorem threadPool_halts_stopped : ∃ s t : ThreadPool 1 (Fin 1) Nat,
    (schedulerPool 1 (Fin 1) Nat).Reachable s ∧ s.stop = .cancel ∧
      t.stop = .returned ∧ 4 + t.ahead ≤ s.ahead := by
  have h : (schedulerPool 1 (Fin 1) Nat).Reachable _ :=
    Machine.reachable_of_exec
      [.execute (.inr 0) 7, .call (.inr 0) none, .call (.inr 0) none, .callStop] rfl
  have hls : ∀ l ∈ ([.stop, .worker 0, .stop, .stop] : List (ThreadPoolLabel 1 (Fin 1) Nat)),
      l.outside = false := by decide
  exact ⟨_, _, h, rfl, rfl, threadPool_halts h hls rfl⟩

end ConcurrentProgramming.Compute
