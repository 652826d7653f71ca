import ConcurrentProgramming.Compute.Outstanding
import ConcurrentProgramming.Sync.QueueRun

/-!
Where the pools with one shared queue come to rest: the states in which only a
new call, or a wake-up for no reason, is possible.
-/

set_option autoImplicit false

namespace ConcurrentProgramming.Compute
open Interleaving Sync

/-- What nobody has to do. -/
def ThreadPoolLabel.outside {n : Nat} {C T : Type} : ThreadPoolLabel n C T → Bool
  | .execute _ _ | .waitIdle _ | .callStop | .wakeWorker _ | .wakeCaller _ => true
  | .worker _ | .return_ _ | .throw _ | .call _ _ | .stop => false

def Work.waits {T : Type} : Work T → Bool
  | .waiting => true
  | _ => false

def StopCall.before : StopCall → Bool
  | .notCalled | .cancel => true
  | .join _ | .returned => false

@[simp] theorem Taken.waits_work {T : Type} (taken : Taken T) :
    (Taken.work taken).waits = Sync.Taken.waits taken := by
  cases taken <;> rfl

namespace ThreadPool

/-- The counter does not wrap around. -/
def fits {n : Nat} {C T : Type} (s : ThreadPool n C T) : ThreadPoolLabel n C T → Bool
  | .call i _ =>
    match s.calls i with
    | .incrementValue _ => s.waiter.counter + 1 < 2 ^ 32
    | _ => true
  | _ => true

/-- The tasks that `Cancel` finds in the queue. -/
def cleared {n : Nat} {C T : Type} (s : ThreadPool n C T) : ThreadPoolLabel n C T → List T
  | .stop =>
    match s.stop with
    | .cancel => s.tasks.queue
    | _ => []
  | _ => []

def AtRest {n : Nat} {C T : Type} [DecidableEq C] (v : Discards) (s : ThreadPool n C T) : Prop :=
  ∀ l t, s.step v l = some t → l.outside = true

/-- The pool as threads of its queue. -/
def queueRun {n : Nat} {C T : Type} (s : ThreadPool n C T) (history : List (QueueEvent T)) :
    QueueRun (Fin n) T := ⟨s.tasks, fun w => (s.workers w).waits, history⟩

/-- Nothing sleeps through a `Put` or a `Cancel`. -/
def Queued {n : Nat} {C T : Type} (s : ThreadPool n C T) : Prop :=
  ∃ history, (s.queueRun history).Inv

theorem Queued.frame {n : Nat} {C T : Type} {s t : ThreadPool n C T} (hs : s.Queued)
    (htasks : t.tasks = s.tasks) (hworkers : ∀ w, (t.workers w).waits = (s.workers w).waits) :
    t.Queued := by
  obtain ⟨history, hinv⟩ := hs
  refine ⟨history, ?_⟩
  have hsame : t.queueRun history = s.queueRun history := by
    simp only [ThreadPool.queueRun, htasks, hworkers]
  rwa [hsame]

/-- A worker goes on, into no `wait` and out of none. -/
theorem Queued.goto {n : Nat} {C T : Type} {s : ThreadPool n C T} (hs : s.Queued) {w : Fin n}
    (hw : (s.workers w).waits = false) {pc : Work T} (hpc : pc.waits = false)
    {waiter : ZeroWaiter (Fin n ⊕ C)} :
    ({ s.goto w pc with waiter := waiter } : ThreadPool n C T).Queued := by
  refine hs.frame rfl fun x => ?_
  by_cases hx : x = w
  · simp [ThreadPool.goto, hx, hpc, hw]
  · simp [ThreadPool.goto, hx]

theorem Queued.step_of {n : Nat} {C T : Type} {s t : ThreadPool n C T} (hs : s.Queued)
    {l : QueueLabel (Fin n) T}
    (h : ∀ history, ∃ more, (s.queueRun history).step l = some (t.queueRun (history ++ more))) :
    t.Queued := by
  obtain ⟨history, hinv⟩ := hs
  obtain ⟨more, hstep⟩ := h history
  exact ⟨_, hinv.step hstep⟩

theorem queueRun_looked {n : Nat} {C T : Type} (s : ThreadPool n C T) (w : Fin n)
    (x : UnboundedBlockingQueue (Fin n) T × Taken T) (history : List (QueueEvent T)) :
    (s.queueRun history).looked w x = (s.took w x).queueRun (history ++ x.2.events) := by
  simp only [ThreadPool.queueRun, QueueRun.looked, took, QueueRun.mk.injEq, true_and, and_true]
  refine funext fun y => ?_
  by_cases hy : y = w
  · simp [ThreadPool.goto, hy]
  · simp [ThreadPool.goto, hy]

theorem Queued.workerStep {n : Nat} {C T : Type} {s t : ThreadPool n C T} (hs : s.Queued)
    {w : Fin n} (h : s.workerStep w = some t) : t.Queued := by
  unfold ThreadPool.workerStep at h
  cases hw : s.workers w with
  | take =>
    simp only [hw, Option.some.injEq] at h
    subst h
    refine hs.step_of (l := .take w) fun history => ⟨(s.tasks.take w).2.events, ?_⟩
    rw [← queueRun_looked]
    simp [QueueRun.step, ThreadPool.queueRun, hw, Work.waits]
  | waiting =>
    simp only [hw] at h
    obtain ⟨x, hx, rfl⟩ := Option.map_eq_some_iff.mp h
    refine hs.step_of (l := .resume w) fun history => ⟨x.2.events, ?_⟩
    rw [← queueRun_looked]
    simp [QueueRun.step, ThreadPool.queueRun, hx]
  | discard task =>
    simp only [hw, Option.some.injEq] at h
    subst h
    exact hs.goto (by rw [hw]; rfl) rfl
  | decrementValue =>
    simp only [hw] at h
    obtain ⟨waiter, -, rfl⟩ := Option.map_eq_some_iff.mp h
    exact hs.goto (by rw [hw]; rfl) rfl
  | run task | exited => simp [hw] at h

theorem Queued.callStep {n : Nat} {C T : Type} [DecidableEq C] {v : Discards}
    {s t : ThreadPool n C T} (hs : s.Queued) {i : Fin n ⊕ C} {woken : Option (Fin n)}
    (h : s.callStep v i woken = some t) : t.Queued := by
  obtain ⟨hworkers, -, htasks | ⟨task, accepted, -, hput⟩⟩ := callStep_frame h
  · exact hs.frame htasks fun w => by rw [hworkers]
  · refine hs.step_of (l := .put task woken) fun history => ⟨[.put task accepted], ?_⟩
    simp [QueueRun.step, ThreadPool.queueRun, hput, hworkers]

theorem Queued.step {n : Nat} {C T : Type} [DecidableEq C] {v : Discards} {s t : ThreadPool n C T}
    (hs : s.Queued) {l : ThreadPoolLabel n C T} (h : s.step v l = some t) : t.Queued := by
  cases l with
  | worker w => exact hs.workerStep h
  | return_ w =>
    obtain ⟨task, hw, -, rfl⟩ := finish_eq h
    exact hs.goto (by rw [hw]; rfl) rfl
  | throw w =>
    obtain ⟨task, hw, -, rfl⟩ := finish_eq h
    exact hs.goto (by rw [hw]; rfl) (by cases v.thrown <;> rfl)
  | execute i task | waitIdle i =>
    simp only [ThreadPool.step, Option.ite_none_right_eq_some, Option.some.injEq] at h
    obtain ⟨-, rfl⟩ := h
    exact hs.frame rfl fun _ => rfl
  | call i woken => exact hs.callStep h
  | wakeWorker w =>
    obtain ⟨tasks, hwake, rfl⟩ := Option.map_eq_some_iff.mp h
    refine hs.step_of (l := .wake w) fun history => ⟨[], ?_⟩
    simp [QueueRun.step, ThreadPool.queueRun, hwake]
  | wakeCaller i =>
    obtain ⟨waiter, -, rfl⟩ := Option.map_eq_some_iff.mp h
    exact hs.frame rfl fun _ => rfl
  | callStop =>
    cases hstop : s.stop <;> simp only [ThreadPool.step, hstop, reduceCtorEq, Option.some.injEq] at h
    subst h
    exact hs.frame rfl fun _ => rfl
  | stop =>
    rcases stopStep_cases h with ⟨-, rfl⟩ | ⟨i, hi, -, -, rfl⟩ | ⟨i, -, -, rfl⟩
    · exact hs.step_of (l := .cancel) fun history => ⟨[.cancel s.tasks.queue], rfl⟩
    · exact hs.frame rfl fun _ => rfl
    · exact hs.frame rfl fun _ => rfl

theorem queued_init {n : Nat} {C T : Type} [DecidableEq C] (v : Discards) :
    (threadPool v n C T).init.Queued :=
  ⟨[], QueueRun.inv_init (Fin n) T⟩

/-- Until `Cancel` the queue is open and no worker has left. -/
structure Opened {n : Nat} {C T : Type} (s : ThreadPool n C T) (dropped : List T) : Prop where
  closed : s.tasks.closed = false
  working : ∀ w, s.workers w ≠ .exited
  dropped : dropped = []

theorem Opened.goto {n : Nat} {C T : Type} {s : ThreadPool n C T} {dropped : List T}
    (hs : s.Opened dropped) {w : Fin n} {pc : Work T} (hpc : pc ≠ .exited)
    {tasks : UnboundedBlockingQueue (Fin n) T} (htasks : tasks.closed = s.tasks.closed)
    {waiter : ZeroWaiter (Fin n ⊕ C)} :
    ({ s.goto w pc with tasks := tasks, waiter := waiter } : ThreadPool n C T).Opened dropped := by
  refine ⟨htasks.trans hs.closed, fun x => ?_, hs.dropped⟩
  by_cases hx : x = w
  · simpa [ThreadPool.goto, hx] using hpc
  · simpa [ThreadPool.goto, hx] using hs.working x

theorem Opened.frame {n : Nat} {C T : Type} {s t : ThreadPool n C T} {dropped : List T}
    (hs : s.Opened dropped) (hclosed : t.tasks.closed = s.tasks.closed)
    (hworkers : t.workers = s.workers) : t.Opened dropped :=
  ⟨hclosed.trans hs.closed, hworkers ▸ hs.working, hs.dropped⟩

theorem Opened.step {n : Nat} {C T : Type} [DecidableEq C] {v : Discards}
    {s t : ThreadPool n C T} {dropped : List T} (hs : s.Opened dropped)
    {l : ThreadPoolLabel n C T} (h : s.step v l = some t) (ht : t.stop.before = true) :
    t.Opened dropped := by
  cases l with
  | worker w =>
    rcases workerStep_cases h with ⟨tasks, taken, -, ⟨hclosed, hcase⟩, rfl⟩ | ⟨task, -, rfl⟩ |
      ⟨waiter, -, -, rfl⟩
    · cases taken with
      | wait | value task => exact hs.goto (by simp [Taken.work]) hclosed
      | nullopt =>
        have hopen := hs.closed
        rw [hcase.1] at hopen
        cases hopen
    · exact hs.goto (by simp) rfl
    · exact hs.goto (by simp) rfl
  | return_ w =>
    obtain ⟨task, -, -, rfl⟩ := finish_eq h
    exact hs.goto (by simp) rfl
  | throw w =>
    obtain ⟨task, -, -, rfl⟩ := finish_eq h
    exact hs.goto (by cases v.thrown <;> simp) rfl
  | execute i task | waitIdle i =>
    simp only [ThreadPool.step, Option.ite_none_right_eq_some, Option.some.injEq] at h
    obtain ⟨-, rfl⟩ := h
    exact hs.frame rfl rfl
  | call i woken =>
    obtain ⟨hworkers, -, htasks | ⟨task, accepted, -, hput⟩⟩ := callStep_frame h
    · exact hs.frame (by rw [htasks]) hworkers
    · exact hs.frame (UnboundedBlockingQueue.put_eq hput).2.1 hworkers
  | wakeWorker w =>
    obtain ⟨tasks, hwake, rfl⟩ := Option.map_eq_some_iff.mp h
    exact hs.frame (UnboundedBlockingQueue.wake_frame hwake).1 rfl
  | wakeCaller i =>
    obtain ⟨waiter, -, rfl⟩ := Option.map_eq_some_iff.mp h
    exact hs.frame rfl rfl
  | callStop =>
    cases hstop : s.stop <;> simp only [ThreadPool.step, hstop, reduceCtorEq, Option.some.injEq] at h
    subst h
    exact hs.frame rfl rfl
  | stop =>
    rcases stopStep_cases h with ⟨-, rfl⟩ | ⟨i, hi, -, -, rfl⟩ | ⟨i, -, -, rfl⟩ <;> cases ht

/-- `Stop` is not called off. -/
theorem before_of_step {n : Nat} {C T : Type} [DecidableEq C] {v : Discards}
    {s t : ThreadPool n C T} {l : ThreadPoolLabel n C T} (h : s.step v l = some t)
    (ht : t.stop.before = true) : s.stop.before = true ∧ s.cleared l = [] := by
  cases l with
  | worker w =>
    rcases workerStep_cases h with ⟨tasks, taken, -, -, rfl⟩ | ⟨task, -, rfl⟩ | ⟨waiter, -, -, rfl⟩
    all_goals exact ⟨ht, rfl⟩
  | return_ w | throw w =>
    obtain ⟨task, -, -, rfl⟩ := finish_eq h
    exact ⟨ht, rfl⟩
  | execute i task | waitIdle i =>
    simp only [ThreadPool.step, Option.ite_none_right_eq_some, Option.some.injEq] at h
    obtain ⟨-, rfl⟩ := h
    exact ⟨ht, rfl⟩
  | call i woken => exact ⟨(callStep_frame h).2.1 ▸ ht, rfl⟩
  | wakeWorker w =>
    obtain ⟨tasks, -, rfl⟩ := Option.map_eq_some_iff.mp h
    exact ⟨ht, rfl⟩
  | wakeCaller i =>
    obtain ⟨waiter, -, rfl⟩ := Option.map_eq_some_iff.mp h
    exact ⟨ht, rfl⟩
  | callStop =>
    cases hstop : s.stop <;> simp only [ThreadPool.step, hstop, reduceCtorEq] at h
    exact ⟨rfl, rfl⟩
  | stop =>
    rcases stopStep_cases h with ⟨-, rfl⟩ | ⟨i, hi, -, -, rfl⟩ | ⟨i, -, -, rfl⟩ <;> cases ht

theorem orderly_eq_fits {n : Nat} {C T : Type} (s : ThreadPool n C T) {l : ThreadPoolLabel n C T}
    (hl : l ≠ .stop) : s.orderly l = s.fits l := by
  cases l with
  | stop => exact (hl rfl).elim
  | worker w | return_ w | throw w | execute i task | waitIdle i | call i woken | wakeWorker w
  | wakeCaller i | callStop => rfl

/-- What `Cancel` drops stays on the counter. -/
theorem ExactBeyond.fitting {n : Nat} {C T : Type} [Fintype C] [DecidableEq C] {v : Discards}
    {lost : Nat} {s t : ThreadPool n C T} (hs : s.ExactBeyond lost) {l : ThreadPoolLabel n C T}
    (hfits : s.fits l = true) (h : s.step v l = some t) :
    t.ExactBeyond (lost + (s.cleared l).length) := by
  cases l with
  | stop =>
    rcases stopStep_cases h with ⟨hstop, rfl⟩ | ⟨i, hi, hstop, -, rfl⟩ | ⟨i, -, hstop, rfl⟩
    · have hsum : ({ s with tasks := s.tasks.cancel, stop := .join 0 } :
          ThreadPool n C T).outstanding + (lost + s.tasks.queue.length) = s.outstanding + lost := by
        simp only [outstanding, UnboundedBlockingQueue.cancel_queue, List.length_nil]
        omega
      refine ⟨?_, hs.tracks⟩
      simp only [cleared, hstop]
      rw [hsum]
      exact hs.counts
    · simpa [cleared, hstop] using ⟨hs.counts, hs.tracks⟩
    · simpa [cleared, hstop] using ⟨hs.counts, hs.tracks⟩
  | worker w | return_ w | throw w | execute i task | waitIdle i | call i woken | wakeWorker w
  | wakeCaller i | callStop =>
    rw [← orderly_eq_fits s (by simp)] at hfits
    exact hs.step hfits h

structure Settles {n : Nat} {C T : Type} [Fintype C] (s : ThreadPool n C T) (dropped : List T) :
    Prop where
  counted : s.ExactBeyond dropped.length
  queued : s.Queued
  stopping : s.Stopping
  opened : s.stop.before = true → s.Opened dropped

theorem Settles.step {n : Nat} {C T : Type} [Fintype C] [DecidableEq C] {v : Discards}
    {s t : ThreadPool n C T} {dropped : List T} (hs : s.Settles dropped)
    {l : ThreadPoolLabel n C T} (hfits : s.fits l = true) (h : s.step v l = some t) :
    t.Settles (dropped ++ s.cleared l) := by
  refine ⟨?_, hs.queued.step h, hs.stopping.step h, fun ht => ?_⟩
  · rw [List.length_append]
    exact hs.counted.fitting hfits h
  · obtain ⟨hbefore, hnone⟩ := before_of_step h ht
    rw [hnone, List.append_nil]
    exact (hs.opened hbefore).step h ht

theorem settles_init {n : Nat} {C T : Type} [Fintype C] [DecidableEq C] (v : Discards) :
    (threadPool v n C T).init.Settles [] :=
  ⟨exact_iff_beyond.mp (exact_init v), queued_init v, stopping_init v,
    fun _ => ⟨rfl, by simp [threadPool], rfl⟩⟩

theorem AtRest.stuck {n : Nat} {C T : Type} [DecidableEq C] {v : Discards} {s : ThreadPool n C T}
    (h : s.AtRest v) {l : ThreadPoolLabel n C T} (hl : l.outside = false) : s.step v l = none := by
  refine Option.eq_none_iff_forall_ne_some.mpr fun t ht => ?_
  have houtside := h l t ht
  rw [hl] at houtside
  cases houtside

theorem atRest_of_ended {n : Nat} {C T : Type} [DecidableEq C] {v : Discards}
    {s : ThreadPool n C T} (hstop : s.stop = .returned) (hworkers : ∀ w, s.workers w = .exited)
    (hcalls : ∀ i, s.calls i = .idle) : s.AtRest v := by
  intro l t h
  cases l with
  | worker w => simp [ThreadPool.step, ThreadPool.workerStep, hworkers] at h
  | return_ w | throw w => simp [ThreadPool.step, finish, hworkers] at h
  | call i woken => simp [ThreadPool.step, ThreadPool.callStep, hcalls] at h
  | stop => simp [ThreadPool.step, ThreadPool.stopStep, hstop] at h
  | execute i task | waitIdle i | callStop | wakeWorker w | wakeCaller i => rfl

theorem Settles.calls_of_atRest {n : Nat} {C T : Type} [Fintype C] [DecidableEq C] {v : Discards}
    {s : ThreadPool n C T} {dropped : List T} (hs : s.Settles dropped) (hrest : s.AtRest v)
    (i : Fin n ⊕ C) : s.calls i = .idle ∨ s.calls i = .waiting := by
  have hstuck (woken : Option (Fin n)) : s.callStep v i woken = none :=
    hrest.stuck (l := .call i woken) rfl
  unfold ThreadPool.callStep at hstuck
  cases hi : s.calls i with
  | idle => exact .inl rfl
  | waiting => exact .inr rfl
  | incrementValue task | discard task | wait => simp [hi] at hstuck
  | put task =>
    obtain ⟨woken, x, hput⟩ := UnboundedBlockingQueue.exists_put s.tasks task
    have hnone := hstuck woken
    simp [hi, hput] at hnone
  | decrementValue =>
    have hpos := le_tally Call.outstanding s.calls (Finset.mem_univ i)
    simp only [hi, Call.outstanding] at hpos
    have hcounter : s.waiter.counter ≠ 0 := by
      rw [hs.counted.counts.counter]
      simp only [outstanding]
      omega
    have hnone := hstuck none
    simp [hi, ZeroWaiter.decrementValue, hcounter] at hnone

theorem Settles.workers_of_atRest {n : Nat} {C T : Type} [Fintype C] [DecidableEq C] {v : Discards}
    {s : ThreadPool n C T} {dropped : List T} (hs : s.Settles dropped) (hrest : s.AtRest v)
    (w : Fin n) : s.workers w = .waiting ∨ s.workers w = .exited ∨
      (∃ task, s.workers w = .run task) ∧ s.calls (.inl w) = .waiting := by
  have hstuck : s.workerStep w = none := hrest.stuck (l := .worker w) rfl
  unfold ThreadPool.workerStep at hstuck
  cases hw : s.workers w with
  | waiting => exact .inl rfl
  | exited => exact .inr (.inl rfl)
  | take | discard task => simp [hw] at hstuck
  | decrementValue =>
    have hpos := le_tally Work.outstanding s.workers (Finset.mem_univ w)
    simp only [hw, Work.outstanding] at hpos
    have hcounter : s.waiter.counter ≠ 0 := by
      rw [hs.counted.counts.counter]
      simp only [outstanding]
      omega
    simp [hw, ZeroWaiter.decrementValue, hcounter] at hstuck
  | run task =>
    refine .inr (.inr ⟨⟨task, rfl⟩, (hs.calls_of_atRest hrest (.inl w)).resolve_left fun hidle => ?_⟩)
    -- nothing keeps the task from its end
    have hreturn : s.step v (.return_ w) = none := hrest.stuck rfl
    simp [ThreadPool.step, finish, hw, hidle] at hreturn

theorem AtRest.tasks_notified {n : Nat} {C T : Type} [DecidableEq C] {v : Discards}
    {s : ThreadPool n C T} (hrest : s.AtRest v) (hs : s.Queued) :
    s.tasks.queueAccess.notified = [] := by
  obtain ⟨history, hinv⟩ := hs
  refine hinv.tracks.notified_nil fun w hw => ?_
  have hstuck : s.workerStep w = none := hrest.stuck (l := .worker w) rfl
  cases hworker : s.workers w with
  | waiting =>
    simp only [ThreadPool.workerStep, hworker] at hstuck
    exact Option.map_eq_none_iff.mp (Option.map_eq_none_iff.mp hstuck)
  | take | run task | discard task | decrementValue | exited =>
    simp [ThreadPool.queueRun, hworker, Work.waits] at hw

theorem AtRest.waiter_notified {n : Nat} {C T : Type} [Fintype C] [DecidableEq C] {v : Discards}
    {s : ThreadPool n C T} {lost : Nat} (hrest : s.AtRest v) (hs : s.ExactBeyond lost) :
    s.waiter.isNull.notified = [] := by
  refine hs.tracks.notified_nil fun i hi => ?_
  have hstuck : s.callStep v i none = none := hrest.stuck (l := .call i none) rfl
  simp only [ThreadPool.callStep, hi] at hstuck
  exact Option.map_eq_none_iff.mp (Option.map_eq_none_iff.mp hstuck)

/-- No task is inside a `WaitIdle`, which would wait for the task itself. -/
def Outward {n : Nat} {C T : Type} (s : ThreadPool n C T) : Prop :=
  ∀ w, s.calls (.inl w) ≠ .waiting

theorem Settles.outstanding_of_atRest {n : Nat} {C T : Type} [Fintype C] [DecidableEq C]
    {v : Discards} {s : ThreadPool n C T} {dropped : List T} (hs : s.Settles dropped)
    (hrest : s.AtRest v) (hout : s.Outward) : s.outstanding = s.tasks.queue.length := by
  have hworkers : tally Finset.univ Work.outstanding s.workers = 0 :=
    tally_eq_zero.mpr fun w _ => by
      rcases hs.workers_of_atRest hrest w with hw | hw | ⟨-, hw⟩
      · rw [hw]
        rfl
      · rw [hw]
        rfl
      · exact (hout w hw).elim
  have hcalls : tally Finset.univ Call.outstanding s.calls = 0 :=
    tally_eq_zero.mpr fun i _ => by
      rcases hs.calls_of_atRest hrest i with hi | hi <;> rw [hi] <;> rfl
  simp [outstanding, hworkers, hcalls]

/-- With nothing queued and nothing dropped nobody is left in `WaitIdle`. -/
theorem Settles.idle_of_atRest {n : Nat} {C T : Type} [Fintype C] [DecidableEq C] {v : Discards}
    {s : ThreadPool n C T} {dropped : List T} (hs : s.Settles dropped) (hrest : s.AtRest v)
    (hzero : s.outstanding + dropped.length = 0) (i : Fin n ⊕ C) : s.calls i = .idle := by
  refine (hs.calls_of_atRest hrest i).resolve_right fun hi => ?_
  have hasleep := hs.counted.counts.awake hzero
  exact hs.counted.tracks.not_waiting hasleep (hrest.waiter_notified hs.counted) i hi

theorem Settles.open_at_rest {n : Nat} {C T : Type} [Fintype C] [DecidableEq C] {v : Discards}
    {s : ThreadPool n C T} {dropped : List T} (hs : s.Settles dropped) (hrest : s.AtRest v)
    (hout : s.Outward) (hstop : s.stop = .notCalled) (hn : 0 < n) :
    s.tasks.queue = [] ∧ (∀ w, s.workers w = .waiting) ∧ s.waiter.counter = 0 ∧
      ∀ i, s.calls i = .idle := by
  have hopen := hs.opened (by rw [hstop]; rfl)
  have hworkers (w : Fin n) : s.workers w = .waiting := by
    rcases hs.workers_of_atRest hrest w with hw | hw | ⟨-, hw⟩
    · exact hw
    · exact (hopen.working w hw).elim
    · exact (hout w hw).elim
  have hnotified := hrest.tasks_notified hs.queued
  obtain ⟨history, hinv⟩ := hs.queued
  have hqueue : s.tasks.queue = [] := by
    rcases hinv.covers.of_notified_nil hnotified with hasleep | hzero
    · refine (hinv.tracks.not_waiting hasleep hnotified ⟨0, hn⟩ ?_).elim
      simp [ThreadPool.queueRun, hworkers, Work.waits]
    · exact List.eq_nil_of_length_eq_zero hzero
  have hzero : s.outstanding + dropped.length = 0 := by
    rw [hs.outstanding_of_atRest hrest hout, hqueue, hopen.dropped]
    rfl
  exact ⟨hqueue, hworkers, hs.counted.counts.counter.trans hzero,
    hs.idle_of_atRest hrest hzero⟩

theorem Settles.stopped_at_rest {n : Nat} {C T : Type} [Fintype C] [DecidableEq C] {v : Discards}
    {s : ThreadPool n C T} {dropped : List T} (hs : s.Settles dropped) (hrest : s.AtRest v)
    (hout : s.Outward) (hstop : s.stop ≠ .notCalled) :
    s.stop = .returned ∧ s.tasks.queue = [] ∧ (∀ w, s.workers w = .exited) ∧
      s.waiter.counter = dropped.length ∧ (dropped = [] → ∀ i, s.calls i = .idle) := by
  have hstuck : s.stopStep = none := hrest.stuck (l := .stop) rfl
  have hcancel : s.stop ≠ .cancel := fun hcancel => by
    simp [ThreadPool.stopStep, hcancel] at hstuck
  obtain ⟨hclosed, hqueue⟩ := hs.stopping.cancelled hstop hcancel
  have hnotified := hrest.tasks_notified hs.queued
  have hworkers (w : Fin n) : s.workers w = .exited := by
    rcases hs.workers_of_atRest hrest w with hw | hw | ⟨-, hw⟩
    · obtain ⟨history, hinv⟩ := hs.queued
      refine (hinv.tracks.not_waiting (hinv.asleep hclosed) hnotified w ?_).elim
      simp [ThreadPool.queueRun, hw, Work.waits]
    · exact hw
    · exact (hout w hw).elim
  have hreturned : s.stop = .returned := by
    cases hjoin : s.stop with
    | notCalled => exact (hstop hjoin).elim
    | cancel => exact (hcancel hjoin).elim
    | join i => by_cases hi : i < n <;> simp [ThreadPool.stopStep, hjoin, hi, hworkers] at hstuck
    | returned => rfl
  have houtstanding : s.outstanding = 0 := by
    rw [hs.outstanding_of_atRest hrest hout, hqueue]
    rfl
  refine ⟨hreturned, hqueue, hworkers, ?_, ?_⟩
  · rw [hs.counted.counts.counter, houtstanding, Nat.zero_add]
  · rintro rfl
    exact hs.idle_of_atRest hrest (by rw [houtstanding]; rfl)

end ThreadPool

theorem observed_settles {v : Discards} {n : Nat} {C T : Type} [Fintype C] [DecidableEq C]
    {s : ThreadPool n C T} {dropped : List T}
    (h : (((threadPool v n C T).guard ThreadPool.fits).observe ThreadPool.cleared).Reachable
      (s, dropped)) : s.Settles dropped := by
  refine h.invariant (I := fun x => x.1.Settles x.2) (ThreadPool.settles_init v) ?_
  rintro ⟨s, dropped⟩ l ⟨t, more⟩ - hs hstep
  obtain ⟨hguard, rfl⟩ := Machine.observe_step hstep
  obtain ⟨hfits, hstep⟩ := Machine.guard_step.mp hguard
  exact hs.step hfits hstep

/-- The machine at rest: every `Execute` has returned. Before `Stop` the tasks have all
been run and every `WaitIdle` has returned; after it the workers are gone, `Stop`
has returned, and a `WaitIdle` is left only where `Cancel` dropped a task. -/
theorem threadPool_comes_to_rest {v : Discards} {n : Nat} {C T : Type} [Fintype C] [DecidableEq C]
    {s : ThreadPool n C T} {dropped : List T}
    (h : (((threadPool v n C T).guard ThreadPool.fits).observe ThreadPool.cleared).Reachable
      (s, dropped)) (hrest : s.AtRest v) :
    (∀ i, s.calls i = .idle ∨ s.calls i = .waiting) ∧
      (s.Outward → s.stop = .notCalled → 0 < n → s.tasks.queue = [] ∧
        (∀ w, s.workers w = .waiting) ∧ s.waiter.counter = 0 ∧ ∀ i, s.calls i = .idle) ∧
      (s.Outward → s.stop ≠ .notCalled → s.stop = .returned ∧ s.tasks.queue = [] ∧
        (∀ w, s.workers w = .exited) ∧ s.waiter.counter = dropped.length ∧
        (dropped = [] → ∀ i, s.calls i = .idle)) := by
  have hs := observed_settles h
  exact ⟨hs.calls_of_atRest hrest, hs.open_at_rest hrest, hs.stopped_at_rest hrest⟩

/-- `Stop` comes while the worker runs the first of two tasks. -/
theorem threadPool_comes_to_rest_stopped :
    ∃ (s : ThreadPool 1 (Fin 1) Nat) (dropped : List Nat),
      (((schedulerPool 1 (Fin 1) Nat).guard ThreadPool.fits).observe
        ThreadPool.cleared).Reachable (s, dropped) ∧ s.AtRest .scheduler ∧
      s.stop = .returned ∧ dropped = [8] ∧ s.waiter.counter = dropped.length := by
  obtain ⟨⟨s, dropped⟩, h, hs⟩ :=
    (((schedulerPool 1 (Fin 1) Nat).guard ThreadPool.fits).observe
        ThreadPool.cleared).exists_reachable_of_exec
      [.execute (.inr 0) 7, .call (.inr 0) none, .call (.inr 0) none,
        .execute (.inr 0) 8, .call (.inr 0) none, .call (.inr 0) none,
        .worker 0, .callStop, .stop, .return_ 0, .worker 0, .worker 0, .stop, .stop]
      (p := fun s => s.2 = [8] ∧ s.1.stop = .returned ∧ (∀ w, s.1.workers w = .exited) ∧
        ∀ i, s.1.calls i = .idle) (by decide)
  obtain ⟨hdropped, hstop, hworkers, hcalls⟩ := of_decide_eq_true hs
  dsimp only at hdropped hstop hworkers hcalls
  have hrest : s.AtRest .scheduler := ThreadPool.atRest_of_ended hstop hworkers hcalls
  have hout : s.Outward := fun w => by simp [hcalls]
  obtain ⟨-, -, hrests⟩ := threadPool_comes_to_rest h hrest
  obtain ⟨hreturned, -, -, hcounter, -⟩ := hrests hout (by simp [hstop])
  exact ⟨s, dropped, h, hrest, hreturned, hdropped, hcounter⟩

end ConcurrentProgramming.Compute
