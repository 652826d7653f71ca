import ConcurrentProgramming.Interleaving.Machine
import ConcurrentProgramming.Interleaving.Tally
import ConcurrentProgramming.Compute.ZeroWaiter
import ConcurrentProgramming.Sync.UnboundedBlockingQueue

/-!
The pools with one shared queue: workers, callers of `Execute` and `WaitIdle`
(running tasks among them) and one `Stop`. A step is one section under a mutex,
one `Discard`, or what a task does next. The pools differ in when they `Discard`.
-/

set_option autoImplicit false

namespace ConcurrentProgramming.Compute
open Interleaving Sync

/-- On which occasions a pool calls `Discard` for a task that it drops. -/
structure Discards where
  rejected : Bool
  cancelled : Bool
  thrown : Bool
  deriving DecidableEq, Repr

/-- The compute pool of the fiber scheduler. -/
def Discards.scheduler : Discards := ⟨true, true, true⟩

/-- The compute pool under the futures: a rejected task is not discarded. -/
def Discards.futures : Discards := ⟨false, true, true⟩

/-- The first pool, whose tasks are values without a `Discard`. -/
def Discards.first : Discards := ⟨false, false, false⟩

/-- A worker in `ThreadRoutine`. -/
inductive Work (T : Type) where
  | take
  | waiting
  | run (task : T)
  | discard (task : T)
  | decrementValue
  | exited
  deriving DecidableEq, Repr

/-- A thread inside `Execute` or `WaitIdle`. -/
inductive Call (T : Type) where
  | idle
  | incrementValue (task : T)
  | put (task : T)
  | discard (task : T)
  | decrementValue
  | wait
  | waiting
  deriving DecidableEq, Repr

def Call.executing {T : Type} : Call T → Bool
  | .incrementValue _ | .put _ | .discard _ | .decrementValue => true
  | .idle | .wait | .waiting => false

inductive StopCall where
  | notCalled
  | cancel
  | join (i : Nat)
  | returned
  deriving DecidableEq, Repr

/-- The calls are those of the workers, made by their tasks, and of `C`. -/
structure ThreadPool (n : Nat) (C T : Type) where
  tasks : UnboundedBlockingQueue (Fin n) T
  waiter : ZeroWaiter (Fin n ⊕ C)
  workers : Fin n → Work T
  calls : Fin n ⊕ C → Call T
  stop : StopCall

inductive ThreadPoolLabel (n : Nat) (C T : Type) where
  | worker (w : Fin n)
  | return_ (w : Fin n)
  | throw (w : Fin n)
  | execute (i : Fin n ⊕ C) (task : T)
  | waitIdle (i : Fin n ⊕ C)
  | call (i : Fin n ⊕ C) (woken : Option (Fin n))
  | wakeWorker (w : Fin n)
  | wakeCaller (i : Fin n ⊕ C)
  | callStop
  | stop
  deriving DecidableEq, Repr

def Taken.work {T : Type} : Taken T → Work T
  | .wait => .waiting
  | .nullopt => .exited
  | .value task => .run task

namespace ThreadPool

def goto {n : Nat} {C T : Type} (s : ThreadPool n C T) (w : Fin n) (pc : Work T) :
    ThreadPool n C T := { s with workers := Function.update s.workers w pc }

def enter {n : Nat} {C T : Type} [DecidableEq C] (s : ThreadPool n C T) (i : Fin n ⊕ C)
    (pc : Call T) : ThreadPool n C T := { s with calls := Function.update s.calls i pc }

/-- A thread that can start a call: a task of a worker, or a thread outside. -/
def free {n : Nat} {C T : Type} (s : ThreadPool n C T) (i : Fin n ⊕ C) : Bool :=
  match s.calls i, i with
  | .idle, .inl w =>
    match s.workers w with
    | .run _ => true
    | _ => false
  | .idle, .inr _ => true
  | _, _ => false

def took {n : Nat} {C T : Type} (s : ThreadPool n C T) (w : Fin n)
    (x : UnboundedBlockingQueue (Fin n) T × Taken T) : ThreadPool n C T :=
  { s.goto w (Taken.work x.2) with tasks := x.1 }

def waited {n : Nat} {C T : Type} [DecidableEq C] (s : ThreadPool n C T) (i : Fin n ⊕ C)
    (x : ZeroWaiter (Fin n ⊕ C) × Bool) : ThreadPool n C T :=
  { s.enter i (if x.2 then .idle else .waiting) with waiter := x.1 }

def workerStep {n : Nat} {C T : Type} (s : ThreadPool n C T) (w : Fin n) :
    Option (ThreadPool n C T) :=
  match s.workers w with
  | .take => some (s.took w (s.tasks.take w))
  | .waiting => (s.tasks.retake w).map (s.took w)
  | .discard _ => some (s.goto w .decrementValue)
  | .decrementValue =>
    s.waiter.decrementValue.map fun waiter => { s.goto w .take with waiter := waiter }
  | .run _ | .exited => none

def callStep {n : Nat} {C T : Type} [DecidableEq C] (v : Discards) (s : ThreadPool n C T)
    (i : Fin n ⊕ C) (woken : Option (Fin n)) : Option (ThreadPool n C T) :=
  match s.calls i with
  | .idle => none
  | .incrementValue task =>
    some { s.enter i (.put task) with waiter := s.waiter.incrementValue }
  | .put task =>
    (s.tasks.put task woken).map fun (tasks, accepted) =>
      { s.enter i (if accepted then .idle
          else if v.rejected then .discard task else .decrementValue) with tasks := tasks }
  | .discard _ => some (s.enter i .decrementValue)
  | .decrementValue =>
    s.waiter.decrementValue.map fun waiter => { s.enter i .idle with waiter := waiter }
  | .wait => some (s.waited i (s.waiter.wait i))
  | .waiting => (s.waiter.rewait i).map (s.waited i)

def stopStep {n : Nat} {C T : Type} (s : ThreadPool n C T) : Option (ThreadPool n C T) :=
  match s.stop with
  | .notCalled | .returned => none
  | .cancel => some { s with tasks := s.tasks.cancel, stop := .join 0 }
  | .join i =>
    if h : i < n then
      match s.workers ⟨i, h⟩ with
      | .exited => some { s with stop := .join (i + 1) }
      | _ => none
    else some { s with stop := .returned }

/-- The task of a worker ends, when it is not inside a call. -/
def finish {n : Nat} {C T : Type} (s : ThreadPool n C T) (w : Fin n) (pc : T → Work T) :
    Option (ThreadPool n C T) :=
  match s.workers w, s.calls (.inl w) with
  | .run task, .idle => some (s.goto w (pc task))
  | _, _ => none

def step {n : Nat} {C T : Type} [DecidableEq C] (v : Discards) (s : ThreadPool n C T) :
    ThreadPoolLabel n C T → Option (ThreadPool n C T)
  | .worker w => s.workerStep w
  | .return_ w => s.finish w fun _ => .decrementValue
  | .throw w => s.finish w fun task => if v.thrown then .discard task else .decrementValue
  | .execute i task => if s.free i then some (s.enter i (.incrementValue task)) else none
  | .waitIdle i => if s.free i then some (s.enter i .wait) else none
  | .call i woken => s.callStep v i woken
  | .wakeWorker w => (s.tasks.wake w).map fun tasks => { s with tasks := tasks }
  | .wakeCaller i => (s.waiter.wake i).map fun waiter => { s with waiter := waiter }
  | .callStop =>
    match s.stop with
    | .notCalled => some { s with stop := .cancel }
    | _ => none
  | .stop => s.stopStep

end ThreadPool

def threadPool (v : Discards) (n : Nat) (C T : Type) [DecidableEq C] :
    Machine (ThreadPool n C T) (ThreadPoolLabel n C T) where
  init := ⟨.new _ _, .new _, fun _ => .take, fun _ => .idle, .notCalled⟩
  step := ThreadPool.step v

def schedulerPool (n : Nat) (C T : Type) [DecidableEq C] :
    Machine (ThreadPool n C T) (ThreadPoolLabel n C T) := threadPool .scheduler n C T

def futuresPool (n : Nat) (C T : Type) [DecidableEq C] :
    Machine (ThreadPool n C T) (ThreadPoolLabel n C T) := threadPool .futures n C T

namespace ThreadPool

@[simp] theorem goto_tasks {n : Nat} {C T : Type} (s : ThreadPool n C T) (w : Fin n)
    (pc : Work T) : (s.goto w pc).tasks = s.tasks := rfl

@[simp] theorem enter_tasks {n : Nat} {C T : Type} [DecidableEq C] (s : ThreadPool n C T)
    (i : Fin n ⊕ C) (pc : Call T) : (s.enter i pc).tasks = s.tasks := rfl

/-- Once `Cancel` has run the queue stays closed and empty; `Stop` returns when
every worker has. -/
structure Stopping {n : Nat} {C T : Type} (s : ThreadPool n C T) : Prop where
  cancelled : s.stop ≠ .notCalled → s.stop ≠ .cancel → s.tasks.closed = true ∧ s.tasks.queue = []
  joined : ∀ i, s.stop = .join i → ∀ w : Fin n, w.val < i → s.workers w = .exited
  returned : s.stop = .returned → ∀ w, s.workers w = .exited

/-- One worker that has not returned goes on, with the queue. -/
theorem Stopping.goto {n : Nat} {C T : Type} {s : ThreadPool n C T} (hs : s.Stopping) {w : Fin n}
    {pc : Work T} (hw : s.workers w ≠ .exited) {tasks : UnboundedBlockingQueue (Fin n) T}
    {waiter : ZeroWaiter (Fin n ⊕ C)}
    (htasks : s.tasks.closed = true → s.tasks.queue = [] →
      tasks.closed = true ∧ tasks.queue = []) :
    ({ s.goto w pc with tasks := tasks, waiter := waiter } : ThreadPool n C T).Stopping := by
  refine ⟨fun hcalled hcancel => ?_, fun i hi v hv => ?_, fun hreturned => ?_⟩
  · obtain ⟨hclosed, hqueue⟩ := hs.cancelled hcalled hcancel
    exact htasks hclosed hqueue
  · have hexited := hs.joined i hi v hv
    have hne : v ≠ w := fun he => hw (he ▸ hexited)
    simpa [ThreadPool.goto, hne] using hexited
  · exact (hw (hs.returned hreturned w)).elim

/-- Anything but the workers and `Stop`. -/
theorem Stopping.frame {n : Nat} {C T : Type} {s t : ThreadPool n C T} (hs : s.Stopping)
    (hworkers : t.workers = s.workers) (hstop : t.stop = s.stop)
    (htasks : s.tasks.closed = true → s.tasks.queue = [] →
      t.tasks.closed = true ∧ t.tasks.queue = []) : t.Stopping := by
  refine ⟨fun hcalled hcancel => ?_, fun i hi => ?_, fun hreturned => ?_⟩
  · rw [hstop] at hcalled hcancel
    obtain ⟨hclosed, hqueue⟩ := hs.cancelled hcalled hcancel
    exact htasks hclosed hqueue
  · rw [hstop] at hi
    rw [hworkers]
    exact hs.joined i hi
  · rw [hstop] at hreturned
    rw [hworkers]
    exact hs.returned hreturned

theorem free_idle {n : Nat} {C T : Type} {s : ThreadPool n C T} {i : Fin n ⊕ C}
    (h : s.free i = true) : s.calls i = .idle := by
  unfold free at h
  split at h <;> simp_all

theorem workerStep_cases {n : Nat} {C T : Type} {s t : ThreadPool n C T} {w : Fin n}
    (h : s.workerStep w = some t) :
    (∃ tasks taken, (s.workers w = .take ∨ s.workers w = .waiting) ∧ s.tasks.Looks tasks taken ∧
      t = { s.goto w (Taken.work taken) with tasks := tasks }) ∨
    (∃ task, s.workers w = .discard task ∧ t = s.goto w .decrementValue) ∨
    (∃ waiter, s.workers w = .decrementValue ∧ s.waiter.decrementValue = some waiter ∧
      t = { s.goto w .take with waiter := waiter }) := by
  unfold workerStep at h
  cases hw : s.workers w with
  | take =>
    simp only [hw, Option.some.injEq] at h
    exact .inl ⟨_, _, .inl rfl, UnboundedBlockingQueue.take_looks (by rfl), h.symm⟩
  | waiting =>
    simp only [hw] at h
    obtain ⟨⟨tasks, taken⟩, htake, rfl⟩ := Option.map_eq_some_iff.mp h
    exact .inl ⟨tasks, taken, .inr rfl, UnboundedBlockingQueue.retake_looks htake, rfl⟩
  | discard task =>
    simp only [hw, Option.some.injEq] at h
    exact .inr (.inl ⟨task, rfl, h.symm⟩)
  | decrementValue =>
    simp only [hw] at h
    obtain ⟨waiter, hwaiter, rfl⟩ := Option.map_eq_some_iff.mp h
    exact .inr (.inr ⟨waiter, rfl, hwaiter, rfl⟩)
  | run _ | exited => simp [hw] at h

/-- A call moves on; it touches the queue only by a `Put`. -/
theorem callStep_frame {n : Nat} {C T : Type} [DecidableEq C] {v : Discards}
    {s t : ThreadPool n C T} {i : Fin n ⊕ C} {woken : Option (Fin n)}
    (h : s.callStep v i woken = some t) :
    t.workers = s.workers ∧ t.stop = s.stop ∧
      (t.tasks = s.tasks ∨ ∃ task accepted, s.calls i = .put task ∧
        s.tasks.put task woken = some (t.tasks, accepted)) := by
  unfold callStep at h
  cases hi : s.calls i with
  | idle => simp [hi] at h
  | incrementValue _ | discard _ | wait =>
    simp only [hi, Option.some.injEq] at h
    subst h
    exact ⟨rfl, rfl, .inl rfl⟩
  | put task =>
    simp only [hi] at h
    obtain ⟨⟨tasks, accepted⟩, hput, rfl⟩ := Option.map_eq_some_iff.mp h
    exact ⟨rfl, rfl, .inr ⟨task, accepted, rfl, hput⟩⟩
  | decrementValue =>
    simp only [hi] at h
    obtain ⟨waiter, -, rfl⟩ := Option.map_eq_some_iff.mp h
    exact ⟨rfl, rfl, .inl rfl⟩
  | waiting =>
    simp only [hi] at h
    obtain ⟨x, -, rfl⟩ := Option.map_eq_some_iff.mp h
    exact ⟨rfl, rfl, .inl rfl⟩

theorem stopStep_cases {n : Nat} {C T : Type} {s t : ThreadPool n C T} (h : s.stopStep = some t) :
    (s.stop = .cancel ∧ t = { s with tasks := s.tasks.cancel, stop := .join 0 }) ∨
    (∃ i, ∃ hi : i < n, s.stop = .join i ∧ s.workers ⟨i, hi⟩ = .exited ∧
      t = { s with stop := .join (i + 1) }) ∨
    (∃ i, n ≤ i ∧ s.stop = .join i ∧ t = { s with stop := .returned }) := by
  unfold stopStep at h
  cases hstop : s.stop with
  | notCalled | returned => simp [hstop] at h
  | cancel =>
    simp only [hstop, Option.some.injEq] at h
    exact .inl ⟨rfl, h.symm⟩
  | join i =>
    simp only [hstop] at h
    split at h
    · rename_i hi
      cases hw : s.workers ⟨i, hi⟩ <;> simp only [hw, reduceCtorEq, Option.some.injEq] at h
      exact .inr (.inl ⟨i, hi, rfl, hw, h.symm⟩)
    · rename_i hi
      simp only [Option.some.injEq] at h
      exact .inr (.inr ⟨i, Nat.le_of_not_lt hi, rfl, h.symm⟩)

theorem finish_eq {n : Nat} {C T : Type} {s t : ThreadPool n C T} {w : Fin n} {pc : T → Work T}
    (h : s.finish w pc = some t) :
    ∃ task, s.workers w = .run task ∧ s.calls (.inl w) = .idle ∧ t = s.goto w (pc task) := by
  unfold finish at h
  split at h
  · rename_i task hw hcall
    exact ⟨task, hw, hcall, (Option.some.inj h).symm⟩
  · cases h

theorem Stopping.stopStep {n : Nat} {C T : Type} {s t : ThreadPool n C T} (hs : s.Stopping)
    (h : s.stopStep = some t) : t.Stopping := by
  rcases stopStep_cases h with ⟨-, rfl⟩ | ⟨i, hi, hstop, hexited, rfl⟩ | ⟨i, hi, hstop, rfl⟩
  · refine ⟨fun _ _ => ⟨rfl, rfl⟩, fun i hi w hw => ?_, nofun⟩
    obtain rfl := StopCall.join.inj hi
    exact (Nat.not_lt_zero _ hw).elim
  · refine ⟨fun _ _ => hs.cancelled (by simp [hstop]) (by simp [hstop]), fun j hj w hw => ?_, nofun⟩
    obtain rfl := StopCall.join.inj hj
    rcases Nat.lt_succ_iff_lt_or_eq.mp hw with hlt | heq
    · exact hs.joined i hstop w hlt
    · exact (show w = ⟨i, hi⟩ from Fin.ext heq) ▸ hexited
  · exact ⟨fun _ _ => hs.cancelled (by simp [hstop]) (by simp [hstop]), nofun,
      fun _ w => hs.joined i hstop w (Nat.lt_of_lt_of_le w.isLt hi)⟩

theorem Stopping.step {n : Nat} {C T : Type} [DecidableEq C] {v : Discards}
    {s t : ThreadPool n C T} (hs : s.Stopping) {l : ThreadPoolLabel n C T}
    (h : s.step v l = some t) : t.Stopping := by
  cases l with
  | worker w =>
    rcases workerStep_cases h with ⟨tasks, taken, hw, hlooks, rfl⟩ | ⟨task, hw, rfl⟩ |
      ⟨waiter, hw, -, rfl⟩
    · exact hs.goto (by rcases hw with hw | hw <;> simp [hw]) hlooks.ended
    · exact hs.goto (by simp [hw]) And.intro
    · exact hs.goto (by simp [hw]) And.intro
  | return_ w | throw w =>
    obtain ⟨task, hw, -, rfl⟩ := finish_eq h
    exact hs.goto (by simp [hw]) And.intro
  | execute i task | waitIdle i =>
    simp only [ThreadPool.step, Option.ite_none_right_eq_some, Option.some.injEq] at h
    obtain ⟨-, rfl⟩ := h
    exact hs.frame rfl rfl And.intro
  | call i woken =>
    obtain ⟨hworkers, hstop, htasks | ⟨task, accepted, -, hput⟩⟩ := callStep_frame h
    · exact hs.frame hworkers hstop (htasks ▸ And.intro)
    · exact hs.frame hworkers hstop (UnboundedBlockingQueue.put_ended hput)
  | wakeWorker w =>
    obtain ⟨tasks, hwake, rfl⟩ := Option.map_eq_some_iff.mp h
    obtain ⟨hclosed, hqueue⟩ := UnboundedBlockingQueue.wake_frame hwake
    refine hs.frame rfl rfl fun hc hq => ⟨hclosed.trans hc, hqueue.trans hq⟩
  | wakeCaller i =>
    obtain ⟨waiter, -, rfl⟩ := Option.map_eq_some_iff.mp h
    exact hs.frame rfl rfl And.intro
  | callStop =>
    cases hstop : s.stop <;> simp only [ThreadPool.step, hstop, reduceCtorEq, Option.some.injEq] at h
    subst h
    exact ⟨fun _ hcancel => (hcancel rfl).elim, by simp, by simp⟩
  | stop => exact hs.stopStep h

theorem stopping_init {n : Nat} {C T : Type} [DecidableEq C] (v : Discards) :
    (threadPool v n C T).init.Stopping :=
  ⟨fun h => (h rfl).elim, nofun, nofun⟩

/-- After `Stop` every worker has returned and nothing is queued. -/
theorem Stopping.ended {n : Nat} {C T : Type} {s : ThreadPool n C T} (hs : s.Stopping)
    (h : s.stop = .returned) : s.tasks.queue = [] ∧ ∀ w, s.workers w = .exited :=
  ⟨(hs.cancelled (by simp [h]) (by simp [h])).2, hs.returned h⟩

end ThreadPool

end ConcurrentProgramming.Compute
