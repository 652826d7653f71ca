import ConcurrentProgramming.Compute.ThreadPool
import ConcurrentProgramming.Interleaving.Servers
import ConcurrentProgramming.Interleaving.Simulation

/-!
The pools with one shared queue are `n` servers: whatever is called in between, tasks
are started in the order in which they were put, and at most one for every worker.
-/

set_option autoImplicit false

namespace ConcurrentProgramming.Compute
open Interleaving Sync

def Work.running {T : Type} : Work T → Nat
  | .run _ => 1
  | _ => 0

namespace ThreadPool

/-- A `Put` that is accepted, a `Take` that returns a task, and the end of a `Run`. -/
def serves {n : Nat} {C T : Type} (s : ThreadPool n C T) :
    ThreadPoolLabel n C T → List (ServersLabel T)
  | .worker w =>
    match s.workers w, s.tasks.queue with
    | .take, task :: _ | .waiting, task :: _ => [.start task]
    | _, _ => []
  | .call i _ =>
    match s.calls i with
    | .put task => if s.tasks.closed then [] else [.accept task]
    | _ => []
  | .return_ _ | .throw _ => [.finish]
  | _ => []

def running {n : Nat} {C T : Type} (s : ThreadPool n C T) : Nat :=
  tally Finset.univ Work.running s.workers

theorem running_le {n : Nat} {C T : Type} (s : ThreadPool n C T) : s.running ≤ n := by
  have hle (x : Work T) : x.running ≤ 1 := by
    unfold Work.running
    split <;> omega
  calc s.running = ∑ w : Fin n, (s.workers w).running := rfl
    _ ≤ ∑ _w : Fin n, 1 := Finset.sum_le_sum fun w _ => hle (s.workers w)
    _ = n := by simp

theorem running_goto {n : Nat} {C T : Type} (s : ThreadPool n C T) (w : Fin n) (pc : Work T) :
    (s.goto w pc).running + (s.workers w).running = s.running + pc.running :=
  tally_update Work.running s.workers (Finset.mem_univ w) pc

/-- The queue is what waits to be served, without what a `Cancel` has cleared. -/
structure Serves {n : Nat} {C T : Type} (s : ThreadPool n C T) (a : Servers T) : Prop where
  busy : a.busy = s.running
  waiting : ∃ cleared, a.waiting = s.tasks.queue ++ cleared ∧
    (s.tasks.closed = false → cleared = [])

/-- A step that is not seen. -/
theorem Serves.frame {n : Nat} {C T : Type} {s t : ThreadPool n C T} {a : Servers T}
    (hs : s.Serves a) (hrunning : t.running = s.running) (hclosed : t.tasks.closed = s.tasks.closed)
    (hqueue : t.tasks.queue = s.tasks.queue) : t.Serves a := by
  obtain ⟨cleared, hwaiting, hopen⟩ := hs.waiting
  exact ⟨hs.busy.trans hrunning.symm, cleared, by rw [hwaiting, hqueue], by rwa [hclosed]⟩

/-- A worker that looks at the queue serves the task that it finds. -/
theorem Serves.look {n : Nat} {C T : Type} [DecidableEq T] {s : ThreadPool n C T} {a : Servers T}
    (hs : s.Serves a) {w : Fin n} (hw : (s.workers w).running = 0)
    {tasks : UnboundedBlockingQueue (Fin n) T} {taken : Taken T} (hlooks : s.tasks.Looks tasks taken) :
    ∃ b, (servers n T).exec a (match s.tasks.queue with
        | [] => []
        | task :: _ => [.start task]) = some b ∧
      ({ s.goto w (Taken.work taken) with tasks := tasks } : ThreadPool n C T).Serves b := by
  obtain ⟨hclosed, hcase⟩ := hlooks
  obtain ⟨cleared, hwaiting, hopen⟩ := hs.waiting
  have hrunning := s.running_goto w (Taken.work taken)
  cases taken with
  | wait | nullopt =>
    rw [hcase.2.1]
    refine ⟨a, rfl, hs.frame ?_ hclosed (hcase.2.2.trans hcase.2.1.symm)⟩
    have hidle : (Taken.work (T := T) .wait).running = 0 := rfl
    have hexited : (Taken.work (T := T) .nullopt).running = 0 := rfl
    show (s.goto w _).running = s.running
    omega
  | value task =>
    have hone : (Taken.work (.value task)).running = 1 := rfl
    have hle := (s.goto w (Taken.work (.value task))).running_le
    have hbusy := hs.busy
    rw [hcase] at hwaiting ⊢
    refine ⟨⟨a.waiting.tail, a.busy + 1⟩, ?_, ?_, cleared, ?_, ?_⟩
    · have hroom : a.busy < n := by omega
      simp [servers, Servers.step, hwaiting, hroom]
    · show a.busy + 1 = (s.goto w _).running
      omega
    · simp [hwaiting]
    · intro hstill
      exact hopen (hclosed.symm.trans hstill)

theorem Serves.workerStep {n : Nat} {C T : Type} [DecidableEq T] {s t : ThreadPool n C T}
    {a : Servers T} (hs : s.Serves a) {w : Fin n} (h : s.workerStep w = some t) :
    ∃ b, (servers n T).exec a (s.serves (.worker w)) = some b ∧ t.Serves b := by
  rcases workerStep_cases h with ⟨tasks, taken, hw, hlooks, rfl⟩ | ⟨task, hw, rfl⟩ |
    ⟨waiter, hw, -, rfl⟩
  · have hidle : (s.workers w).running = 0 := by rcases hw with hw | hw <;> rw [hw] <;> rfl
    have hserves : s.serves (.worker w) = match s.tasks.queue with
        | [] => []
        | task :: _ => [.start task] := by
      rcases hw with hw | hw <;> cases hqueue : s.tasks.queue <;> simp [serves, hw, hqueue]
    rw [hserves]
    exact hs.look hidle hlooks
  · refine ⟨a, by simp [serves, hw], hs.frame ?_ rfl rfl⟩
    have hrunning := s.running_goto w .decrementValue
    have hnot : (s.workers w).running = 0 := by rw [hw]; rfl
    have hgoes : (Work.decrementValue (T := T)).running = 0 := rfl
    omega
  · refine ⟨a, by simp [serves, hw], hs.frame ?_ rfl rfl⟩
    have hrunning := s.running_goto w .take
    have hnot : (s.workers w).running = 0 := by rw [hw]; rfl
    have hgoes : (Work.take (T := T)).running = 0 := rfl
    show (s.goto w .take).running = s.running
    omega

theorem Serves.put {n : Nat} {C T : Type} [DecidableEq T] {s t : ThreadPool n C T} {a : Servers T}
    (hs : s.Serves a) (hworkers : t.workers = s.workers) {task : T} {woken : Option (Fin n)}
    {accepted : Bool} (hput : s.tasks.put task woken = some (t.tasks, accepted)) :
    ∃ b, (servers n T).exec a (if s.tasks.closed then [] else [.accept task]) = some b ∧
      t.Serves b := by
  obtain ⟨rfl, hclosed, hqueue⟩ := UnboundedBlockingQueue.put_eq hput
  obtain ⟨cleared, hwaiting, hopen⟩ := hs.waiting
  have hrunning : t.running = s.running := by rw [running, running, hworkers]
  cases hc : s.tasks.closed with
  | true =>
    refine ⟨a, rfl, hs.frame hrunning hclosed ?_⟩
    simpa [hc] using hqueue
  | false =>
    obtain rfl := hopen hc
    refine ⟨{ a with waiting := a.waiting ++ [task] }, rfl, hs.busy.trans hrunning.symm, [], ?_,
      fun _ => rfl⟩
    simp [hqueue, hwaiting, hc]

theorem Serves.finish {n : Nat} {C T : Type} [DecidableEq T] {s : ThreadPool n C T} {a : Servers T}
    (hs : s.Serves a) {w : Fin n} {task : T} (hw : s.workers w = .run task) {pc : Work T}
    (hpc : pc.running = 0) :
    ∃ b, (servers n T).exec a [.finish] = some b ∧ (s.goto w pc).Serves b := by
  have hbusy := hs.busy
  have hrunning := s.running_goto w pc
  have hone : (s.workers w).running = 1 := by rw [hw]; rfl
  have hpos : a.busy ≠ 0 := by omega
  refine ⟨{ a with busy := a.busy - 1 }, by simp [servers, Servers.step, hpos], ?_, hs.waiting⟩
  show a.busy - 1 = (s.goto w pc).running
  omega

theorem Serves.callStep {n : Nat} {C T : Type} [DecidableEq C] [DecidableEq T] {v : Discards}
    {s t : ThreadPool n C T} {a : Servers T} (hs : s.Serves a) {i : Fin n ⊕ C}
    {woken : Option (Fin n)} (h : s.callStep v i woken = some t) :
    ∃ b, (servers n T).exec a (s.serves (.call i woken)) = some b ∧ t.Serves b := by
  obtain ⟨hworkers, -, htasks⟩ := callStep_frame h
  cases hi : s.calls i with
  | put task =>
    simp only [ThreadPool.callStep, hi] at h
    obtain ⟨⟨tasks, accepted⟩, hput, rfl⟩ := Option.map_eq_some_iff.mp h
    rw [serves, hi]
    exact Serves.put (t := { s.enter i (if accepted then .idle
      else if v.rejected then .discard task else .decrementValue) with tasks := tasks }) hs rfl hput
  | idle | incrementValue task | discard task | decrementValue | wait | waiting =>
    have hsame : t.tasks = s.tasks := by
      rcases htasks with hsame | ⟨task, accepted, hput, -⟩
      · exact hsame
      · rw [hi] at hput
        cases hput
    refine ⟨a, by simp [serves, hi], hs.frame ?_ (by rw [hsame]) (by rw [hsame])⟩
    rw [running, running, hworkers]

theorem Serves.step {n : Nat} {C T : Type} [DecidableEq C] [DecidableEq T] {v : Discards}
    {s t : ThreadPool n C T} {a : Servers T} (hs : s.Serves a) {l : ThreadPoolLabel n C T}
    (h : s.step v l = some t) :
    ∃ b, (servers n T).exec a (s.serves l) = some b ∧ t.Serves b := by
  cases l with
  | worker w => exact hs.workerStep h
  | return_ w =>
    obtain ⟨task, hw, -, rfl⟩ := finish_eq h
    exact hs.finish hw rfl
  | throw w =>
    obtain ⟨task, hw, -, rfl⟩ := finish_eq h
    exact hs.finish hw (by cases v.thrown <;> rfl)
  | execute i task | waitIdle i =>
    simp only [ThreadPool.step, Option.ite_none_right_eq_some, Option.some.injEq] at h
    obtain ⟨-, rfl⟩ := h
    exact ⟨a, rfl, hs.frame rfl rfl rfl⟩
  | call i woken => exact hs.callStep h
  | wakeWorker w =>
    obtain ⟨tasks, hwake, rfl⟩ := Option.map_eq_some_iff.mp h
    obtain ⟨hclosed, hqueue⟩ := UnboundedBlockingQueue.wake_frame hwake
    exact ⟨a, rfl, hs.frame rfl hclosed hqueue⟩
  | wakeCaller i =>
    obtain ⟨waiter, -, rfl⟩ := Option.map_eq_some_iff.mp h
    exact ⟨a, rfl, hs.frame rfl rfl rfl⟩
  | callStop =>
    cases hstop : s.stop <;> simp only [ThreadPool.step, hstop, reduceCtorEq, Option.some.injEq] at h
    subst h
    exact ⟨a, rfl, hs.frame rfl rfl rfl⟩
  | stop =>
    rcases stopStep_cases h with ⟨-, rfl⟩ | ⟨i, hi, -, -, rfl⟩ | ⟨i, -, -, rfl⟩
    · obtain ⟨cleared, hwaiting, -⟩ := hs.waiting
      exact ⟨a, rfl, hs.busy, s.tasks.queue ++ cleared, by simpa using hwaiting, by simp⟩
    · exact ⟨a, rfl, hs.frame rfl rfl rfl⟩
    · exact ⟨a, rfl, hs.frame rfl rfl rfl⟩

end ThreadPool

/-- What has been accepted and started so far is a run of `n` servers, so that tasks are
started in the order of their `Put`s and at most `n` have not ended. -/
theorem threadPool_serves {v : Discards} {n : Nat} {C T : Type} [DecidableEq C] [DecidableEq T]
    {s : ThreadPool n C T} {log : List (ServersLabel T)}
    (h : ((threadPool v n C T).observe ThreadPool.serves).Reachable (s, log)) :
    ∃ a, (servers n T).exec (servers n T).init log = some a ∧ s.Serves a ∧
      log.filterMap ServersLabel.accepted =
        log.filterMap ServersLabel.started ++ a.waiting ∧
      (log.filterMap ServersLabel.started).length =
        s.running + log.countP ServersLabel.isFinish ∧ s.running ≤ n := by
  have hinit : (threadPool v n C T).init.Serves (servers n T).init := by
    refine ⟨?_, [], rfl, fun _ => rfl⟩
    simp [servers, threadPool, ThreadPool.running, tally, Work.running]
  obtain ⟨-, a, hexec, ha⟩ := Machine.Reachable.simulates hinit
    (fun _ _ _ _ _ hs hstep => hs.step hstep) h
  obtain ⟨hfifo, hbusy, hle⟩ := servers_fifo hexec
  rw [ha.busy] at hbusy hle
  exact ⟨a, hexec, ha, hfifo, hbusy, hle⟩

/-- Two workers, three tasks, and a `Stop` that clears the last. -/
theorem threadPool_serves_two : ∃ (s : ThreadPool 2 (Fin 1) Nat) (log : List (ServersLabel Nat)),
    ((schedulerPool 2 (Fin 1) Nat).observe ThreadPool.serves).Reachable (s, log) ∧
      log.filterMap ServersLabel.started = [7, 8] ∧
      ∃ a, (servers 2 Nat).exec (servers 2 Nat).init log = some a ∧ s.Serves a := by
  obtain ⟨⟨s, log⟩, h, hs⟩ :=
    ((schedulerPool 2 (Fin 1) Nat).observe ThreadPool.serves).exists_reachable_of_exec
      [.execute (.inr 0) 7, .call (.inr 0) none, .call (.inr 0) none,
        .execute (.inr 0) 8, .call (.inr 0) none, .call (.inr 0) none,
        .execute (.inr 0) 9, .call (.inr 0) none, .call (.inr 0) none,
        .worker 1, .worker 0, .callStop, .stop, .return_ 0]
      (p := fun s => s.2.filterMap ServersLabel.started = [7, 8]) (by decide)
  obtain ⟨a, hexec, ha, -⟩ := threadPool_serves h
  exact ⟨s, log, h, of_decide_eq_true hs, a, hexec, ha⟩

end ConcurrentProgramming.Compute
