import ConcurrentProgramming.Fast.PoolInvariant

/-!
No lost wake-up in the fast pool: the parking permission is one flag that any
worker may switch back on, and yet no worker parks for good while the global
queue holds a task.
-/

set_option autoImplicit false

namespace ConcurrentProgramming.Fast
open Interleaving

theorem Work.watching_of_working {n : Nat} {T : Type} {pc : Work n T} (h : pc.working = true) :
    pc.watching = true := by
  cases pc <;> simp_all [working, watching]

namespace Pool

/-- Every worker sleeps, and nobody is about to prohibit parking and notify. -/
structure Parked {n : Nat} {O T : Type} (s : Pool n O T) : Prop where
  workers : ∀ w, (s.workers w).work = .asleep
  outside : ∀ o, s.outside o ≠ .prohibitParking

structure Drained {n : Nat} {O T : Type} (s : Pool n O T) : Prop where
  queue : s.global.queue = []
  localTasks : ∀ w, (s.workers w).localTasks = []
  lifoSlot : ∀ w, (s.workers w).lifoSlot = none

/-- While something is queued, a pusher has yet to prohibit parking, or a worker
will poll the queue before it parks, or parking is prohibited and a worker is
awake to find it so. -/
def Watched {n : Nat} {O T : Type} (s : Pool n O T) : Prop :=
  s.global.queue ≠ [] →
    (∃ o, s.outside o = .prohibitParking) ∨ (∃ w, (s.workers w).work.watching = true) ∨
      s.coordinator.permission ≠ .allowed ∧ ∃ w, (s.workers w).work ≠ .asleep

theorem Effect.watched {n : Nat} {O T : Type} {s t : Pool n O T} {w : Fin n}
    (h : s.Effect t w) (hs : s.Watched) : t.Watched := by
  intro hq
  rcases h.polls with hworking | hnil | hquiet
  · exact .inr (.inl ⟨w, Work.watching_of_working hworking⟩)
  · exact absurd hnil hq
  · rw [hquiet.queue] at hq
    rcases hs hq with ⟨o, ho⟩ | ⟨v, hv⟩ | ⟨hprohibited, -⟩
    · left
      exact ⟨o, by rw [h.outside, ho]⟩
    · right
      left
      have hvw : v ≠ w := by
        rintro rfl
        rw [hquiet.watching] at hv
        cases hv
      exact ⟨v, by rw [hquiet.others v hvw, hv]⟩
    · right
      right
      -- the worker itself is the one that is awake
      refine ⟨by rwa [hquiet.permission], w, fun hasleep => ?_⟩
      exact hprohibited (hquiet.asleep hasleep)

theorem Watched.notify {n : Nat} {O T : Type} (s : Pool n O T) (v : Fin n) :
    (s.goto v .notified).Watched := by
  intro _
  right
  left
  exact ⟨v, by simp [Worker.goto, Work.watching]⟩

theorem Watched.call {n : Nat} {O T : Type} [DecidableEq O] {s : Pool n O T} (hs : s.Watched)
    {o : O} {pc : OutsideCall T} (ho : s.outside o ≠ .prohibitParking) :
    (s.call o pc).Watched := by
  intro hq
  rcases hs hq with ⟨o', ho'⟩ | hrest
  · left
    have hne : o' ≠ o := by
      rintro rfl
      exact ho ho'
    exact ⟨o', by simp [Pool.call, hne, ho']⟩
  · exact .inr hrest

/-- The end of a push: with parking prohibited, either a sleeper is notified or
some worker was awake anyway. -/
theorem watched_of_prohibitParking {n : Nat} {O T : Type} {s t : Pool n O T} (hn : 0 < n)
    {woken : Option (Fin n)} (h : s.prohibitParking woken = some t) :
    (∃ w, (t.workers w).work.watching = true) ∨
      t.coordinator.permission ≠ .allowed ∧ ∃ w, (t.workers w).work ≠ .asleep := by
  unfold Pool.prohibitParking at h
  rcases notifyOne_cases h with ⟨v, -, rfl⟩ | ⟨hawake, rfl⟩
  · left
    exact ⟨v, by simp [Worker.goto, Work.watching]⟩
  · right
    refine ⟨?_, ⟨0, hn⟩, hawake ⟨0, hn⟩⟩
    unfold Coordinator.prohibitParking
    split
    · simp
    · rename_i hpermanent
      simp only [ne_eq, not_not] at hpermanent
      simp [hpermanent]

theorem Watched.outsideStep {n : Nat} {O T : Type} [DecidableEq O] {s t : Pool n O T}
    (hs : s.Watched) (hn : 0 < n) {o : O} {woken : Option (Fin n)}
    (h : s.outsideStep o woken = some t) : t.Watched := by
  unfold Pool.outsideStep at h
  cases ho : s.outside o with
  | idle => simp [ho] at h
  | pushOne task =>
    simp only [ho, Option.some.injEq] at h
    subst h
    exact hs.call (by simp [ho])
  | pushOneLocked task =>
    simp only [ho, Option.some.injEq] at h
    subst h
    intro _
    left
    exact ⟨o, by simp [Pool.call]⟩
  | discard task =>
    simp only [ho, Option.some.injEq] at h
    subst h
    exact hs.call (by simp [ho])
  | prohibitParking =>
    simp only [ho] at h
    obtain ⟨u, hu, rfl⟩ := Option.map_eq_some_iff.mp h
    intro _
    have hwatched := watched_of_prohibitParking hn hu
    exact .inr hwatched

theorem Watched.step {n : Nat} {O T : Type} [DecidableEq O] {s t : Pool n O T} (hs : s.Watched)
    (hn : 0 < n) (hinv : s.Inv) {l : PoolLabel n O T} (hpublishes : s.publishesTasks l = true)
    (h : s.Move l t) : t.Watched := by
  cases h with
  | worker h => exact (hinv.workerStep hpublishes h).2.watched hs
  | task hw hpc hok => exact (Effect.setWorker (.inl hpc)).watched hs
  | spurious hv => exact .notify s _
  | submit ho => exact hs.call (by simp [ho])
  | outside h => exact hs.outsideStep hn h
  | callWaitIdle | waitGlobalTasks _ | waitCoordinator _ _ => exact hs

end Pool

theorem pool_watched {n : Nat} {O T : Type} [DecidableEq O] (hn : 0 < n) {s : Pool n O T}
    (h : ((unstoppedPool n O T).guard Pool.publishesTasks).Reachable s) : s.Watched := by
  apply h.invariant (I := Pool.Watched)
  · intro hq
    exact absurd rfl hq
  · intro s l t hreachable hs hl
    obtain ⟨hinv, hstop⟩ := pool_inv hreachable
    obtain ⟨hpublishes, hmove⟩ := move_of_guarded hstop hl
    exact hs.step hn hinv hpublishes hmove

/-- No wake-up is lost in a run whose offloads publish no null pointer. -/
theorem pool_noLostWakeup {n : Nat} {O T : Type} [DecidableEq O] (hn : 0 < n) {s : Pool n O T}
    (h : ((unstoppedPool n O T).guard Pool.publishesTasks).Reachable s) (hparked : s.Parked) :
    s.Drained := by
  have hinv := (pool_inv h).1
  have hempty (w : Fin n) : (s.workers w).localTasks = [] ∧ (s.workers w).lifoSlot = none := by
    have hwork := (hinv.workers w).work
    rw [hparked.workers w] at hwork
    exact hwork
  constructor
  · by_contra hq
    rcases pool_watched hn h hq with ⟨o, ho⟩ | ⟨w, hw⟩ | ⟨-, w, hw⟩
    · exact hparked.outside o ho
    · rw [hparked.workers w] at hw
      cases hw
    · exact hw (hparked.workers w)
  · intro w
    exact (hempty w).1
  · intro w
    exact (hempty w).2

/-- The push comes between the second `Grab` of the worker and its `TryParkMe`. -/
theorem pool_noLostWakeup_race :
    ∃ s, ((unstoppedPool 1 (Fin 1) Nat).guard Pool.publishesTasks).Reachable s ∧ s.Parked ∧
      s.Drained := by
  let c : Choice 1 Nat := ⟨none, 0, fun _ => none⟩
  obtain ⟨s, h, hs⟩ := Machine.exists_reachable_of_exec
    (M := (unstoppedPool 1 (Fin 1) Nat).guard Pool.publishesTasks)
    (p := fun s => decide ((s.workers 0).work = .asleep ∧ s.outside 0 = .idle))
    (List.flatten [List.replicate 6 (.worker 0 c), .submit 0 7 :: List.replicate 3 (.outside 0 none),
      List.replicate 9 (.worker 0 c), [.execute 0 8 .next, .worker 0 c],
      .return_ 0 :: List.replicate 2 (.worker 0 c), .return_ 0 :: List.replicate 11 (.worker 0 c)])
    (by decide +kernel)
  obtain ⟨hworker, houtside⟩ := of_decide_eq_true hs
  have hparked : s.Parked := by
    constructor
    · intro w
      rw [Subsingleton.elim w 0, hworker]
    · intro o
      rw [Subsingleton.elim o 0, houtside]
      nofun
  exact ⟨s, h, hparked, pool_noLostWakeup (by decide) h hparked⟩

/-! A run of three workers in which an offload publishes a null pointer. -/

/-- Seed 2 makes worker 1 the victim, seeds 0 and 1 the workers 0 and 2. -/
def turn (w : Fin 3) (seed : Nat) : PoolLabel 3 (Fin 1) Nat :=
  .worker w ⟨none, seed, fun _ => none⟩

def turns (k : Nat) (w : Fin 3) : List (PoolLabel 3 (Fin 1) Nat) := List.replicate k (turn w 0)

/-- Task 0 runs on worker 1 and pushes tasks into its own ring. -/
def pushes (first count : Nat) : List (PoolLabel 3 (Fin 1) Nat) :=
  (List.range count).flatMap fun i => .execute 1 (first + i) .upToYou :: turns 2 1

/-- Task 0 hands a task to the global queue. -/
def slow (task : Nat) : List (PoolLabel 3 (Fin 1) Nat) := .execute 1 task .slow :: turns 3 1

/-- Worker 1 has filled its ring, two thieves take 129 tasks of it before the
`Grab` in `OffloadTasksToGlobalQueue`, and the one slot behind what is left is
published. Worker 2 is handed that null pointer together with a task, keeps the
task in its ring and parks. -/
def overflowRun : List (PoolLabel 3 (Fin 1) Nat) :=
  .submit 0 0 :: List.replicate 3 (.outside 0 none) ++
  -- worker 1 takes task 0; workers 2 and 0 come to the point of stealing from it
  turns 4 1 ++ pushes 1 2 ++ turns 7 2 ++ [turn 2 2, turn 2 0] ++ turns 7 0 ++
  -- the ring is full, and one more push comes upon it
  pushes 3 255 ++
  [turn 0 2] ++ turns 3 0 ++ turns 1 2 ++
  -- offload, then three tasks for the global queue
  turns 4 1 ++ (List.range 3).flatMap (fun i => .execute 1 (1000 + i) .slow :: turns 3 1) ++
  -- worker 2 finds the null pointer and goes on to park
  .return_ 2 :: turns 6 2 ++ [turn 2 1, turn 2 1] ++ turns 2 2 ++
  -- worker 1 takes the two tasks that are left, and allows parking
  .return_ 1 :: turns 4 1 ++ .return_ 1 :: turns 4 1 ++ .return_ 1 :: turns 8 1 ++
  -- worker 0 runs what it has stolen
  (List.range 127).flatMap (fun i =>
    .return_ 0 :: turns (if (i + 2) % 10 = 0 then 4 else 3) 0) ++
  .return_ 0 :: turns 12 0 ++ turns 1 1 ++ turns 1 2

/-- Worker 1 grabs the null pointer itself and fills its ring behind it, and the next
batch comes upon a full ring. -/
def nullRun : List (PoolLabel 3 (Fin 1) Nat) :=
  .submit 0 0 :: List.replicate 3 (.outside 0 none) ++
  -- worker 1 takes task 0; workers 2 and 0 come to the point of stealing from it
  turns 4 1 ++ pushes 1 2 ++ turns 7 2 ++ [turn 2 2, turn 2 0] ++ turns 7 0 ++
  -- one task for the global queue, then a push upon a full ring, and two thefts
  slow 1000 ++ pushes 3 255 ++ [turn 0 2] ++ turns 3 0 ++ turns 1 2 ++
  -- the null pointer is offloaded, and more tasks follow it
  turns 4 1 ++ slow 1001 ++ slow 1002 ++
  -- worker 1 grabs task 1000 and the null pointer, and fills its ring behind it
  .return_ 1 :: turns 5 1 ++ pushes 301 255 ++ (List.range 5).flatMap (fun i => slow (1003 + i)) ++
  .return_ 1 :: turns 4 1

theorem overflowRun_strands :
    ∃ s, (unstoppedPool 3 (Fin 1) Nat).Reachable s ∧ (∀ w, (s.workers w).work = .asleep) ∧
      (∀ o, s.outside o = .idle) ∧ (s.workers 2).localTasks = [some 1000] ∧
      s.waitIdle = .notCalled ∧ s.global.waiter.counter = 0 ∧
      s.coordinator.waiter.counter = 0 := by
  obtain ⟨s, h, hs⟩ := Machine.exists_reachable_of_exec (M := unstoppedPool 3 (Fin 1) Nat)
    (p := fun s => decide ((∀ w, (s.workers w).work = .asleep) ∧ (∀ o, s.outside o = .idle) ∧
      (s.workers 2).localTasks = [some 1000] ∧ s.waitIdle = .notCalled ∧
      s.global.waiter.counter = 0 ∧ s.coordinator.waiter.counter = 0))
    overflowRun (by decide +kernel)
  exact ⟨s, h, of_decide_eq_true hs⟩

theorem pool_losesWakeup_overflow :
    ∃ s, (unstoppedPool 3 (Fin 1) Nat).Reachable s ∧ s.Parked ∧ ¬ s.Drained := by
  obtain ⟨s, h, hworkers, houtside, hlocal, -⟩ := overflowRun_strands
  refine ⟨s, h, ⟨hworkers, fun o => ?_⟩, fun hdrained => ?_⟩
  · rw [houtside o]
    nofun
  · have := hdrained.localTasks 2
    rw [hlocal] at this
    cases this

end ConcurrentProgramming.Fast
