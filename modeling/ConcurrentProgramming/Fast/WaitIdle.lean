import ConcurrentProgramming.Fast.LostWakeup

/-!
`ThreadPool::WaitIdle` awaits the counter of the global queue and then that of
the coordinator. Between the two, work in the global queue is in the care of a
worker that is linked, so that it cannot hide on the side already checked.
-/

set_option autoImplicit false

namespace ConcurrentProgramming.Fast
open Interleaving

/-- The worker has no task in its hands. -/
def Work.free {n : Nat} {T : Type} : Work n T → Bool
  | .pushGrabbed _ _ | .pushStolen _ _ | .run _ | .execute _ _ | .discardRun _
  | .discardDrained _ => false
  | _ => true

structure Worker.Idle {n : Nat} {T : Type} (x : Worker n T) : Prop where
  localTasks : x.localTasks = []
  lifoSlot : x.lifoSlot = none
  free : x.work.free = true

def PoolLabel.submits {n : Nat} {O T : Type} : PoolLabel n O T → Bool
  | .submit _ _ => true
  | _ => false

theorem Worker.Idle.goto {n : Nat} {T : Type} {x : Worker n T} (h : x.Idle) {pc : Work n T}
    (hpc : pc.free = true) : (x.goto pc).Idle :=
  ⟨h.localTasks, h.lifoSlot, hpc⟩

theorem Worker.Idle.localStep {n : Nat} {T : Type} {x y : Worker n T} (hx : x.Idle) (hok : x.Ok)
    {impudence : Stealing} (h : x.localStep impudence = some y) : y.Idle := by
  have hfree := hx.free
  have hlocal := hx.localTasks
  have hslot := hx.lifoSlot
  have hwork := hok.work
  cases Worker.localStep_cases h with
  | tenth | next | noLifo => exact ⟨hlocal, hslot, rfl⟩
  | ringEmpty | active | passive | lifoEmpty => exact hx.goto rfl
  | stopped _ hstopped => simp [hok.running] at hstopped
  | lifoTask _ hfull => simp [hslot] at hfull
  | lifoFilled _ hfull => simp [hslot] at hfull
  | popped _ hfull => simp [hlocal] at hfull
  | pushMany hw => rcases hw with ⟨hw, -⟩ | ⟨hw, -⟩ <;> simp [hw, Work.free] at hfree
  | refused hw => rcases hw with hw | hw <;> simp [hw, Work.free] at hfree
  | discardLifo hw | drained hw | drainedNull hw | drainedAll hw =>
    rw [hw] at hwork
    exact hwork.elim
  | lifoSlot hw | displaced hw | localQueue hw | pushed hw | full hw | discard hw
  | discardOffloaded hw | offloadDiscarded hw | discardPushed hw | discardRun hw
  | discardDrained hw => simp [hw, Work.free] at hfree

namespace Pool

/-- No task anywhere in the pool. -/
structure Idle {n : Nat} {O T : Type} (s : Pool n O T) : Prop where
  queue : s.global.queue = []
  workers : ∀ w, (s.workers w).Idle

/-- What is in the global queue will be polled by a worker that is linked. -/
def Carried {n : Nat} {O T : Type} (s : Pool n O T) : Prop :=
  s.global.queue ≠ [] → ∃ w, (s.workers w).work.working = true

theorem Idle.setWorker {n : Nat} {O T : Type} {s : Pool n O T} (hs : s.Idle) {w : Fin n}
    {x : Worker n T} (hx : x.Idle) : (s.setWorker w x).Idle := by
  refine ⟨hs.queue, fun v => ?_⟩
  by_cases hv : v = w
  · subst hv
    rwa [setWorker_self]
  · rw [setWorker_ne s x hv]
    exact hs.workers v

theorem Idle.goto {n : Nat} {O T : Type} {s : Pool n O T} (hs : s.Idle) {w : Fin n}
    {pc : Work n T} (hpc : pc.free = true) : (s.goto w pc).Idle :=
  hs.setWorker ((hs.workers w).goto hpc)

theorem Idle.notifyOne {n : Nat} {O T : Type} {s t : Pool n O T} (hs : s.Idle)
    {woken : Option (Fin n)} (h : s.notifyOne woken = some t) : t.Idle := by
  rcases notifyOne_cases h with ⟨v, -, rfl⟩ | ⟨-, rfl⟩
  · exact hs.goto rfl
  · exact hs

theorem Idle.grab {n : Nat} {O T : Type} {s t : Pool n O T} (hs : s.Idle) {w : Fin n}
    {pc : Work n T} (hpc : pc.free = true) (h : s.grab w pc = some t) : t.Idle := by
  obtain ⟨⟨global, items⟩, hgrab, rfl⟩ := Option.map_eq_some_iff.mp h
  obtain ⟨hq, -⟩ := GlobalQueue.grab_queue hgrab
  rw [hs.queue] at hq
  obtain ⟨rfl, hnil⟩ := List.append_eq_nil_iff.mp hq.symm
  exact ⟨hnil, (hs.goto hpc).workers⟩

theorem Idle.globalStep {n : Nat} {O T : Type} {s t : Pool n O T} (hs : s.Idle) {w : Fin n}
    (h : s.globalStep w = some t) : t.Idle := by
  have hfree := (hs.workers w).free
  cases globalStep_cases h with
  | grab hw h =>
    rcases hw with ⟨-, rfl⟩ | ⟨-, rfl⟩
    · exact hs.grab rfl h
    · exact hs.grab rfl h
  | offloadClosed hw | offload hw | offloadLocked hw | pushOneClosed hw | pushOne hw
  | pushOneLocked hw => simp [hw, Work.free] at hfree

theorem Idle.coordinatorStep {n : Nat} {O T : Type} {s t : Pool n O T} (hs : s.Idle) (hinv : s.Inv)
    {w : Fin n} {c : Choice n T} (h : s.coordinatorStep w c = some t) : t.Idle := by
  have hfree := (hs.workers w).free
  have hwork := (hinv.workers w).work
  cases coordinatorStep_cases h with
  | awakeOne hw hu =>
    rcases hw with ⟨-, rfl⟩ | ⟨task, hw, rfl⟩
    · exact (hs.notifyOne hu).goto rfl
    · simp [hw, Work.free] at hfree
  | allowParking | park | notified => exact ⟨hs.queue, (hs.goto rfl).workers⟩
  | gaveUp | itself | victim | prohibited => exact hs.goto rfl
  | prohibitParking hw => simp [hw, Work.free] at hfree
  | release hw =>
    rw [hw] at hwork
    exact hwork.elim

theorem Idle.stealStep {n : Nat} {O T : Type} {s t : Pool n O T} (hs : s.Idle) {w : Fin n}
    {c : Choice n T} (h : s.stealStep w c = some t) : t.Idle := by
  have hfree := (hs.workers w).free
  cases stealStep_cases h with
  | lowSize => exact hs.goto rfl
  | @steal remaining victim limit =>
    simp only [(hs.workers victim).localTasks, List.take_nil, List.drop_nil]
    apply Idle.goto _ rfl
    apply hs.setWorker
    exact ⟨rfl, (hs.workers victim).lifoSlot, (hs.workers victim).free⟩
  | grab hw => simp [hw, Work.free] at hfree

/-- An idle pool stays idle, whatever its workers do. -/
theorem Idle.workerStep {n : Nat} {O T : Type} {s t : Pool n O T} (hs : s.Idle) (hinv : s.Inv)
    {w : Fin n} {c : Choice n T} (h : s.workerStep w c = some t) : t.Idle := by
  rcases workerStep_cases h with ⟨x, hx, rfl⟩ | hglobal | hcoordinator | hsteal
  · exact hs.setWorker ((hs.workers w).localStep (hinv.workers w) hx)
  · exact hs.globalStep hglobal
  · exact hs.coordinatorStep hinv hcoordinator
  · exact hs.stealStep hsteal

theorem Effect.carried {n : Nat} {O T : Type} {s t : Pool n O T} {w : Fin n}
    (h : s.Effect t w) (hs : s.Carried) : t.Carried := by
  intro hq
  rcases h.polls with hworking | hnil | hquiet
  · exact ⟨w, hworking⟩
  · exact absurd hnil hq
  · rw [hquiet.queue] at hq
    obtain ⟨v, hv⟩ := hs hq
    have hvw : v ≠ w := by
      rintro rfl
      have := Work.watching_of_working hv
      rw [hquiet.watching] at this
      cases this
    exact ⟨v, by rw [hquiet.others v hvw, hv]⟩

theorem Carried.notify {n : Nat} {O T : Type} {s : Pool n O T} (hs : s.Carried) {v : Fin n}
    (hv : (s.workers v).work = .asleep) : (s.goto v .notified).Carried := by
  intro hq
  obtain ⟨w, hw⟩ := hs hq
  have hwv : w ≠ v := by
    rintro rfl
    rw [hv] at hw
    cases hw
  exact ⟨w, by rw [goto_ne s _ hwv, hw]⟩

/-- Nothing linked and nothing uncared for: the pool is idle. -/
theorem Inv.idle_of_counter {n : Nat} {O T : Type} {s : Pool n O T} (hs : s.Inv)
    (hcarried : s.Carried) (hcounter : s.coordinator.waiter.counter = 0) : s.Idle := by
  have hunlinked (w : Fin n) : (s.workers w).work.linked = false := by
    simpa using hs.linked.none_of_counter hcounter w
  constructor
  · by_contra hq
    obtain ⟨w, hw⟩ := hcarried hq
    have := Work.linked_of_working hw
    rw [hunlinked w] at this
    cases this
  · intro w
    have hwork := (hs.workers w).work
    rcases (hs.workers w).linked_of_awake (hunlinked w) with hw | hw
    · rw [hw] at hwork
      exact ⟨hwork.1, hwork.2, by rw [hw]; rfl⟩
    · rw [hw] at hwork
      exact ⟨hwork.1, hwork.2, by rw [hw]; rfl⟩

/-- What the counters that `WaitIdle` awaits have to hold: with fewer than 2 ^ 32
workers neither `uint32_t` wraps around. -/
structure CountersFit {n : Nat} {O T : Type} (s : Pool n O T) : Prop where
  global : s.global.waiter.counter ≤ 1
  coordinator : s.coordinator.waiter.counter ≤ n

theorem Inv.countersFit {n : Nat} {O T : Type} {s : Pool n O T} (hs : s.Inv) : s.CountersFit := by
  refine ⟨?_, hs.linked.counter_le⟩
  rw [hs.tracks]
  split <;> omega

/-- What a call of `WaitIdle` has found out so far. -/
structure Waited {n : Nat} {O T : Type} (s : Pool n O T) : Prop where
  outside : ∀ o, s.outside o = .idle
  carried : s.waitIdle = .coordinator → s.Carried
  idle : s.waitIdle = .returned → s.Idle

theorem Waited.worker {n : Nat} {O T : Type} {s t : Pool n O T} (hs : s.Waited) {w : Fin n}
    (h : s.Effect t w) (hidle : s.Idle → t.Idle) : t.Waited := by
  refine ⟨fun o => ?_, fun hwait => ?_, fun hwait => ?_⟩
  · rw [h.outside]
    exact hs.outside o
  · rw [h.waitIdle] at hwait
    exact h.carried (hs.carried hwait)
  · rw [h.waitIdle] at hwait
    exact hidle (hs.idle hwait)

theorem Waited.step {n : Nat} {O T : Type} [DecidableEq O] {s t : Pool n O T} (hs : s.Waited)
    (hinv : s.Inv) {l : PoolLabel n O T} (hsubmits : l.submits = false)
    (hpublishes : s.publishesTasks l = true) (h : s.Move l t) : t.Waited := by
  cases h with
  | worker h =>
    exact hs.worker (hinv.workerStep hpublishes h).2 fun hidle => hidle.workerStep hinv h
  | @task _ w task pc hw hpc hok =>
    apply hs.worker (.setWorker (.inl hpc))
    intro hidle
    have hfree := (hidle.workers w).free
    rw [hw] at hfree
    cases hfree
  | spurious hv =>
    constructor
    · exact hs.outside
    · intro hwait
      exact (hs.carried hwait).notify hv
    · intro hwait
      exact (hs.idle hwait).goto rfl
  | submit ho => cases hsubmits
  | @outside o woken t h => simp [outsideStep, hs.outside o] at h
  | callWaitIdle => exact ⟨hs.outside, nofun, nofun⟩
  | waitGlobalTasks hcounter =>
    refine ⟨hs.outside, fun _ hq => ?_, nofun⟩
    have htracks := hinv.tracks
    unfold GlobalQueue.Tracks at htracks
    have hq : s.global.queue ≠ [] := hq
    simp [hcounter, hq] at htracks
  | waitCoordinator hwait hcounter =>
    have hidle := hinv.idle_of_counter (hs.carried hwait) hcounter
    exact ⟨hs.outside, nofun, fun _ => ⟨hidle.queue, hidle.workers⟩⟩

end Pool

/-- `WaitIdle` is called in `s`, after all outside calls of `Execute`, and has
returned in `t`; the offloads of the run publish no null pointer. The counters never
leave their range. -/
theorem waitIdle_sound {n : Nat} {O T : Type} [DecidableEq O] {s t : Pool n O T}
    {ls : List (PoolLabel n O T)}
    (hs : ((unstoppedPool n O T).guard Pool.publishesTasks).Reachable s)
    (houtside : ∀ o, s.outside o = .idle) (hcall : s.waitIdle = .notCalled)
    (hsubmits : ∀ l ∈ ls, l.submits = false)
    (h : ((unstoppedPool n O T).guard Pool.publishesTasks).exec s ls = some t)
    (hreturned : t.waitIdle = .returned) :
    t.Idle ∧ ∀ u, ((unstoppedPool n O T).guard Pool.publishesTasks).Reachable u →
      u.CountersFit := by
  have hstep (s : Pool n O T) (l : PoolLabel n O T) (t : Pool n O T) (hl : l.submits = false)
      (hs : s.Waited ∧ s.Inv ∧ s.stop = .notCalled)
      (hstep : ((unstoppedPool n O T).guard Pool.publishesTasks).step s l = some t) :
      t.Waited ∧ t.Inv ∧ t.stop = .notCalled := by
    obtain ⟨hwaited, hinv, hstop⟩ := hs
    obtain ⟨hpublishes, hmove⟩ := move_of_guarded hstop hstep
    exact ⟨hwaited.step hinv hl hpublishes hmove, hinv.step hstop hpublishes hmove⟩
  have hcalled : s.Waited := by
    refine ⟨houtside, fun hwait => ?_, fun hwait => ?_⟩
    · rw [hcall] at hwait
      cases hwait
    · rw [hcall] at hwait
      cases hwait
  have hwaited := Machine.exec_invariant hstep hsubmits ⟨hcalled, pool_inv hs⟩ h
  exact ⟨hwaited.1.idle hreturned, fun u hu => (pool_inv hu).1.countersFit⟩

/-- A task is pushed back to the global queue between the two waits. -/
theorem waitIdle_sound_pushedBack :
    ∃ s t ls, ((unstoppedPool 1 (Fin 1) Nat).guard Pool.publishesTasks).Reachable s ∧
      ((unstoppedPool 1 (Fin 1) Nat).guard Pool.publishesTasks).exec s ls = some t ∧
      t.waitIdle = .returned ∧ t.Idle := by
  let c : Choice 1 Nat := ⟨none, 0, fun _ => none⟩
  let ls : List (PoolLabel 1 (Fin 1) Nat) :=
    List.flatten [.callWaitIdle :: List.replicate 4 (.worker 0 c), [.waitIdle, .execute 0 8 .slow],
      List.replicate 3 (.worker 0 c), .return_ 0 :: List.replicate 4 (.worker 0 c),
      .return_ 0 :: List.replicate 11 (.worker 0 c), [.waitIdle]]
  obtain ⟨s, h, hs⟩ := Machine.exists_reachable_of_exec
    (M := (unstoppedPool 1 (Fin 1) Nat).guard Pool.publishesTasks)
    (p := fun s => decide (s.outside 0 = .idle) && decide (s.waitIdle = .notCalled) &&
      (((unstoppedPool 1 (Fin 1) Nat).guard Pool.publishesTasks).exec s ls).any
        fun (t : Pool 1 (Fin 1) Nat) => decide (t.waitIdle = .returned))
    (.submit 0 7 :: List.replicate 3 (.outside 0 none)) (by decide +kernel)
  simp only [Bool.and_eq_true, decide_eq_true_eq] at hs
  obtain ⟨⟨houtside, hcall⟩, hrun⟩ := hs
  cases ht : ((unstoppedPool 1 (Fin 1) Nat).guard Pool.publishesTasks).exec s ls with
  | none => simp [ht] at hrun
  | some t =>
    have hreturned : t.waitIdle = .returned := by simpa [ht] using hrun
    have houtside (o : Fin 1) : s.outside o = .idle := by rw [Subsingleton.elim o 0, houtside]
    exact ⟨s, t, ls, h, ht, hreturned,
      (waitIdle_sound h houtside hcall (by decide) ht hreturned).1⟩

/-- After the run that strands a task, `WaitIdle` finds both counters at zero. -/
theorem waitIdle_unsound_overflow :
    ∃ s t ls, (unstoppedPool 3 (Fin 1) Nat).Reachable s ∧ (∀ o, s.outside o = .idle) ∧
      s.waitIdle = .notCalled ∧ (∀ l ∈ ls, l.submits = false) ∧
      (unstoppedPool 3 (Fin 1) Nat).exec s ls = some t ∧ t.waitIdle = .returned ∧ ¬ t.Idle := by
  obtain ⟨s, h, -, houtside, hlocal, hcall, hglobal, hcoordinator⟩ := overflowRun_strands
  refine ⟨s, { s with waitIdle := .returned }, [.callWaitIdle, .waitIdle, .waitIdle], h, houtside,
    hcall, by decide, ?_, rfl, fun hidle => ?_⟩
  · simp [unstoppedPool, pool, Machine.guard, PoolLabel.callsStop, Pool.step, Pool.waitIdleStep,
      hcall, hglobal, hcoordinator]
  · have := (hidle.workers 2).localTasks
    simp [hlocal] at this

end ConcurrentProgramming.Fast
