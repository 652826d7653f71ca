import ConcurrentProgramming.Fast.Balance
import ConcurrentProgramming.Fast.LostWakeup
import ConcurrentProgramming.Fast.Progress
import ConcurrentProgramming.Fast.Ready

/-!
Where the fast pool comes to rest: the states in which only a new call, or a
wake-up for no reason, is possible.
-/

set_option autoImplicit false

namespace ConcurrentProgramming.Fast
open Interleaving

/-- Only what nobody has to do is possible. -/
def Pool.AtRest {n : Nat} {O T : Type} [DecidableEq O] (s : Pool n O T) : Prop :=
  ∀ l t, (tasksPool n O T).step s l = some t → l.offered = true

/-- Neither asleep nor gone, nor in the code of a task. -/
def Work.busy {n : Nat} {T : Type} : Work n T → Bool
  | .asleep | .exited | .run _ => false
  | _ => true

namespace Worker

/-- What an offload publishes is what the array held before it was written. -/
theorem offloaded_eq {n : Nat} {T : Type} (x : Worker n T) (overflow : T)
    (uninit : Nat → Option T) :
    ∃ indices : List Nat, x.offloaded overflow uninit = indices.map uninit := by
  refine ⟨(List.range (kLocalQueueCapacity / 2 + 1 -
    ((x.localTasks.take (kLocalQueueCapacity / 2)).length + 1))).map
      ((x.localTasks.take (kLocalQueueCapacity / 2)).length + 1 + ·), ?_⟩
  simp only [offloaded, Nat.add_sub_cancel, List.map_map]
  exact List.drop_left' (by simp)

end Worker

namespace Pool

theorem exists_notifyOne {n : Nat} {O T : Type} (s : Pool n O T) :
    ∃ woken t, s.notifyOne woken = some t := by
  by_cases h : ∀ v, (s.workers v).asleep = false
  · exact ⟨none, s, if_pos h⟩
  · obtain ⟨v, hv⟩ := not_forall.mp h
    exact ⟨some v, _, if_pos (by simpa using hv)⟩

/-- A worker goes on where one of its four kinds of step is possible. -/
theorem exists_workerStep_of {n : Nat} {O T : Type} {s : Pool n O T} {w : Fin n} {c : Choice n T}
    (h : ((s.workers w).localStep (s.coordinator.impudence w)).isSome = true ∨
      (s.globalStep w).isSome = true ∨ (s.coordinatorStep w c).isSome = true ∨
        (s.stealStep w c).isSome = true) : ∃ t, s.workerStep w c = some t := by
  rw [← Option.isSome_iff_exists]
  simpa [workerStep, Option.orElse_eq_or, Option.isSome_or, or_assoc] using h

theorem exists_coordinatorStep {n : Nat} {O T : Type} {s : Pool n O T} {w : Fin n}
    (hs : s.Standing) (hw : (s.workers w).work = .awakeOne ∨ (s.workers w).work = .tryPark ∨
      (s.workers w).work = .release ∨ (∃ remaining, (s.workers w).work = .giveVictim remaining) ∨
        ∃ task e, (s.workers w).work = .execute task e ∧ (e = .awakeOne ∨ e = .prohibitParking)) :
    ∃ c, (s.coordinatorStep w c).isSome = true := by
  let c : Choice n T := ⟨none, 0, fun _ => none⟩
  rcases hw with hw | hw | hw | ⟨remaining, hw⟩ | ⟨task, e, hw, rfl | rfl⟩
  · obtain ⟨woken, u, hu⟩ := s.exists_notifyOne
    refine ⟨⟨woken, 0, fun _ => none⟩, ?_⟩
    simp only [coordinatorStep, hw, hu, Option.map_some, Option.isSome_some]
  · obtain ⟨coordinator, hunlink⟩ := hs.linked.exists_unlink (by rw [hw]; rfl)
    refine ⟨c, ?_⟩
    simp only [coordinatorStep, hw, hunlink, Option.map_some]
    split <;> rfl
  · obtain ⟨coordinator, hunlink⟩ := hs.linked.exists_unlink (by rw [hw]; rfl)
    refine ⟨c, ?_⟩
    simp only [coordinatorStep, hw, Coordinator.release, hunlink, Option.map_some,
      Option.isSome_some]
  · cases remaining with
    | zero => exact ⟨c, by simp only [coordinatorStep, hw, Option.isSome_some]⟩
    | succ remaining =>
      -- the worker itself is linked, so nothing is divided by zero
      have hmem := (hs.linked.mem w).mpr (by rw [hw]; rfl)
      have hpos := List.length_pos_of_mem hmem
      rw [Coordinator.linked, List.length_append] at hpos
      obtain ⟨victim, hvictim, -⟩ := s.coordinator.giveVictim_linked hpos c.seed
      refine ⟨c, ?_⟩
      simp only [coordinatorStep, hw, hvictim, Option.map_some, Option.isSome_some]
  · obtain ⟨woken, u, hu⟩ := s.exists_notifyOne
    refine ⟨⟨woken, 0, fun _ => none⟩, ?_⟩
    simp only [coordinatorStep, hw, hu, Option.map_some, Option.isSome_some]
  · obtain ⟨woken, u, hu⟩ :=
      exists_notifyOne { s with coordinator := s.coordinator.prohibitParking }
    refine ⟨⟨woken, 0, fun _ => none⟩, ?_⟩
    simp only [coordinatorStep, hw, prohibitParking, hu, Option.map_some, Option.isSome_some]

/-- No busy worker is ever stuck. -/
theorem exists_workerStep {n : Nat} {O T : Type} {s : Pool n O T} (hs : s.Standing) {w : Fin n}
    (hready : (s.workers w).Ready) (hbusy : (s.workers w).work.busy = true) :
    ∃ c t, s.publishesTasks (.worker w c : PoolLabel n O T) = true ∧ s.workerStep w c = some t := by
  have goes (c : Choice n T)
      (hpublishes : s.publishesTasks (.worker w c : PoolLabel n O T) = true)
      (h : ((s.workers w).localStep (s.coordinator.impudence w)).isSome = true ∨
        (s.globalStep w).isSome = true ∨ (s.coordinatorStep w c).isSome = true ∨
          (s.stealStep w c).isSome = true) :
      ∃ c t, s.publishesTasks (.worker w c : PoolLabel n O T) = true ∧
        s.workerStep w c = some t := by
    obtain ⟨t, ht⟩ := exists_workerStep_of h
    exact ⟨c, t, hpublishes, ht⟩
  let c : Choice n T := ⟨none, 0, fun _ => none⟩
  cases hw : (s.workers w).work with
  | asleep | exited | run task => simp [hw, Work.busy] at hbusy
  | pick | impudence | lifoCheck | discardRun task | discardLifo | discardDrained task =>
    refine goes c (by simp [publishesTasks, hw]) (.inl ?_)
    simp only [Worker.localStep, hw, Option.isSome_some]
  | lifo | tryPop | drain =>
    refine goes c (by simp [publishesTasks, hw]) (.inl ?_)
    simp only [Worker.localStep, hw]
    split <;> rfl
  | pushGrabbed first rest =>
    obtain ⟨task, -, -, hpush⟩ := hready.pushMany .impudence (.inl hw)
    refine goes c (by simp [publishesTasks, hw]) (.inl ?_)
    simp only [Worker.localStep, hw, hpush, Option.isSome_some]
  | pushStolen first rest =>
    obtain ⟨task, -, -, hpush⟩ := hready.pushMany .lifoCheck (.inr hw)
    refine goes c (by simp [publishesTasks, hw]) (.inl ?_)
    simp only [Worker.localStep, hw, hpush, Option.isSome_some]
  | grab | grabAgain =>
    obtain ⟨x, hx⟩ := hs.counted.exists_grab (kLocalQueueCapacity / 2) n
    refine goes c (by simp [publishesTasks, hw]) (.inr (.inl ?_))
    simp only [globalStep, hw, Pool.grab, hx, Option.map_some, Option.isSome_some]
  | allowParking | notified =>
    refine goes c (by simp [publishesTasks, hw]) (.inr (.inr (.inl ?_)))
    simp only [coordinatorStep, hw, Option.isSome_some]
  | awakeOne | giveVictim remaining | tryPark | release =>
    obtain ⟨c, hc⟩ := exists_coordinatorStep hs (w := w) (by simp [hw])
    exact goes c (by simp [publishesTasks, hw]) (.inr (.inr (.inl hc)))
  | lowSize remaining victim | steal remaining victim limit =>
    refine goes c (by simp [publishesTasks, hw]) (.inr (.inr (.inr ?_)))
    simp only [stealStep, hw, Option.isSome_some]
  | execute task e =>
    cases e with
    | pushToLifoSlot next | pushToLocalQueue next | tryPush next | discard next
    | discardPushed next =>
      refine goes c (by simp [publishesTasks, hw]) (.inl ?_)
      simp only [Worker.localStep, hw, Option.isSome_some]
    | discardOffloaded buffer =>
      refine goes c (by simp [publishesTasks, hw]) (.inl ?_)
      cases buffer with
      | nil | cons item rest => simp only [Worker.localStep, hw, Option.isSome_some]
    | offload buffer | offloadLocked buffer | pushOne next | pushOneLocked next =>
      refine goes c (by simp [publishesTasks, hw]) (.inr (.inl ?_))
      simp only [globalStep, hw, Option.isSome_some]
    | awakeOne | prohibitParking =>
      obtain ⟨c, hc⟩ := exists_coordinatorStep hs (w := w) (by simp [hw])
      exact goes c (by simp [publishesTasks, hw]) (.inr (.inr (.inl hc)))
    | grab overflow =>
      -- what was on the stack before may as well have been tasks
      obtain ⟨indices, hoffloaded⟩ := (s.workers w).offloaded_eq overflow fun _ => some overflow
      refine goes ⟨none, 0, fun _ => some overflow⟩ (by simp [publishesTasks, hw, hoffloaded])
        (.inr (.inr (.inr ?_)))
      simp only [stealStep, hw, Option.isSome_some]

theorem stopStep_called {n : Nat} {O T : Type} {s t : Pool n O T} (h : s.stopStep = some t) :
    t.stop ≠ .notCalled := by
  unfold stopStep at h
  cases hstop : s.stop with
  | notCalled | returned => simp [hstop] at h
  | discard rest =>
    cases rest with
    | nil | cons item rest =>
      simp only [hstop, Option.some.injEq] at h
      subst h
      simp
  | stopWorkers i | drain =>
    simp only [hstop] at h
    split at h <;> obtain rfl := Option.some.inj h <;> simp
  | storeClosed | awakeEveryoneForever =>
    simp only [hstop, Option.some.injEq] at h
    subst h
    simp
  | join i =>
    simp only [hstop] at h
    split at h
    · split at h
      · obtain rfl := Option.some.inj h
        simp
      · cases h
    · obtain rfl := Option.some.inj h
      simp

/-- A call of `Stop` is never taken back. -/
theorem notCalled_of_step {n : Nat} {O T : Type} [DecidableEq O] {s t : Pool n O T}
    {l : PoolLabel n O T} (h : s.step l = some t) (ht : t.stop = .notCalled) :
    s.stop = .notCalled ∧ l.callsStop = false := by
  have same (hsame : t.stop = s.stop) (hl : l.callsStop = false) :
      s.stop = .notCalled ∧ l.callsStop = false := ⟨hsame ▸ ht, hl⟩
  unfold Pool.step at h
  cases l with
  | worker w c => exact same (workerStep_stop h) rfl
  | execute w task hint =>
    cases hw : (s.workers w).work <;> simp only [hw, reduceCtorEq, Option.some.injEq] at h
    exact same (h ▸ rfl) rfl
  | return_ w | throw w =>
    cases hw : (s.workers w).work <;> simp only [hw, reduceCtorEq, Option.some.injEq] at h
    exact same (h ▸ rfl) rfl
  | spurious w =>
    simp only [Option.ite_none_right_eq_some, Option.some.injEq] at h
    exact same (h.2 ▸ rfl) rfl
  | submit o task =>
    cases ho : s.outside o <;> simp only [ho, reduceCtorEq, Option.some.injEq] at h
    exact same (h ▸ rfl) rfl
  | outside o woken => exact same (outsideStep_stop h) rfl
  | callWaitIdle =>
    cases hwait : s.waitIdle <;> simp only [hwait, reduceCtorEq, Option.some.injEq] at h
    exact same (h ▸ rfl) rfl
  | waitIdle =>
    cases hwait : s.waitIdle <;> simp only [waitIdleStep, hwait, reduceCtorEq,
      Option.ite_none_right_eq_some, Option.some.injEq] at h
    all_goals exact same (h.2 ▸ rfl) rfl
  | callStop =>
    cases hstop : s.stop <;> simp only [hstop, reduceCtorEq, Option.some.injEq] at h
    subst h
    cases ht
  | stop => exact (stopStep_called h ht).elim

end Pool

/-- As long as `Stop` is not called, the run so far is one without it. -/
theorem unstopped_of_notCalled {n : Nat} {O T : Type} [DecidableEq O] {s : Pool n O T}
    (h : (tasksPool n O T).Reachable s) (hstop : s.stop = .notCalled) :
    ((unstoppedPool n O T).guard Pool.publishesTasks).Reachable s := by
  induction h with
  | init => exact .init
  | @step s t l _ hl ih =>
    obtain ⟨hpublishes, hstep⟩ := Machine.guard_step.mp hl
    obtain ⟨hbefore, hcalls⟩ := Pool.notCalled_of_step hstep hstop
    refine (ih hbefore).step (Machine.guard_step.mpr ⟨hpublishes, Machine.guard_step.mpr ⟨?_, hstep⟩⟩)
    rw [hcalls]
    rfl

namespace Pool

theorem exists_outsideStep {n : Nat} {O T : Type} [DecidableEq O] {s : Pool n O T} {o : O}
    (ho : s.outside o ≠ .idle) : ∃ woken t, s.outsideStep o woken = some t := by
  unfold outsideStep
  cases hpc : s.outside o with
  | idle => exact (ho hpc).elim
  | pushOne task | pushOneLocked task | discard task => exact ⟨none, _, rfl⟩
  | prohibitParking =>
    obtain ⟨woken, u, hu⟩ :=
      exists_notifyOne { s with coordinator := s.coordinator.prohibitParking }
    exact ⟨woken, u.call o .idle, by simp only [prohibitParking, hu, Option.map_some]⟩

/-- `Stop` waits for nothing but the workers that it joins. -/
theorem exists_stopStep {n : Nat} {O T : Type} {s : Pool n O T} (hnot : s.stop ≠ .notCalled)
    (hret : s.stop ≠ .returned)
    (hjoin : ∀ w : Fin n, s.stop = .join w → (s.workers w).work = .exited) :
    ∃ t, s.stopStep = some t := by
  unfold stopStep
  cases hstop : s.stop with
  | notCalled => exact (hnot hstop).elim
  | returned => exact (hret hstop).elim
  | stopWorkers i | drain =>
    simp only
    split <;> exact ⟨_, rfl⟩
  | storeClosed | awakeEveryoneForever => exact ⟨_, rfl⟩
  | discard rest =>
    cases rest with
    | nil | cons item rest => exact ⟨_, rfl⟩
  | join i =>
    by_cases hi : i < n
    · have hexited := hjoin ⟨i, hi⟩ hstop
      rw [← Option.isSome_iff_exists]
      simp only [dif_pos hi, hexited, Option.isSome_some]
    · exact ⟨_, dif_neg hi⟩

section
variable {n : Nat} {O T : Type} [DecidableEq O] {s : Pool n O T}

theorem AtRest.step_eq_none (h : s.AtRest) {l : PoolLabel n O T} (hl : l.offered = false)
    (hpublishes : s.publishesTasks l = true) : s.step l = none := by
  by_contra hsome
  obtain ⟨t, ht⟩ := Option.ne_none_iff_exists'.mp hsome
  have hoffered := h l t (Machine.guard_step.mpr ⟨hpublishes, ht⟩)
  rw [hl] at hoffered
  cases hoffered

/-- Who is awake can do something, or the task that it runs can. -/
theorem AtRest.worker (h : s.AtRest) (hs : s.Standing) (hready : s.Ready) (w : Fin n) :
    (s.workers w).work = .asleep ∨ (s.workers w).work = .exited := by
  cases hbusy : (s.workers w).work.busy with
  | true =>
    obtain ⟨c, t, hpublishes, ht⟩ := exists_workerStep hs (hready.workers w) hbusy
    have hnone : s.workerStep w c = none := h.step_eq_none (l := .worker w c) rfl hpublishes
    rw [hnone] at ht
    cases ht
  | false =>
    cases hw : (s.workers w).work with
    | asleep => exact .inl rfl
    | exited => exact .inr rfl
    | run task =>
      have hnone := h.step_eq_none (l := .return_ w) rfl rfl
      simp [Pool.step, hw] at hnone
    | _ => simp [hw, Work.busy] at hbusy

theorem AtRest.outside (h : s.AtRest) (o : O) : s.outside o = .idle := by
  by_contra ho
  obtain ⟨woken, t, ht⟩ := exists_outsideStep ho
  have hnone : s.outsideStep o woken = none := h.step_eq_none (l := .outside o woken) rfl rfl
  rw [hnone] at ht
  cases ht

theorem AtRest.stop (h : s.AtRest) (hs : s.Standing)
    (hworkers : ∀ w, (s.workers w).work = .asleep ∨ (s.workers w).work = .exited) :
    s.stop = .notCalled ∨ s.stop = .returned := by
  by_contra hneither
  obtain ⟨hnot, hret⟩ := not_or.mp hneither
  obtain ⟨t, ht⟩ := exists_stopStep hnot hret fun w hw =>
    (hworkers w).resolve_left (hs.awake (by rw [hw]; rfl) w)
  have hnone : s.stopStep = none := h.step_eq_none (l := .stop) rfl rfl
  rw [hnone] at ht
  cases ht

/-- With the queues empty and everybody asleep both counters are zero. -/
theorem AtRest.waitIdle (h : s.AtRest) (hinv : s.Inv) (hdrained : s.Drained)
    (hasleep : ∀ w, (s.workers w).work = .asleep) :
    s.waitIdle = .notCalled ∨ s.waitIdle = .returned := by
  have hnone : s.waitIdleStep = none := h.step_eq_none (l := .waitIdle) rfl rfl
  have hglobal : s.global.waiter.counter = 0 := by
    rw [hinv.tracks, if_pos hdrained.queue]
  have hcoordinator : s.coordinator.waiter.counter = 0 := by
    rw [hinv.linked.counter, List.length_eq_zero_iff, List.eq_nil_iff_forall_not_mem]
    intro w hw
    have hlinked := (hinv.linked.mem w).mp hw
    rw [hasleep w] at hlinked
    cases hlinked
  cases hwait : s.waitIdle with
  | notCalled => exact .inl rfl
  | returned => exact .inr rfl
  | globalTasks => simp [waitIdleStep, hwait, hglobal] at hnone
  | coordinator => simp [waitIdleStep, hwait, hcoordinator] at hnone

end

theorem atRest_of {n : Nat} {O T : Type} [DecidableEq O] {s : Pool n O T}
    (hworkers : ∀ w, (s.workers w).work = .asleep ∨ (s.workers w).work = .exited)
    (houtside : ∀ o, s.outside o = .idle)
    (hwait : s.waitIdle = .notCalled ∨ s.waitIdle = .returned)
    (hstop : s.stop = .notCalled ∨ s.stop = .returned) : s.AtRest := by
  intro l t h
  have h := (Machine.guard_step.mp h).2
  simp only [pool, Pool.step] at h
  cases l with
  | execute w task hint | submit o task | spurious w | callWaitIdle | callStop => rfl
  | worker w c =>
    rcases hworkers w with hw | hw <;>
      simp [workerStep, Worker.localStep, globalStep, coordinatorStep, stealStep, hw] at h
  | return_ w | throw w => rcases hworkers w with hw | hw <;> simp [hw] at h
  | outside o woken => simp [outsideStep, houtside o] at h
  | waitIdle => rcases hwait with hwait | hwait <;> simp [waitIdleStep, hwait] at h
  | stop => rcases hstop with hstop | hstop <;> simp [stopStep, hstop] at h

end Pool

end ConcurrentProgramming.Fast
