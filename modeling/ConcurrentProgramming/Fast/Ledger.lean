import ConcurrentProgramming.Fast.Drain
import Mathlib.Data.Fintype.Basic

/-!
Every task of the fast pool, from the call of `Execute` that brings it to its run
or its `Discard`: in a ring, a slot, the hands of a worker, the global queue, a
call of `PushOne` or the hands of `Stop`.
-/

set_option autoImplicit false

namespace ConcurrentProgramming.Fast
open Interleaving

/-- `passed` is a task that `Execute` is called with; the `Discard` of a task that
threw is not a `discarded`; `late` is a push into the global queue after `Stop` has
found that empty. -/
inductive Fate (T : Type) where
  | passed (task : T)
  | ran (task : T)
  | discarded (task : T)
  | late (task : T)
  deriving DecidableEq, Repr

def Worker.fates {n : Nat} {T : Type} (x : Worker n T) : List (Fate T) :=
  match x.work with
  | .execute _ (.discard next) | .execute _ (.discardPushed next) => [.discarded next]
  | .execute _ (.discardOffloaded (item :: _)) => item.toList.map .discarded
  | .discardLifo => x.lifoSlot.toList.map .discarded
  | .discardDrained task => [.discarded task]
  | _ => []

def Pool.fates {n : Nat} {O T : Type} (s : Pool n O T) : PoolLabel n O T → List (Fate T)
  | .worker w _ => (s.workers w).fates
  | .execute _ task _ | .submit _ task => [.passed task]
  | .return_ w | .throw w =>
    match (s.workers w).work with
    | .run task => [.ran task]
    | _ => []
  | .outside o _ =>
    match s.outside o with
    | .discard task => [.discarded task]
    | _ => []
  | .stop =>
    match s.stop with
    | .discard (item :: _) => item.toList.map .discarded
    | _ => []
  | _ => []

/-- `Stop` has left its drain loop. -/
def PoolStop.drained {T : Type} : PoolStop T → Bool
  | .awakeEveryoneForever | .join _ | .returned => true
  | _ => false

/-- What the step puts into the global queue. -/
def Pool.pushed {n : Nat} {O T : Type} (s : Pool n O T) : PoolLabel n O T → List (Option T)
  | .worker w _ =>
    match (s.workers w).work with
    | .execute _ (.pushOneLocked next) => [some next]
    | .execute _ (.offloadLocked buffer) => buffer
    | _ => []
  | .outside o _ =>
    match s.outside o with
    | .pushOneLocked task => [some task]
    | _ => []
  | _ => []

def Pool.ledger {n : Nat} {O T : Type} (s : Pool n O T) (l : PoolLabel n O T) : List (Fate T) :=
  s.fates l ++ if s.stop.drained then (s.pushed l).reduceOption.map .late else []

/-- What a worker has on its way into the global queue. -/
def Work.outgoing {n : Nat} {T : Type} [DecidableEq T] (t : T) : Work n T → Nat
  | .execute _ (.pushOne task) | .execute _ (.pushOneLocked task)
  | .execute _ (.discardPushed task) => [task].count t
  | _ => 0

def Worker.outgoing {n : Nat} {T : Type} [DecidableEq T] (t : T) (x : Worker n T) : Nat :=
  x.work.outgoing t

def OutsideCall.holding {T : Type} [DecidableEq T] (t : T) : OutsideCall T → Nat
  | .pushOne task | .pushOneLocked task | .discard task => [task].count t
  | .idle | .prohibitParking => 0

def PoolStop.holding {T : Type} [DecidableEq T] (t : T) : PoolStop T → Nat
  | .discard rest => rest.count (some t)
  | _ => 0

namespace Pool

/-- How often `t` is in the global queue, on its way in, or on its way out to `Stop`. -/
def transit {n : Nat} {O T : Type} [Fintype O] [DecidableEq T] (t : T) (s : Pool n O T) : Nat :=
  s.global.queue.count (some t) + tally Finset.univ (Worker.outgoing t) s.workers +
    tally Finset.univ (OutsideCall.holding t) s.outside + s.stop.holding t

/-- How often the pool has `t`. -/
def held {n : Nat} {O T : Type} [Fintype O] [DecidableEq T] (t : T) (s : Pool n O T) : Nat :=
  tally Finset.univ (Worker.holding t) s.workers + s.transit t

/-- The step balances: with the books of the workers, and with all that happened. -/
def Carries {n : Nat} {O T : Type} [Fintype O] [DecidableEq T] (s t : Pool n O T)
    (events : List (Event n T)) (fates : List (Fate T)) : Prop :=
  ∀ u, s.transit u + fates.count (.passed u) + events.count (.ran u) +
      events.count (.discarded u) =
    t.transit u + events.count (.entered u) + fates.count (.ran u) + fates.count (.discarded u)

/-- A step that brings nothing into the global queue and takes nothing out of it. -/
theorem Carries.frame {n : Nat} {O T : Type} [Fintype O] [DecidableEq T] {s t : Pool n O T}
    {events : List (Event n T)} {fates : List (Fate T)}
    (htransit : ∀ u, t.transit u = s.transit u)
    (hpassed : ∀ u, fates.count (.passed u) = events.count (.entered u))
    (hran : ∀ u, events.count (.ran u) = fates.count (.ran u))
    (hdiscarded : ∀ u, events.count (.discarded u) = fates.count (.discarded u)) :
    s.Carries t events fates := by
  intro u
  rw [htransit, hpassed, hran, hdiscarded]

/-- A worker moves on, and the global queue with it. -/
theorem transit_goto_global {n : Nat} {O T : Type} [Fintype O] [DecidableEq T] (s : Pool n O T)
    (w : Fin n) (pc : Work n T) (global : GlobalQueue (Option T)) (u : T) :
    ({ s.goto w pc with global := global } : Pool n O T).transit u +
        s.global.queue.count (some u) + (s.workers w).work.outgoing u =
      s.transit u + global.queue.count (some u) + pc.outgoing u := by
  have htally := tally_update (Worker.outgoing u) s.workers (Finset.mem_univ w)
    ((s.workers w).goto pc)
  simp only [transit, Pool.goto, setWorker, Worker.outgoing, Worker.goto] at htally ⊢
  omega

/-- A worker goes from hands without a transfer to such hands. -/
theorem transit_goto {n : Nat} {O T : Type} [Fintype O] [DecidableEq T] (s : Pool n O T)
    {w : Fin n} {pc : Work n T} {u : T} (h : pc.outgoing u = (s.workers w).work.outgoing u)
    (coordinator : Coordinator (Fin n)) :
    ({ s.goto w pc with coordinator := coordinator } : Pool n O T).transit u = s.transit u := by
  have htally : tally Finset.univ (Worker.outgoing u)
      (Function.update s.workers w ((s.workers w).goto pc)) =
        tally Finset.univ (Worker.outgoing u) s.workers :=
    tally_update_of_eq _ _ h
  simp only [transit, Pool.goto, setWorker, htally]

theorem transit_notifyOne {n : Nat} {O T : Type} [Fintype O] [DecidableEq T] {s t : Pool n O T}
    {woken : Option (Fin n)} (h : s.notifyOne woken = some t) (u : T) :
    t.transit u = s.transit u := by
  rcases notifyOne_cases h with ⟨v, hv, rfl⟩ | ⟨-, rfl⟩
  · exact s.transit_goto (by rw [hv]; rfl) s.coordinator
  · rfl

end Pool

theorem count_discarded {n : Nat} {T : Type} [DecidableEq T] (slot : Option T) (u : T) :
    (slot.toList.map .discarded : List (Event n T)).count (.discarded u) =
      (slot.toList.map .discarded : List (Fate T)).count (.discarded u) := by
  rw [List.count_map_of_injective _ _ (fun _ _ h => Event.discarded.inj h),
    List.count_map_of_injective _ _ (fun _ _ h => Fate.discarded.inj h)]

/-- What the worker alone does, of which the refusal of a `PushOne` is not in the
books of the workers. -/
theorem Worker.outgoing_localStep {n : Nat} {T : Type} [DecidableEq T] {x y : Worker n T}
    (hx : x.Settled) {w : Fin n} {impudence : Stealing} (h : x.localStep impudence = some y)
    (u : T) :
    x.outgoing u + (x.events w).count (.discarded u) =
      y.outgoing u + x.fates.count (.discarded u) := by
  have hwork := hx.work
  have hstep := Worker.localStep_cases h
  obtain ⟨work, localTasks, lifoSlot, lifoUsage, cycle, stopped⟩ := x
  cases hstep with
  | stopped hw | tenth hw | next hw | noLifo hw | ringEmpty hw | active hw | passive hw
  | lifoFilled hw | lifoEmpty hw | localQueue hw | offloadDiscarded hw | drainedAll hw
  | lifoTask hw | lifoSlot hw | displaced hw | pushed hw | full hw | drained hw | drainedNull hw =>
    obtain rfl := hw
    rfl
  | refused hw =>
    obtain rfl | rfl := hw <;> rfl
  | @pushMany first rest pc hw =>
    obtain ⟨rfl, rfl⟩ | ⟨rfl, rfl⟩ := hw <;> cases first <;> rfl
  | @popped ans rest hw =>
    obtain rfl := hw
    cases ans <;> rfl
  | discard hw | discardDrained hw =>
    obtain rfl := hw
    exact congrArg (0 + ·) (count_discarded (some _) u)
  | discardLifo hw =>
    obtain rfl := hw
    exact congrArg (0 + ·) (count_discarded lifoSlot u)
  | discardRun hw =>
    obtain rfl := hw
    simp [Worker.events, Worker.fates, Worker.outgoing, Work.outgoing, Worker.goto]
  | @discardPushed task next hw =>
    obtain rfl := hw
    simp [Worker.events, Worker.fates, Worker.outgoing, Work.outgoing, Worker.goto,
      List.count_singleton]
  | discardOffloaded hw =>
    obtain rfl := hw
    exact hwork.elim

/-- A worker alone neither lets a task in nor ends one. -/
theorem Worker.events_quiet {n : Nat} {T : Type} [DecidableEq T] (x : Worker n T) (w : Fin n)
    (u : T) :
    (x.events w).count (.entered u) = 0 ∧ (x.events w).count (.ran u) = 0 ∧
      x.fates.count (.passed u) = 0 ∧ x.fates.count (.ran u) = 0 := by
  refine ⟨List.count_eq_zero.mpr ?_, List.count_eq_zero.mpr ?_, List.count_eq_zero.mpr ?_,
    List.count_eq_zero.mpr ?_⟩
  · unfold Worker.events
    split <;> simp
  · unfold Worker.events
    split <;> simp
  · unfold Worker.fates
    split <;> simp
  · unfold Worker.fates
    split <;> simp

namespace Pool

theorem grabbed_localStep {n : Nat} {O T : Type} (s : Pool n O T) {w : Fin n} {x : Worker n T}
    {impudence : Stealing} (h : (s.workers w).localStep impudence = some x) :
    s.grabbed w = [] := by
  unfold Pool.grabbed
  split
  · rename_i hw _
    simp [Worker.localStep, hw] at h
  · rename_i hw _
    simp [Worker.localStep, hw] at h
  · rfl

theorem Drains.carries_globalStep {n : Nat} {O T : Type} [Fintype O] [DecidableEq T]
    {s t : Pool n O T} {log : List (Event n T)} (hs : s.Drains log) {w : Fin n}
    (h : s.globalStep w = some t) :
    s.Carries t (s.grabbed w ++ (s.workers w).events w) (s.workers w).fates := by
  have hwork := (hs.workers w).work
  cases globalStep_cases h with
  | @grab pc t hw h =>
    obtain ⟨global, items, hgrab, rfl⟩ := grab_eq h
    have hevents : s.grabbed w ++ (s.workers w).events w = items.reduceOption.map .entered := by
      rcases hw with ⟨hw, -⟩ | ⟨hw, -⟩ <;> simp [Pool.grabbed, Worker.events, hw, hgrab]
    have hfates : (s.workers w).fates = [] := by
      rcases hw with ⟨hw, -⟩ | ⟨hw, -⟩ <;> simp [Worker.fates, hw]
    have hfrom (u : T) : (s.workers w).work.outgoing u = 0 := by
      rcases hw with ⟨hw, -⟩ | ⟨hw, -⟩ <;> simp [Work.outgoing, hw]
    have hpc (u : T) : pc.outgoing u = 0 := by
      rcases hw with ⟨-, rfl⟩ | ⟨-, rfl⟩ <;> rfl
    have place (pc' : Work n T) (hpc' : ∀ u, pc'.outgoing u = 0) : s.Carries
        { s.goto w pc' with global := global } (s.grabbed w ++ (s.workers w).events w)
          (s.workers w).fates := by
      intro u
      have hgoto := s.transit_goto_global w pc' global u
      have hqueue := congrArg (List.count (some u)) (GlobalQueue.grab_queue hgrab).1
      rw [List.count_append] at hqueue
      rw [hfrom, hpc'] at hgoto
      rw [hevents, hfates, count_entered, count_entered_other items (e := .ran u) (by simp),
        count_entered_other items (e := .discarded u) (by simp)]
      simp only [List.count_nil] at hgoto ⊢
      omega
    refine place _ fun u => ?_
    rcases items with _ | ⟨_ | task, _ | ⟨second, rest⟩⟩
    · exact hpc u
    all_goals rfl
  | offloadClosed hw | offload hw | offloadLocked hw =>
    rw [hw] at hwork
    exact hwork.elim
  | pushOneClosed hw | pushOne hw =>
    have hevents : s.grabbed w ++ (s.workers w).events w = [] := by
      simp [Pool.grabbed, Worker.events, hw]
    have hfates : (s.workers w).fates = [] := by simp [Worker.fates, hw]
    rw [hevents, hfates]
    exact .frame (fun u => s.transit_goto (by rw [hw]; rfl) s.coordinator) (fun _ => rfl)
      (fun _ => rfl) fun _ => rfl
  | @pushOneLocked task next hw =>
    have hevents : s.grabbed w ++ (s.workers w).events w = [] := by
      simp [Pool.grabbed, Worker.events, hw]
    have hfates : (s.workers w).fates = [] := by simp [Worker.fates, hw]
    rw [hevents, hfates]
    refine .frame (fun u => ?_) (fun _ => rfl) (fun _ => rfl) fun _ => rfl
    have hgoto := s.transit_goto_global w (.execute task .prohibitParking)
      (s.global.pushOne (some next)) u
    have hout : (s.workers w).work.outgoing u = [next].count u := by rw [hw]; rfl
    have hnone : (.execute task .prohibitParking : Work n T).outgoing u = 0 := rfl
    have hqueue : (s.global.pushOne (some next)).queue.count (some u) =
        s.global.queue.count (some u) + [next].count u := by
      simp [List.count_singleton]
    omega

/-- Nothing passes the global queue where a worker is at the coordinator or steals. -/
theorem carries_silent {n : Nat} {O T : Type} [Fintype O] [DecidableEq T] {s t : Pool n O T}
    {w : Fin n} (htransit : ∀ u, t.transit u = s.transit u)
    (hevents : ∀ u, (s.grabbed w ++ (s.workers w).events w).count (.entered u) = 0 ∧
      (s.grabbed w ++ (s.workers w).events w).count (.ran u) = 0 ∧
      (s.grabbed w ++ (s.workers w).events w).count (.discarded u) = 0)
    (hfates : (s.workers w).fates = []) :
    s.Carries t (s.grabbed w ++ (s.workers w).events w) (s.workers w).fates := by
  rw [hfates]
  exact .frame htransit (fun u => (hevents u).1.symm) (fun u => (hevents u).2.1) fun u =>
    (hevents u).2.2

theorem carries_coordinatorStep {n : Nat} {O T : Type} [Fintype O] [DecidableEq T]
    {s t : Pool n O T} {w : Fin n} {c : Choice n T} (h : s.coordinatorStep w c = some t) :
    s.Carries t (s.grabbed w ++ (s.workers w).events w) (s.workers w).fates := by
  have after {u : Pool n O T} {woken : Option (Fin n)} (hu : s.notifyOne woken = some u)
      {pc : Work n T} (hw : (s.workers w).work ≠ .asleep)
      (hpc : ∀ v, pc.outgoing v = (s.workers w).work.outgoing v) (v : T) :
      (u.goto w pc).transit v = s.transit v := by
    have hsame := (notifyOne_frame hu).2.2.2.2.2 w hw
    rw [← transit_notifyOne hu v]
    exact u.transit_goto (by rw [hsame]; exact hpc v) u.coordinator
  cases coordinatorStep_cases h with
  | awakeOne hw hu =>
    obtain ⟨hw, rfl⟩ | ⟨task, hw, rfl⟩ := hw
    · exact carries_silent (after hu (by simp [hw]) fun v => by rw [hw]; rfl)
        (fun u => by simp [Pool.grabbed, Worker.events, hw]) (by simp [Worker.fates, hw])
    · exact carries_silent (after hu (by simp [hw]) fun v => by rw [hw]; rfl)
        (fun u => by simp [Pool.grabbed, Worker.events, hw]) (by simp [Worker.fates, hw])
  | allowParking hw | gaveUp hw | itself hw | victim hw | park hw | prohibited hw | notified hw =>
    exact carries_silent (fun u => s.transit_goto (by rw [hw]; rfl) _)
      (fun u => by simp [Pool.grabbed, Worker.events, hw]) (by simp [Worker.fates, hw])
  | @prohibitParking task u hw hu =>
    have hsame (v : T) : ({ s with coordinator := s.coordinator.prohibitParking } :
        Pool n O T).transit v = s.transit v := rfl
    refine carries_silent (fun v => ?_) (fun u => by simp [Pool.grabbed, Worker.events, hw])
      (by simp [Worker.fates, hw])
    have hworker := (notifyOne_frame hu).2.2.2.2.2 w (by simp [hw])
    rw [← hsame v, ← transit_notifyOne hu v]
    exact u.transit_goto (by rw [hworker, hw]; rfl) u.coordinator
  | release hw =>
    refine carries_silent (fun u => s.transit_goto ?_ _)
      (fun u => by simp [Pool.grabbed, Worker.events, hw]) (by simp [Worker.fates, hw])
    rw [hw]
    split <;> rfl

theorem Drains.carries_stealStep {n : Nat} {O T : Type} [Fintype O] [DecidableEq T]
    {s t : Pool n O T} {log : List (Event n T)} (hs : s.Drains log) {w : Fin n} {c : Choice n T}
    (h : s.stealStep w c = some t) :
    s.Carries t (s.grabbed w ++ (s.workers w).events w) (s.workers w).fates := by
  cases stealStep_cases h with
  | lowSize hw =>
    exact carries_silent (fun u => s.transit_goto (by rw [hw]; rfl) _)
      (fun u => by simp [Pool.grabbed, Worker.events, hw]) (by simp [Worker.fates, hw])
  | @steal remaining victim limit hw =>
    refine carries_silent (fun u => ?_) (fun u => by simp [Pool.grabbed, Worker.events, hw])
      (by simp [Worker.fates, hw])
    let robbed : Pool n O T := s.setWorker victim { s.workers victim with
      localTasks := (s.workers victim).localTasks.drop limit }
    have hrobbed : robbed.transit u = s.transit u := by
      have htally : tally Finset.univ (Worker.outgoing u) robbed.workers =
          tally Finset.univ (Worker.outgoing u) s.workers :=
        tally_update_of_eq _ _ rfl
      simp only [transit, htally]
      rfl
    have hthief : (robbed.workers w).work = .steal remaining victim limit := by
      by_cases hv : w = victim
      · subst hv
        simpa [robbed] using hw
      · rw [setWorker_ne _ _ hv, hw]
    rw [← hrobbed]
    refine robbed.transit_goto ?_ robbed.coordinator
    rw [hthief]
    generalize (s.workers victim).localTasks.take limit = taken
    rcases taken with _ | ⟨_ | task, _ | ⟨second, rest⟩⟩ <;> rfl
  | grab hw =>
    have hwork := (hs.workers w).work
    rw [hw] at hwork
    exact hwork.elim

theorem Drains.carries_workerStep {n : Nat} {O T : Type} [Fintype O] [DecidableEq T]
    {s t : Pool n O T} {log : List (Event n T)} (hs : s.Drains log) {w : Fin n} {c : Choice n T}
    (h : s.workerStep w c = some t) :
    s.Carries t (s.grabbed w ++ (s.workers w).events w) (s.workers w).fates := by
  obtain ⟨x, hx, rfl⟩ | h | h | h := workerStep_cases h
  · intro u
    have hlocal := Worker.outgoing_localStep (hs.workers w) (w := w) hx u
    have htally := tally_update (Worker.outgoing u) s.workers (Finset.mem_univ w) x
    have hquiet := (s.workers w).events_quiet w u
    simp only [s.grabbed_localStep hx, List.nil_append, transit, Pool.setWorker]
    omega
  · exact hs.carries_globalStep h
  · exact carries_coordinatorStep h
  · exact hs.carries_stealStep h

theorem transit_call {n : Nat} {O T : Type} [Fintype O] [DecidableEq O] [DecidableEq T]
    (s : Pool n O T) (o : O) (pc : OutsideCall T) (u : T) :
    (s.call o pc).transit u + (s.outside o).holding u = s.transit u + pc.holding u := by
  have htally := tally_update (OutsideCall.holding u) s.outside (Finset.mem_univ o) pc
  simp only [transit, call]
  omega

theorem carries_outsideStep {n : Nat} {O T : Type} [Fintype O] [DecidableEq O] [DecidableEq T]
    {s t : Pool n O T} {o : O} {woken : Option (Fin n)} (h : s.outsideStep o woken = some t) :
    s.Carries t [] (s.fates (.outside o woken)) := by
  unfold outsideStep at h
  cases ho : s.outside o with
  | idle => simp [ho] at h
  | pushOne task =>
    simp only [ho, Option.some.injEq] at h
    subst h
    have hfates : s.fates (.outside o woken) = [] := by simp [fates, ho]
    rw [hfates]
    refine .frame (fun u => ?_) (fun _ => rfl) (fun _ => rfl) fun _ => rfl
    have hcall := s.transit_call o
      (if s.global.isClosed then .discard task else .pushOneLocked task) u
    have hsame : (if s.global.isClosed then OutsideCall.discard task
        else .pushOneLocked task).holding u = [task].count u := by
      split <;> rfl
    rw [ho, hsame] at hcall
    exact Nat.add_right_cancel hcall
  | pushOneLocked task =>
    simp only [ho, Option.some.injEq] at h
    subst h
    have hfates : s.fates (.outside o woken) = [] := by simp [fates, ho]
    rw [hfates]
    refine .frame (fun u => ?_) (fun _ => rfl) (fun _ => rfl) fun _ => rfl
    let pushed : Pool n O T := { s with global := s.global.pushOne (some task) }
    have hpushed : pushed.transit u = s.transit u + [task].count u := by
      have hqueue : (s.global.pushOne (some task)).queue.count (some u) =
          s.global.queue.count (some u) + [task].count u := by
        simp [List.count_singleton]
      simp only [pushed, transit]
      omega
    have hcall := pushed.transit_call o .prohibitParking u
    have hfrom : (pushed.outside o).holding u = [task].count u := by
      show (s.outside o).holding u = _
      rw [ho]
      rfl
    have hnone : (OutsideCall.prohibitParking : OutsideCall T).holding u = 0 := rfl
    show (pushed.call o .prohibitParking).transit u = s.transit u
    omega
  | discard task =>
    simp only [ho, Option.some.injEq] at h
    subst h
    have hfates : s.fates (.outside o woken) = [.discarded task] := by simp [fates, ho]
    intro u
    have hcall := s.transit_call o .prohibitParking u
    have hone : [Fate.discarded task].count (.discarded u) = [task].count u := by
      simp [List.count_singleton]
    rw [ho] at hcall
    simp only [OutsideCall.holding] at hcall
    rw [hfates, hone]
    simp only [List.count_nil, List.count_singleton, beq_iff_eq, reduceCtorEq, if_false] at hcall ⊢
    omega
  | prohibitParking =>
    simp only [ho] at h
    obtain ⟨v, hv, rfl⟩ := Option.map_eq_some_iff.mp h
    have hfates : s.fates (.outside o woken) = [] := by simp [fates, ho]
    have hsame : v.outside o = .prohibitParking := by rw [(notifyOne_frame hv).1, ho]
    rw [hfates]
    refine .frame (fun u => ?_) (fun _ => rfl) (fun _ => rfl) fun _ => rfl
    have hcall := v.transit_call o .idle u
    rw [hsame] at hcall
    have hnotified := transit_notifyOne hv u
    exact hcall.trans hnotified

theorem transit_notifyAll {n : Nat} {O T : Type} [Fintype O] [DecidableEq T] (s : Pool n O T)
    (u : T) : s.notifyAll.transit u = s.transit u := by
  have hworkers : tally Finset.univ (Worker.outgoing u) s.notifyAll.workers =
      tally Finset.univ (Worker.outgoing u) s.workers := by
    refine Finset.sum_congr rfl fun v _ => ?_
    rcases s.notifyAll_worker v with ⟨hv, heq⟩ | ⟨-, heq⟩
    · rw [heq]
      simp [Worker.outgoing, Worker.goto, Work.outgoing, hv]
    · rw [heq]
  simp only [transit, hworkers]
  rfl

theorem carries_stopStep {n : Nat} {O T : Type} [Fintype O] [DecidableEq T]
    {s t : Pool n O T} (h : s.stopStep = some t) : s.Carries t [] (s.fates .stop) := by
  unfold stopStep at h
  cases hstop : s.stop with
  | notCalled | returned => simp [hstop] at h
  | stopWorkers i =>
    have hfates : s.fates .stop = [] := by simp [fates, hstop]
    simp only [hstop] at h
    rw [hfates]
    split at h
    · rename_i hi
      simp only [Option.some.injEq] at h
      subst h
      refine .frame (fun u => ?_) (fun _ => rfl) (fun _ => rfl) fun _ => rfl
      have htally : tally Finset.univ (Worker.outgoing u) (Function.update s.workers ⟨i, hi⟩
          { s.workers ⟨i, hi⟩ with stopped := true }) =
            tally Finset.univ (Worker.outgoing u) s.workers :=
        tally_update_of_eq _ _ rfl
      simp only [transit, setWorker, htally, hstop, PoolStop.holding]
    · simp only [Option.some.injEq] at h
      subst h
      exact .frame (fun u => by simp [transit, hstop, PoolStop.holding]) (fun _ => rfl)
        (fun _ => rfl) fun _ => rfl
  | storeClosed =>
    have hfates : s.fates .stop = [] := by simp [fates, hstop]
    simp only [hstop, Option.some.injEq] at h
    subst h
    rw [hfates]
    exact .frame (fun u => by simp [transit, hstop, PoolStop.holding]) (fun _ => rfl)
      (fun _ => rfl) fun _ => rfl
  | drain =>
    have hfates : s.fates .stop = [] := by simp [fates, hstop]
    simp only [hstop, GlobalQueue.drain] at h
    rw [hfates]
    refine .frame (fun u => ?_) (fun _ => rfl) (fun _ => rfl) fun _ => rfl
    split at h
    · simp only [Option.some.injEq] at h
      subst h
      simp [transit, hstop, PoolStop.holding]
    · rename_i global items _ hdrain
      obtain ⟨rfl, rfl⟩ := Prod.mk.inj hdrain
      simp only [Option.some.injEq] at h
      subst h
      have hsplit := congrArg (List.count (some u)) (List.take_append_drop 256 s.global.queue)
      rw [List.count_append] at hsplit
      simp only [transit, hstop, PoolStop.holding]
      omega
  | discard rest =>
    cases rest with
    | nil =>
      have hfates : s.fates .stop = [] := by simp [fates, hstop]
      simp only [hstop, Option.some.injEq] at h
      subst h
      rw [hfates]
      exact .frame (fun u => by simp [transit, hstop, PoolStop.holding]) (fun _ => rfl)
        (fun _ => rfl) fun _ => rfl
    | cons item rest =>
      have hfates : s.fates .stop = item.toList.map .discarded := by simp only [fates, hstop]
      simp only [hstop, Option.some.injEq] at h
      subst h
      rw [hfates]
      intro u
      cases item with
      | none => simp [transit, hstop, PoolStop.holding]
      | some task =>
        simp [transit, hstop, PoolStop.holding, List.count_cons]
        omega
  | awakeEveryoneForever =>
    have hfates : s.fates .stop = [] := by simp [fates, hstop]
    simp only [hstop, Option.some.injEq] at h
    subst h
    rw [hfates]
    refine .frame (fun u => ?_) (fun _ => rfl) (fun _ => rfl) fun _ => rfl
    rw [← s.transit_notifyAll u]
    have hnone : s.notifyAll.stop = .awakeEveryoneForever := hstop
    simp only [transit, hnone, PoolStop.holding]
  | join i =>
    have hfates : s.fates .stop = [] := by simp [fates, hstop]
    simp only [hstop] at h
    rw [hfates]
    refine .frame (fun u => ?_) (fun _ => rfl) (fun _ => rfl) fun _ => rfl
    split at h
    · split at h
      · simp only [Option.some.injEq] at h
        subst h
        simp [transit, hstop, PoolStop.holding]
      · cases h
    · simp only [Option.some.injEq] at h
      subst h
      simp [transit, hstop, PoolStop.holding]

theorem transit_goto_add {n : Nat} {O T : Type} [Fintype O] [DecidableEq T] (s : Pool n O T)
    (w : Fin n) (pc : Work n T) (u : T) :
    (s.goto w pc).transit u + (s.workers w).work.outgoing u = s.transit u + pc.outgoing u := by
  have hgoto := s.transit_goto_global w pc s.global u
  have hsame : (s.goto w pc).transit u =
    ({ s.goto w pc with global := s.global } : Pool n O T).transit u := rfl
  simp only at hgoto hsame
  omega

theorem Drains.carries {n : Nat} {O T : Type} [Fintype O] [DecidableEq O] [DecidableEq T]
    {s t : Pool n O T} {log : List (Event n T)} (hs : s.Drains log) {l : PoolLabel n O T}
    (h : s.step l = some t) : s.Carries t (s.events l) (s.fates l) := by
  cases l with
  | worker w c => exact hs.carries_workerStep h
  | execute w task hint =>
    cases hw : (s.workers w).work with
    | run running =>
      simp only [Pool.step, hw, Option.some.injEq] at h
      subst h
      cases hint with
      | slow =>
        intro u
        have hgoto := s.transit_goto_add w (.execute running (.start task .slow)) u
        have hfrom : (s.workers w).work.outgoing u = 0 := by rw [hw]; rfl
        have hto : (.execute running (.start task .slow) : Work n T).outgoing u =
          [task].count u := rfl
        have hpassed : [Fate.passed task].count (.passed u) = [task].count u := by
          simp [List.count_singleton]
        have hnone : [Fate.passed task].count (.ran u) = 0 ∧
            [Fate.passed task].count (.discarded u) = 0 := by simp
        simp only [Pool.events, Pool.fates, List.count_nil]
        omega
      | upToYou | next =>
        exact .frame (fun u => s.transit_goto (by rw [hw]; rfl) s.coordinator)
          (fun u => by simp [Pool.events, Pool.fates, List.count_singleton])
          (fun u => by simp [Pool.events, Pool.fates])
          (fun u => by simp [Pool.events, Pool.fates])
    | _ => simp [Pool.step, hw] at h
  | return_ w =>
    cases hw : (s.workers w).work with
    | run task =>
      simp only [Pool.step, hw, Option.some.injEq] at h
      subst h
      have hevents : s.events (.return_ w : PoolLabel n O T) = [.ran task] := by
        simp only [Pool.events, hw]
      have hfates : s.fates (.return_ w : PoolLabel n O T) = [.ran task] := by
        simp only [Pool.fates, hw]
      rw [hevents, hfates]
      exact .frame (fun u => s.transit_goto (by rw [hw]; rfl) s.coordinator) (fun u => by simp)
        (fun u => by simp [List.count_singleton]) fun u => by simp
    | _ => simp [Pool.step, hw] at h
  | throw w =>
    cases hw : (s.workers w).work with
    | run task =>
      simp only [Pool.step, hw, Option.some.injEq] at h
      subst h
      have hevents : s.events (.throw w : PoolLabel n O T) = [.ran task, .threw task] := by
        simp only [Pool.events, hw]
      have hfates : s.fates (.throw w : PoolLabel n O T) = [.ran task] := by
        simp only [Pool.fates, hw]
      rw [hevents, hfates]
      exact .frame (fun u => s.transit_goto (by rw [hw]; rfl) s.coordinator) (fun u => by simp)
        (fun u => by simp [List.count_cons]) fun u => by simp
    | _ => simp [Pool.step, hw] at h
  | spurious v =>
    simp only [Pool.step, Option.ite_none_right_eq_some, Option.some.injEq] at h
    obtain ⟨hv, rfl⟩ := h
    exact .frame (fun u => s.transit_goto (by rw [Worker.asleep_iff.mp hv]; rfl) s.coordinator)
      (fun _ => rfl) (fun _ => rfl) fun _ => rfl
  | submit o task =>
    cases ho : s.outside o <;> simp only [Pool.step, ho, reduceCtorEq, Option.some.injEq] at h
    subst h
    intro u
    have hcall := s.transit_call o (.pushOne task) u
    have hone : [Fate.passed task].count (.passed u) = [task].count u := by
      simp [List.count_singleton]
    rw [ho] at hcall
    simp only [OutsideCall.holding] at hcall
    simp only [Pool.events, Pool.fates, hone]
    simp
    omega
  | outside o woken => exact carries_outsideStep h
  | callWaitIdle =>
    cases hwait : s.waitIdle <;>
      simp only [Pool.step, hwait, reduceCtorEq, Option.some.injEq] at h
    subst h
    exact .frame (fun _ => rfl) (fun _ => rfl) (fun _ => rfl) fun _ => rfl
  | waitIdle =>
    cases hwait : s.waitIdle <;> simp only [Pool.step, waitIdleStep, hwait, reduceCtorEq,
      Option.ite_none_right_eq_some, Option.some.injEq] at h
    all_goals
      obtain ⟨-, rfl⟩ := h
      exact .frame (fun _ => rfl) (fun _ => rfl) (fun _ => rfl) fun _ => rfl
  | callStop =>
    cases hstop : s.stop <;>
      simp only [Pool.step, hstop, reduceCtorEq, Option.some.injEq] at h
    subst h
    exact .frame (fun u => by simp [transit, hstop, PoolStop.holding]) (fun _ => rfl)
      (fun _ => rfl) fun _ => rfl
  | stop => exact carries_stopStep h

theorem count_ledger {n : Nat} {O T : Type} [DecidableEq T] (s : Pool n O T)
    (l : PoolLabel n O T) {f : Fate T} (hf : ∀ u, f ≠ .late u) :
    (s.ledger l).count f = (s.fates l).count f := by
  have hnone : (if s.stop.drained then (s.pushed l).reduceOption.map .late else []).count f =
      0 := by
    refine List.count_eq_zero.mpr fun hmem => ?_
    split at hmem
    · obtain ⟨u, -, rfl⟩ := List.mem_map.mp hmem
      exact hf u rfl
    · cases hmem
  rw [Pool.ledger, List.count_append, hnone, Nat.add_zero]

/-- `Fate.late` keeps a count apart, as `Option.some` does. -/
theorem count_late {T : Type} [DecidableEq T] (items : List (Option T)) (u : T) :
    (items.reduceOption.map Fate.late).count (.late u) = items.count (some u) := by
  rw [List.count_map_of_injective _ _ (fun _ _ h => Fate.late.inj h)]
  induction items with
  | nil => rfl
  | cons item items ih =>
    cases item with
    | none => simpa using ih
    | some task => simp [List.reduceOption_cons_of_some, List.count_cons, ih]

/-- What a worker pushes comes into the global queue, and nothing else does. -/
theorem workerStep_pushed {n : Nat} {O T : Type} [DecidableEq T] {s t : Pool n O T} {w : Fin n}
    {c : Choice n T} (h : s.workerStep w c = some t) (u : Option T) :
    t.global.queue.count u ≤ s.global.queue.count u + (s.pushed (.worker w c)).count u := by
  have same {t : Pool n O T} (hglobal : t.global = s.global) : t.global.queue.count u ≤
      s.global.queue.count u + (s.pushed (.worker w c)).count u := by
    rw [hglobal]
    exact Nat.le_add_right _ _
  rcases workerStep_cases h with ⟨x, -, rfl⟩ | h | h | h
  · exact same rfl
  · cases globalStep_cases h with
    | grab hw h =>
      obtain ⟨global, items, hgrab, rfl⟩ := grab_eq h
      rw [(GlobalQueue.grab_queue hgrab).1, List.count_append]
      dsimp only
      omega
    | offloadLocked hw | pushOneLocked hw => simp [Pool.pushed, hw]
    | offloadClosed hw | offload hw | pushOneClosed hw | pushOne hw => exact same rfl
  · cases coordinatorStep_cases h with
    | awakeOne hw hu | prohibitParking hw hu => exact same (notifyOne_frame hu).2.2.2.1
    | allowParking hw | gaveUp hw | itself hw | victim hw | park hw | prohibited hw | notified hw
    | release hw => exact same rfl
  · cases stealStep_cases h with
    | lowSize hw | steal hw | grab hw => exact same rfl

theorem outsideStep_pushed {n : Nat} {O T : Type} [DecidableEq O] [DecidableEq T]
    {s t : Pool n O T} {o : O} {woken : Option (Fin n)} (h : s.outsideStep o woken = some t)
    (u : Option T) :
    t.global.queue.count u ≤ s.global.queue.count u + (s.pushed (.outside o woken)).count u := by
  cases ho : s.outside o with
  | idle => simp [outsideStep, ho] at h
  | pushOne task | discard task =>
    simp only [outsideStep, ho, Option.some.injEq] at h
    subst h
    exact Nat.le_add_right _ _
  | pushOneLocked task =>
    simp only [outsideStep, ho, Option.some.injEq] at h
    subst h
    simp [Pool.pushed, ho]
  | prohibitParking =>
    simp only [outsideStep, ho, prohibitParking, Option.map_eq_some_iff] at h
    obtain ⟨v, hv, rfl⟩ := h
    have hglobal : v.global = s.global := (notifyOne_frame hv).2.2.2.1
    simp only [call, hglobal]
    exact Nat.le_add_right _ _

/-- After its drain loop `Stop` is over with the global queue, and it leaves that
loop when it has found nothing there. -/
theorem stopStep_drained {n : Nat} {O T : Type} {s t : Pool n O T} (h : s.stopStep = some t)
    (ht : t.stop.drained = true) :
    s.stop.drained = true ∧ t.global = s.global ∨ t.global.queue = [] := by
  cases hstop : s.stop with
  | notCalled | returned => simp [stopStep, hstop] at h
  | stopWorkers i =>
    simp only [stopStep, hstop] at h
    split at h <;> obtain rfl := Option.some.inj h <;> simp [PoolStop.drained] at ht
  | storeClosed =>
    simp only [stopStep, hstop, Option.some.injEq] at h
    subst h
    simp [PoolStop.drained] at ht
  | drain =>
    simp only [stopStep, hstop] at h
    split at h
    · rename_i hempty
      obtain rfl := Option.some.inj h
      have htake : s.global.queue.take 256 = [] := congrArg Prod.snd hempty
      exact .inr (by simpa using htake)
    · obtain rfl := Option.some.inj h
      simp [PoolStop.drained] at ht
  | discard rest =>
    cases rest with
    | nil | cons =>
      simp only [stopStep, hstop, Option.some.injEq] at h
      subst h
      simp [PoolStop.drained] at ht
  | awakeEveryoneForever =>
    simp only [stopStep, hstop, Option.some.injEq] at h
    subst h
    exact .inl ⟨rfl, rfl⟩
  | join i =>
    simp only [stopStep, hstop] at h
    split at h
    · split at h
      · obtain rfl := Option.some.inj h
        exact .inl ⟨rfl, rfl⟩
      · cases h
    · obtain rfl := Option.some.inj h
      exact .inl ⟨rfl, rfl⟩

/-- What is in the global queue when `Stop` has left its drain loop was pushed since. -/
def Late {n : Nat} {O T : Type} [DecidableEq T] (s : Pool n O T) (log : List (Fate T)) : Prop :=
  s.stop.drained = true → ∀ u, s.global.queue.count (some u) ≤ log.count (.late u)

theorem late_init (n : Nat) (O T : Type) [DecidableEq O] [DecidableEq T] :
    (pool n O T).init.Late [] := by
  intro hdrained
  cases hdrained

/-- A step of anybody but `Stop`. -/
theorem Late.pushes {n : Nat} {O T : Type} [DecidableEq T] {s t : Pool n O T}
    {log : List (Fate T)} (hs : s.Late log) {l : PoolLabel n O T} (hstop : t.stop = s.stop)
    (hqueue : ∀ u, t.global.queue.count u ≤ s.global.queue.count u + (s.pushed l).count u) :
    t.Late (log ++ s.ledger l) := by
  intro hdrained u
  rw [hstop] at hdrained
  have hbefore := hs hdrained u
  have hafter := hqueue (some u)
  rw [ledger, if_pos hdrained, List.count_append, List.count_append, count_late]
  omega

theorem Late.step {n : Nat} {O T : Type} [DecidableEq O] [DecidableEq T] {s t : Pool n O T}
    {log : List (Fate T)} (hs : s.Late log) {l : PoolLabel n O T} (h : s.step l = some t) :
    t.Late (log ++ s.ledger l) := by
  have same {t : Pool n O T} (hstop : t.stop = s.stop) (hglobal : t.global = s.global) :
      t.Late (log ++ s.ledger l) :=
    hs.pushes hstop fun _ => hglobal ▸ Nat.le_add_right _ _
  cases l with
  | worker w c => exact hs.pushes (workerStep_stop h) (workerStep_pushed h)
  | outside o woken => exact hs.pushes (outsideStep_stop h) (outsideStep_pushed h)
  | execute w task hint | return_ w | throw w =>
    cases hw : (s.workers w).work <;>
      simp only [Pool.step, hw, reduceCtorEq, Option.some.injEq] at h
    subst h
    exact same rfl rfl
  | spurious w =>
    simp only [Pool.step, Option.ite_none_right_eq_some, Option.some.injEq] at h
    obtain ⟨-, rfl⟩ := h
    exact same rfl rfl
  | submit o task =>
    cases ho : s.outside o <;> simp only [Pool.step, ho, reduceCtorEq, Option.some.injEq] at h
    subst h
    exact same rfl rfl
  | callWaitIdle =>
    cases hwait : s.waitIdle <;>
      simp only [Pool.step, hwait, reduceCtorEq, Option.some.injEq] at h
    subst h
    exact same rfl rfl
  | waitIdle =>
    cases hwait : s.waitIdle <;> simp only [Pool.step, waitIdleStep, hwait, reduceCtorEq,
      Option.ite_none_right_eq_some, Option.some.injEq] at h
    all_goals
      obtain ⟨-, rfl⟩ := h
      exact same rfl rfl
  | callStop =>
    cases hstop : s.stop <;> simp only [Pool.step, hstop, reduceCtorEq, Option.some.injEq] at h
    subst h
    intro hdrained
    cases hdrained
  | stop =>
    intro hdrained u
    rw [List.count_append]
    rcases stopStep_drained h hdrained with ⟨hbefore, hglobal⟩ | hempty
    · rw [hglobal]
      exact Nat.le_add_right_of_le (hs hbefore u)
    · simp [hempty]

end Pool

/-- As long as no ring overflows, a task that `Execute` was called with has been run, has
been discarded or is held by the pool, and only once for every call. What a pool
holds when `Stop` and all calls have returned was pushed to the global queue after
`Stop` had found that empty. -/
theorem pool_keeps_every_task {n : Nat} {O T : Type} [Fintype O] [DecidableEq O] [DecidableEq T]
    {s : Pool n O T} {log : List (Fate T)}
    (h : (((pool n O T).guard Pool.withoutOverflow).observe Pool.ledger).Reachable (s, log)) :
    (∀ t, log.count (.passed t) =
      log.count (.ran t) + log.count (.discarded t) + s.held t) ∧
    (s.stop = .returned → (∀ w, (s.workers w).work = .exited) → (∀ o, s.outside o = .idle) →
      ∀ t, s.held t = s.global.queue.count (some t) ∧ s.held t ≤ log.count (.late t)) := by
  have hs : (∃ events, s.Drains events) ∧ s.Late log ∧ ∀ t, log.count (.passed t) =
      log.count (.ran t) + log.count (.discarded t) + s.held t := by
    refine h.invariant (I := fun x => (∃ events, x.1.Drains events) ∧ x.1.Late x.2 ∧
      ∀ t, x.2.count (.passed t) =
        x.2.count (.ran t) + x.2.count (.discarded t) + x.1.held t) ?_ ?_
    · refine ⟨⟨[], drainedPool_inv (s := ((pool n O T).init, [])) .init⟩,
        Pool.late_init n O T, fun t => ?_⟩
      simp [Machine.observe, pool, Pool.held, Pool.transit, GlobalQueue.new, tally,
        Worker.holding, Work.holding, Work.emptied, Worker.outgoing, Work.outgoing,
        OutsideCall.holding, PoolStop.holding]
    · rintro ⟨s, log⟩ l ⟨u, more⟩ - ⟨⟨events, hdrains⟩, hlate, hbalance⟩ hstep
      obtain ⟨hguard, rfl⟩ := Machine.observe_step hstep
      obtain ⟨hroom, hstep⟩ := Machine.guard_step.mp hguard
      have hafter := hdrains.step hroom hstep
      refine ⟨⟨_, hafter⟩, hlate.step hstep, fun t => ?_⟩
      -- the books of the workers and those of the transfer, of before and after
      have hbefore := hdrains.held t
      have hheld := hafter.held t
      have hcarries := hdrains.carries hstep t
      have hlog := hbalance t
      have hpassed := s.count_ledger l (f := .passed t) (by simp)
      have hran := s.count_ledger l (f := .ran t) (by simp)
      have hdiscarded := s.count_ledger l (f := .discarded t) (by simp)
      simp only [List.count_append, Pool.held] at hbefore hheld hcarries hlog ⊢
      omega
  obtain ⟨⟨events, hdrains⟩, hlate, hbalance⟩ := hs
  refine ⟨hbalance, fun hstop hexited hidle t => ?_⟩
  have hworkers : tally Finset.univ (Worker.holding t) s.workers = 0 :=
    tally_eq_zero.mpr fun w _ => by
      have hwork := (hdrains.workers w).work
      rw [hexited w] at hwork
      simp [Worker.holding, hexited w, show (s.workers w).localTasks = [] from hwork, Work.emptied,
        Work.holding]
  have houtgoing : tally Finset.univ (Worker.outgoing t) s.workers = 0 :=
    tally_eq_zero.mpr fun w _ => by simp [Worker.outgoing, hexited w, Work.outgoing]
  have houtside : tally Finset.univ (OutsideCall.holding t) s.outside = 0 :=
    tally_eq_zero.mpr fun o _ => by simp [hidle o, OutsideCall.holding]
  have hheld : s.held t = s.global.queue.count (some t) := by
    simp [Pool.held, Pool.transit, hworkers, houtgoing, houtside, hstop, PoolStop.holding]
  exact ⟨hheld, hheld.trans_le (hlate (by rw [hstop]; rfl) t)⟩

/-- One task is run, one is discarded by its worker and one by `Stop`, and one is
pushed after the drain. -/
theorem pool_keeps_every_task_late :
    ∃ (s : Pool 1 (Fin 1) Nat) (log : List (Fate Nat)),
      (((pool 1 (Fin 1) Nat).guard Pool.withoutOverflow).observe Pool.ledger).Reachable (s, log) ∧
      s.stop = .returned ∧ log.count (.ran 7) = 1 ∧ log.count (.discarded 8) = 1 ∧
      log.count (.discarded 6) = 1 ∧ s.global.queue = [some 9] ∧
      ∀ t, log.count (.passed t) = log.count (.ran t) + log.count (.discarded t) + s.held t ∧
        s.held t ≤ log.count (.late t) := by
  let c : Choice 1 Nat := ⟨none, 0, fun _ => none⟩
  obtain ⟨⟨s, log⟩, h, hs⟩ :=
    (((pool 1 (Fin 1) Nat).guard Pool.withoutOverflow).observe Pool.ledger).exists_reachable_of_exec
      (List.flatten [.submit 0 7 :: List.replicate 3 (.outside 0 none),
        List.replicate 4 (.worker 0 c), [.execute 0 8 .next, .worker 0 c],
        .submit 0 6 :: List.replicate 3 (.outside 0 none), [.submit 0 9, .outside 0 none,
          .callStop, .return_ 0], List.replicate 8 .stop, List.replicate 4 (.worker 0 c),
        [.stop, .stop], List.replicate 2 (.outside 0 none)])
      (p := fun s => decide (s.1.stop = .returned) && decide ((s.1.workers 0).work = .exited) &&
        decide (s.1.outside 0 = .idle) && decide (s.2.count (.ran 7) = 1) &&
        decide (s.2.count (.discarded 8) = 1) && decide (s.2.count (.discarded 6) = 1) &&
        decide (s.1.global.queue = [some 9]))
      (by decide +kernel)
  simp only [Bool.and_eq_true, decide_eq_true_eq] at hs
  obtain ⟨⟨⟨⟨⟨⟨hstop, hexited⟩, hidle⟩, hran⟩, hworker⟩, hcleared⟩, hqueue⟩ := hs
  have hexited (w : Fin 1) : (s.workers w).work = .exited := by
    rw [Subsingleton.elim w 0, hexited]
  have hidle (o : Fin 1) : s.outside o = .idle := by
    rw [Subsingleton.elim o 0, hidle]
  obtain ⟨hbalance, hleft⟩ := pool_keeps_every_task h
  exact ⟨s, log, h, hstop, hran, hworker, hcleared, hqueue, fun t =>
    ⟨hbalance t, (hleft hstop hexited hidle t).2⟩⟩

end ConcurrentProgramming.Fast
