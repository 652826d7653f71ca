import ConcurrentProgramming.Fast.PoolInvariant
import ConcurrentProgramming.Interleaving.Tally
import Mathlib.Data.List.ReduceOption

/-!
`ThreadPool::Stop` against the workers: what they have in their rings, in their
LIFO slots and in their hands is run or discarded, and nobody stays asleep.
-/

set_option autoImplicit false

namespace ConcurrentProgramming.Fast
open Interleaving

/-- What happens to the tasks of the workers. `entered` is a task that a worker
gets from the global queue or that is executed with a local hint; `discarded` is
a `Discard` of a task that was not run. -/
inductive Event (n : Nat) (T : Type) where
  | entered (task : T)
  | ran (task : T)
  | threw (task : T)
  | discardedRun (task : T)
  | discarded (task : T)
  | released (w : Fin n)
  deriving DecidableEq, Repr

def Worker.events {n : Nat} {T : Type} (x : Worker n T) (w : Fin n) : List (Event n T) :=
  match x.work with
  | .execute _ (.discard next) => [.discarded next]
  | .discardRun task => [.discardedRun task]
  | .release => [.released w]
  | .discardLifo => x.lifoSlot.toList.map .discarded
  | .discardDrained task => [.discarded task]
  | _ => []

def Pool.grabbed {n : Nat} {O T : Type} (s : Pool n O T) (w : Fin n) : List (Event n T) :=
  match (s.workers w).work, s.global.grab (kLocalQueueCapacity / 2) n with
  | .grab, some (_, items) | .grabAgain, some (_, items) => items.reduceOption.map .entered
  | _, _ => []

def Pool.events {n : Nat} {O T : Type} (s : Pool n O T) : PoolLabel n O T → List (Event n T)
  | .worker w _ => s.grabbed w ++ (s.workers w).events w
  | .execute _ _ .slow => []
  | .execute _ task _ => [.entered task]
  | .return_ w =>
    match (s.workers w).work with
    | .run task => [.ran task]
    | _ => []
  | .throw w =>
    match (s.workers w).work with
    | .run task => [.ran task, .threw task]
    | _ => []
  | _ => []

/-- A `TryPush` finds room in the ring. -/
def Pool.withoutOverflow {n : Nat} {O T : Type} (s : Pool n O T) : PoolLabel n O T → Bool
  | .worker w _ =>
    match (s.workers w).work with
    | .execute _ (.tryPush _) => (s.workers w).localTasks.length < kLocalQueueCapacity
    | _ => true
  | _ => true

def Execute.holding {T : Type} [DecidableEq T] (t : T) : Execute T → Nat
  | .pushToLifoSlot task | .pushToLocalQueue task | .tryPush task | .discard task
  | .grab task => [task].count t
  | _ => 0

def Work.holding {n : Nat} {T : Type} [DecidableEq T] (t : T) : Work n T → Nat
  | .pushGrabbed first rest | .pushStolen first rest => (first :: rest).count (some t)
  | .run task | .discardDrained task => [task].count t
  | .execute task e => [task].count t + e.holding t
  | _ => 0

/-- The slot is left as it is when its task is discarded. -/
def Work.emptied {n : Nat} {T : Type} : Work n T → Bool
  | .drain | .discardDrained _ | .exited => true
  | _ => false

/-- How often the worker has `t`: in its ring, in its slot, in a buffer of stolen
or grabbed tasks, in a call of `Execute`, or in the course of being run. -/
def Worker.holding {n : Nat} {T : Type} [DecidableEq T] (t : T) (x : Worker n T) : Nat :=
  x.localTasks.count (some t) +
    (if x.work.emptied then 0 else x.lifoSlot.toList.count t) + x.work.holding t

def Work.thrown {n : Nat} {T : Type} [DecidableEq T] (t : T) : Work n T → Nat
  | .discardRun task => [task].count t
  | _ => 0

def Worker.thrown {n : Nat} {T : Type} [DecidableEq T] (t : T) (x : Worker n T) : Nat :=
  x.work.thrown t

/-- Past `Release`. -/
def Work.gone {n : Nat} {T : Type} : Work n T → Bool
  | .discardLifo | .drain | .discardDrained _ | .exited => true
  | _ => false

def PoolStop.awoken {T : Type} : PoolStop T → Bool
  | .join _ | .returned => true
  | _ => false

/-- Without overflow no worker comes to offload, and none has a null pointer. -/
def Work.Settled {n : Nat} {T : Type} (localTasks : List (Option T)) : Work n T → Prop
  | .pushGrabbed first rest | .pushStolen first rest => first ≠ none ∧ Tasks rest
  | .execute _ (.grab _) | .execute _ (.offload _) | .execute _ (.offloadLocked _)
  | .execute _ (.discardOffloaded _) => False
  | .exited => localTasks = []
  | _ => True

structure Worker.Settled {n : Nat} {T : Type} (x : Worker n T) : Prop where
  tasks : Tasks x.localTasks
  work : x.work.Settled x.localTasks

/-- The tasks of a worker and the events of its step balance. -/
structure Worker.Balance {n : Nat} {T : Type} [DecidableEq T] (x y : Worker n T)
    (events : List (Event n T)) : Prop where
  held : ∀ t, x.holding t + events.count (.entered t) =
    y.holding t + events.count (.ran t) + events.count (.discarded t)
  thrown : ∀ t, x.thrown t + events.count (.threw t) = y.thrown t + events.count (.discardedRun t)

/-- A step of a worker that does not change its standing at the coordinator. -/
structure Worker.Onward {n : Nat} {T : Type} [DecidableEq T] (x y : Worker n T)
    (events : List (Event n T)) : Prop where
  settled : y.Settled
  balance : x.Balance y events
  linked : y.work.linked = x.work.linked
  gone : y.work.gone = x.work.gone
  awake : y.work ≠ .asleep
  unreleased : ∀ v, events.count (.released v) = 0

theorem Worker.Settled.goto {n : Nat} {T : Type} {x : Worker n T} (hx : x.Settled)
    {pc : Work n T} (hpc : pc.Settled x.localTasks) : (x.goto pc).Settled :=
  ⟨hx.tasks, hpc⟩

theorem Worker.Onward.quiet {n : Nat} {T : Type} [DecidableEq T] {x y : Worker n T}
    (hy : y.Settled) (hheld : ∀ t, x.holding t = y.holding t)
    (hthrown : ∀ t, x.thrown t = y.thrown t) (hlinked : y.work.linked = x.work.linked)
    (hgone : y.work.gone = x.work.gone) (hawake : y.work ≠ .asleep) : x.Onward y [] :=
  ⟨hy, ⟨fun t => by simp [hheld], fun t => by simp [hthrown]⟩, hlinked, hgone, hawake,
    fun _ => rfl⟩

/-- Only where the worker is changes, and its hands are as full as before. -/
theorem Worker.Onward.goto {n : Nat} {T : Type} [DecidableEq T] {x : Worker n T}
    {work pc : Work n T} (hx : x.Settled) (hw : x.work = work) (hpc : pc.Settled x.localTasks)
    (hheld : ∀ t, work.holding t = pc.holding t) (hemptied : work.emptied = pc.emptied)
    (hthrown : ∀ t, work.thrown t = pc.thrown t) (hlinked : pc.linked = work.linked)
    (hgone : pc.gone = work.gone) (hawake : pc ≠ .asleep) : x.Onward (x.goto pc) [] := by
  subst hw
  refine .quiet (hx.goto hpc) (fun t => ?_) (fun t => ?_) hlinked hgone hawake
  · cases hpc : pc.emptied <;> simp [Worker.holding, Worker.goto, hheld, hemptied, hpc]
  · exact hthrown t

/-- A step that discards one task out of the worker's hands. -/
theorem Worker.Onward.discard {n : Nat} {T : Type} [DecidableEq T] {x y : Worker n T} {task : T}
    (hy : y.Settled) (hheld : ∀ t, x.holding t = y.holding t + [task].count t)
    (hthrown : ∀ t, x.thrown t = y.thrown t) (hlinked : y.work.linked = x.work.linked)
    (hgone : y.work.gone = x.work.gone) (hawake : y.work ≠ .asleep) :
    x.Onward y [.discarded task] := by
  refine ⟨hy, ⟨fun t => ?_, fun t => by simp [hthrown]⟩, hlinked, hgone, hawake, fun _ => by simp⟩
  by_cases ht : task = t
  · simp [hheld, ht]
  · simp [hheld, ht]

/-- A batch of which the worker runs the first task. -/
theorem Worker.Settled.pushMany {n : Nat} {T : Type} [DecidableEq T] {x : Worker n T}
    (hx : x.Settled) {first : Option T} {rest : List (Option T)} {pc : Work n T}
    (hw : x.work = .pushGrabbed first rest ∨ x.work = .pushStolen first rest) : x.Onward
      { x with localTasks := x.localTasks ++ rest, work := Worker.picked pc first } [] := by
  have hbatch : first ≠ none ∧ Tasks rest := by
    have hwork := hx.work
    rcases hw with hw | hw
    · rwa [hw] at hwork
    · rwa [hw] at hwork
  obtain ⟨hfirst, hrest⟩ := hbatch
  obtain ⟨task, rfl⟩ := Option.ne_none_iff_exists'.mp hfirst
  refine .quiet ⟨hx.tasks.append hrest, trivial⟩ (fun t => ?_) (fun t => ?_) ?_ ?_ nofun
  · rcases hw with hw | hw
    all_goals
      simp only [Worker.holding, hw, Work.holding, Work.emptied, Worker.picked, List.count_append,
        List.count_cons, List.count_nil, beq_iff_eq, Option.some.injEq, Bool.false_eq_true, if_false]
      omega
  · rcases hw with hw | hw <;> simp [Worker.thrown, Work.thrown, hw, Worker.picked]
  · rcases hw with hw | hw <;> simp [hw, Worker.picked, Work.linked]
  · rcases hw with hw | hw <;> simp [hw, Worker.picked, Work.gone]

theorem Worker.Settled.localStep {n : Nat} {T : Type} [DecidableEq T] {x y : Worker n T}
    (hx : x.Settled) {w : Fin n} {impudence : Stealing} (hroom : ∀ task next,
      x.work = .execute task (.tryPush next) → x.localTasks.length < kLocalQueueCapacity)
    (h : x.localStep impudence = some y) : x.Onward y (x.events w) := by
  have hwork := hx.work
  have htasks := hx.tasks
  have hstep := Worker.localStep_cases h
  obtain ⟨work, localTasks, lifoSlot, lifoUsage, cycle, stopped⟩ := x
  cases hstep with
  | stopped hw | tenth hw | next hw | noLifo hw | ringEmpty hw | active hw | passive hw
  | lifoFilled hw | lifoEmpty hw | localQueue hw | offloadDiscarded hw | discardPushed hw =>
    obtain rfl := hw
    exact .quiet ⟨htasks, trivial⟩ (fun _ => rfl) (fun _ => rfl) rfl rfl nofun
  | drainedAll hw hlocal =>
    obtain rfl := hw
    exact .quiet ⟨htasks, hlocal⟩ (fun _ => rfl) (fun _ => rfl) rfl rfl nofun
  | refused hw hstopped =>
    obtain rfl | rfl := hw
    · exact .quiet ⟨htasks, trivial⟩ (fun _ => rfl) (fun _ => rfl) rfl rfl nofun
    · exact .quiet ⟨htasks, trivial⟩ (fun _ => rfl) (fun _ => rfl) rfl rfl nofun
  | pushMany hw hfits =>
    obtain ⟨rfl, rfl⟩ | ⟨rfl, rfl⟩ := hw
    · exact hx.pushMany (.inl rfl)
    · exact hx.pushMany (.inr rfl)
  -- a task changes hands inside the worker
  | lifoTask hw hslot =>
    obtain rfl := hw
    obtain rfl := hslot
    refine .quiet ⟨htasks, trivial⟩ (fun t => ?_) (fun _ => rfl) rfl rfl nofun
    simp [Worker.holding, Work.holding, Work.emptied]
  | popped hw hlocal =>
    obtain rfl := hw
    obtain rfl := hlocal
    obtain ⟨hans, hrest⟩ := htasks.of_cons
    obtain ⟨task, rfl⟩ := Option.ne_none_iff_exists'.mp hans
    refine .quiet ⟨hrest, trivial⟩ (fun t => ?_) (fun _ => rfl) rfl rfl nofun
    simp [Worker.holding, Work.holding, Work.emptied, Worker.picked, List.count_cons]
    omega
  | lifoSlot hw hrunning hslot =>
    obtain rfl := hw
    obtain rfl := hslot
    refine .quiet ⟨htasks, trivial⟩ (fun t => ?_) (fun _ => rfl) rfl rfl nofun
    simp [Worker.holding, Work.holding, Execute.holding, Work.emptied]
    omega
  | displaced hw hrunning hslot =>
    obtain rfl := hw
    obtain rfl := hslot
    refine .quiet ⟨htasks, trivial⟩ (fun t => ?_) (fun _ => rfl) rfl rfl nofun
    simp [Worker.holding, Work.holding, Execute.holding, Work.emptied]
    omega
  | @pushed task next hw hroom =>
    obtain rfl := hw
    refine .quiet ⟨htasks.append (.singleton next), trivial⟩ (fun t => ?_) (fun _ => rfl) rfl rfl
      nofun
    simp [Worker.holding, Work.holding, Execute.holding, Work.emptied, List.count_singleton]
    omega
  | drained hw hlocal =>
    obtain rfl := hw
    obtain rfl := hlocal
    refine .quiet ⟨htasks.of_cons.2, trivial⟩ (fun t => ?_) (fun _ => rfl) rfl rfl nofun
    simp [Worker.holding, Work.holding, Work.emptied, List.count_cons]
  -- a task is discarded
  | discard hw =>
    obtain rfl := hw
    exact .discard ⟨htasks, trivial⟩ (fun t => (Nat.add_assoc _ _ _).symm) (fun _ => rfl) rfl rfl
      nofun
  | discardDrained hw =>
    obtain rfl := hw
    exact .discard ⟨htasks, trivial⟩ (fun t => rfl) (fun _ => rfl) rfl rfl nofun
  | discardLifo hw =>
    obtain rfl := hw
    cases lifoSlot with
    | none => exact .quiet ⟨htasks, trivial⟩ (fun _ => rfl) (fun _ => rfl) rfl rfl nofun
    | some task =>
      exact .discard ⟨htasks, trivial⟩ (fun t => rfl) (fun _ => rfl) rfl rfl nofun
  | @discardRun task hw =>
    obtain rfl := hw
    refine ⟨⟨htasks, trivial⟩, ⟨fun t => by simp [Worker.events]; rfl, fun t => ?_⟩, rfl, rfl, nofun,
      fun v => by simp [Worker.events]⟩
    by_cases ht : task = t
    · simp [Worker.events, Worker.thrown, Work.thrown, Worker.goto, ht]
    · simp [Worker.events, Worker.thrown, Work.thrown, Worker.goto, ht]
  -- what does not happen without overflow
  | @full task next hw hfull =>
    exact absurd (hroom task next hw) hfull
  | discardOffloaded hw =>
    obtain rfl := hw
    exact hwork.elim
  | drainedNull hw hlocal =>
    obtain rfl := hlocal
    exact absurd rfl htasks.of_cons.1

namespace Pool

structure Drains {n : Nat} {O T : Type} [DecidableEq T] (s : Pool n O T)
    (log : List (Event n T)) : Prop where
  workers : ∀ w, (s.workers w).Settled
  global : Tasks s.global.queue
  linked : s.coordinator.Linked fun w => (s.workers w).work.linked = true
  awake : s.stop.awoken = true → s.coordinator.permission = .permanentlyProhibited ∧
    ∀ w, (s.workers w).work ≠ .asleep
  released : ∀ w, log.count (.released w) = if (s.workers w).work.gone then 1 else 0
  held : ∀ t, log.count (.entered t) =
    log.count (.ran t) + log.count (.discarded t) + tally Finset.univ (Worker.holding t) s.workers
  thrown : ∀ t, log.count (.threw t) =
    log.count (.discardedRun t) + tally Finset.univ (Worker.thrown t) s.workers

/-- One worker moves, together with its books. -/
theorem Drains.setWorker {n : Nat} {O T : Type} [DecidableEq T] {s : Pool n O T}
    {log events : List (Event n T)} (hs : s.Drains log) {w : Fin n} {y : Worker n T}
    {global : GlobalQueue (Option T)} {coordinator : Coordinator (Fin n)} (hy : y.Settled)
    (hbalance : (s.workers w).Balance y events) (hglobal : Tasks global.queue)
    (hlinked : coordinator.Linked fun v => (Function.update s.workers w y v).work.linked = true)
    (hawake : s.stop.awoken = true → coordinator.permission = .permanentlyProhibited ∧
      y.work ≠ .asleep)
    (hreleased : ∀ v, (if (s.workers v).work.gone then 1 else 0) + events.count (.released v) =
      if (Function.update s.workers w y v).work.gone then 1 else 0) :
    ({ s.setWorker w y with global := global, coordinator := coordinator }).Drains
      (log ++ events) := by
  refine ⟨fun v => ?_, hglobal, hlinked, fun hstop => ?_, fun v => ?_, fun t => ?_, fun t => ?_⟩
  · by_cases hv : v = w
    · subst hv
      simpa [Pool.setWorker] using hy
    · simpa [Pool.setWorker, hv] using hs.workers v
  · obtain ⟨hpermission, hw⟩ := hawake hstop
    refine ⟨hpermission, fun v => ?_⟩
    by_cases hv : v = w
    · subst hv
      simpa [Pool.setWorker] using hw
    · simpa [Pool.setWorker, hv] using (hs.awake hstop).2 v
  · rw [List.count_append, hs.released, hreleased]
    rfl
  · have hheld := hs.held t
    have hworker := hbalance.held t
    have htally := tally_update (Worker.holding t) s.workers (Finset.mem_univ w) y
    simp only [Pool.setWorker, List.count_append]
    omega
  · have hthrown := hs.thrown t
    have hworker := hbalance.thrown t
    have htally := tally_update (Worker.thrown t) s.workers (Finset.mem_univ w) y
    simp only [Pool.setWorker, List.count_append]
    omega

/-- One worker moves on without the coordinator. -/
theorem Drains.onward {n : Nat} {O T : Type} [DecidableEq T] {s : Pool n O T}
    {log events : List (Event n T)} (hs : s.Drains log) {w : Fin n} {y : Worker n T}
    {global : GlobalQueue (Option T)} {coordinator : Coordinator (Fin n)}
    (hy : (s.workers w).Onward y events) (hglobal : Tasks global.queue)
    (hlinked : coordinator.Linked fun v => (s.workers v).work.linked = true)
    (hpermission : s.coordinator.permission = .permanentlyProhibited →
      coordinator.permission = .permanentlyProhibited) :
    ({ s.setWorker w y with global := global, coordinator := coordinator }).Drains
      (log ++ events) := by
  apply hs.setWorker hy.settled hy.balance hglobal
  · apply hlinked.congr
    intro v
    by_cases hv : v = w
    · simp [hv, hy.linked]
    · simp [hv]
  · exact fun hstop => ⟨hpermission (hs.awake hstop).1, hy.awake⟩
  · intro v
    rw [hy.unreleased]
    by_cases hv : v = w
    · simp [hv, hy.gone]
    · simp [hv]

/-- A step without events that moves no tasks of a worker. -/
theorem Drains.goto {n : Nat} {O T : Type} [DecidableEq T] {s : Pool n O T}
    {log : List (Event n T)} (hs : s.Drains log) {w : Fin n} {pc : Work n T}
    (hy : (s.workers w).Onward ((s.workers w).goto pc) []) : (s.goto w pc).Drains log := by
  have h := hs.onward hy hs.global hs.linked id
  rwa [List.append_nil] at h

end Pool

theorem count_entered {n : Nat} {T : Type} [DecidableEq T] (items : List (Option T)) (t : T) :
    (items.reduceOption.map .entered : List (Event n T)).count (.entered t) =
      items.count (some t) := by
  rw [List.count_map_of_injective _ _ (fun _ _ h => Event.entered.inj h)]
  induction items with
  | nil => rfl
  | cons item items ih =>
    cases item with
    | none => simpa [List.reduceOption_cons_of_none] using ih
    | some task => simpa [List.reduceOption_cons_of_some, List.count_cons] using ih

theorem count_entered_other {n : Nat} {T : Type} [DecidableEq T] (items : List (Option T))
    {e : Event n T} (he : ∀ t, e ≠ .entered t) :
    (items.reduceOption.map .entered).count e = 0 := by
  rw [List.count_eq_zero]
  intro hmem
  obtain ⟨t, -, rfl⟩ := List.mem_map.mp hmem
  exact he t rfl

/-- Where a worker goes on with the batch `items`. -/
structure Work.Takes {n : Nat} {T : Type} [DecidableEq T] (pc : Work n T)
    (items : List (Option T)) : Prop where
  settled : ∀ localTasks, pc.Settled localTasks
  holding : ∀ t, pc.holding t = items.count (some t)
  thrown : ∀ t, pc.thrown t = 0
  linked : pc.linked = true
  gone : pc.gone = false
  emptied : pc.emptied = false
  awake : pc ≠ .asleep

/-- Linked and with empty hands. -/
def Work.idle {n : Nat} {T : Type} : Work n T → Bool
  | .pick | .awakeOne | .lifo | .tryPop | .grab | .allowParking | .grabAgain | .impudence
  | .giveVictim _ | .lowSize _ _ | .steal _ _ _ | .lifoCheck | .tryPark => true
  | _ => false

theorem Work.takes_nil {n : Nat} {T : Type} [DecidableEq T] {pc : Work n T}
    (h : pc.idle = true) : pc.Takes [] := by
  constructor <;> cases pc <;> simp_all [idle, Settled, holding, thrown, linked, gone, emptied]

theorem Work.takes_run {n : Nat} {T : Type} [DecidableEq T] (task : T) :
    (.run task : Work n T).Takes [some task] :=
  ⟨fun _ => trivial, fun t => by simp [Work.holding, List.count_cons], fun _ => rfl, rfl, rfl, rfl,
    nofun⟩

theorem Work.takes_grabbed {n : Nat} {T : Type} [DecidableEq T] {first : Option T}
    {rest : List (Option T)} (h : Tasks (first :: rest)) :
    (.pushGrabbed first rest : Work n T).Takes (first :: rest) :=
  ⟨fun _ => h.of_cons, fun _ => rfl, fun _ => rfl, rfl, rfl, rfl, nofun⟩

theorem Work.takes_stolen {n : Nat} {T : Type} [DecidableEq T] {first : Option T}
    {rest : List (Option T)} (h : Tasks (first :: rest)) :
    (.pushStolen first rest : Work n T).Takes (first :: rest) :=
  ⟨fun _ => h.of_cons, fun _ => rfl, fun _ => rfl, rfl, rfl, rfl, nofun⟩

namespace Pool

/-- Wherever a grab leads, its tasks are booked as entered. -/
theorem Drains.grab {n : Nat} {O T : Type} [DecidableEq T] {s t : Pool n O T}
    {log : List (Event n T)} (hs : s.Drains log) {w : Fin n} {pc : Work n T}
    (hw : (s.workers w).work = .grab ∨ (s.workers w).work = .grabAgain)
    (hpc : pc.Takes []) (h : s.grab w pc = some t) : t.Drains (log ++ s.grabbed w) := by
  obtain ⟨⟨global, items⟩, hgrab, rfl⟩ := Option.map_eq_some_iff.mp h
  have hevents : s.grabbed w = items.reduceOption.map .entered := by
    rcases hw with hw | hw <;> simp [Pool.grabbed, hw, hgrab]
  have hx := hs.workers w
  have hfrom : (s.workers w).work.Takes [] := by
    apply Work.takes_nil
    rcases hw with hw | hw <;> rw [hw] <;> rfl
  have htasks := hs.global
  rw [(GlobalQueue.grab_queue hgrab).1] at htasks
  obtain ⟨hitems, hrest⟩ := htasks.of_append
  have place (pc : Work n T) (hpc : pc.Takes items) :
      ({ s.goto w pc with global := global } : Pool n O T).Drains (log ++ s.grabbed w) := by
    rw [hevents]
    refine hs.onward ⟨hx.goto (hpc.settled _), ⟨fun u => ?_, fun u => ?_⟩,
      hpc.linked.trans hfrom.linked.symm, hpc.gone.trans hfrom.gone.symm, hpc.awake,
      fun v => count_entered_other items (by simp)⟩ hrest hs.linked id
    · rw [count_entered, count_entered_other items (e := .ran u) (by simp),
        count_entered_other items (e := .discarded u) (by simp)]
      simp [Worker.holding, Worker.goto, hpc.holding, hfrom.holding, hpc.emptied, hfrom.emptied]
    · rw [count_entered_other items (e := .threw u) (by simp),
        count_entered_other items (e := .discardedRun u) (by simp)]
      simp [Worker.thrown, Worker.goto, hpc.thrown, hfrom.thrown]
  rcases items with _ | ⟨first, _ | ⟨second, rest⟩⟩
  · exact place _ hpc
  · cases first with
    | none => exact (hitems none (by simp) rfl).elim
    | some task => exact place _ (Work.takes_run task)
  · exact place _ (Work.takes_grabbed hitems)

theorem onward_goto {n : Nat} {T : Type} [DecidableEq T] {x : Worker n T} (hx : x.Settled)
    {pc : Work n T} (hfrom : x.work.Takes []) (hpc : pc.Takes []) : x.Onward (x.goto pc) [] :=
  .goto hx rfl (hpc.settled _) (fun t => (hfrom.holding t).trans (hpc.holding t).symm)
    (hfrom.emptied.trans hpc.emptied.symm) (fun t => (hfrom.thrown t).trans (hpc.thrown t).symm)
    (hpc.linked.trans hfrom.linked.symm) (hpc.gone.trans hfrom.gone.symm) hpc.awake

theorem Drains.globalStep {n : Nat} {O T : Type} [DecidableEq T] {s t : Pool n O T}
    {log : List (Event n T)} (hs : s.Drains log) {w : Fin n} (h : s.globalStep w = some t) :
    t.Drains (log ++ (s.grabbed w ++ (s.workers w).events w)) := by
  have hx := hs.workers w
  have hwork := hx.work
  have same {task : T} {e e' : Execute T} (hw : (s.workers w).work = .execute task e)
      (he : ∀ t, e.holding t = e'.holding t)
      (hok : (Work.execute task e' : Work n T).Settled (s.workers w).localTasks) :
      (s.workers w).Onward ((s.workers w).goto (.execute task e')) [] :=
    .goto hx hw hok (fun t => congrArg ([task].count t + ·) (he t)) rfl (fun _ => rfl) rfl rfl
      nofun
  cases globalStep_cases h with
  | grab hw h =>
    obtain ⟨hw, rfl⟩ | ⟨hw, rfl⟩ := hw
    · simpa [Worker.events, hw] using hs.grab (.inl hw) (Work.takes_nil rfl) h
    · simpa [Worker.events, hw] using hs.grab (.inr hw) (Work.takes_nil rfl) h
  | offloadClosed hw | offload hw | offloadLocked hw =>
    rw [hw] at hwork
    exact hwork.elim
  | pushOneClosed hw | pushOne hw =>
    have hevents : s.grabbed w ++ (s.workers w).events w = [] := by
      simp [Pool.grabbed, Worker.events, hw]
    rw [hevents, List.append_nil]
    exact hs.goto (same hw (fun _ => rfl) trivial)
  | @pushOneLocked task next hw =>
    have hevents : s.grabbed w ++ (s.workers w).events w = [] := by
      simp [Pool.grabbed, Worker.events, hw]
    rw [hevents]
    exact hs.onward (same hw (fun _ => rfl) trivial) (hs.global.append (.singleton next)) hs.linked
      id

theorem Drains.notify {n : Nat} {O T : Type} [DecidableEq T] {s : Pool n O T}
    {log : List (Event n T)} (hs : s.Drains log) {v : Fin n} (hv : (s.workers v).work = .asleep) :
    (s.goto v .notified).Drains log :=
  hs.goto (.goto (hs.workers v) hv trivial (fun _ => rfl) rfl (fun _ => rfl) rfl rfl nofun)

theorem Drains.notifyOne {n : Nat} {O T : Type} [DecidableEq T] {s t : Pool n O T}
    {log : List (Event n T)} (hs : s.Drains log) {woken : Option (Fin n)}
    (h : s.notifyOne woken = some t) : t.Drains log := by
  rcases notifyOne_cases h with ⟨v, hv, rfl⟩ | ⟨-, rfl⟩
  · exact hs.notify hv
  · exact hs

/-- The permission changes and nothing else. -/
theorem Drains.permission {n : Nat} {O T : Type} [DecidableEq T] {s : Pool n O T}
    {log : List (Event n T)} (hs : s.Drains log) {coordinator : Coordinator (Fin n)}
    (hlinked : coordinator.Linked fun v => (s.workers v).work.linked = true)
    (hpermission : s.coordinator.permission = .permanentlyProhibited →
      coordinator.permission = .permanentlyProhibited) :
    ({ s with coordinator := coordinator } : Pool n O T).Drains log :=
  { hs with
    linked := hlinked
    awake := fun hstop => ⟨hpermission (hs.awake hstop).1, (hs.awake hstop).2⟩ }

theorem allowParking_permission {W : Type} (c : Coordinator W)
    (h : c.permission = .permanentlyProhibited) :
    c.allowParking.permission = .permanentlyProhibited := by
  simp [Coordinator.allowParking, h]

theorem prohibitParking_permission {W : Type} (c : Coordinator W)
    (h : c.permission = .permanentlyProhibited) :
    c.prohibitParking.permission = .permanentlyProhibited := by
  simp [Coordinator.prohibitParking, h]

/-- A worker that goes on after a notification. -/
theorem Drains.notifyOne_goto {n : Nat} {O T : Type} [DecidableEq T] {s u : Pool n O T}
    {log : List (Event n T)} (hs : s.Drains log) {w : Fin n} {woken : Option (Fin n)}
    {pc : Work n T} (hw : (s.workers w).work ≠ .asleep)
    (hpc : (s.workers w).Onward ((s.workers w).goto pc) [])
    (hu : s.notifyOne woken = some u) : (u.goto w pc).Drains log := by
  have hsame := (notifyOne_frame hu).2.2.2.2.2 w hw
  apply (hs.notifyOne hu).goto
  rwa [hsame]

/-- The section of `TryParkMe` that puts the worker to sleep. -/
theorem Drains.park {n : Nat} {O T : Type} [DecidableEq T] {s : Pool n O T}
    {log : List (Event n T)} (hs : s.Drains log) {w : Fin n} {coordinator : Coordinator (Fin n)}
    (hw : (s.workers w).work = .tryPark) (hallowed : s.coordinator.permission = .allowed)
    (hunlink : s.coordinator.unlink w = some coordinator) :
    ({ s.goto w .asleep with coordinator := coordinator } : Pool n O T).Drains log := by
  obtain ⟨hpermission, hlinked⟩ := hs.linked.unlink (by rw [hw]; rfl) hunlink
  rw [← List.append_nil log]
  refine hs.setWorker ((hs.workers w).goto trivial) ⟨fun t => ?_, fun t => ?_⟩ hs.global
    (hlinked.congr fun v => ?_) (fun hstop => ?_) fun v => ?_
  · simp [Worker.holding, Worker.goto, hw, Work.holding, Work.emptied]
  · simp [Worker.thrown, Worker.goto, hw, Work.thrown]
  · by_cases hv : v = w
    · simp [hv, Worker.goto, Work.linked]
    · simp [hv]
  · have := (hs.awake hstop).1
    rw [hallowed] at this
    cases this
  · by_cases hv : v = w
    · simp [hv, Worker.goto, hw, Work.gone]
    · simp [hv]

/-- `AcquireUnsafe` after the wait. -/
theorem Drains.acquire {n : Nat} {O T : Type} [DecidableEq T] {s : Pool n O T}
    {log : List (Event n T)} (hs : s.Drains log) {w : Fin n}
    (hw : (s.workers w).work = .notified) :
    ({ s.goto w .pick with coordinator := s.coordinator.acquireUnsafe w } : Pool n O T).Drains
      log := by
  have hlinked := hs.linked.acquireUnsafe (w := w) (by rw [hw]; simp [Work.linked])
  rw [← List.append_nil log]
  refine hs.setWorker ((hs.workers w).goto trivial) ⟨fun t => ?_, fun t => ?_⟩ hs.global
    (hlinked.congr fun v => ?_) (fun hstop => ⟨(hs.awake hstop).1, by simp [Worker.goto]⟩)
    fun v => ?_
  · simp [Worker.holding, Worker.goto, hw, Work.holding, Work.emptied]
  · simp [Worker.thrown, Worker.goto, hw, Work.thrown]
  · by_cases hv : v = w
    · simp [hv, Worker.goto, Work.linked]
    · simp [hv]
  · by_cases hv : v = w
    · simp [hv, Worker.goto, hw, Work.gone]
    · simp [hv]

theorem Drains.release {n : Nat} {O T : Type} [DecidableEq T] {s : Pool n O T}
    {log : List (Event n T)} (hs : s.Drains log) {w : Fin n} {coordinator : Coordinator (Fin n)}
    (hw : (s.workers w).work = .release)
    (hrelease : s.coordinator.release w = some coordinator) :
    ({ s.goto w (if (s.workers w).lifoSlot.isSome then .discardLifo else .drain) with
      coordinator := coordinator } : Pool n O T).Drains (log ++ [.released w]) := by
  obtain ⟨hpermission, hlinked⟩ := hs.linked.release (by rw [hw]; rfl) hrelease
  have leave (pc : Work n T) (hpc : pc = .discardLifo ∨
      pc = .drain ∧ (s.workers w).lifoSlot = none) :
      ({ s.goto w pc with coordinator := coordinator } : Pool n O T).Drains
        (log ++ [.released w]) := by
    refine hs.setWorker ((hs.workers w).goto ?_) ⟨fun t => ?_, fun t => ?_⟩ hs.global
      (hlinked.congr fun v => ?_) (fun hstop => ⟨hpermission.trans (hs.awake hstop).1, ?_⟩)
      fun v => ?_
    · rcases hpc with rfl | ⟨rfl, -⟩ <;> trivial
    · rcases hpc with rfl | ⟨rfl, hslot⟩
      · simp [Worker.holding, Worker.goto, hw, Work.holding, Work.emptied]
      · simp [Worker.holding, Worker.goto, hw, Work.holding, Work.emptied, hslot]
    · rcases hpc with rfl | ⟨rfl, -⟩ <;> simp [Worker.thrown, Worker.goto, hw, Work.thrown]
    · by_cases hv : v = w
      · rcases hpc with rfl | ⟨rfl, -⟩ <;> simp [hv, Worker.goto, Work.linked]
      · simp [hv]
    · rcases hpc with rfl | ⟨rfl, -⟩ <;> simp [Worker.goto]
    · by_cases hv : v = w
      · rcases hpc with rfl | ⟨rfl, -⟩ <;> simp [hv, Worker.goto, hw, Work.gone]
      · simp [hv, Ne.symm hv]
  split
  · exact leave _ (.inl rfl)
  · rename_i hslot
    exact leave _ (.inr ⟨rfl, by simpa using hslot⟩)

/-- The next step of the worker does nothing to a task. -/
def silent {n : Nat} {O T : Type} (s : Pool n O T) (w : Fin n) : Bool :=
  match (s.workers w).work with
  | .awakeOne | .giveVictim _ | .lowSize _ _ | .steal _ _ _ | .tryPark | .notified => true
  | .execute _ .awakeOne | .execute _ .prohibitParking => true
  | _ => false

theorem events_silent {n : Nat} {O T : Type} {s : Pool n O T} {w : Fin n}
    (h : s.silent w = true) (log : List (Event n T)) :
    log ++ (s.grabbed w ++ (s.workers w).events w) = log := by
  have hevents : s.grabbed w ++ (s.workers w).events w = [] := by
    cases hw : (s.workers w).work with
    | awakeOne | giveVictim _ | lowSize _ _ | steal _ _ _ | tryPark | notified =>
      simp [Pool.grabbed, Worker.events, hw]
    | execute task e =>
      cases e <;> simp_all [Pool.grabbed, Worker.events, silent]
    | _ => simp [hw, silent] at h
  rw [hevents, List.append_nil]

theorem Drains.coordinatorStep {n : Nat} {O T : Type} [DecidableEq T] {s t : Pool n O T}
    {log : List (Event n T)} (hs : s.Drains log) {w : Fin n} {c : Choice n T}
    (h : s.coordinatorStep w c = some t) :
    t.Drains (log ++ (s.grabbed w ++ (s.workers w).events w)) := by
  have hx := hs.workers w
  have onward {pc : Work n T} (hfrom : (s.workers w).work.idle = true) (hpc : pc.idle = true) :
      (s.workers w).Onward ((s.workers w).goto pc) [] :=
    onward_goto hx (Work.takes_nil hfrom) (Work.takes_nil hpc)
  have back {task : T} {e : Execute T} (hw : (s.workers w).work = .execute task e)
      (he : ∀ t, e.holding t = 0) :
      (s.workers w).Onward ((s.workers w).goto (.run task)) [] :=
    .goto hx hw trivial (fun t => by simp [Work.holding, he]) rfl (fun _ => rfl) rfl rfl nofun
  cases coordinatorStep_cases h with
  | awakeOne hw hu =>
    obtain ⟨hw, rfl⟩ | ⟨task, hw, rfl⟩ := hw
    · rw [events_silent (by simp [silent, hw])]
      exact hs.notifyOne_goto (by simp [hw]) (onward (by rw [hw]; rfl) rfl) hu
    · rw [events_silent (by simp [silent, hw])]
      exact hs.notifyOne_goto (by simp [hw]) (back hw fun _ => rfl) hu
  | allowParking hw =>
    have hevents : s.grabbed w ++ (s.workers w).events w = [] := by
      simp [Pool.grabbed, Worker.events, hw]
    rw [hevents]
    exact hs.onward (onward (by rw [hw]; rfl) rfl) hs.global (allowParking_linked hs.linked)
      (allowParking_permission _)
  | gaveUp hw | itself hw | victim hw | prohibited hw =>
    rw [events_silent (by simp [silent, hw])]
    exact hs.goto (onward (by rw [hw]; rfl) rfl)
  | park hw hallowed hunlink =>
    rw [events_silent (by simp [silent, hw])]
    exact hs.park hw hallowed hunlink
  | notified hw =>
    rw [events_silent (by simp [silent, hw])]
    exact hs.acquire hw
  | prohibitParking hw hu =>
    rw [events_silent (by simp [silent, hw])]
    exact (hs.permission (prohibitParking_linked hs.linked)
      (prohibitParking_permission _)).notifyOne_goto (by simp [hw]) (back hw fun _ => rfl) hu
  | release hw hrelease =>
    have hevents : s.grabbed w ++ (s.workers w).events w = [.released w] := by
      simp [Pool.grabbed, Worker.events, hw]
    rw [hevents]
    exact hs.release hw hrelease

/-- A thief takes the first tasks of a ring, which may be its own, into a buffer. -/
theorem Drains.steal {n : Nat} {O T : Type} [DecidableEq T] {s : Pool n O T}
    {log : List (Event n T)} (hs : s.Drains log) {v w : Fin n} {limit : Nat} {pc : Work n T}
    (hfrom : (s.workers w).work.Takes [])
    (hpc : pc.Takes ((s.workers v).localTasks.take limit)) :
    ((s.setWorker v { s.workers v with
      localTasks := (s.workers v).localTasks.drop limit }).goto w pc).Drains log := by
  let robbed : Worker n T := { s.workers v with localTasks := (s.workers v).localTasks.drop limit }
  have hrobbed : robbed.Settled := by
    refine ⟨(hs.workers v).tasks.drop _, ?_⟩
    have hwork := (hs.workers v).work
    cases hv : (s.workers v).work with
    | execute task e => cases e <;> simp_all [Work.Settled]
    | _ => simp_all [robbed, Work.Settled]
  let workers := Function.update s.workers v robbed
  have hwork (x : Fin n) : (workers x).work = (s.workers x).work := by
    by_cases hx : x = v
    · simp [workers, hx, robbed]
    · simp [workers, hx]
  have hthief : (workers w).Settled := by
    by_cases hwv : w = v
    · simpa [workers, hwv] using hrobbed
    · simpa [workers, hwv] using hs.workers w
  have hfrom : (workers w).work.Takes [] := by rwa [hwork]
  have hsame (x : Fin n) (hx : x ≠ w) :
      (Function.update workers w ((workers w).goto pc) x).work = (s.workers x).work := by
    rw [Function.update_of_ne hx, hwork]
  refine ⟨fun x => ?_, hs.global, hs.linked.congr fun x => ?_, fun hstop => ?_, fun x => ?_,
    fun t => ?_, fun t => ?_⟩
  · show (Function.update workers w ((workers w).goto pc) x).Settled
    by_cases hx : x = w
    · simpa [hx] using hthief.goto (hpc.settled _)
    · rw [Function.update_of_ne hx]
      by_cases hxv : x = v
      · simpa [workers, hxv] using hrobbed
      · simpa [workers, hxv] using hs.workers x
  · show (Function.update workers w ((workers w).goto pc) x).work.linked = true ↔ _
    by_cases hx : x = w
    · have hlinked := hfrom.linked
      rw [hwork] at hlinked
      simp [hx, Worker.goto, hpc.linked, hlinked]
    · rw [hsame x hx]
  · obtain ⟨hpermission, hawake⟩ := hs.awake hstop
    refine ⟨hpermission, fun x => ?_⟩
    show (Function.update workers w ((workers w).goto pc) x).work ≠ .asleep
    by_cases hx : x = w
    · simpa [hx, Worker.goto] using hpc.awake
    · rw [hsame x hx]
      exact hawake x
  · show _ = if (Function.update workers w ((workers w).goto pc) x).work.gone then 1 else 0
    by_cases hx : x = w
    · have hgone := hfrom.gone
      rw [hwork] at hgone
      simp [hs.released, hx, Worker.goto, hpc.gone, hgone]
    · rw [hsame x hx, hs.released]
  · -- what the ring loses is what the buffer gets
    have hheld := hs.held t
    have hvictim := tally_update (Worker.holding t) s.workers (Finset.mem_univ v) robbed
    have hthief := tally_update (Worker.holding t) workers (Finset.mem_univ w) ((workers w).goto pc)
    have hlost : (s.workers v).holding t =
        robbed.holding t + ((s.workers v).localTasks.take limit).count (some t) := by
      have hsplit := congrArg (List.count (some t))
        (List.take_append_drop limit (s.workers v).localTasks)
      rw [List.count_append] at hsplit
      simp only [Worker.holding, robbed]
      omega
    have hgot : ((workers w).goto pc).holding t =
        (workers w).holding t + ((s.workers v).localTasks.take limit).count (some t) := by
      simp [Worker.holding, Worker.goto, hpc.holding, hpc.emptied, hfrom.holding, hfrom.emptied]
    change _ = _ + tally Finset.univ (Worker.holding t)
      (Function.update workers w ((workers w).goto pc))
    change tally Finset.univ (Worker.holding t) workers + _ = _ at hvictim
    omega
  · have hthrown := hs.thrown t
    have hvictim := tally_update_of_eq (s := Finset.univ) (Worker.thrown t) s.workers
      (show robbed.thrown t = (s.workers v).thrown t from rfl)
    have hthief := tally_update_of_eq (s := Finset.univ) (Worker.thrown t) workers
      (show ((workers w).goto pc).thrown t = (workers w).thrown t by
        simp [Worker.thrown, Worker.goto, hpc.thrown, hfrom.thrown])
    change _ = _ + tally Finset.univ (Worker.thrown t)
      (Function.update workers w ((workers w).goto pc))
    rw [hthief, hvictim]
    exact hthrown

theorem Drains.stealStep {n : Nat} {O T : Type} [DecidableEq T] {s t : Pool n O T}
    {log : List (Event n T)} (hs : s.Drains log) {w : Fin n} {c : Choice n T}
    (h : s.stealStep w c = some t) :
    t.Drains (log ++ (s.grabbed w ++ (s.workers w).events w)) := by
  have hx := hs.workers w
  cases stealStep_cases h with
  | lowSize hw =>
    rw [events_silent (by simp [silent, hw])]
    exact hs.goto (onward_goto hx (Work.takes_nil (by rw [hw]; rfl)) (Work.takes_nil rfl))
  | @steal remaining victim limit hw =>
    rw [events_silent (by simp [silent, hw])]
    have hfrom : (s.workers w).work.Takes [] := Work.takes_nil (by rw [hw]; rfl)
    have htaken := (hs.workers victim).tasks.take limit
    have place (pc : Work n T) (hpc : pc.Takes ((s.workers victim).localTasks.take limit)) :=
      hs.steal (v := victim) (w := w) hfrom hpc
    generalize (s.workers victim).localTasks.take limit = taken at htaken place ⊢
    match taken, htaken, place with
    | [], _, place => exact place _ (Work.takes_nil rfl)
    | [some task], _, place => exact place _ (Work.takes_run task)
    | [none], htaken, _ => exact (htaken none (by simp) rfl).elim
    | first :: second :: rest, htaken, place => exact place _ (Work.takes_stolen htaken)
  | grab hw =>
    have hwork := hx.work
    rw [hw] at hwork
    exact hwork.elim

theorem Drains.workerStep {n : Nat} {O T : Type} [DecidableEq T] {s t : Pool n O T}
    {log : List (Event n T)} (hs : s.Drains log) {w : Fin n} {c : Choice n T}
    (hroom : s.withoutOverflow (.worker w c : PoolLabel n O T) = true)
    (h : s.workerStep w c = some t) :
    t.Drains (log ++ (s.grabbed w ++ (s.workers w).events w)) := by
  obtain ⟨x, hx, rfl⟩ | h | h | h := workerStep_cases h
  · have honward := (hs.workers w).localStep (w := w) (fun task next hw => by
      simpa [Pool.withoutOverflow, hw] using hroom) hx
    have hgrabbed : s.grabbed w = [] := by
      unfold Pool.grabbed
      split
      · rename_i hw _
        simp [Worker.localStep, hw] at hx
      · rename_i hw _
        simp [Worker.localStep, hw] at hx
      · rfl
    rw [hgrabbed]
    exact hs.onward honward hs.global hs.linked id
  · exact hs.globalStep h
  · exact hs.coordinatorStep h
  · exact hs.stealStep h

theorem Drains.outsideStep {n : Nat} {O T : Type} [DecidableEq O] [DecidableEq T]
    {s t : Pool n O T} {log : List (Event n T)} (hs : s.Drains log) {o : O}
    {woken : Option (Fin n)} (h : s.outsideStep o woken = some t) : t.Drains log := by
  unfold Pool.outsideStep at h
  have called {u : Pool n O T} (hu : u.Drains log) (pc : OutsideCall T) :
      (u.call o pc).Drains log := { hu with }
  cases ho : s.outside o with
  | idle => simp [ho] at h
  | pushOne task | discard task =>
    simp only [ho, Option.some.injEq] at h
    subst h
    exact called hs _
  | pushOneLocked task =>
    simp only [ho, Option.some.injEq] at h
    subst h
    exact { hs with global := hs.global.append (.singleton task) }
  | prohibitParking =>
    simp only [ho] at h
    obtain ⟨u, hu, rfl⟩ := Option.map_eq_some_iff.mp h
    have hprohibited := hs.permission (prohibitParking_linked hs.linked)
      (prohibitParking_permission _)
    exact called (hprohibited.notifyOne hu) _

theorem notifyAll_worker {n : Nat} {O T : Type} (s : Pool n O T) (v : Fin n) :
    (s.workers v).work = .asleep ∧ s.notifyAll.workers v = (s.workers v).goto .notified ∨
      (s.workers v).work ≠ .asleep ∧ s.notifyAll.workers v = s.workers v := by
  unfold notifyAll
  by_cases hv : (s.workers v).asleep = true
  · exact .inl ⟨Worker.asleep_iff.mp hv, by simp [hv]⟩
  · exact .inr ⟨fun h => hv (Worker.asleep_iff.mpr h), by simp [hv]⟩

/-- The section of `AwakeEveryoneForever`. -/
theorem Drains.awakeEveryoneForever {n : Nat} {O T : Type} [DecidableEq T] {s : Pool n O T}
    {log : List (Event n T)} (hs : s.Drains log) {stop : PoolStop T} :
    ({ s.notifyAll with
      coordinator := s.coordinator.awakeEveryoneForever, stop := stop }).Drains log := by
  have same {α : Type} (f : Worker n T → α) (hf : ∀ x : Worker n T, x.work = .asleep →
      f (x.goto .notified) = f x) (v : Fin n) : f (s.notifyAll.workers v) = f (s.workers v) := by
    rcases s.notifyAll_worker v with ⟨hv, heq⟩ | ⟨-, heq⟩
    · rw [heq, hf _ hv]
    · rw [heq]
  refine ⟨fun v => ?_, hs.global, ?_, fun _ => ⟨rfl, fun v => ?_⟩, fun v => ?_, fun t => ?_,
    fun t => ?_⟩
  · rcases s.notifyAll_worker v with ⟨hv, heq⟩ | ⟨-, heq⟩
    · show (s.notifyAll.workers v).Settled
      rw [heq]
      exact (hs.workers v).goto trivial
    · show (s.notifyAll.workers v).Settled
      rw [heq]
      exact hs.workers v
  · have hlinked : s.coordinator.awakeEveryoneForever.Linked
        fun v => (s.workers v).work.linked = true :=
      ⟨hs.linked.nodup, hs.linked.mem, hs.linked.counter⟩
    apply hlinked.congr
    intro v
    rw [same (fun x => x.work.linked = true) fun x hx => by simp [hx, Worker.goto, Work.linked]]
  · rcases s.notifyAll_worker v with ⟨-, heq⟩ | ⟨hv, heq⟩
    · show (s.notifyAll.workers v).work ≠ .asleep
      rw [heq]
      simp [Worker.goto]
    · show (s.notifyAll.workers v).work ≠ .asleep
      rwa [heq]
  · have hgone := same (fun x => x.work.gone) (fun x hx => by simp [hx, Worker.goto, Work.gone]) v
    show _ = if (s.notifyAll.workers v).work.gone then 1 else 0
    rw [hgone, hs.released]
  · have hheld : tally Finset.univ (Worker.holding t) s.notifyAll.workers =
        tally Finset.univ (Worker.holding t) s.workers :=
      Finset.sum_congr rfl fun v _ => same (Worker.holding t) (fun x hx => by
        simp [Worker.holding, Worker.goto, hx, Work.holding, Work.emptied]) v
    exact hheld ▸ hs.held t
  · have hthrown : tally Finset.univ (Worker.thrown t) s.notifyAll.workers =
        tally Finset.univ (Worker.thrown t) s.workers :=
      Finset.sum_congr rfl fun v _ => same (Worker.thrown t) (fun x hx => by
        simp [Worker.thrown, Worker.goto, hx, Work.thrown]) v
    exact hthrown ▸ hs.thrown t

theorem Drains.stopStep {n : Nat} {O T : Type} [DecidableEq T] {s t : Pool n O T}
    {log : List (Event n T)} (hs : s.Drains log) (h : s.stopStep = some t) : t.Drains log := by
  unfold Pool.stopStep at h
  cases hstop : s.stop with
  | notCalled | returned => simp [hstop] at h
  | stopWorkers i =>
    simp only [hstop] at h
    split at h
    · rename_i hi
      simp only [Option.some.injEq] at h
      subst h
      have hx := hs.workers ⟨i, hi⟩
      have hset : (s.setWorker ⟨i, hi⟩ { s.workers ⟨i, hi⟩ with stopped := true }).Drains
          (log ++ []) := by
        refine hs.setWorker ⟨hx.tasks, hx.work⟩ ⟨fun _ => rfl, fun _ => rfl⟩ hs.global
          (hs.linked.congr fun v => ?_) (by simp [hstop, PoolStop.awoken]) fun v => ?_
        · by_cases hv : v = ⟨i, hi⟩
          · simp [hv]
          · simp [hv]
        · by_cases hv : v = ⟨i, hi⟩
          · simp [hv]
          · simp [hv]
      rw [List.append_nil] at hset
      exact { hset with awake := nofun }
    · simp only [Option.some.injEq] at h
      subst h
      exact { hs with awake := nofun }
  | storeClosed =>
    simp only [hstop, Option.some.injEq] at h
    subst h
    exact { hs with awake := nofun }
  | drain =>
    simp only [hstop, GlobalQueue.drain] at h
    split at h
    · simp only [Option.some.injEq] at h
      subst h
      exact { hs with awake := fun hstop => absurd hstop (by simp [PoolStop.awoken]) }
    · rename_i global items _ hdrain
      obtain ⟨rfl, rfl⟩ := Prod.mk.inj hdrain
      simp only [Option.some.injEq] at h
      subst h
      exact { hs with global := hs.global.drop 256, awake := nofun }
  | discard rest =>
    cases rest with
    | nil =>
      simp only [hstop, Option.some.injEq] at h
      subst h
      exact { hs with awake := nofun }
    | cons item rest =>
      simp only [hstop, Option.some.injEq] at h
      subst h
      exact { hs with awake := nofun }
  | awakeEveryoneForever =>
    simp only [hstop, Option.some.injEq] at h
    subst h
    exact hs.awakeEveryoneForever
  | join i =>
    have hawake := hs.awake (by rw [hstop]; rfl)
    simp only [hstop] at h
    split at h
    · split at h
      · simp only [Option.some.injEq] at h
        subst h
        exact { hs with awake := fun _ => hawake }
      · cases h
    · simp only [Option.some.injEq] at h
      subst h
      exact { hs with awake := fun _ => hawake }

/-- The code of a task goes on: it calls `Execute`, returns or throws. -/
theorem Drains.task {n : Nat} {O T : Type} [DecidableEq T] {s : Pool n O T}
    {log events : List (Event n T)} (hs : s.Drains log) {w : Fin n} {task : T} {pc : Work n T}
    (hw : (s.workers w).work = .run task) (hpc : pc.Settled (s.workers w).localTasks)
    (hstanding : pc.linked = true ∧ pc.gone = false ∧ pc.emptied = false) (hawake : pc ≠ .asleep)
    (hheld : ∀ t, [task].count t + events.count (.entered t) =
      pc.holding t + events.count (.ran t) + events.count (.discarded t))
    (hthrown : ∀ t, events.count (.threw t) = pc.thrown t + events.count (.discardedRun t))
    (hunreleased : ∀ v, events.count (.released v) = 0) :
    (s.goto w pc).Drains (log ++ events) := by
  obtain ⟨hlinked, hgone, hemptied⟩ := hstanding
  have hfrom : (s.workers w).work.Takes [some task] := hw ▸ Work.takes_run task
  refine hs.onward ⟨(hs.workers w).goto hpc, ⟨fun t => ?_, fun t => ?_⟩,
    hlinked.trans hfrom.linked.symm, hgone.trans hfrom.gone.symm, hawake, hunreleased⟩
    hs.global hs.linked id
  · have hbalance := hheld t
    have hrun : [some task].count (some t) = [task].count t := by simp [List.count_cons]
    simp only [Worker.holding, Worker.goto, hfrom.holding, hfrom.emptied, hemptied, hrun]
    omega
  · simpa [Worker.thrown, Worker.goto, hfrom.thrown] using hthrown t

theorem Drains.step {n : Nat} {O T : Type} [DecidableEq O] [DecidableEq T] {s t : Pool n O T}
    {log : List (Event n T)} (hs : s.Drains log) {l : PoolLabel n O T}
    (hroom : s.withoutOverflow l = true) (h : s.step l = some t) :
    t.Drains (log ++ s.events l) := by
  cases l with
  | worker w c => exact hs.workerStep hroom h
  | execute w task hint =>
    cases hw : (s.workers w).work <;>
      simp only [Pool.step, hw, reduceCtorEq, Option.some.injEq] at h
    subst h
    cases hint with
    | slow =>
      exact hs.task hw trivial ⟨rfl, rfl, rfl⟩ nofun (fun t => by simp [Pool.events]; rfl)
        (fun _ => rfl) fun _ => rfl
    | upToYou | next =>
      refine hs.task hw trivial ⟨rfl, rfl, rfl⟩ nofun (fun t => ?_) (fun t => by simp [Pool.events]; rfl)
        fun _ => by simp [Pool.events]
      simp [Pool.events, Work.holding, Execute.holding, Execute.start, List.count_singleton]
  | return_ w =>
    cases hw : (s.workers w).work with
    | run task =>
      simp only [Pool.step, hw, Option.some.injEq] at h
      subst h
      have hevents : s.events (.return_ w : PoolLabel n O T) = [.ran task] := by
        simp only [Pool.events, hw]
      rw [hevents]
      refine hs.task hw trivial ⟨rfl, rfl, rfl⟩ nofun (fun t => ?_) (fun t => by simp; rfl)
        fun _ => by simp
      simp [Work.holding, List.count_singleton]
    | _ => simp [Pool.step, hw] at h
  | throw w =>
    cases hw : (s.workers w).work with
    | run task =>
      simp only [Pool.step, hw, Option.some.injEq] at h
      subst h
      have hevents : s.events (.throw w : PoolLabel n O T) = [.ran task, .threw task] := by
        simp only [Pool.events, hw]
      rw [hevents]
      refine hs.task hw trivial ⟨rfl, rfl, rfl⟩ nofun (fun t => ?_) (fun t => ?_) fun _ => by simp
      · simp [Work.holding, List.count_cons]
      · simp [Work.thrown, List.count_cons]
    | _ => simp [Pool.step, hw] at h
  | spurious v =>
    simp only [Pool.step, Option.ite_none_right_eq_some, Option.some.injEq] at h
    obtain ⟨hv, rfl⟩ := h
    simpa [Pool.events] using hs.notify (Worker.asleep_iff.mp hv)
  | submit o task =>
    cases ho : s.outside o <;> simp only [Pool.step, ho, reduceCtorEq, Option.some.injEq] at h
    subst h
    simpa [Pool.events] using ({ hs with } : (s.call o (.pushOne task)).Drains log)
  | outside o woken => simpa [Pool.events] using hs.outsideStep h
  | callWaitIdle =>
    cases hwait : s.waitIdle <;>
      simp only [Pool.step, hwait, reduceCtorEq, Option.some.injEq] at h
    subst h
    simpa [Pool.events] using ({ hs with } : ({ s with waitIdle := .globalTasks }).Drains log)
  | waitIdle =>
    cases hwait : s.waitIdle <;> simp only [Pool.step, waitIdleStep, hwait, reduceCtorEq,
      Option.ite_none_right_eq_some, Option.some.injEq] at h
    · obtain ⟨-, rfl⟩ := h
      simpa [Pool.events] using ({ hs with } : ({ s with waitIdle := .coordinator }).Drains log)
    · obtain ⟨-, rfl⟩ := h
      simpa [Pool.events] using ({ hs with } : ({ s with waitIdle := .returned }).Drains log)
  | callStop =>
    cases hstop : s.stop <;>
      simp only [Pool.step, hstop, reduceCtorEq, Option.some.injEq] at h
    subst h
    simpa [Pool.events] using
      ({ hs with awake := nofun } : ({ s with stop := .stopWorkers 0 }).Drains log)
  | stop => simpa [Pool.events] using hs.stopStep h

end Pool

/-- Runs in which no ring overflows, with their events. -/
def drainedPool (n : Nat) (O T : Type) [DecidableEq O] :
    Machine (Pool n O T × List (Event n T)) (PoolLabel n O T) :=
  ((pool n O T).guard Pool.withoutOverflow).observe Pool.events

theorem drainedPool_inv {n : Nat} {O T : Type} [DecidableEq O] [DecidableEq T]
    {s : Pool n O T × List (Event n T)} (h : (drainedPool n O T).Reachable s) :
    s.1.Drains s.2 := by
  apply h.invariant (I := fun s => s.1.Drains s.2)
  · refine ⟨fun w => ⟨nofun, trivial⟩, nofun, ?_, nofun, fun _ => rfl, fun t => ?_, fun t => ?_⟩
    · exact pool_init_inv.linked
    · simp [drainedPool, Machine.observe, pool, tally, Worker.holding, Work.holding,
        Work.emptied]
    · simp [drainedPool, Machine.observe, pool, tally, Worker.thrown, Work.thrown]
  · intro s l t _ hs ht
    obtain ⟨hstep, hlog⟩ := Machine.observe_step ht
    obtain ⟨hroom, hstep⟩ := Machine.guard_step.mp hstep
    rw [hlog]
    exact hs.step hroom hstep

/-- When all workers have returned from `Work`. -/
structure Pool.LeavesNothing {n : Nat} {O T : Type} [DecidableEq T] (s : Pool n O T)
    (log : List (Event n T)) : Prop where
  rings : ∀ w, (s.workers w).localTasks = []
  released : ∀ w, log.count (.released w) = 1 ∧ w ∉ s.coordinator.linked
  accounted : ∀ t, log.count (.ran t) + log.count (.discarded t) = log.count (.entered t)
  once : ∀ t, log.count (.entered t) = 1 →
    log.count (.ran t) = 1 ∧ log.count (.discarded t) = 0 ∨
      log.count (.ran t) = 0 ∧ log.count (.discarded t) = 1
  thrown : ∀ t, log.count (.discardedRun t) = log.count (.threw t)

/-- After `AwakeEveryoneForever` nobody sleeps; whatever a worker has is still to
be run or discarded, and is so when all have returned. -/
theorem stop_drains_workers {n : Nat} {O T : Type} [DecidableEq O] [DecidableEq T]
    {s : Pool n O T} {log : List (Event n T)} (h : (drainedPool n O T).Reachable (s, log)) :
    (s.stop.awoken = true → s.coordinator.permission = .permanentlyProhibited ∧
      ∀ w, (s.workers w).work ≠ .asleep) ∧
    (∀ w, log.count (.released w) ≤ 1 ∧
      ((s.workers w).work = .release → s.coordinator.linked.count w = 1)) ∧
    (∀ t, log.count (.entered t) = log.count (.ran t) + log.count (.discarded t) +
      tally Finset.univ (Worker.holding t) s.workers) ∧
    ((∀ w, (s.workers w).work = .exited) → s.LeavesNothing log) := by
  have hs := drainedPool_inv h
  refine ⟨hs.awake, fun w => ⟨?_, fun hw => ?_⟩, hs.held, fun hexited => ?_⟩
  · rw [hs.released]
    split <;> omega
  · exact List.count_eq_one_of_mem hs.linked.nodup ((hs.linked.mem w).mpr (by rw [hw]; rfl))
  · have hrings (w : Fin n) : (s.workers w).localTasks = [] := by
      have hwork := (hs.workers w).work
      rwa [hexited w] at hwork
    have hheld (t : T) : tally Finset.univ (Worker.holding t) s.workers = 0 :=
      tally_eq_zero.mpr fun w _ => by
        simp [Worker.holding, hexited w, hrings w, Work.emptied, Work.holding]
    have hthrown (t : T) : tally Finset.univ (Worker.thrown t) s.workers = 0 :=
      tally_eq_zero.mpr fun w _ => by simp [Worker.thrown, hexited w, Work.thrown]
    have haccounted (t : T) :
        log.count (.ran t) + log.count (.discarded t) = log.count (.entered t) := by
      have := hs.held t
      simp only [hheld] at this
      omega
    refine ⟨hrings, fun w => ⟨?_, ?_⟩, haccounted, fun t ht => ?_, fun t => ?_⟩
    · rw [hs.released, hexited w]
      rfl
    · rw [hs.linked.mem, hexited w]
      simp [Work.linked]
    · have := haccounted t
      omega
    · have := hs.thrown t
      simp only [hthrown] at this
      omega

/-- A worker that throws when `Stop` is at its flag, with a task in its slot and
one in its ring. -/
theorem stop_drains_workers_leftovers :
    ∃ (s : Pool 1 (Fin 1) Nat) (log : List (Event 1 Nat)),
      (drainedPool 1 (Fin 1) Nat).Reachable (s, log) ∧ (∀ w, (s.workers w).work = .exited) ∧
      log.count (.discarded 8) = 1 ∧ s.LeavesNothing log := by
  let c : Choice 1 Nat := ⟨none, 0, fun _ => none⟩
  obtain ⟨⟨s, log⟩, h, hs⟩ := Machine.exists_reachable_of_exec (M := drainedPool 1 (Fin 1) Nat)
    (p := fun s => decide ((s.1.workers 0).work = .exited) && decide (s.2.count (.discarded 8) = 1))
    (List.flatten [.submit 0 7 :: List.replicate 3 (.outside 0 none),
      List.replicate 4 (.worker 0 c), [.execute 0 8 .next, .worker 0 c, .execute 0 9 .upToYou,
        .worker 0 c, .worker 0 c, .callStop, .stop, .throw 0],
      List.replicate 7 (.worker 0 c)]) (by decide +kernel)
  simp only [Bool.and_eq_true, decide_eq_true_eq] at hs
  obtain ⟨hexited, hdiscarded⟩ := hs
  have hexited (w : Fin 1) : (s.workers w).work = .exited := by
    rw [Subsingleton.elim w 0, hexited]
  exact ⟨s, log, h, hexited, hdiscarded, (stop_drains_workers h).2.2.2 hexited⟩

end ConcurrentProgramming.Fast
