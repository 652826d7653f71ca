import ConcurrentProgramming.Fast.Interference

/-!
Runs in which no offload publishes a null pointer: what is queued is a task, and a
worker that looks for tasks elsewhere has an empty ring.
-/

set_option autoImplicit false

namespace ConcurrentProgramming.Fast
open Interleaving

/-- What a worker knows of its ring while it looks for tasks elsewhere. -/
def Work.Receiving {n : Nat} {T : Type} (localTasks : List (Option T)) : Work n T → Prop
  | .grab | .allowParking | .grabAgain | .impudence | .giveVictim _ | .lowSize _ _ =>
    localTasks = []
  | .steal _ _ limit => localTasks = [] ∧ limit ≤ kLocalQueueCapacity
  | .pushGrabbed first rest | .pushStolen first rest =>
    localTasks = [] ∧ first ≠ none ∧ Tasks rest ∧ rest.length < kLocalQueueCapacity
  | .execute _ (.offload buffer) | .execute _ (.offloadLocked buffer) => Tasks buffer
  | _ => True

structure Worker.Ready {n : Nat} {T : Type} (x : Worker n T) : Prop where
  tasks : Tasks x.localTasks
  work : x.work.Receiving x.localTasks

theorem Worker.Ready.goto {n : Nat} {T : Type} {x : Worker n T} (hx : x.Ready) {pc : Work n T}
    (hpc : pc.Receiving x.localTasks) : (x.goto pc).Ready :=
  ⟨hx.tasks, hpc⟩

theorem Worker.Ready.drop {n : Nat} {T : Type} {x : Worker n T} (hx : x.Ready) (k : Nat) :
    ({ x with localTasks := x.localTasks.drop k } : Worker n T).Ready := by
  refine ⟨hx.tasks.drop k, ?_⟩
  have hwork := hx.work
  cases hw : x.work with
  | execute task e => cases e <;> simp_all [Work.Receiving]
  | _ => simp_all [Work.Receiving]

theorem Worker.Ready.aside {n : Nat} {T : Type} {x y : Worker n T} (hx : x.Ready)
    (h : x.Aside y) : y.Ready := by
  cases h with
  | robbed k => exact hx.drop k
  | woken _ => exact hx.goto trivial
  | stopped => exact ⟨hx.tasks, hx.work⟩

theorem Worker.Ready.batch {n : Nat} {T : Type} {x : Worker n T} (hx : x.Ready)
    {first : Option T} {rest : List (Option T)}
    (hw : x.work = .pushGrabbed first rest ∨ x.work = .pushStolen first rest) :
    x.localTasks = [] ∧ first ≠ none ∧ Tasks rest ∧ rest.length < kLocalQueueCapacity := by
  have hwork := hx.work
  rcases hw with hw | hw
  · rwa [hw] at hwork
  · rwa [hw] at hwork

/-- A batch fits, and after it the worker runs the first task of it. -/
theorem Worker.Ready.pushMany {n : Nat} {T : Type} {x : Worker n T} (hx : x.Ready)
    {first : Option T} {rest : List (Option T)} (pc : Work n T)
    (hw : x.work = .pushGrabbed first rest ∨ x.work = .pushStolen first rest) :
    ∃ task, first = some task ∧ x.localTasks.length + rest.length ≤ kLocalQueueCapacity ∧
      x.pushMany rest (Worker.picked pc first) =
        some { x with localTasks := rest, work := .run task } := by
  obtain ⟨hempty, hfirst, -, hroom⟩ := hx.batch hw
  obtain ⟨task, rfl⟩ := Option.ne_none_iff_exists'.mp hfirst
  have hfits : x.localTasks.length + rest.length ≤ kLocalQueueCapacity := by
    rw [hempty, List.length_nil]
    omega
  exact ⟨task, rfl, hfits, by simp [Worker.pushMany, Worker.picked, hempty, Nat.le_of_lt hroom]⟩

theorem Worker.Ready.localStep {n : Nat} {T : Type} {x y : Worker n T} (hx : x.Ready)
    {impudence : Stealing} (h : x.localStep impudence = some y) : y.Ready := by
  have hwork := hx.work
  have htasks := hx.tasks
  cases Worker.localStep_cases h with
  | popped _ hlocal =>
    rw [hlocal] at htasks
    obtain ⟨hans, hrest⟩ := htasks.of_cons
    obtain ⟨task, rfl⟩ := Option.ne_none_iff_exists'.mp hans
    exact ⟨hrest, trivial⟩
  | ringEmpty _ hlocal => exact hx.goto hlocal
  | pushMany hw =>
    obtain ⟨-, hfirst, hrest, -⟩ := hx.batch (hw.imp And.left And.left)
    obtain ⟨task, rfl⟩ := Option.ne_none_iff_exists'.mp hfirst
    exact ⟨htasks.append hrest, trivial⟩
  | active hw =>
    rw [hw] at hwork
    exact hx.goto hwork
  | @pushed task next => exact ⟨htasks.append (.singleton next), trivial⟩
  | drained _ hlocal =>
    rw [hlocal] at htasks
    exact ⟨htasks.of_cons.2, trivial⟩
  | drainedNull _ hlocal =>
    rw [hlocal] at htasks
    exact absurd rfl htasks.of_cons.1
  | tenth | next | lifoTask | noLifo | lifoSlot | displaced => exact ⟨htasks, trivial⟩
  | _ => exact hx.goto trivial

namespace Pool

structure Ready {n : Nat} {O T : Type} (s : Pool n O T) : Prop where
  workers : ∀ w, (s.workers w).Ready
  tasks : Tasks s.global.queue

/-- One worker goes on, with the global queue; the others are left aside. -/
theorem Ready.of_aside {n : Nat} {O T : Type} {s t : Pool n O T} (hs : s.Ready) {w : Fin n}
    (haside : ∀ v, v ≠ w → (s.workers v).Aside (t.workers v)) (hw : (t.workers w).Ready)
    (htasks : Tasks t.global.queue) : t.Ready := by
  refine ⟨fun v => ?_, htasks⟩
  by_cases hv : v = w
  · exact hv ▸ hw
  · exact (hs.workers v).aside (haside v hv)

theorem Ready.goto {n : Nat} {O T : Type} {s : Pool n O T} (hs : s.Ready) (w : Fin n)
    {pc : Work n T} (hpc : pc.Receiving (s.workers w).localTasks) : (s.goto w pc).Ready := by
  apply hs.of_aside (w := w) (fun v hv => aside_setWorker s _ hv) _ hs.tasks
  rw [setWorker_self]
  exact (hs.workers w).goto hpc

/-- What `Grab` leads to. -/
theorem Ready.grab {n : Nat} {O T : Type} {s t : Pool n O T} (hs : s.Ready) {w : Fin n}
    (pc : Work n T) (hempty : (s.workers w).localTasks = []) (hpc : pc.Receiving [])
    (h : s.grab w pc = some t) : (t.workers w).Ready ∧ Tasks t.global.queue := by
  obtain ⟨global, items, hgrab, rfl⟩ := grab_eq h
  obtain ⟨hqueue, -, hlength⟩ := GlobalQueue.grab_queue hgrab
  have htasks := hs.tasks
  rw [hqueue] at htasks
  obtain ⟨hitems, hrest⟩ := htasks.of_append
  refine ⟨?_, hrest⟩
  rw [show Pool.workers _ w = _ from goto_self s w _]
  apply (hs.workers w).goto
  rw [hempty]
  match items, hitems, hlength with
  | [], _, _ => exact hpc
  | [first], hitems, _ =>
    obtain ⟨task, rfl⟩ := Option.ne_none_iff_exists'.mp hitems.of_cons.1
    trivial
  | first :: second :: rest, hitems, hlength =>
    have hlimit : GlobalQueue.grabLimit (kLocalQueueCapacity / 2) s.global.queue.length n ≤
        kLocalQueueCapacity / 2 := Nat.le_trans (Nat.min_le_left _ _) (Nat.min_le_left _ _)
    refine ⟨rfl, hitems.of_cons.1, hitems.of_cons.2, ?_⟩
    simp only [List.length_cons, kLocalQueueCapacity] at hlength hlimit ⊢
    omega

theorem Ready.globalStep {n : Nat} {O T : Type} {s t : Pool n O T} (hs : s.Ready) {w : Fin n}
    (h : s.globalStep w = some t) : (t.workers w).Ready ∧ Tasks t.global.queue := by
  have hwork := (hs.workers w).work
  cases globalStep_cases h with
  | grab hw h =>
    rcases hw with ⟨hw, rfl⟩ | ⟨hw, rfl⟩
    · rw [hw] at hwork
      exact hs.grab .allowParking hwork rfl h
    · rw [hw] at hwork
      exact hs.grab .impudence hwork rfl h
  | offload hw =>
    rw [hw] at hwork
    rw [goto_self]
    exact ⟨(hs.workers w).goto hwork, hs.tasks⟩
  | offloadLocked hw =>
    rw [hw] at hwork
    simp only [goto_self, GlobalQueue.offload_queue]
    exact ⟨(hs.workers w).goto trivial, hs.tasks.append hwork⟩
  | offloadClosed | pushOneClosed | pushOne =>
    rw [goto_self]
    exact ⟨(hs.workers w).goto trivial, hs.tasks⟩
  | @pushOneLocked task next =>
    simp only [goto_self, GlobalQueue.pushOne_queue]
    exact ⟨(hs.workers w).goto trivial, hs.tasks.append (.singleton next)⟩

theorem Ready.notifyOne_goto {n : Nat} {O T : Type} {s u : Pool n O T} (hs : s.Ready) {w : Fin n}
    {woken : Option (Fin n)} (pc : Work n T) (hpc : ∀ localTasks, pc.Receiving localTasks)
    (hu : s.notifyOne woken = some u) :
    ((u.goto w pc).workers w).Ready ∧ (u.goto w pc).global = s.global := by
  have hready := (hs.workers w).aside (aside_notifyOne hu w)
  refine ⟨?_, ?_⟩
  · rw [goto_self]
    exact hready.goto (hpc _)
  · rcases notifyOne_cases hu with ⟨v, -, rfl⟩ | ⟨-, rfl⟩
    · rfl
    · rfl

theorem Ready.coordinatorStep {n : Nat} {O T : Type} {s t : Pool n O T} (hs : s.Ready) {w : Fin n}
    {c : Choice n T} (h : s.coordinatorStep w c = some t) :
    (t.workers w).Ready ∧ t.global = s.global := by
  have hwork := (hs.workers w).work
  have goes {pc : Work n T} (hpc : pc.Receiving (s.workers w).localTasks) :
      ((s.goto w pc).workers w).Ready := by
    rw [goto_self]
    exact (hs.workers w).goto hpc
  cases coordinatorStep_cases h with
  | awakeOne hw hu =>
    rcases hw with ⟨-, rfl⟩ | ⟨task, -, rfl⟩
    · exact hs.notifyOne_goto .lifo (fun _ => trivial) hu
    · exact hs.notifyOne_goto (.run task) (fun _ => trivial) hu
  | @prohibitParking task u _ hu =>
    have hprohibited : Ready { s with coordinator := s.coordinator.prohibitParking } :=
      ⟨hs.workers, hs.tasks⟩
    exact hprohibited.notifyOne_goto (.run task) (fun _ => trivial) hu
  | allowParking hw | itself hw | victim hw =>
    rw [hw] at hwork
    exact ⟨goes hwork, rfl⟩
  | gaveUp | park | prohibited | notified => exact ⟨goes trivial, rfl⟩
  | release =>
    refine ⟨?_, rfl⟩
    split
    · exact goes trivial
    · exact goes trivial

theorem Ready.stealStep {n : Nat} {O T : Type} {s t : Pool n O T} (hs : s.Ready) {w : Fin n}
    {c : Choice n T} (hpublishes : s.publishesTasks (.worker w c : PoolLabel n O T) = true)
    (h : s.stealStep w c = some t) : (t.workers w).Ready ∧ t.global = s.global := by
  have hwork := (hs.workers w).work
  cases stealStep_cases h with
  | lowSize hw =>
    rw [hw] at hwork
    rw [goto_self]
    exact ⟨(hs.workers w).goto ⟨hwork, Nat.min_le_right _ _⟩, rfl⟩
  | @steal remaining victim limit hw =>
    rw [hw] at hwork
    obtain ⟨hempty, hlimit⟩ := hwork
    have htaken := (hs.workers victim).tasks.take limit
    have hlength : ((s.workers victim).localTasks.take limit).length ≤ limit :=
      List.length_take_le _ _
    have hthief : (s.setWorker victim { s.workers victim with
        localTasks := (s.workers victim).localTasks.drop limit }).workers w = s.workers w := by
      by_cases hwv : w = victim
      · subst hwv
        rw [setWorker_self, hempty, List.drop_nil, ← hempty]
      · rw [setWorker_ne s _ hwv]
    refine ⟨?_, rfl⟩
    rw [goto_self, hthief]
    apply (hs.workers w).goto
    rw [hempty]
    generalize (s.workers victim).localTasks.take limit = taken at htaken hlength ⊢
    match taken, htaken, hlength with
    | [], _, _ => rfl
    | [first], htaken, _ =>
      obtain ⟨task, rfl⟩ := Option.ne_none_iff_exists'.mp htaken.of_cons.1
      trivial
    | first :: second :: rest, htaken, hlength =>
      refine ⟨rfl, htaken.of_cons.1, htaken.of_cons.2, ?_⟩
      simp only [List.length_cons] at hlength ⊢
      omega
  | grab hw =>
    refine ⟨?_, rfl⟩
    rw [setWorker_self]
    refine ⟨(hs.workers w).tasks.drop _, fun item hitem hnone => ?_⟩
    simp only [publishesTasks, hw, List.all_eq_true] at hpublishes
    simpa [hnone] using hpublishes item hitem

theorem Ready.workerStep {n : Nat} {O T : Type} {s t : Pool n O T} (hs : s.Ready) {w : Fin n}
    {c : Choice n T} (hpublishes : s.publishesTasks (.worker w c : PoolLabel n O T) = true)
    (h : s.workerStep w c = some t) : t.Ready := by
  have haside : ∀ v, v ≠ w → (s.workers v).Aside (t.workers v) :=
    fun v hv => aside_workerStep hv h
  rcases workerStep_cases h with ⟨x, hx, rfl⟩ | hglobal | hcoordinator | hsteal
  · apply hs.of_aside haside _ hs.tasks
    rw [setWorker_self]
    exact (hs.workers w).localStep hx
  · obtain ⟨hw, htasks⟩ := hs.globalStep hglobal
    exact hs.of_aside haside hw htasks
  · obtain ⟨hw, hglobal⟩ := hs.coordinatorStep hcoordinator
    exact hs.of_aside haside hw (hglobal ▸ hs.tasks)
  · obtain ⟨hw, hglobal⟩ := hs.stealStep hpublishes hsteal
    exact hs.of_aside haside hw (hglobal ▸ hs.tasks)

theorem Ready.step {n : Nat} {O T : Type} [DecidableEq O] {s t : Pool n O T} (hs : s.Ready)
    {l : PoolLabel n O T} (hpublishes : s.publishesTasks l = true) (h : s.step l = some t) :
    t.Ready := by
  cases hl : l.actor with
  | none =>
    refine ⟨fun v => (hs.workers v).aside (aside_step h (by simp [hl])), ?_⟩
    rcases queue_step hl h with ⟨k, hqueue⟩ | ⟨task, hqueue⟩
    · exact hqueue ▸ hs.tasks.drop k
    · exact hqueue ▸ hs.tasks.append (.singleton task)
  | some w =>
    cases l with
    | worker v c => exact hs.workerStep hpublishes h
    | execute v task hint =>
      cases hw : (s.workers v).work <;>
        simp only [Pool.step, hw, reduceCtorEq, Option.some.injEq] at h
      subst h
      exact hs.goto v (by cases hint <;> trivial)
    | return_ v | throw v =>
      cases hw : (s.workers v).work <;>
        simp only [Pool.step, hw, reduceCtorEq, Option.some.injEq] at h
      subst h
      exact hs.goto v trivial
    | spurious v =>
      simp only [Pool.step, Option.ite_none_right_eq_some, Option.some.injEq] at h
      obtain ⟨-, rfl⟩ := h
      exact hs.goto v trivial
    | _ => cases hl

end Pool

/-- The pool, as long as no offload publishes a null pointer. -/
def tasksPool (n : Nat) (O T : Type) [DecidableEq O] : Machine (Pool n O T) (PoolLabel n O T) :=
  (pool n O T).guard Pool.publishesTasks

theorem tasksPool_ready {n : Nat} {O T : Type} [DecidableEq O] {s : Pool n O T}
    (h : (tasksPool n O T).Reachable s) : s.Ready := by
  apply h.invariant
  · exact ⟨fun w => ⟨nofun, trivial⟩, nofun⟩
  · intro s l t _ hs hl
    obtain ⟨hpublishes, hstep⟩ := Machine.guard_step.mp hl
    exact hs.step hpublishes hstep

end ConcurrentProgramming.Fast
