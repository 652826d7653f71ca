import ConcurrentProgramming.Fast.Steps

/-!
What holds in a running pool: workers take their pointers where their code says
they do, the books of the global queue and of the coordinator are right, and what
one step of a worker can do to the queue and to the parking permission.
-/

set_option autoImplicit false

namespace ConcurrentProgramming.Fast
open Interleaving

def Tasks {T : Type} (buffer : List (Option T)) : Prop := ∀ item ∈ buffer, item ≠ none

theorem Tasks.append {T : Type} {xs ys : List (Option T)} (hxs : Tasks xs) (hys : Tasks ys) :
    Tasks (xs ++ ys) := by
  intro item hitem
  rcases List.mem_append.mp hitem with h | h
  · exact hxs item h
  · exact hys item h

theorem Tasks.of_cons {T : Type} {x : Option T} {xs : List (Option T)} (h : Tasks (x :: xs)) :
    x ≠ none ∧ Tasks xs :=
  ⟨h x (by simp), fun item hitem => h item (by simp [hitem])⟩

theorem Tasks.of_append {T : Type} {xs ys : List (Option T)} (h : Tasks (xs ++ ys)) :
    Tasks xs ∧ Tasks ys :=
  ⟨fun item hitem => h item (by simp [hitem]), fun item hitem => h item (by simp [hitem])⟩

theorem Tasks.take {T : Type} {xs : List (Option T)} (h : Tasks xs) (k : Nat) :
    Tasks (xs.take k) :=
  fun item hitem => h item (List.mem_of_mem_take hitem)

theorem Tasks.drop {T : Type} {xs : List (Option T)} (h : Tasks xs) (k : Nat) :
    Tasks (xs.drop k) :=
  fun item hitem => h item (List.mem_of_mem_drop hitem)

theorem Tasks.singleton {T : Type} (task : T) : Tasks [some task] := by
  intro item hitem
  simp [List.mem_singleton.mp hitem]

/-! Where a worker stands towards the others. -/

/-- Points from which a worker polls the global queue before it can park. -/
def Work.working {n : Nat} {T : Type} : Work n T → Bool
  | .pick | .awakeOne | .lifo | .tryPop | .grab | .allowParking | .grabAgain | .pushGrabbed _ _
  | .pushStolen _ _ | .run _ | .execute _ _ | .discardRun _ => true
  | _ => false

/-- The same, with the workers that a notification has reached. -/
def Work.watching {n : Nat} {T : Type} (pc : Work n T) : Bool :=
  match pc with
  | .notified => true
  | _ => pc.working

def Work.linked {n : Nat} {T : Type} : Work n T → Bool
  | .asleep | .notified | .discardLifo | .drain | .discardDrained _ | .exited => false
  | _ => true

theorem Work.linked_of_working {n : Nat} {T : Type} {pc : Work n T} (h : pc.working = true) :
    pc.linked = true := by
  cases pc <;> simp_all [working, linked]

/-- What the worker knows about its ring and its slot. -/
def Work.Ok {n : Nat} {T : Type} (localTasks : List (Option T)) (lifoSlot : Option T) :
    Work n T → Prop
  | .grab | .allowParking | .grabAgain | .impudence | .giveVictim _ | .lowSize _ _
  | .steal _ _ _ | .lifoCheck => localTasks = []
  | .tryPark | .asleep | .notified => localTasks = [] ∧ lifoSlot = none
  | .pushGrabbed first rest | .pushStolen first rest =>
    localTasks = [] ∧ first ≠ none ∧ Tasks rest
  | .execute _ (.offload buffer) | .execute _ (.offloadLocked buffer) => Tasks buffer
  | .release | .discardLifo | .drain | .discardDrained _ | .exited => False
  | _ => True

structure Worker.Ok {n : Nat} {T : Type} (x : Worker n T) : Prop where
  running : x.stopped = false
  tasks : Tasks x.localTasks
  work : x.work.Ok x.localTasks x.lifoSlot

theorem Worker.Ok.goto {n : Nat} {T : Type} {x : Worker n T} (hx : x.Ok) {pc : Work n T}
    (hpc : pc.Ok x.localTasks x.lifoSlot) : (x.goto pc).Ok :=
  ⟨hx.running, hx.tasks, hpc⟩

/-- A thief takes from the front. -/
theorem Worker.Ok.drop {n : Nat} {T : Type} {x : Worker n T} (hx : x.Ok) (k : Nat) :
    ({ x with localTasks := x.localTasks.drop k } : Worker n T).Ok := by
  refine ⟨hx.running, hx.tasks.drop k, ?_⟩
  have hwork := hx.work
  cases hw : x.work with
  | execute task e => cases e <;> simp_all [Work.Ok]
  | _ => simp_all [Work.Ok]

theorem Worker.Ok.linked_of_awake {n : Nat} {T : Type} {x : Worker n T} (hx : x.Ok)
    (hlinked : x.work.linked = false) : x.work = .asleep ∨ x.work = .notified := by
  have hwork := hx.work
  cases hw : x.work <;> simp_all [Work.linked, Work.Ok]

theorem Worker.asleep_iff {n : Nat} {T : Type} {x : Worker n T} :
    x.asleep = true ↔ x.work = .asleep := by
  unfold asleep
  split <;> simp_all

/-- What a step of the worker alone keeps, and where it leads. -/
structure Worker.Local {n : Nat} {T : Type} (x y : Worker n T) : Prop where
  ok : y.Ok
  linked : y.work.linked = x.work.linked
  polls : y.work.working = true ∨ x.work.watching = false ∧ y.work ≠ .asleep

theorem Worker.Ok.localStep {n : Nat} {T : Type} {x y : Worker n T} (hx : x.Ok)
    {impudence : Stealing} (h : x.localStep impudence = some y) : x.Local y := by
  have hwork := hx.work
  have hrunning := hx.running
  -- a call of `Execute` stays inside the task that makes it
  have stays {task : T} {e : Execute T} {z : Worker n T} (hw : x.work = .execute task e)
      (hz : z.Ok) (hrun : z.work = .run task ∨ ∃ e', z.work = .execute task e') : x.Local z := by
    rcases hrun with hrun | ⟨e', hrun⟩
    · exact ⟨hz, by rw [hw, hrun]; rfl, .inl (by rw [hrun]; rfl)⟩
    · exact ⟨hz, by rw [hw, hrun]; rfl, .inl (by rw [hrun]; rfl)⟩
  cases Worker.localStep_cases h with
  | stopped _ hstopped | refused _ hstopped => simp [hrunning] at hstopped
  | tenth hw | next hw | lifoTask hw | noLifo hw =>
    exact ⟨⟨hrunning, hx.tasks, trivial⟩, by rw [hw]; rfl, .inl rfl⟩
  | popped hw hlocal =>
    have htasks := hx.tasks
    rw [hlocal] at htasks
    obtain ⟨hans, hrest⟩ := htasks.of_cons
    obtain ⟨task, rfl⟩ := Option.ne_none_iff_exists'.mp hans
    exact ⟨⟨hrunning, hrest, trivial⟩, by rw [hw]; rfl, .inl rfl⟩
  | ringEmpty hw hlocal => exact ⟨hx.goto hlocal, by rw [hw]; rfl, .inl rfl⟩
  | @pushMany first rest pc hw =>
    have hbatch : first ≠ none ∧ Tasks rest ∧ x.work.linked = true := by
      rcases hw with ⟨hw, -⟩ | ⟨hw, -⟩
      · rw [hw] at hwork ⊢
        exact ⟨hwork.2.1, hwork.2.2, rfl⟩
      · rw [hw] at hwork ⊢
        exact ⟨hwork.2.1, hwork.2.2, rfl⟩
    obtain ⟨hfirst, hrest, hlinked⟩ := hbatch
    obtain ⟨task, rfl⟩ := Option.ne_none_iff_exists'.mp hfirst
    exact ⟨⟨hrunning, hx.tasks.append hrest, trivial⟩, hlinked.symm, .inl rfl⟩
  | active hw | passive hw =>
    rw [hw] at hwork
    exact ⟨hx.goto hwork, by rw [hw]; rfl, .inr ⟨by rw [hw]; rfl, by simp [Worker.goto]⟩⟩
  | lifoFilled hw => exact ⟨hx.goto trivial, by rw [hw]; rfl, .inl rfl⟩
  | lifoEmpty hw hslot =>
    rw [hw] at hwork
    exact ⟨hx.goto ⟨hwork, hslot⟩, by rw [hw]; rfl,
      .inr ⟨by rw [hw]; rfl, by simp [Worker.goto]⟩⟩
  | lifoSlot hw => exact stays hw ⟨hrunning, hx.tasks, trivial⟩ (.inl rfl)
  | displaced hw => exact stays hw ⟨hrunning, hx.tasks, trivial⟩ (.inr ⟨_, rfl⟩)
  | @pushed task next hw =>
    exact stays hw ⟨hrunning, hx.tasks.append (.singleton next), trivial⟩ (.inl rfl)
  | discard hw => exact stays hw (hx.goto trivial) (.inl rfl)
  | localQueue hw | full hw | discardOffloaded hw | offloadDiscarded hw | discardPushed hw =>
    exact stays hw (hx.goto trivial) (.inr ⟨_, rfl⟩)
  | discardRun hw => exact ⟨hx.goto trivial, by rw [hw]; rfl, .inl rfl⟩
  | discardLifo hw | drained hw | drainedNull hw | drainedAll hw | discardDrained hw =>
    rw [hw] at hwork
    exact hwork.elim

namespace Pool

@[simp] theorem setWorker_self {n : Nat} {O T : Type} (s : Pool n O T) (w : Fin n)
    (x : Worker n T) : (s.setWorker w x).workers w = x := by
  simp [setWorker]

theorem setWorker_ne {n : Nat} {O T : Type} (s : Pool n O T) {w v : Fin n} (x : Worker n T)
    (h : v ≠ w) : (s.setWorker w x).workers v = s.workers v := by
  simp [setWorker, h]

@[simp] theorem goto_self {n : Nat} {O T : Type} (s : Pool n O T) (w : Fin n) (pc : Work n T) :
    (s.goto w pc).workers w = (s.workers w).goto pc := by
  simp [goto]

theorem goto_ne {n : Nat} {O T : Type} (s : Pool n O T) {w v : Fin n} (pc : Work n T)
    (h : v ≠ w) : (s.goto w pc).workers v = s.workers v :=
  setWorker_ne s _ h

structure Inv {n : Nat} {O T : Type} (s : Pool n O T) : Prop where
  workers : ∀ w, (s.workers w).Ok
  tasks : Tasks s.global.queue
  unclosed : s.global.isClosed = false
  tracks : s.global.Tracks
  linked : s.coordinator.Linked fun w => (s.workers w).work.linked = true

theorem Inv.setWorker {n : Nat} {O T : Type} {s : Pool n O T} (hs : s.Inv) {w : Fin n}
    {x : Worker n T} (hx : x.Ok) (hlinked : x.work.linked = (s.workers w).work.linked) :
    (s.setWorker w x).Inv := by
  refine ⟨fun v => ?_, hs.tasks, hs.unclosed, hs.tracks, hs.linked.congr fun v => ?_⟩
  · by_cases hv : v = w
    · subst hv
      rwa [setWorker_self]
    · rw [setWorker_ne s x hv]
      exact hs.workers v
  · by_cases hv : v = w
    · subst hv
      rw [setWorker_self, hlinked]
    · rw [setWorker_ne s x hv]

theorem Inv.goto {n : Nat} {O T : Type} {s : Pool n O T} (hs : s.Inv) {w : Fin n} {pc : Work n T}
    (hpc : pc.Ok (s.workers w).localTasks (s.workers w).lifoSlot)
    (hlinked : pc.linked = (s.workers w).work.linked) : (s.goto w pc).Inv :=
  hs.setWorker ((hs.workers w).goto hpc) hlinked

theorem Inv.setGlobal {n : Nat} {O T : Type} {s : Pool n O T} (hs : s.Inv)
    {global : GlobalQueue (Option T)} (htasks : Tasks global.queue)
    (hunclosed : global.isClosed = false) (htracks : global.Tracks) :
    ({ s with global := global } : Pool n O T).Inv :=
  ⟨hs.workers, htasks, hunclosed, htracks, hs.linked⟩

theorem Inv.setCoordinator {n : Nat} {O T : Type} {s : Pool n O T} (hs : s.Inv)
    {coordinator : Coordinator (Fin n)}
    (hlinked : coordinator.Linked fun w => (s.workers w).work.linked = true) :
    ({ s with coordinator := coordinator } : Pool n O T).Inv :=
  ⟨hs.workers, hs.tasks, hs.unclosed, hs.tracks, hlinked⟩

theorem notifyOne_cases {n : Nat} {O T : Type} {s t : Pool n O T} {woken : Option (Fin n)}
    (h : s.notifyOne woken = some t) :
    (∃ v, (s.workers v).work = .asleep ∧ t = s.goto v .notified) ∨
      (∀ v, (s.workers v).work ≠ .asleep) ∧ t = s := by
  unfold notifyOne at h
  split at h
  · rename_i v
    simp only [Option.ite_none_right_eq_some, Option.some.injEq] at h
    exact .inl ⟨v, Worker.asleep_iff.mp h.1, h.2.symm⟩
  · simp only [Option.ite_none_right_eq_some, Option.some.injEq] at h
    refine .inr ⟨fun v hv => ?_, h.2.symm⟩
    have := Worker.asleep_iff.mpr hv
    rw [h.1 v] at this
    cases this

theorem Inv.notify {n : Nat} {O T : Type} {s : Pool n O T} (hs : s.Inv) {v : Fin n}
    (hv : (s.workers v).work = .asleep) : (s.goto v .notified).Inv := by
  apply hs.goto
  · have hwork := (hs.workers v).work
    rw [hv] at hwork
    exact hwork
  · rw [hv]
    rfl

theorem Inv.notifyOne {n : Nat} {O T : Type} {s t : Pool n O T} (hs : s.Inv)
    {woken : Option (Fin n)} (h : s.notifyOne woken = some t) : t.Inv := by
  rcases notifyOne_cases h with ⟨v, hv, rfl⟩ | ⟨-, rfl⟩
  · exact hs.notify hv
  · exact hs

theorem prohibitParking_linked {n : Nat} {c : Coordinator (Fin n)} {linked : Fin n → Prop}
    (h : c.Linked linked) : c.prohibitParking.Linked linked := by
  unfold Coordinator.prohibitParking
  split
  · exact ⟨h.nodup, h.mem, h.counter⟩
  · exact h

theorem allowParking_linked {n : Nat} {c : Coordinator (Fin n)} {linked : Fin n → Prop}
    (h : c.Linked linked) : c.allowParking.Linked linked := by
  unfold Coordinator.allowParking
  split
  · exact ⟨h.nodup, h.mem, h.counter⟩
  · exact h

/-- A step of worker `w` away from the queue, which `w` was through with. -/
structure Quiet {n : Nat} {O T : Type} (s t : Pool n O T) (w : Fin n) : Prop where
  queue : t.global.queue = s.global.queue
  permission : t.coordinator.permission = s.coordinator.permission
  watching : (s.workers w).work.watching = false
  others : ∀ v, v ≠ w → (t.workers v).work = (s.workers v).work
  asleep : (t.workers w).work = .asleep → s.coordinator.permission = .allowed

/-- A step of worker `w`. -/
structure Effect {n : Nat} {O T : Type} (s t : Pool n O T) (w : Fin n) : Prop where
  outside : t.outside = s.outside
  waitIdle : t.waitIdle = s.waitIdle
  stop : t.stop = s.stop
  polls : (t.workers w).work.working = true ∨ t.global.queue = [] ∨ s.Quiet t w

theorem Effect.setWorker {n : Nat} {O T : Type} {s : Pool n O T} {w : Fin n} {x : Worker n T}
    (h : x.work.working = true ∨ (s.workers w).work.watching = false ∧ x.work ≠ .asleep) :
    s.Effect (s.setWorker w x) w := by
  refine ⟨rfl, rfl, rfl, ?_⟩
  rcases h with hworking | ⟨hwatching, hasleep⟩
  · left
    rwa [setWorker_self]
  · right
    right
    refine ⟨rfl, rfl, hwatching, fun v hv => by rw [setWorker_ne s x hv], fun h => ?_⟩
    rw [setWorker_self] at h
    exact absurd h hasleep

theorem notifyOne_frame {n : Nat} {O T : Type} {s t : Pool n O T} {woken : Option (Fin n)}
    (h : s.notifyOne woken = some t) :
    t.outside = s.outside ∧ t.waitIdle = s.waitIdle ∧ t.stop = s.stop ∧ t.global = s.global ∧
      t.coordinator = s.coordinator ∧
      ∀ w, (s.workers w).work ≠ .asleep → t.workers w = s.workers w := by
  rcases notifyOne_cases h with ⟨v, hv, rfl⟩ | ⟨-, rfl⟩
  · refine ⟨rfl, rfl, rfl, rfl, rfl, fun w hw => goto_ne s _ ?_⟩
    rintro rfl
    exact hw hv
  · exact ⟨rfl, rfl, rfl, rfl, rfl, fun _ _ => rfl⟩

theorem Effect.goto_global {n : Nat} {O T : Type} {s : Pool n O T} {w : Fin n} {pc : Work n T}
    {global : GlobalQueue (Option T)} (h : pc.working = true ∨ global.queue = []) :
    s.Effect { s.goto w pc with global := global } w := by
  refine ⟨rfl, rfl, rfl, ?_⟩
  rcases h with hworking | hnil
  · left
    simpa [Pool.goto, Pool.setWorker, Worker.goto] using hworking
  · exact .inr (.inl hnil)

/-- Wherever a grab leads, it leads there with pointers to tasks. -/
theorem Inv.grab {n : Nat} {O T : Type} {s t : Pool n O T} (hs : s.Inv) {w : Fin n}
    {pc : Work n T} (hlocal : (s.workers w).localTasks = [])
    (hlinked : (s.workers w).work.linked = true)
    (hpc : pc.Ok (s.workers w).localTasks (s.workers w).lifoSlot ∧ pc.linked = true)
    (h : s.grab w pc = some t) : t.Inv ∧ s.Effect t w := by
  obtain ⟨⟨global, items⟩, hgrab, rfl⟩ := Option.map_eq_some_iff.mp h
  obtain ⟨hq, hunclosed, -⟩ := GlobalQueue.grab_queue hgrab
  have htracks := GlobalQueue.grab_tracks hs.tracks hgrab
  have htasks := hs.tasks
  rw [hq] at htasks
  obtain ⟨hitems, hrest⟩ := htasks.of_append
  rw [hs.unclosed] at hunclosed
  have place {pc : Work n T} (hpc : pc.Ok (s.workers w).localTasks (s.workers w).lifoSlot)
      (hl : pc.linked = true) : ({ s.goto w pc with global := global } : Pool n O T).Inv :=
    (hs.goto hpc (hl.trans hlinked.symm)).setGlobal hrest hunclosed htracks
  match items, hitems with
  | [], _ =>
    have hnil := (GlobalQueue.grab_nil (by decide) hgrab).2
    exact ⟨place hpc.1 hpc.2, .goto_global (.inr hnil)⟩
  | [first], hitems =>
    obtain ⟨task, rfl⟩ := Option.ne_none_iff_exists'.mp hitems.of_cons.1
    exact ⟨place trivial rfl, .goto_global (.inl rfl)⟩
  | first :: second :: rest, hitems =>
    exact ⟨place ⟨hlocal, hitems.of_cons⟩ rfl, .goto_global (.inl rfl)⟩

theorem Inv.globalStep {n : Nat} {O T : Type} {s t : Pool n O T} (hs : s.Inv) {w : Fin n}
    (h : s.globalStep w = some t) : t.Inv ∧ s.Effect t w := by
  have hwork := (hs.workers w).work
  cases globalStep_cases h with
  | grab hw h =>
    rcases hw with ⟨hw, rfl⟩ | ⟨hw, rfl⟩
    · rw [hw] at hwork
      apply hs.grab hwork (by rw [hw]; rfl) _ h
      exact ⟨hwork, rfl⟩
    · rw [hw] at hwork
      apply hs.grab hwork (by rw [hw]; rfl) _ h
      exact ⟨hwork, rfl⟩
  | offloadClosed _ hclosed | pushOneClosed _ hclosed => simp [hs.unclosed] at hclosed
  | offload hw =>
    rw [hw] at hwork
    exact ⟨hs.goto hwork (by rw [hw]; rfl), .setWorker (.inl rfl)⟩
  | @offloadLocked task buffer hw =>
    rw [hw] at hwork
    refine ⟨(hs.goto ?_ ?_).setGlobal ?_ hs.unclosed ?_, .goto_global (.inl rfl)⟩
    · trivial
    · rw [hw]
      rfl
    · exact hs.tasks.append hwork
    · exact GlobalQueue.offload_tracks hs.tracks buffer
  | pushOne hw => exact ⟨hs.goto trivial (by rw [hw]; rfl), .setWorker (.inl rfl)⟩
  | @pushOneLocked task next hw =>
    refine ⟨(hs.goto ?_ ?_).setGlobal ?_ hs.unclosed ?_, .goto_global (.inl rfl)⟩
    · trivial
    · rw [hw]
      rfl
    · exact hs.tasks.append (.singleton next)
    · exact GlobalQueue.pushOne_tracks hs.tracks _

/-- A worker that goes on with its task after a notification. -/
theorem Inv.notifyOne_goto {n : Nat} {O T : Type} {s u : Pool n O T} (hs : s.Inv) {w : Fin n}
    {woken : Option (Fin n)} (pc : Work n T) (hw : (s.workers w).work.working = true)
    (hok : ∀ localTasks lifoSlot, pc.Ok localTasks lifoSlot) (hpc : pc.working = true)
    (hu : s.notifyOne woken = some u) : (u.goto w pc).Inv ∧ s.Effect (u.goto w pc) w := by
  have hasleep : (s.workers w).work ≠ .asleep := by
    intro hasleep
    rw [hasleep] at hw
    cases hw
  obtain ⟨houtside, hwait, hstop, hglobal, hcoordinator, hsame⟩ := notifyOne_frame hu
  constructor
  · apply (hs.notifyOne hu).goto (hok _ _)
    rw [hsame w hasleep, Work.linked_of_working hpc, Work.linked_of_working hw]
  · refine ⟨houtside, hwait, hstop, .inl ?_⟩
    simpa [Worker.goto] using hpc

/-- The section of `TryParkMe` that puts the worker to sleep. -/
theorem Inv.park {n : Nat} {O T : Type} {s : Pool n O T} (hs : s.Inv) {w : Fin n}
    {coordinator : Coordinator (Fin n)} (hw : (s.workers w).work = .tryPark)
    (hallowed : s.coordinator.permission = .allowed)
    (hunlink : s.coordinator.unlink w = some coordinator) :
    ({ s.goto w .asleep with coordinator := coordinator } : Pool n O T).Inv ∧
      s.Effect { s.goto w .asleep with coordinator := coordinator } w := by
  have hok := hs.workers w
  have hwork := hok.work
  rw [hw] at hwork
  obtain ⟨hpermission, hlinked⟩ := hs.linked.unlink (by rw [hw]; rfl) hunlink
  constructor
  · refine ⟨fun v => ?_, hs.tasks, hs.unclosed, hs.tracks, hlinked.congr fun v => ?_⟩
    · by_cases hv : v = w
      · subst hv
        have hasleep : ((s.workers v).goto .asleep).Ok := hok.goto hwork
        simpa using hasleep
      · simpa [goto_ne s _ hv] using hs.workers v
    · by_cases hv : v = w
      · subst hv
        simp [Worker.goto, Work.linked]
      · simp [goto_ne s _ hv, hv]
  · refine ⟨rfl, rfl, rfl, .inr (.inr ⟨rfl, hpermission, by rw [hw]; rfl, fun v hv => ?_, ?_⟩)⟩
    · simp [goto_ne s _ hv]
    · intro _
      exact hallowed

/-- `AcquireUnsafe` after the wait. -/
theorem Inv.acquire {n : Nat} {O T : Type} {s : Pool n O T} (hs : s.Inv) {w : Fin n}
    (hw : (s.workers w).work = .notified) :
    ({ s.goto w .pick with coordinator := s.coordinator.acquireUnsafe w } : Pool n O T).Inv ∧
      s.Effect { s.goto w .pick with coordinator := s.coordinator.acquireUnsafe w } w := by
  have hlinked := hs.linked.acquireUnsafe (w := w) (by rw [hw]; simp [Work.linked])
  constructor
  · refine ⟨fun v => ?_, hs.tasks, hs.unclosed, hs.tracks, hlinked.congr fun v => ?_⟩
    · by_cases hv : v = w
      · subst hv
        have hpick : ((s.workers v).goto .pick).Ok := (hs.workers v).goto trivial
        simpa using hpick
      · simpa [goto_ne s _ hv] using hs.workers v
    · by_cases hv : v = w
      · subst hv
        simp [Worker.goto, Work.linked]
      · simp [goto_ne s _ hv, hv]
  · refine ⟨rfl, rfl, rfl, .inl ?_⟩
    simp [Worker.goto, Work.working]

theorem Inv.coordinatorStep {n : Nat} {O T : Type} {s t : Pool n O T} (hs : s.Inv) {w : Fin n}
    {c : Choice n T} (h : s.coordinatorStep w c = some t) : t.Inv ∧ s.Effect t w := by
  have hwork := (hs.workers w).work
  have stays {remaining : Nat} (hw : (s.workers w).work = .giveVictim remaining) {pc : Work n T}
      (hpc : pc.Ok (s.workers w).localTasks (s.workers w).lifoSlot) (hlinked : pc.linked = true)
      (hasleep : pc ≠ .asleep) : (s.goto w pc).Inv ∧ s.Effect (s.goto w pc) w := by
    constructor
    · apply hs.goto hpc
      rw [hw, hlinked]
      rfl
    · apply Effect.setWorker
      right
      exact ⟨by rw [hw]; rfl, hasleep⟩
  cases coordinatorStep_cases h with
  | awakeOne hw hu =>
    rcases hw with ⟨hw, rfl⟩ | ⟨task, hw, rfl⟩
    · exact hs.notifyOne_goto .lifo (by rw [hw]; rfl) (fun _ _ => trivial) rfl hu
    · exact hs.notifyOne_goto (.run task) (by rw [hw]; rfl) (fun _ _ => trivial) rfl hu
  | allowParking hw =>
    rw [hw] at hwork
    have hgoto : (s.goto w .grabAgain).Inv := hs.goto hwork (by rw [hw]; rfl)
    refine ⟨hgoto.setCoordinator (allowParking_linked hgoto.linked), rfl, rfl, rfl, .inl ?_⟩
    simp [Worker.goto, Work.working]
  | gaveUp hw | itself hw | victim hw =>
    rw [hw] at hwork
    exact stays hw hwork rfl nofun
  | park hw hallowed hunlink => exact hs.park hw hallowed hunlink
  | prohibited hw =>
    have hgoto : (s.goto w .pick).Inv := hs.goto trivial (by rw [hw]; rfl)
    exact ⟨hgoto, .setWorker (.inl rfl)⟩
  | notified hw => exact hs.acquire hw
  | @prohibitParking task u hw hu =>
    have hprohibited := hs.setCoordinator (prohibitParking_linked hs.linked)
    have hworking : (s.workers w).work.working = true := by rw [hw]; rfl
    obtain ⟨hinv, heffect⟩ :=
      hprohibited.notifyOne_goto (.run task) hworking (fun _ _ => trivial) rfl hu
    refine ⟨hinv, heffect.outside, heffect.waitIdle, heffect.stop, .inl ?_⟩
    simp [Worker.goto, Work.working]
  | release hw =>
    rw [hw] at hwork
    exact hwork.elim

theorem Effect.steal {n : Nat} {O T : Type} {s : Pool n O T} {v w : Fin n}
    {tasks : List (Option T)} {pc : Work n T}
    (h : pc.working = true ∨ (s.workers w).work.watching = false ∧ pc ≠ .asleep) :
    s.Effect ((s.setWorker v { s.workers v with localTasks := tasks }).goto w pc) w := by
  refine ⟨rfl, rfl, rfl, ?_⟩
  rcases h with hworking | ⟨hwatching, hasleep⟩
  · left
    simpa [Worker.goto] using hworking
  · right
    right
    refine ⟨rfl, rfl, hwatching, fun x hx => ?_, fun h => ?_⟩
    · rw [goto_ne _ _ hx]
      by_cases hxv : x = v
      · subst hxv
        rw [setWorker_self]
      · rw [setWorker_ne s _ hxv]
    · simp only [goto_self, Worker.goto] at h
      exact absurd h hasleep

theorem Inv.stealStep {n : Nat} {O T : Type} {s t : Pool n O T} (hs : s.Inv) {w : Fin n}
    {c : Choice n T} (hpublishes : s.publishesTasks (.worker w c : PoolLabel n O T) = true)
    (h : s.stealStep w c = some t) : t.Inv ∧ s.Effect t w := by
  cases stealStep_cases h with
  | lowSize hw =>
    have hwork := (hs.workers w).work
    rw [hw] at hwork
    constructor
    · apply hs.goto
      · exact hwork
      · rw [hw]
        rfl
    · apply Effect.setWorker
      right
      exact ⟨by rw [hw]; rfl, nofun⟩
  | @steal remaining victim limit hw =>
    have hvictim := hs.setWorker ((hs.workers victim).drop limit) rfl
    have htaken := (hs.workers victim).tasks.take limit
    -- a thief has an empty ring, also when it is its own victim
    have hthief : ((s.setWorker victim { s.workers victim with
        localTasks := (s.workers victim).localTasks.drop limit }).workers w).work =
        .steal remaining victim limit := by
      by_cases hwv : w = victim
      · subst hwv
        rw [setWorker_self, hw]
      · rw [setWorker_ne s _ hwv, hw]
    have hwork := (hvictim.workers w).work
    rw [hthief] at hwork
    have place {u : Pool n O T} (hu : u.Inv)
        (hthief : (u.workers w).work = .steal remaining victim limit) {pc : Work n T}
        (hpc : pc.Ok (u.workers w).localTasks (u.workers w).lifoSlot)
        (hlinked : pc.linked = true) : (u.goto w pc).Inv := by
      apply hu.goto hpc
      rw [hthief, hlinked]
      rfl
    generalize (s.workers victim).localTasks.take limit = taken at htaken ⊢
    match taken, htaken with
    | [], _ => exact ⟨place hvictim hthief hwork rfl, .steal (.inr ⟨by rw [hw]; rfl, nofun⟩)⟩
    | [first], htaken =>
      obtain ⟨task, rfl⟩ := Option.ne_none_iff_exists'.mp htaken.of_cons.1
      exact ⟨place hvictim hthief trivial rfl, .steal (.inl rfl)⟩
    | first :: second :: rest, htaken =>
      exact ⟨place hvictim hthief ⟨hwork, htaken.of_cons⟩ rfl, .steal (.inl rfl)⟩
  | @grab task overflow hw =>
    have hok := hs.workers w
    have htasks : Tasks ((s.workers w).offloaded overflow c.uninit) := by
      intro item hitem hnone
      simp only [publishesTasks, hw, List.all_eq_true] at hpublishes
      simpa [hnone] using hpublishes item hitem
    constructor
    · apply hs.setWorker
      · exact ⟨hok.running, hok.tasks.drop _, htasks⟩
      · rw [hw]
        rfl
    · exact .setWorker (.inl rfl)

theorem Inv.workerStep {n : Nat} {O T : Type} {s t : Pool n O T} (hs : s.Inv) {w : Fin n}
    {c : Choice n T} (hpublishes : s.publishesTasks (.worker w c : PoolLabel n O T) = true)
    (h : s.workerStep w c = some t) : t.Inv ∧ s.Effect t w := by
  rcases workerStep_cases h with ⟨x, hx, rfl⟩ | hglobal | hcoordinator | hsteal
  · obtain ⟨hok, hlinked, hpolls⟩ := (hs.workers w).localStep hx
    exact ⟨hs.setWorker hok hlinked, .setWorker hpolls⟩
  · exact hs.globalStep hglobal
  · exact hs.coordinatorStep hcoordinator
  · exact hs.stealStep hpublishes hsteal

theorem Inv.outsideStep {n : Nat} {O T : Type} [DecidableEq O] {s t : Pool n O T} (hs : s.Inv)
    {o : O} {woken : Option (Fin n)} (h : s.outsideStep o woken = some t) :
    t.Inv ∧ t.stop = s.stop := by
  unfold Pool.outsideStep at h
  have called {u : Pool n O T} (hu : u.Inv) (pc : OutsideCall T) : (u.call o pc).Inv :=
    ⟨hu.workers, hu.tasks, hu.unclosed, hu.tracks, hu.linked⟩
  cases ho : s.outside o with
  | idle => simp [ho] at h
  | pushOne task =>
    simp only [ho, Option.some.injEq] at h
    subst h
    exact ⟨called hs _, rfl⟩
  | pushOneLocked task =>
    simp only [ho, Option.some.injEq] at h
    subst h
    refine ⟨(called hs _).setGlobal ?_ hs.unclosed ?_, rfl⟩
    · exact hs.tasks.append (.singleton task)
    · exact GlobalQueue.pushOne_tracks hs.tracks _
  | discard task =>
    simp only [ho, Option.some.injEq] at h
    subst h
    exact ⟨called hs _, rfl⟩
  | prohibitParking =>
    simp only [ho] at h
    obtain ⟨u, hu, rfl⟩ := Option.map_eq_some_iff.mp h
    have hprohibited := hs.setCoordinator (prohibitParking_linked hs.linked)
    exact ⟨called (hprohibited.notifyOne hu) _, (notifyOne_frame hu).2.2.1⟩

theorem workerStep_stop {n : Nat} {O T : Type} {s t : Pool n O T} {w : Fin n} {c : Choice n T}
    (h : s.workerStep w c = some t) : t.stop = s.stop := by
  rcases workerStep_cases h with ⟨x, -, rfl⟩ | hglobal | hcoordinator | hsteal
  · rfl
  · cases globalStep_cases hglobal with
    | grab _ h =>
      obtain ⟨global, items, -, rfl⟩ := grab_eq h
      rfl
    | _ => rfl
  · cases coordinatorStep_cases hcoordinator with
    | awakeOne _ hu =>
      have hsame := (notifyOne_frame hu).2.2.1
      exact hsame
    | prohibitParking _ hu =>
      have hsame := (notifyOne_frame hu).2.2.1
      exact hsame
    | _ => rfl
  · cases stealStep_cases hsteal with
    | lowSize _ | steal _ | grab _ => rfl

theorem outsideStep_stop {n : Nat} {O T : Type} [DecidableEq O] {s t : Pool n O T} {o : O}
    {woken : Option (Fin n)} (h : s.outsideStep o woken = some t) : t.stop = s.stop := by
  unfold outsideStep at h
  cases ho : s.outside o with
  | idle => simp [ho] at h
  | pushOne task | pushOneLocked task | discard task =>
    simp only [ho, Option.some.injEq] at h
    subst h
    rfl
  | prohibitParking =>
    simp only [ho] at h
    obtain ⟨u, hu, rfl⟩ := Option.map_eq_some_iff.mp h
    have hsame := (notifyOne_frame hu).2.2.1
    exact hsame

/-- What the steps of a pool are before `Stop`; the code of a task and `WaitIdle`
are taken apart here once for all. -/
inductive Move {n : Nat} {O T : Type} [DecidableEq O] (s : Pool n O T) :
    PoolLabel n O T → Pool n O T → Prop where
  | worker {w : Fin n} {c : Choice n T} {t : Pool n O T} (h : s.workerStep w c = some t) :
      Move s (.worker w c) t
  | task {l : PoolLabel n O T} {w : Fin n} {task : T} {pc : Work n T}
      (hw : (s.workers w).work = .run task) (hpc : pc.working = true)
      (hok : ∀ localTasks lifoSlot, pc.Ok localTasks lifoSlot) : Move s l (s.goto w pc)
  | spurious {v : Fin n} (hv : (s.workers v).work = .asleep) :
      Move s (.spurious v) (s.goto v .notified)
  | submit {o : O} {task : T} (ho : s.outside o = .idle) :
      Move s (.submit o task) (s.call o (.pushOne task))
  | outside {o : O} {woken : Option (Fin n)} {t : Pool n O T}
      (h : s.outsideStep o woken = some t) : Move s (.outside o woken) t
  | callWaitIdle : Move s .callWaitIdle { s with waitIdle := .globalTasks }
  | waitGlobalTasks (hcounter : s.global.waiter.counter = 0) :
      Move s .waitIdle { s with waitIdle := .coordinator }
  | waitCoordinator (hwait : s.waitIdle = .coordinator)
      (hcounter : s.coordinator.waiter.counter = 0) :
      Move s .waitIdle { s with waitIdle := .returned }

theorem move_of_step {n : Nat} {O T : Type} [DecidableEq O] {s t : Pool n O T}
    (hstop : s.stop = .notCalled) {l : PoolLabel n O T} (hl : l.callsStop = false)
    (h : s.step l = some t) : s.Move l t := by
  unfold Pool.step at h
  cases l with
  | worker w c => exact .worker h
  | execute w task hint =>
    cases hw : (s.workers w).work <;> simp only [hw, reduceCtorEq, Option.some.injEq] at h
    subst h
    exact .task hw rfl fun _ _ => by cases hint <;> trivial
  | return_ w =>
    cases hw : (s.workers w).work <;> simp only [hw, reduceCtorEq, Option.some.injEq] at h
    subst h
    exact .task hw rfl fun _ _ => trivial
  | throw w =>
    cases hw : (s.workers w).work <;> simp only [hw, reduceCtorEq, Option.some.injEq] at h
    subst h
    exact .task hw rfl fun _ _ => trivial
  | spurious v =>
    simp only [Option.ite_none_right_eq_some, Option.some.injEq] at h
    obtain ⟨hv, rfl⟩ := h
    exact .spurious (Worker.asleep_iff.mp hv)
  | submit o task =>
    cases ho : s.outside o <;> simp only [ho, reduceCtorEq, Option.some.injEq] at h
    subst h
    exact .submit ho
  | outside o woken => exact .outside h
  | callWaitIdle =>
    cases hwait : s.waitIdle <;> simp only [hwait, reduceCtorEq, Option.some.injEq] at h
    subst h
    exact .callWaitIdle
  | waitIdle =>
    cases hwait : s.waitIdle <;> simp only [waitIdleStep, hwait, reduceCtorEq,
      Option.ite_none_right_eq_some, Option.some.injEq] at h
    · obtain ⟨hcounter, rfl⟩ := h
      exact .waitGlobalTasks hcounter
    · obtain ⟨hcounter, rfl⟩ := h
      exact .waitCoordinator hwait hcounter
  | callStop => cases hl
  | stop => simp [stopStep, hstop] at h

theorem Inv.step {n : Nat} {O T : Type} [DecidableEq O] {s t : Pool n O T} (hs : s.Inv)
    (hstop : s.stop = .notCalled) {l : PoolLabel n O T} (hpublishes : s.publishesTasks l = true)
    (h : s.Move l t) : t.Inv ∧ t.stop = .notCalled := by
  cases h with
  | worker h =>
    obtain ⟨hinv, heffect⟩ := hs.workerStep hpublishes h
    exact ⟨hinv, heffect.stop.trans hstop⟩
  | task hw hpc hok =>
    refine ⟨hs.goto (hok _ _) ?_, hstop⟩
    rw [hw, Work.linked_of_working hpc]
    rfl
  | spurious hv => exact ⟨hs.notify hv, hstop⟩
  | outside h =>
    obtain ⟨hinv, hsame⟩ := hs.outsideStep h
    exact ⟨hinv, hsame.trans hstop⟩
  | submit _ | callWaitIdle | waitGlobalTasks _ | waitCoordinator _ _ =>
    exact ⟨⟨hs.workers, hs.tasks, hs.unclosed, hs.tracks, hs.linked⟩, hstop⟩

end Pool

theorem pool_init_inv {n : Nat} {O T : Type} [DecidableEq O] : (pool n O T).init.Inv := by
  refine ⟨fun w => ⟨rfl, nofun, trivial⟩, nofun, rfl, rfl, ?_⟩
  apply (Coordinator.new_linked (List.nodup_finRange n)).congr
  simp [pool, Work.linked]

/-- A step of a run without `Stop` whose offloads publish no null pointer. -/
theorem move_of_guarded {n : Nat} {O T : Type} [DecidableEq O] {s t : Pool n O T}
    {l : PoolLabel n O T} (hstop : s.stop = .notCalled)
    (h : ((unstoppedPool n O T).guard Pool.publishesTasks).step s l = some t) :
    s.publishesTasks l = true ∧ s.Move l t := by
  obtain ⟨hpublishes, h⟩ := Machine.guard_step.mp h
  obtain ⟨hcalls, h⟩ := Machine.guard_step.mp h
  exact ⟨hpublishes, Pool.move_of_step hstop (by simpa using hcalls) h⟩

theorem pool_inv {n : Nat} {O T : Type} [DecidableEq O] {s : Pool n O T}
    (h : ((unstoppedPool n O T).guard Pool.publishesTasks).Reachable s) :
    s.Inv ∧ s.stop = .notCalled := by
  apply h.invariant (I := fun s => s.Inv ∧ s.stop = .notCalled)
  · exact ⟨pool_init_inv, rfl⟩
  · intro s l t _ ⟨hs, hstop⟩ hl
    obtain ⟨hpublishes, hmove⟩ := move_of_guarded hstop hl
    exact hs.step hstop hpublishes hmove

end ConcurrentProgramming.Fast
