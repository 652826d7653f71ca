import ConcurrentProgramming.Fast.Drain
import ConcurrentProgramming.Fast.Interference

/-!
Where the workers of the fast pool stand at the coordinator and how far `Stop` has
come, in all runs: with overflows, and with whatever an offload publishes.
-/

set_option autoImplicit false

namespace ConcurrentProgramming.Fast
open Interleaving

/-- The flag of worker `w` has been stored. -/
def PoolStop.passed {T : Type} (w : Nat) : PoolStop T → Prop
  | .notCalled => False
  | .stopWorkers i => w < i
  | _ => True

theorem PoolStop.passed_of_awoken {T : Type} {stop : PoolStop T} (h : stop.awoken = true)
    (w : Nat) : stop.passed w := by
  cases stop with
  | join i | returned => trivial
  | notCalled | stopWorkers i | storeClosed | drain | discard rest | awakeEveryoneForever => cases h

/-- While anything is queued the counter of the global queue can be decremented. -/
def GlobalQueue.Counted {T : Type} (g : GlobalQueue T) : Prop :=
  g.queue ≠ [] → g.waiter.counter ≠ 0

theorem GlobalQueue.Counted.pushOne {T : Type} {g : GlobalQueue T} (h : g.Counted) (item : T) :
    (g.pushOne item).Counted := by
  intro _
  by_cases hq : g.queue = []
  · simp [GlobalQueue.pushOne, hq, ZeroWaiter.incrementValue]
  · simpa [GlobalQueue.pushOne, hq] using h hq

theorem GlobalQueue.Counted.offload {T : Type} {g : GlobalQueue T} (h : g.Counted)
    (buffer : List T) : (g.offload buffer).Counted := by
  intro hany
  by_cases hq : g.queue = []
  · have hb : buffer ≠ [] := by
      rintro rfl
      exact hany (by simp [hq])
    simp [GlobalQueue.offload, hq, hb, ZeroWaiter.incrementValue]
  · simpa [GlobalQueue.offload, hq] using h hq

theorem GlobalQueue.Counted.grab {T : Type} {g g' : GlobalQueue T} (h : g.Counted)
    {outSize workers : Nat} {items : List T} (hgrab : g.grab outSize workers = some (g', items)) :
    g'.Counted := by
  unfold GlobalQueue.grab at hgrab
  by_cases h0 : grabLimit outSize g.queue.length workers = 0
  · simp only [h0, if_true, Option.some.injEq, Prod.mk.injEq] at hgrab
    exact hgrab.1 ▸ h
  simp only [h0, if_false] at hgrab
  split at hgrab
  · rename_i hall
    obtain ⟨waiter, -, hg⟩ := Option.map_eq_some_iff.mp hgrab
    obtain ⟨rfl, -⟩ := Prod.mk.inj hg
    intro hq
    exact (hq (by simp [hall])).elim
  · obtain ⟨rfl, -⟩ := Prod.mk.inj (Option.some.inj hgrab)
    intro hq
    exact h fun hnil => hq (by simp [hnil])

theorem GlobalQueue.Counted.exists_grab {T : Type} {g : GlobalQueue T} (h : g.Counted)
    (outSize workers : Nat) : ∃ x, g.grab outSize workers = some x := by
  unfold GlobalQueue.grab
  by_cases h0 : grabLimit outSize g.queue.length workers = 0
  · exact ⟨_, if_pos h0⟩
  simp only [h0, if_false]
  split
  · rename_i hall
    have hq : g.queue ≠ [] := by
      intro hnil
      rw [hall, hnil] at h0
      exact h0 rfl
    exact ⟨_, by rw [ZeroWaiter.decrementValue, if_neg (h hq), Option.map_some]⟩
  · exact ⟨_, rfl⟩

namespace Worker

theorem Aside.stops {n : Nat} {T : Type} {x y : Worker n T} (h : x.Aside y)
    (hx : x.stopped = true) : y.stopped = true := by
  cases h with
  | robbed k => exact hx
  | woken _ => exact hx
  | stopped => rfl

theorem Aside.linked {n : Nat} {T : Type} {x y : Worker n T} (h : x.Aside y) :
    y.work.linked = x.work.linked := by
  cases h with
  | robbed k => rfl
  | woken hasleep => rw [hasleep]; rfl
  | stopped => rfl

theorem Aside.awake {n : Nat} {T : Type} {x y : Worker n T} (h : x.Aside y)
    (hx : x.work ≠ .asleep) : y.work ≠ .asleep := by
  rw [(h.work hx).1]
  exact hx

theorem picked_stands {n : Nat} {T : Type} {pc : Work n T} (hpc : pc.linked = true)
    (hawake : pc ≠ .asleep) (item : Option T) :
    (Worker.picked pc item).linked = true ∧ Worker.picked pc item ≠ .asleep := by
  cases item with
  | none => exact ⟨hpc, hawake⟩
  | some task => exact ⟨rfl, by simp [Worker.picked]⟩

/-- What a worker does by itself is nothing to the coordinator. -/
theorem LocalStep.stands {n : Nat} {T : Type} {x y : Worker n T} {impudence : Stealing}
    (h : x.LocalStep impudence y) :
    y.stopped = x.stopped ∧ y.work.linked = x.work.linked ∧ y.work ≠ .asleep := by
  cases h with
  | @popped ans rest hw hlocal =>
    obtain ⟨hlinked, hawake⟩ :=
      picked_stands (rfl : (Work.grab : Work n T).linked = true) (by simp) ans
    exact ⟨rfl, by rw [hw, hlinked]; rfl, hawake⟩
  | @pushMany first rest pc hw hfits =>
    rcases hw with ⟨hw, rfl⟩ | ⟨hw, rfl⟩
    · obtain ⟨hlinked, hawake⟩ :=
        picked_stands (rfl : (Work.impudence : Work n T).linked = true) (by simp) first
      exact ⟨rfl, by rw [hw, hlinked]; rfl, hawake⟩
    · obtain ⟨hlinked, hawake⟩ :=
        picked_stands (rfl : (Work.lifoCheck : Work n T).linked = true) (by simp) first
      exact ⟨rfl, by rw [hw, hlinked]; rfl, hawake⟩
  | refused hw hstopped =>
    rcases hw with hw | hw
    · exact ⟨rfl, by rw [hw]; rfl, by simp [Worker.goto]⟩
    · exact ⟨rfl, by rw [hw]; rfl, by simp [Worker.goto]⟩
  | stopped hw | tenth hw | next hw | lifoTask hw | noLifo hw | ringEmpty hw | active hw
  | passive hw | lifoFilled hw | lifoEmpty hw | lifoSlot hw | displaced hw | localQueue hw
  | pushed hw | full hw | discard hw | discardOffloaded hw | offloadDiscarded hw
  | discardPushed hw | discardRun hw | discardLifo hw | drained hw | drainedNull hw
  | drainedAll hw | discardDrained hw =>
    exact ⟨rfl, by rw [hw]; rfl, by simp [Worker.goto]⟩

end Worker

namespace Pool

structure Standing {n : Nat} {O T : Type} (s : Pool n O T) : Prop where
  linked : s.coordinator.Linked fun w => (s.workers w).work.linked = true
  counted : s.global.Counted
  stopped : ∀ w : Fin n, s.stop.passed w → (s.workers w).stopped = true
  permanent : s.coordinator.permission = .permanentlyProhibited ↔ s.stop.awoken = true
  awake : s.stop.awoken = true → ∀ w, (s.workers w).work ≠ .asleep

/-- Worker `w` moves, the others are left aside. -/
theorem Standing.of_aside {n : Nat} {O T : Type} {s t : Pool n O T} (hs : s.Standing) (w : Fin n)
    (haside : ∀ v, v ≠ w → (s.workers v).Aside (t.workers v)) (hstop : t.stop = s.stop)
    (hstopped : (s.workers w).stopped = true → (t.workers w).stopped = true)
    (hlinked : t.coordinator.Linked fun v => (t.workers v).work.linked = true)
    (hcounted : t.global.Counted)
    (hpermission : t.coordinator.permission = .permanentlyProhibited ↔
      s.coordinator.permission = .permanentlyProhibited)
    (hawake : s.coordinator.permission = .permanentlyProhibited → (t.workers w).work ≠ .asleep) :
    t.Standing := by
  refine ⟨hlinked, hcounted, fun v hv => ?_, ?_, fun hawoken v => ?_⟩
  · rw [hstop] at hv
    by_cases hvw : v = w
    · subst hvw
      exact hstopped (hs.stopped v hv)
    · exact (haside v hvw).stops (hs.stopped v hv)
  · rw [hpermission, hs.permanent, hstop]
  · rw [hstop] at hawoken
    by_cases hvw : v = w
    · exact hvw ▸ hawake (hs.permanent.mpr hawoken)
    · exact (haside v hvw).awake (hs.awake hawoken v)

/-- The same, where `w` keeps its place at the coordinator. -/
theorem Standing.of_stands {n : Nat} {O T : Type} {s t : Pool n O T} (hs : s.Standing) (w : Fin n)
    (haside : ∀ v, v ≠ w → (s.workers v).Aside (t.workers v)) (hstop : t.stop = s.stop)
    (hw : (s.workers w).stopped = true → (t.workers w).stopped = true)
    (hplace : (t.workers w).work.linked = (s.workers w).work.linked)
    (hawake : (t.workers w).work ≠ .asleep)
    (hlinked : t.coordinator.Linked fun v => (s.workers v).work.linked = true)
    (hcounted : t.global.Counted)
    (hpermission : t.coordinator.permission = .permanentlyProhibited ↔
      s.coordinator.permission = .permanentlyProhibited) : t.Standing := by
  refine hs.of_aside w haside hstop hw (hlinked.congr fun v => ?_) hcounted hpermission
    fun _ => hawake
  by_cases hv : v = w
  · rw [hv, hplace]
  · rw [(haside v hv).linked]

theorem Standing.goto {n : Nat} {O T : Type} {s : Pool n O T} (hs : s.Standing) {w : Fin n}
    {pc : Work n T} (hplace : pc.linked = (s.workers w).work.linked) (hawake : pc ≠ .asleep)
    {global : GlobalQueue (Option T)} (hcounted : global.Counted) :
    ({ s.goto w pc with global := global } : Pool n O T).Standing := by
  have hw : (s.goto w pc).workers w = (s.workers w).goto pc := goto_self s w pc
  refine hs.of_stands w (fun v hv => aside_setWorker s _ hv) rfl ?_ ?_ ?_ hs.linked hcounted .rfl
  · intro h
    simp only [hw]
    exact h
  · simp only [hw]
    exact hplace
  · simp only [hw]
    exact hawake

theorem Standing.globalStep {n : Nat} {O T : Type} {s t : Pool n O T} (hs : s.Standing) {w : Fin n}
    (h : s.globalStep w = some t) : t.Standing := by
  cases globalStep_cases h with
  | @grab pc _ hw h =>
    obtain ⟨global, items, hgrab, rfl⟩ := grab_eq h
    have hplace : (s.workers w).work.linked = true ∧ pc.linked = true ∧ pc ≠ .asleep := by
      rcases hw with ⟨hw, rfl⟩ | ⟨hw, rfl⟩ <;> exact ⟨by rw [hw]; rfl, rfl, by simp⟩
    obtain ⟨hlinked, hpc, hawake⟩ := hplace
    refine hs.goto ?_ ?_ (hs.counted.grab hgrab)
    · rw [hlinked]
      split
      · exact hpc
      · exact (Worker.picked_stands rfl (by simp) _).1
      · rfl
    · split
      · exact hawake
      · exact (Worker.picked_stands rfl (by simp) _).2
      · simp
  | offloadClosed hw | offload hw | pushOneClosed hw | pushOne hw =>
    exact hs.goto (by rw [hw]; rfl) (by simp) hs.counted
  | offloadLocked hw => exact hs.goto (by rw [hw]; rfl) (by simp) (hs.counted.offload _)
  | pushOneLocked hw => exact hs.goto (by rw [hw]; rfl) (by simp) (hs.counted.pushOne _)

theorem Standing.notify {n : Nat} {O T : Type} {s : Pool n O T} (hs : s.Standing) {v : Fin n}
    (hv : (s.workers v).work = .asleep) : (s.goto v .notified).Standing :=
  hs.goto (by rw [hv]; rfl) (by simp) hs.counted

theorem Standing.notifyOne {n : Nat} {O T : Type} {s t : Pool n O T} (hs : s.Standing)
    {woken : Option (Fin n)} (h : s.notifyOne woken = some t) : t.Standing := by
  rcases notifyOne_cases h with ⟨v, hv, rfl⟩ | ⟨-, rfl⟩
  · exact hs.notify hv
  · exact hs

theorem prohibitParking_permanent {W : Type} (c : Coordinator W) :
    c.prohibitParking.permission = .permanentlyProhibited ↔
      c.permission = .permanentlyProhibited := by
  unfold Coordinator.prohibitParking
  split
  · rename_i h
    simp [h]
  · exact .rfl

theorem allowParking_permanent {W : Type} (c : Coordinator W) :
    c.allowParking.permission = .permanentlyProhibited ↔
      c.permission = .permanentlyProhibited := by
  unfold Coordinator.allowParking
  split
  · rename_i h
    simp [h]
  · exact .rfl

theorem Standing.prohibitParking {n : Nat} {O T : Type} {s : Pool n O T} (hs : s.Standing) :
    ({ s with coordinator := s.coordinator.prohibitParking } : Pool n O T).Standing :=
  ⟨prohibitParking_linked hs.linked, hs.counted, hs.stopped,
    (prohibitParking_permanent _).trans hs.permanent, hs.awake⟩

theorem Standing.coordinatorStep {n : Nat} {O T : Type} {s t : Pool n O T} (hs : s.Standing)
    {w : Fin n} {c : Choice n T} (h : s.coordinatorStep w c = some t) : t.Standing := by
  cases coordinatorStep_cases h with
  | @awakeOne pc u hw hu =>
    have hplace : (s.workers w).work.linked = true ∧ (s.workers w).work ≠ .asleep ∧
        pc.linked = true ∧ pc ≠ .asleep := by
      rcases hw with ⟨hw, rfl⟩ | ⟨task, hw, rfl⟩ <;>
        exact ⟨by rw [hw]; rfl, by rw [hw]; simp, rfl, by simp⟩
    obtain ⟨hlinked, hawake, hpc, hnext⟩ := hplace
    have hsame := (notifyOne_frame hu).2.2.2.2.2 w hawake
    have hu' := hs.notifyOne hu
    exact hu'.goto (by rw [hsame, hpc, hlinked]) hnext hu'.counted
  | allowParking hw =>
    have hgoto : (s.goto w .grabAgain).Standing :=
      hs.goto (by rw [hw]; rfl) (by simp) hs.counted
    exact ⟨allowParking_linked hgoto.linked, hgoto.counted, hgoto.stopped,
      (allowParking_permanent _).trans hgoto.permanent, hgoto.awake⟩
  | gaveUp hw | itself hw | victim hw | prohibited hw =>
    exact hs.goto (by rw [hw]; rfl) (by simp) hs.counted
  | park hw hallowed hunlink =>
    obtain ⟨hpermission, hlinked⟩ := hs.linked.unlink (by rw [hw]; rfl) hunlink
    refine hs.of_aside w (fun v hv => aside_setWorker s _ hv) rfl (fun h => ?_)
      (hlinked.congr fun v => ?_) hs.counted (by rw [hpermission]) (fun h => ?_)
    · simpa [Worker.goto] using h
    · by_cases hv : v = w
      · simp [hv, Worker.goto, Work.linked]
      · simp [goto_ne s _ hv, hv]
    · rw [hallowed] at h
      cases h
  | notified hw =>
    have hlinked := hs.linked.acquireUnsafe (w := w) (by rw [hw]; simp [Work.linked])
    refine hs.of_aside w (fun v hv => aside_setWorker s _ hv) rfl (fun h => ?_)
      (hlinked.congr fun v => ?_) hs.counted .rfl (fun _ => ?_)
    · simpa [Worker.goto] using h
    · by_cases hv : v = w
      · simp [hv, Worker.goto, Work.linked]
      · simp [goto_ne s _ hv, hv]
    · simp [Worker.goto]
  | @prohibitParking task u hw hu =>
    have hprohibited := hs.prohibitParking.notifyOne hu
    have hsame := (notifyOne_frame hu).2.2.2.2.2 w (by rw [hw]; simp)
    exact hprohibited.goto (by rw [hsame, hw]; rfl) (by simp) hprohibited.counted
  | release hw hrelease =>
    obtain ⟨hpermission, hlinked⟩ := hs.linked.release (by rw [hw]; rfl) hrelease
    have hpc : (if (s.workers w).lifoSlot.isSome then Work.discardLifo else .drain :
        Work n T).linked = false ∧ (if (s.workers w).lifoSlot.isSome then Work.discardLifo
        else .drain : Work n T) ≠ .asleep := by
      split <;> exact ⟨rfl, by simp⟩
    refine hs.of_aside w (fun v hv => aside_setWorker s _ hv) rfl (fun h => ?_)
      (hlinked.congr fun v => ?_) hs.counted (by rw [hpermission]) (fun _ => ?_)
    · simpa [Worker.goto] using h
    · by_cases hv : v = w
      · simp [hv, Worker.goto, hpc.1]
      · simp [goto_ne s _ hv, hv]
    · simpa [Worker.goto] using hpc.2

theorem Standing.stealStep {n : Nat} {O T : Type} {s t : Pool n O T} (hs : s.Standing) {w : Fin n}
    {c : Choice n T} (h : s.stealStep w c = some t) : t.Standing := by
  have haside (v : Fin n) (hv : v ≠ w) := aside_stealStep hv h
  cases stealStep_cases h with
  | lowSize hw => exact hs.goto (by rw [hw]; rfl) (by simp) hs.counted
  | @steal remaining victim limit hw =>
    have hrobbed : ((s.setWorker victim { s.workers victim with
        localTasks := (s.workers victim).localTasks.drop limit }).workers w).stopped =
          (s.workers w).stopped := by
      by_cases hv : w = victim
      · simp [hv]
      · rw [setWorker_ne s _ hv]
    refine hs.of_stands w haside rfl (fun h => ?_) ?_ ?_ hs.linked hs.counted .rfl
    · simpa [Worker.goto, hrobbed] using h
    · rw [goto_self, hw]
      simp only [Worker.goto]
      split
      · rfl
      · exact (Worker.picked_stands rfl (by simp) _).1
      · rfl
    · rw [goto_self]
      simp only [Worker.goto]
      split
      · simp
      · exact (Worker.picked_stands rfl (by simp) _).2
      · simp
  | grab hw =>
    refine hs.of_stands w haside rfl (fun h => ?_) ?_ ?_ hs.linked hs.counted .rfl
    · simpa using h
    · rw [setWorker_self, hw]
      rfl
    · simp

theorem Standing.workerStep {n : Nat} {O T : Type} {s t : Pool n O T} (hs : s.Standing) {w : Fin n}
    {c : Choice n T} (h : s.workerStep w c = some t) : t.Standing := by
  rcases workerStep_cases h with ⟨x, hx, rfl⟩ | hglobal | hcoordinator | hsteal
  · obtain ⟨hstopped, hlinked, hawake⟩ := (Worker.localStep_cases hx).stands
    refine hs.of_stands w (fun v hv => aside_setWorker s x hv) rfl (fun h => ?_) ?_ ?_ hs.linked
      hs.counted .rfl
    · rw [setWorker_self, hstopped]
      exact h
    · rw [setWorker_self, hlinked]
    · rw [setWorker_self]
      exact hawake
  · exact hs.globalStep hglobal
  · exact hs.coordinatorStep hcoordinator
  · exact hs.stealStep hsteal

theorem Standing.outsideStep {n : Nat} {O T : Type} [DecidableEq O] {s t : Pool n O T}
    (hs : s.Standing) {o : O} {woken : Option (Fin n)} (h : s.outsideStep o woken = some t) :
    t.Standing := by
  have called {u : Pool n O T} (hu : u.Standing) (pc : OutsideCall T) : (u.call o pc).Standing :=
    ⟨hu.linked, hu.counted, hu.stopped, hu.permanent, hu.awake⟩
  unfold Pool.outsideStep at h
  cases ho : s.outside o with
  | idle => simp [ho] at h
  | pushOne task | discard task =>
    simp only [ho, Option.some.injEq] at h
    subst h
    exact called hs _
  | pushOneLocked task =>
    simp only [ho, Option.some.injEq] at h
    subst h
    exact ⟨hs.linked, hs.counted.pushOne _, hs.stopped, hs.permanent, hs.awake⟩
  | prohibitParking =>
    simp only [ho] at h
    obtain ⟨u, hu, rfl⟩ := Option.map_eq_some_iff.mp h
    exact called (hs.prohibitParking.notifyOne hu) _

/-- `Stop` goes on without a word to the workers. -/
theorem Standing.setStop {n : Nat} {O T : Type} {s : Pool n O T} (hs : s.Standing)
    {stop : PoolStop T} (hpassed : ∀ w : Fin n, stop.passed w → s.stop.passed w)
    (hawoken : stop.awoken = s.stop.awoken) {global : GlobalQueue (Option T)}
    (hcounted : global.Counted) :
    ({ s with stop := stop, global := global } : Pool n O T).Standing :=
  ⟨hs.linked, hcounted, fun w hw => hs.stopped w (hpassed w hw), hawoken ▸ hs.permanent,
    fun h => hs.awake (hawoken ▸ h)⟩

theorem Standing.stopWorker {n : Nat} {O T : Type} {s : Pool n O T} (hs : s.Standing) {i : Nat}
    (hi : i < n) (hstop : s.stop = .stopWorkers i) :
    ({ s.setWorker ⟨i, hi⟩ { s.workers ⟨i, hi⟩ with stopped := true } with
      stop := .stopWorkers (i + 1) } : Pool n O T).Standing := by
  have hsame (v : Fin n) : ((s.setWorker ⟨i, hi⟩ { s.workers ⟨i, hi⟩ with
      stopped := true }).workers v).work = (s.workers v).work := by
    by_cases hv : v = ⟨i, hi⟩
    · simp [hv]
    · rw [setWorker_ne s _ hv]
  refine ⟨hs.linked.congr fun v => ?_, hs.counted, fun v hv => ?_, ?_, nofun⟩
  · rw [hsame]
  · by_cases hvi : v = ⟨i, hi⟩
    · simp [hvi]
    · have hpassed : v.val < i + 1 := hv
      have hne : v.val ≠ i := fun h => hvi (Fin.ext h)
      have hbefore : s.stop.passed v := by
        rw [hstop]
        exact (by omega : v.val < i)
      simpa [setWorker_ne s _ hvi] using hs.stopped v hbefore
  · have hpermanent := hs.permanent
    rw [hstop] at hpermanent
    exact hpermanent

theorem Standing.awakeEveryoneForever {n : Nat} {O T : Type} {s : Pool n O T} (hs : s.Standing)
    (hstop : s.stop = .awakeEveryoneForever) :
    ({ s.notifyAll with
      coordinator := s.coordinator.awakeEveryoneForever, stop := .join 0 } : Pool n O T).Standing := by
  have haside (v : Fin n) : (s.workers v).Aside (s.notifyAll.workers v) := by
    rcases s.notifyAll_worker v with ⟨hv, heq⟩ | ⟨-, heq⟩
    · exact heq ▸ .woken hv
    · exact heq ▸ .refl _
  have hlinked : s.coordinator.awakeEveryoneForever.Linked
      fun v => (s.workers v).work.linked = true :=
    ⟨hs.linked.nodup, hs.linked.mem, hs.linked.counter⟩
  refine ⟨hlinked.congr fun v => by rw [(haside v).linked], hs.counted,
    fun v _ => (haside v).stops (hs.stopped v (by rw [hstop]; trivial)), iff_of_true rfl rfl,
    fun _ v => ?_⟩
  rcases s.notifyAll_worker v with ⟨-, heq⟩ | ⟨hv, heq⟩
  · show (s.notifyAll.workers v).work ≠ .asleep
    rw [heq]
    simp [Worker.goto]
  · show (s.notifyAll.workers v).work ≠ .asleep
    rwa [heq]

theorem Standing.stopStep {n : Nat} {O T : Type} {s t : Pool n O T} (hs : s.Standing)
    (h : s.stopStep = some t) : t.Standing := by
  unfold Pool.stopStep at h
  cases hstop : s.stop with
  | notCalled | returned => simp [hstop] at h
  | stopWorkers i =>
    simp only [hstop] at h
    split at h
    · rename_i hi
      simp only [Option.some.injEq] at h
      subst h
      exact hs.stopWorker hi hstop
    · rename_i hi
      simp only [Option.some.injEq] at h
      subst h
      refine hs.setStop (fun w _ => ?_) (by rw [hstop]; rfl) hs.counted
      rw [hstop]
      exact lt_of_lt_of_le w.isLt (Nat.le_of_not_lt hi)
  | storeClosed =>
    simp only [hstop, Option.some.injEq] at h
    subst h
    exact hs.setStop (fun w _ => by rw [hstop]; trivial) (by rw [hstop]; rfl) hs.counted
  | drain =>
    simp only [hstop, GlobalQueue.drain] at h
    split at h
    · simp only [Option.some.injEq] at h
      subst h
      exact hs.setStop (fun w _ => by rw [hstop]; trivial) (by rw [hstop]; rfl) hs.counted
    · rename_i global items _ hdrain
      obtain ⟨rfl, rfl⟩ := Prod.mk.inj hdrain
      simp only [Option.some.injEq] at h
      subst h
      have hcounted : ({ s.global with queue := s.global.queue.drop 256 } :
          GlobalQueue (Option T)).Counted := fun hq => hs.counted fun hnil => hq (by simp [hnil])
      exact hs.setStop (fun w _ => by rw [hstop]; trivial) (by rw [hstop]; rfl) hcounted
  | discard rest =>
    cases rest with
    | nil | cons item rest =>
      simp only [hstop, Option.some.injEq] at h
      subst h
      exact hs.setStop (fun w _ => by rw [hstop]; trivial) (by rw [hstop]; rfl) hs.counted
  | awakeEveryoneForever =>
    simp only [hstop, Option.some.injEq] at h
    subst h
    exact hs.awakeEveryoneForever hstop
  | join i =>
    simp only [hstop] at h
    split at h
    · split at h
      · simp only [Option.some.injEq] at h
        subst h
        exact hs.setStop (fun w _ => by rw [hstop]; trivial) (by rw [hstop]; rfl) hs.counted
      · cases h
    · simp only [Option.some.injEq] at h
      subst h
      exact hs.setStop (fun w _ => by rw [hstop]; trivial) (by rw [hstop]; rfl) hs.counted

theorem Standing.step {n : Nat} {O T : Type} [DecidableEq O] {s t : Pool n O T} (hs : s.Standing)
    {l : PoolLabel n O T} (h : s.step l = some t) : t.Standing := by
  unfold Pool.step at h
  cases l with
  | worker w c => exact hs.workerStep h
  | execute w task hint =>
    cases hw : (s.workers w).work <;> simp only [hw, reduceCtorEq, Option.some.injEq] at h
    subst h
    exact hs.goto (by rw [hw]; rfl) (by simp) hs.counted
  | return_ w =>
    cases hw : (s.workers w).work <;> simp only [hw, reduceCtorEq, Option.some.injEq] at h
    subst h
    exact hs.goto (by rw [hw]; rfl) (by simp) hs.counted
  | throw w =>
    cases hw : (s.workers w).work <;> simp only [hw, reduceCtorEq, Option.some.injEq] at h
    subst h
    exact hs.goto (by rw [hw]; rfl) (by simp) hs.counted
  | spurious v =>
    simp only [Option.ite_none_right_eq_some, Option.some.injEq] at h
    obtain ⟨hv, rfl⟩ := h
    exact hs.notify (Worker.asleep_iff.mp hv)
  | submit o task =>
    cases ho : s.outside o <;> simp only [ho, reduceCtorEq, Option.some.injEq] at h
    subst h
    exact ⟨hs.linked, hs.counted, hs.stopped, hs.permanent, hs.awake⟩
  | outside o woken => exact hs.outsideStep h
  | callWaitIdle =>
    cases hwait : s.waitIdle <;> simp only [hwait, reduceCtorEq, Option.some.injEq] at h
    subst h
    exact ⟨hs.linked, hs.counted, hs.stopped, hs.permanent, hs.awake⟩
  | waitIdle =>
    cases hwait : s.waitIdle <;> simp only [waitIdleStep, hwait, reduceCtorEq,
      Option.ite_none_right_eq_some, Option.some.injEq] at h
    all_goals
      obtain ⟨-, rfl⟩ := h
      exact ⟨hs.linked, hs.counted, hs.stopped, hs.permanent, hs.awake⟩
  | callStop =>
    cases hstop : s.stop <;> simp only [hstop, reduceCtorEq, Option.some.injEq] at h
    subst h
    exact hs.setStop (fun w hw => (Nat.not_lt_zero _ hw).elim) (by rw [hstop]; rfl) hs.counted
  | stop => exact hs.stopStep h

end Pool

theorem pool_standing {n : Nat} {O T : Type} [DecidableEq O] {s : Pool n O T}
    (h : (pool n O T).Reachable s) : s.Standing := by
  apply h.invariant
  · refine ⟨pool_init_inv.linked, fun hq => (hq rfl).elim, fun w hw => hw.elim, ?_, nofun⟩
    have hpermission (workers : List (Fin n)) (c : Coordinator (Fin n)) :
        (workers.foldl Coordinator.acquireUnsafe c).permission = c.permission := by
      induction workers generalizing c with
      | nil => rfl
      | cons w workers ih => exact ih _
    simp [pool, Coordinator.new, hpermission, PoolStop.awoken]
  · intro s l t _ hs hl
    exact hs.step hl

end ConcurrentProgramming.Fast
