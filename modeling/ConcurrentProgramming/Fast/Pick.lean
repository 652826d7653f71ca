import ConcurrentProgramming.Fast.Ready
import ConcurrentProgramming.Interleaving.Recurrence

/-!
What the calls of `PickNextTask` by one worker poll and return, in every run of the
pool: the budget of the LIFO slot, and how often the global queue is asked.
-/

set_option autoImplicit false

namespace ConcurrentProgramming.Fast
open Interleaving

/-- What `PickNextTask` learns: a task from the LIFO slot, or what one of the calls
that it makes returned. -/
inductive PickEvent (T : Type) where
  | lifo (task : T)
  | tryPickNextTask (ans : Option T)
  | grabTasksFromGlobalQueue (ans : Option T)
  | impudence (mode : Stealing)
  | tryStealTasks (ans : Option T)
  deriving DecidableEq, Repr

/-- How far an iteration of the loop in `PickNextTask` has come. -/
inductive PickPhase where
  | fresh
  | ringEmpty
  | globalEmpty
  | stealing
  deriving DecidableEq, Repr

namespace PickEvent

/-- The task that `PickNextTask` returns at this point. -/
def returned {T : Type} : PickEvent T → Option T
  | .lifo task => some task
  | .tryPickNextTask ans | .grabTasksFromGlobalQueue ans | .tryStealTasks ans => ans
  | .impudence _ => none

def ends {T : Type} (e : PickEvent T) : Bool := e.returned.isSome

def isLifo {T : Type} : PickEvent T → Bool
  | .lifo _ => true
  | _ => false

def before {T : Type} : PickEvent T → PickPhase
  | .lifo _ | .tryPickNextTask _ => .fresh
  | .grabTasksFromGlobalQueue _ => .ringEmpty
  | .impudence _ => .globalEmpty
  | .tryStealTasks _ => .stealing

def after {T : Type} : PickEvent T → PickPhase
  | .tryPickNextTask none => .ringEmpty
  | .grabTasksFromGlobalQueue none => .globalEmpty
  | .impudence .active => .stealing
  | _ => .fresh

theorem after_of_ends {T : Type} {e : PickEvent T} (h : e.ends = true) : e.after = .fresh := by
  cases e with
  | impudence mode => cases h
  | lifo task => rfl
  | tryPickNextTask ans | grabTasksFromGlobalQueue ans | tryStealTasks ans =>
    cases ans with
    | none => cases h
    | some task => rfl

end PickEvent

def phase {T : Type} (log : List (PickEvent T)) : PickPhase :=
  (log.getLast?.map PickEvent.after).getD .fresh

@[simp] theorem phase_concat {T : Type} (log : List (PickEvent T)) (e : PickEvent T) :
    phase (log ++ [e]) = e.after := by
  simp [phase]

/-- The order in which `PickNextTask` looks. -/
def PickOrder {T : Type} (log : List (PickEvent T)) : Prop :=
  Lawful (fun log e => e.before = phase log) log

/-- The events of the calls that have returned, and of the one that goes on. -/
def calls {T : Type} (log : List (PickEvent T)) : List (List (PickEvent T)) :=
  (segments PickEvent.ends log).1

def Work.phase {n : Nat} {T : Type} : Work n T → PickPhase
  | .grab | .allowParking | .grabAgain | .pushGrabbed _ _ => .ringEmpty
  | .impudence => .globalEmpty
  | .giveVictim _ | .lowSize _ _ | .steal _ _ _ | .pushStolen _ _ => .stealing
  | _ => .fresh

/-- The body of `Work`, outside `PickNextTask`. -/
def Work.runs {n : Nat} {T : Type} : Work n T → Bool
  | .run _ | .execute _ _ => true
  | _ => false

/-- How many LIFO tasks in a row may have been returned. The budget is reset before
the ring is polled. -/
def Worker.allowance {n : Nat} {T : Type} (x : Worker n T) : Nat :=
  match x.work with
  | .tryPop => kLifoLimit
  | _ => x.lifoUsage

theorem Worker.allowance_of_ne {n : Nat} {T : Type} {x : Worker n T} (h : x.work ≠ .tryPop) :
    x.allowance = x.lifoUsage := by
  unfold allowance
  split
  · rename_i hw
    exact absurd hw h
  · rfl

theorem Worker.lifoUsage_le_allowance {n : Nat} {T : Type} {x : Worker n T}
    (h : x.lifoUsage ≤ kLifoLimit) : x.lifoUsage ≤ x.allowance := by
  unfold allowance
  split
  · exact h
  · exact Nat.le_refl _

theorem Worker.allowance_le {n : Nat} {T : Type} {x : Worker n T} (h : x.lifoUsage ≤ kLifoLimit) :
    x.allowance ≤ kLifoLimit := by
  unfold allowance
  split
  · exact Nat.le_refl _
  · exact h

/-- A step of a worker with what it tells about `PickNextTask`. -/
inductive Worker.Picks {n : Nat} {T : Type} (x y : Worker n T) : List (PickEvent T) → Prop where
  | quiet (hphase : y.work.phase = x.work.phase) (hallowance : x.allowance ≤ y.allowance)
      (hreturns : ∀ task, y.work = .run task → x.work.runs = true) : x.Picks y []
  | poll {e : PickEvent T} (hlifo : e.isLifo = false) (hbefore : e.before = x.work.phase)
      (hafter : e.after = y.work.phase)
      (hreturns : ∀ task, y.work = .run task ↔ e.returned = some task) : x.Picks y [e]
  | lifo (task : T) (hphase : x.work.phase = .fresh) (hallowance : y.allowance = x.allowance + 1)
      (hy : y.work = .run task) : x.Picks y [.lifo task]

/-- Steps that keep to their phase. -/
theorem Worker.Picks.stay {n : Nat} {T : Type} {x y : Worker n T} (hx : x.lifoUsage ≤ kLifoLimit)
    (hpop : x.work ≠ .tryPop) (husage : y.lifoUsage = x.lifoUsage)
    (hphase : y.work.phase = x.work.phase)
    (hreturns : ∀ task, y.work = .run task → x.work.runs = true) : x.Picks y [] := by
  refine .quiet hphase ?_ hreturns
  rw [allowance_of_ne hpop, ← husage]
  exact lifoUsage_le_allowance (husage ▸ hx)

/-- A call that was made for a task, with the pointer it returned. -/
theorem Worker.Picks.answer {n : Nat} {T : Type} {x y : Worker n T} (pc : Work n T)
    (ans : Option T) {e : PickEvent T} (he : e.returned = ans) (hlifo : e.isLifo = false)
    (hbefore : e.before = x.work.phase) (hy : y.work = Worker.picked pc ans)
    (hpc : ∀ task, pc ≠ .run task) (hnone : ans = none → e.after = pc.phase) : x.Picks y [e] := by
  cases ans with
  | none =>
    refine .poll hlifo hbefore ((hnone rfl).trans (by rw [hy]; rfl)) fun task => ?_
    rw [hy, he]
    exact ⟨fun h => absurd h (hpc task), nofun⟩
  | some next =>
    have hends : e.ends = true := by simp [PickEvent.ends, he]
    refine .poll hlifo hbefore (by rw [PickEvent.after_of_ends hends, hy]; rfl) fun task => ?_
    rw [hy, he]
    simp [Worker.picked]

namespace Pool

/-- The event that a step of `w` completes. -/
def pickEvents {n : Nat} {O T : Type} (s : Pool n O T) (w : Fin n) : List (PickEvent T) :=
  let x := s.workers w
  match x.work with
  | .lifo =>
    match x.lifoSlot with
    | some task => if x.lifoUsage < kLifoLimit then [.lifo task] else []
    | none => []
  | .tryPop => [.tryPickNextTask x.localTasks.head?.join]
  | .grab =>
    match s.global.grab (kLocalQueueCapacity / 2) n with
    | some (_, [first]) => [.grabTasksFromGlobalQueue first]
    | _ => []
  | .grabAgain =>
    match s.global.grab (kLocalQueueCapacity / 2) n with
    | some (_, []) => [.grabTasksFromGlobalQueue none]
    | some (_, [first]) => [.grabTasksFromGlobalQueue first]
    | _ => []
  | .pushGrabbed first _ => [.grabTasksFromGlobalQueue first]
  | .impudence => [.impudence (s.coordinator.impudence w)]
  | .giveVictim 0 => [.tryStealTasks none]
  | .steal _ victim limit =>
    match (s.workers victim).localTasks.take limit with
    | [first] => [.tryStealTasks first]
    | _ => []
  | .pushStolen first _ => [.tryStealTasks first]
  | _ => []

theorem picks_localStep {n : Nat} {O T : Type} {s : Pool n O T} {w : Fin n} {y : Worker n T}
    (hx : (s.workers w).lifoUsage ≤ kLifoLimit)
    (h : (s.workers w).localStep (s.coordinator.impudence w) = some y) :
    (s.workers w).Picks y (s.pickEvents w) ∧ y.lifoUsage ≤ kLifoLimit := by
  have stays {y : Worker n T} (hpop : (s.workers w).work ≠ .tryPop)
      (husage : y.lifoUsage = (s.workers w).lifoUsage)
      (hphase : y.work.phase = (s.workers w).work.phase)
      (hreturns : ∀ task, y.work = .run task → (s.workers w).work.runs = true) :
      (s.workers w).Picks y [] ∧ y.lifoUsage ≤ kLifoLimit :=
    ⟨.stay hx hpop husage hphase hreturns, husage ▸ hx⟩
  have hallowance (hw : (s.workers w).work = .lifo) :
      (s.workers w).allowance = (s.workers w).lifoUsage :=
    Worker.allowance_of_ne (by simp [hw])
  cases Worker.localStep_cases h with
  | stopped hw | tenth hw | next hw | lifoFilled hw | lifoEmpty hw | drained hw | drainedNull hw
  | drainedAll hw | discardRun hw | discardLifo hw | discardDrained hw =>
    simp only [pickEvents, hw]
    exact stays (by simp [hw]) rfl (by rw [hw]; rfl) (by rintro _ ⟨⟩)
  | lifoTask hw hslot husage =>
    simp only [pickEvents, hw, hslot, husage, if_true]
    exact ⟨.lifo _ (by rw [hw]; rfl) (by rw [hallowance hw]; rfl) rfl, husage⟩
  | noLifo hw hslot =>
    have hnone : s.pickEvents w = [] := by
      cases hslot' : (s.workers w).lifoSlot with
      | none => simp only [pickEvents, hw, hslot']
      | some task => simp only [pickEvents, hw, hslot', hslot task hslot', if_false]
    rw [hnone]
    refine ⟨.quiet (by rw [hw]; rfl) ?_ (by simp), Nat.zero_le _⟩
    rwa [hallowance hw, Worker.allowance]
  | @popped ans rest hw hlocal =>
    simp only [pickEvents, hw, hlocal, List.head?_cons, Option.join_some]
    exact ⟨.answer .grab ans rfl rfl (by rw [hw]; rfl) rfl (by simp) (by rintro rfl; rfl), hx⟩
  | ringEmpty hw hlocal =>
    simp only [pickEvents, hw, hlocal, List.head?_nil, Option.join_none]
    exact ⟨.answer .grab none rfl rfl (by rw [hw]; rfl) rfl (by simp) (fun _ => rfl), hx⟩
  | @pushMany first rest pc hw =>
    rcases hw with ⟨hw, rfl⟩ | ⟨hw, rfl⟩
    · simp only [pickEvents, hw]
      exact ⟨.answer .impudence first rfl rfl (by rw [hw]; rfl) rfl (by simp) (by rintro rfl; rfl), hx⟩
    · simp only [pickEvents, hw]
      exact ⟨.answer .lifoCheck first rfl rfl (by rw [hw]; rfl) rfl (by simp) (by rintro rfl; rfl), hx⟩
  | active hw himpudence =>
    simp only [pickEvents, hw, himpudence]
    exact ⟨.poll rfl (by rw [hw]; rfl) rfl (by simp [Worker.goto, PickEvent.returned]), hx⟩
  | passive hw himpudence =>
    simp only [pickEvents, hw]
    cases hpassive : s.coordinator.impudence w with
    | active => exact absurd hpassive himpudence
    | passive =>
      exact ⟨.poll rfl (by rw [hw]; rfl) rfl (by simp [Worker.goto, PickEvent.returned]), hx⟩
  | refused hw =>
    rcases hw with hw | hw
    · simp only [pickEvents, hw]
      exact stays (by simp [hw]) rfl (by rw [hw]; rfl) (by rintro _ ⟨⟩)
    · simp only [pickEvents, hw]
      exact stays (by simp [hw]) rfl (by rw [hw]; rfl) (by rintro _ ⟨⟩)
  | lifoSlot hw | displaced hw | localQueue hw | pushed hw | full hw | discard hw
  | discardOffloaded hw | offloadDiscarded hw | discardPushed hw =>
    simp only [pickEvents, hw]
    exact stays (by simp [hw]) rfl (by rw [hw]; rfl) (by simp [hw, Work.runs])

theorem picks_grab {n : Nat} {O T : Type} {s t : Pool n O T} {w : Fin n} {pc : Work n T}
    {empty : List (PickEvent T)} (hx : (s.workers w).lifoUsage ≤ kLifoLimit)
    (hphase : (s.workers w).work.phase = .ringEmpty) (hpop : (s.workers w).work ≠ .tryPop)
    (hevents : ∀ global items, s.global.grab (kLocalQueueCapacity / 2) n = some (global, items) →
      s.pickEvents w = match items with
        | [] => empty
        | [first] => [.grabTasksFromGlobalQueue first]
        | _ => [])
    (hempty : (s.workers w).Picks ((s.workers w).goto pc) empty) (h : s.grab w pc = some t) :
    (s.workers w).Picks (t.workers w) (s.pickEvents w) ∧ (t.workers w).lifoUsage ≤ kLifoLimit := by
  obtain ⟨global, items, hgrab, rfl⟩ := grab_eq h
  rw [hevents _ _ hgrab]
  show (s.workers w).Picks ((s.goto w _).workers w) _ ∧ ((s.goto w _).workers w).lifoUsage ≤ _
  rw [goto_self]
  match items with
  | [] => exact ⟨hempty, hx⟩
  | [first] =>
    exact ⟨.answer .impudence first rfl rfl hphase.symm rfl nofun (by rintro rfl; rfl), hx⟩
  | first :: second :: rest => exact ⟨.stay hx hpop rfl hphase.symm nofun, hx⟩

theorem picks_globalStep {n : Nat} {O T : Type} {s t : Pool n O T} {w : Fin n}
    (hx : (s.workers w).lifoUsage ≤ kLifoLimit) (h : s.globalStep w = some t) :
    (s.workers w).Picks (t.workers w) (s.pickEvents w) ∧ (t.workers w).lifoUsage ≤ kLifoLimit := by
  cases globalStep_cases h with
  | grab hw h =>
    rcases hw with ⟨hw, rfl⟩ | ⟨hw, rfl⟩
    · have hstay : (s.workers w).Picks ((s.workers w).goto .allowParking) [] :=
        .stay hx (by simp [hw]) rfl (by rw [hw]; rfl) nofun
      refine picks_grab hx (by rw [hw]; rfl) (by simp [hw]) (fun global items hgrab => ?_) hstay h
      simp only [pickEvents, hw, hgrab]
      match items with
      | [] | [_] | _ :: _ :: _ => rfl
    · have hnone : (s.workers w).Picks ((s.workers w).goto .impudence)
          [.grabTasksFromGlobalQueue none] :=
        .answer .impudence none rfl rfl (by rw [hw]; rfl) rfl nofun (fun _ => rfl)
      refine picks_grab hx (by rw [hw]; rfl) (by simp [hw]) (fun global items hgrab => ?_) hnone h
      simp only [pickEvents, hw, hgrab]
      match items with
      | [] | [_] | _ :: _ :: _ => rfl
  | offloadClosed hw | offload hw | offloadLocked hw | pushOneClosed hw | pushOne hw
  | pushOneLocked hw =>
    simp only [pickEvents, hw, goto_self]
    exact ⟨.stay hx (by simp [hw]) rfl (by rw [hw]; rfl) (by simp [hw, Work.runs]), hx⟩

/-- After a call to wake somebody up. -/
theorem picks_notifyOne {n : Nat} {O T : Type} {s u : Pool n O T} {w : Fin n}
    {woken : Option (Fin n)} {pc : Work n T} (hx : (s.workers w).lifoUsage ≤ kLifoLimit)
    (hawake : (s.workers w).work ≠ .asleep) (hpop : (s.workers w).work ≠ .tryPop)
    (hphase : pc.phase = (s.workers w).work.phase)
    (hreturns : ∀ task, pc = .run task → (s.workers w).work.runs = true)
    (hu : s.notifyOne woken = some u) :
    (s.workers w).Picks ((u.goto w pc).workers w) [] ∧
      ((u.goto w pc).workers w).lifoUsage ≤ kLifoLimit := by
  obtain ⟨-, -, -, -, -, hsame⟩ := notifyOne_frame hu
  rw [goto_self, hsame w hawake]
  exact ⟨.stay hx hpop rfl hphase hreturns, hx⟩

theorem picks_coordinatorStep {n : Nat} {O T : Type} {s t : Pool n O T} {w : Fin n}
    {c : Choice n T} (hx : (s.workers w).lifoUsage ≤ kLifoLimit)
    (h : s.coordinatorStep w c = some t) :
    (s.workers w).Picks (t.workers w) (s.pickEvents w) ∧ (t.workers w).lifoUsage ≤ kLifoLimit := by
  have goes {pc : Work n T} (hpop : (s.workers w).work ≠ .tryPop)
      (hphase : pc.phase = (s.workers w).work.phase)
      (hreturns : ∀ task, pc = .run task → (s.workers w).work.runs = true) :
      (s.workers w).Picks ((s.goto w pc).workers w) [] ∧
        ((s.goto w pc).workers w).lifoUsage ≤ kLifoLimit := by
    rw [goto_self]
    exact ⟨.stay hx hpop rfl hphase hreturns, hx⟩
  cases coordinatorStep_cases h with
  | awakeOne hw hu =>
    rcases hw with ⟨hw, rfl⟩ | ⟨task, hw, rfl⟩
    · simp only [pickEvents, hw]
      exact picks_notifyOne hx (by simp [hw]) (by simp [hw]) (by rw [hw]; rfl) (by simp) hu
    · simp only [pickEvents, hw]
      exact picks_notifyOne hx (by simp [hw]) (by simp [hw]) (by rw [hw]; rfl)
        (by simp [hw, Work.runs]) hu
  | prohibitParking hw hu =>
    simp only [pickEvents, hw]
    exact picks_notifyOne (s := { s with coordinator := s.coordinator.prohibitParking }) hx
      (by simp [hw]) (by simp [hw]) (by rw [hw]; rfl) (by simp [hw, Work.runs]) hu
  | gaveUp hw =>
    simp only [pickEvents, hw, goto_self]
    exact ⟨.answer .lifoCheck none rfl rfl (by rw [hw]; rfl) rfl nofun (fun _ => rfl), hx⟩
  | allowParking hw | itself hw | victim hw | park hw | prohibited hw | notified hw =>
    simp only [pickEvents, hw]
    exact goes (by simp [hw]) (by rw [hw]; rfl) nofun
  | release hw =>
    simp only [pickEvents, hw]
    split
    · exact goes (by simp [hw]) (by rw [hw]; rfl) nofun
    · exact goes (by simp [hw]) (by rw [hw]; rfl) nofun

theorem steal_self {n : Nat} {O T : Type} (s : Pool n O T) (w victim : Fin n) (limit : Nat) :
    ∃ tasks, ∀ pc, ((s.setWorker victim { s.workers victim with
      localTasks := (s.workers victim).localTasks.drop limit }).goto w pc).workers w =
        { s.workers w with localTasks := tasks, work := pc } := by
  by_cases hw : w = victim
  · subst hw
    exact ⟨_, fun pc => by rw [goto_self, setWorker_self]; rfl⟩
  · exact ⟨_, fun pc => by rw [goto_self, setWorker_ne s _ hw]; rfl⟩

theorem picks_stealStep {n : Nat} {O T : Type} {s t : Pool n O T} {w : Fin n} {c : Choice n T}
    (hx : (s.workers w).lifoUsage ≤ kLifoLimit) (h : s.stealStep w c = some t) :
    (s.workers w).Picks (t.workers w) (s.pickEvents w) ∧ (t.workers w).lifoUsage ≤ kLifoLimit := by
  cases stealStep_cases h with
  | lowSize hw =>
    simp only [pickEvents, hw, goto_self]
    exact ⟨.stay hx (by simp [hw]) rfl (by rw [hw]; rfl) nofun, hx⟩
  | @steal remaining victim limit hw =>
    obtain ⟨tasks, htasks⟩ := s.steal_self w victim limit
    simp only [pickEvents, hw, htasks]
    have hstay {pc : Work n T} (hphase : pc.phase = .stealing) (hpc : ∀ task, pc ≠ .run task) :
        (s.workers w).Picks { s.workers w with localTasks := tasks, work := pc } [] :=
      .stay hx (by simp [hw]) rfl (by rw [hw]; exact hphase) fun task h => absurd h (hpc task)
    match (s.workers victim).localTasks.take limit with
    | [] => exact ⟨hstay rfl (by simp), hx⟩
    | [first] =>
      exact ⟨.answer .lifoCheck first rfl rfl (by rw [hw]; rfl) rfl nofun (by rintro rfl; rfl), hx⟩
    | first :: second :: rest => exact ⟨hstay rfl (by simp), hx⟩
  | grab hw =>
    simp only [pickEvents, hw, setWorker_self]
    exact ⟨.stay hx (by simp [hw]) rfl (by rw [hw]; rfl) nofun, hx⟩

theorem picks_workerStep {n : Nat} {O T : Type} {s t : Pool n O T} {w : Fin n} {c : Choice n T}
    (hx : (s.workers w).lifoUsage ≤ kLifoLimit) (h : s.workerStep w c = some t) :
    (s.workers w).Picks (t.workers w) (s.pickEvents w) ∧ (t.workers w).lifoUsage ≤ kLifoLimit := by
  rcases workerStep_cases h with ⟨x, hlocal, rfl⟩ | hglobal | hcoordinator | hsteal
  · rw [setWorker_self]
    exact picks_localStep hx hlocal
  · exact picks_globalStep hx hglobal
  · exact picks_coordinatorStep hx hcoordinator
  · exact picks_stealStep hx hsteal

end Pool

def Pool.pickLog {n : Nat} {O T : Type} (w : Fin n) (s : Pool n O T) :
    PoolLabel n O T → List (PickEvent T)
  | .worker v _ => if v = w then s.pickEvents w else []
  | _ => []

/-- The pool, with a log of what `w` learns in `PickNextTask`. -/
def pickingPool (n : Nat) (O T : Type) [DecidableEq O] (w : Fin n) :
    Machine (Pool n O T × List (PickEvent T)) (PoolLabel n O T) :=
  (pool n O T).observe (Pool.pickLog w)

structure Picking {n : Nat} {T : Type} (x : Worker n T) (log : List (PickEvent T)) : Prop where
  order : PickOrder log
  phase : x.work.phase = phase log
  usage : x.lifoUsage ≤ kLifoLimit
  overdue : Overdue (fun e => (!e.isLifo) = true) x.allowance log
  recurs : Recurs (fun e => (!e.isLifo) = true) (kLifoLimit + 1) log

theorem Picking.quiet {n : Nat} {T : Type} {x y : Worker n T} {log : List (PickEvent T)}
    (hs : Picking x log) (hphase : y.work.phase = x.work.phase) (husage : y.lifoUsage ≤ kLifoLimit)
    (hallowance : x.allowance ≤ y.allowance) : Picking y log :=
  ⟨hs.order, hphase.trans hs.phase, husage, hs.overdue.mono hallowance, hs.recurs⟩

theorem Picking.concat {n : Nat} {T : Type} {x y : Worker n T} {log : List (PickEvent T)}
    (hs : Picking x log) {e : PickEvent T} (hbefore : e.before = x.work.phase)
    (hafter : e.after = y.work.phase) (husage : y.lifoUsage ≤ kLifoLimit)
    (hoverdue : Overdue (fun e => (!e.isLifo) = true) y.allowance (log ++ [e])) :
    Picking y (log ++ [e]) := by
  refine ⟨hs.order.concat (hbefore.trans hs.phase), ?_, husage, hoverdue, ?_⟩
  · rw [phase_concat, hafter]
  · exact hs.recurs.concat (hoverdue.mono (Worker.allowance_le husage))

theorem Picking.picks {n : Nat} {T : Type} {x y : Worker n T} {log events : List (PickEvent T)}
    (hs : Picking x log) (h : x.Picks y events) (husage : y.lifoUsage ≤ kLifoLimit) :
    Picking y (log ++ events) := by
  cases h with
  | quiet hphase hallowance _ =>
    rw [List.append_nil]
    exact hs.quiet hphase husage hallowance
  | poll hlifo hbefore hafter _ =>
    refine hs.concat hbefore hafter husage ((overdue_concat ?_ log).mono (Nat.zero_le _))
    simp [hlifo]
  | lifo task hphase hallowance hy =>
    refine hs.concat hphase.symm (by rw [hy]; rfl) husage ?_
    rw [hallowance]
    exact hs.overdue.concat _

theorem Picking.aside {n : Nat} {T : Type} {x y : Worker n T} {log : List (PickEvent T)}
    (hs : Picking x log) (h : x.Aside y) : Picking y log := by
  cases h with
  | robbed k => exact hs.quiet rfl hs.usage (Nat.le_refl _)
  | woken hasleep =>
    refine hs.quiet (by rw [hasleep]; rfl) hs.usage ?_
    rw [Worker.allowance_of_ne (by simp [hasleep])]
    exact Nat.le_refl _
  | stopped => exact hs.quiet rfl hs.usage (Nat.le_refl _)

theorem Picking.goto {n : Nat} {T : Type} {x : Worker n T} {log : List (PickEvent T)}
    (hs : Picking x log) (hpop : x.work ≠ .tryPop) {pc : Work n T}
    (hphase : pc.phase = x.work.phase) : Picking (x.goto pc) log := by
  refine hs.quiet hphase hs.usage ?_
  rw [Worker.allowance_of_ne hpop]
  exact Worker.lifoUsage_le_allowance (x := x.goto pc) hs.usage

theorem Picking.step {n : Nat} {O T : Type} [DecidableEq O] {w : Fin n}
    {s t : Pool n O T × List (PickEvent T)} (hs : Picking (s.1.workers w) s.2)
    {l : PoolLabel n O T} (h : (pickingPool n O T w).step s l = some t) :
    Picking (t.1.workers w) t.2 := by
  obtain ⟨hstep, hlog⟩ := Machine.observe_step h
  by_cases hl : l.actor = some w
  · cases l with
    | worker v c =>
      obtain rfl : v = w := Option.some.inj hl
      obtain ⟨hpicks, husage⟩ := Pool.picks_workerStep hs.usage hstep
      rw [hlog]
      simp only [Pool.pickLog, if_true]
      exact hs.picks hpicks husage
    | execute v task hint =>
      obtain rfl : v = w := Option.some.inj hl
      cases hw : (s.1.workers v).work <;>
        simp only [pool, Pool.step, hw, reduceCtorEq, Option.some.injEq] at hstep
      rw [hlog, ← hstep, Pool.goto_self]
      simp only [Pool.pickLog, List.append_nil]
      exact hs.goto (by simp [hw]) (by rw [hw]; rfl)
    | return_ v | throw v =>
      obtain rfl : v = w := Option.some.inj hl
      cases hw : (s.1.workers v).work <;>
        simp only [pool, Pool.step, hw, reduceCtorEq, Option.some.injEq] at hstep
      rw [hlog, ← hstep, Pool.goto_self]
      simp only [Pool.pickLog, List.append_nil]
      exact hs.goto (by simp [hw]) (by rw [hw]; rfl)
    | spurious v =>
      obtain rfl : v = w := Option.some.inj hl
      simp only [pool, Pool.step, Option.ite_none_right_eq_some, Option.some.injEq] at hstep
      obtain ⟨hasleep, hstep⟩ := hstep
      have hw := Worker.asleep_iff.mp hasleep
      rw [hlog, ← hstep, Pool.goto_self]
      simp only [Pool.pickLog, List.append_nil]
      exact hs.goto (by simp [hw]) (by rw [hw]; rfl)
    | _ => cases hl
  · have hquiet : t.2 = s.2 := by
      rw [hlog]
      cases l with
      | worker v c =>
        have hv : v ≠ w := fun hv => hl (by rw [hv]; rfl)
        simp [Pool.pickLog, hv]
      | _ => simp [Pool.pickLog]
    rw [hquiet]
    exact hs.aside (Pool.aside_step hstep hl)

theorem pickingPool_inv {n : Nat} {O T : Type} [DecidableEq O] {w : Fin n}
    {s : Pool n O T × List (PickEvent T)} (h : (pickingPool n O T w).Reachable s) :
    Picking (s.1.workers w) s.2 := by
  apply h.invariant (I := fun s => Picking (s.1.workers w) s.2)
  · exact ⟨lawful_nil _, rfl, Nat.zero_le _, overdue_nil _ _, recurs_nil _ _⟩
  · intro s l t _ hs ht
    exact hs.step ht

/-! What a single call looks like. -/

/-- Ring, global queue and, while stealing is active, victims gave no task. -/
inductive Sweep {T : Type} : List (PickEvent T) → Prop where
  | passive : Sweep [.tryPickNextTask none, .grabTasksFromGlobalQueue none, .impudence .passive]
  | active : Sweep [.tryPickNextTask none, .grabTasksFromGlobalQueue none, .impudence .active,
      .tryStealTasks none]

def PollsGlobalQueue {T : Type} (call : List (PickEvent T)) : Prop :=
  ∃ ans, .grabTasksFromGlobalQueue ans ∈ call

def FromLifo {T : Type} (call : List (PickEvent T)) : Prop :=
  ∃ task, call.getLast? = some (.lifo task)

/-- A call in progress. -/
inductive Started {T : Type} : List (PickEvent T) → PickPhase → Prop where
  | fresh : Started [] .fresh
  | ringEmpty : Started [.tryPickNextTask none] .ringEmpty
  | globalEmpty : Started [.tryPickNextTask none, .grabTasksFromGlobalQueue none] .globalEmpty
  | stealing : Started [.tryPickNextTask none, .grabTasksFromGlobalQueue none,
      .impudence .active] .stealing
  | swept {sweep : List (PickEvent T)} (h : Sweep sweep) (rest : List (PickEvent T))
      (p : PickPhase) : Started (sweep ++ rest) p

/-- A call that has returned: at once, or after it has polled the global queue. -/
def Finished {T : Type} (call : List (PickEvent T)) : Prop :=
  (∃ e, call = [e] ∧ e.before = .fresh ∧ e.ends = true) ∨
    PollsGlobalQueue call ∧ (FromLifo call → ∃ sweep, Sweep sweep ∧ sweep <+: call)

theorem Sweep.pollsGlobalQueue {T : Type} {sweep : List (PickEvent T)} (h : Sweep sweep) :
    PollsGlobalQueue sweep := by
  cases h with
  | passive | active => exact ⟨none, by simp⟩

theorem PollsGlobalQueue.append {T : Type} {call : List (PickEvent T)} (h : PollsGlobalQueue call)
    (rest : List (PickEvent T)) : PollsGlobalQueue (call ++ rest) := by
  obtain ⟨ans, hans⟩ := h
  exact ⟨ans, List.mem_append_left _ hans⟩

theorem fromLifo_concat {T : Type} {call : List (PickEvent T)} {e : PickEvent T}
    (h : FromLifo (call ++ [e])) : e.isLifo = true := by
  obtain ⟨task, htask⟩ := h
  simp only [List.getLast?_append, List.getLast?_singleton, Option.some_or, Option.some.injEq] at htask
  rw [htask]
  rfl

/-- The call goes on, or it ends with this event. -/
theorem Started.concat {T : Type} {call : List (PickEvent T)} {p : PickPhase}
    (h : Started call p) {e : PickEvent T} (hbefore : e.before = p) :
    if e.ends = true then Finished (call ++ [e]) else Started (call ++ [e]) e.after := by
  have finished (hpolls : PollsGlobalQueue (call ++ [e])) (hlifo : e.isLifo = false) :
      Finished (call ++ [e]) :=
    .inr ⟨hpolls, fun h => by rw [fromLifo_concat h] at hlifo; cases hlifo⟩
  cases h with
  | fresh =>
    split
    · rename_i hends
      exact .inl ⟨e, rfl, hbefore, hends⟩
    · rename_i hends
      cases e with
      | tryPickNextTask ans =>
        cases ans with
        | none => exact .ringEmpty
        | some task => exact absurd rfl hends
      | lifo task => exact absurd rfl hends
      | _ => cases hbefore
  | ringEmpty =>
    cases e with
    | grabTasksFromGlobalQueue ans =>
      cases ans with
      | none => exact .globalEmpty
      | some task => exact finished ⟨some task, by simp⟩ rfl
    | _ => cases hbefore
  | globalEmpty =>
    cases e with
    | impudence mode =>
      cases mode with
      | active => exact .stealing
      | passive => exact .swept .passive [] _
    | _ => cases hbefore
  | stealing =>
    cases e with
    | tryStealTasks ans =>
      cases ans with
      | none => exact .swept .active [] _
      | some task => exact finished ⟨none, by simp⟩ rfl
    | _ => cases hbefore
  | @swept sweep hsweep rest p =>
    rw [List.append_assoc]
    split
    · exact .inr ⟨hsweep.pollsGlobalQueue.append _, fun _ =>
        ⟨sweep, hsweep, List.prefix_append _ _⟩⟩
    · exact .swept hsweep _ _

theorem PickOrder.calls {T : Type} {log : List (PickEvent T)} (h : PickOrder log) :
    (∀ call ∈ calls log, Finished call) ∧ Started (segments PickEvent.ends log).2 (phase log) := by
  induction log using List.reverseRecOn with
  | nil => exact ⟨nofun, .fresh⟩
  | append_singleton log e ih =>
    obtain ⟨hfinished, hstarted⟩ := ih (Lawful.of_append h)
    have hnext := hstarted.concat (h log e [] rfl)
    unfold Fast.calls at hfinished ⊢
    rw [segments_concat, segmentStep, phase_concat]
    split
    · rename_i hends
      rw [if_pos hends] at hnext
      refine ⟨fun call hcall => ?_, PickEvent.after_of_ends hends ▸ .fresh⟩
      rcases List.mem_append.mp hcall with hcall | hcall
      · exact hfinished call hcall
      · exact List.mem_singleton.mp hcall ▸ hnext
    · rename_i hends
      rw [if_neg hends] at hnext
      exact ⟨hfinished, hnext⟩

theorem flatten_within {T : Type} {window : List (List (PickEvent T))} {log : List (PickEvent T)}
    (h : window <:+: calls log) : window.flatten <:+: log := by
  obtain ⟨earlier, later, heq⟩ := h
  refine ⟨earlier.flatten, later.flatten ++ (segments PickEvent.ends log).2, ?_⟩
  have hlog := segments_flatten PickEvent.ends log
  rw [show (segments PickEvent.ends log).1 = _ from heq.symm] at hlog
  simpa using hlog

/-- A window of LIFO calls that is as long as it may be has swept. -/
theorem Picking.sweeps {n : Nat} {T : Type} {x : Worker n T} {log : List (PickEvent T)}
    (hs : Picking x log) {window : List (List (PickEvent T))} (hwindow : window <:+: calls log)
    (hlength : window.length = kLifoLimit + 1) (hlifo : ∀ call ∈ window, FromLifo call) :
    ∃ call ∈ window.tail, ∃ sweep, Sweep sweep ∧ sweep <+: call := by
  by_contra hnone
  obtain ⟨first, rest, rfl⟩ : ∃ first rest, window = first :: rest :=
    List.exists_cons_of_length_eq_add_one hlength
  have hcalls := (hs.order.calls).1
  -- the later calls have each returned at once
  have hsingle : ∀ call ∈ rest, ∃ task, call = [.lifo task] := by
    intro call hcall
    obtain ⟨task, hlast⟩ := hlifo call (List.mem_cons_of_mem _ hcall)
    rcases hcalls call (hwindow.subset (List.mem_cons_of_mem _ hcall)) with ⟨e, rfl, -⟩ | ⟨-, hsweep⟩
    · exact ⟨task, by simpa using hlast⟩
    · exact absurd ⟨call, hcall, hsweep ⟨task, hlast⟩⟩ hnone
  obtain ⟨task, hlast⟩ := hlifo first (by simp)
  obtain ⟨earlier, rfl⟩ := List.getLast?_eq_some_iff.mp hlast
  have hrow : [PickEvent.lifo task] ++ rest.flatten <:+: log := by
    have hwithin := flatten_within hwindow
    rw [List.flatten_cons, List.append_assoc] at hwithin
    exact (List.suffix_append _ _).isInfix.trans hwithin
  have hflat : ∀ e ∈ rest.flatten, e.isLifo = true := by
    intro e he
    obtain ⟨call, hcall, hmem⟩ := List.mem_flatten.mp he
    obtain ⟨task, rfl⟩ := hsingle call hcall
    exact List.mem_singleton.mp hmem ▸ rfl
  have hcount : rest.flatten.length = rest.length := by
    apply length_flatten_of_singletons
    intro call hcall
    obtain ⟨task, htask⟩ := hsingle call hcall
    exact ⟨_, htask⟩
  obtain ⟨e, he, hnot⟩ := hs.recurs _ hrow (by
    simp only [List.length_cons] at hlength
    simp only [List.length_append, List.length_singleton, hcount]
    omega)
  rcases List.mem_append.mp he with he | he
  · simp [List.mem_singleton.mp he, PickEvent.isLifo] at hnot
  · simp [hflat e he] at hnot

/-- Where no null pointer is queued, a poll without a task has met an empty queue. -/
def Pool.FoundNothing {n : Nat} {O T : Type} (s : Pool n O T) (w : Fin n) : Prop :=
  (.tryPickNextTask none ∈ s.pickEvents w → (s.workers w).localTasks = []) ∧
    (.grabTasksFromGlobalQueue none ∈ s.pickEvents w → s.global.queue = [])

theorem Pool.Ready.foundNothing {n : Nat} {O T : Type} {s : Pool n O T} (hs : s.Ready)
    (w : Fin n) : s.FoundNothing w := by
  have hring := (hs.workers w).tasks
  have hwork := (hs.workers w).work
  constructor
  · intro h
    unfold pickEvents at h
    cases hw : (s.workers w).work with
    | tryPop =>
      simp only [hw, List.mem_singleton, PickEvent.tryPickNextTask.injEq] at h
      cases hlocal : (s.workers w).localTasks with
      | nil => rfl
      | cons first rest =>
        rw [hlocal] at hring h
        exact absurd h.symm hring.of_cons.1
    | lifo =>
      simp only [hw] at h
      split at h <;> (try split at h) <;> simp at h
    | grab | grabAgain | steal _ _ _ =>
      simp only [hw] at h
      split at h <;> simp at h
    | giveVictim remaining => cases remaining <;> simp [hw] at h
    | _ => simp [hw] at h
  · intro h
    -- a batch of tasks does not begin with a null pointer
    have hfirst {global : GlobalQueue (Option T)} {first : Option T} {rest : List (Option T)}
        (hgrab : s.global.grab (kLocalQueueCapacity / 2) n = some (global, first :: rest)) :
        first ≠ none := by
      obtain ⟨hqueue, -, -⟩ := GlobalQueue.grab_queue hgrab
      have htasks := hs.tasks
      rw [hqueue] at htasks
      exact htasks.of_append.1.of_cons.1
    unfold pickEvents at h
    cases hw : (s.workers w).work with
    | grab =>
      simp only [hw] at h
      split at h
      · rename_i hgrab
        simp only [List.mem_singleton, PickEvent.grabTasksFromGlobalQueue.injEq] at h
        exact absurd h.symm (hfirst hgrab)
      · cases h
    | grabAgain =>
      simp only [hw] at h
      split at h
      · rename_i hgrab
        obtain ⟨-, -, hlength⟩ := GlobalQueue.grab_queue hgrab
        have hempty := (GlobalQueue.grabLimit_eq_zero (by decide)).mp hlength.symm
        exact List.length_eq_zero_iff.mp hempty
      · rename_i hgrab
        simp only [List.mem_singleton, PickEvent.grabTasksFromGlobalQueue.injEq] at h
        exact absurd h.symm (hfirst hgrab)
      · cases h
    | pushGrabbed first rest =>
      rw [hw] at hwork
      simp only [hw, List.mem_singleton, PickEvent.grabTasksFromGlobalQueue.injEq] at h
      exact absurd h.symm hwork.2.1
    | lifo =>
      simp only [hw] at h
      split at h <;> (try split at h) <;> simp at h
    | steal _ _ _ =>
      simp only [hw] at h
      split at h <;> simp at h
    | giveVictim remaining => cases remaining <;> simp [hw] at h
    | _ => simp [hw] at h

/-- What `PickNextTask` returns is what the log says, the LIFO slot has a budget, and
more than `kLifoLimit` LIFO tasks in a row come with a sweep between two of them. -/
theorem lifoSlot_bounded {n : Nat} {O T : Type} [DecidableEq O] {w : Fin n}
    {s : Pool n O T × List (PickEvent T)} (h : (pickingPool n O T w).Reachable s) :
    (s.1.workers w).lifoUsage ≤ kLifoLimit ∧
    (∀ window, window <:+: calls s.2 → window.length = kLifoLimit + 1 →
      (∀ call ∈ window, FromLifo call) →
        ∃ call ∈ window.tail, ∃ sweep, Sweep sweep ∧ sweep <+: call) ∧
    (∀ c t, s.1.workerStep w c = some t → (s.1.workers w).work.runs = false → ∀ task,
      (t.workers w).work = .run task ↔ ∃ e ∈ s.1.pickEvents w, e.returned = some task) ∧
    ((tasksPool n O T).Reachable s.1 → s.1.FoundNothing w) := by
  have hs := pickingPool_inv h
  refine ⟨hs.usage, fun window => hs.sweeps, fun c t ht hruns task => ?_,
    fun htasks => (tasksPool_ready htasks).foundNothing w⟩
  obtain ⟨hpicks, -⟩ := Pool.picks_workerStep hs.usage ht
  generalize s.1.pickEvents w = events at hpicks
  cases hpicks with
  | quiet _ _ hreturns =>
    constructor
    · intro hrun
      rw [hreturns task hrun] at hruns
      cases hruns
    · simp
  | poll _ _ _ hreturns => simpa using hreturns task
  | lifo next _ _ hy => simp [hy, PickEvent.returned]

/-- A task whose successors all go to the LIFO slot: the budget runs out once. -/
theorem lifoSlot_bounded_refilled : ∃ s, (pickingPool 1 (Fin 1) Nat 0).Reachable s ∧
    (calls s.2).tail.length = kLifoLimit + 1 ∧
      ∃ call ∈ (calls s.2).tail.tail, ∃ sweep, Sweep sweep ∧ sweep <+: call := by
  let turns (k : Nat) : List (PoolLabel 1 (Fin 1) Nat) :=
    List.replicate k (.worker 0 ⟨none, 0, fun _ => none⟩)
  let next (k : Nat) : List (PoolLabel 1 (Fin 1) Nat) :=
    .execute 0 7 .next :: turns 1 ++ .return_ 0 :: turns k
  obtain ⟨s, h, hs⟩ := Machine.exists_reachable_of_exec (M := pickingPool 1 (Fin 1) Nat 0)
    (p := fun s => decide ((calls s.2).tail.map List.getLast? =
      List.replicate (kLifoLimit + 1) (some (.lifo 7))))
    (.submit 0 0 :: List.replicate 3 (.outside 0 none) ++ turns 4 ++
      (List.range 19).flatMap (fun i => next (if i % 10 = 8 then 3 else 2)) ++ next 12)
    (by decide +kernel)
  have hcalls := of_decide_eq_true hs
  have hlength : (calls s.2).tail.length = kLifoLimit + 1 := by
    simpa using congrArg List.length hcalls
  refine ⟨s, h, hlength, ?_⟩
  refine (lifoSlot_bounded h).2.1 _ ( List.tail_suffix _).isInfix hlength fun call hcall => ⟨7, ?_⟩
  exact List.eq_of_mem_replicate (hcalls ▸ List.mem_map_of_mem hcall)

end ConcurrentProgramming.Fast
