import ConcurrentProgramming.Fast.Pool

/-!
The steps of a worker, taken apart once: one rule for each branch, with what the
branch has checked. Invariants are proved by cases on these rules.
-/

set_option autoImplicit false

namespace ConcurrentProgramming.Fast

inductive Worker.LocalStep {n : Nat} {T : Type} (x : Worker n T) (impudence : Stealing) :
    Worker n T → Prop where
  | stopped (hw : x.work = .pick) (hstopped : x.stopped = true) :
      LocalStep x impudence (x.goto .release)
  | tenth (hw : x.work = .pick) (hrunning : x.stopped = false) :
      LocalStep x impudence { x with cycle := 0, work := .awakeOne }
  | next (hw : x.work = .pick) (hrunning : x.stopped = false) :
      LocalStep x impudence { x with cycle := x.cycle + 1, work := .lifo }
  | lifoTask {task : T} (hw : x.work = .lifo) (hslot : x.lifoSlot = some task)
      (husage : x.lifoUsage < kLifoLimit) : LocalStep x impudence
        { x with lifoUsage := x.lifoUsage + 1, lifoSlot := none, work := .run task }
  | noLifo (hw : x.work = .lifo)
      (hslot : ∀ task, x.lifoSlot = some task → ¬ x.lifoUsage < kLifoLimit) :
      LocalStep x impudence { x with lifoUsage := 0, work := .tryPop }
  | popped {ans : Option T} {rest : List (Option T)} (hw : x.work = .tryPop)
      (hlocal : x.localTasks = ans :: rest) : LocalStep x impudence
        { x with localTasks := rest, work := Worker.picked .grab ans }
  | ringEmpty (hw : x.work = .tryPop) (hlocal : x.localTasks = []) :
      LocalStep x impudence (x.goto .grab)
  | pushMany {first : Option T} {rest : List (Option T)} {pc : Work n T}
      (hw : x.work = .pushGrabbed first rest ∧ pc = .impudence ∨
        x.work = .pushStolen first rest ∧ pc = .lifoCheck)
      (hfits : x.localTasks.length + rest.length ≤ kLocalQueueCapacity) : LocalStep x impudence
        { x with localTasks := x.localTasks ++ rest, work := Worker.picked pc first }
  | active (hw : x.work = .impudence) (himpudence : impudence = .active) :
      LocalStep x impudence (x.goto (.giveVictim ((n + 1) / 2)))
  | passive (hw : x.work = .impudence) (himpudence : impudence ≠ .active) :
      LocalStep x impudence (x.goto .lifoCheck)
  | lifoFilled (hw : x.work = .lifoCheck) (hslot : x.lifoSlot.isSome = true) :
      LocalStep x impudence (x.goto .pick)
  | lifoEmpty (hw : x.work = .lifoCheck) (hslot : x.lifoSlot = none) :
      LocalStep x impudence (x.goto .tryPark)
  | refused {task next : T} (hw : x.work = .execute task (.pushToLifoSlot next) ∨
        x.work = .execute task (.pushToLocalQueue next)) (hstopped : x.stopped = true) :
      LocalStep x impudence (x.goto (.execute task (.discard next)))
  | lifoSlot {task next : T} (hw : x.work = .execute task (.pushToLifoSlot next))
      (hrunning : x.stopped = false) (hslot : x.lifoSlot = none) :
      LocalStep x impudence { x with lifoSlot := some next, work := .run task }
  | displaced {task next old : T} (hw : x.work = .execute task (.pushToLifoSlot next))
      (hrunning : x.stopped = false) (hslot : x.lifoSlot = some old) : LocalStep x impudence
        { x with lifoSlot := some next, work := .execute task (.pushToLocalQueue old) }
  | localQueue {task next : T} (hw : x.work = .execute task (.pushToLocalQueue next))
      (hrunning : x.stopped = false) :
      LocalStep x impudence (x.goto (.execute task (.tryPush next)))
  | pushed {task next : T} (hw : x.work = .execute task (.tryPush next))
      (hroom : x.localTasks.length < kLocalQueueCapacity) : LocalStep x impudence
        { x with localTasks := x.localTasks ++ [some next], work := .run task }
  | full {task next : T} (hw : x.work = .execute task (.tryPush next))
      (hroom : ¬ x.localTasks.length < kLocalQueueCapacity) :
      LocalStep x impudence (x.goto (.execute task (.grab next)))
  | discard {task next : T} (hw : x.work = .execute task (.discard next)) :
      LocalStep x impudence (x.goto (.run task))
  | discardOffloaded {task : T} {item : Option T} {rest : List (Option T)}
      (hw : x.work = .execute task (.discardOffloaded (item :: rest))) :
      LocalStep x impudence (x.goto (.execute task (.discardOffloaded rest)))
  | offloadDiscarded {task : T} (hw : x.work = .execute task (.discardOffloaded [])) :
      LocalStep x impudence (x.goto (.execute task .awakeOne))
  | discardPushed {task next : T} (hw : x.work = .execute task (.discardPushed next)) :
      LocalStep x impudence (x.goto (.execute task .prohibitParking))
  | discardRun {task : T} (hw : x.work = .discardRun task) :
      LocalStep x impudence (x.goto .pick)
  | discardLifo (hw : x.work = .discardLifo) : LocalStep x impudence (x.goto .drain)
  | drained {task : T} {rest : List (Option T)} (hw : x.work = .drain)
      (hlocal : x.localTasks = some task :: rest) :
      LocalStep x impudence { x with localTasks := rest, work := .discardDrained task }
  | drainedNull {rest : List (Option T)} (hw : x.work = .drain)
      (hlocal : x.localTasks = none :: rest) :
      LocalStep x impudence { x with localTasks := rest, work := .exited }
  | drainedAll (hw : x.work = .drain) (hlocal : x.localTasks = []) :
      LocalStep x impudence (x.goto .exited)
  | discardDrained {task : T} (hw : x.work = .discardDrained task) :
      LocalStep x impudence (x.goto .drain)

theorem Worker.localStep_cases {n : Nat} {T : Type} {x y : Worker n T} {impudence : Stealing}
    (h : x.localStep impudence = some y) : x.LocalStep impudence y := by
  unfold localStep at h
  cases hw : x.work with
  | pick =>
    simp only [hw, Option.some.injEq] at h
    subst h
    split
    · rename_i hstopped
      exact .stopped hw hstopped
    · rename_i hrunning
      split
      · exact .tenth hw (by simpa using hrunning)
      · exact .next hw (by simpa using hrunning)
  | lifo =>
    simp only [hw] at h
    split at h
    · rename_i task hslot
      obtain rfl := Option.some.inj h
      split
      · rename_i husage
        exact .lifoTask hw hslot husage
      · rename_i husage
        exact .noLifo hw fun _ _ => husage
    · rename_i hslot
      obtain rfl := Option.some.inj h
      exact .noLifo hw fun task h => by simp [hslot] at h
  | tryPop =>
    simp only [hw] at h
    split at h
    · rename_i hlocal
      obtain rfl := Option.some.inj h
      exact .popped hw hlocal
    · rename_i hlocal
      obtain rfl := Option.some.inj h
      exact .ringEmpty hw hlocal
  | pushGrabbed first rest =>
    simp only [hw, pushMany, Option.ite_none_right_eq_some, Option.some.injEq] at h
    obtain ⟨hfits, rfl⟩ := h
    exact .pushMany (.inl ⟨hw, rfl⟩) hfits
  | pushStolen first rest =>
    simp only [hw, pushMany, Option.ite_none_right_eq_some, Option.some.injEq] at h
    obtain ⟨hfits, rfl⟩ := h
    exact .pushMany (.inr ⟨hw, rfl⟩) hfits
  | impudence =>
    simp only [hw, Option.some.injEq] at h
    subst h
    split
    · rename_i hactive
      exact .active hw hactive
    · rename_i hpassive
      exact .passive hw hpassive
  | lifoCheck =>
    simp only [hw, Option.some.injEq] at h
    subst h
    split
    · rename_i hslot
      exact .lifoFilled hw hslot
    · rename_i hslot
      exact .lifoEmpty hw (by simpa using hslot)
  | execute task e =>
    cases e with
    | pushToLifoSlot next =>
      simp only [hw, Option.some.injEq] at h
      subst h
      split
      · rename_i hstopped
        exact .refused (.inl hw) hstopped
      · rename_i hrunning
        split
        · rename_i hslot
          exact .lifoSlot hw (by simpa using hrunning) hslot
        · rename_i hslot
          exact .displaced hw (by simpa using hrunning) hslot
    | pushToLocalQueue next =>
      simp only [hw, Option.some.injEq] at h
      subst h
      split
      · rename_i hstopped
        exact .refused (.inr hw) hstopped
      · rename_i hrunning
        exact .localQueue hw (by simpa using hrunning)
    | tryPush next =>
      simp only [hw, Option.some.injEq] at h
      subst h
      split
      · rename_i hroom
        exact .pushed hw hroom
      · rename_i hfull
        exact .full hw hfull
    | discard next =>
      simp only [hw, Option.some.injEq] at h
      exact h ▸ .discard hw
    | discardOffloaded buffer =>
      cases buffer with
      | nil =>
        simp only [hw, Option.some.injEq] at h
        exact h ▸ .offloadDiscarded hw
      | cons item rest =>
        simp only [hw, Option.some.injEq] at h
        exact h ▸ .discardOffloaded hw
    | discardPushed next =>
      simp only [hw, Option.some.injEq] at h
      exact h ▸ .discardPushed hw
    | _ => simp [hw] at h
  | drain =>
    simp only [hw] at h
    split at h
    · rename_i hlocal
      obtain rfl := Option.some.inj h
      exact .drained hw hlocal
    · rename_i hlocal
      obtain rfl := Option.some.inj h
      exact .drainedNull hw hlocal
    · rename_i hlocal
      obtain rfl := Option.some.inj h
      exact .drainedAll hw hlocal
  | discardRun task =>
    simp only [hw, Option.some.injEq] at h
    exact h ▸ .discardRun hw
  | discardLifo =>
    simp only [hw, Option.some.injEq] at h
    exact h ▸ .discardLifo hw
  | discardDrained task =>
    simp only [hw, Option.some.injEq] at h
    exact h ▸ .discardDrained hw
  | _ => simp [hw] at h

namespace Pool

/-- `pc` is where an empty-handed worker goes on. -/
inductive GlobalStep {n : Nat} {O T : Type} (s : Pool n O T) (w : Fin n) : Pool n O T → Prop where
  | grab {pc : Work n T} {t : Pool n O T}
      (hw : (s.workers w).work = .grab ∧ pc = .allowParking ∨
        (s.workers w).work = .grabAgain ∧ pc = .impudence)
      (h : s.grab w pc = some t) : GlobalStep s w t
  | offloadClosed {task : T} {buffer : List (Option T)}
      (hw : (s.workers w).work = .execute task (.offload buffer))
      (hclosed : s.global.isClosed = true) :
      GlobalStep s w (s.goto w (.execute task (.discardOffloaded buffer)))
  | offload {task : T} {buffer : List (Option T)}
      (hw : (s.workers w).work = .execute task (.offload buffer))
      (hopen : s.global.isClosed = false) :
      GlobalStep s w (s.goto w (.execute task (.offloadLocked buffer)))
  | offloadLocked {task : T} {buffer : List (Option T)}
      (hw : (s.workers w).work = .execute task (.offloadLocked buffer)) : GlobalStep s w
        { s.goto w (.execute task .awakeOne) with global := s.global.offload buffer }
  | pushOneClosed {task next : T} (hw : (s.workers w).work = .execute task (.pushOne next))
      (hclosed : s.global.isClosed = true) :
      GlobalStep s w (s.goto w (.execute task (.discardPushed next)))
  | pushOne {task next : T} (hw : (s.workers w).work = .execute task (.pushOne next))
      (hopen : s.global.isClosed = false) :
      GlobalStep s w (s.goto w (.execute task (.pushOneLocked next)))
  | pushOneLocked {task next : T} (hw : (s.workers w).work = .execute task (.pushOneLocked next)) :
      GlobalStep s w
        { s.goto w (.execute task .prohibitParking) with global := s.global.pushOne (some next) }

inductive CoordinatorStep {n : Nat} {O T : Type} (s : Pool n O T) (w : Fin n) (c : Choice n T) :
    Pool n O T → Prop where
  | awakeOne {pc : Work n T} {u : Pool n O T}
      (hw : (s.workers w).work = .awakeOne ∧ pc = .lifo ∨
        ∃ task, (s.workers w).work = .execute task .awakeOne ∧ pc = .run task)
      (hu : s.notifyOne c.woken = some u) : CoordinatorStep s w c (u.goto w pc)
  | allowParking (hw : (s.workers w).work = .allowParking) : CoordinatorStep s w c
      { s.goto w .grabAgain with coordinator := s.coordinator.allowParking }
  | gaveUp (hw : (s.workers w).work = .giveVictim 0) : CoordinatorStep s w c (s.goto w .lifoCheck)
  | itself {remaining : Nat} (hw : (s.workers w).work = .giveVictim (remaining + 1)) :
      CoordinatorStep s w c (s.goto w (.giveVictim remaining))
  | victim {remaining : Nat} {victim : Fin n}
      (hw : (s.workers w).work = .giveVictim (remaining + 1)) (hvictim : victim ≠ w) :
      CoordinatorStep s w c (s.goto w (.lowSize remaining victim))
  | park {coordinator : Coordinator (Fin n)} (hw : (s.workers w).work = .tryPark)
      (hallowed : s.coordinator.permission = .allowed)
      (hunlink : s.coordinator.unlink w = some coordinator) :
      CoordinatorStep s w c { s.goto w .asleep with coordinator := coordinator }
  | prohibited (hw : (s.workers w).work = .tryPark)
      (hprohibited : s.coordinator.permission ≠ .allowed) : CoordinatorStep s w c (s.goto w .pick)
  | notified (hw : (s.workers w).work = .notified) : CoordinatorStep s w c
      { s.goto w .pick with coordinator := s.coordinator.acquireUnsafe w }
  | prohibitParking {task : T} {u : Pool n O T}
      (hw : (s.workers w).work = .execute task .prohibitParking)
      (hu : s.prohibitParking c.woken = some u) : CoordinatorStep s w c (u.goto w (.run task))
  | release {coordinator : Coordinator (Fin n)} (hw : (s.workers w).work = .release)
      (hrelease : s.coordinator.release w = some coordinator) : CoordinatorStep s w c
        { s.goto w (if (s.workers w).lifoSlot.isSome then .discardLifo else .drain) with
          coordinator := coordinator }

inductive StealStep {n : Nat} {O T : Type} (s : Pool n O T) (w : Fin n) (c : Choice n T) :
    Pool n O T → Prop where
  | lowSize {remaining : Nat} {victim : Fin n}
      (hw : (s.workers w).work = .lowSize remaining victim) :
      StealStep s w c (s.goto w (.steal remaining victim
        (min ((s.workers victim).localTasks.length / 2) kLocalQueueCapacity)))
  | steal {remaining : Nat} {victim : Fin n} {limit : Nat}
      (hw : (s.workers w).work = .steal remaining victim limit) : StealStep s w c
        ((s.setWorker victim { s.workers victim with
          localTasks := (s.workers victim).localTasks.drop limit }).goto w
            (match (s.workers victim).localTasks.take limit with
              | [] => .giveVictim remaining
              | [first] => Worker.picked .lifoCheck first
              | first :: rest => .pushStolen first rest))
  | grab {task overflow : T} (hw : (s.workers w).work = .execute task (.grab overflow)) :
      StealStep s w c (s.setWorker w { s.workers w with
        localTasks := (s.workers w).localTasks.drop (kLocalQueueCapacity / 2)
        work := .execute task (.offload ((s.workers w).offloaded overflow c.uninit)) })

section
variable {n : Nat} {O T : Type} {s t : Pool n O T} {w : Fin n} {c : Choice n T}

theorem grab_eq {pc : Work n T} (h : s.grab w pc = some t) :
    ∃ global items, s.global.grab (kLocalQueueCapacity / 2) n = some (global, items) ∧
      t = { s.goto w (match items with
        | [] => pc
        | [first] => Worker.picked .impudence first
        | first :: rest => .pushGrabbed first rest) with global := global } := by
  obtain ⟨⟨global, items⟩, hgrab, rfl⟩ := Option.map_eq_some_iff.mp h
  exact ⟨global, items, hgrab, rfl⟩

theorem globalStep_cases (h : s.globalStep w = some t) : s.GlobalStep w t := by
  unfold globalStep at h
  cases hw : (s.workers w).work with
  | grab =>
    simp only [hw] at h
    exact .grab (.inl ⟨hw, rfl⟩) h
  | grabAgain =>
    simp only [hw] at h
    exact .grab (.inr ⟨hw, rfl⟩) h
  | execute task e =>
    cases e with
    | offload buffer =>
      simp only [hw, Option.some.injEq] at h
      subst h
      split
      · rename_i hclosed
        exact .offloadClosed hw hclosed
      · rename_i hopen
        exact .offload hw (by simpa using hopen)
    | offloadLocked buffer =>
      simp only [hw, Option.some.injEq] at h
      exact h ▸ .offloadLocked hw
    | pushOne next =>
      simp only [hw, Option.some.injEq] at h
      subst h
      split
      · rename_i hclosed
        exact .pushOneClosed hw hclosed
      · rename_i hopen
        exact .pushOne hw (by simpa using hopen)
    | pushOneLocked next =>
      simp only [hw, Option.some.injEq] at h
      exact h ▸ .pushOneLocked hw
    | _ => simp [hw] at h
  | _ => simp [hw] at h

theorem coordinatorStep_cases (h : s.coordinatorStep w c = some t) : s.CoordinatorStep w c t := by
  unfold coordinatorStep at h
  cases hw : (s.workers w).work with
  | awakeOne =>
    simp only [hw] at h
    obtain ⟨u, hu, rfl⟩ := Option.map_eq_some_iff.mp h
    exact .awakeOne (.inl ⟨hw, rfl⟩) hu
  | allowParking =>
    simp only [hw, Option.some.injEq] at h
    exact h ▸ .allowParking hw
  | giveVictim remaining =>
    cases remaining with
    | zero =>
      simp only [hw, Option.some.injEq] at h
      exact h ▸ .gaveUp hw
    | succ remaining =>
      simp only [hw] at h
      obtain ⟨victim, -, rfl⟩ := Option.map_eq_some_iff.mp h
      split
      · exact .itself hw
      · rename_i hne
        exact .victim hw hne
  | tryPark =>
    simp only [hw] at h
    split at h
    · rename_i hallowed
      obtain ⟨coordinator, hunlink, rfl⟩ := Option.map_eq_some_iff.mp h
      exact .park hw hallowed hunlink
    · rename_i hprohibited
      obtain rfl := Option.some.inj h
      exact .prohibited hw hprohibited
  | notified =>
    simp only [hw, Option.some.injEq] at h
    exact h ▸ .notified hw
  | execute task e =>
    cases e with
    | awakeOne =>
      simp only [hw] at h
      obtain ⟨u, hu, rfl⟩ := Option.map_eq_some_iff.mp h
      exact .awakeOne (.inr ⟨task, hw, rfl⟩) hu
    | prohibitParking =>
      simp only [hw] at h
      obtain ⟨u, hu, rfl⟩ := Option.map_eq_some_iff.mp h
      exact .prohibitParking hw hu
    | _ => simp [hw] at h
  | release =>
    simp only [hw] at h
    obtain ⟨coordinator, hrelease, rfl⟩ := Option.map_eq_some_iff.mp h
    exact .release hw hrelease
  | _ => simp [hw] at h

theorem stealStep_cases (h : s.stealStep w c = some t) : s.StealStep w c t := by
  unfold stealStep at h
  cases hw : (s.workers w).work with
  | lowSize remaining victim =>
    simp only [hw, Option.some.injEq] at h
    exact h ▸ .lowSize hw
  | steal remaining victim limit =>
    simp only [hw, Option.some.injEq] at h
    exact h ▸ .steal hw
  | execute task e =>
    cases e with
    | grab overflow =>
      simp only [hw, Option.some.injEq] at h
      exact h ▸ .grab hw
    | _ => simp [hw] at h
  | _ => simp [hw] at h

theorem workerStep_cases (h : s.workerStep w c = some t) :
    (∃ x, (s.workers w).localStep (s.coordinator.impudence w) = some x ∧ t = s.setWorker w x) ∨
      s.globalStep w = some t ∨ s.coordinatorStep w c = some t ∨ s.stealStep w c = some t := by
  unfold workerStep at h
  rcases (Option.orElse_eq_some _ _ _).mp h with hlocal | ⟨-, h⟩
  · obtain ⟨x, hx, rfl⟩ := Option.map_eq_some_iff.mp hlocal
    exact .inl ⟨x, hx, rfl⟩
  rcases (Option.orElse_eq_some _ _ _).mp h with hglobal | ⟨-, h⟩
  · exact .inr (.inl hglobal)
  rcases (Option.orElse_eq_some _ _ _).mp h with hcoordinator | ⟨-, hsteal⟩
  · exact .inr (.inr (.inl hcoordinator))
  · exact .inr (.inr (.inr hsteal))

end

end Pool

end ConcurrentProgramming.Fast
