import ConcurrentProgramming.Interleaving.Machine
import ConcurrentProgramming.Interleaving.Custody
import ConcurrentProgramming.Fibers.Futex
import Mathlib.Data.List.Nodup

/-!
The life of fibers between the executor, the workers that run them and the
futexes they park on. A step is one access to shared memory or one switch of
context; `lock_` of every futex is a lock that its sections take and release.
-/

set_option autoImplicit false

namespace ConcurrentProgramming.Fibers
open Interleaving

inductive Life where
  | unborn
  | live
  | deleted
  deriving DecidableEq, Repr

/-- `CoroutineImpl::State`; `ExceptionCaught` is overwritten at once, and
`caught_` remembers it. -/
inductive CoroutineState where
  | running
  | waiting
  | terminated
  deriving DecidableEq, Repr

/-- An awaiter object on the stack of its fiber. `handle` says whether `handle_`
is valid; it always names the fiber of the stack. -/
inductive Awaiter (X V : Type) where
  | yield
  | futex (futex : X) (oldValue : V) (handle : Bool)
  deriving DecidableEq, Repr

/-- Where the coroutine of a fiber is. `user` is the routine's own code. -/
inductive Routine (X V : Type) where
  | user
  | yieldSetAwaiter
  | yieldSuspend
  | yieldReturn
  | parkLock (x : X) (old : V)
  | parkSetAwaiter (x : X) (old : V)
  | parkUnlock (x : X)
  | parkSuspend (x : X)
  | parkRelock (x : X)
  | parkDestroy (x : X)
  | parkRelease (x : X)
  | done
  deriving DecidableEq, Repr

/-- `awaiter` says that `awaiter_` is not null; it then points at `frame`, the
awaiter object that is alive on the fiber's stack, if any. The last three fields
count. -/
structure Fiber (X V : Type) where
  life : Life
  state : CoroutineState
  caught : Bool
  awaiter : Bool
  frame : Option (Awaiter X V)
  routine : Routine X V
  deletions : Nat
  schedules : Nat
  suspensions : Nat
  deriving DecidableEq, Repr

/-- A worker inside `Fiber::Run`. `inside` is the coroutine itself, `back` the
return of `Resume`; the `await` steps are those of `AwaitSuspend`, and `discard`
is the executor's answer to a `Run` that throws. -/
inductive FiberRun (F X : Type) where
  | idle
  | setCurrent (f : F)
  | resume (f : F)
  | inside (f : F)
  | back (f : F)
  | delete (f : F)
  | discard (f : F)
  | awaitYield (f : F)
  | awaitHandle (f : F)
  | awaitLock (f : F)
  | awaitPush (f : F) (x : X)
  | awaitCheck (f : F) (x : X)
  | awaitUnlink (f : F) (x : X)
  | awaitSchedule (f : F) (x : X)
  | awaitUnlock (x : X)
  deriving DecidableEq, Repr

/-- A call of `WakeOne` or `WakeAll`, by a fiber or by any other thread. -/
inductive Wake (F X : Type) where
  | idle
  | lock (x : X) (all : Bool)
  | pop (x : X) (all : Bool)
  | awake (x : X) (all : Bool) (f : F)
  | unlock (x : X)
  deriving DecidableEq, Repr

inductive LockHolder (F W C : Type) where
  | fiber (f : F)
  | worker (w : W)
  | caller (c : C)
  deriving DecidableEq, Repr

/-- `locks` also remembers who took the lock. `misused` is raised by an access to
an awaiter that is not there, or through a handle that is not valid. -/
structure Runtime (F W C X V : Type) where
  queue : List F
  fibers : F → Fiber X V
  workers : W → FiberRun F X
  callers : C → Wake F X
  futexes : X → FutexLike F
  locks : X → Option (LockHolder F W C)
  cells : X → V
  misused : Bool

/-- What the code of a routine does next. -/
inductive RoutineOp (X V : Type) where
  | yield
  | parkIfEqual (x : X) (old : V)
  | return_
  | throw

inductive RuntimeLabel (F W C X V : Type) where
  | go (f : F)
  | run (w : W) (f : F)
  | worker (w : W)
  | op (w : W) (o : RoutineOp X V)
  | wake (c : C) (x : X) (all : Bool)
  | caller (c : C)
  | write (x : X) (v : V)

namespace Runtime

def put {F W C X V : Type} [DecidableEq F] (s : Runtime F W C X V) (f : F) (b : Fiber X V) :
    Runtime F W C X V := { s with fibers := Function.update s.fibers f b }

def goto {F W C X V : Type} [DecidableEq W] (s : Runtime F W C X V) (w : W) (pc : FiberRun F X) :
    Runtime F W C X V := { s with workers := Function.update s.workers w pc }

def call {F W C X V : Type} [DecidableEq C] (s : Runtime F W C X V) (c : C) (pc : Wake F X) :
    Runtime F W C X V := { s with callers := Function.update s.callers c pc }

def setQueue {F W C X V : Type} [DecidableEq X] (s : Runtime F W C X V) (x : X)
    (queue : List F) : Runtime F W C X V :=
  { s with futexes := Function.update s.futexes x ⟨queue⟩ }

def setLock {F W C X V : Type} [DecidableEq X] (s : Runtime F W C X V) (x : X)
    (h : Option (LockHolder F W C)) : Runtime F W C X V :=
  { s with locks := Function.update s.locks x h }

/-- `Fiber::Schedule`. -/
def schedule {F W C X V : Type} [DecidableEq F] (s : Runtime F W C X V) (f : F) :
    Runtime F W C X V :=
  { s.put f { s.fibers f with schedules := (s.fibers f).schedules + 1 } with
    queue := s.queue ++ [f] }

/-- `delete this`. -/
def delete {F W C X V : Type} [DecidableEq F] (s : Runtime F W C X V) (f : F) :
    Runtime F W C X V :=
  s.put f { s.fibers f with life := .deleted, deletions := (s.fibers f).deletions + 1 }

def misuse {F W C X V : Type} (s : Runtime F W C X V) : Runtime F W C X V :=
  { s with misused := true }

/-- `CoroutineImpl::Suspend`, called on worker `w`; the coroutine goes on at
`next` when it is resumed. -/
def suspend {F W C X V : Type} [DecidableEq F] [DecidableEq W] (s : Runtime F W C X V) (w : W)
    (f : F) (next : Routine X V) : Runtime F W C X V :=
  (s.put f { s.fibers f with
    state := .waiting, routine := next, suspensions := (s.fibers f).suspensions + 1 }).goto w
      (.back f)

/-- The next step of the coroutine of `f`, which runs on worker `w`. -/
def routineStep {F W C X V : Type} [DecidableEq F] [DecidableEq W] [DecidableEq X]
    (s : Runtime F W C X V) (w : W) (f : F) : Option (Runtime F W C X V) :=
  match (s.fibers f).routine with
  | .user | .done => none
  | .yieldSetAwaiter =>
    some (s.put f { s.fibers f with
      frame := some .yield, awaiter := true, routine := .yieldSuspend })
  | .yieldSuspend => some (s.suspend w f .yieldReturn)
  | .yieldReturn => some (s.put f { s.fibers f with frame := none, routine := .user })
  | .parkLock x old =>
    if s.locks x = none then
      some ((s.put f { s.fibers f with routine := .parkSetAwaiter x old }).setLock x
        (some (.fiber f)))
    else none
  | .parkSetAwaiter x old =>
    some (s.put f { s.fibers f with
      frame := some (.futex x old false), awaiter := true, routine := .parkUnlock x })
  | .parkUnlock x =>
    some ((s.put f { s.fibers f with routine := .parkSuspend x }).setLock x none)
  | .parkSuspend x => some (s.suspend w f (.parkRelock x))
  | .parkRelock x =>
    if s.locks x = none then
      some ((s.put f { s.fibers f with routine := .parkDestroy x }).setLock x (some (.fiber f)))
    else none
  | .parkDestroy x =>
    -- `~FutexAwaiter` unlinks itself
    some ((s.put f { s.fibers f with frame := none, routine := .parkRelease x }).setQueue x
      ((s.futexes x).queue.erase f))
  | .parkRelease x => some ((s.put f { s.fibers f with routine := .user }).setLock x none)

def workerStep {F W C X V : Type} [DecidableEq F] [DecidableEq W] [DecidableEq X] [DecidableEq V]
    (s : Runtime F W C X V) (w : W) : Option (Runtime F W C X V) :=
  match s.workers w with
  | .idle => none
  | .setCurrent f => some ((s.put f { s.fibers f with awaiter := false }).goto w (.resume f))
  | .resume f => some ((s.put f { s.fibers f with state := .running }).goto w (.inside f))
  | .inside f => s.routineStep w f
  | .back f =>
    if (s.fibers f).caught then some (s.goto w (.discard f))
    else if (s.fibers f).awaiter then
      match (s.fibers f).frame with
      | some .yield => some (s.goto w (.awaitYield f))
      | some (.futex _ _ _) => some (s.goto w (.awaitHandle f))
      | none => some s.misuse
    else some (s.goto w (.delete f))
  | .delete f | .discard f => some ((s.delete f).goto w .idle)
  | .awaitYield f => some ((s.schedule f).goto w .idle)
  | .awaitHandle f =>
    match (s.fibers f).frame with
    | some (.futex x old _) =>
      some ((s.put f { s.fibers f with frame := some (.futex x old true) }).goto w (.awaitLock f))
    | _ => some s.misuse
  | .awaitLock f =>
    match (s.fibers f).frame with
    | some (.futex x _ _) =>
      if s.locks x = none then some ((s.goto w (.awaitPush f x)).setLock x (some (.worker w)))
      else none
    | _ => some s.misuse
  | .awaitPush f x =>
    some ((s.goto w (.awaitCheck f x)).setQueue x ((s.futexes x).queue ++ [f]))
  | .awaitCheck f x =>
    match (s.fibers f).frame with
    | some (.futex _ old _) =>
      some (s.goto w (if s.cells x = old then .awaitUnlock x else .awaitUnlink f x))
    | _ => some s.misuse
  | .awaitUnlink f x =>
    some ((s.goto w (.awaitSchedule f x)).setQueue x ((s.futexes x).queue.erase f))
  | .awaitSchedule f x => some ((s.schedule f).goto w (.awaitUnlock x))
  | .awaitUnlock x => some ((s.goto w .idle).setLock x none)

def opStep {F W C X V : Type} [DecidableEq F] [DecidableEq W] (s : Runtime F W C X V) (w : W)
    (f : F) : RoutineOp X V → Runtime F W C X V
  | .yield => s.put f { s.fibers f with routine := .yieldSetAwaiter }
  | .parkIfEqual x old => s.put f { s.fibers f with routine := .parkLock x old }
  | .return_ =>
    (s.put f { s.fibers f with state := .terminated, routine := .done }).goto w (.back f)
  | .throw =>
    (s.put f { s.fibers f with state := .terminated, caught := true, routine := .done }).goto w
      (.back f)

def callerStep {F W C X V : Type} [DecidableEq F] [DecidableEq C] [DecidableEq X]
    (s : Runtime F W C X V) (c : C) : Option (Runtime F W C X V) :=
  match s.callers c with
  | .idle => none
  | .lock x all =>
    if s.locks x = none then some ((s.call c (.pop x all)).setLock x (some (.caller c))) else none
  | .pop x all =>
    match (s.futexes x).queue with
    | [] => some (s.call c (.unlock x))
    | f :: rest => some ((s.call c (.awake x all f)).setQueue x rest)
  | .awake x all f =>
    match (s.fibers f).frame with
    | some (.futex y old true) =>
      some (((s.put f { s.fibers f with frame := some (.futex y old false) }).schedule f).call c
        (if all then .pop x all else .unlock x))
    | _ => some s.misuse
  | .unlock x => some ((s.call c .idle).setLock x none)

def step {F W C X V : Type} [DecidableEq F] [DecidableEq W] [DecidableEq C] [DecidableEq X]
    [DecidableEq V] (s : Runtime F W C X V) : RuntimeLabel F W C X V → Option (Runtime F W C X V)
  | .go f =>
    if (s.fibers f).life = .unborn then
      some ((s.put f { s.fibers f with life := .live }).schedule f)
    else none
  | .run w f =>
    if s.workers w = .idle ∧ f ∈ s.queue then
      some { s.goto w (.setCurrent f) with queue := s.queue.erase f }
    else none
  | .worker w => s.workerStep w
  | .op w o =>
    match s.workers w with
    | .inside f => if (s.fibers f).routine = .user then some (s.opStep w f o) else none
    | _ => none
  | .wake c x all =>
    if s.callers c = .idle then some (s.call c (.lock x all)) else none
  | .caller c => s.callerStep c
  | .write x v => some { s with cells := Function.update s.cells x v }

end Runtime

def Fiber.unborn {X V : Type} : Fiber X V := ⟨.unborn, .waiting, false, false, none, .user, 0, 0, 0⟩

def runtime (F W C X V : Type) [DecidableEq F] [DecidableEq W] [DecidableEq C] [DecidableEq X]
    [DecidableEq V] (cells : X → V) : Machine (Runtime F W C X V) (RuntimeLabel F W C X V) where
  init := ⟨[], fun _ => .unborn, fun _ => .idle, fun _ => .idle, fun _ => ⟨[]⟩, fun _ => none,
    cells, false⟩
  step := Runtime.step

inductive Owner (W C X : Type) where
  | queued
  | run (w : W)
  | link (x : X)
  | wake (c : C)
  deriving DecidableEq, Repr

/-- The fiber that a `Run` has not handed over. -/
def FiberRun.owns {F X : Type} : FiberRun F X → Option F
  | .setCurrent f | .resume f | .inside f | .back f | .delete f | .discard f | .awaitYield f
  | .awaitHandle f | .awaitLock f | .awaitPush f _ | .awaitSchedule f _ => some f
  | .idle | .awaitCheck _ _ | .awaitUnlink _ _ | .awaitUnlock _ => none

@[simp] theorem FiberRun.owns_idle {F X : Type} : (FiberRun.idle : FiberRun F X).owns = none := rfl

/-- The fiber that a `Run` has linked and looks at once more. -/
def FiberRun.checks {F X : Type} : FiberRun F X → Option (F × X)
  | .awaitCheck f x | .awaitUnlink f x => some (f, x)
  | _ => none

/-- The fiber that a wake-up has popped and not scheduled. -/
def Wake.owns {F X : Type} : Wake F X → Option F
  | .awake _ _ f => some f
  | _ => none

/-! The sections of `lock_`. -/

def Routine.section_ {X V : Type} : Routine X V → Option X
  | .parkSetAwaiter x _ | .parkUnlock x | .parkDestroy x | .parkRelease x => some x
  | _ => none

def FiberRun.section_ {F X : Type} : FiberRun F X → Option X
  | .awaitPush _ x | .awaitCheck _ x | .awaitUnlink _ x | .awaitSchedule _ x | .awaitUnlock x =>
    some x
  | _ => none

@[simp] theorem FiberRun.section_idle {F X : Type} :
    (FiberRun.idle : FiberRun F X).section_ = none := rfl

def Wake.section_ {F X : Type} : Wake F X → Option X
  | .pop x _ | .awake x _ _ | .unlock x => some x
  | _ => none

def sections {F W C X V : Type} (fibers : F → Fiber X V) (workers : W → FiberRun F X)
    (callers : C → Wake F X) : LockHolder F W C → Option X
  | .fiber f => (fibers f).routine.section_
  | .worker w => (workers w).section_
  | .caller c => (callers c).section_

def holders {F W C X : Type} (queue : List F) (workers : W → FiberRun F X)
    (callers : C → Wake F X) (futexes : X → FutexLike F) : Owner W C X → F → Prop
  | .queued, f => f ∈ queue
  | .run w, f => (workers w).owns = some f
  | .link x, f => f ∈ (futexes x).queue
  | .wake c, f => (callers c).owns = some f

@[simp] theorem holders_queued {F W C X : Type} (queue : List F) (workers : W → FiberRun F X)
    (callers : C → Wake F X) (futexes : X → FutexLike F) (f : F) :
    holders queue workers callers futexes .queued f ↔ f ∈ queue := Iff.rfl

@[simp] theorem holders_run {F W C X : Type} (queue : List F) (workers : W → FiberRun F X)
    (callers : C → Wake F X) (futexes : X → FutexLike F) (w : W) (f : F) :
    holders queue workers callers futexes (.run w) f ↔ (workers w).owns = some f := Iff.rfl

@[simp] theorem holders_link {F W C X : Type} (queue : List F) (workers : W → FiberRun F X)
    (callers : C → Wake F X) (futexes : X → FutexLike F) (x : X) (f : F) :
    holders queue workers callers futexes (.link x) f ↔ f ∈ (futexes x).queue := Iff.rfl

@[simp] theorem holders_wake {F W C X : Type} (queue : List F) (workers : W → FiberRun F X)
    (callers : C → Wake F X) (futexes : X → FutexLike F) (c : C) (f : F) :
    holders queue workers callers futexes (.wake c) f ↔ (callers c).owns = some f := Iff.rfl

theorem holders_queue_ne {F W C X : Type} {queue queue' : List F} {workers : W → FiberRun F X}
    {callers : C → Wake F X} {futexes : X → FutexLike F} {o : Owner W C X} (h : o ≠ .queued) :
    holders queue' workers callers futexes o = holders queue workers callers futexes o := by
  cases o with
  | queued => exact absurd rfl h
  | run _ | link _ | wake _ => rfl

theorem holders_worker_ne {F W C X : Type} [DecidableEq W] {queue : List F}
    {workers : W → FiberRun F X} {callers : C → Wake F X} {futexes : X → FutexLike F} {w : W}
    {pc : FiberRun F X} {o : Owner W C X} (h : o ≠ .run w) :
    holders queue (Function.update workers w pc) callers futexes o =
      holders queue workers callers futexes o := by
  cases o with
  | run v =>
    have hv : v ≠ w := fun hv => h (by rw [hv])
    funext f
    simp [holders, hv]
  | queued | link _ | wake _ => rfl

theorem holders_caller_ne {F W C X : Type} [DecidableEq C] {queue : List F}
    {workers : W → FiberRun F X} {callers : C → Wake F X} {futexes : X → FutexLike F} {c : C}
    {pc : Wake F X} {o : Owner W C X} (h : o ≠ .wake c) :
    holders queue workers (Function.update callers c pc) futexes o =
      holders queue workers callers futexes o := by
  cases o with
  | wake d =>
    have hd : d ≠ c := fun hd => h (by rw [hd])
    funext f
    simp [holders, hd]
  | queued | link _ | run _ => rfl

theorem holders_futex_ne {F W C X : Type} [DecidableEq X] {queue : List F}
    {workers : W → FiberRun F X} {callers : C → Wake F X} {futexes : X → FutexLike F} {x : X}
    {fx : FutexLike F} {o : Owner W C X} (h : o ≠ .link x) :
    holders queue workers callers (Function.update futexes x fx) o =
      holders queue workers callers futexes o := by
  cases o with
  | link y =>
    have hy : y ≠ x := fun hy => h (by rw [hy])
    funext f
    simp [holders, hy]
  | queued | wake _ | run _ => rfl

theorem holders_worker_of_eq {F W C X : Type} [DecidableEq W] {queue : List F}
    {workers : W → FiberRun F X} {callers : C → Wake F X} {futexes : X → FutexLike F} {w : W}
    {pc : FiberRun F X} (h : pc.owns = (workers w).owns) :
    holders queue (Function.update workers w pc) callers futexes =
      holders queue workers callers futexes := by
  funext o f
  by_cases ho : o = .run w
  · subst ho
    simp [h]
  · rw [holders_worker_ne ho]

theorem holders_caller_of_eq {F W C X : Type} [DecidableEq C] {queue : List F}
    {workers : W → FiberRun F X} {callers : C → Wake F X} {futexes : X → FutexLike F} {c : C}
    {pc : Wake F X} (h : pc.owns = (callers c).owns) :
    holders queue workers (Function.update callers c pc) futexes =
      holders queue workers callers futexes := by
  funext o f
  by_cases ho : o = .wake c
  · subst ho
    simp [h]
  · rw [holders_caller_ne ho]

theorem sections_fiber {F W C X V : Type} [DecidableEq F] [DecidableEq W] [DecidableEq C]
    (fibers : F → Fiber X V) (workers : W → FiberRun F X) (callers : C → Wake F X) (f : F)
    (b : Fiber X V) : sections (Function.update fibers f b) workers callers =
      Function.update (sections fibers workers callers) (.fiber f) b.routine.section_ := by
  funext h
  by_cases hf : h = .fiber f
  · subst hf
    simp [sections]
  · cases h with
    | fiber g =>
      have hg : g ≠ f := fun hg => hf (by rw [hg])
      simp [sections, hg]
    | worker _ | caller _ => simp [sections]

theorem sections_worker {F W C X V : Type} [DecidableEq F] [DecidableEq W] [DecidableEq C]
    (fibers : F → Fiber X V) (workers : W → FiberRun F X) (callers : C → Wake F X) (w : W)
    (pc : FiberRun F X) : sections fibers (Function.update workers w pc) callers =
      Function.update (sections fibers workers callers) (.worker w) pc.section_ := by
  funext h
  by_cases hw : h = .worker w
  · subst hw
    simp [sections]
  · cases h with
    | worker v =>
      have hv : v ≠ w := fun hv => hw (by rw [hv])
      simp [sections, hv]
    | fiber _ | caller _ => simp [sections]

theorem sections_caller {F W C X V : Type} [DecidableEq F] [DecidableEq W] [DecidableEq C]
    (fibers : F → Fiber X V) (workers : W → FiberRun F X) (callers : C → Wake F X) (c : C)
    (pc : Wake F X) : sections fibers workers (Function.update callers c pc) =
      Function.update (sections fibers workers callers) (.caller c) pc.section_ := by
  funext h
  by_cases hc : h = .caller c
  · subst hc
    simp [sections]
  · cases h with
    | caller d =>
      have hd : d ≠ c := fun hd => hc (by rw [hd])
      simp [sections, hd]
    | fiber _ | worker _ => simp [sections]

theorem sections_fiber_of_eq {F W C X V : Type} [DecidableEq F] {fibers : F → Fiber X V}
    {workers : W → FiberRun F X} {callers : C → Wake F X} {f : F} {b : Fiber X V}
    (h : b.routine.section_ = (fibers f).routine.section_) :
    sections (Function.update fibers f b) workers callers = sections fibers workers callers := by
  funext k
  cases k with
  | fiber g =>
    by_cases hg : g = f
    · subst hg
      simpa [sections] using h
    · simp [sections, hg]
  | worker _ | caller _ => rfl

theorem sections_worker_of_eq {F W C X V : Type} [DecidableEq W] {fibers : F → Fiber X V}
    {workers : W → FiberRun F X} {callers : C → Wake F X} {w : W} {pc : FiberRun F X}
    (h : pc.section_ = (workers w).section_) :
    sections fibers (Function.update workers w pc) callers = sections fibers workers callers := by
  funext k
  cases k with
  | worker v =>
    by_cases hv : v = w
    · subst hv
      simpa [sections] using h
    · simp [sections, hv]
  | fiber _ | caller _ => rfl

theorem sections_caller_of_eq {F W C X V : Type} [DecidableEq C] {fibers : F → Fiber X V}
    {workers : W → FiberRun F X} {callers : C → Wake F X} {c : C} {pc : Wake F X}
    (h : pc.section_ = (callers c).section_) :
    sections fibers workers (Function.update callers c pc) = sections fibers workers callers := by
  funext k
  cases k with
  | caller d =>
    by_cases hd : d = c
    · subst hd
      simpa [sections] using h
    · simp [sections, hd]
  | fiber _ | worker _ => rfl

/-! What a fiber is like, by its owner. -/

/-- The awaiter on the stack at each point of the coroutine. -/
def Routine.Frame {X V : Type} (frame : Option (Awaiter X V)) : Routine X V → Prop
  | .yieldSuspend | .yieldReturn => frame = some .yield
  | .parkUnlock x | .parkSuspend x | .parkRelock x | .parkDestroy x =>
    ∃ old handle, frame = some (.futex x old handle)
  | _ => frame = none

/-- Points at which `awaiter_` has been set for the suspension to come. -/
def Routine.awaits {X V : Type} : Routine X V → Bool
  | .yieldSuspend | .parkUnlock _ | .parkSuspend _ => true
  | _ => false

/-- Points after a suspension. -/
def Routine.resumable {X V : Type} : Routine X V → Bool
  | .yieldReturn | .parkRelock _ => true
  | _ => false

structure Fiber.Ready {X V : Type} (b : Fiber X V) : Prop where
  state : b.state = .waiting
  caught : b.caught = false
  routine : b.routine = .user ∨ b.routine.resumable = true
  schedules : b.schedules = b.suspensions + 1

structure Fiber.Active {X V : Type} (b : Fiber X V) : Prop where
  state : b.state = .running
  caught : b.caught = false
  awaiter : b.awaiter = b.routine.awaits
  schedules : b.schedules = b.suspensions + 1

structure Fiber.Suspended {X V : Type} (b : Fiber X V) : Prop where
  state : b.state = .waiting
  caught : b.caught = false
  routine : b.routine.resumable = true
  schedules : b.schedules = b.suspensions

/-- Suspended inside `ParkIfEqual`, with a handle in its awaiter. -/
structure Fiber.Parked {X V : Type} (x : X) (b : Fiber X V) : Prop where
  suspended : b.Suspended
  routine : b.routine = .parkRelock x
  frame : ∃ old, b.frame = some (.futex x old true)

structure Fiber.Finished {X V : Type} (b : Fiber X V) : Prop where
  state : b.state = .terminated
  awaiter : b.caught = false → b.awaiter = false
  schedules : b.schedules = b.suspensions + 1

def FiberRun.Ok {F X V : Type} (b : Fiber X V) : FiberRun F X → Prop
  | .setCurrent _ => b.Ready
  | .resume _ => b.Ready ∧ b.awaiter = false
  | .inside _ => b.Active
  | .back _ => b.Suspended ∧ b.awaiter = true ∨ b.Finished
  | .delete _ | .discard _ => b.Finished
  | .awaitYield _ => b.Suspended
  | .awaitHandle _ => b.Suspended ∧ ∃ x, b.routine = .parkRelock x
  | .awaitLock _ => ∃ x, b.Parked x
  | .awaitPush _ x | .awaitSchedule _ x => b.Parked x
  | .idle | .awaitCheck _ _ | .awaitUnlink _ _ | .awaitUnlock _ => False

/-- The books of a fiber that has an owner, or has none. -/
structure Fiber.Record {X V : Type} (owned : Bool) (b : Fiber X V) : Prop where
  life : b.life = .live ↔ owned = true
  deletions : b.deletions = if b.life = .deleted then 1 else 0
  frame : b.routine.Frame b.frame
  deleted : b.life = .deleted → b.state = .terminated ∧ b.schedules = b.suspensions + 1
  unborn : b.life = .unborn → b = .unborn

theorem Fiber.Record.of_live {X V : Type} {b : Fiber X V} (hlife : b.life = .live)
    (hdeletions : b.deletions = 0) (hframe : b.routine.Frame b.frame) : b.Record true := by
  constructor <;> simp [hlife, hdeletions, hframe]

theorem Fiber.Record.live {X V : Type} {b : Fiber X V} (h : b.Record true) :
    b.life = .live ∧ b.deletions = 0 := by
  have hlife : b.life = .live := h.life.mpr rfl
  have hdeletions := h.deletions
  simp only [hlife, reduceCtorEq, if_false] at hdeletions
  exact ⟨hlife, hdeletions⟩

/-- A suspended fiber that has a futex awaiter is inside `ParkIfEqual`. -/
theorem Fiber.Suspended.parkRelock {X V : Type} {b : Fiber X V} (h : b.Suspended)
    (hrecord : b.Record true) {x : X} {old : V} {handle : Bool}
    (hframe : b.frame = some (.futex x old handle)) : b.routine = .parkRelock x := by
  have hroutine := h.routine
  have hf := hrecord.frame
  cases hr : b.routine <;> simp_all [Routine.resumable, Routine.Frame]

theorem Fiber.Suspended.frame_ne_none {X V : Type} {b : Fiber X V} (h : b.Suspended)
    (hrecord : b.Record true) : b.frame ≠ none := by
  intro hnone
  have hroutine := h.routine
  have hf := hrecord.frame
  cases hr : b.routine <;> simp_all [Routine.resumable, Routine.Frame]

namespace Runtime

def Placed {F W C X V : Type} (s : Runtime F W C X V) (f : F) : Owner W C X → Prop
  | .queued => (s.fibers f).Ready
  | .run w => (s.workers w).Ok (s.fibers f)
  | .link x => (s.fibers f).Parked x
  | .wake c => ∃ x all, s.callers c = .awake x all f ∧ (s.fibers f).Parked x

structure Inv {F W C X V : Type} (s : Runtime F W C X V) (own : F → Option (Owner W C X)) :
    Prop where
  custody : Custody (holders s.queue s.workers s.callers s.futexes) own
  queue : s.queue.Nodup
  links : ∀ x, (s.futexes x).queue.Nodup
  placed : ∀ f o, own f = some o → s.Placed f o
  checking : ∀ w f x, (s.workers w).checks = some (f, x) → own f = some (.link x)
  guarded : Guarded (sections s.fibers s.workers s.callers) s.locks
  record : ∀ f, (s.fibers f).Record (own f).isSome
  unmisused : s.misused = false

/-- One fiber changes hands, or stays where it is and changes. -/
theorem Inv.move {F W C X V : Type} [DecidableEq F] {s t : Runtime F W C X V}
    {own : F → Option (Owner W C X)} (hs : s.Inv own) {f : F} {q : Option (Owner W C X)}
    (hcustody : Custody (holders t.queue t.workers t.callers t.futexes) (Function.update own f q))
    (hqueue : t.queue.Nodup) (hlinks : ∀ x, (t.futexes x).queue.Nodup)
    (hfibers : ∀ g, g ≠ f → t.fibers g = s.fibers g)
    (hworkers : ∀ w g, g ≠ f → (s.workers w).owns = some g → t.workers w = s.workers w)
    (hcallers : ∀ c g, g ≠ f → (s.callers c).owns = some g → t.callers c = s.callers c)
    (hplaced : ∀ o, q = some o → t.Placed f o)
    (hchecking : ∀ w g x, (t.workers w).checks = some (g, x) →
      g = f ∧ q = some (.link x) ∨ g ≠ f ∧ (s.workers w).checks = some (g, x))
    (hguarded : Guarded (sections t.fibers t.workers t.callers) t.locks)
    (hrecord : (t.fibers f).Record q.isSome) (hmisused : t.misused = false) :
    t.Inv (Function.update own f q) := by
  refine ⟨hcustody, hqueue, hlinks, fun g o hg => ?_, fun w g x hg => ?_,
    hguarded, fun g => ?_, hmisused⟩
  · by_cases hgf : g = f
    · subst hgf
      exact hplaced o (by simpa using hg)
    · rw [Function.update_of_ne hgf] at hg
      have hplaced := hs.placed g o hg
      have hholds := (hs.custody o g).mpr hg
      cases o with
      | queued =>
        simp only [Placed, hfibers g hgf] at hplaced ⊢
        exact hplaced
      | run w =>
        simp only [Placed, hfibers g hgf, hworkers w g hgf hholds] at hplaced ⊢
        exact hplaced
      | link x =>
        simp only [Placed, hfibers g hgf] at hplaced ⊢
        exact hplaced
      | wake c =>
        simp only [Placed, hfibers g hgf, hcallers c g hgf hholds] at hplaced ⊢
        exact hplaced
  · rcases hchecking w g x hg with ⟨rfl, hq⟩ | ⟨hgf, hg⟩
    · simpa using hq
    · simpa [hgf] using hs.checking w g x hg
  · by_cases hgf : g = f
    · subst hgf
      simpa using hrecord
    · rw [hfibers g hgf, Function.update_of_ne hgf]
      exact hs.record g

theorem checks_of_owns {F X : Type} {pc : FiberRun F X} {f : F} (h : pc.owns = some f) :
    pc.checks = none := by
  cases pc <;> simp_all [FiberRun.owns, FiberRun.checks]

theorem update_worker_of_owns {F W X : Type} [DecidableEq W] {workers : W → FiberRun F X} {w : W}
    {f : F} {pc : FiberRun F X} (hw : ∀ g, (workers w).owns = some g → g = f) (v : W) (g : F)
    (hg : g ≠ f) (hv : (workers v).owns = some g) :
    Function.update workers w pc v = workers v := by
  by_cases hvw : v = w
  · subst hvw
    exact absurd (hw g hv) hg
  · exact Function.update_of_ne hvw _ _

/-- Nobody checks a fiber that is not linked. -/
theorem Inv.checks_ne {F W C X V : Type} {s : Runtime F W C X V}
    {own : F → Option (Owner W C X)} (hs : s.Inv own) {w : W} {f g : F} {x : X}
    (hw : (s.workers w).checks = some (g, x)) (hf : own f ≠ some (.link x)) : g ≠ f := by
  rintro rfl
  exact hf (hs.checking w g x hw)

/-- A worker goes on with the fiber that it owns. -/
theorem Inv.work {F W C X V : Type} [DecidableEq F] [DecidableEq W] {s : Runtime F W C X V}
    {own : F → Option (Owner W C X)} (hs : s.Inv own) {w : W} {f : F} {b : Fiber X V}
    {pc : FiberRun F X} {locks : X → Option (LockHolder F W C)}
    (hw : (s.workers w).owns = some f) (hpc : pc.owns = some f) (hok : pc.Ok b)
    (hrecord : b.Record true)
    (hguarded : Guarded (sections (Function.update s.fibers f b) (Function.update s.workers w pc)
      s.callers) locks) :
    ({ (s.put f b).goto w pc with locks := locks } : Runtime F W C X V).Inv own := by
  have hown : own f = some (.run w) := (hs.custody (.run w) f).mp hw
  have hmove : ({ (s.put f b).goto w pc with locks := locks } : Runtime F W C X V).Inv
      (Function.update own f (some (.run w))) := by
    apply hs.move
    · rw [Function.update_eq_self_iff.mpr hown.symm]
      simp only [put, goto]
      rw [holders_worker_of_eq (hpc.trans hw.symm)]
      exact hs.custody
    · exact hs.queue
    · exact hs.links
    · intro g hg
      simp [put, goto, hg]
    · simp only [put, goto]
      apply update_worker_of_owns
      simp [hw, eq_comm]
    · intros
      rfl
    · intro o ho
      obtain rfl : Owner.run w = o := by simpa using ho
      simpa [Placed, put, goto] using hok
    · intro v g x hv
      by_cases hvw : v = w
      · subst hvw
        simp [goto, checks_of_owns hpc] at hv
      · simp only [goto, put, Function.update_of_ne hvw] at hv
        exact .inr ⟨hs.checks_ne hv (by simp [hown]), hv⟩
    · exact hguarded
    · simpa [put, goto] using hrecord
    · exact hs.unmisused
  rwa [Function.update_eq_self_iff.mpr hown.symm] at hmove

/-- A worker that owns no fiber goes on. -/
theorem Inv.proceed {F W C X V : Type} [DecidableEq F] [DecidableEq W] {s : Runtime F W C X V}
    {own : F → Option (Owner W C X)} (hs : s.Inv own) {w : W} {pc : FiberRun F X}
    {locks : X → Option (LockHolder F W C)} (hw : (s.workers w).owns = none)
    (hpc : pc.owns = none) (hchecks : ∀ p, pc.checks = some p → (s.workers w).checks = some p)
    (hguarded : Guarded (sections s.fibers (Function.update s.workers w pc) s.callers) locks) :
    ({ s.goto w pc with locks := locks } : Runtime F W C X V).Inv own := by
  have howns (v : W) (g : F) : (Function.update s.workers w pc v).owns = some g ↔
      (s.workers v).owns = some g := by
    by_cases hv : v = w
    · subst hv
      simp [hw, hpc]
    · simp [hv]
  constructor
  · simp only [goto]
    rw [holders_worker_of_eq (hpc.trans hw.symm)]
    exact hs.custody
  · exact hs.queue
  · exact hs.links
  · intro g o ho
    have hplaced := hs.placed g o ho
    cases o with
    | run v =>
      have hv : v ≠ w := by
        rintro rfl
        have := (hs.custody (.run v) g).mpr ho
        simp [hw] at this
      simpa [Placed, goto, hv] using hplaced
    | queued | link _ | wake _ => exact hplaced
  · intro v g x hv
    by_cases hvw : v = w
    · subst hvw
      simp only [goto, Function.update_self] at hv
      exact hs.checking _ _ _ (hchecks _ hv)
    · simp only [goto, Function.update_of_ne hvw] at hv
      exact hs.checking _ _ _ hv
  · exact hguarded
  · exact hs.record
  · exact hs.unmisused

/-- A wake-up that owns no fiber goes on. -/
theorem Inv.proceed_caller {F W C X V : Type} [DecidableEq F] [DecidableEq C]
    {s : Runtime F W C X V} {own : F → Option (Owner W C X)} (hs : s.Inv own) {c : C}
    {pc : Wake F X} {locks : X → Option (LockHolder F W C)} (hc : (s.callers c).owns = none)
    (hpc : pc.owns = none)
    (hguarded : Guarded (sections s.fibers s.workers (Function.update s.callers c pc)) locks) :
    ({ s.call c pc with locks := locks } : Runtime F W C X V).Inv own := by
  constructor
  · simp only [call]
    rw [holders_caller_of_eq (hpc.trans hc.symm)]
    exact hs.custody
  · exact hs.queue
  · exact hs.links
  · intro g o ho
    have hplaced := hs.placed g o ho
    cases o with
    | wake d =>
      have hd : d ≠ c := by
        rintro rfl
        have := (hs.custody (.wake d) g).mpr ho
        simp [hc] at this
      simpa [Placed, call, hd] using hplaced
    | queued | link _ | run _ => exact hplaced
  · exact hs.checking
  · exact hguarded
  · exact hs.record
  · exact hs.unmisused

theorem Inv.write {F W C X V : Type} {s : Runtime F W C X V} {own : F → Option (Owner W C X)}
    (hs : s.Inv own) (cells : X → V) : ({ s with cells := cells } : Runtime F W C X V).Inv own :=
  ⟨hs.custody, hs.queue, hs.links, hs.placed, hs.checking, hs.guarded, hs.record, hs.unmisused⟩

/-- The executor takes a task and a worker runs it. -/
theorem Inv.run {F W C X V : Type} [DecidableEq F] [DecidableEq W] [DecidableEq C] [DecidableEq X]
    {s : Runtime F W C X V} {own : F → Option (Owner W C X)} (hs : s.Inv own) {w : W} {f : F}
    (hw : s.workers w = .idle) (hf : f ∈ s.queue) :
    ({ s.goto w (.setCurrent f) with queue := s.queue.erase f } : Runtime F W C X V).Inv
      (Function.update own f (some (.run w))) := by
  have hown : own f = some .queued := (hs.custody .queued f).mp hf
  apply hs.move
  · apply hs.custody.transfer hown
    · intro g
      simp [hs.queue.mem_erase_iff, and_comm]
    · intro g
      simp [goto, hw, FiberRun.owns, eq_comm]
    · intro o hqueued hrun
      simp only [goto]
      rw [holders_queue_ne hqueued, holders_worker_ne hrun]
  · exact hs.queue.erase f
  · exact hs.links
  · intros
    rfl
  · apply update_worker_of_owns
    simp [hw, FiberRun.owns]
  · intros
    rfl
  · intro o ho
    obtain rfl : Owner.run w = o := by simpa using ho
    simpa [Placed, goto, FiberRun.Ok] using hs.placed f _ hown
  · intro v g x hv
    by_cases hvw : v = w
    · subst hvw
      simp [goto, FiberRun.checks] at hv
    · simp only [goto, Function.update_of_ne hvw] at hv
      exact .inr ⟨hs.checks_ne hv (by simp [hown]), hv⟩
  · simp only [goto]
    rw [sections_worker_of_eq (by simp [hw, FiberRun.section_])]
    exact hs.guarded
  · simpa [goto, hown] using hs.record f
  · exact hs.unmisused

/-- A worker gives its fiber back to the executor. -/
theorem Inv.schedule_run {F W C X V : Type} [DecidableEq F] [DecidableEq W] [DecidableEq C]
    [DecidableEq X] {s : Runtime F W C X V} {own : F → Option (Owner W C X)} (hs : s.Inv own)
    {w : W} {f : F} {pc : FiberRun F X} (hw : (s.workers w).owns = some f) (hpc : pc.owns = none)
    (hchecks : pc.checks = none) (hsection : pc.section_ = (s.workers w).section_)
    (hsuspended : (s.fibers f).Suspended) :
    ((s.schedule f).goto w pc).Inv (Function.update own f (some .queued)) := by
  have hown : own f = some (.run w) := (hs.custody (.run w) f).mp hw
  apply hs.move
  · apply hs.custody.transfer hown
    · intro g
      simp [schedule, goto, hpc, hw, eq_comm]
    · intro g
      simp [schedule, goto]
    · intro o hrun hqueued
      simp only [schedule, put, goto]
      rw [holders_queue_ne hqueued, holders_worker_ne hrun]
  · have hf : f ∉ s.queue := by
      intro hf
      have := hs.custody.eq (p := .queued) hf ((hs.custody (.run w) f).mpr hown)
      cases this
    exact List.Nodup.append hs.queue (List.nodup_singleton f) (by simpa using hf)
  · exact hs.links
  · intro g hg
    simp [schedule, put, goto, hg]
  · apply update_worker_of_owns
    simp [hw, eq_comm]
  · intros
    rfl
  · intro o ho
    obtain rfl : Owner.queued = o := by simpa using ho
    simp only [Placed, schedule, put, goto, Function.update_self]
    constructor
    · exact hsuspended.state
    · exact hsuspended.caught
    · exact .inr hsuspended.routine
    · simp [hsuspended.schedules]
  · intro v g x hv
    by_cases hvw : v = w
    · subst hvw
      simp [goto, hchecks] at hv
    · simp only [schedule, put, goto, Function.update_of_ne hvw] at hv
      exact .inr ⟨hs.checks_ne hv (by simp [hown]), hv⟩
  · simp only [schedule, put, goto]
    rw [sections_worker_of_eq hsection, sections_fiber_of_eq (by simp)]
    exact hs.guarded
  · have hr := hs.record f
    have hlive : (s.fibers f).life = .live := hr.life.mpr (by simp [hown])
    constructor
    · simp [schedule, put, goto, hlive]
    · simpa [schedule, put, goto] using hr.deletions
    · simpa [schedule, put, goto] using hr.frame
    · simp [schedule, put, goto, hlive]
    · simp [schedule, put, goto, hlive]
  · exact hs.unmisused

/-- `delete this`. -/
theorem Inv.finish {F W C X V : Type} [DecidableEq F] [DecidableEq W] [DecidableEq C]
    [DecidableEq X] {s : Runtime F W C X V} {own : F → Option (Owner W C X)} (hs : s.Inv own)
    {w : W} {f : F} (hw : (s.workers w).owns = some f) (hsection : (s.workers w).section_ = none)
    (hfinished : (s.fibers f).Finished) :
    ((s.delete f).goto w .idle).Inv (Function.update own f none) := by
  have hown : own f = some (.run w) := (hs.custody (.run w) f).mp hw
  apply hs.move
  · apply hs.custody.depart hown
    · intro g
      simp [delete, put, goto, hw, eq_comm]
    · intro o hrun
      simp only [delete, put, goto]
      rw [holders_worker_ne hrun]
  · exact hs.queue
  · exact hs.links
  · intro g hg
    simp [delete, put, goto, hg]
  · apply update_worker_of_owns
    simp [hw, eq_comm]
  · intros
    rfl
  · simp
  · intro v g x hv
    by_cases hvw : v = w
    · subst hvw
      simp [goto, FiberRun.checks] at hv
    · simp only [delete, put, goto, Function.update_of_ne hvw] at hv
      exact .inr ⟨hs.checks_ne hv (by simp [hown]), hv⟩
  · simp only [delete, put, goto]
    rw [sections_worker_of_eq (by simp [hsection]), sections_fiber_of_eq (by simp)]
    exact hs.guarded
  · have hr := hs.record f
    have hlive : (s.fibers f).life = .live := hr.life.mpr (by simp [hown])
    have hdeletions := hr.deletions
    constructor
    · simp [delete, put, goto]
    · simp [delete, put, goto, hdeletions, hlive]
    · simpa [delete, put, goto] using hr.frame
    · simp [delete, put, goto, hfinished.state, hfinished.schedules]
    · simp [delete, put, goto]
  · exact hs.unmisused

/-- `AwaitSuspend` links the awaiter. -/
theorem Inv.link {F W C X V : Type} [DecidableEq F] [DecidableEq W] [DecidableEq C]
    [DecidableEq X] {s : Runtime F W C X V} {own : F → Option (Owner W C X)} (hs : s.Inv own)
    {w : W} {f : F} {x : X} (hw : s.workers w = .awaitPush f x) :
    ((s.goto w (.awaitCheck f x)).setQueue x ((s.futexes x).queue ++ [f])).Inv
      (Function.update own f (some (.link x))) := by
  have hown : own f = some (.run w) := (hs.custody (.run w) f).mp (by simp [hw, FiberRun.owns])
  have hf : f ∉ (s.futexes x).queue := by
    intro hf
    have := hs.custody.eq (p := .link x) hf ((hs.custody (.run w) f).mpr hown)
    cases this
  apply hs.move
  · apply hs.custody.transfer hown
    · intro g
      simp [setQueue, goto, FiberRun.owns, hw, eq_comm]
    · intro g
      simp [setQueue, goto]
    · intro o hrun hlink
      simp only [setQueue, goto]
      rw [holders_futex_ne hlink, holders_worker_ne hrun]
  · exact hs.queue
  · intro y
    by_cases hy : y = x
    · subst hy
      simpa [setQueue, goto] using
        List.Nodup.append (hs.links y) (List.nodup_singleton f) (by simpa using hf)
    · simpa [setQueue, goto, hy] using hs.links y
  · intros
    rfl
  · apply update_worker_of_owns
    simp [hw, FiberRun.owns]
  · intros
    rfl
  · intro o ho
    obtain rfl : Owner.link x = o := by simpa using ho
    simpa [Placed, setQueue, goto, hw, FiberRun.Ok] using hs.placed f _ hown
  · intro v g y hv
    by_cases hvw : v = w
    · subst hvw
      obtain ⟨rfl, rfl⟩ : f = g ∧ x = y := by
        simpa [setQueue, goto, FiberRun.checks] using hv
      simp
    · simp only [setQueue, goto, Function.update_of_ne hvw] at hv
      exact .inr ⟨hs.checks_ne hv (by simp [hown]), hv⟩
  · simp only [setQueue, goto]
    rw [sections_worker_of_eq (by simp [hw, FiberRun.section_])]
    exact hs.guarded
  · simpa [setQueue, goto, hown] using hs.record f
  · exact hs.unmisused

/-- The section of `lock_` in which a fiber is checked keeps others from it. -/
theorem Inv.checks_section {F W C X V : Type} {s : Runtime F W C X V}
    {own : F → Option (Owner W C X)} (hs : s.Inv own) {v : W} {f : F} {x y : X}
    {h : LockHolder F W C} (hown : own f = some (.link x))
    (hh : sections s.fibers s.workers s.callers h = some x)
    (hv : (s.workers v).checks = some (f, y)) : h = .worker v := by
  have hlink := hs.checking v f y hv
  obtain rfl : x = y := by simpa [hown] using hlink
  apply hs.guarded.exclusive hh
  cases hp : s.workers v <;> simp_all [sections, FiberRun.checks, FiberRun.section_]

/-- `AwaitSuspend` takes the awaiter back. -/
theorem Inv.unlink {F W C X V : Type} [DecidableEq F] [DecidableEq W] [DecidableEq C]
    [DecidableEq X] {s : Runtime F W C X V} {own : F → Option (Owner W C X)} (hs : s.Inv own)
    {w : W} {f : F} {x : X} (hw : s.workers w = .awaitUnlink f x) :
    ((s.goto w (.awaitSchedule f x)).setQueue x ((s.futexes x).queue.erase f)).Inv
      (Function.update own f (some (.run w))) := by
  have hown : own f = some (.link x) := hs.checking w f x (by simp [hw, FiberRun.checks])
  apply hs.move
  · apply hs.custody.transfer hown
    · intro g
      simp [setQueue, goto, (hs.links x).mem_erase_iff, and_comm]
    · intro g
      simp [setQueue, goto, FiberRun.owns, hw, eq_comm]
    · intro o hlink hrun
      simp only [setQueue, goto]
      rw [holders_futex_ne hlink, holders_worker_ne hrun]
  · exact hs.queue
  · intro y
    by_cases hy : y = x
    · subst hy
      simpa [setQueue, goto] using (hs.links y).erase f
    · simpa [setQueue, goto, hy] using hs.links y
  · intros
    rfl
  · apply update_worker_of_owns
    simp [hw, FiberRun.owns]
  · intros
    rfl
  · intro o ho
    obtain rfl : Owner.run w = o := by simpa using ho
    simpa [Placed, setQueue, goto, FiberRun.Ok] using hs.placed f _ hown
  · intro v g y hv
    by_cases hvw : v = w
    · subst hvw
      simp [setQueue, goto, FiberRun.checks] at hv
    · simp only [setQueue, goto, Function.update_of_ne hvw] at hv
      refine .inr ⟨?_, hv⟩
      rintro rfl
      have := hs.checks_section (h := .worker w) hown (by simp [sections, hw, FiberRun.section_]) hv
      exact hvw (by simpa [eq_comm] using this)
  · simp only [setQueue, goto]
    rw [sections_worker_of_eq (by simp [hw, FiberRun.section_])]
    exact hs.guarded
  · simpa [setQueue, goto, hown] using hs.record f
  · exact hs.unmisused

/-- `PopFront`. -/
theorem Inv.pop {F W C X V : Type} [DecidableEq F] [DecidableEq W] [DecidableEq C]
    [DecidableEq X] {s : Runtime F W C X V} {own : F → Option (Owner W C X)} (hs : s.Inv own)
    {c : C} {f : F} {rest : List F} {x : X} {all : Bool} (hc : s.callers c = .pop x all)
    (hx : (s.futexes x).queue = f :: rest) :
    ((s.call c (.awake x all f)).setQueue x rest).Inv (Function.update own f (some (.wake c))) := by
  have hown : own f = some (.link x) := (hs.custody (.link x) f).mp (by simp [hx])
  have hnodup := hs.links x
  rw [hx, List.nodup_cons] at hnodup
  apply hs.move
  · apply hs.custody.transfer hown
    · intro g
      simp only [setQueue, call, holders_link, Function.update_self, hx, List.mem_cons]
      constructor
      · intro hg
        refine ⟨.inr hg, ?_⟩
        rintro rfl
        exact hnodup.1 hg
      · rintro ⟨rfl | hg, hgf⟩
        · exact absurd rfl hgf
        · exact hg
    · intro g
      simp [setQueue, call, Wake.owns, hc, eq_comm]
    · intro o hlink hwake
      simp only [setQueue, call]
      rw [holders_futex_ne hlink, holders_caller_ne hwake]
  · exact hs.queue
  · intro y
    by_cases hy : y = x
    · subst hy
      simpa [setQueue, call] using hnodup.2
    · simpa [setQueue, call, hy] using hs.links y
  · intros
    rfl
  · intros
    rfl
  · intro d g hg hd
    have hdc : d ≠ c := by
      rintro rfl
      simp [hc, Wake.owns] at hd
    simp [setQueue, call, hdc]
  · intro o ho
    obtain rfl : Owner.wake c = o := by simpa using ho
    have hparked : (s.fibers f).Parked x := hs.placed f _ hown
    exact ⟨x, all, by simp [setQueue, call], hparked⟩
  · intro v g y hv
    refine .inr ⟨?_, hv⟩
    rintro rfl
    have := hs.checks_section (h := .caller c) hown (by simp [sections, hc, Wake.section_]) hv
    cases this
  · simp only [setQueue, call]
    rw [sections_caller_of_eq (by simp [hc, Wake.section_])]
    exact hs.guarded
  · simpa [setQueue, call, hown] using hs.record f
  · exact hs.unmisused

/-- `Awake` gives the popped fiber back to the executor. -/
theorem Inv.awake {F W C X V : Type} [DecidableEq F] [DecidableEq W] [DecidableEq C]
    [DecidableEq X] {s : Runtime F W C X V} {own : F → Option (Owner W C X)} (hs : s.Inv own)
    {c : C} {f : F} {x y : X} {all : Bool} {old : V} {pc : Wake F X}
    (hc : s.callers c = .awake x all f) (hframe : (s.fibers f).frame = some (.futex y old true))
    (hpc : pc.owns = none) (hsection : pc.section_ = some x) :
    (((s.put f { s.fibers f with frame := some (.futex y old false) }).schedule f).call c pc).Inv
      (Function.update own f (some .queued)) := by
  have hwake : (s.callers c).owns = some f := by simp [hc, Wake.owns]
  have hown : own f = some (.wake c) := (hs.custody (.wake c) f).mp hwake
  obtain ⟨z, _, -, hparked⟩ := hs.placed f _ hown
  obtain rfl : y = z := by
    obtain ⟨old', hold⟩ := hparked.frame
    simp only [hframe, Option.some.injEq, Awaiter.futex.injEq] at hold
    exact hold.1
  apply hs.move
  · apply hs.custody.transfer hown
    · intro g
      simp [schedule, put, call, hpc, hwake, eq_comm]
    · intro g
      simp [schedule, put, call]
    · intro o hwake hqueued
      simp only [schedule, put, call]
      rw [holders_queue_ne hqueued, holders_caller_ne hwake]
  · have hf : f ∉ s.queue := by
      intro hf
      have := hs.custody.eq (p := .queued) hf ((hs.custody (.wake c) f).mpr hown)
      cases this
    exact List.Nodup.append hs.queue (List.nodup_singleton f) (by simpa [put] using hf)
  · exact hs.links
  · intro g hg
    simp [schedule, put, call, hg]
  · intros
    rfl
  · intro d g hg hd
    have hdc : d ≠ c := by
      rintro rfl
      exact hg (by simpa [hwake, eq_comm] using hd)
    simp [schedule, put, call, hdc]
  · intro o ho
    obtain rfl : Owner.queued = o := by simpa using ho
    simp only [Placed, schedule, put, call, Function.update_self]
    constructor
    · exact hparked.suspended.state
    · exact hparked.suspended.caught
    · exact .inr hparked.suspended.routine
    · simp [hparked.suspended.schedules]
  · intro v g y hv
    exact .inr ⟨hs.checks_ne hv (by simp [hown]), hv⟩
  · simp only [schedule, put, call]
    rw [sections_caller_of_eq (by rw [hsection, hc, Wake.section_]),
      sections_fiber_of_eq (by simp), sections_fiber_of_eq (by simp)]
    exact hs.guarded
  · have hr := hs.record f
    have hlive : (s.fibers f).life = .live := hr.life.mpr (by simp [hown])
    constructor
    · simp [schedule, put, call, hlive]
    · simpa [schedule, put, call] using hr.deletions
    · simp [schedule, put, call, hparked.routine, Routine.Frame]
    · simp [schedule, put, call, hlive]
    · simp [schedule, put, call, hlive]
  · exact hs.unmisused

/-- `Go`. -/
theorem Inv.go {F W C X V : Type} [DecidableEq F] [DecidableEq W] [DecidableEq C] [DecidableEq X]
    {s : Runtime F W C X V} {own : F → Option (Owner W C X)} (hs : s.Inv own) {f : F}
    (hf : (s.fibers f).life = .unborn) :
    ((s.put f { s.fibers f with life := .live }).schedule f).Inv
      (Function.update own f (some .queued)) := by
  have hr := hs.record f
  have hunborn : s.fibers f = .unborn := hr.unborn hf
  have hown : own f = none := by
    have hlive := hr.life
    rw [hf] at hlive
    simpa using hlive
  apply hs.move
  · apply hs.custody.arrive hown
    · intro g
      simp [schedule, put]
    · intro o hqueued
      simp only [schedule, put]
      rw [holders_queue_ne hqueued]
  · have hf : f ∉ s.queue := by
      intro hf
      have := (hs.custody .queued f).mp hf
      simp [hown] at this
    exact List.Nodup.append hs.queue (List.nodup_singleton f) (by simpa [put] using hf)
  · exact hs.links
  · intro g hg
    simp [schedule, put, hg]
  · intros
    rfl
  · intros
    rfl
  · intro o ho
    obtain rfl : Owner.queued = o := by simpa using ho
    simp only [Placed, schedule, put, Function.update_self, hunborn]
    constructor <;> simp [Fiber.unborn]
  · intro v g y hv
    exact .inr ⟨hs.checks_ne hv (by simp [hown]), hv⟩
  · simp only [schedule, put]
    rw [sections_fiber_of_eq (by simp), sections_fiber_of_eq (by simp)]
    exact hs.guarded
  · simp only [schedule, put, Function.update_self, hunborn]
    constructor <;> simp [Fiber.unborn, Routine.Frame]
  · exact hs.unmisused

theorem put_self {F W C X V : Type} [DecidableEq F] (s : Runtime F W C X V) (f : F) :
    s.put f (s.fibers f) = s := by
  simp [put]

theorem goto_self {F W C X V : Type} [DecidableEq W] (s : Runtime F W C X V) (w : W) :
    s.goto w (s.workers w) = s := by
  simp [goto]

theorem setQueue_of_eq {F W C X V : Type} [DecidableEq X] {s : Runtime F W C X V} {x : X}
    {queue : List F} (h : queue = (s.futexes x).queue) : s.setQueue x queue = s := by
  subst h
  simp [setQueue]

theorem Inv.record_run {F W C X V : Type} {s : Runtime F W C X V}
    {own : F → Option (Owner W C X)} (hs : s.Inv own) {w : W} {f : F}
    (hw : (s.workers w).owns = some f) :
    (s.workers w).Ok (s.fibers f) ∧ (s.fibers f).Record true := by
  have hown : own f = some (.run w) := (hs.custody (.run w) f).mp hw
  have hrecord := hs.record f
  rw [hown] at hrecord
  exact ⟨hs.placed f _ hown, hrecord⟩

/-- The coroutine of a fiber makes a step of its own. -/
theorem Inv.inside {F W C X V : Type} [DecidableEq F] [DecidableEq W] {s : Runtime F W C X V}
    {own : F → Option (Owner W C X)} (hs : s.Inv own) {w : W} {f : F} {b : Fiber X V}
    {locks : X → Option (LockHolder F W C)} (hw : s.workers w = .inside f) (hactive : b.Active)
    (hrecord : b.Record true)
    (hguarded : Guarded (sections (Function.update s.fibers f b) s.workers s.callers) locks) :
    ({ s.put f b with locks := locks } : Runtime F W C X V).Inv own := by
  have hwork : ({ (s.put f b).goto w (s.workers w) with locks := locks } :
      Runtime F W C X V).Inv own := by
    apply hs.work
    · rw [hw, FiberRun.owns]
    · rw [hw, FiberRun.owns]
    · rw [hw]
      exact hactive
    · exact hrecord
    · simpa using hguarded
  have heq : (s.put f b).goto w (s.workers w) = s.put f b := (s.put f b).goto_self w
  rwa [heq] at hwork

/-- The worker goes on and leaves its fiber as it is. -/
theorem Inv.run_on {F W C X V : Type} [DecidableEq F] [DecidableEq W] {s : Runtime F W C X V}
    {own : F → Option (Owner W C X)} (hs : s.Inv own) {w : W} {f : F} {pc : FiberRun F X}
    {locks : X → Option (LockHolder F W C)} (hw : (s.workers w).owns = some f)
    (hpc : pc.owns = some f) (hok : pc.Ok (s.fibers f))
    (hguarded : Guarded (sections s.fibers (Function.update s.workers w pc) s.callers) locks) :
    ({ s.goto w pc with locks := locks } : Runtime F W C X V).Inv own := by
  have hwork := hs.work hw hpc hok (hs.record_run hw).2 (by simpa using hguarded)
  rwa [put_self] at hwork

theorem Inv.routineStep {F W C X V : Type} [DecidableEq F] [DecidableEq W] [DecidableEq C]
    [DecidableEq X] {s t : Runtime F W C X V} {own : F → Option (Owner W C X)} (hs : s.Inv own)
    {w : W} {f : F} (hw : s.workers w = .inside f) (h : s.routineStep w f = some t) :
    t.Inv own := by
  have howns : (s.workers w).owns = some f := by rw [hw, FiberRun.owns]
  obtain ⟨hactive, hrecord⟩ := hs.record_run howns
  rw [hw] at hactive
  obtain ⟨hlife, hdeletions⟩ := hrecord.live
  have hstate : (s.fibers f).state = .running := hactive.state
  have hcaught : (s.fibers f).caught = false := hactive.caught
  have hawaiter : (s.fibers f).awaiter = (s.fibers f).routine.awaits := hactive.awaiter
  have hschedules : (s.fibers f).schedules = (s.fibers f).suspensions + 1 := hactive.schedules
  have hframe := hrecord.frame
  unfold Runtime.routineStep at h
  cases hr : (s.fibers f).routine with
  | user | done => simp [hr] at h
  | yieldSetAwaiter =>
    simp only [hr, Option.some.injEq] at h
    subst h
    apply hs.inside hw
    · constructor <;> simp [hstate, hcaught, hschedules, Routine.awaits]
    · exact .of_live hlife hdeletions rfl
    · rw [sections_fiber_of_eq (by simp [hr, Routine.section_])]
      exact hs.guarded
  | yieldSuspend | parkSuspend =>
    simp only [hr, Option.some.injEq] at h
    subst h
    apply hs.work howns rfl
    · left
      constructor
      · constructor <;> simp [hcaught, hschedules, Routine.resumable]
      · simp [hawaiter, hr, Routine.awaits]
    · exact .of_live hlife hdeletions (by simpa [hr, Routine.Frame] using hframe)
    · rw [sections_worker_of_eq (by simp [hw, FiberRun.section_]),
        sections_fiber_of_eq (by simp [hr, Routine.section_])]
      exact hs.guarded
  | yieldReturn =>
    simp only [hr, Option.some.injEq] at h
    subst h
    apply hs.inside hw
    · constructor <;> simp [hstate, hcaught, hawaiter, hschedules, hr, Routine.awaits]
    · exact .of_live hlife hdeletions rfl
    · rw [sections_fiber_of_eq (by simp [hr, Routine.section_])]
      exact hs.guarded
  | parkLock | parkRelock =>
    simp only [hr] at h
    split at h
    · rename_i hfree
      simp only [Option.some.injEq] at h
      subst h
      apply hs.inside hw
      · constructor <;> simp [hstate, hcaught, hawaiter, hschedules, hr, Routine.awaits]
      · exact .of_live hlife hdeletions (by simpa [hr, Routine.Frame] using hframe)
      · rw [sections_fiber]
        exact hs.guarded.acquire hfree
    · cases h
  | parkSetAwaiter x old =>
    simp only [hr, Option.some.injEq] at h
    subst h
    apply hs.inside hw
    · constructor <;> simp [hstate, hcaught, hschedules, Routine.awaits]
    · exact .of_live hlife hdeletions ⟨old, false, rfl⟩
    · rw [sections_fiber_of_eq (by simp [hr, Routine.section_])]
      exact hs.guarded
  | parkUnlock | parkRelease =>
    simp only [hr, Option.some.injEq] at h
    subst h
    apply hs.inside hw
    · constructor <;> simp [hstate, hcaught, hawaiter, hschedules, hr, Routine.awaits]
    · exact .of_live hlife hdeletions (by simpa [hr, Routine.Frame] using hframe)
    · rw [sections_fiber]
      exact hs.guarded.release (by simp [sections, hr, Routine.section_])
  | parkDestroy x =>
    have hf : f ∉ (s.futexes x).queue := by
      intro hf
      have := hs.custody.eq (p := .link x) (q := .run w) hf howns
      cases this
    simp only [hr, Option.some.injEq, List.erase_of_not_mem hf] at h
    subst h
    rw [setQueue_of_eq]
    · apply hs.inside hw
      · constructor <;> simp [hstate, hcaught, hawaiter, hschedules, hr, Routine.awaits]
      · exact .of_live hlife hdeletions rfl
      · rw [sections_fiber_of_eq (by simp [hr, Routine.section_])]
        exact hs.guarded
    · rfl

/-- The section of a worker stays the same, and so do the locks. -/
theorem Inv.guarded_worker {F W C X V : Type} [DecidableEq W] {s : Runtime F W C X V}
    {own : F → Option (Owner W C X)} (hs : s.Inv own) {w : W} {pc : FiberRun F X}
    (hpc : pc.section_ = (s.workers w).section_) :
    Guarded (sections s.fibers (Function.update s.workers w pc) s.callers) s.locks := by
  rw [sections_worker_of_eq hpc]
  exact hs.guarded

theorem Inv.owned {F W C X V : Type} {s : Runtime F W C X V} {own : F → Option (Owner W C X)}
    (hs : s.Inv own) {w : W} {f : F} {pc : FiberRun F X} (hw : s.workers w = pc)
    (hpc : pc.owns = some f) : pc.Ok (s.fibers f) ∧ (s.fibers f).Record true :=
  hw ▸ hs.record_run (hw ▸ hpc)

theorem Inv.setCurrent {F W C X V : Type} [DecidableEq F] [DecidableEq W] [DecidableEq C]
    [DecidableEq X] [DecidableEq V] {s t : Runtime F W C X V} {own : F → Option (Owner W C X)}
    (hs : s.Inv own) {w : W} {f : F} (hw : s.workers w = .setCurrent f)
    (h : s.workerStep w = some t) : t.Inv own := by
  obtain ⟨⟨hstate, hcaught, hroutine, hschedules⟩, hrecord⟩ := hs.owned hw rfl
  simp only [Runtime.workerStep, hw, Option.some.injEq] at h
  subst h
  refine hs.work (by rw [hw]; rfl) rfl ⟨⟨hstate, hcaught, hroutine, hschedules⟩, rfl⟩ ?_ ?_
  · exact .of_live hrecord.live.1 hrecord.live.2 hrecord.frame
  · rw [sections_worker_of_eq (by rw [hw]; rfl), sections_fiber_of_eq (by simp)]
    exact hs.guarded

theorem Inv.resume {F W C X V : Type} [DecidableEq F] [DecidableEq W] [DecidableEq C]
    [DecidableEq X] [DecidableEq V] {s t : Runtime F W C X V} {own : F → Option (Owner W C X)}
    (hs : s.Inv own) {w : W} {f : F} (hw : s.workers w = .resume f)
    (h : s.workerStep w = some t) : t.Inv own := by
  obtain ⟨⟨⟨hstate, hcaught, hroutine, hschedules⟩, hawaiter⟩, hrecord⟩ := hs.owned hw rfl
  simp only [Runtime.workerStep, hw, Option.some.injEq] at h
  subst h
  refine hs.work (by rw [hw]; rfl) rfl ⟨rfl, hcaught, ?_, hschedules⟩ ?_ ?_
  · cases hr : (s.fibers f).routine <;> simp_all [Routine.resumable, Routine.awaits]
  · exact .of_live hrecord.live.1 hrecord.live.2 hrecord.frame
  · rw [sections_worker_of_eq (by rw [hw]; rfl), sections_fiber_of_eq (by simp)]
    exact hs.guarded

/-- `Resume` has returned: the fiber is suspended and its awaiter is called, or it has
finished, with or without an exception. -/
theorem Inv.back {F W C X V : Type} [DecidableEq F] [DecidableEq W] [DecidableEq C]
    [DecidableEq X] [DecidableEq V] {s t : Runtime F W C X V} {own : F → Option (Owner W C X)}
    (hs : s.Inv own) {w : W} {f : F} (hw : s.workers w = .back f)
    (h : s.workerStep w = some t) : t.Inv own := by
  have howns : (s.workers w).owns = some f := by rw [hw, FiberRun.owns]
  obtain ⟨hok, hrecord⟩ := hs.owned hw rfl
  simp only [Runtime.workerStep, hw] at h
  obtain ⟨hsuspended, hawaiter⟩ | hfinished := hok
  · simp only [hsuspended.caught, hawaiter, Bool.false_eq_true, if_false, if_true] at h
    split at h
    · simp only [Option.some.injEq] at h
      subst h
      exact hs.run_on howns rfl hsuspended (hs.guarded_worker (by rw [hw]; rfl))
    · rename_i hframe
      simp only [Option.some.injEq] at h
      subst h
      have hroutine := hsuspended.parkRelock hrecord hframe
      exact hs.run_on howns rfl ⟨hsuspended, _, hroutine⟩ (hs.guarded_worker (by rw [hw]; rfl))
    · rename_i hframe
      exact absurd hframe (hsuspended.frame_ne_none hrecord)
  · split at h
    · simp only [Option.some.injEq] at h
      subst h
      exact hs.run_on howns rfl hfinished (hs.guarded_worker (by rw [hw]; rfl))
    · rename_i hcaught
      have hawaiter := hfinished.awaiter (by simpa using hcaught)
      simp only [hawaiter, Bool.false_eq_true, if_false, Option.some.injEq] at h
      subst h
      exact hs.run_on howns rfl hfinished (hs.guarded_worker (by rw [hw]; rfl))

theorem Inv.awaitHandle {F W C X V : Type} [DecidableEq F] [DecidableEq W] [DecidableEq C]
    [DecidableEq X] [DecidableEq V] {s t : Runtime F W C X V} {own : F → Option (Owner W C X)}
    (hs : s.Inv own) {w : W} {f : F} (hw : s.workers w = .awaitHandle f)
    (h : s.workerStep w = some t) : t.Inv own := by
  obtain ⟨⟨⟨hstate, hcaught, hresumable, hschedules⟩, x, hroutine⟩, hrecord⟩ := hs.owned hw rfl
  have hframe := hrecord.frame
  rw [hroutine] at hframe
  obtain ⟨old, handle, hframe⟩ := hframe
  simp only [Runtime.workerStep, hw, hframe, Option.some.injEq] at h
  subst h
  refine hs.work (by rw [hw]; rfl) rfl ⟨x, ⟨hstate, hcaught, hresumable, hschedules⟩, hroutine,
    old, rfl⟩ ?_ ?_
  · exact .of_live hrecord.live.1 hrecord.live.2 (by rw [hroutine]; exact ⟨old, true, rfl⟩)
  · rw [sections_worker_of_eq (by rw [hw]; rfl), sections_fiber_of_eq (by simp)]
    exact hs.guarded

theorem Inv.awaitLock {F W C X V : Type} [DecidableEq F] [DecidableEq W] [DecidableEq C]
    [DecidableEq X] [DecidableEq V] {s t : Runtime F W C X V} {own : F → Option (Owner W C X)}
    (hs : s.Inv own) {w : W} {f : F} (hw : s.workers w = .awaitLock f)
    (h : s.workerStep w = some t) : t.Inv own := by
  obtain ⟨⟨x, hparked⟩, -⟩ := hs.owned hw rfl
  obtain ⟨old, hframe⟩ := hparked.frame
  simp only [Runtime.workerStep, hw, hframe, Option.ite_none_right_eq_some,
    Option.some.injEq] at h
  obtain ⟨hfree, rfl⟩ := h
  refine hs.run_on (by rw [hw]; rfl) rfl hparked ?_
  rw [sections_worker]
  exact hs.guarded.acquire hfree

/-- The check of the futex goes one way or the other with the fiber in the list. -/
theorem Inv.awaitCheck {F W C X V : Type} [DecidableEq F] [DecidableEq W] [DecidableEq C]
    [DecidableEq X] [DecidableEq V] {s t : Runtime F W C X V} {own : F → Option (Owner W C X)}
    (hs : s.Inv own) {w : W} {f : F} {x : X} (hw : s.workers w = .awaitCheck f x)
    (h : s.workerStep w = some t) : t.Inv own := by
  have hown : own f = some (.link x) := hs.checking w f x (by rw [hw, FiberRun.checks])
  have hparked : (s.fibers f).Parked x := hs.placed f _ hown
  obtain ⟨old, hframe⟩ := hparked.frame
  simp only [Runtime.workerStep, hw, hframe, Option.some.injEq] at h
  subst h
  refine hs.proceed (by rw [hw, FiberRun.owns]) ?_ ?_ (hs.guarded_worker ?_)
  · split <;> rfl
  · intro p hp
    split at hp
    · cases hp
    · rw [hw]
      exact hp
  · rw [hw]
    split <;> rfl

theorem Inv.workerStep {F W C X V : Type} [DecidableEq F] [DecidableEq W] [DecidableEq C]
    [DecidableEq X] [DecidableEq V] {s t : Runtime F W C X V} {own : F → Option (Owner W C X)}
    (hs : s.Inv own) {w : W} (h : s.workerStep w = some t) : ∃ own', t.Inv own' := by
  cases hw : s.workers w with
  | idle => simp [Runtime.workerStep, hw] at h
  | setCurrent f => exact ⟨own, hs.setCurrent hw h⟩
  | resume f => exact ⟨own, hs.resume hw h⟩
  | inside f =>
    simp only [Runtime.workerStep, hw] at h
    exact ⟨own, hs.routineStep hw h⟩
  | back f => exact ⟨own, hs.back hw h⟩
  | delete f | discard f =>
    have hok := (hs.owned hw rfl).1
    simp only [Runtime.workerStep, hw, Option.some.injEq] at h
    subst h
    exact ⟨_, hs.finish (by rw [hw]; rfl) (by rw [hw]; rfl) hok⟩
  | awaitYield f =>
    have hok := (hs.owned hw rfl).1
    simp only [Runtime.workerStep, hw, Option.some.injEq] at h
    subst h
    exact ⟨_, hs.schedule_run (by rw [hw]; rfl) rfl rfl (by rw [hw]; rfl) hok⟩
  | awaitHandle f => exact ⟨own, hs.awaitHandle hw h⟩
  | awaitLock f => exact ⟨own, hs.awaitLock hw h⟩
  | awaitPush f x =>
    simp only [Runtime.workerStep, hw, Option.some.injEq] at h
    subst h
    exact ⟨_, hs.link hw⟩
  | awaitCheck f x => exact ⟨own, hs.awaitCheck hw h⟩
  | awaitUnlink f x =>
    simp only [Runtime.workerStep, hw, Option.some.injEq] at h
    subst h
    exact ⟨_, hs.unlink hw⟩
  | awaitSchedule f x =>
    have hparked : (s.fibers f).Parked x := (hs.owned hw rfl).1
    simp only [Runtime.workerStep, hw, Option.some.injEq] at h
    subst h
    exact ⟨_, hs.schedule_run (by rw [hw]; rfl) rfl rfl (by rw [hw]; rfl) hparked.suspended⟩
  | awaitUnlock x =>
    simp only [Runtime.workerStep, hw, Option.some.injEq] at h
    subst h
    refine ⟨own, hs.proceed (by rw [hw, FiberRun.owns]) rfl ?_ ?_⟩
    · intro p hp
      cases hp
    · rw [sections_worker]
      exact hs.guarded.release (by simp [sections, hw, FiberRun.section_])

theorem Inv.opStep {F W C X V : Type} [DecidableEq F] [DecidableEq W] {s : Runtime F W C X V}
    {own : F → Option (Owner W C X)} (hs : s.Inv own) {w : W} {f : F}
    (hw : s.workers w = .inside f) (hr : (s.fibers f).routine = .user) (o : RoutineOp X V) :
    (s.opStep w f o).Inv own := by
  have howns : (s.workers w).owns = some f := by rw [hw, FiberRun.owns]
  obtain ⟨hactive, hrecord⟩ := hs.record_run howns
  rw [hw] at hactive
  obtain ⟨hlife, hdeletions⟩ := hrecord.live
  obtain ⟨hstate, hcaught, hawaiter, hschedules⟩ := hactive
  have hframe := hrecord.frame
  simp only [hr, Routine.awaits, Routine.Frame] at hawaiter hframe
  cases o with
  | yield =>
    apply hs.inside hw
    · exact ⟨hstate, hcaught, hawaiter, hschedules⟩
    · exact .of_live hlife hdeletions hframe
    · rw [sections_fiber_of_eq (by rw [hr]; rfl)]
      exact hs.guarded
  | parkIfEqual x old =>
    apply hs.inside hw
    · exact ⟨hstate, hcaught, hawaiter, hschedules⟩
    · exact .of_live hlife hdeletions hframe
    · rw [sections_fiber_of_eq (by rw [hr]; rfl)]
      exact hs.guarded
  | return_ =>
    apply hs.work howns rfl
    · right
      exact ⟨rfl, fun _ => hawaiter, hschedules⟩
    · exact .of_live hlife hdeletions hframe
    · rw [sections_worker_of_eq (by rw [hw]; rfl), sections_fiber_of_eq (by rw [hr]; rfl)]
      exact hs.guarded
  | throw =>
    apply hs.work howns rfl
    · right
      exact ⟨rfl, fun hcaught => (by cases hcaught), hschedules⟩
    · exact .of_live hlife hdeletions hframe
    · rw [sections_worker_of_eq (by rw [hw]; rfl), sections_fiber_of_eq (by rw [hr]; rfl)]
      exact hs.guarded

theorem Inv.callerStep {F W C X V : Type} [DecidableEq F] [DecidableEq W] [DecidableEq C]
    [DecidableEq X] {s t : Runtime F W C X V} {own : F → Option (Owner W C X)} (hs : s.Inv own)
    {c : C} (h : s.callerStep c = some t) : ∃ own', t.Inv own' := by
  unfold Runtime.callerStep at h
  cases hc : s.callers c with
  | idle => simp [hc] at h
  | lock x all =>
    simp only [hc] at h
    split at h
    · rename_i hfree
      simp only [Option.some.injEq] at h
      subst h
      refine ⟨own, hs.proceed_caller (by rw [hc, Wake.owns]; simp) rfl ?_⟩
      rw [sections_caller]
      exact hs.guarded.acquire hfree
    · cases h
  | pop x all =>
    simp only [hc] at h
    split at h
    · simp only [Option.some.injEq] at h
      subst h
      refine ⟨own, hs.proceed_caller (by rw [hc, Wake.owns]; simp) rfl ?_⟩
      rw [sections_caller_of_eq (by rw [hc]; rfl)]
      exact hs.guarded
    · rename_i hx
      simp only [Option.some.injEq] at h
      subst h
      exact ⟨_, hs.pop hc hx⟩
  | awake x all f =>
    have hown : own f = some (.wake c) :=
      (hs.custody (.wake c) f).mp (by simp [hc, Wake.owns])
    obtain ⟨y, _, -, hparked⟩ := hs.placed f _ hown
    obtain ⟨old, hframe⟩ := hparked.frame
    simp only [hc, hframe, Option.some.injEq] at h
    subst h
    refine ⟨_, hs.awake hc hframe ?_ ?_⟩
    · split <;> rfl
    · split <;> rfl
  | unlock x =>
    simp only [hc, Option.some.injEq] at h
    subst h
    refine ⟨own, hs.proceed_caller (by rw [hc, Wake.owns]; simp) rfl ?_⟩
    rw [sections_caller]
    exact hs.guarded.release (by simp [sections, hc, Wake.section_])

theorem Inv.step {F W C X V : Type} [DecidableEq F] [DecidableEq W] [DecidableEq C]
    [DecidableEq X] [DecidableEq V] {s t : Runtime F W C X V} {own : F → Option (Owner W C X)}
    (hs : s.Inv own) {l : RuntimeLabel F W C X V} (h : s.step l = some t) :
    ∃ own', t.Inv own' := by
  unfold Runtime.step at h
  cases l with
  | go f =>
    simp only [Option.ite_none_right_eq_some, Option.some.injEq] at h
    obtain ⟨hf, rfl⟩ := h
    exact ⟨_, hs.go hf⟩
  | run w f =>
    simp only [Option.ite_none_right_eq_some, Option.some.injEq] at h
    obtain ⟨⟨hw, hf⟩, rfl⟩ := h
    exact ⟨_, hs.run hw hf⟩
  | worker w => exact hs.workerStep h
  | op w o =>
    cases hw : s.workers w <;> simp only [hw, reduceCtorEq] at h
    rename_i f
    simp only [Option.ite_none_right_eq_some, Option.some.injEq] at h
    obtain ⟨hr, rfl⟩ := h
    exact ⟨own, hs.opStep hw hr o⟩
  | wake c x all =>
    simp only [Option.ite_none_right_eq_some, Option.some.injEq] at h
    obtain ⟨hc, rfl⟩ := h
    refine ⟨own, hs.proceed_caller (by rw [hc, Wake.owns]; simp) rfl ?_⟩
    rw [sections_caller_of_eq (by rw [hc]; rfl)]
    exact hs.guarded
  | caller c => exact hs.callerStep h
  | write x v =>
    simp only [Option.some.injEq] at h
    subst h
    exact ⟨own, hs.write _⟩

end Runtime

theorem runtime_inv {F W C X V : Type} [DecidableEq F] [DecidableEq W] [DecidableEq C]
    [DecidableEq X] [DecidableEq V] {cells : X → V} {s : Runtime F W C X V}
    (h : (runtime F W C X V cells).Reachable s) : ∃ own, s.Inv own := by
  apply h.invariant (I := fun s => ∃ own, s.Inv own)
  · refine ⟨fun _ => none, ?_⟩
    constructor
    · intro o f
      cases o <;> simp [runtime, Wake.owns]
    · exact List.nodup_nil
    · intro x
      exact List.nodup_nil
    · intro f o ho
      cases ho
    · intro w f x hw
      cases hw
    · intro k x hk
      cases k <;> cases hk
    · intro f
      constructor <;> simp [runtime, Fiber.unborn, Routine.Frame]
    · rfl
  · intro s l t _ ⟨own, hs⟩ hl
    exact hs.step hl

/-- A worker that has seen the coroutine end deletes the fiber next. -/
theorem Runtime.Inv.deletes {F W C X V : Type} [DecidableEq F] [DecidableEq W] [DecidableEq C]
    [DecidableEq X] [DecidableEq V] {s : Runtime F W C X V} {own : F → Option (Owner W C X)}
    (hs : s.Inv own) (cells : X → V) {w : W} {f : F}
    (hw : s.workers w = .delete f ∨ s.workers w = .discard f) :
    ∃ t, (runtime F W C X V cells).exec s [.worker w] = some t ∧ (t.fibers f).life = .deleted ∧
      (t.fibers f).deletions = 1 := by
  have howns : (s.workers w).owns = some f := by
    rcases hw with hw | hw <;> rw [hw, FiberRun.owns]
  have hdeletions := (hs.record_run howns).2.live.2
  refine ⟨(s.delete f).goto w .idle, ?_, ?_, ?_⟩
  · rcases hw with hw | hw <;> simp [runtime, Runtime.step, Runtime.workerStep, hw]
  · simp [Runtime.delete, Runtime.put, Runtime.goto]
  · simp [Runtime.delete, Runtime.put, Runtime.goto, hdeletions]

theorem Fiber.Suspended.not_terminated {X V : Type} {b : Fiber X V} (h : b.Suspended) :
    b.state ≠ .terminated := by
  rw [h.state]
  decide

theorem Fiber.Ready.not_terminated {X V : Type} {b : Fiber X V} (h : b.Ready) :
    b.state ≠ .terminated := by
  rw [h.state]
  decide

theorem FiberRun.Ok.finished {F X V : Type} {b : Fiber X V} {pc : FiberRun F X} {f : F}
    (h : pc.Ok b) (ht : b.state = .terminated) (howns : pc.owns = some f) :
    b.Finished ∧ (pc = .back f ∨ pc = .delete f ∨ pc = .discard f) := by
  cases pc with
  | back g =>
    obtain rfl : g = f := by simpa [FiberRun.owns] using howns
    rcases h with ⟨hsuspended, -⟩ | hfinished
    · exact absurd ht hsuspended.not_terminated
    · exact ⟨hfinished, .inl rfl⟩
  | delete g =>
    obtain rfl : g = f := by simpa [FiberRun.owns] using howns
    exact ⟨h, .inr (.inl rfl)⟩
  | discard g =>
    obtain rfl : g = f := by simpa [FiberRun.owns] using howns
    exact ⟨h, .inr (.inr rfl)⟩
  | setCurrent g => exact absurd ht (Fiber.Ready.not_terminated h)
  | resume g => exact absurd ht h.1.not_terminated
  | inside g =>
    have hstate := Fiber.Active.state h
    simp [ht] at hstate
  | awaitYield g => exact absurd ht (Fiber.Suspended.not_terminated h)
  | awaitHandle g => exact absurd ht h.1.not_terminated
  | awaitLock g =>
    obtain ⟨x, hparked⟩ := h
    exact absurd ht hparked.suspended.not_terminated
  | awaitPush g x => exact absurd ht (Fiber.Parked.suspended h).not_terminated
  | awaitSchedule g x => exact absurd ht (Fiber.Parked.suspended h).not_terminated
  | idle => cases howns
  | awaitCheck g x => cases howns
  | awaitUnlink g x => cases howns
  | awaitUnlock x => cases howns

/-- A fiber that has terminated is in the hands of the `Run` that deletes it. -/
theorem Runtime.Inv.terminated {F W C X V : Type} [DecidableEq F] [DecidableEq W] [DecidableEq C]
    [DecidableEq X] [DecidableEq V] {s : Runtime F W C X V} {own : F → Option (Owner W C X)}
    (hs : s.Inv own) (cells : X → V) {f : F} (hlive : (s.fibers f).life = .live)
    (hterminated : (s.fibers f).state = .terminated) :
    ∃ w n t, (runtime F W C X V cells).exec s (List.replicate n (.worker w)) = some t ∧ n ≤ 2 ∧
      (t.fibers f).life = .deleted ∧ (t.fibers f).deletions = 1 := by
  obtain ⟨o, hown⟩ := Option.isSome_iff_exists.mp ((hs.record f).life.mp hlive)
  have hplaced := hs.placed f o hown
  cases o with
  | queued => exact absurd hterminated (Fiber.Ready.not_terminated hplaced)
  | link x =>
    have hparked : (s.fibers f).Parked x := hplaced
    exact absurd hterminated hparked.suspended.not_terminated
  | wake c =>
    obtain ⟨x, all, -, hparked⟩ := hplaced
    exact absurd hterminated hparked.suspended.not_terminated
  | run w =>
    have hok : (s.workers w).Ok (s.fibers f) := hplaced
    have howns : (s.workers w).owns = some f := (hs.custody (.run w) f).mpr hown
    obtain ⟨hfinished, hback | hdelete⟩ := hok.finished hterminated howns
    · -- one step to see how the coroutine ended, one to delete
      obtain ⟨u, hu, hnext⟩ : ∃ u, s.step (.worker w) = some u ∧
          (u.workers w = .delete f ∨ u.workers w = .discard f) := by
        by_cases hcaught : (s.fibers f).caught = true
        · refine ⟨s.goto w (.discard f), ?_, .inr ?_⟩
          · simp [Runtime.step, Runtime.workerStep, hback, hcaught]
          · simp [Runtime.goto]
        · have hawaiter := hfinished.awaiter (by simpa using hcaught)
          refine ⟨s.goto w (.delete f), ?_, .inl ?_⟩
          · simp [Runtime.step, Runtime.workerStep, hback, hcaught, hawaiter]
          · simp [Runtime.goto]
      obtain ⟨own', hs'⟩ := hs.step hu
      obtain ⟨t, ht, hdeleted⟩ := hs'.deletes cells hnext
      have hu : (runtime F W C X V cells).step s (.worker w) = some u := hu
      exact ⟨w, 2, t, by simpa [List.replicate, hu] using ht, Nat.le_refl 2, hdeleted⟩
    · obtain ⟨t, ht, hdeleted⟩ := hs.deletes cells hdelete
      exact ⟨w, 1, t, ht, by decide, hdeleted⟩

theorem FiberRun.Ok.schedules {F X V : Type} {b : Fiber X V} {pc : FiberRun F X} (h : pc.Ok b) :
    b.suspensions ≤ b.schedules ∧ b.schedules ≤ b.suspensions + 1 := by
  have ready (hb : b.Ready) : b.suspensions ≤ b.schedules ∧ b.schedules ≤ b.suspensions + 1 := by
    have := hb.schedules
    omega
  have suspended (hb : b.Suspended) :
      b.suspensions ≤ b.schedules ∧ b.schedules ≤ b.suspensions + 1 := by
    have := hb.schedules
    omega
  have finished (hb : b.Finished) :
      b.suspensions ≤ b.schedules ∧ b.schedules ≤ b.suspensions + 1 := by
    have := hb.schedules
    omega
  cases pc with
  | setCurrent f => exact ready h
  | resume f => exact ready h.1
  | inside f =>
    have := Fiber.Active.schedules h
    omega
  | back f =>
    rcases h with ⟨hsuspended, -⟩ | hfinished
    · exact suspended hsuspended
    · exact finished hfinished
  | delete f => exact finished h
  | discard f => exact finished h
  | awaitYield f => exact suspended h
  | awaitHandle f => exact suspended h.1
  | awaitLock f =>
    obtain ⟨x, hparked⟩ := h
    exact suspended hparked.suspended
  | awaitPush f x => exact suspended (Fiber.Parked.suspended h)
  | awaitSchedule f x => exact suspended (Fiber.Parked.suspended h)
  | idle => exact h.elim
  | awaitCheck f x => exact h.elim
  | awaitUnlink f x => exact h.elim
  | awaitUnlock x => exact h.elim

theorem Runtime.Inv.schedules {F W C X V : Type} {s : Runtime F W C X V}
    {own : F → Option (Owner W C X)} (hs : s.Inv own) {f : F}
    (hborn : (s.fibers f).life ≠ .unborn) :
    (s.fibers f).suspensions ≤ (s.fibers f).schedules ∧
      (s.fibers f).schedules ≤ (s.fibers f).suspensions + 1 := by
  cases hlife : (s.fibers f).life with
  | unborn => exact absurd hlife hborn
  | deleted =>
    have := ((hs.record f).deleted hlife).2
    omega
  | live =>
    obtain ⟨o, hown⟩ := Option.isSome_iff_exists.mp ((hs.record f).life.mp hlife)
    have hplaced := hs.placed f o hown
    cases o with
    | queued =>
      have := Fiber.Ready.schedules hplaced
      omega
    | link x =>
      have hparked : (s.fibers f).Parked x := hplaced
      have := hparked.suspended.schedules
      omega
    | wake c =>
      obtain ⟨x, all, -, hparked⟩ := hplaced
      have := hparked.suspended.schedules
      omega
    | run w => exact FiberRun.Ok.schedules hplaced

/-- `schedules` counts the calls of `Schedule`, the one in `Go` included, so it
is ahead of `suspensions` by at most one. A coroutine that has ended is deleted
by the next steps of the worker that ran it. -/
structure Runtime.SingleOwner {F W C X V : Type} [DecidableEq F] [DecidableEq W] [DecidableEq C]
    [DecidableEq X] [DecidableEq V] (cells : X → V) (s : Runtime F W C X V) : Prop where
  owner : ∀ f, (s.fibers f).life = .live →
    ∃! o, holders s.queue s.workers s.callers s.futexes o f
  ownerless : ∀ f, (s.fibers f).life ≠ .live →
    ∀ o, ¬ holders s.queue s.workers s.callers s.futexes o f
  queued : s.queue.Nodup
  linked : ∀ x, (s.futexes x).queue.Nodup
  schedules : ∀ f, (s.fibers f).life ≠ .unborn →
    (s.fibers f).suspensions ≤ (s.fibers f).schedules ∧
      (s.fibers f).schedules ≤ (s.fibers f).suspensions + 1
  resumed : ∀ w f, s.workers w = .resume f →
    (s.fibers f).life = .live ∧ (s.fibers f).state = .waiting
  deletions : ∀ f, (s.fibers f).deletions = if (s.fibers f).life = .deleted then 1 else 0
  deleted : ∀ f, (s.fibers f).life = .deleted → (s.fibers f).state = .terminated
  terminated : ∀ f, (s.fibers f).life = .live → (s.fibers f).state = .terminated →
    ∃ w n t, (runtime F W C X V cells).exec s (List.replicate n (.worker w)) = some t ∧ n ≤ 2 ∧
      (t.fibers f).life = .deleted ∧ (t.fibers f).deletions = 1
  unmisused : s.misused = false

theorem fiber_singleOwner {F W C X V : Type} [DecidableEq F] [DecidableEq W] [DecidableEq C]
    [DecidableEq X] [DecidableEq V] {cells : X → V} {s : Runtime F W C X V}
    (h : (runtime F W C X V cells).Reachable s) : s.SingleOwner cells := by
  obtain ⟨own, hs⟩ := runtime_inv h
  constructor
  · intro f hlive
    have hsome := (hs.record f).life.mp hlive
    exact hs.custody.unique (Option.isSome_iff_ne_none.mp hsome)
  · intro f hlive o ho
    have hown := (hs.custody o f).mp ho
    have hlife := (hs.record f).life.mpr (by rw [hown]; rfl)
    exact hlive hlife
  · exact hs.queue
  · exact hs.links
  · intro f hborn
    exact hs.schedules hborn
  · intro w f hw
    obtain ⟨hok, hrecord⟩ := hs.record_run (w := w) (f := f) (by rw [hw, FiberRun.owns])
    rw [hw] at hok
    exact ⟨hrecord.live.1, hok.1.state⟩
  · intro f
    exact (hs.record f).deletions
  · intro f hdeleted
    exact ((hs.record f).deleted hdeleted).1
  · intro f hlive hterminated
    exact hs.terminated cells hlive hterminated
  · exact hs.unmisused

/-- A fiber parks on a cell that changes; `AwaitSuspend` schedules it again, and
it is resumed on another worker before the first one leaves the section. -/
theorem fiber_singleOwner_woken :
    ∃ s, (runtime (Fin 1) (Fin 2) (Fin 1) (Fin 1) Nat fun _ => 0).Reachable s ∧
      s.workers 0 = .awaitUnlock 0 ∧ (s.fibers 0).suspensions = 1 ∧
      s.workers 1 = .resume 0 ∧ (s.fibers 0).state = .waiting := by
  have h : (runtime (Fin 1) (Fin 2) (Fin 1) (Fin 1) Nat fun _ => 0).Reachable _ :=
    Machine.reachable_of_exec
      (List.flatten [[.go 0, .run 0 0], List.replicate 2 (.worker 0),
        .op 0 (.parkIfEqual 0 0) :: List.replicate 4 (.worker 0),
        .write 0 1 :: List.replicate 7 (.worker 0), [.run 1 0, .worker 1]]) rfl
  exact ⟨_, h, rfl, rfl, rfl, ((fiber_singleOwner h).resumed 1 0 rfl).2⟩

end ConcurrentProgramming.Fibers
