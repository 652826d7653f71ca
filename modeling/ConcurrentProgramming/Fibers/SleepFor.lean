import ConcurrentProgramming.Coroutine.Standalone
import ConcurrentProgramming.Interleaving.Machine
import ConcurrentProgramming.Interleaving.Tally

/-!
Fibers that sleep, on one `io_context` that any number of threads run. A posted
handler or the handler of a timer is run once, at any time and on any thread. A
label is one access to an object that threads share; what a thread does to its own
locals goes with it.
-/

set_option autoImplicit false

namespace ConcurrentProgramming.Fibers.SleepFor
open Interleaving

abbrev Millis := Int

/-- A routine, up to what its computations compute. -/
inductive Routine where
  | return_
  | compute (rest : Routine)
  | yield (rest : Routine)
  | sleepFor (delay : Millis) (rest : Routine)
  | go (routine rest : Routine)
  deriving DecidableEq, Repr

inductive Fiber.State where
  | waiting
  | rescheduling
  | sleeping
  | running
  deriving DecidableEq, Repr

/-- Where a routine goes on: at its start or after `Yield`, or at the end of
`SleepFor`, where the local `timer` is destroyed. -/
inductive ResumePoint where
  | routine (rest : Routine)
  | sleepFor (timer : Nat) (rest : Routine)
  deriving DecidableEq, Repr

/-- The stack belongs to a fiber. -/
structure Context where
  stack : Nat
  point : ResumePoint
  deriving DecidableEq, Repr

/-- The other context is always in `Step`, after `coroutine_.Resume()`. -/
structure CoroutineImpl where
  state : Coroutine.CoroutineImpl.State
  runningPoint : Context
  deriving DecidableEq, Repr

structure Fiber where
  coroutine : CoroutineImpl
  state : Fiber.State
  deriving DecidableEq, Repr

def Fiber.new (this : Nat) (routine : Routine) : Fiber :=
  ⟨⟨.waiting, ⟨this, .routine routine⟩⟩, .rescheduling⟩

/-- `Schedule` posts the fiber unless it finds it `Running`. -/
def Fiber.posts (x : Fiber) : Bool := x.state ≠ .running

/-- `sleeper` and `delay` record the call of `SleepFor` that made the timer. -/
structure Timer where
  sleeper : Nat
  delay : Millis
  expiry : Option Millis
  deriving DecidableEq, Repr

/-- A pending `async_wait`; its handler has captured `this`, and it runs just the same
when the wait is cancelled. -/
structure Wait where
  timer : Nat
  this : Nat
  expiry : Option Millis
  deriving DecidableEq, Repr

/-- Who calls `Schedule`: a `Step`, or the handler of a timer. -/
inductive Caller where
  | step
  | timer
  deriving DecidableEq, Repr

/-- Where a thread is; `loop` is anywhere outside the handlers. -/
inductive Pc where
  | loop
  | step (this : Nat)
  | resume (this : Nat)
  | routine (stack : Nat) (rest : Routine)
  | sleepFor (this stack : Nat) (delay : Millis) (rest : Routine)
  | suspend (this : Nat) (context : Context)
  | wake (stack timer : Nat) (rest : Routine)
  | resumed (this : Nat)
  | expiresAfter (this : Nat)
  | asyncWait (this : Nat)
  | expired (this : Nat)
  | schedule (caller : Caller) (this : Nat)
  | post (caller : Caller) (this : Nat)
  | delete (caller : Caller) (this : Nat)
  deriving DecidableEq, Repr

/-- The thread-locals and the program counter of a thread. -/
structure Thread where
  currentFiber : Option Nat
  currTimer : Option Nat
  currDelay : Millis
  pc : Pc
  deriving DecidableEq, Repr

/-- Every `new` and every `steady_timer` is an object of its own; a deleted fiber or a
destroyed timer is there no more. `deleted` logs the fibers as they were at the end. -/
structure IoContext (ι : Type) where
  threads : ι → Thread
  posted : List Nat
  waits : List Wait
  fibers : Nat → Option Fiber
  timers : Nat → Option Timer
  newFiber : Nat
  newTimer : Nat
  deleted : List (Nat × Fiber)

/-- `go` is a call from outside all fibers, `dispatch` and `expire` start the handler of a
posted `Step` and of a timer, `next` is the next step of the code. -/
inductive Label (ι : Type) where
  | go (t : ι) (routine : Routine)
  | dispatch (t : ι) (this : Nat)
  | expire (t : ι) (w : Wait)
  | next (t : ι)
  deriving DecidableEq, Repr

/-- The coroutine goes on where it was suspended. -/
def Context.enter : Context → Pc
  | ⟨stack, .routine rest⟩ => .routine stack rest
  | ⟨stack, .sleepFor timer rest⟩ => .wake stack timer rest

namespace IoContext

def init {ι : Type} : IoContext ι :=
  ⟨fun _ => ⟨none, none, 0, .loop⟩, [], [], fun _ => none, fun _ => none, 0, 0, []⟩

def put {ι : Type} (s : IoContext ι) (this : Nat) (x : Fiber) : IoContext ι :=
  { s with fibers := Function.update s.fibers this (some x) }

def setState {ι : Type} (s : IoContext ι) (this : Nat) (state : Fiber.State) :
    Option (IoContext ι) :=
  (s.fibers this).map fun x => s.put this { x with state := state }

def setThread {ι : Type} [DecidableEq ι] (s : IoContext ι) (t : ι) (th : Thread) : IoContext ι :=
  { s with threads := Function.update s.threads t th }

def goto {ι : Type} [DecidableEq ι] (s : IoContext ι) (t : ι) (pc : Pc) : IoContext ι :=
  s.setThread t { s.threads t with pc := pc }

def post {ι : Type} (s : IoContext ι) (this : Nat) : IoContext ι :=
  { s with posted := s.posted ++ [this] }

def delete {ι : Type} (s : IoContext ι) (this : Nat) (x : Fiber) : IoContext ι :=
  { s with fibers := Function.update s.fibers this none, deleted := s.deleted ++ [(this, x)] }

/-- `Go`, with `Schedule`; nobody else has the pointer until it is posted. -/
def go {ι : Type} (s : IoContext ι) (routine : Routine) : IoContext ι :=
  let this := s.newFiber
  let x := Fiber.new this routine
  let s := { s.put this x with newFiber := s.newFiber + 1 }
  if x.posts then s.post this else s.delete this x

/-- The routine, running on the stack of a fiber; `Yield`, `SleepFor` and `Go` find the
fiber in `current_fiber`. -/
def routine {ι : Type} [DecidableEq ι] (s : IoContext ι) (t : ι) (stack : Nat) :
    Routine → Option (IoContext ι)
  | .return_ => (s.fibers stack).map fun x =>
    (s.put stack { x with coroutine.state := .terminated }).goto t (.resumed stack)
  | .compute rest => some (s.goto t (.routine stack rest))
  | .yield rest => (s.threads t).currentFiber.bind fun this =>
    (s.setState this .waiting).map fun s => s.goto t (.suspend this ⟨stack, .routine rest⟩)
  | .sleepFor delay rest => (s.threads t).currentFiber.bind fun this =>
    (s.setState this .sleeping).map fun s => s.goto t (.sleepFor this stack delay rest)
  | .go routine rest => (s.threads t).currentFiber.bind fun this =>
    (s.fibers this).map fun _ => (s.go routine).goto t (.routine stack rest)

/-- There is no next step where a fiber or a timer is used that is not there. -/
def next {ι : Type} [DecidableEq ι] (s : IoContext ι) (t : ι) : Option (IoContext ι) :=
  match (s.threads t).pc with
  | .loop => none
  | .step this => (s.setState this .running).map fun s =>
    s.setThread t { s.threads t with
      currentFiber := some this, currTimer := none, pc := .resume this }
  | .resume this => (s.fibers this).map fun x =>
    (s.put this { x with coroutine.state := .running }).goto t x.coroutine.runningPoint.enter
  | .routine stack rest => s.routine t stack rest
  | .sleepFor this stack delay rest =>
    let timer := s.newTimer
    some ({ s with
        timers := Function.update s.timers timer (some ⟨this, delay, none⟩)
        newTimer := s.newTimer + 1 }.setThread t { s.threads t with
      currTimer := some timer
      currDelay := delay
      pc := .suspend this ⟨stack, .sleepFor timer rest⟩ })
  | .suspend this context => (s.fibers this).map fun x =>
    (s.put this { x with coroutine := ⟨.waiting, context⟩ }).goto t (.resumed this)
  | .wake stack timer rest => (s.timers timer).map fun _ =>
    { s with timers := Function.update s.timers timer none }.goto t (.routine stack rest)
  | .resumed this => (s.fibers this).map fun x =>
    s.goto t (if x.state = .sleeping then .expiresAfter this else .schedule .step this)
  | .expiresAfter this => (s.threads t).currTimer.bind fun timer =>
    (s.timers timer).map fun x =>
      { s with
        timers := Function.update s.timers timer
          (some { x with expiry := some (s.threads t).currDelay }) }.goto t (.asyncWait this)
  | .asyncWait this => (s.threads t).currTimer.bind fun timer =>
    (s.timers timer).map fun x =>
      { s with waits := s.waits ++ [Wait.mk timer this x.expiry] }.goto t .loop
  | .expired this => (s.setState this .waiting).map fun s =>
    s.setThread t { s.threads t with currentFiber := some this, pc := .schedule .timer this }
  | .schedule caller this => (s.fibers this).map fun x =>
    s.goto t (if x.posts then .post caller this else .delete caller this)
  | .post _ this => some ((s.post this).goto t .loop)
  | .delete _ this => (s.fibers this).map fun x => (s.delete this x).goto t .loop

def step {ι : Type} [DecidableEq ι] (s : IoContext ι) : Label ι → Option (IoContext ι)
  | .go t routine => if (s.threads t).pc = .loop then some (s.go routine) else none
  | .dispatch t this =>
    if (s.threads t).pc = .loop ∧ this ∈ s.posted then
      some ({ s with posted := s.posted.erase this }.goto t (.step this))
    else none
  | .expire t w =>
    if (s.threads t).pc = .loop ∧ w ∈ s.waits then
      some ({ s with waits := s.waits.erase w }.goto t (.expired w.this))
    else none
  | .next t => s.next t

end IoContext

def ioContext (ι : Type) [DecidableEq ι] : Machine (IoContext ι) (Label ι) :=
  ⟨IoContext.init, IoContext.step⟩

end ConcurrentProgramming.Fibers.SleepFor
