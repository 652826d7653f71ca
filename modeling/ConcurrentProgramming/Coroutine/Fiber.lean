import ConcurrentProgramming.Compute.Consumed

/-!
Fibers on top of the first pool. A task of the pool is a raw pointer to a fiber;
a step is one section under a mutex, or what a coroutine does between two
switches of context.
-/

set_option autoImplicit false

namespace ConcurrentProgramming.Coroutine
open Interleaving Compute

/-- `pages` stacks have been allocated so far, `freed` of them are to be reused. -/
structure StackAllocator where
  freed : List Nat
  pages : Nat
  deriving DecidableEq, Repr

def StackAllocator.allocate (a : StackAllocator) : StackAllocator × Nat :=
  match a.freed.getLast? with
  | none => ({ a with pages := a.pages + 1 }, a.pages)
  | some stack => ({ a with freed := a.freed.dropLast }, stack)

def StackAllocator.release (a : StackAllocator) (stack : Nat) : StackAllocator :=
  { a with freed := a.freed ++ [stack] }

/-- `Run` overwrites `ExceptionCaught` before anybody can see it. -/
inductive State where
  | running
  | waiting
  | terminated
  deriving DecidableEq, Repr

structure Fiber where
  stack : Nat
  state : State
  caught : Bool
  deriving DecidableEq, Repr

inductive FiberObject where
  | uncreated
  | alive (fiber : Fiber)
  | deleted
  deriving DecidableEq, Repr

/-- A worker inside `Step`. -/
inductive Step (F : Type) where
  | outside
  | routine (f : F)
  | resumed (f : F)
  | finish (f : F)
  deriving DecidableEq, Repr

/-- How a routine gives up the thread. -/
inductive Outcome where
  | yield
  | return_
  | throw
  deriving DecidableEq, Repr

/-- `goes` are the calls of `Go` that have not yet come to `Schedule`. -/
structure Runtime (n : Nat) (C F : Type) where
  pool : ThreadPool n C F
  fibers : F → FiberObject
  allocator : StackAllocator
  current : Fin n → Option F
  steps : Fin n → Step F
  goes : Fin n ⊕ C → Option F

inductive RuntimeLabel (n : Nat) (C F : Type) where
  | pool (l : ThreadPoolLabel n C F)
  | step (w : Fin n)
  | routine (w : Fin n) (o : Outcome)
  | go (i : Fin n ⊕ C) (f : F)
  | schedule (i : Fin n ⊕ C)
  deriving DecidableEq, Repr

/-- Steps of the pool in which no fiber takes part. -/
def internal {n : Nat} {C F : Type} : ThreadPoolLabel n C F → Bool
  | .return_ _ | .throw _ | .execute _ _ | .waitIdle (.inl _) => false
  | _ => true

def Fiber.leave (x : Fiber) : Outcome → Fiber
  | .yield => { x with state := .waiting }
  | .return_ => { x with state := .terminated }
  | .throw => { x with state := .terminated, caught := true }

namespace Runtime

/-- An access to a fiber that does not exist has no successor. -/
def modify {n : Nat} {C F : Type} [DecidableEq F] (s : Runtime n C F) (f : F)
    (change : Fiber → Fiber) : Option (Runtime n C F) :=
  match s.fibers f with
  | .alive x => some { s with fibers := Function.update s.fibers f (.alive (change x)) }
  | _ => none

def busy {n : Nat} {C F : Type} (s : Runtime n C F) (i : Fin n ⊕ C) : Bool :=
  match s.goes i, s.pool.calls i with
  | none, .idle => false
  | _, _ => true

def goto {n : Nat} {C F : Type} (s : Runtime n C F) (w : Fin n) (pc : Step F) : Runtime n C F :=
  { s with steps := Function.update s.steps w pc }

/-- What `Step` does after `Resume`. -/
def resumedStep {n : Nat} {C F : Type} [DecidableEq C] [DecidableEq F] (s : Runtime n C F)
    (w : Fin n) (f : F) : Option (Runtime n C F) :=
  match s.fibers f with
  | .alive x =>
    if x.caught then
      (s.pool.step .first (.throw w)).map fun pool => { s.goto w .outside with pool := pool }
    else if x.state = .terminated then
      some { s.goto w (.finish f) with
        fibers := Function.update s.fibers f .deleted
        allocator := s.allocator.release x.stack }
    else (s.pool.step .first (.execute (.inl w) f)).map fun pool =>
      { s.goto w (.finish f) with pool := pool }
  | _ => none

def stepStep {n : Nat} {C F : Type} [DecidableEq C] [DecidableEq F] (s : Runtime n C F)
    (w : Fin n) : Option (Runtime n C F) :=
  match s.steps w with
  | .outside =>
    match s.pool.workers w with
    | .run f =>
      (s.modify f fun x => { x with state := .running }).map fun s =>
        { s.goto w (.routine f) with current := Function.update s.current w (some f) }
    | _ => none
  | .routine _ => none
  | .resumed f => s.resumedStep w f
  | .finish _ => (s.pool.step .first (.return_ w)).map fun pool =>
      { s.goto w .outside with pool := pool, current := Function.update s.current w none }

/-- `Yield` suspends the current fiber of the thread. -/
def routineStep {n : Nat} {C F : Type} [DecidableEq F] (s : Runtime n C F) (w : Fin n)
    (o : Outcome) : Option (Runtime n C F) :=
  match s.steps w with
  | .routine f =>
    if s.busy (.inl w) then none
    else
      (if o = .yield then s.current w else some f).bind fun g =>
        (s.modify g (·.leave o)).map (·.goto w (.resumed f))
  | _ => none

/-- The allocation of the stack and the constructor of the fiber. -/
def go {n : Nat} {C F : Type} [DecidableEq C] [DecidableEq F] (s : Runtime n C F)
    (i : Fin n ⊕ C) (f : F) : Option (Runtime n C F) :=
  match s.fibers f with
  | .uncreated => some { s with
      fibers := Function.update s.fibers f (.alive ⟨s.allocator.allocate.2, .waiting, false⟩)
      allocator := s.allocator.allocate.1
      goes := Function.update s.goes i (some f) }
  | _ => none

/-- A routine, or a thread outside, that can call `Go`. -/
def free {n : Nat} {C F : Type} (s : Runtime n C F) (i : Fin n ⊕ C) : Bool :=
  !s.busy i && match i with
    | .inl w =>
      match s.steps w with
      | .routine _ => true
      | _ => false
    | .inr _ => true

def step {n : Nat} {C F : Type} [DecidableEq C] [DecidableEq F] (s : Runtime n C F) :
    RuntimeLabel n C F → Option (Runtime n C F)
  | .pool l =>
    if internal l then (s.pool.step .first l).map fun pool => { s with pool := pool } else none
  | .step w => s.stepStep w
  | .routine w o => s.routineStep w o
  | .go i f => if s.free i then s.go i f else none
  | .schedule i =>
    (s.goes i).bind fun f => (s.pool.step .first (.execute i f)).map fun pool =>
      { s with pool := pool, goes := Function.update s.goes i none }

end Runtime

def runtime (n : Nat) (C F : Type) [DecidableEq C] [DecidableEq F] :
    Machine (Runtime n C F) (RuntimeLabel n C F) where
  init := {
    pool := (threadPool .first n C F).init
    fibers := fun _ => .uncreated
    allocator := ⟨[], 0⟩
    current := fun _ => none
    steps := fun _ => .outside
    goes := fun _ => none }
  step := Runtime.step

inductive FiberEvent (F : Type) where
  | created (f : F) (stack : Nat)
  | released (f : F) (stack : Nat)
  | deleted (f : F)
  deriving DecidableEq, Repr

namespace Runtime

def events {n : Nat} {C F : Type} (s : Runtime n C F) :
    RuntimeLabel n C F → List (FiberEvent F)
  | .go _ f => [.created f s.allocator.allocate.2]
  | .step w =>
    match s.steps w with
    | .resumed f =>
      match s.fibers f with
      | .alive ⟨stack, .terminated, false⟩ => [.released f stack, .deleted f]
      | _ => []
    | _ => []
  | _ => []

/-- No routine throws, and the pool drops no task: no `Put` finds the queue closed
and `Cancel` finds it empty. -/
def keepsFibers {n : Nat} {C F : Type} (s : Runtime n C F) : RuntimeLabel n C F → Bool
  | .pool l => s.pool.discards .first l
  | .routine _ o => o ≠ .throw
  | _ => true

end Runtime

end ConcurrentProgramming.Coroutine
