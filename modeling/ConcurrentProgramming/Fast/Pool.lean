import ConcurrentProgramming.Interleaving.Machine
import ConcurrentProgramming.Fast.Coordinator

/-!
The fast pool. One step is one operation of a ring or of the global queue, one
section of the coordinator, or one access to a field of a worker. A ring is the
bounded queue that `WorkStealingQueue` refines. A pointer to a task may be null,
so that what is queued is an `Option T`.
-/

set_option autoImplicit false

namespace ConcurrentProgramming.Fast
open Interleaving

def kLocalQueueCapacity : Nat := 256

def kLifoLimit : Nat := 19

inductive Hint where
  | upToYou
  | slow
  | next
  deriving DecidableEq, Repr

/-- Inside a call of `Execute` by a task that runs on a worker of the pool. -/
inductive Execute (T : Type) where
  | pushToLifoSlot (task : T)
  | pushToLocalQueue (task : T)
  | tryPush (task : T)
  | discard (task : T)
  | grab (overflow : T)
  | offload (buffer : List (Option T))
  | offloadLocked (buffer : List (Option T))
  | discardOffloaded (buffer : List (Option T))
  | awakeOne
  | pushOne (task : T)
  | pushOneLocked (task : T)
  | discardPushed (task : T)
  | prohibitParking
  deriving DecidableEq, Repr

def Execute.start {T : Type} (task : T) : Hint → Execute T
  | .next => .pushToLifoSlot task
  | .upToYou => .pushToLocalQueue task
  | .slow => .pushOne task

/-- Where a worker is: in `PickNextTask` down to `notified`, then in the body of
`Work`, then on the way out. `remaining` counts the attempts to steal. -/
inductive Work (n : Nat) (T : Type) where
  | pick
  | awakeOne
  | lifo
  | tryPop
  | grab
  | allowParking
  | grabAgain
  | pushGrabbed (first : Option T) (rest : List (Option T))
  | impudence
  | giveVictim (remaining : Nat)
  | lowSize (remaining : Nat) (victim : Fin n)
  | steal (remaining : Nat) (victim : Fin n) (limit : Nat)
  | pushStolen (first : Option T) (rest : List (Option T))
  | lifoCheck
  | tryPark
  | asleep
  | notified
  | run (task : T)
  | execute (task : T) (e : Execute T)
  | discardRun (task : T)
  | release
  | discardLifo
  | drain
  | discardDrained (task : T)
  | exited
  deriving DecidableEq, Repr

structure Worker (n : Nat) (T : Type) where
  work : Work n T
  localTasks : List (Option T)
  lifoSlot : Option T
  lifoUsage : Nat
  cycle : Nat
  stopped : Bool
  deriving DecidableEq, Repr

/-- Inside a call of `Execute` by any other thread. -/
inductive OutsideCall (T : Type) where
  | idle
  | pushOne (task : T)
  | pushOneLocked (task : T)
  | discard (task : T)
  | prohibitParking
  deriving DecidableEq, Repr

inductive WaitIdle where
  | notCalled
  | globalTasks
  | coordinator
  | returned
  deriving DecidableEq, Repr

inductive PoolStop (T : Type) where
  | notCalled
  | stopWorkers (i : Nat)
  | storeClosed
  | drain
  | discard (rest : List (Option T))
  | awakeEveryoneForever
  | join (i : Nat)
  | returned
  deriving DecidableEq, Repr

structure Pool (n : Nat) (O T : Type) where
  workers : Fin n → Worker n T
  coordinator : Coordinator (Fin n)
  global : GlobalQueue (Option T)
  outside : O → OutsideCall T
  waitIdle : WaitIdle
  stop : PoolStop T

/-- What a step leaves open: whom `notify_one` wakes, the next number of the
twister, and what an array on the stack holds before it is written. -/
structure Choice (n : Nat) (T : Type) where
  woken : Option (Fin n)
  seed : Nat
  uninit : Nat → Option T

inductive PoolLabel (n : Nat) (O T : Type) where
  | worker (w : Fin n) (c : Choice n T)
  | execute (w : Fin n) (task : T) (hint : Hint)
  | return_ (w : Fin n)
  | throw (w : Fin n)
  | spurious (w : Fin n)
  | submit (o : O) (task : T)
  | outside (o : O) (woken : Option (Fin n))
  | callWaitIdle
  | waitIdle
  | callStop
  | stop

namespace Worker

def goto {n : Nat} {T : Type} (x : Worker n T) (pc : Work n T) : Worker n T :=
  { x with work := pc }

def asleep {n : Nat} {T : Type} (x : Worker n T) : Bool :=
  match x.work with
  | .asleep => true
  | _ => false

/-- `PushMany` asserts that the batch fits. -/
def pushMany {n : Nat} {T : Type} (x : Worker n T) (buffer : List (Option T)) (pc : Work n T) :
    Option (Worker n T) :=
  if x.localTasks.length + buffer.length ≤ kLocalQueueCapacity then
    some { x with localTasks := x.localTasks ++ buffer, work := pc }
  else none

/-- A pointer that is returned to `PickNextTask`, and where it goes on if the
pointer is null. -/
def picked {n : Nat} {T : Type} (pc : Work n T) : Option T → Work n T
  | some task => .run task
  | none => pc

/-- The steps that touch the worker alone. -/
def localStep {n : Nat} {T : Type} (x : Worker n T) (impudence : Stealing) :
    Option (Worker n T) :=
  match x.work with
  | .pick =>
    some (if x.stopped then x.goto .release
      else if x.cycle + 1 ≥ 10 then { x with cycle := 0, work := .awakeOne }
      else { x with cycle := x.cycle + 1, work := .lifo })
  | .lifo =>
    match x.lifoSlot with
    | some task =>
      some (if x.lifoUsage < kLifoLimit then
          { x with lifoUsage := x.lifoUsage + 1, lifoSlot := none, work := .run task }
        else { x with lifoUsage := 0, work := .tryPop })
    | none => some { x with lifoUsage := 0, work := .tryPop }
  | .tryPop =>
    match x.localTasks with
    | ans :: rest => some { x with localTasks := rest, work := picked .grab ans }
    | [] => some (x.goto .grab)
  | .pushGrabbed first rest => x.pushMany rest (picked .impudence first)
  | .impudence =>
    some (x.goto (if impudence = .active then .giveVictim ((n + 1) / 2) else .lifoCheck))
  | .pushStolen first rest => x.pushMany rest (picked .lifoCheck first)
  | .lifoCheck => some (x.goto (if x.lifoSlot.isSome then .pick else .tryPark))
  | .execute task (.pushToLifoSlot next) =>
    some (if x.stopped then x.goto (.execute task (.discard next))
      else match x.lifoSlot with
        | none => { x with lifoSlot := some next, work := .run task }
        | some old =>
          { x with lifoSlot := some next, work := .execute task (.pushToLocalQueue old) })
  | .execute task (.pushToLocalQueue next) =>
    some (x.goto (.execute task (if x.stopped then .discard next else .tryPush next)))
  | .execute task (.tryPush next) =>
    some (if x.localTasks.length < kLocalQueueCapacity then
        { x with localTasks := x.localTasks ++ [some next], work := .run task }
      else x.goto (.execute task (.grab next)))
  | .execute task (.discard _) => some (x.goto (.run task))
  | .execute task (.discardOffloaded (_ :: rest)) =>
    some (x.goto (.execute task (.discardOffloaded rest)))
  | .execute task (.discardOffloaded []) => some (x.goto (.execute task .awakeOne))
  | .execute task (.discardPushed _) => some (x.goto (.execute task .prohibitParking))
  | .discardRun _ => some (x.goto .pick)
  | .discardLifo => some (x.goto .drain)
  | .drain =>
    match x.localTasks with
    | some task :: rest => some { x with localTasks := rest, work := .discardDrained task }
    | none :: rest => some { x with localTasks := rest, work := .exited }
    | [] => some (x.goto .exited)
  | .discardDrained _ => some (x.goto .drain)
  | _ => none

/-- What `OffloadTasksToGlobalQueue` passes to `Offload`: the array behind the
`grabbed` slots that it has filled. -/
def offloaded {n : Nat} {T : Type} (x : Worker n T) (overflow : T) (uninit : Nat → Option T) :
    List (Option T) :=
  let size := kLocalQueueCapacity / 2 + 1
  let taken := x.localTasks.take (size - 1)
  let grabbed := taken.length + 1
  let buffer := some overflow :: taken ++ (List.range (size - grabbed)).map fun i =>
    uninit (grabbed + i)
  buffer.drop grabbed

end Worker

namespace Pool

def setWorker {n : Nat} {O T : Type} (s : Pool n O T) (w : Fin n) (x : Worker n T) : Pool n O T :=
  { s with workers := Function.update s.workers w x }

def goto {n : Nat} {O T : Type} (s : Pool n O T) (w : Fin n) (pc : Work n T) : Pool n O T :=
  s.setWorker w ((s.workers w).goto pc)

/-- `sleeper_.notify_one()`. -/
def notifyOne {n : Nat} {O T : Type} (s : Pool n O T) : Option (Fin n) → Option (Pool n O T)
  | some v => if (s.workers v).asleep then some (s.goto v .notified) else none
  | none => if ∀ v, (s.workers v).asleep = false then some s else none

def prohibitParking {n : Nat} {O T : Type} (s : Pool n O T) (woken : Option (Fin n)) :
    Option (Pool n O T) :=
  let s : Pool n O T := { s with coordinator := s.coordinator.prohibitParking }
  s.notifyOne woken

/-- `sleeper_.notify_all()`. -/
def notifyAll {n : Nat} {O T : Type} (s : Pool n O T) : Pool n O T :=
  { s with workers := fun v =>
      if (s.workers v).asleep then (s.workers v).goto .notified else s.workers v }

/-- A `Grab` from the global queue; an empty-handed worker goes on at `pc`. -/
def grab {n : Nat} {O T : Type} (s : Pool n O T) (w : Fin n) (pc : Work n T) :
    Option (Pool n O T) :=
  (s.global.grab (kLocalQueueCapacity / 2) n).map fun (global, items) =>
    { s.goto w (match items with
        | [] => pc
        | [first] => Worker.picked .impudence first
        | first :: rest => .pushGrabbed first rest) with global := global }

/-- The steps of a worker at the global queue. -/
def globalStep {n : Nat} {O T : Type} (s : Pool n O T) (w : Fin n) : Option (Pool n O T) :=
  match (s.workers w).work with
  | .grab => s.grab w .allowParking
  | .grabAgain => s.grab w .impudence
  | .execute task (.offload buffer) =>
    some (s.goto w (.execute task
      (if s.global.isClosed then .discardOffloaded buffer else .offloadLocked buffer)))
  | .execute task (.offloadLocked buffer) =>
    some { s.goto w (.execute task .awakeOne) with global := s.global.offload buffer }
  | .execute task (.pushOne next) =>
    some (s.goto w (.execute task
      (if s.global.isClosed then .discardPushed next else .pushOneLocked next)))
  | .execute task (.pushOneLocked next) =>
    some { s.goto w (.execute task .prohibitParking) with global := s.global.pushOne (some next) }
  | _ => none

/-- The steps of a worker at the coordinator. -/
def coordinatorStep {n : Nat} {O T : Type} (s : Pool n O T) (w : Fin n) (c : Choice n T) :
    Option (Pool n O T) :=
  match (s.workers w).work with
  | .awakeOne => (s.notifyOne c.woken).map (·.goto w .lifo)
  | .allowParking =>
    some { s.goto w .grabAgain with coordinator := s.coordinator.allowParking }
  | .giveVictim 0 => some (s.goto w .lifoCheck)
  | .giveVictim (remaining + 1) =>
    (s.coordinator.giveVictim c.seed).map fun victim =>
      s.goto w (if victim = w then .giveVictim remaining else .lowSize remaining victim)
  | .tryPark =>
    if s.coordinator.permission = .allowed then
      (s.coordinator.unlink w).map fun coordinator =>
        { s.goto w .asleep with coordinator := coordinator }
    else some (s.goto w .pick)
  | .notified => some { s.goto w .pick with coordinator := s.coordinator.acquireUnsafe w }
  | .execute task .awakeOne => (s.notifyOne c.woken).map (·.goto w (.run task))
  | .execute task .prohibitParking =>
    (s.prohibitParking c.woken).map (·.goto w (.run task))
  | .release =>
    (s.coordinator.release w).map fun coordinator =>
      { s.goto w (if (s.workers w).lifoSlot.isSome then .discardLifo else .drain) with
        coordinator := coordinator }
  | _ => none

/-- The steps of a worker that take from a ring: a victim's or, for offloading,
its own. -/
def stealStep {n : Nat} {O T : Type} (s : Pool n O T) (w : Fin n) (c : Choice n T) :
    Option (Pool n O T) :=
  match (s.workers w).work with
  | .lowSize remaining victim =>
    some (s.goto w (.steal remaining victim
      (min ((s.workers victim).localTasks.length / 2) kLocalQueueCapacity)))
  | .steal remaining victim limit =>
    let tasks := (s.workers victim).localTasks
    some ((s.setWorker victim { s.workers victim with localTasks := tasks.drop limit }).goto w
      (match tasks.take limit with
        | [] => .giveVictim remaining
        | [first] => Worker.picked .lifoCheck first
        | first :: rest => .pushStolen first rest))
  | .execute task (.grab overflow) =>
    let x := s.workers w
    some (s.setWorker w { x with
      localTasks := x.localTasks.drop (kLocalQueueCapacity / 2)
      work := .execute task (.offload (x.offloaded overflow c.uninit)) })
  | _ => none

def workerStep {n : Nat} {O T : Type} (s : Pool n O T) (w : Fin n) (c : Choice n T) :
    Option (Pool n O T) :=
  ((s.workers w).localStep (s.coordinator.impudence w)).map (s.setWorker w) <|>
    s.globalStep w <|> s.coordinatorStep w c <|> s.stealStep w c

def call {n : Nat} {O T : Type} [DecidableEq O] (s : Pool n O T) (o : O) (pc : OutsideCall T) :
    Pool n O T := { s with outside := Function.update s.outside o pc }

def outsideStep {n : Nat} {O T : Type} [DecidableEq O] (s : Pool n O T) (o : O)
    (woken : Option (Fin n)) : Option (Pool n O T) :=
  match s.outside o with
  | .idle => none
  | .pushOne task =>
    some (s.call o (if s.global.isClosed then .discard task else .pushOneLocked task))
  | .pushOneLocked task =>
    some { s.call o .prohibitParking with global := s.global.pushOne (some task) }
  | .discard _ => some (s.call o .prohibitParking)
  | .prohibitParking =>
    (s.prohibitParking woken).map (·.call o .idle)

/-- A `Wait` goes on at a moment when its counter is zero. -/
def waitIdleStep {n : Nat} {O T : Type} (s : Pool n O T) : Option (Pool n O T) :=
  match s.waitIdle with
  | .notCalled | .returned => none
  | .globalTasks =>
    if s.global.waiter.counter = 0 then some { s with waitIdle := .coordinator } else none
  | .coordinator =>
    if s.coordinator.waiter.counter = 0 then some { s with waitIdle := .returned } else none

def stopStep {n : Nat} {O T : Type} (s : Pool n O T) : Option (Pool n O T) :=
  match s.stop with
  | .notCalled | .returned => none
  | .stopWorkers i =>
    if h : i < n then
      some { s.setWorker ⟨i, h⟩ { s.workers ⟨i, h⟩ with stopped := true } with
        stop := .stopWorkers (i + 1) }
    else some { s with stop := .storeClosed }
  | .storeClosed => some { s with global := { s.global with isClosed := true }, stop := .drain }
  | .drain =>
    match s.global.drain with
    | (_, []) => some { s with stop := .awakeEveryoneForever }
    | (global, items) => some { s with global := global, stop := .discard items }
  | .discard [] => some { s with stop := .drain }
  | .discard (_ :: rest) => some { s with stop := .discard rest }
  | .awakeEveryoneForever =>
    some { s.notifyAll with
      coordinator := s.coordinator.awakeEveryoneForever, stop := .join 0 }
  | .join i =>
    if h : i < n then
      match (s.workers ⟨i, h⟩).work with
      | .exited => some { s with stop := .join (i + 1) }
      | _ => none
    else some { s with stop := .returned }

def step {n : Nat} {O T : Type} [DecidableEq O] (s : Pool n O T) :
    PoolLabel n O T → Option (Pool n O T)
  | .worker w c => s.workerStep w c
  | .execute w task hint =>
    match (s.workers w).work with
    | .run running => some (s.goto w (.execute running (.start task hint)))
    | _ => none
  | .return_ w =>
    match (s.workers w).work with
    | .run _ => some (s.goto w .pick)
    | _ => none
  | .throw w =>
    match (s.workers w).work with
    | .run task => some (s.goto w (.discardRun task))
    | _ => none
  | .spurious w => if (s.workers w).asleep then some (s.goto w .notified) else none
  | .submit o task =>
    match s.outside o with
    | .idle => some (s.call o (.pushOne task))
    | _ => none
  | .outside o woken => s.outsideStep o woken
  | .callWaitIdle =>
    match s.waitIdle with
    | .notCalled => some { s with waitIdle := .globalTasks }
    | _ => none
  | .waitIdle => s.waitIdleStep
  | .callStop =>
    match s.stop with
    | .notCalled => some { s with stop := .stopWorkers 0 }
    | _ => none
  | .stop => s.stopStep

/-- An offload does not publish a null pointer. -/
def publishesTasks {n : Nat} {O T : Type} (s : Pool n O T) : PoolLabel n O T → Bool
  | .worker w c =>
    match (s.workers w).work with
    | .execute _ (.grab overflow) => ((s.workers w).offloaded overflow c.uninit).all Option.isSome
    | _ => true
  | _ => true

end Pool

def pool (n : Nat) (O T : Type) [DecidableEq O] : Machine (Pool n O T) (PoolLabel n O T) where
  init := {
    workers := fun _ => ⟨.pick, [], none, 0, 0, false⟩
    coordinator := .new (List.finRange n)
    global := .new (Option T)
    outside := fun _ => .idle
    waitIdle := .notCalled
    stop := .notCalled }
  step := Pool.step

def PoolLabel.callsStop {n : Nat} {O T : Type} : PoolLabel n O T → Bool
  | .callStop => true
  | _ => false

/-- Runs in which `Stop` is not called. -/
def unstoppedPool (n : Nat) (O T : Type) [DecidableEq O] : Machine (Pool n O T) (PoolLabel n O T) :=
  (pool n O T).guard fun _ l => !l.callsStop

end ConcurrentProgramming.Fast
