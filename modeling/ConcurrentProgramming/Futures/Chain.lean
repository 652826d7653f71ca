import ConcurrentProgramming.Futures.SharedState
import ConcurrentProgramming.Interleaving.Tally

/-!
A chain of futures: an origin, `Via`, `Then` in both forms, and one `Subscribe`
at the end. Every link of the chain, and every future returned by an asynchronous
continuation, is a shared state with its own race between `SetResult` and
`SetCallback`; executors run the tasks submitted to them once each, in any order.
-/

set_option autoImplicit false

namespace ConcurrentProgramming.Futures
open Interleaving

universe u

/-- A future that an asynchronous continuation returns: its executor, the result it
resolves to sooner or later, and whether its promise is set inside of a `try`, as by
the lambda of `futures::Execute`, or outside, as by the user who has a contract. -/
structure Deferred (E V X : Type u) where
  executor : E
  result : Except X V
  tried : Bool

/-- What the user passes to `Then`. A throw is an error. -/
inductive Continuation (E V X : Type u) where
  | sync (f : V → Except X V)
  | async (g : V → Except X (Deferred E V X))

inductive Stage (E V X : Type u) where
  | via (executor : E)
  | then_ (continuation : Continuation E V X)

/-- `MakeContractVia(executor)` with a promise that is set to `result`, or
`futures::Execute(executor, func)` with `result` what `func` returns or throws. -/
inductive Origin (E V X : Type u) where
  | contract (executor : E) (result : Except X V)
  | execute (executor : E) (func : Unit → Except X V)

def Origin.executor {E V X : Type u} : Origin E V X → E
  | .contract executor _ | .execute executor _ => executor

/-- The argument of the one `SetResult` on the first link. -/
def Origin.result {E V X : Type u} : Origin E V X → Except X V
  | .contract _ result => result
  | .execute _ func => func ()

/-- The lambdas passed to `SetCallback`, with the link whose promise they hold. -/
inductive Callback (E V X : Type u) where
  | then_ (continuation : Continuation E V X) (promise : Nat)
  | forward (promise : Nat)
  | final

/-- A shared state with its two calls and the submitted tasks that have run. -/
structure Link (E V X : Type u) where
  shared : Rendezvous E (Except X V) (Callback E V X)
  ran : List Nat

/-- The thread that builds the chain: `stages rest k` holds the future of link
`k` and has `rest` to attach. -/
inductive Attach (E V X : Type u) where
  | stages (rest : List (Stage E V X)) (k : Nat)
  | setCallback (rest : List (Stage E V X)) (k : Nat)
  | subscribe (k : Nat)
  | returned

/-- `inners p` is the future returned by the continuation that resolves link `p`.
`invoked` logs the calls of user continuations by that link, `finals` the calls
of the subscribed callback. -/
structure FutureChain (E V X : Type u) where
  attach : Attach E V X
  originCalled : Bool
  links : Nat → Option (Link E V X)
  inners : Nat → Option (Link E V X)
  invoked : List Nat
  finals : List (Except X V)
  violated : Bool

inductive ChainLabel where
  | attach
  | origin
  | setResult (k : Nat)
  | run (k task : Nat)
  | innerSetResult (p : Nat)
  | innerSetCallback (p : Nat)
  | runInner (p task : Nat)
  deriving DecidableEq, Repr

def Link.new {E V X : Type u} (executor : E) : Link E V X :=
  ⟨⟨makeSharedState executor, .notCalled, .notCalled, []⟩, []⟩

def Link.setResult {E V X : Type u} (l : Link E V X) : Option (Link E V X) :=
  l.shared.setResult.map fun shared => { l with shared := shared }

def Link.setCallback {E V X : Type u} (l : Link E V X) : Option (Link E V X) :=
  l.shared.setCallback.map fun shared => { l with shared := shared }

/-- The start of a call of `SetCallback`. -/
def Link.callback {E V X : Type u} (l : Link E V X) (callback : Callback E V X) : Link E V X :=
  { l with shared := { l.shared with consumer := .writeCallback callback } }

/-- The start of a call of `SetResult`. -/
def Link.resolve {E V X : Type u} (l : Link E V X) (result : Except X V) : Link E V X :=
  { l with shared := { l.shared with producer := .writeResult result } }

namespace FutureChain

def setLink {E V X : Type u} (s : FutureChain E V X) (k : Nat) (l : Link E V X) :
    FutureChain E V X := { s with links := Function.update s.links k (some l) }

def setInner {E V X : Type u} (s : FutureChain E V X) (p : Nat) (l : Link E V X) :
    FutureChain E V X := { s with inners := Function.update s.inners p (some l) }

/-- `Promise::Set`: the state is released, so a second call fails the check. -/
def resolve {E V X : Type u} (s : FutureChain E V X) (p : Nat) (result : Except X V) :
    FutureChain E V X :=
  match s.links p with
  | none => { s with violated := true }
  | some l =>
    match l.shared.producer with
    | .notCalled => s.setLink p (l.resolve result)
    | _ => { s with violated := true }

def invoke {E V X : Type u} (s : FutureChain E V X) (p : Nat) : FutureChain E V X :=
  { s with invoked := s.invoked ++ [p] }

/-- `Subscribe` on the returned future forwards its result to link `p`. -/
def subscribeInner {E V X : Type u} (s : FutureChain E V X) (p : Nat) (d : Deferred E V X) :
    FutureChain E V X :=
  s.setInner p (((Link.new d.executor).resolve d.result).callback (.forward p))

def call {E V X : Type u} (s : FutureChain E V X) :
    Callback E V X → Except X V → FutureChain E V X
  | .final, val => { s with finals := s.finals ++ [val] }
  | .forward p, val => s.resolve p val
  | .then_ _ p, .error e => s.resolve p (.error e)
  | .then_ (.sync f) p, .ok v => (s.invoke p).resolve p (f v)
  | .then_ (.async g) p, .ok v =>
    match g v with
    | .error e => (s.invoke p).resolve p (.error e)
    | .ok d => (s.invoke p).subscribeInner p d

/-- An executor runs the task: the callback and the value must not have been
moved from. -/
def runTask {E V X : Type u} (s : FutureChain E V X)
    (t : Submission E (Except X V) (Callback E V X)) : FutureChain E V X :=
  match t.callback, t.val with
  | some callback, some val => s.call callback val
  | _, _ => { s with violated := true }

def attachStep {E V X : Type u} (s : FutureChain E V X) : Option (FutureChain E V X) :=
  match s.attach with
  | .stages (.via e :: rest) k =>
    (s.links k).map fun l =>
      { s.setLink k { l with shared := { l.shared with state := l.shared.state.setExecutor e } }
        with attach := .stages rest k }
  | .stages (.then_ c :: rest) k =>
    (s.links k).map fun l =>
      { (s.setLink k (l.callback (.then_ c (k + 1)))).setLink (k + 1)
          (.new l.shared.state.getExecutor) with attach := .setCallback rest k }
  | .stages [] k =>
    (s.links k).map fun l => { s.setLink k (l.callback .final) with attach := .subscribe k }
  | .setCallback rest k =>
    (s.links k).bind fun l =>
      match l.shared.consumer with
      | .returned => some { s with attach := .stages rest (k + 1) }
      | _ => l.setCallback.map fun l => s.setLink k l
  | .subscribe k =>
    (s.links k).bind fun l =>
      match l.shared.consumer with
      | .returned => some { s with attach := .returned }
      | _ => l.setCallback.map fun l => s.setLink k l
  | .returned => none

def step {E V X : Type u} (origin : Origin E V X) (s : FutureChain E V X) :
    ChainLabel → Option (FutureChain E V X)
  | .attach => s.attachStep
  | .origin =>
    if s.originCalled then none
    else some { s.resolve 0 origin.result with originCalled := true }
  | .setResult k => (s.links k).bind fun l => l.setResult.map fun l => s.setLink k l
  | .run k task =>
    (s.links k).bind fun l =>
      if task ∈ l.ran then none
      else l.shared.submitted[task]?.map fun t =>
        (s.setLink k { l with ran := l.ran ++ [task] }).runTask t
  | .innerSetResult p => (s.inners p).bind fun l => l.setResult.map fun l => s.setInner p l
  | .innerSetCallback p => (s.inners p).bind fun l => l.setCallback.map fun l => s.setInner p l
  | .runInner p task =>
    (s.inners p).bind fun l =>
      if task ∈ l.ran then none
      else l.shared.submitted[task]?.map fun t =>
        (s.setInner p { l with ran := l.ran ++ [task] }).runTask t

end FutureChain

def futureChain {E V X : Type u} (origin : Origin E V X) (stages : List (Stage E V X)) :
    Machine (FutureChain E V X) ChainLabel where
  init := ⟨.stages stages 0, false,
    Function.update (fun _ => none) 0 (some (.new origin.executor)), fun _ => none, [], [], false⟩
  step := FutureChain.step origin

/-! What a chain computes. -/

def thens {E V X : Type u} : List (Stage E V X) → List (Continuation E V X)
  | [] => []
  | .via _ :: rest => thens rest
  | .then_ c :: rest => c :: thens rest

/-- The executor of every link: that of the nearest `Via` before its callback is
attached, or else the one it started from. -/
def executors {E V X : Type u} : List (Stage E V X) → E → List E
  | [], e => [e]
  | .via e' :: rest, _ => executors rest e'
  | .then_ _ :: rest, e => e :: executors rest e

/-- What the continuation's future resolves to, given a value. -/
def Continuation.apply {E V X : Type u} : Continuation E V X → V → Except X V
  | .sync f, v => f v
  | .async g, v => (g v).bind fun d => d.result

/-- The results of the links after the first, folded from the left. -/
def fold {E V X : Type u} (cs : List (Continuation E V X)) (r : Except X V) : Except X V :=
  cs.foldl (fun r c => r.bind c.apply) r

/-- The future, if any, that the continuation returns on an upstream result. -/
def Continuation.deferred {E V X : Type u} :
    Continuation E V X → Except X V → Option (Deferred E V X)
  | .async g, .ok v => (g v).toOption
  | _, _ => none

/-- The lambda attached to link `k`. -/
def lambda {E V X : Type u} (cs : List (Continuation E V X)) (k : Nat) : Callback E V X :=
  match cs[k]? with
  | some c => .then_ c (k + 1)
  | none => .final

theorem fold_take_succ {E V X : Type u} {cs : List (Continuation E V X)} {k : Nat}
    {c : Continuation E V X} (hc : cs[k]? = some c) (r : Except X V) :
    fold (cs.take (k + 1)) r = (fold (cs.take k) r).bind c.apply := by
  simp [fold, List.take_add_one, hc]

theorem apply_deferred {E V X : Type u} {c : Continuation E V X} {r : Except X V}
    {d : Deferred E V X} (h : c.deferred r = some d) : r.bind c.apply = d.result := by
  cases c with
  | sync f => cases r <;> simp [Continuation.deferred] at h
  | async g =>
    cases r with
    | error e => simp [Continuation.deferred] at h
    | ok v =>
      cases hg : g v with
      | error e => simp [Continuation.deferred, hg, Except.toOption] at h
      | ok d' =>
        obtain rfl : d' = d := by simpa [Continuation.deferred, hg, Except.toOption] using h
        simp [Except.bind, Continuation.apply, hg]

theorem deferred_toBool {E V X : Type u} {c : Continuation E V X} {r : Except X V}
    {d : Deferred E V X} (h : c.deferred r = some d) : r.toBool = true := by
  cases r with
  | error e => cases c <;> simp [Continuation.deferred] at h
  | ok v => rfl

/-! Links. -/

def SetResult.called {R C : Type u} : SetResult R C → Bool
  | .notCalled => false
  | _ => true

def SetCallback.called {R C : Type u} : SetCallback R C → Bool
  | .notCalled => false
  | _ => true

def Link.hasRun {E V X : Type u} (l : Link E V X) : Bool := !l.ran.isEmpty

/-- The steps that a link can still take. -/
def Link.remaining {E V X : Type u} (l : Link E V X) : Nat :=
  l.shared.producer.remaining + l.shared.consumer.remaining + (1 - l.ran.length)

/-- `r` is what the link resolves to and `c` is its callback. -/
structure Link.Ok {E V X : Type u} (r : Except X V) (c : Callback E V X) (l : Link E V X) :
    Prop where
  shared : l.shared.Inv r c
  ran : l.ran = [] ∨ l.ran = [0] ∧ l.shared.submitted ≠ []

namespace Link

theorem Ok.new {E V X : Type u} (e : E) (r : Except X V) (c : Callback E V X) :
    (Link.new e).Ok r c := ⟨Rendezvous.Inv.new e r c, .inl rfl⟩

theorem setResult_eq {E V X : Type u} {l l' : Link E V X} (h : l.setResult = some l') :
    ∃ v, l.shared.setResult = some v ∧ l' = { l with shared := v } := by
  obtain ⟨v, hv, rfl⟩ := Option.map_eq_some_iff.mp h
  exact ⟨v, hv, rfl⟩

theorem setCallback_eq {E V X : Type u} {l l' : Link E V X} (h : l.setCallback = some l') :
    ∃ v, l.shared.setCallback = some v ∧ l' = { l with shared := v } := by
  obtain ⟨v, hv, rfl⟩ := Option.map_eq_some_iff.mp h
  exact ⟨v, hv, rfl⟩

/-- A step of one of the two calls, seen from the chain. -/
structure Moves {E V X : Type u} (l l' : Link E V X) : Prop where
  ran : l'.ran = l.ran
  produced : l'.shared.producer.called = l.shared.producer.called
  attached : l'.shared.consumer.called = l.shared.consumer.called
  executor : l'.shared.state.executor = l.shared.state.executor
  remaining : l'.remaining < l.remaining

theorem setResult_moves {E V X : Type u} {l l' : Link E V X} (h : l.setResult = some l') :
    l.Moves l' ∧ l'.shared.consumer = l.shared.consumer := by
  obtain ⟨v, hv, rfl⟩ := setResult_eq h
  obtain ⟨hlt, hnew, hold, hconsumer⟩ := Rendezvous.setResult_remaining hv
  refine ⟨⟨rfl, ?_, by simp [hconsumer], Rendezvous.setResult_executor hv, ?_⟩, hconsumer⟩
  · cases hp : v.producer <;> cases hq : l.shared.producer <;> simp_all [SetResult.called]
  · simp only [Link.remaining, hconsumer]
    omega

theorem setCallback_moves {E V X : Type u} {l l' : Link E V X} (h : l.setCallback = some l') :
    l.Moves l' ∧ l'.shared.producer = l.shared.producer := by
  obtain ⟨v, hv, rfl⟩ := setCallback_eq h
  obtain ⟨hlt, hnew, hold, hproducer⟩ := Rendezvous.setCallback_remaining hv
  refine ⟨⟨rfl, by simp [hproducer], ?_, Rendezvous.setCallback_executor hv, ?_⟩, hproducer⟩
  · cases hp : v.consumer <;> cases hq : l.shared.consumer <;> simp_all [SetCallback.called]
  · simp only [Link.remaining, hproducer]
    omega

theorem Ok.setResult {E V X : Type u} {r : Except X V} {c : Callback E V X}
    {l l' : Link E V X} (hl : l.Ok r c) (h : l.setResult = some l') : l'.Ok r c := by
  obtain ⟨v, hv, rfl⟩ := setResult_eq h
  refine ⟨Rendezvous.setResult_inv hl.shared hv, ?_⟩
  rcases hl.ran with hran | ⟨hran, hsub⟩
  · exact .inl hran
  · exact .inr ⟨hran, (Rendezvous.setResult_submitted hv).ne_nil hsub⟩

theorem Ok.setCallback {E V X : Type u} {r : Except X V} {c : Callback E V X}
    {l l' : Link E V X} (hl : l.Ok r c) (h : l.setCallback = some l') : l'.Ok r c := by
  obtain ⟨v, hv, rfl⟩ := setCallback_eq h
  refine ⟨Rendezvous.setCallback_inv hl.shared hv, ?_⟩
  rcases hl.ran with hran | ⟨hran, hsub⟩
  · exact .inl hran
  · exact .inr ⟨hran, (Rendezvous.setCallback_submitted hv).ne_nil hsub⟩

theorem Ok.resolve {E V X : Type u} {r : Except X V} {c : Callback E V X} {l : Link E V X}
    (hl : l.Ok r c) (hp : l.shared.producer = .notCalled) : (l.resolve r).Ok r c :=
  ⟨hl.shared.resolve hp, hl.ran⟩

theorem Ok.callback {E V X : Type u} {r : Except X V} {c : Callback E V X} {l : Link E V X}
    (hl : l.Ok r c) (hq : l.shared.consumer = .notCalled) : (l.callback c).Ok r c :=
  ⟨hl.shared.callback hq, hl.ran⟩

/-- The one task of a link, and that it has not run before. -/
theorem Ok.task {E V X : Type u} {r : Except X V} {c : Callback E V X} {l : Link E V X}
    (hl : l.Ok r c) {task : Nat} {t : Submission E (Except X V) (Callback E V X)}
    (hran : task ∉ l.ran) (ht : l.shared.submitted[task]? = some t) :
    task = 0 ∧ l.ran = [] ∧ t = ⟨l.shared.state.executor, some c, some r⟩ ∧
      l.shared.consumer.called = true := by
  rcases hl.shared.submitted with hsub | ⟨hsub, -, hconsumer⟩
  · simp [hsub] at ht
  · obtain rfl : task = 0 := by
      rw [hsub] at ht
      have := (List.getElem?_eq_some_iff.mp ht).1
      simpa using this
    have hr : l.ran = [] := by
      rcases hl.ran with hr | ⟨hr, -⟩
      · exact hr
      · simp [hr] at hran
    refine ⟨rfl, hr, ?_, ?_⟩
    · simpa [hsub, eq_comm] using ht
    · cases hq : l.shared.consumer <;> simp_all [SetCallback.written, SetCallback.called]

theorem Ok.submitted_executor {E V X : Type u} {r : Except X V} {c : Callback E V X}
    {l : Link E V X} (hl : l.Ok r c) {t : Submission E (Except X V) (Callback E V X)}
    (ht : t ∈ l.shared.submitted) :
    t.executor = l.shared.state.executor ∧ l.shared.consumer.called = true := by
  rcases hl.shared.submitted with hnil | ⟨hsub, -, hconsumer⟩
  · simp [hnil] at ht
  · rw [hsub, List.mem_singleton] at ht
    subst ht
    refine ⟨rfl, ?_⟩
    cases hq : l.shared.consumer <;> simp_all [SetCallback.written, SetCallback.called]

theorem Ok.attached_of_run {E V X : Type u} {r : Except X V} {c : Callback E V X}
    {l : Link E V X} (hl : l.Ok r c) (h : l.hasRun = true) : l.shared.consumer.called = true := by
  rcases hl.ran with hran | ⟨-, hsub⟩
  · simp [Link.hasRun, hran] at h
  · rcases hl.shared.submitted with hnil | ⟨-, -, hconsumer⟩
    · exact absurd hnil hsub
    · cases hq : l.shared.consumer <;> simp_all [SetCallback.written, SetCallback.called]

theorem Ok.run {E V X : Type u} {r : Except X V} {c : Callback E V X} {l : Link E V X}
    (hl : l.Ok r c) {t : Submission E (Except X V) (Callback E V X)}
    (ht : l.shared.submitted[0]? = some t) : ({ l with ran := [0] } : Link E V X).Ok r c := by
  refine ⟨hl.shared, .inr ⟨rfl, fun hnil => ?_⟩⟩
  have hnil : l.shared.submitted = [] := hnil
  simp [hnil] at ht

/-- A link whose two calls have returned has submitted its task. -/
theorem Ok.submitted {E V X : Type u} {r : Except X V} {c : Callback E V X} {l : Link E V X}
    (hl : l.Ok r c) (hp : l.shared.producer = .returned) (hq : l.shared.consumer = .returned) :
    ∃ t, l.shared.submitted[0]? = some t := by
  rw [hl.shared.returned hp hq]
  exact ⟨_, rfl⟩

end Link

/-! The building of the chain. -/

/-- The number of links with a callback attached, for a chain of `n` stages. -/
def Attach.position {E V X : Type u} (n : Nat) : Attach E V X → Nat
  | .stages _ k => k
  | .setCallback _ k => k + 1
  | .subscribe k => k + 1
  | .returned => n + 1

def Attach.remaining {E V X : Type u} : Attach E V X → Nat
  | .stages rest _ => 2 * rest.length + 2
  | .setCallback rest _ => 2 * rest.length + 3
  | .subscribe _ => 1
  | .returned => 0

/-- The link on which the attaching thread is inside `SetCallback`. -/
def Attach.inCall {E V X : Type u} : Attach E V X → Option Nat
  | .setCallback _ k | .subscribe k => some k
  | _ => none

/-- What is still to be attached, and with which executor it will start. -/
def Attach.Ahead {E V X : Type u} (cs : List (Continuation E V X)) (es : List E)
    (links : Nat → Option (Link E V X)) : Attach E V X → Prop
  | .stages rest k => k ≤ cs.length ∧ thens rest = cs.drop k ∧
      ∃ l, links k = some l ∧ executors rest l.shared.state.executor = es.drop k
  | .setCallback rest k => k < cs.length ∧ thens rest = cs.drop (k + 1) ∧
      ∃ l, links (k + 1) = some l ∧ executors rest l.shared.state.executor = es.drop (k + 1)
  | .subscribe k => k = cs.length
  | .returned => True

structure Links {E V X : Type u} (cs : List (Continuation E V X)) (es : List E)
    (r : Except X V) (attach : Attach E V X) (links : Nat → Option (Link E V X)) : Prop where
  made : ∀ k, (links k).isSome ↔ k ≤ attach.position cs.length ∧ k ≤ cs.length
  ok : ∀ k l, links k = some l → l.Ok (fold (cs.take k) r) (lambda cs k)
  attached : ∀ k l, links k = some l →
    (l.shared.consumer.called = true ↔ k < attach.position cs.length)
  executor : ∀ k l, links k = some l → k < attach.position cs.length →
    es[k]? = some l.shared.state.executor
  returned : ∀ k l, links k = some l → k < attach.position cs.length →
    attach.inCall ≠ some k → l.shared.consumer = .returned
  ahead : attach.Ahead cs es links

theorem update_cases {α : Type u} {f : Nat → Option α} {k j : Nat} {a b : α}
    (h : Function.update f k (some a) j = some b) : j = k ∧ b = a ∨ j ≠ k ∧ f j = some b := by
  by_cases hj : j = k
  · subst hj
    exact .inl ⟨rfl, by simpa [eq_comm] using h⟩
  · exact .inr ⟨hj, by simpa [hj] using h⟩

theorem drop_eq_cons {α : Type u} {xs ys : List α} {a : α} {k : Nat}
    (h : a :: ys = xs.drop k) : k < xs.length ∧ xs[k]? = some a ∧ ys = xs.drop (k + 1) := by
  have hlt : k < xs.length := by
    by_contra hge
    simp [List.drop_eq_nil_of_le (Nat.le_of_not_lt hge)] at h
  rw [List.drop_eq_getElem_cons hlt] at h
  obtain ⟨rfl, rfl⟩ := List.cons.inj h
  exact ⟨hlt, List.getElem?_eq_getElem hlt, rfl⟩

namespace Links

/-- A link is replaced by one whose call of `SetCallback` is where it was. -/
theorem update {E V X : Type u} {cs : List (Continuation E V X)} {es : List E}
    {r : Except X V} {attach : Attach E V X} {links : Nat → Option (Link E V X)}
    (hs : Links cs es r attach links) {k : Nat} {l l' : Link E V X} (hl : links k = some l)
    (hok : l'.Ok (fold (cs.take k) r) (lambda cs k))
    (hattached : l'.shared.consumer.called = l.shared.consumer.called)
    (hexecutor : l'.shared.state.executor = l.shared.state.executor)
    (hreturned : attach.inCall ≠ some k → l.shared.consumer = .returned →
      l'.shared.consumer = .returned) :
    Links cs es r attach (Function.update links k (some l')) := by
  have executor_at {j : Nat} {m : Link E V X} (hm : links j = some m) :
      ∃ m', Function.update links k (some l') j = some m' ∧
        m'.shared.state.executor = m.shared.state.executor := by
    by_cases hj : j = k
    · subst hj
      obtain rfl : l = m := by simpa [hl] using hm
      exact ⟨l', by simp, hexecutor⟩
    · exact ⟨m, by simpa [hj] using hm, rfl⟩
  refine ⟨fun j => ?_, fun j m hm => ?_, fun j m hm => ?_, fun j m hm hlt => ?_,
    fun j m hm hlt hcall => ?_, ?_⟩
  · by_cases hj : j = k
    · subst hj
      simpa [hl] using hs.made j
    · simpa [hj] using hs.made j
  · rcases update_cases hm with ⟨rfl, rfl⟩ | ⟨-, hm⟩
    · exact hok
    · exact hs.ok j m hm
  · rcases update_cases hm with ⟨rfl, rfl⟩ | ⟨-, hm⟩
    · rw [hattached]
      exact hs.attached j l hl
    · exact hs.attached j m hm
  · rcases update_cases hm with ⟨rfl, rfl⟩ | ⟨-, hm⟩
    · rw [hexecutor]
      exact hs.executor j l hl hlt
    · exact hs.executor j m hm hlt
  · rcases update_cases hm with ⟨rfl, rfl⟩ | ⟨-, hm⟩
    · exact hreturned hcall (hs.returned j l hl hlt hcall)
    · exact hs.returned j m hm hlt hcall
  · have hahead := hs.ahead
    cases attach with
    | stages rest j =>
      obtain ⟨hle, hthens, m, hm, hes⟩ := hahead
      obtain ⟨m', hm', he⟩ := executor_at hm
      exact ⟨hle, hthens, m', hm', by rw [he, hes]⟩
    | setCallback rest j =>
      obtain ⟨hlt, hthens, m, hm, hes⟩ := hahead
      obtain ⟨m', hm', he⟩ := executor_at hm
      exact ⟨hlt, hthens, m', hm', by rw [he, hes]⟩
    | subscribe j => exact hahead
    | returned => trivial

theorem notCalled {E V X : Type u} {cs : List (Continuation E V X)} {es : List E}
    {r : Except X V} {rest : List (Stage E V X)} {k : Nat}
    {links : Nat → Option (Link E V X)} (hs : Links cs es r (.stages rest k) links)
    {l : Link E V X} (hl : links k = some l) : l.shared.consumer = .notCalled := by
  have hcalled := hs.attached k l hl
  simp only [Attach.position, Nat.lt_irrefl, iff_false, Bool.not_eq_true] at hcalled
  cases hq : l.shared.consumer <;> simp_all [SetCallback.called]

theorem via {E V X : Type u} {cs : List (Continuation E V X)} {es : List E} {r : Except X V}
    {rest : List (Stage E V X)} {e : E} {k : Nat} {links : Nat → Option (Link E V X)}
    (hs : Links cs es r (.stages (.via e :: rest) k) links) {l : Link E V X}
    (hl : links k = some l) :
    Links cs es r (.stages rest k) (Function.update links k
      (some { l with shared := { l.shared with state := l.shared.state.setExecutor e } })) := by
  have hq := hs.notCalled hl
  obtain ⟨hle, hthens, m, hm, hes⟩ := hs.ahead
  refine ⟨fun j => ?_, fun j m hm => ?_, fun j m hm => ?_, fun j m hm hlt => ?_,
    fun j m hm hlt hcall => ?_, ⟨hle, hthens, _, Function.update_self .., hes⟩⟩
  · by_cases hj : j = k
    · subst hj
      simpa [hl, Attach.position] using hs.made j
    · simpa [hj, Attach.position] using hs.made j
  · rcases update_cases hm with ⟨rfl, rfl⟩ | ⟨-, hm⟩
    · exact ⟨(hs.ok j l hl).shared.setExecutor hq e, (hs.ok j l hl).ran⟩
    · exact hs.ok j m hm
  · rcases update_cases hm with ⟨rfl, rfl⟩ | ⟨-, hm⟩
    · exact hs.attached j l hl
    · exact hs.attached j m hm
  · rcases update_cases hm with ⟨rfl, rfl⟩ | ⟨-, hm⟩
    · exact absurd hlt (Nat.lt_irrefl j)
    · exact hs.executor j m hm hlt
  · rcases update_cases hm with ⟨rfl, rfl⟩ | ⟨-, hm⟩
    · exact absurd hlt (Nat.lt_irrefl j)
    · exact hs.returned j m hm hlt (by simp [Attach.inCall])

/-- The callback of link `k` starts to be attached; `extra` says which links the
step creates besides. -/
theorem call {E V X : Type u} {cs : List (Continuation E V X)} {es : List E} {r : Except X V}
    {rest : List (Stage E V X)} {k : Nat} {links : Nat → Option (Link E V X)}
    (hs : Links cs es r (.stages rest k) links) {l : Link E V X} (hl : links k = some l)
    (hes : es[k]? = some l.shared.state.executor) {attach : Attach E V X}
    {links' : Nat → Option (Link E V X)} (hposition : attach.position cs.length = k + 1)
    (hcall : attach.inCall = some k)
    (hlinks : ∀ j, j ≤ k → links' j = Function.update links k (some (l.callback (lambda cs k))) j)
    (hmade : ∀ j, k < j → ((links' j).isSome ↔ j = k + 1 ∧ j ≤ cs.length))
    (hnew : ∀ j m, k < j → links' j = some m → ∃ e, m = Link.new e)
    (hahead : attach.Ahead cs es links') : Links cs es r attach links' := by
  have hq := hs.notCalled hl
  have hk := (hs.made k).mp (by simp [hl])
  have fresh {j : Nat} {m : Link E V X} (hj : k < j) (hm : links' j = some m) :
      m.Ok (fold (cs.take j) r) (lambda cs j) ∧ m.shared.consumer.called = false := by
    obtain ⟨e, rfl⟩ := hnew j m hj hm
    exact ⟨.new e _ _, rfl⟩
  have old {j : Nat} {m : Link E V X} (hj : j ≤ k) (hm : links' j = some m) :
      j = k ∧ m = l.callback (lambda cs k) ∨ j ≠ k ∧ links j = some m := by
    rw [hlinks j hj] at hm
    exact update_cases hm
  refine ⟨fun j => ?_, fun j m hm => ?_, fun j m hm => ?_, fun j m hm hlt => ?_,
    fun j m hm hlt hne => ?_, hahead⟩
  · rcases Nat.lt_or_ge k j with hj | hj
    · rw [hmade j hj, hposition]
      omega
    · have hmade := hs.made j
      simp only [Attach.position] at hmade hk
      rw [hlinks j hj, hposition]
      by_cases hjk : j = k
      · subst hjk
        simp [hk.2]
      · rw [Function.update_of_ne hjk, hmade]
        omega
  · rcases Nat.lt_or_ge k j with hj | hj
    · exact (fresh hj hm).1
    · rcases old hj hm with ⟨rfl, rfl⟩ | ⟨-, hm⟩
      · exact (hs.ok j l hl).callback hq
      · exact hs.ok j m hm
  · rw [hposition]
    rcases Nat.lt_or_ge k j with hj | hj
    · simp only [(fresh hj hm).2, Bool.false_eq_true, false_iff]
      omega
    · rcases old hj hm with ⟨rfl, rfl⟩ | ⟨hjk, hm⟩
      · simp [Link.callback, SetCallback.called]
      · rw [hs.attached j m hm, Attach.position]
        omega
  · rw [hposition] at hlt
    rcases old (by omega) hm with ⟨rfl, rfl⟩ | ⟨hjk, hm⟩
    · exact hes
    · exact hs.executor j m hm (by simp only [Attach.position]; omega)
  · rw [hposition] at hlt
    rcases old (by omega) hm with ⟨rfl, rfl⟩ | ⟨hjk, hm⟩
    · exact absurd hcall hne
    · exact hs.returned j m hm (by simp only [Attach.position]; omega) (by simp [Attach.inCall])

theorem none_of_lt {E V X : Type u} {cs : List (Continuation E V X)} {es : List E}
    {r : Except X V} {rest : List (Stage E V X)} {k : Nat} {links : Nat → Option (Link E V X)}
    (hs : Links cs es r (.stages rest k) links) {j : Nat} (hj : k < j) : links j = none := by
  have hmade := hs.made j
  simp only [Attach.position] at hmade
  rw [← Option.not_isSome_iff_eq_none, hmade]
  omega

theorem callFinal {E V X : Type u} {cs : List (Continuation E V X)} {es : List E} {r : Except X V}
    {k : Nat} {links : Nat → Option (Link E V X)} (hs : Links cs es r (.stages [] k) links)
    {l : Link E V X} (hl : links k = some l) :
    Links cs es r (.subscribe k) (Function.update links k (some (l.callback .final))) := by
  obtain ⟨hle, hthens, m, hm, hes⟩ := hs.ahead
  obtain rfl := Option.some.inj (hl.symm.trans hm)
  obtain ⟨-, he, -⟩ := drop_eq_cons hes
  have hk : k = cs.length := by
    have := List.drop_eq_nil_iff.mp hthens.symm
    omega
  have hlambda : lambda cs k = .final := by simp [lambda, hk]
  have hbeyond {j : Nat} (hj : k < j) :
      Function.update links k (some (l.callback .final)) j = none := by
    rw [Function.update_of_ne (by omega), hs.none_of_lt hj]
  refine hs.call hl he rfl rfl (fun j _ => ?_) (fun j hj => ?_) (fun j m hj hm => ?_) hk
  · rw [hlambda]
  · simp only [hbeyond hj, Option.isSome_none, Bool.false_eq_true, false_iff]
    omega
  · simp [hbeyond hj] at hm

theorem callThen {E V X : Type u} {cs : List (Continuation E V X)} {es : List E} {r : Except X V}
    {rest : List (Stage E V X)} {c : Continuation E V X} {k : Nat}
    {links : Nat → Option (Link E V X)} (hs : Links cs es r (.stages (.then_ c :: rest) k) links)
    {l : Link E V X} (hl : links k = some l) :
    Links cs es r (.setCallback rest k)
      (Function.update (Function.update links k (some (l.callback (.then_ c (k + 1))))) (k + 1)
        (some (.new l.shared.state.getExecutor))) := by
  obtain ⟨-, hthens, m, hm, hes⟩ := hs.ahead
  obtain rfl := Option.some.inj (hl.symm.trans hm)
  obtain ⟨hlt, hc, hrest⟩ := drop_eq_cons hthens
  obtain ⟨-, he, hes⟩ := drop_eq_cons hes
  have hlambda : lambda cs k = .then_ c (k + 1) := by simp [lambda, hc]
  have hbeyond {j : Nat} (hj : k < j) (hne : j ≠ k + 1) :
      Function.update (Function.update links k (some (l.callback (.then_ c (k + 1))))) (k + 1)
        (some (.new l.shared.state.getExecutor)) j = none := by
    rw [Function.update_of_ne hne, Function.update_of_ne (by omega), hs.none_of_lt hj]
  refine hs.call hl he rfl rfl (fun j hj => ?_) (fun j hj => ?_) (fun j m hj hm => ?_)
    ⟨hlt, hrest, _, Function.update_self .., hes⟩
  · rw [hlambda, Function.update_of_ne (by omega)]
  · by_cases hne : j = k + 1
    · subst hne
      simp only [Function.update_self, Option.isSome_some, true_and, true_iff]
      omega
    · rw [hbeyond hj hne]
      simp [hne]
  · rcases update_cases hm with ⟨rfl, rfl⟩ | ⟨hne, -⟩
    · exact ⟨_, rfl⟩
    · rw [hbeyond hj hne] at hm
      cases hm

/-- `SetCallback` on link `k` has returned. -/
theorem goOn {E V X : Type u} {cs : List (Continuation E V X)} {es : List E} {r : Except X V}
    {attach attach' : Attach E V X} {links : Nat → Option (Link E V X)}
    (hs : Links cs es r attach links) {k : Nat} {l : Link E V X} (hl : links k = some l)
    (hq : l.shared.consumer = .returned) (hcall : attach.inCall = some k)
    (hposition : attach'.position cs.length = attach.position cs.length)
    (hahead : attach'.Ahead cs es links) : Links cs es r attach' links := by
  refine ⟨fun j => ?_, hs.ok, fun j m hm => ?_, fun j m hm hlt => ?_, fun j m hm hlt _ => ?_,
    hahead⟩
  · rw [hposition]
    exact hs.made j
  · rw [hposition]
    exact hs.attached j m hm
  · rw [hposition] at hlt
    exact hs.executor j m hm hlt
  · rw [hposition] at hlt
    by_cases hjk : j = k
    · subst hjk
      obtain rfl : l = m := by simpa [hl] using hm
      exact hq
    · exact hs.returned j m hm hlt (by simpa [hcall] using Ne.symm hjk)

end Links

/-! The flow of results along the chain. -/

def ranOf {E V X : Type u} (links : Nat → Option (Link E V X)) (k : Nat) : Bool :=
  (links k).any Link.hasRun

def calledOf {E V X : Type u} (links : Nat → Option (Link E V X)) (k : Nat) : Bool :=
  (links k).any fun l => l.shared.producer.called

theorem ranOf_update {E V X : Type u} (links : Nat → Option (Link E V X)) (k : Nat)
    (l : Link E V X) : ranOf (Function.update links k (some l)) =
      Function.update (ranOf links) k l.hasRun := by
  funext j
  by_cases hj : j = k
  · subst hj
    simp [ranOf]
  · simp [ranOf, hj]

theorem calledOf_update {E V X : Type u} (links : Nat → Option (Link E V X)) (k : Nat)
    (l : Link E V X) : calledOf (Function.update links k (some l)) =
      Function.update (calledOf links) k l.shared.producer.called := by
  funext j
  by_cases hj : j = k
  · subst hj
    simp [calledOf]
  · simp [calledOf, hj]

theorem ranOf_eq {E V X : Type u} {links : Nat → Option (Link E V X)} {k : Nat} {l l' : Link E V X}
    (hl : links k = some l) (h : l'.ran = l.ran) :
    ranOf (Function.update links k (some l')) = ranOf links := by
  have heq : l'.hasRun = ranOf links k := by simp [ranOf, hl, Link.hasRun, h]
  rw [ranOf_update, heq, Function.update_eq_self]

theorem calledOf_eq {E V X : Type u} {links : Nat → Option (Link E V X)} {k : Nat}
    {l l' : Link E V X} (hl : links k = some l)
    (h : l'.shared.producer.called = l.shared.producer.called) :
    calledOf (Function.update links k (some l')) = calledOf links := by
  have heq : l'.shared.producer.called = calledOf links k := by simp [calledOf, hl, h]
  rw [calledOf_update, heq, Function.update_eq_self]

/-- The future returned by a continuation, subscribed to link `p`. -/
structure InnerOk {E V X : Type u} (d : Deferred E V X) (p : Nat) (l : Link E V X) : Prop where
  ok : l.Ok d.result (.forward p)
  called : l.shared.producer.called = true
  attached : l.shared.consumer.called = true

/-- Between the task of a link and the resolution of the next, for a stage with
continuation `c`, upstream result `r` and downstream link `p`. -/
inductive Handoff {E V X : Type u} (c : Continuation E V X) (r : Except X V) (p : Nat)
    (ran : Bool) (inner : Option (Link E V X)) (called : Bool) (count : Nat) : Prop where
  | waiting : ran = false → inner = none → called = false → count = 0 →
      Handoff c r p ran inner called count
  | deferred (d : Deferred E V X) (l : Link E V X) : ran = true → c.deferred r = some d →
      inner = some l → InnerOk d p l → l.ran = [] → called = false → count = 1 →
      Handoff c r p ran inner called count
  | resolved : ran = true → called = true →
      (∀ l, inner = some l → l.ran = [0] ∧ ∃ d, InnerOk d p l) →
      count = (if r.toBool then 1 else 0) → Handoff c r p ran inner called count

structure Flow {E V X : Type u} (cs : List (Continuation E V X)) (r : Except X V)
    (originCalled : Bool) (ran called : Nat → Bool) (inners : Nat → Option (Link E V X))
    (invoked : List Nat) (finals : List (Except X V)) : Prop where
  origin : called 0 = originCalled
  handoff : ∀ k c, cs[k]? = some c → Handoff c (fold (cs.take k) r) (k + 1) (ran k)
    (inners (k + 1)) (called (k + 1)) (invoked.count (k + 1))
  inner : ∀ p l, inners p = some l → ∃ k, k < cs.length ∧ p = k + 1
  finals : finals = if ran cs.length then [fold cs r] else []

/-- Links whose tasks and promises are where they were. -/
theorem Flow.of_links {E V X : Type u} {cs : List (Continuation E V X)} {r : Except X V}
    {o : Bool} {links links' inners : Nat → Option (Link E V X)} {invoked : List Nat}
    {finals : List (Except X V)}
    (h : Flow cs r o (ranOf links) (calledOf links) inners invoked finals)
    (hran : ranOf links' = ranOf links) (hcalled : calledOf links' = calledOf links) :
    Flow cs r o (ranOf links') (calledOf links') inners invoked finals := by
  rw [hran, hcalled]
  exact h

namespace Flow

theorem callsOrigin {E V X : Type u} {cs : List (Continuation E V X)} {r : Except X V}
    {o : Bool} {ran called : Nat → Bool} {inners : Nat → Option (Link E V X)}
    {invoked : List Nat} {finals : List (Except X V)}
    (h : Flow cs r o ran called inners invoked finals) :
    Flow cs r true ran (Function.update called 0 true) inners invoked finals := by
  refine ⟨by simp, fun k c hc => ?_, h.inner, h.finals⟩
  simpa using h.handoff k c hc

/-- Before the task of link `k` runs, nothing has happened beyond it. -/
theorem waiting {E V X : Type u} {cs : List (Continuation E V X)} {r : Except X V}
    {o : Bool} {ran called : Nat → Bool} {inners : Nat → Option (Link E V X)}
    {invoked : List Nat} {finals : List (Except X V)}
    (h : Flow cs r o ran called inners invoked finals) {k : Nat} {c : Continuation E V X}
    (hc : cs[k]? = some c) (hran : ran k = false) :
    inners (k + 1) = none ∧ called (k + 1) = false ∧ invoked.count (k + 1) = 0 := by
  cases h.handoff k c hc with
  | waiting _ hinner hcalled hcount => exact ⟨hinner, hcalled, hcount⟩
  | deferred _ _ htrue | resolved htrue => simp [hran] at htrue

/-- The task of link `k` runs and resolves the next link itself. -/
theorem resolves {E V X : Type u} {cs : List (Continuation E V X)} {r : Except X V}
    {o : Bool} {ran called : Nat → Bool} {inners : Nat → Option (Link E V X)}
    {invoked : List Nat} {finals : List (Except X V)}
    (h : Flow cs r o ran called inners invoked finals) {k : Nat} {c : Continuation E V X}
    (hc : cs[k]? = some c) (hran : ran k = false) :
    Flow cs r o (Function.update ran k true) (Function.update called (k + 1) true) inners
      (invoked ++ if (fold (cs.take k) r).toBool then [k + 1] else []) finals := by
  obtain ⟨hinner, -, hcount⟩ := h.waiting hc hran
  have hk : k < cs.length := (List.getElem?_eq_some_iff.mp hc).1
  refine ⟨by simpa using h.origin, fun j c' hc' => ?_, h.inner, ?_⟩
  · by_cases hj : j = k
    · subst hj
      refine .resolved (by simp) (by simp) (by simp [hinner]) ?_
      rw [List.count_append, hcount]
      split <;> simp
    · have hcount' : (if (fold (cs.take k) r).toBool then [k + 1] else []).count (j + 1) = 0 := by
        split <;> simp [Ne.symm hj]
      simpa [hj, List.count_append, hcount'] using h.handoff j c' hc'
  · have hne : cs.length ≠ k := by omega
    simpa [hne] using h.finals

/-- The task of link `k` runs and gets a future, subscribed to the next link. -/
theorem defers {E V X : Type u} {cs : List (Continuation E V X)} {r : Except X V}
    {o : Bool} {ran called : Nat → Bool} {inners : Nat → Option (Link E V X)}
    {invoked : List Nat} {finals : List (Except X V)}
    (h : Flow cs r o ran called inners invoked finals) {k : Nat} {c : Continuation E V X}
    (hc : cs[k]? = some c) (hran : ran k = false) {d : Deferred E V X}
    (hd : c.deferred (fold (cs.take k) r) = some d) {l : Link E V X}
    (hl : InnerOk d (k + 1) l) (hlran : l.ran = []) :
    Flow cs r o (Function.update ran k true) called (Function.update inners (k + 1) (some l))
      (invoked ++ [k + 1]) finals := by
  obtain ⟨-, hcalled, hcount⟩ := h.waiting hc hran
  have hk : k < cs.length := (List.getElem?_eq_some_iff.mp hc).1
  refine ⟨h.origin, fun j c' hc' => ?_, fun p m hm => ?_, ?_⟩
  · by_cases hj : j = k
    · subst hj
      obtain rfl : c = c' := by simpa [hc] using hc'
      exact .deferred d l (by simp) hd (by simp) hl hlran hcalled
        (by rw [List.count_append, hcount]; simp)
    · have hcount' : [k + 1].count (j + 1) = 0 := by simp [Ne.symm hj]
      simpa [hj, List.count_append, hcount'] using h.handoff j c' hc'
  · rcases update_cases hm with ⟨rfl, -⟩ | ⟨-, hm⟩
    · exact ⟨k, hk, rfl⟩
    · exact h.inner p m hm
  · have hne : cs.length ≠ k := by omega
    simpa [hne] using h.finals

theorem innerMoves {E V X : Type u} {cs : List (Continuation E V X)} {r : Except X V}
    {o : Bool} {ran called : Nat → Bool} {inners : Nat → Option (Link E V X)}
    {invoked : List Nat} {finals : List (Except X V)}
    (h : Flow cs r o ran called inners invoked finals) {p : Nat} {l l' : Link E V X}
    (hl : inners p = some l) (hran : l'.ran = l.ran)
    (hok : ∀ d, InnerOk d p l → InnerOk d p l') :
    Flow cs r o ran called (Function.update inners p (some l')) invoked finals := by
  refine ⟨h.origin, fun k c hc => ?_, fun q m hm => ?_, h.finals⟩
  · by_cases hp : k + 1 = p
    · subst hp
      rw [Function.update_self]
      cases h.handoff k c hc with
      | waiting _ hinner => simp [hl] at hinner
      | deferred d m hran' hd hinner hm hmran hcalled hcount =>
        obtain rfl : l = m := by simpa [hl] using hinner
        exact .deferred d l' hran' hd rfl (hok d hm) (hran.trans hmran) hcalled hcount
      | resolved hran' hcalled hinner hcount =>
        obtain ⟨hlran, d, hd⟩ := hinner l hl
        refine .resolved hran' hcalled (fun m hm => ?_) hcount
        obtain rfl : l' = m := by simpa using hm
        exact ⟨hran.trans hlran, d, hok d hd⟩
    · simpa [hp] using h.handoff k c hc
  · rcases update_cases hm with ⟨rfl, -⟩ | ⟨-, hm⟩
    · exact h.inner q l hl
    · exact h.inner q m hm

/-- A returned future that has not run its task: link `p` waits for it. -/
theorem innerWaits {E V X : Type u} {cs : List (Continuation E V X)} {r : Except X V}
    {o : Bool} {ran called : Nat → Bool} {inners : Nat → Option (Link E V X)}
    {invoked : List Nat} {finals : List (Except X V)}
    (h : Flow cs r o ran called inners invoked finals) {k : Nat} {c : Continuation E V X}
    (hc : cs[k]? = some c) {l : Link E V X} (hl : inners (k + 1) = some l) :
    ran k = true ∧ ∃ d, InnerOk d (k + 1) l ∧
      (l.ran = [] → c.deferred (fold (cs.take k) r) = some d ∧ called (k + 1) = false) := by
  cases h.handoff k c hc with
  | waiting _ hinner => simp [hl] at hinner
  | deferred d m hran hd hinner hm _ hcalled =>
    obtain rfl : l = m := by simpa [hl] using hinner
    exact ⟨hran, d, hm, fun _ => ⟨hd, hcalled⟩⟩
  | resolved hran _ hinner =>
    obtain ⟨hlran, d, hd⟩ := hinner l hl
    exact ⟨hran, d, hd, fun hnil => by simp [hlran] at hnil⟩

/-- The returned future's task runs and resolves the link that waits for it. -/
theorem forwards {E V X : Type u} {cs : List (Continuation E V X)} {r : Except X V}
    {o : Bool} {ran called : Nat → Bool} {inners : Nat → Option (Link E V X)}
    {invoked : List Nat} {finals : List (Except X V)}
    (h : Flow cs r o ran called inners invoked finals) {k : Nat} {l l' : Link E V X}
    (hl : inners (k + 1) = some l) (hran : l.ran = []) (hran' : l'.ran = [0])
    (hok : ∀ d, InnerOk d (k + 1) l → InnerOk d (k + 1) l') :
    Flow cs r o ran (Function.update called (k + 1) true)
      (Function.update inners (k + 1) (some l')) invoked finals := by
  refine ⟨by simpa using h.origin, fun j c hc => ?_, fun q m hm => ?_, h.finals⟩
  · by_cases hj : j = k
    · subst hj
      rw [Function.update_self, Function.update_self]
      cases h.handoff j c hc with
      | waiting _ hinner => simp [hl] at hinner
      | deferred d m htrue hd hinner hm _ _ hcount =>
        obtain rfl : l = m := by simpa [hl] using hinner
        refine .resolved htrue rfl (fun m hm' => ?_) ?_
        · obtain rfl : l' = m := by simpa using hm'
          exact ⟨hran', d, hok d hm⟩
        · simp [hcount, deferred_toBool hd]
      | resolved _ _ hinner => simp [(hinner l hl).1] at hran
    · simpa [hj] using h.handoff j c hc
  · rcases update_cases hm with ⟨rfl, -⟩ | ⟨-, hm⟩
    · exact h.inner _ l hl
    · exact h.inner q m hm

theorem invoked_once {E V X : Type u} {cs : List (Continuation E V X)} {r : Except X V}
    {o : Bool} {ran called : Nat → Bool} {inners : Nat → Option (Link E V X)}
    {invoked : List Nat} {finals : List (Except X V)}
    (h : Flow cs r o ran called inners invoked finals) {k : Nat} {c : Continuation E V X}
    (hc : cs[k]? = some c) : invoked.count (k + 1) ≤ 1 ∧
      (invoked.count (k + 1) = 1 → (fold (cs.take k) r).toBool = true) := by
  cases h.handoff k c hc with
  | waiting _ _ _ hcount =>
    constructor
    · omega
    · omega
  | deferred d _ _ hd _ _ _ _ hcount => exact ⟨by omega, fun _ => deferred_toBool hd⟩
  | resolved _ _ _ hcount =>
    rw [hcount]
    split <;> simp_all

/-- The task of the last link calls the subscribed callback. -/
theorem finishes {E V X : Type u} {cs : List (Continuation E V X)} {r : Except X V}
    {o : Bool} {ran called : Nat → Bool} {inners : Nat → Option (Link E V X)}
    {invoked : List Nat} {finals : List (Except X V)}
    (h : Flow cs r o ran called inners invoked finals) (hran : ran cs.length = false) :
    Flow cs r o (Function.update ran cs.length true) called inners invoked
      (finals ++ [fold cs r]) := by
  refine ⟨h.origin, fun k c hc => ?_, h.inner, ?_⟩
  · have hk : k < cs.length := (List.getElem?_eq_some_iff.mp hc).1
    have hne : k ≠ cs.length := by omega
    simpa [hne] using h.handoff k c hc
  · simp [h.finals, hran]

end Flow

structure FutureChain.Inv {E V X : Type u} (origin : Origin E V X) (stages : List (Stage E V X))
    (s : FutureChain E V X) : Prop where
  links : Links (thens stages) (executors stages origin.executor) origin.result s.attach s.links
  flow : Flow (thens stages) origin.result s.originCalled (ranOf s.links) (calledOf s.links)
    s.inners s.invoked s.finals
  unviolated : s.violated = false

namespace FutureChain

/-- A link moves on, and the chain around it does not notice. -/
theorem Inv.setLink {E V X : Type u} {origin : Origin E V X} {stages : List (Stage E V X)}
    {s : FutureChain E V X} (hs : s.Inv origin stages) {k : Nat} {l l' : Link E V X}
    (hl : s.links k = some l) (hmoves : l.Moves l')
    (hok : l'.Ok (fold ((thens stages).take k) origin.result) (lambda (thens stages) k))
    (hreturned : s.attach.inCall ≠ some k → l.shared.consumer = .returned →
      l'.shared.consumer = .returned) : (s.setLink k l').Inv origin stages := by
  refine ⟨hs.links.update hl hok hmoves.attached hmoves.executor hreturned, ?_, hs.unviolated⟩
  exact hs.flow.of_links (ranOf_eq hl hmoves.ran) (calledOf_eq hl hmoves.produced)

theorem Inv.setResult {E V X : Type u} {origin : Origin E V X} {stages : List (Stage E V X)}
    {s : FutureChain E V X} (hs : s.Inv origin stages) {k : Nat} {l l' : Link E V X}
    (hl : s.links k = some l) (h : l.setResult = some l') :
    (s.setLink k l').Inv origin stages := by
  obtain ⟨hmoves, hconsumer⟩ := Link.setResult_moves h
  exact hs.setLink hl hmoves ((hs.links.ok k l hl).setResult h) fun _ hq => hconsumer.trans hq

theorem Inv.setCallback {E V X : Type u} {origin : Origin E V X} {stages : List (Stage E V X)}
    {s : FutureChain E V X} (hs : s.Inv origin stages) {k : Nat} {l l' : Link E V X}
    (hl : s.links k = some l) (hcall : s.attach.inCall = some k) (h : l.setCallback = some l') :
    (s.setLink k l').Inv origin stages := by
  obtain ⟨hmoves, -⟩ := Link.setCallback_moves h
  exact hs.setLink hl hmoves ((hs.links.ok k l hl).setCallback h) fun hne => absurd hcall hne

/-- A link that has just been made makes no difference to the flow. -/
theorem flow_new {E V X : Type u} (links : Nat → Option (Link E V X)) (k : Nat)
    (hk : links k = none) (e : E) :
    ranOf (Function.update links k (some (Link.new e))) = ranOf links ∧
      calledOf (Function.update links k (some (Link.new e))) = calledOf links := by
  have hran : (Link.new e : Link E V X).hasRun = ranOf links k := by simp [ranOf, hk]; rfl
  have hcalled : (Link.new e : Link E V X).shared.producer.called = calledOf links k := by
    simp [calledOf, hk]
    rfl
  constructor
  · rw [ranOf_update, hran, Function.update_eq_self]
  · rw [calledOf_update, hcalled, Function.update_eq_self]

theorem Inv.attachStep {E V X : Type u} {origin : Origin E V X} {stages : List (Stage E V X)}
    {s t : FutureChain E V X} (hs : s.Inv origin stages) (ht : s.attachStep = some t) :
    t.Inv origin stages := by
  obtain ⟨attach, originCalled, links, inners, invoked, finals, violated⟩ := s
  obtain ⟨hlinks, hflow, hv⟩ := hs
  simp only at hlinks hflow hv
  unfold FutureChain.attachStep at ht
  cases attach with
  | stages rest k =>
    obtain ⟨-, -, l, hl, -⟩ := hlinks.ahead
    cases rest with
    | nil =>
      simp only [hl, Option.map_some, Option.some.injEq] at ht
      subst ht
      exact ⟨hlinks.callFinal hl, hflow.of_links (ranOf_eq hl rfl) (calledOf_eq hl rfl), hv⟩
    | cons stage rest =>
      cases stage with
      | via e =>
        simp only [hl, Option.map_some, Option.some.injEq] at ht
        subst ht
        exact ⟨hlinks.via hl, hflow.of_links (ranOf_eq hl rfl) (calledOf_eq hl rfl), hv⟩
      | then_ c =>
        simp only [hl, Option.map_some, Option.some.injEq] at ht
        subst ht
        have hnone : Function.update links k (some (l.callback (.then_ c (k + 1)))) (k + 1) =
            none := by
          rw [Function.update_of_ne (by omega), hlinks.none_of_lt (Nat.lt_succ_self k)]
        obtain ⟨hran, hcalled⟩ := flow_new _ _ hnone l.shared.state.getExecutor
        exact ⟨hlinks.callThen hl, hflow.of_links (hran.trans (ranOf_eq hl rfl))
          (hcalled.trans (calledOf_eq hl rfl)), hv⟩
  | setCallback rest k =>
    obtain ⟨hlt, hthens, hahead⟩ := hlinks.ahead
    obtain ⟨l, hl⟩ := Option.isSome_iff_exists.mp ((hlinks.made k).mpr (by
      simp only [Attach.position]
      omega))
    simp only [hl, Option.bind_some] at ht
    split at ht
    · rename_i hq
      obtain rfl := Option.some.inj ht
      exact ⟨hlinks.goOn hl hq rfl rfl ⟨by omega, hthens, hahead⟩, hflow, hv⟩
    · obtain ⟨l', hl', rfl⟩ := Option.map_eq_some_iff.mp ht
      exact Inv.setCallback ⟨hlinks, hflow, hv⟩ hl rfl hl'
  | subscribe k =>
    have hk : k = (thens stages).length := hlinks.ahead
    obtain ⟨l, hl⟩ := Option.isSome_iff_exists.mp ((hlinks.made k).mpr (by
      simp only [Attach.position]
      omega))
    simp only [hl, Option.bind_some] at ht
    split at ht
    · rename_i hq
      obtain rfl := Option.some.inj ht
      exact ⟨hlinks.goOn hl hq rfl (by simp [Attach.position, hk]) trivial, hflow, hv⟩
    · obtain ⟨l', hl', rfl⟩ := Option.map_eq_some_iff.mp ht
      exact Inv.setCallback ⟨hlinks, hflow, hv⟩ hl rfl hl'
  | returned => simp at ht

/-! What the task of a `Then` does, by whether it gets a future to wait for. -/

theorem call_resolves {E V X : Type u} (s : FutureChain E V X) {c : Continuation E V X}
    {r : Except X V} (p : Nat) (hd : c.deferred r = none) :
    s.call (.then_ c p) r =
      ({ s with invoked := s.invoked ++ if r.toBool then [p] else [] }).resolve p
        (r.bind c.apply) := by
  cases r with
  | error e => cases c <;> simp [call, Except.bind, Except.toBool]
  | ok v =>
    cases c with
    | sync f => simp [call, invoke, Except.bind, Except.toBool, Continuation.apply]
    | async g =>
      cases hg : g v with
      | error e => simp [call, invoke, Except.bind, Except.toBool, Continuation.apply, hg]
      | ok d => simp [Continuation.deferred, hg, Except.toOption] at hd

theorem call_defers {E V X : Type u} (s : FutureChain E V X) {c : Continuation E V X}
    {r : Except X V} (p : Nat) {d : Deferred E V X} (hd : c.deferred r = some d) :
    s.call (.then_ c p) r = (s.invoke p).subscribeInner p d := by
  cases c with
  | sync f => cases r <;> simp [Continuation.deferred] at hd
  | async g =>
    cases r with
    | error e => simp [Continuation.deferred] at hd
    | ok v =>
      cases hg : g v with
      | error e => simp [Continuation.deferred, hg, Except.toOption] at hd
      | ok d' =>
        obtain rfl : d' = d := by simpa [Continuation.deferred, hg, Except.toOption] using hd
        simp [call, hg]

/-- The link downstream of one that has a callback exists. -/
theorem Inv.downstream {E V X : Type u} {origin : Origin E V X} {stages : List (Stage E V X)}
    {s : FutureChain E V X} (hs : s.Inv origin stages) {k : Nat} {l : Link E V X}
    (hl : s.links k = some l) (hattached : l.shared.consumer.called = true)
    (hk : k < (thens stages).length) : ∃ m, s.links (k + 1) = some m := by
  have hlt := (hs.links.attached k l hl).mp hattached
  exact Option.isSome_iff_exists.mp ((hs.links.made (k + 1)).mpr ⟨hlt, hk⟩)

theorem Inv.downstream_of_ran {E V X : Type u} {origin : Origin E V X}
    {stages : List (Stage E V X)} {s : FutureChain E V X} (hs : s.Inv origin stages) {k : Nat}
    (hran : ranOf s.links k = true) (hk : k < (thens stages).length) :
    ∃ m, s.links (k + 1) = some m := by
  cases hl : s.links k with
  | none => simp [ranOf, hl] at hran
  | some l =>
    rw [ranOf, hl, Option.any_some] at hran
    exact hs.downstream hl ((hs.links.ok k l hl).attached_of_run hran) hk

theorem resolve_eq {E V X : Type u} {s : FutureChain E V X} {p : Nat} {m : Link E V X}
    (hm : s.links p = some m) (hcalled : calledOf s.links p = false) (r : Except X V) :
    m.shared.producer = .notCalled ∧ s.resolve p r = s.setLink p (m.resolve r) := by
  have hproducer : m.shared.producer = .notCalled := by
    simp only [calledOf, hm, Option.any_some] at hcalled
    cases hp : m.shared.producer <;> simp_all [SetResult.called]
  exact ⟨hproducer, by simp [resolve, hm, hproducer]⟩

/-- A promise is set for the first time. -/
theorem Inv.resolve {E V X : Type u} {origin : Origin E V X} {stages : List (Stage E V X)}
    {s : FutureChain E V X} {p : Nat}
    (hlinks : Links (thens stages) (executors stages origin.executor) origin.result s.attach
      s.links) (hcalled : calledOf s.links p = false) (hv : s.violated = false)
    {m : Link E V X} (hm : s.links p = some m)
    (hflow : Flow (thens stages) origin.result s.originCalled (ranOf s.links)
      (Function.update (calledOf s.links) p true) s.inners s.invoked s.finals) :
    (s.resolve p (fold ((thens stages).take p) origin.result)).Inv origin stages := by
  obtain ⟨hproducer, hresolve⟩ :=
    resolve_eq hm hcalled (fold ((thens stages).take p) origin.result)
  rw [hresolve]
  refine ⟨hlinks.update hm ((hlinks.ok p m hm).resolve hproducer) rfl rfl fun _ hq => hq, ?_, hv⟩
  have hran : ranOf (s.setLink p (m.resolve (fold ((thens stages).take p) origin.result))).links =
      ranOf s.links := ranOf_eq hm rfl
  have hupdate : calledOf (s.setLink p (m.resolve (fold ((thens stages).take p)
      origin.result))).links = Function.update (calledOf s.links) p true := calledOf_update ..
  rw [← hran, ← hupdate] at hflow
  exact hflow

theorem Inv.run {E V X : Type u} {origin : Origin E V X} {stages : List (Stage E V X)}
    {s : FutureChain E V X} (hs : s.Inv origin stages) {k task : Nat} {l : Link E V X}
    (hl : s.links k = some l) (hran : task ∉ l.ran)
    {t : Submission E (Except X V) (Callback E V X)} (ht : l.shared.submitted[task]? = some t) :
    ((s.setLink k { l with ran := l.ran ++ [task] }).runTask t).Inv origin stages := by
  have hok := hs.links.ok k l hl
  obtain ⟨rfl, hnil, htask, hattached⟩ := hok.task hran ht
  rw [hnil, List.nil_append]
  have hlinks := hs.links.update hl (hok.run ht) rfl rfl fun _ hq => hq
  have hranof : ranOf s.links k = false := by simp [ranOf, hl, Link.hasRun, hnil]
  have hranof' : ranOf (s.setLink k { l with ran := [0] }).links =
      Function.update (ranOf s.links) k true := ranOf_update ..
  have hcalledof : calledOf (s.setLink k { l with ran := [0] }).links = calledOf s.links :=
    calledOf_eq hl rfl
  have hcall : (s.setLink k { l with ran := [0] }).runTask t =
      (s.setLink k { l with ran := [0] }).call (lambda (thens stages) k)
        (fold ((thens stages).take k) origin.result) := by
    rw [htask]
    rfl
  rw [hcall]
  cases hc : (thens stages)[k]? with
  | none =>
    have hk : k = (thens stages).length := by
      have hle := ((hs.links.made k).mp (by simp [hl])).2
      have := List.getElem?_eq_none_iff.mp hc
      omega
    have hlambda : lambda (thens stages) k = .final := by simp [lambda, hc]
    rw [hlambda]
    subst hk
    rw [List.take_length]
    refine ⟨hlinks, ?_, hs.unviolated⟩
    have hflow := hs.flow.finishes hranof
    rw [← hranof', ← hcalledof] at hflow
    exact hflow
  | some c =>
    have hk : k < (thens stages).length := (List.getElem?_eq_some_iff.mp hc).1
    have hlambda : lambda (thens stages) k = .then_ c (k + 1) := by simp [lambda, hc]
    obtain ⟨m, hm⟩ := hs.downstream hl hattached hk
    obtain ⟨-, hcalled, -⟩ := hs.flow.waiting hc hranof
    rw [hlambda]
    cases hd : c.deferred (fold ((thens stages).take k) origin.result) with
    | none =>
      rw [call_resolves _ _ hd, ← fold_take_succ hc]
      have hm' : (s.setLink k { l with ran := [0] }).links (k + 1) = some m := by
        have hne : k + 1 ≠ k := by omega
        exact (Function.update_of_ne hne _ _).trans hm
      have hflow := hs.flow.resolves hc hranof
      rw [← hranof', ← hcalledof] at hflow
      rw [← hcalledof] at hcalled
      exact Inv.resolve (s := { s.setLink k { l with ran := [0] } with
        invoked := s.invoked ++ if (fold ((thens stages).take k) origin.result).toBool then
          [k + 1] else [] }) hlinks hcalled hs.unviolated hm' hflow
    | some d =>
      rw [call_defers _ _ hd]
      refine ⟨hlinks, ?_, hs.unviolated⟩
      have hinner : InnerOk d (k + 1)
          (((Link.new d.executor).resolve d.result).callback (.forward (k + 1))) :=
        ⟨((Link.Ok.new d.executor d.result (.forward (k + 1))).resolve rfl).callback rfl, rfl, rfl⟩
      have hflow := hs.flow.defers hc hranof hd hinner rfl
      rw [← hranof', ← hcalledof] at hflow
      exact hflow

theorem Inv.runInner {E V X : Type u} {origin : Origin E V X} {stages : List (Stage E V X)}
    {s : FutureChain E V X} (hs : s.Inv origin stages) {p task : Nat} {l : Link E V X}
    (hl : s.inners p = some l) (hran : task ∉ l.ran)
    {t : Submission E (Except X V) (Callback E V X)} (ht : l.shared.submitted[task]? = some t) :
    ((s.setInner p { l with ran := l.ran ++ [task] }).runTask t).Inv origin stages := by
  obtain ⟨k, hk, rfl⟩ := hs.flow.inner p l hl
  have hc : (thens stages)[k]? = some (thens stages)[k] := List.getElem?_eq_getElem hk
  obtain ⟨hranof, d, hinner, hwaits⟩ := hs.flow.innerWaits hc hl
  obtain ⟨rfl, hnil, htask, -⟩ := hinner.ok.task hran ht
  obtain ⟨hd, hcalled⟩ := hwaits hnil
  rw [hnil, List.nil_append]
  have hresult : d.result = fold ((thens stages).take (k + 1)) origin.result := by
    rw [fold_take_succ hc, apply_deferred hd]
  have hcall : (s.setInner (k + 1) { l with ran := [0] }).runTask t =
      (s.setInner (k + 1) { l with ran := [0] }).resolve (k + 1)
        (fold ((thens stages).take (k + 1)) origin.result) := by
    rw [htask, ← hresult]
    rfl
  rw [hcall]
  obtain ⟨m, hm⟩ := hs.downstream_of_ran hranof hk
  have hran : ({ l with ran := [0] } : Link E V X).ran = [0] := rfl
  have hflow := hs.flow.forwards hl hnil hran fun e he =>
    ⟨he.ok.run ht, he.called, he.attached⟩
  exact Inv.resolve (s := s.setInner (k + 1) { l with ran := [0] }) hs.links hcalled hs.unviolated
    hm hflow


theorem Inv.callOrigin {E V X : Type u} {origin : Origin E V X} {stages : List (Stage E V X)}
    {s : FutureChain E V X} (hs : s.Inv origin stages) (ho : s.originCalled = false) :
    ({ s.resolve 0 origin.result with originCalled := true } : FutureChain E V X).Inv origin
      stages := by
  obtain ⟨m, hm⟩ := Option.isSome_iff_exists.mp
    ((hs.links.made 0).mpr ⟨Nat.zero_le _, Nat.zero_le _⟩)
  have hcalled : calledOf s.links 0 = false := hs.flow.origin.trans ho
  have hstart := Inv.resolve (s := { s with originCalled := true }) hs.links hcalled
    hs.unviolated hm hs.flow.callsOrigin
  have hm' : ({ s with originCalled := true } : FutureChain E V X).links 0 = some m := hm
  rw [(resolve_eq hm hcalled _).2]
  rw [(resolve_eq hm' hcalled _).2] at hstart
  exact hstart

theorem Inv.innerMoves {E V X : Type u} {origin : Origin E V X} {stages : List (Stage E V X)}
    {s : FutureChain E V X} (hs : s.Inv origin stages) {p : Nat} {l l' : Link E V X}
    (hl : s.inners p = some l) (h : l.setResult = some l' ∨ l.setCallback = some l') :
    (s.setInner p l').Inv origin stages := by
  have hmoves : l.Moves l' := by
    rcases h with h | h
    · exact (Link.setResult_moves h).1
    · exact (Link.setCallback_moves h).1
  refine ⟨hs.links, hs.flow.innerMoves hl hmoves.ran fun d hd => ?_, hs.unviolated⟩
  refine ⟨?_, hmoves.produced.trans hd.called, hmoves.attached.trans hd.attached⟩
  rcases h with h | h
  · exact hd.ok.setResult h
  · exact hd.ok.setCallback h

theorem Inv.step {E V X : Type u} {origin : Origin E V X} {stages : List (Stage E V X)}
    {s t : FutureChain E V X} (hs : s.Inv origin stages) {l : ChainLabel}
    (ht : s.step origin l = some t) : t.Inv origin stages := by
  cases l with
  | attach => exact hs.attachStep ht
  | origin =>
    simp only [FutureChain.step] at ht
    cases ho : s.originCalled with
    | true => simp [ho] at ht
    | false =>
      simp only [ho, Bool.false_eq_true, if_false, Option.some.injEq] at ht
      subst ht
      exact hs.callOrigin ho
  | setResult k =>
    simp only [FutureChain.step, Option.bind_eq_some_iff, Option.map_eq_some_iff] at ht
    obtain ⟨l, hl, l', hl', rfl⟩ := ht
    exact hs.setResult hl hl'
  | run k task =>
    simp only [FutureChain.step, Option.bind_eq_some_iff, Option.ite_none_left_eq_some,
      Option.map_eq_some_iff] at ht
    obtain ⟨l, hl, hran, t, hsub, rfl⟩ := ht
    exact hs.run hl hran hsub
  | innerSetResult p =>
    simp only [FutureChain.step, Option.bind_eq_some_iff, Option.map_eq_some_iff] at ht
    obtain ⟨l, hl, l', hl', rfl⟩ := ht
    exact hs.innerMoves hl (.inl hl')
  | innerSetCallback p =>
    simp only [FutureChain.step, Option.bind_eq_some_iff, Option.map_eq_some_iff] at ht
    obtain ⟨l, hl, l', hl', rfl⟩ := ht
    exact hs.innerMoves hl (.inr hl')
  | runInner p task =>
    simp only [FutureChain.step, Option.bind_eq_some_iff, Option.ite_none_left_eq_some,
      Option.map_eq_some_iff] at ht
    obtain ⟨l, hl, hran, t, hsub, rfl⟩ := ht
    exact hs.runInner hl hran hsub

theorem init_links {E V X : Type u} (e : E) (r : Except X V) (stages : List (Stage E V X)) :
    Links (thens stages) (executors stages e) r (.stages stages 0)
      (Function.update (fun _ => none) 0 (some (Link.new e))) := by
  have only {k : Nat} {l : Link E V X}
      (hl : Function.update (fun _ : Nat => none) 0 (some (Link.new e)) k = some l) :
      k = 0 ∧ l = Link.new e := by
    rcases update_cases hl with h | ⟨-, h⟩
    · exact h
    · simp at h
  refine ⟨fun k => ?_, fun k l hl => ?_, fun k l hl => ?_, fun k l hl hlt => ?_,
    fun k l hl hlt => ?_, ⟨Nat.zero_le _, rfl, _, Function.update_self .., rfl⟩⟩
  · by_cases hk : k = 0
    · simp [hk]
    · simp [hk, Attach.position]
  · obtain ⟨rfl, rfl⟩ := only hl
    exact .new e _ _
  · obtain ⟨rfl, rfl⟩ := only hl
    simp [Attach.position, Link.new, SetCallback.called]
  · exact absurd hlt (Nat.not_lt_zero k)
  · exact absurd hlt (Nat.not_lt_zero k)

theorem init_flow {E V X : Type u} (cs : List (Continuation E V X)) (e : E) (r : Except X V) :
    Flow cs r false
      (ranOf (Function.update (fun _ : Nat => none) 0 (some (Link.new e : Link E V X))))
      (calledOf (Function.update (fun _ : Nat => none) 0 (some (Link.new e : Link E V X))))
      (fun _ => none) [] [] := by
  obtain ⟨hran, hcalled⟩ := flow_new (fun _ : Nat => (none : Option (Link E V X))) 0 rfl e
  rw [hran, hcalled]
  exact ⟨rfl, fun k c _ => .waiting rfl rfl rfl rfl, by simp, by simp [ranOf]⟩

theorem inv {E V X : Type u} {origin : Origin E V X} {stages : List (Stage E V X)}
    {s : FutureChain E V X} (h : (futureChain origin stages).Reachable s) :
    s.Inv origin stages := by
  apply h.invariant
  · exact ⟨init_links origin.executor origin.result stages,
      init_flow (thens stages) origin.executor origin.result, rfl⟩
  · intro s l t _ hs ht
    exact hs.step ht

/-! Every run ends: each call has a bounded number of steps, and each task runs
once. -/

def slot {E V X : Type u} : Option (Link E V X) → Nat
  | none => 20
  | some l => l.remaining

def remaining {E V X : Type u} (n : Nat) (s : FutureChain E V X) : Nat :=
  s.attach.remaining + (!s.originCalled).toNat +
    tally (Finset.range (n + 1)) slot s.links + tally (Finset.range (n + 1)) slot s.inners

theorem setLink_remaining_lt {E V X : Type u} {n : Nat} {s : FutureChain E V X} {k : Nat}
    {l : Link E V X} (hk : k ≤ n) (h : l.remaining < slot (s.links k)) :
    (s.setLink k l).remaining n < s.remaining n := by
  have hmem : k ∈ Finset.range (n + 1) := by simpa using Nat.lt_succ_of_le hk
  have := tally_update_lt slot s.links (a := some l) hmem h
  simp only [remaining, setLink]
  omega

theorem setLink_remaining_le {E V X : Type u} {n : Nat} {s : FutureChain E V X} {k : Nat}
    {l : Link E V X} (h : l.remaining ≤ slot (s.links k)) :
    (s.setLink k l).remaining n ≤ s.remaining n := by
  have := tally_update_le slot s.links (s := Finset.range (n + 1)) (a := some l) h
  simp only [remaining, setLink]
  omega

theorem setInner_remaining_lt {E V X : Type u} {n : Nat} {s : FutureChain E V X} {p : Nat}
    {l : Link E V X} (hp : p ≤ n) (h : l.remaining < slot (s.inners p)) :
    (s.setInner p l).remaining n < s.remaining n := by
  have hmem : p ∈ Finset.range (n + 1) := by simpa using Nat.lt_succ_of_le hp
  have := tally_update_lt slot s.inners (a := some l) hmem h
  simp only [remaining, setInner]
  omega

theorem setInner_remaining_le {E V X : Type u} {n : Nat} {s : FutureChain E V X} {p : Nat}
    {l : Link E V X} (h : l.remaining ≤ slot (s.inners p)) :
    (s.setInner p l).remaining n ≤ s.remaining n := by
  have := tally_update_le slot s.inners (s := Finset.range (n + 1)) (a := some l) h
  simp only [remaining, setInner]
  omega

theorem resolve_remaining_le {E V X : Type u} (n : Nat) (s : FutureChain E V X) (p : Nat)
    (r : Except X V) : (s.resolve p r).remaining n ≤ s.remaining n := by
  unfold FutureChain.resolve
  cases hm : s.links p with
  | none => exact Nat.le_refl _
  | some m =>
    cases hp : m.shared.producer with
    | notCalled =>
      simp only [hp]
      apply setLink_remaining_le
      simp [slot, hm, Link.remaining, Link.resolve, hp, SetResult.remaining]
    | _ =>
      simp only [hp]
      exact Nat.le_refl _

theorem call_remaining_le {E V X : Type u} (n : Nat) {s : FutureChain E V X}
    {c : Callback E V X} (r : Except X V)
    (hinner : ∀ f p, c = .then_ f p → s.inners p = none) :
    (s.call c r).remaining n ≤ s.remaining n := by
  cases c with
  | final => exact Nat.le_refl _
  | forward p => exact resolve_remaining_le n s p r
  | then_ f p =>
    cases hd : f.deferred r with
    | none =>
      rw [call_resolves s p hd]
      exact resolve_remaining_le ..
    | some d =>
      rw [call_defers s p hd]
      apply setInner_remaining_le (s := s.invoke p)
      simp [slot, invoke, hinner f p rfl, Link.remaining, Link.new, Link.resolve, Link.callback,
        SetResult.remaining, SetCallback.remaining]

/-- Running a task lowers what is left of its link, and the callback adds
nothing. -/
theorem Inv.run_remaining {E V X : Type u} {origin : Origin E V X} {stages : List (Stage E V X)}
    {s : FutureChain E V X} (hs : s.Inv origin stages) {k task : Nat} {l : Link E V X}
    (hl : s.links k = some l) (hran : task ∉ l.ran)
    {t : Submission E (Except X V) (Callback E V X)} (ht : l.shared.submitted[task]? = some t) :
    ((s.setLink k { l with ran := l.ran ++ [task] }).runTask t).remaining (thens stages).length <
      s.remaining (thens stages).length := by
  obtain ⟨rfl, hnil, htask, -⟩ := (hs.links.ok k l hl).task hran ht
  rw [hnil, List.nil_append]
  have hlt : (s.setLink k { l with ran := [0] }).remaining (thens stages).length <
      s.remaining (thens stages).length := by
    apply setLink_remaining_lt ((hs.links.made k).mp (by simp [hl])).2
    simp [slot, hl, Link.remaining, hnil]
  refine Nat.lt_of_le_of_lt ?_ hlt
  subst htask
  apply call_remaining_le
  intro f p hc
  cases hf : (thens stages)[k]? with
  | none => simp [lambda, hf] at hc
  | some c =>
    obtain ⟨-, rfl⟩ : c = f ∧ k + 1 = p := by simpa [lambda, hf] using hc
    exact (hs.flow.waiting hf (by simp [ranOf, hl, Link.hasRun, hnil])).1

theorem Inv.runInner_remaining {E V X : Type u} {origin : Origin E V X}
    {stages : List (Stage E V X)} {s : FutureChain E V X} (hs : s.Inv origin stages)
    {p task : Nat} {l : Link E V X} (hl : s.inners p = some l) (hran : task ∉ l.ran)
    {t : Submission E (Except X V) (Callback E V X)} (ht : l.shared.submitted[task]? = some t) :
    ((s.setInner p { l with ran := l.ran ++ [task] }).runTask t).remaining
      (thens stages).length < s.remaining (thens stages).length := by
  obtain ⟨k, hk, rfl⟩ := hs.flow.inner p l hl
  have hc : (thens stages)[k]? = some (thens stages)[k] := List.getElem?_eq_getElem hk
  obtain ⟨-, d, hinner, -⟩ := hs.flow.innerWaits hc hl
  obtain ⟨rfl, hnil, htask, -⟩ := hinner.ok.task hran ht
  rw [hnil, List.nil_append]
  have hlt : (s.setInner (k + 1) { l with ran := [0] }).remaining (thens stages).length <
      s.remaining (thens stages).length := by
    apply setInner_remaining_lt hk
    simp [slot, hl, Link.remaining, hnil]
  refine Nat.lt_of_le_of_lt ?_ hlt
  subst htask
  exact resolve_remaining_le ..

theorem attach_lt {E V X : Type u} {n : Nat} {s t : FutureChain E V X} {attach : Attach E V X}
    (hlt : attach.remaining < s.attach.remaining) (hattach : t.attach = s.attach)
    (h : t.remaining n ≤ s.remaining n) :
    ({ t with attach := attach } : FutureChain E V X).remaining n < s.remaining n := by
  simp only [remaining, hattach] at h ⊢
  omega

theorem Inv.setCallback_remaining {E V X : Type u} {origin : Origin E V X}
    {stages : List (Stage E V X)} {s : FutureChain E V X} (hs : s.Inv origin stages) {k : Nat}
    {l l' : Link E V X} (hl : s.links k = some l) (h : l.setCallback = some l') :
    (s.setLink k l').remaining (thens stages).length < s.remaining (thens stages).length := by
  apply setLink_remaining_lt ((hs.links.made k).mp (by simp [hl])).2
  rw [hl]
  exact (Link.setCallback_moves h).1.remaining

theorem Inv.attach_remaining {E V X : Type u} {origin : Origin E V X}
    {stages : List (Stage E V X)} {s t : FutureChain E V X} (hs : s.Inv origin stages)
    (ht : s.attachStep = some t) :
    t.remaining (thens stages).length < s.remaining (thens stages).length := by
  unfold FutureChain.attachStep at ht
  cases hattach : s.attach with
  | stages rest k =>
    have hlinks := hs.links
    rw [hattach] at hlinks
    obtain ⟨-, -, l, hl, -⟩ := hlinks.ahead
    have hq := hlinks.notCalled hl
    have hcallback (c : Callback E V X) : (l.callback c).remaining ≤ slot (s.links k) := by
      simp [hl, slot, Link.callback, Link.remaining, hq, SetCallback.remaining]
    cases rest with
    | nil =>
      simp only [hattach, hl, Option.map_some, Option.some.injEq] at ht
      subst ht
      exact attach_lt (by simp [hattach, Attach.remaining]) rfl
        (setLink_remaining_le (hcallback _))
    | cons stage rest =>
      cases stage with
      | via e =>
        simp only [hattach, hl, Option.map_some, Option.some.injEq] at ht
        subst ht
        refine attach_lt (by simp [hattach, Attach.remaining]) rfl (setLink_remaining_le ?_)
        rw [hl]
        exact Nat.le_refl _
      | then_ c =>
        simp only [hattach, hl, Option.map_some, Option.some.injEq] at ht
        subst ht
        have hmade := (hlinks.made (k + 1)).not.mpr (by
          simp only [Attach.position]
          omega)
        rw [Option.not_isSome_iff_eq_none] at hmade
        refine attach_lt (by simp [hattach, Attach.remaining]; omega) rfl
          (Nat.le_trans (setLink_remaining_le ?_) (setLink_remaining_le (hcallback _)))
        simp [FutureChain.setLink, hmade, slot, Link.new, Link.remaining,
          SetResult.remaining, SetCallback.remaining]
  | setCallback rest k =>
    simp only [hattach, Option.bind_eq_some_iff] at ht
    obtain ⟨l, hl, ht⟩ := ht
    split at ht
    · obtain rfl := Option.some.inj ht
      exact attach_lt (by simp [hattach, Attach.remaining]) rfl (Nat.le_refl _)
    · obtain ⟨l', hl', rfl⟩ := Option.map_eq_some_iff.mp ht
      exact hs.setCallback_remaining hl hl'
  | subscribe k =>
    simp only [hattach, Option.bind_eq_some_iff] at ht
    obtain ⟨l, hl, ht⟩ := ht
    split at ht
    · obtain rfl := Option.some.inj ht
      exact attach_lt (by simp [hattach, Attach.remaining]) rfl (Nat.le_refl _)
    · obtain ⟨l', hl', rfl⟩ := Option.map_eq_some_iff.mp ht
      exact hs.setCallback_remaining hl hl'
  | returned => simp [hattach] at ht

theorem Inv.step_remaining {E V X : Type u} {origin : Origin E V X} {stages : List (Stage E V X)}
    {s t : FutureChain E V X} (hs : s.Inv origin stages) {l : ChainLabel}
    (ht : s.step origin l = some t) :
    t.remaining (thens stages).length < s.remaining (thens stages).length := by
  cases l with
  | attach => exact hs.attach_remaining ht
  | origin =>
    simp only [FutureChain.step] at ht
    cases ho : s.originCalled with
    | true => simp [ho] at ht
    | false =>
      simp only [ho, Bool.false_eq_true, if_false, Option.some.injEq] at ht
      subst ht
      have hle := resolve_remaining_le (thens stages).length s 0 origin.result
      have hsame : (s.resolve 0 origin.result).originCalled = false := by
        rw [← ho]
        unfold FutureChain.resolve
        split
        · rfl
        · split <;> rfl
      simp only [remaining, hsame, ho, Bool.not_false, Bool.not_true, Bool.toNat_true,
        Bool.toNat_false] at hle ⊢
      omega
  | setResult k =>
    simp only [FutureChain.step, Option.bind_eq_some_iff, Option.map_eq_some_iff] at ht
    obtain ⟨l, hl, l', hl', rfl⟩ := ht
    apply setLink_remaining_lt ((hs.links.made k).mp (by simp [hl])).2
    rw [hl]
    exact (Link.setResult_moves hl').1.remaining
  | run k task =>
    simp only [FutureChain.step, Option.bind_eq_some_iff, Option.ite_none_left_eq_some,
      Option.map_eq_some_iff] at ht
    obtain ⟨l, hl, hran, t, hsub, rfl⟩ := ht
    exact hs.run_remaining hl hran hsub
  | innerSetResult p =>
    simp only [FutureChain.step, Option.bind_eq_some_iff, Option.map_eq_some_iff] at ht
    obtain ⟨l, hl, l', hl', rfl⟩ := ht
    obtain ⟨k, hk, rfl⟩ := hs.flow.inner p l hl
    apply setInner_remaining_lt hk
    rw [hl]
    exact (Link.setResult_moves hl').1.remaining
  | innerSetCallback p =>
    simp only [FutureChain.step, Option.bind_eq_some_iff, Option.map_eq_some_iff] at ht
    obtain ⟨l, hl, l', hl', rfl⟩ := ht
    obtain ⟨k, hk, rfl⟩ := hs.flow.inner p l hl
    apply setInner_remaining_lt hk
    rw [hl]
    exact (Link.setCallback_moves hl').1.remaining
  | runInner p task =>
    simp only [FutureChain.step, Option.bind_eq_some_iff, Option.ite_none_left_eq_some,
      Option.map_eq_some_iff] at ht
    obtain ⟨l, hl, hran, t, hsub, rfl⟩ := ht
    exact hs.runInner_remaining hl hran hsub

/-! What a run that cannot go on has reached. -/

theorem setCallback_none {E V X : Type u} {l : Link E V X}
    (hcalled : l.shared.consumer.called = true) (h : l.setCallback = none) :
    l.shared.consumer = .returned := by
  by_contra hne
  have hnot : l.shared.consumer ≠ .notCalled := fun hnot => by
    simp [hnot, SetCallback.called] at hcalled
  have hsome := Rendezvous.setCallback_isSome hnot hne
  simp only [Link.setCallback, Option.map_eq_none_iff] at h
  simp [h] at hsome

theorem setResult_none {E V X : Type u} {l : Link E V X}
    (hcalled : l.shared.producer.called = true) (h : l.setResult = none) :
    l.shared.producer = .returned := by
  by_contra hne
  have hnot : l.shared.producer ≠ .notCalled := fun hnot => by
    simp [hnot, SetResult.called] at hcalled
  have hsome := Rendezvous.setResult_isSome hnot hne
  simp only [Link.setResult, Option.map_eq_none_iff] at h
  simp [h] at hsome

theorem Inv.attach_ended {E V X : Type u} {origin : Origin E V X} {stages : List (Stage E V X)}
    {s : FutureChain E V X} (hs : s.Inv origin stages) (h : s.attachStep = none) :
    s.attach = .returned := by
  have hlinks := hs.links
  unfold FutureChain.attachStep at h
  cases hattach : s.attach with
  | stages rest k =>
    rw [hattach] at hlinks
    obtain ⟨-, -, l, hl, -⟩ := hlinks.ahead
    cases rest with
    | nil => simp [hattach, hl] at h
    | cons stage rest => cases stage <;> simp [hattach, hl] at h
  | setCallback rest k =>
    rw [hattach] at hlinks
    obtain ⟨hlt, -, -⟩ := hlinks.ahead
    obtain ⟨l, hl⟩ := Option.isSome_iff_exists.mp ((hlinks.made k).mpr (by
      simp only [Attach.position]
      omega))
    have hcalled := (hlinks.attached k l hl).mpr (Nat.lt_succ_self k)
    simp only [hattach, hl, Option.bind_some] at h
    split at h
    · simp at h
    · rename_i hne
      exact absurd (setCallback_none hcalled (Option.map_eq_none_iff.mp h)) hne
  | subscribe k =>
    rw [hattach] at hlinks
    have hk : k = (thens stages).length := hlinks.ahead
    obtain ⟨l, hl⟩ := Option.isSome_iff_exists.mp ((hlinks.made k).mpr (by
      simp only [Attach.position]
      omega))
    have hcalled := (hlinks.attached k l hl).mpr (Nat.lt_succ_self k)
    simp only [hattach, hl, Option.bind_some] at h
    split at h
    · simp at h
    · rename_i hne
      exact absurd (setCallback_none hcalled (Option.map_eq_none_iff.mp h)) hne
  | returned => rfl

/-- A link whose calls have returned has its task run. -/
theorem hasRun_of_ended {E V X : Type u} {r : Except X V} {c : Callback E V X} {l : Link E V X}
    (hok : l.Ok r c) (hp : l.shared.producer = .returned) (hq : l.shared.consumer = .returned)
    (hrun : ∀ t, l.shared.submitted[0]? = some t → 0 ∈ l.ran) : l.ran = [0] := by
  obtain ⟨t, ht⟩ := hok.submitted hp hq
  rcases hok.ran with hnil | ⟨hran, -⟩
  · have := hrun t ht
    simp [hnil] at this
  · exact hran

theorem Inv.ran_of_ended {E V X : Type u} {origin : Origin E V X} {stages : List (Stage E V X)}
    {s : FutureChain E V X} (hs : s.Inv origin stages) (hend : ∀ l, s.step origin l = none)
    {k : Nat} (hk : k ≤ (thens stages).length) (hcalled : calledOf s.links k = true) :
    ranOf s.links k = true := by
  have hlinks := hs.links
  rw [hs.attach_ended (hend .attach)] at hlinks
  obtain ⟨l, hl⟩ := Option.isSome_iff_exists.mp ((hlinks.made k).mpr ⟨by
    simp only [Attach.position]
    omega, hk⟩)
  have hq := hlinks.returned k l hl (Nat.lt_succ_of_le hk) (by simp [Attach.inCall])
  have hp : l.shared.producer = .returned := by
    apply setResult_none
    · simpa [calledOf, hl] using hcalled
    · simpa [FutureChain.step, hl] using hend (.setResult k)
  have hran := hasRun_of_ended (hlinks.ok k l hl) hp hq fun t ht => by
    have hnone := hend (.run k 0)
    by_contra hmem
    simp [FutureChain.step, hl, hmem, ht] at hnone
  simp [ranOf, hl, Link.hasRun, hran]

/-- A task that has run has resolved the next link. -/
theorem Inv.called_of_ended {E V X : Type u} {origin : Origin E V X}
    {stages : List (Stage E V X)} {s : FutureChain E V X} (hs : s.Inv origin stages)
    (hend : ∀ l, s.step origin l = none) {k : Nat} {c : Continuation E V X}
    (hc : (thens stages)[k]? = some c) (hran : ranOf s.links k = true) :
    calledOf s.links (k + 1) = true ∧ s.invoked.count (k + 1) =
      if (fold ((thens stages).take k) origin.result).toBool then 1 else 0 := by
  cases hs.flow.handoff k c hc with
  | waiting hfalse => simp [hran] at hfalse
  | resolved _ hcalled _ hcount => exact ⟨hcalled, hcount⟩
  | deferred d l _ _ hl hinner hnil =>
    have hp : l.shared.producer = .returned := by
      apply setResult_none hinner.called
      simpa [FutureChain.step, hl] using hend (.innerSetResult (k + 1))
    have hq : l.shared.consumer = .returned := by
      apply setCallback_none hinner.attached
      simpa [FutureChain.step, hl] using hend (.innerSetCallback (k + 1))
    have hone := hasRun_of_ended hinner.ok hp hq fun t ht => by
      have hnone := hend (.runInner (k + 1) 0)
      by_contra hmem
      simp [FutureChain.step, hl, hmem, ht] at hnone
    simp [hnil] at hone

theorem Inv.all_called_of_ended {E V X : Type u} {origin : Origin E V X}
    {stages : List (Stage E V X)} {s : FutureChain E V X} (hs : s.Inv origin stages)
    (hend : ∀ l, s.step origin l = none) {k : Nat} (hk : k ≤ (thens stages).length) :
    calledOf s.links k = true := by
  induction k with
  | zero =>
    rw [hs.flow.origin]
    have hnone := hend .origin
    by_contra hne
    simp [FutureChain.step, hne] at hnone
  | succ k ih =>
    have hc : (thens stages)[k]? = some (thens stages)[k] := List.getElem?_eq_getElem hk
    have hran := hs.ran_of_ended hend (by omega) (ih (by omega))
    exact (hs.called_of_ended hend hc hran).1

theorem Inv.finals_of_ended {E V X : Type u} {origin : Origin E V X} {stages : List (Stage E V X)}
    {s : FutureChain E V X} (hs : s.Inv origin stages) (hend : ∀ l, s.step origin l = none) :
    s.finals = [fold (thens stages) origin.result] := by
  have hcalled := hs.all_called_of_ended hend (Nat.le_refl (thens stages).length)
  have hran := hs.ran_of_ended hend (Nat.le_refl _) hcalled
  rw [hs.flow.finals, hran, if_pos rfl]

end FutureChain

/-- Every run ends. Nothing is resolved twice; the subscribed callback gets the
fold, at most once and in a finished run exactly once; a continuation is called
at most once, only for a value, and in a finished run exactly for a value; each
link's task goes to the executor of the nearest `Via`. -/
theorem futureChain_fold {E V X : Type u} (origin : Origin E V X) (stages : List (Stage E V X)) :
    (∃ bound, ∀ ls s, (futureChain origin stages).exec (futureChain origin stages).init ls =
      some s → ls.length ≤ bound) ∧
    ∀ s, (futureChain origin stages).Reachable s →
      s.violated = false ∧
      (s.finals = [] ∨ s.finals = [fold (thens stages) origin.result]) ∧
      (∀ k, k < (thens stages).length → s.invoked.count (k + 1) ≤ 1 ∧
        (s.invoked.count (k + 1) = 1 →
          (fold ((thens stages).take k) origin.result).toBool = true)) ∧
      (∀ k l, s.links k = some l → ∀ t ∈ l.shared.submitted,
        (executors stages origin.executor)[k]? = some t.executor) ∧
      ((∀ l, (futureChain origin stages).step s l = none) →
        s.finals = [fold (thens stages) origin.result] ∧
        ∀ k, k < (thens stages).length → (s.invoked.count (k + 1) = 1 ↔
          (fold ((thens stages).take k) origin.result).toBool = true)) := by
  constructor
  · refine ⟨(futureChain origin stages).init.remaining (thens stages).length, fun ls s h => ?_⟩
    have hle := Machine.Reachable.exec_length_le (m := FutureChain.remaining (thens stages).length)
      (fun s l t hs ht => (FutureChain.inv hs).step_remaining ht) .init h
    omega
  · intro s h
    have hs := FutureChain.inv h
    refine ⟨hs.unviolated, ?_, fun k hk => ?_, fun k l hl t ht => ?_,
      fun hend => ⟨?_, fun k hk => ?_⟩⟩
    · rw [hs.flow.finals]
      split
      · exact .inr rfl
      · exact .inl rfl
    · exact hs.flow.invoked_once (List.getElem?_eq_getElem hk)
    · obtain ⟨he, hcalled⟩ := (hs.links.ok k l hl).submitted_executor ht
      rw [he]
      exact hs.links.executor k l hl ((hs.links.attached k l hl).mp hcalled)
    · exact hs.finals_of_ended hend
    · have hc : (thens stages)[k]? = some (thens stages)[k] := List.getElem?_eq_getElem hk
      have hcalled := hs.all_called_of_ended hend (Nat.le_of_lt hk)
      rw [(hs.called_of_ended hend hc (hs.ran_of_ended hend (Nat.le_of_lt hk) hcalled)).2]
      split <;> simp_all

/-- The chain is attached while the first task has not run, and the second
continuation returns a future on an executor of its own. -/
theorem futureChain_fold_deferred :
    ∃ s, (futureChain (.execute 5 fun _ => .ok 1 : Origin Nat Nat Nat)
      [.then_ (.sync fun v => .ok (v + 1)), .via 6,
        .then_ (.async fun v => .ok ⟨7, .ok (v * 10), true⟩)]).Reachable s ∧
      s.finals = [.ok 20] ∧ s.invoked = [1, 2] ∧ s.violated = false := by
  have h : (futureChain (.execute 5 fun _ => .ok 1 : Origin Nat Nat Nat)
      [.then_ (.sync fun v => .ok (v + 1)), .via 6,
        .then_ (.async fun v => .ok ⟨7, .ok (v * 10), true⟩)]).Reachable _ :=
    Machine.reachable_of_exec
      (List.flatten [List.replicate 16 .attach, .origin :: List.replicate 8 (.setResult 0),
        .run 0 0 :: List.replicate 8 (.setResult 1), .run 1 0 :: List.replicate 5 (.innerSetResult 2),
        List.replicate 8 (.innerSetCallback 2), .runInner 2 0 :: List.replicate 8 (.setResult 2),
        [.run 2 0]]) rfl
  exact ⟨_, h, rfl, rfl, ((futureChain_fold _ _).2 _ h).1⟩

end ConcurrentProgramming.Futures
