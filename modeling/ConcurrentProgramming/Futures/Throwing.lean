import ConcurrentProgramming.Futures.Recover
import ConcurrentProgramming.Interleaving.Stacks

/-!
Chains of `Then` and `Recover` whose callbacks may throw. Threads have call stacks,
an inline executor runs a task on the stack of the call that submits it, and an
exception unwinds the stack up to the nearest `try`.
-/

set_option autoImplicit false

namespace ConcurrentProgramming.Futures
open Interleaving

universe u

inductive ChainStage (E V X : Type u) where
  | via (executor : E)
  | then_ (continuation : Continuation E V X)
  | recover (handler : Handler V X)

/-- The lambdas passed to `SetCallback`, with the link whose promise they hold. -/
inductive Lambda (E V X : Type u) where
  | then_ (continuation : Continuation E V X) (promise : Nat)
  | recover (handler : Handler V X) (promise : Nat)
  | forward (promise : Nat)
  | final

/-- What a lambda does next: it sets its promise, inside or outside of its `try`, or
subscribes to the future `d` inside of it, and then returns; it returns at once;
or an exception leaves it. -/
inductive Action (E V X : Type u) where
  | set (promise : Nat) (result : Except X V) (tried : Bool)
  | subscribe (promise : Nat) (d : Deferred E V X)
  | finish
  | throw

/-- `SetValue` is called inside of the `try`, `SetError` outside of it. -/
def Lambda.call {E V X : Type u} (lib : ResultLibrary V X) (finalThrows : Except X V → Bool) :
    Lambda E V X → Except X V → Action E V X
  | .then_ (.sync f) p, val => .set p (val.bind f) (val.bind f).toBool
  | .then_ (.async g) p, val =>
    match val.bind g with
    | .ok d => .subscribe p d
    | .error e => .set p (.error e) false
  | .recover handler p, val =>
    match recoverLambda lib handler val with
    | some r => .set p r r.toBool
    | none => .throw
  | .forward p, val => .set p val false
  | .final, val => if finalThrows val then .throw else .finish

/-- Who sets the promise of the first link: the user, or the lambda of `futures::Execute`. -/
def Origin.action {E V X : Type u} : Origin E V X → Action E V X
  | .contract _ result => .set 0 result false
  | .execute _ func => .set 0 (func ()) (func ()).toBool

/-- A link of the chain, or the future that was returned by the continuation
that resolves link `p`. -/
inductive Place where
  | link (k : Nat)
  | inner (p : Nat)
  deriving DecidableEq, Repr

/-- A shared state and the submitted tasks that have been started. -/
structure Node (E V X : Type u) where
  shared : Rendezvous E (Except X V) (Lambda E V X)
  ran : List Nat

/-- A call that has not returned. `waiting` is the part of a lambda after the call
it makes, `tried` if that call is inside of a `try`. -/
inductive Frame (E V X : Type u) where
  | origin
  | call (lambda : Lambda E V X) (val : Except X V)
  | waiting (tried : Bool)
  | setResult (a : Place)
  | setCallback (a : Place)

/-- What the building thread has still to attach, from link `k` on. -/
inductive Attaching (E V X : Type u) where
  | stages (rest : List (ChainStage E V X)) (k : Nat)
  | subscribed

/-- Thread 0 builds the chain. `released` are the promises whose state has been
released, one entry for each time. -/
structure ThrowingChain (E V X : Type u) where
  attach : Attaching E V X
  nodes : Place → Option (Node E V X)
  threads : List (List (Frame E V X))
  released : List Nat
  thrown : Bool
  violated : Bool

inductive ThrowingLabel where
  | attach
  | thread (i : Nat)
  | run (a : Place) (task : Nat)
  deriving DecidableEq, Repr

def Node.new {E V X : Type u} (executor : E) : Node E V X :=
  ⟨⟨makeSharedState executor, .notCalled, .notCalled, []⟩, []⟩

def Node.callback {E V X : Type u} (n : Node E V X) (lambda : Lambda E V X) : Node E V X :=
  { n with shared := { n.shared with consumer := .writeCallback lambda } }

def Frame.tried {E V X : Type u} : Frame E V X → Bool
  | .waiting tried => tried
  | _ => false

namespace ThrowingChain

def setNode {E V X : Type u} (s : ThrowingChain E V X) (a : Place) (n : Node E V X) :
    ThrowingChain E V X := { s with nodes := Function.update s.nodes a (some n) }

def setThread {E V X : Type u} (s : ThrowingChain E V X) (i : Nat) (stack : List (Frame E V X)) :
    ThrowingChain E V X := { s with threads := s.threads.set i stack }

/-- `ReleaseState` checks that the promise still has its state. -/
def release {E V X : Type u} (s : ThrowingChain E V X) (p : Nat) (r : Except X V) :
    ThrowingChain E V X :=
  match s.nodes (.link p) with
  | none => { s with violated := true }
  | some n =>
    match n.shared.producer with
    | .notCalled =>
      { s.setNode (.link p) { n with shared := { n.shared with producer := .writeResult r } } with
        released := s.released ++ [p] }
    | _ => { s with violated := true }

/-- A `catch` calls `SetError` on a promise that has been moved from, so that
`ReleaseState` fails. The future `d` is resolved by a thread of its own. -/
def act {E V X : Type u} (s : ThrowingChain E V X) (i : Nat) (stack : List (Frame E V X)) :
    Action E V X → ThrowingChain E V X
  | .set p r tried =>
    (s.release p r).setThread i (.setResult (.link p) :: .waiting tried :: stack)
  | .subscribe p d =>
    { s.setNode (.inner p) ⟨⟨makeSharedState d.executor, .writeResult d.result,
        .writeCallback (.forward p), []⟩, []⟩ with
      threads := s.threads.set i (.setCallback (.inner p) :: .waiting true :: stack) ++
        [[.setResult (.inner p), .waiting d.tried]] }
  | .finish => s.setThread i stack
  | .throw =>
    { s.setThread i [] with thrown := true, violated := s.violated || stack.any Frame.tried }

/-- A call on `a` has gone on; if it has submitted a task to an inline executor,
the task is called on top of it. -/
def advance {E V X : Type u} (inline : E → Bool) (s : ThrowingChain E V X) (i : Nat)
    (frame : Frame E V X) (stack : List (Frame E V X)) (a : Place) (n : Node E V X)
    (shared : Rendezvous E (Except X V) (Lambda E V X)) : ThrowingChain E V X :=
  match shared.submitted[n.shared.submitted.length]? with
  | none => s.setNode a { n with shared := shared }
  | some t =>
    if inline t.executor then
      match t.callback, t.val with
      | some lambda, some val =>
        (s.setNode a ⟨shared, n.ran ++ [n.shared.submitted.length]⟩).setThread i
          (.call lambda val :: frame :: stack)
      | _, _ => { s with violated := true }
    else s.setNode a { n with shared := shared }

def frameStep {E V X : Type u} (lib : ResultLibrary V X) (finalThrows : Except X V → Bool)
    (inline : E → Bool) (origin : Origin E V X) (s : ThrowingChain E V X) (i : Nat)
    (stack : List (Frame E V X)) : Frame E V X → Option (ThrowingChain E V X)
  | .origin => some (s.act i stack origin.action)
  | .call lambda val => some (s.act i stack (lambda.call lib finalThrows val))
  | .waiting _ => some (s.setThread i stack)
  | .setResult a =>
    (s.nodes a).bind fun n =>
      match n.shared.producer with
      | .returned => some (s.setThread i stack)
      | _ => n.shared.setResult.map fun shared =>
        s.advance inline i (.setResult a) stack a n shared
  | .setCallback a =>
    (s.nodes a).bind fun n =>
      match n.shared.consumer with
      | .returned => some (s.setThread i stack)
      | _ => n.shared.setCallback.map fun shared =>
        s.advance inline i (.setCallback a) stack a n shared

/-- `Then` and `Recover` make the next link and attach their lambda to this one. -/
def attachLambda {E V X : Type u} (s : ThrowingChain E V X) (lambda : Lambda E V X)
    (rest : List (ChainStage E V X)) (k : Nat) : Option (ThrowingChain E V X) :=
  (s.nodes (.link k)).map fun n =>
    { ((s.setNode (.link k) (n.callback lambda)).setNode (.link (k + 1))
        (.new n.shared.state.getExecutor)).setThread 0 [.setCallback (.link k)] with
      attach := .stages rest (k + 1) }

/-- The building thread goes on when its last call has returned. -/
def attachStep {E V X : Type u} (s : ThrowingChain E V X) : Option (ThrowingChain E V X) :=
  match s.threads[0]? with
  | some [] =>
    match s.attach with
    | .stages (.via e :: rest) k =>
      (s.nodes (.link k)).map fun n =>
        { s.setNode (.link k)
            { n with shared := { n.shared with state := n.shared.state.setExecutor e } } with
          attach := .stages rest k }
    | .stages (.then_ c :: rest) k => s.attachLambda (.then_ c (k + 1)) rest k
    | .stages (.recover handler :: rest) k => s.attachLambda (.recover handler (k + 1)) rest k
    | .stages [] k =>
      (s.nodes (.link k)).map fun n =>
        { (s.setNode (.link k) (n.callback .final)).setThread 0 [.setCallback (.link k)] with
          attach := .subscribed }
    | .subscribed => none
  | _ => none

def step {E V X : Type u} (lib : ResultLibrary V X) (finalThrows : Except X V → Bool)
    (inline : E → Bool) (origin : Origin E V X) (s : ThrowingChain E V X) :
    ThrowingLabel → Option (ThrowingChain E V X)
  | .attach => s.attachStep
  | .thread i =>
    match s.threads[i]? with
    | some (frame :: stack) => s.frameStep lib finalThrows inline origin i stack frame
    | _ => none
  | .run a task =>
    (s.nodes a).bind fun n =>
      if task ∈ n.ran then none
      else n.shared.submitted[task]?.bind fun t =>
        if inline t.executor then none
        else match t.callback, t.val with
          | some lambda, some val =>
            some { s.setNode a { n with ran := n.ran ++ [task] } with
              threads := s.threads ++ [[.call lambda val]] }
          | _, _ => some { s with violated := true }

end ThrowingChain

/-- `futures::Execute` on an inline executor runs `func` before it returns. -/
def Origin.isInline {E V X : Type u} (inline : E → Bool) : Origin E V X → Bool
  | .contract _ _ => false
  | .execute executor _ => inline executor

def throwingChain {E V X : Type u} (lib : ResultLibrary V X) (finalThrows : Except X V → Bool)
    (inline : E → Bool) (origin : Origin E V X) (stages : List (ChainStage E V X)) :
    Machine (ThrowingChain E V X) ThrowingLabel where
  init := ⟨.stages stages 0,
    Function.update (fun _ => none) (.link 0) (some (.new origin.executor)),
    if origin.isInline inline then [[.origin]] else [[], [.origin]], [], false, false⟩
  step := ThrowingChain.step lib finalThrows inline origin

/-- The condition on a step: no exception leaves a lambda, except for the final
callback when no `try` is below it on the stack. -/
def ThrowingChain.quiet {E V X : Type u} (lib : ResultLibrary V X)
    (finalThrows : Except X V → Bool) (s : ThrowingChain E V X) : ThrowingLabel → Bool
  | .thread i =>
    match s.threads[i]? with
    | some (.call lambda val :: stack) =>
      match lambda, lambda.call lib finalThrows val with
      | .final, .throw => !stack.any Frame.tried
      | _, .throw => false
      | _, _ => true
    | _ => true
  | _ => true

/-! What is attached where. -/

def lambdas {E V X : Type u} : List (ChainStage E V X) → List (Nat → Lambda E V X)
  | [] => []
  | .via _ :: rest => lambdas rest
  | .then_ c :: rest => .then_ c :: lambdas rest
  | .recover handler :: rest => .recover handler :: lambdas rest

/-- The lambda of each shared state. -/
def lambdaOf {E V X : Type u} (stages : List (ChainStage E V X)) : Place → Lambda E V X
  | .link k =>
    match (lambdas stages)[k]? with
    | some lambda => lambda (k + 1)
    | none => .final
  | .inner p => .forward p

/-- A promise that is held by a lambda: of a stage, or forwarding to it. -/
inductive PromiseHolder where
  | stage (promise : Nat)
  | forward (promise : Nat)
  deriving DecidableEq, Repr

def Lambda.holder {E V X : Type u} : Lambda E V X → Option PromiseHolder
  | .then_ _ p | .recover _ p => some (.stage p)
  | .forward p => some (.forward p)
  | .final => none

def Frame.holder {E V X : Type u} : Frame E V X → Option PromiseHolder
  | .origin => some (.stage 0)
  | .call lambda _ => lambda.holder
  | _ => none

/-- The call on a shared state that a frame is. -/
def Frame.drives {E V X : Type u} : Frame E V X → Option (Party × Place)
  | .setResult a => some (.producer, a)
  | .setCallback a => some (.consumer, a)
  | _ => none

theorem lambdas_holder {E V X : Type u} {stages : List (ChainStage E V X)} :
    ∀ lambda ∈ lambdas stages, ∀ p, (lambda p).holder = some (.stage p) := by
  induction stages with
  | nil => simp [lambdas]
  | cons stage stages ih =>
    cases stage with
    | via e => exact ih
    | then_ c | recover h => exact List.forall_mem_cons.mpr ⟨fun _ => rfl, ih⟩

theorem lambdaOf_link {E V X : Type u} {stages : List (ChainStage E V X)} {k : Nat}
    (hk : k < (lambdas stages).length) :
    (lambdaOf stages (.link k)).holder = some (.stage (k + 1)) := by
  simp only [lambdaOf, List.getElem?_eq_getElem hk]
  exact lambdas_holder _ (List.getElem_mem hk) (k + 1)

theorem lambdaOf_last {E V X : Type u} {stages : List (ChainStage E V X)} {k : Nat}
    (hk : (lambdas stages).length ≤ k) : lambdaOf stages (.link k) = .final := by
  simp [lambdaOf, List.getElem?_eq_none hk]

structure NodeOk {E V X : Type u} (inline : E → Bool) (lambda : Lambda E V X) (n : Node E V X) :
    Prop where
  shared : ∃ r, n.shared.Inv r lambda
  ran : n.ran = [] ∨ n.ran = [0] ∧ n.shared.submitted ≠ []
  inline : ∀ t ∈ n.shared.submitted, inline t.executor = true → n.ran = [0]

namespace NodeOk

theorem length_le {E V X : Type u} {lambda : Lambda E V X} {r : Except X V}
    {v : Rendezvous E (Except X V) (Lambda E V X)} (hv : v.Inv r lambda) :
    v.submitted.length ≤ 1 := by
  rcases hv.submitted with h | ⟨h, -, -⟩ <;> simp [h]

/-- A call goes on, and its task, if it submits one, is not called at once. -/
theorem moves {E V X : Type u} {inline : E → Bool} {lambda : Lambda E V X} {n : Node E V X}
    (hn : NodeOk inline lambda n) {shared : Rendezvous E (Except X V) (Lambda E V X)}
    (hinv : ∀ r, n.shared.Inv r lambda → shared.Inv r lambda)
    (hsub : n.shared.submitted <+: shared.submitted)
    (hquiet : ∀ t, shared.submitted[n.shared.submitted.length]? = some t →
      inline t.executor = false) : NodeOk inline lambda { n with shared := shared } := by
  obtain ⟨r, hr⟩ := hn.shared
  refine ⟨⟨r, hinv r hr⟩, hn.ran.imp_right fun ⟨h, hne⟩ => ⟨h, hsub.ne_nil hne⟩, fun t ht hin => ?_⟩
  obtain ⟨new, hnew⟩ := hsub
  rw [← hnew] at ht
  rcases List.mem_append.mp ht with ht | ht
  · exact hn.inline t ht hin
  · cases new with
    | nil => cases ht
    | cons t' new =>
      have hle := length_le (hinv r hr)
      rw [← hnew] at hle hquiet
      simp only [List.length_append, List.length_cons] at hle
      obtain rfl : new = [] := List.eq_nil_of_length_eq_zero (by omega)
      obtain rfl := List.mem_singleton.mp ht
      have := hquiet t (by simp)
      rw [hin] at this
      cases this

/-- The task of a shared state is called. -/
theorem starts {E V X : Type u} {inline : E → Bool} {lambda : Lambda E V X} {n : Node E V X}
    (hn : NodeOk inline lambda n) {shared : Rendezvous E (Except X V) (Lambda E V X)}
    (hinv : ∀ r, n.shared.Inv r lambda → shared.Inv r lambda) {task : Nat}
    {t : Submission E (Except X V) (Lambda E V X)} (ht : shared.submitted[task]? = some t)
    (htask : task = n.shared.submitted.length ∨ task ∉ n.ran) :
    task = 0 ∧ n.ran = [] ∧ t.callback = some lambda ∧ (∃ val, t.val = some val) ∧
      NodeOk inline lambda ⟨shared, [0]⟩ := by
  obtain ⟨r, hr⟩ := hn.shared
  rcases (hinv r hr).submitted with hnil | ⟨hone, -, -⟩
  · simp [hnil] at ht
  · rw [hone, List.getElem?_singleton, Option.ite_none_right_eq_some] at ht
    obtain ⟨rfl, ht⟩ := ht
    obtain rfl := Option.some.inj ht
    have hnil : n.ran = [] := by
      rcases hn.ran with hnil | ⟨hran, hne⟩
      · exact hnil
      · rcases htask with hlen | hmem
        · exact absurd (List.eq_nil_of_length_eq_zero hlen.symm) hne
        · simp [hran] at hmem
    exact ⟨rfl, hnil, rfl, ⟨r, rfl⟩, ⟨r, hinv r hr⟩, .inr ⟨rfl, by simp [hone]⟩, fun _ _ _ => rfl⟩

/-- `SetResult` starts, with whatever result. -/
theorem resolves {E V X : Type u} {inline : E → Bool} {lambda : Lambda E V X} {n : Node E V X}
    (hn : NodeOk inline lambda n) (hp : n.shared.producer = .notCalled) (r : Except X V) :
    NodeOk inline lambda { n with shared := { n.shared with producer := .writeResult r } } := by
  obtain ⟨r', hr⟩ := hn.shared
  exact ⟨⟨r, (hr.result_any hp r).resolve hp⟩, hn.ran, hn.inline⟩

theorem callback {E V X : Type u} {inline : E → Bool} {lambda : Lambda E V X} {n : Node E V X}
    (hn : NodeOk inline lambda n) (hq : n.shared.consumer = .notCalled) :
    NodeOk inline lambda (n.callback lambda) := by
  obtain ⟨r, hr⟩ := hn.shared
  exact ⟨⟨r, hr.callback hq⟩, hn.ran, hn.inline⟩

theorem setExecutor {E V X : Type u} {inline : E → Bool} {lambda : Lambda E V X} {n : Node E V X}
    (hn : NodeOk inline lambda n) (hq : n.shared.consumer = .notCalled) (e : E) :
    NodeOk inline lambda
      { n with shared := { n.shared with state := n.shared.state.setExecutor e } } := by
  obtain ⟨r, hr⟩ := hn.shared
  exact ⟨⟨r, hr.setExecutor hq e⟩, hn.ran, hn.inline⟩

theorem new {E V X : Type u} (inline : E → Bool) (lambda : Lambda E V X) (e : E) (r : Except X V) :
    NodeOk inline lambda (.new e) := ⟨⟨r, Rendezvous.Inv.new e r lambda⟩, .inl rfl, nofun⟩

theorem called {E V X : Type u} {inline : E → Bool} {lambda : Lambda E V X} {n : Node E V X}
    (hn : NodeOk inline lambda n) (h : n.ran ≠ []) :
    n.shared.producer.called = true ∧ n.shared.consumer.called = true := by
  obtain ⟨r, hr⟩ := hn.shared
  obtain ⟨-, hne⟩ := hn.ran.resolve_left h
  obtain ⟨-, hp, hq⟩ := hr.submitted.resolve_left hne
  constructor
  · cases hpc : n.shared.producer <;> simp_all [SetResult.written, SetResult.called]
  · cases hpc : n.shared.consumer <;> simp_all [SetCallback.written, SetCallback.called]

end NodeOk

def Attaching.attached {E V X : Type u} (n : Nat) : Attaching E V X → Nat
  | .stages _ k => k
  | .subscribed => n + 1

/-- The shared states that are there, and what is attached to them. -/
structure Built {E V X : Type u} (inline : E → Bool) (stages : List (ChainStage E V X))
    (attach : Attaching E V X) (nodes : Place → Option (Node E V X)) : Prop where
  ahead : ∀ rest k, attach = .stages rest k →
    k ≤ (lambdas stages).length ∧ lambdas rest = (lambdas stages).drop k
  made : ∀ k, (nodes (.link k)).isSome ↔
    k ≤ (lambdas stages).length ∧ k ≤ attach.attached (lambdas stages).length
  ok : ∀ a n, nodes a = some n → NodeOk inline (lambdaOf stages a) n
  attached : ∀ k n, nodes (.link k) = some n → (n.shared.consumer.called = true ↔
    k < attach.attached (lambdas stages).length)
  inner : ∀ p n, nodes (.inner p) = some n → p ≤ (lambdas stages).length ∧
    n.shared.producer.called = true ∧ n.shared.consumer.called = true

namespace Built

section
variable {E V X : Type u} {inline : E → Bool} {stages : List (ChainStage E V X)}
  {attach : Attaching E V X} {nodes : Place → Option (Node E V X)}

theorem init (inline : E → Bool) (stages : List (ChainStage E V X)) (e : E) (r : Except X V) :
    Built inline stages (.stages stages 0)
      (Function.update (fun _ => none) (.link 0) (some (.new e))) := by
  refine ⟨fun rest k h => ?_, fun k => ?_, fun a m ha => ?_, fun k m hk => ?_, fun p m hm => ?_⟩
  · cases h
    exact ⟨Nat.zero_le _, rfl⟩
  · cases k <;> simp [Attaching.attached]
  · rcases eq_or_ne a (.link 0) with rfl | hne
    · obtain rfl : Node.new e = m := by simpa using ha
      exact .new inline _ e r
    · simp [hne] at ha
  · cases k with
    | zero =>
      obtain rfl : Node.new e = m := by simpa using hk
      simp [Node.new, SetCallback.called, Attaching.attached]
    | succ k => simp at hk
  · simp at hm

/-- A shared state moves on without a new callback. -/
theorem move (hs : Built inline stages attach nodes) {a : Place} {n n' : Node E V X}
    (ha : nodes a = some n) (hok : NodeOk inline (lambdaOf stages a) n')
    (hp : n.shared.producer.called = true → n'.shared.producer.called = true)
    (hq : n'.shared.consumer.called = n.shared.consumer.called) :
    Built inline stages attach (Function.update nodes a (some n')) := by
  refine ⟨hs.ahead, fun k => ?_, fun b m hb => ?_, fun k m hk => ?_, fun p m hm => ?_⟩
  · rw [← hs.made k]
    by_cases hk : .link k = a
    · simp [hk, ha]
    · simp [hk]
  · rcases eq_or_ne b a with rfl | hba
    · obtain rfl : n' = m := by simpa using hb
      exact hok
    · exact hs.ok b m (by simpa [hba] using hb)
  · by_cases hka : .link k = a
    · subst hka
      obtain rfl : n' = m := by simpa using hk
      rw [hq]
      exact hs.attached k n ha
    · exact hs.attached k m (by simpa [hka] using hk)
  · by_cases hpa : .inner p = a
    · subst hpa
      obtain rfl : n' = m := by simpa using hm
      obtain ⟨hle, hproducer, hconsumer⟩ := hs.inner p n ha
      exact ⟨hle, hp hproducer, hq.trans hconsumer⟩
    · exact hs.inner p m (by simpa [hpa] using hm)

/-- A continuation has returned a future. -/
theorem subscribe (hs : Built inline stages attach nodes) {p : Nat}
    (hp : p ≤ (lambdas stages).length) {n : Node E V X} (hok : NodeOk inline (.forward p) n)
    (hproducer : n.shared.producer.called = true) (hconsumer : n.shared.consumer.called = true) :
    Built inline stages attach (Function.update nodes (.inner p) (some n)) := by
  refine ⟨hs.ahead, fun k => ?_, fun b m hb => ?_, fun k m hk => ?_, fun q m hm => ?_⟩
  · simpa using hs.made k
  · rcases eq_or_ne b (.inner p) with rfl | hb'
    · obtain rfl : n = m := by simpa using hb
      exact hok
    · exact hs.ok b m (by simpa [hb'] using hb)
  · exact hs.attached k m (by simpa using hk)
  · rcases eq_or_ne q p with rfl | hq
    · obtain rfl : n = m := by simpa using hm
      exact ⟨hp, hproducer, hconsumer⟩
    · exact hs.inner q m (by simpa [hq] using hm)

theorem notCalled {rest : List (ChainStage E V X)} {k : Nat}
    (hs : Built inline stages (.stages rest k) nodes) {n : Node E V X}
    (hn : nodes (.link k) = some n) : n.shared.consumer = .notCalled := by
  have hcalled := hs.attached k n hn
  simp only [Attaching.attached, Nat.lt_irrefl, iff_false, Bool.not_eq_true] at hcalled
  cases hq : n.shared.consumer <;> simp_all [SetCallback.called]

theorem node {rest : List (ChainStage E V X)} {k : Nat}
    (hs : Built inline stages (.stages rest k) nodes) : ∃ n, nodes (.link k) = some n :=
  Option.isSome_iff_exists.mp ((hs.made k).mpr ⟨(hs.ahead rest k rfl).1, Nat.le_refl _⟩)

theorem next {rest : List (ChainStage E V X)} {k : Nat}
    (hs : Built inline stages (.stages rest k) nodes) : nodes (.link (k + 1)) = none := by
  have hmade := (hs.made (k + 1)).not.mpr (by simp [Attaching.attached])
  simpa using hmade

theorem via {rest : List (ChainStage E V X)} {k : Nat} {e : E}
    (hs : Built inline stages (.stages (.via e :: rest) k) nodes) {n : Node E V X}
    (hn : nodes (.link k) = some n) : Built inline stages (.stages rest k)
      (Function.update nodes (.link k) (some { n with
        shared := { n.shared with state := n.shared.state.setExecutor e } })) := by
  have hmove := hs.move hn ((hs.ok _ _ hn).setExecutor (hs.notCalled hn) e) id rfl
  refine ⟨fun rest' j h => ?_, hmove.made, hmove.ok, hmove.attached, hmove.inner⟩
  cases h
  exact hs.ahead (.via e :: rest) k rfl

/-- `SetCallback` starts on link `k`; `made` says which links are there then. -/
theorem call {rest : List (ChainStage E V X)} {k : Nat}
    (hs : Built inline stages (.stages rest k) nodes) {n : Node E V X}
    (hn : nodes (.link k) = some n) {attach' : Attaching E V X}
    {nodes' : Place → Option (Node E V X)}
    (hahead : ∀ rest k, attach' = .stages rest k →
      k ≤ (lambdas stages).length ∧ lambdas rest = (lambdas stages).drop k)
    (hattached : attach'.attached (lambdas stages).length = k + 1)
    (hold : ∀ a, a ≠ .link (k + 1) → nodes' a =
      Function.update nodes (.link k) (some (n.callback (lambdaOf stages (.link k)))) a)
    (hnew : ∀ m, nodes' (.link (k + 1)) = some m →
      m.shared.consumer = .notCalled ∧ NodeOk inline (lambdaOf stages (.link (k + 1))) m)
    (hmade : (nodes' (.link (k + 1))).isSome ↔ k + 1 ≤ (lambdas stages).length) :
    Built inline stages attach' nodes' := by
  have hk := (hs.made k).mp (by simp [hn])
  refine ⟨hahead, fun j => ?_, fun b m hb => ?_, fun j m hj => ?_, fun p m hm => ?_⟩
  · rw [hattached]
    rcases eq_or_ne j (k + 1) with rfl | hjk
    · simpa using hmade
    · rw [hold _ (by simpa using hjk)]
      have hmade := hs.made j
      simp only [Attaching.attached] at hmade
      rcases eq_or_ne j k with rfl | hjk'
      · simp [hk.1]
      · rw [Function.update_of_ne (by simpa using hjk'), hmade]
        omega
  · rcases eq_or_ne b (.link (k + 1)) with rfl | hbk
    · exact (hnew m hb).2
    · rw [hold _ hbk] at hb
      rcases eq_or_ne b (.link k) with rfl | hbk'
      · obtain rfl : n.callback _ = m := by simpa using hb
        exact (hs.ok _ n hn).callback (hs.notCalled hn)
      · exact hs.ok b m (by simpa [hbk'] using hb)
  · rw [hattached]
    rcases eq_or_ne j (k + 1) with rfl | hjk
    · simp [(hnew m hj).1, SetCallback.called]
    · rw [hold _ (by simpa using hjk)] at hj
      rcases eq_or_ne j k with rfl | hjk'
      · obtain rfl : n.callback _ = m := by simpa using hj
        simp [Node.callback, SetCallback.called]
      · rw [hs.attached j m (by simpa [hjk'] using hj)]
        simp only [Attaching.attached]
        omega
  · rw [hold _ (by simp)] at hm
    exact hs.inner p m (by simpa using hm)

end

end Built

end ConcurrentProgramming.Futures
