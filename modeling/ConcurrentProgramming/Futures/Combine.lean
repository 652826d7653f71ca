import ConcurrentProgramming.Futures.SharedState
import ConcurrentProgramming.Interleaving.Tally

/-!
`Combine` over any combinator. The input futures are shared states of their own,
resolved at any time; a released task runs at any later time, so also inline in
the call that submits it. Underneath lies a simpler machine, in which futures
are acquired and each of them is released once.
-/

set_option autoImplicit false

namespace ConcurrentProgramming.Futures
open Interleaving

/-- A combinator of `n` inputs. `Acquire` subscribes a lambda that captures an
`A`; a call of `Release` is a `P` that goes over the fields `S` step by step. The
index given to `step` is for the logs in `S`. -/
structure Combinator (n : Nat) (R A S P : Type) where
  init : S
  acquire : S → S × A
  release : R → A → P
  step : Fin n → S → P → Option (S × P)

/-- The loop of `Combine`, before the future `k` or in `Subscribe` on it. -/
inductive Acquiring (n : Nat) where
  | next (k : Nat)
  | subscribe (k : Fin n)
  deriving DecidableEq, Repr

/-- `captured` is what the lambda of each input holds, `calls` are the calls of
`Release` by input and by task submitted for it. -/
structure Combining (n : Nat) (E R A S P : Type) where
  loop : Acquiring n
  inputs : Fin n → Rendezvous E R A
  captured : Fin n → Option A
  calls : Fin n → Nat → Option P
  shared : S
  violated : Bool

inductive CombineLabel (n : Nat) where
  | acquire
  | setResult (i : Fin n)
  | run (i : Fin n) (task : Nat)
  | release (i : Fin n) (task : Nat)
  deriving DecidableEq, Repr

namespace Combining

def setInput {n : Nat} {E R A S P : Type} (s : Combining n E R A S P) (i : Fin n)
    (v : Rendezvous E R A) : Combining n E R A S P :=
  { s with inputs := Function.update s.inputs i v }

def setCall {n : Nat} {E R A S P : Type} (s : Combining n E R A S P) (i : Fin n) (task : Nat)
    (p : P) : Combining n E R A S P :=
  { s with calls := Function.update s.calls i (Function.update (s.calls i) task (some p)) }

def acquireStep {n : Nat} {E R A S P : Type} (C : Combinator n R A S P)
    (s : Combining n E R A S P) : Option (Combining n E R A S P) :=
  match s.loop with
  | .next k =>
    if h : k < n then
      let acquired := C.acquire s.shared
      some { s.setInput ⟨k, h⟩ { s.inputs ⟨k, h⟩ with consumer := .writeCallback acquired.2 } with
        loop := .subscribe ⟨k, h⟩
        captured := Function.update s.captured ⟨k, h⟩ (some acquired.2)
        shared := acquired.1 }
    else none
  | .subscribe k =>
    match (s.inputs k).consumer with
    | .returned => some { s with loop := .next (k + 1) }
    | _ => (s.inputs k).setCallback.map fun v => s.setInput k v

/-- The callback and the result must not have been moved from. -/
def runTask {n : Nat} {E R A S P : Type} (C : Combinator n R A S P) (s : Combining n E R A S P)
    (i : Fin n) (task : Nat) (t : Submission E R A) : Combining n E R A S P :=
  match t.callback, t.val with
  | some a, some r => s.setCall i task (C.release r a)
  | _, _ => { s with violated := true }

def step {n : Nat} {E R A S P : Type} (C : Combinator n R A S P) (s : Combining n E R A S P) :
    CombineLabel n → Option (Combining n E R A S P)
  | .acquire => s.acquireStep C
  | .setResult i => (s.inputs i).setResult.map fun v => s.setInput i v
  | .run i task =>
    match s.calls i task with
    | some _ => none
    | none => (s.inputs i).submitted[task]?.map fun t => s.runTask C i task t
  | .release i task =>
    (s.calls i task).bind fun p =>
      (C.step i s.shared p).map fun (shared, p) => { s.setCall i task p with shared := shared }

end Combining

/-- `MakeFuture` has stored the promise; no future has been acquired yet, while
their producers may be anywhere in `SetResult`. -/
def combine {n : Nat} {E R A S P : Type} (C : Combinator n R A S P) (executors : Fin n → E)
    (results : Fin n → R) : Machine (Combining n E R A S P) (CombineLabel n) where
  init := ⟨.next 0,
    fun i => ⟨makeSharedState (executors i), .writeResult (results i), .notCalled, []⟩,
    fun _ => none, fun _ _ => none, C.init, false⟩
  step := Combining.step C

/-- Futures that are acquired in order and released in any order. -/
structure Releasing (n : Nat) (A S P : Type) where
  next : Nat
  captured : Fin n → Option A
  calls : Fin n → Option P
  shared : S

inductive ReleaseLabel (n : Nat) where
  | acquire
  | start (i : Fin n)
  | release (i : Fin n)
  deriving DecidableEq, Repr

def Releasing.step {n : Nat} {R A S P : Type} (C : Combinator n R A S P) (results : Fin n → R)
    (s : Releasing n A S P) : ReleaseLabel n → Option (Releasing n A S P)
  | .acquire =>
    if h : s.next < n then
      let acquired := C.acquire s.shared
      some { s with
        next := s.next + 1
        captured := Function.update s.captured ⟨s.next, h⟩ (some acquired.2)
        shared := acquired.1 }
    else none
  | .start i =>
    match s.calls i with
    | some _ => none
    | none => (s.captured i).map fun a =>
      { s with calls := Function.update s.calls i (some (C.release (results i) a)) }
  | .release i =>
    (s.calls i).bind fun p =>
      (C.step i s.shared p).map fun (shared, p) =>
        { s with calls := Function.update s.calls i (some p), shared := shared }

def releases {n : Nat} {R A S P : Type} (C : Combinator n R A S P) (results : Fin n → R) :
    Machine (Releasing n A S P) (ReleaseLabel n) where
  init := ⟨0, fun _ => none, fun _ => none, C.init⟩
  step := Releasing.step C results

theorem Releasing.step_cases {n : Nat} {R A S P : Type} {C : Combinator n R A S P}
    {results : Fin n → R} {s t : Releasing n A S P} {l : ReleaseLabel n}
    (h : s.step C results l = some t) :
    (∃ hn : s.next < n, t = { s with
      next := s.next + 1
      captured := Function.update s.captured ⟨s.next, hn⟩ (some (C.acquire s.shared).2)
      shared := (C.acquire s.shared).1 }) ∨
    (∃ i a, s.calls i = none ∧ s.captured i = some a ∧
      t = { s with calls := Function.update s.calls i (some (C.release (results i) a)) }) ∨
    ∃ i p shared p', s.calls i = some p ∧ C.step i s.shared p = some (shared, p') ∧
      t = { s with calls := Function.update s.calls i (some p'), shared := shared } := by
  cases l with
  | acquire =>
    simp only [step] at h
    split at h
    · rename_i hn
      exact .inl ⟨hn, (Option.some.inj h).symm⟩
    · cases h
  | start i =>
    simp only [step] at h
    split at h
    · cases h
    · rename_i hnone
      obtain ⟨a, ha, rfl⟩ := Option.map_eq_some_iff.mp h
      exact .inr (.inl ⟨i, a, hnone, ha, rfl⟩)
  | release i =>
    simp only [step, Option.bind_eq_some_iff, Option.map_eq_some_iff] at h
    obtain ⟨p, hp, ⟨shared, p'⟩, hstep, rfl⟩ := h
    exact .inr (.inr ⟨i, p, shared, p', hp, hstep, rfl⟩)

/-! The links deliver: every captured lambda is called once, with its result. -/

def Acquiring.acquired {n : Nat} : Acquiring n → Nat
  | .next k => k
  | .subscribe k => k + 1

namespace Combining

structure Inv {n : Nat} {E R A S P : Type} (results : Fin n → R) (s : Combining n E R A S P) :
    Prop where
  inputs : ∀ i a, s.captured i = none ∨ s.captured i = some a → (s.inputs i).Inv (results i) a
  produced : ∀ i, (s.inputs i).producer ≠ .notCalled
  attached : ∀ i, (s.inputs i).consumer = .notCalled ↔ s.captured i = none
  captured : ∀ i, s.captured i = none ↔ s.loop.acquired ≤ i
  returned : ∀ i, s.captured i ≠ none → s.loop = .subscribe i ∨ (s.inputs i).consumer = .returned
  calls : ∀ i task p, s.calls i task = some p → task = 0 ∧ (s.inputs i).submitted ≠ []
  unviolated : s.violated = false


theorem inv_init {n : Nat} {E R A S P : Type} (C : Combinator n R A S P) (executors : Fin n → E)
    (results : Fin n → R) : (combine C executors results).init.Inv results where
  inputs i a _ := (Rendezvous.Inv.new (executors i) (results i) a).resolve rfl
  produced _ := nofun
  attached _ := ⟨fun _ => rfl, fun _ => rfl⟩
  captured _ := ⟨fun _ => Nat.zero_le _, fun _ => rfl⟩
  returned _ h := (h rfl).elim
  calls := nofun
  unviolated := rfl

/-- A step of one of the two calls on an input. -/
theorem Inv.setInput {n : Nat} {E R A S P : Type} {results : Fin n → R}
    {s : Combining n E R A S P} (hs : s.Inv results) {i : Fin n} {v : Rendezvous E R A}
    (hv : ∀ a, (s.inputs i).Inv (results i) a → v.Inv (results i) a)
    (hp : v.producer ≠ .notCalled)
    (hq : v.consumer = .notCalled ↔ (s.inputs i).consumer = .notCalled)
    (hret : (s.inputs i).consumer = .returned → v.consumer = .returned)
    (hsub : (s.inputs i).submitted <+: v.submitted) : (s.setInput i v).Inv results := by
  refine ⟨fun j a hj => ?_, fun j => ?_, fun j => ?_, hs.captured, fun j hj => ?_,
    fun j task p hcall => ?_, hs.unviolated⟩
  · rcases eq_or_ne j i with rfl | hji
    · simpa [Combining.setInput] using hv a (hs.inputs j a hj)
    · simpa [Combining.setInput, hji] using hs.inputs j a hj
  · rcases eq_or_ne j i with rfl | hji
    · simpa [Combining.setInput] using hp
    · simpa [Combining.setInput, hji] using hs.produced j
  · rcases eq_or_ne j i with rfl | hji
    · simpa [Combining.setInput, hq] using hs.attached j
    · simpa [Combining.setInput, hji] using hs.attached j
  · rcases eq_or_ne j i with rfl | hji
    · simpa [Combining.setInput] using (hs.returned j hj).imp_right hret
    · simpa [Combining.setInput, hji] using hs.returned j hj
  · obtain ⟨htask, hne⟩ := hs.calls j task p hcall
    refine ⟨htask, ?_⟩
    rcases eq_or_ne j i with rfl | hji
    · simpa [Combining.setInput] using hsub.ne_nil hne
    · simpa [Combining.setInput, hji] using hne

theorem Inv.setResult {n : Nat} {E R A S P : Type} {results : Fin n → R}
    {s : Combining n E R A S P} (hs : s.Inv results) {i : Fin n} {v : Rendezvous E R A}
    (h : (s.inputs i).setResult = some v) : (s.setInput i v).Inv results := by
  obtain ⟨-, hp, -, hq⟩ := Rendezvous.setResult_remaining h
  exact hs.setInput (fun _ ha => Rendezvous.setResult_inv ha h) hp (by rw [hq])
    (fun hret => hq.trans hret) (Rendezvous.setResult_submitted h)

theorem Inv.setCallback {n : Nat} {E R A S P : Type} {results : Fin n → R}
    {s : Combining n E R A S P} (hs : s.Inv results) {i : Fin n} {v : Rendezvous E R A}
    (h : (s.inputs i).setCallback = some v) : (s.setInput i v).Inv results := by
  obtain ⟨-, hq', hq, hp⟩ := Rendezvous.setCallback_remaining h
  refine hs.setInput (fun _ ha => Rendezvous.setCallback_inv ha h) (by rw [hp]; exact hs.produced i)
    (iff_of_false hq' hq) (fun hret => ?_) (Rendezvous.setCallback_submitted h)
  simp [Rendezvous.setCallback, hret] at h

/-- The only task of an input calls the lambda of the input with its result. -/
theorem Inv.task {n : Nat} {E R A S P : Type} {results : Fin n → R} {s : Combining n E R A S P}
    (hs : s.Inv results) (C : Combinator n R A S P) {i : Fin n} {task : Nat}
    {t : Submission E R A} (ht : (s.inputs i).submitted[task]? = some t) :
    ∃ a, s.captured i = some a ∧ task = 0 ∧ t.callback = some a ∧ t.val = some (results i) := by
  have hone {a : A} (ha : s.captured i = none ∨ s.captured i = some a) :
      (s.inputs i).consumer.written = true ∧
        task = 0 ∧ t.callback = some a ∧ t.val = some (results i) := by
    rcases (hs.inputs i a ha).submitted with hnil | ⟨hsub, -, hwritten⟩
    · simp [hnil] at ht
    · rw [hsub, List.getElem?_singleton, Option.ite_none_right_eq_some] at ht
      obtain ⟨rfl, ht⟩ := ht
      obtain rfl := Option.some.inj ht
      exact ⟨hwritten, rfl, rfl, rfl⟩
  cases hc : s.captured i with
  | none =>
    have hwritten := (hone (a := (C.acquire C.init).2) (.inl hc)).1
    simp [(hs.attached i).mpr hc, SetCallback.written] at hwritten
  | some a => exact ⟨a, rfl, (hone (.inr hc)).2⟩

theorem Inv.setCall {n : Nat} {E R A S P : Type} {results : Fin n → R} {s : Combining n E R A S P}
    (hs : s.Inv results) {i : Fin n} (hsub : (s.inputs i).submitted ≠ []) (p : P) (shared : S) :
    Inv results { s.setCall i 0 p with shared := shared } := by
  refine ⟨hs.inputs, hs.produced, hs.attached, hs.captured, hs.returned, fun j task q hcall => ?_,
    hs.unviolated⟩
  by_cases hj : j = i
  · subst hj
    by_cases htask : task = 0
    · exact ⟨htask, hsub⟩
    · exact hs.calls j task q (by simpa [Combining.setCall, htask] using hcall)
  · exact hs.calls j task q (by simpa [Combining.setCall, hj] using hcall)

/-- What one step of the loop does to the inputs, and whether it acquires one. -/
theorem Inv.acquireStep {n : Nat} {E R A S P : Type} {results : Fin n → R}
    {s t : Combining n E R A S P} (hs : s.Inv results) {C : Combinator n R A S P}
    (h : s.acquireStep C = some t) : t.Inv results := by
  unfold Combining.acquireStep at h
  cases hloop : s.loop with
  | next k =>
    simp only [hloop] at h
    split at h
    · rename_i hk
      obtain rfl := Option.some.inj h
      have hnone : s.captured ⟨k, hk⟩ = none := by
        simp [hs.captured, hloop, Acquiring.acquired]
      have hq := (hs.attached _).mpr hnone
      refine ⟨fun j a hj => ?_, fun j => ?_, fun j => ?_, fun j => ?_, fun j hj => ?_,
        fun j task p hcall => ?_, hs.unviolated⟩
      · rcases eq_or_ne j ⟨k, hk⟩ with rfl | hjk
        · obtain rfl : (C.acquire s.shared).2 = a := by simpa using hj
          simpa [Combining.setInput] using (hs.inputs _ _ (.inl hnone)).callback hq
        · simpa [Combining.setInput, hjk] using hs.inputs j a (by simpa [hjk] using hj)
      · rcases eq_or_ne j ⟨k, hk⟩ with rfl | hjk
        · simpa [Combining.setInput] using hs.produced _
        · simpa [Combining.setInput, hjk] using hs.produced j
      · rcases eq_or_ne j ⟨k, hk⟩ with rfl | hjk
        · simp [Combining.setInput]
        · simpa [Combining.setInput, hjk] using hs.attached j
      · rcases eq_or_ne j ⟨k, hk⟩ with rfl | hjk
        · simp [Acquiring.acquired]
        · have hne : (j : Nat) ≠ k := fun h => hjk (Fin.ext h)
          have hle := hs.captured j
          simp only [hloop, Acquiring.acquired] at hle
          simp only [Function.update_of_ne hjk, hle, Acquiring.acquired]
          omega
      · rcases eq_or_ne j ⟨k, hk⟩ with rfl | hjk
        · exact .inl rfl
        · have hret := hs.returned j (by simpa [hjk] using hj)
          simpa [Combining.setInput, hjk] using Or.inr (hret.resolve_left (by simp [hloop]))
      · obtain ⟨htask, hne⟩ := hs.calls j task p hcall
        refine ⟨htask, ?_⟩
        rcases eq_or_ne j ⟨k, hk⟩ with rfl | hjk
        · simpa [Combining.setInput] using hne
        · simpa [Combining.setInput, hjk] using hne
    · cases h
  | subscribe k =>
    simp only [hloop] at h
    split at h
    · rename_i hret
      obtain rfl := Option.some.inj h
      refine ⟨hs.inputs, hs.produced, hs.attached, fun j => ?_, fun j hj => .inr ?_, hs.calls,
        hs.unviolated⟩
      · simpa [hloop, Acquiring.acquired] using hs.captured j
      · rcases hs.returned j hj with hsame | hret'
        · rw [hloop] at hsame
          cases hsame
          exact hret
        · exact hret'
    · obtain ⟨v, hv, rfl⟩ := Option.map_eq_some_iff.mp h
      exact hs.setCallback hv

theorem Inv.step {n : Nat} {E R A S P : Type} {results : Fin n → R} {s t : Combining n E R A S P}
    (hs : s.Inv results) {C : Combinator n R A S P} {l : CombineLabel n}
    (h : s.step C l = some t) : t.Inv results := by
  cases l with
  | acquire => exact hs.acquireStep h
  | setResult i =>
    obtain ⟨v, hv, rfl⟩ := Option.map_eq_some_iff.mp h
    exact hs.setResult hv
  | run i task =>
    simp only [Combining.step] at h
    split at h
    · cases h
    · obtain ⟨t, hsub, rfl⟩ := Option.map_eq_some_iff.mp h
      obtain ⟨a, -, rfl, hcallback, hval⟩ := hs.task C hsub
      simp only [runTask, hcallback, hval]
      exact hs.setCall (fun hnil => by simp [hnil] at hsub) _ s.shared
  | release i task =>
    simp only [Combining.step, Option.bind_eq_some_iff, Option.map_eq_some_iff] at h
    obtain ⟨p, hp, ⟨shared, p'⟩, -, rfl⟩ := h
    obtain ⟨rfl, hsub⟩ := hs.calls i task p hp
    exact hs.setCall hsub p' shared

theorem inv {n : Nat} {E R A S P : Type} {C : Combinator n R A S P} {executors : Fin n → E}
    {results : Fin n → R} {s : Combining n E R A S P}
    (h : (combine C executors results).Reachable s) : s.Inv results :=
  Machine.Reachable.invariant (inv_init C executors results)
    (fun _ _ _ _ hs hstep => hs.step hstep) h

end Combining

/-- Seen from the combinator, futures are acquired in order and each is released
at most once, with its own result and what was captured for it. -/
def combineRefines {n : Nat} {E R A S P : Type} (C : Combinator n R A S P) (executors : Fin n → E)
    (results : Fin n → R) :
    Machine.Refinement (combine C executors results) (releases C results) where
  f s := ⟨s.loop.acquired, s.captured, fun i => s.calls i 0, s.shared⟩
  act s
    | .acquire => match s.loop with
      | .next _ => [.acquire]
      | .subscribe _ => []
    | .setResult _ => []
    | .run i _ => [.start i]
    | .release i _ => [.release i]
  init := rfl
  step s l t hs ht := by
    have hinv := Combining.inv hs
    have hcalls (i : Fin n) (p : P) : (fun j => (s.setCall i 0 p).calls j 0) =
        Function.update (fun j => s.calls j 0) i (some p) := by
      funext j
      by_cases hj : j = i
      · subst hj
        simp [Combining.setCall]
      · simp [Combining.setCall, hj]
    cases l with
    | acquire =>
      simp only [combine, Combining.step, Combining.acquireStep] at ht
      cases hloop : s.loop with
      | next k =>
        simp only [hloop] at ht
        split at ht
        · rename_i hk
          obtain rfl := Option.some.inj ht
          simp [releases, Releasing.step, Acquiring.acquired, hk, Combining.setInput]
        · cases ht
      | subscribe k =>
        simp only [hloop] at ht
        split at ht
        · obtain rfl := Option.some.inj ht
          simp [Acquiring.acquired]
        · obtain ⟨v, -, rfl⟩ := Option.map_eq_some_iff.mp ht
          simp [Combining.setInput, hloop]
    | setResult i =>
      obtain ⟨v, -, rfl⟩ := Option.map_eq_some_iff.mp ht
      rfl
    | run i task =>
      simp only [combine, Combining.step] at ht
      split at ht
      · cases ht
      · rename_i hnone
        obtain ⟨t, hsub, rfl⟩ := Option.map_eq_some_iff.mp ht
        obtain ⟨a, hcaptured, rfl, hcallback, hval⟩ := hinv.task C hsub
        simp only [Combining.runTask, hcallback, hval, Machine.exec_cons, releases, Releasing.step,
          hnone, hcaptured, Option.map_some, Option.bind_some, Machine.exec_nil, hcalls]
        rfl
    | release i task =>
      simp only [combine, Combining.step, Option.bind_eq_some_iff, Option.map_eq_some_iff] at ht
      obtain ⟨p, hp, ⟨shared, p'⟩, hstep, rfl⟩ := ht
      obtain ⟨rfl, -⟩ := hinv.calls i task p hp
      simp only [Machine.exec_cons, releases, Releasing.step, hp, hstep, Option.map_some,
        Option.bind_some, Machine.exec_nil, hcalls]
      rfl

/-! Runs end, and only when every input has been released. -/

def Acquiring.remaining {n : Nat} : Acquiring n → Nat
  | .next k => 2 * (n - k)
  | .subscribe k => 2 * (n - k) - 1

def callsLeft {R C E : Type} (v : Rendezvous E R C) : Nat :=
  v.producer.remaining + v.consumer.remaining

/-- `m` measures a call of `Release` and is at most `bound`. -/
def releaseLeft {P : Type} (m : P → Nat) (bound : Nat) (calls : Nat → Option P) : Nat :=
  (calls 0).elim (bound + 1) m

namespace Combining

def remaining {n : Nat} {E R A S P : Type} (m : P → Nat) (bound : Nat)
    (s : Combining n E R A S P) : Nat :=
  s.loop.remaining + tally Finset.univ callsLeft s.inputs +
    tally Finset.univ (releaseLeft m bound) s.calls

theorem setInput_remaining {n : Nat} {E R A S P : Type} (m : P → Nat) (bound : Nat)
    (s : Combining n E R A S P) {i : Fin n} {v : Rendezvous E R A}
    (h : callsLeft v < callsLeft (s.inputs i)) :
    (s.setInput i v).remaining m bound < s.remaining m bound := by
  have := tally_update_lt callsLeft s.inputs (Finset.mem_univ i) h
  simp only [remaining, setInput]
  omega

theorem setCall_remaining {n : Nat} {E R A S P : Type} {m : P → Nat} {bound : Nat}
    (s : Combining n E R A S P) {i : Fin n} {p : P} (shared : S)
    (h : m p < releaseLeft m bound (s.calls i)) :
    remaining m bound { s.setCall i 0 p with shared := shared } < s.remaining m bound := by
  have := tally_update_lt (a := Function.update (s.calls i) 0 (some p)) (releaseLeft m bound)
    s.calls (Finset.mem_univ i) (by simpa [releaseLeft] using h)
  simp only [remaining, setCall]
  omega

theorem acquireStep_remaining {n : Nat} {E R A S P : Type} {m : P → Nat} {bound : Nat}
    {results : Fin n → R} {s t : Combining n E R A S P} (hs : s.Inv results)
    {C : Combinator n R A S P} (h : s.acquireStep C = some t) :
    t.remaining m bound < s.remaining m bound := by
  unfold acquireStep at h
  cases hloop : s.loop with
  | next k =>
    simp only [hloop] at h
    split at h
    · rename_i hk
      obtain rfl := Option.some.inj h
      have hnone : s.captured ⟨k, hk⟩ = none := by
        simp [hs.captured, hloop, Acquiring.acquired]
      have hlt := setInput_remaining m bound s
        (i := ⟨k, hk⟩) (v := { s.inputs ⟨k, hk⟩ with
          consumer := .writeCallback (C.acquire s.shared).2 })
        (by simp [callsLeft, (hs.attached _).mpr hnone, SetCallback.remaining])
      simp only [remaining, setInput, hloop, Acquiring.remaining] at hlt ⊢
      omega
    · cases h
  | subscribe k =>
    simp only [hloop] at h
    split at h
    · obtain rfl := Option.some.inj h
      have := k.isLt
      simp only [remaining, hloop, Acquiring.remaining]
      omega
    · obtain ⟨v, hv, rfl⟩ := Option.map_eq_some_iff.mp h
      obtain ⟨hlt, -, -, hp⟩ := Rendezvous.setCallback_remaining hv
      exact setInput_remaining m bound s (by simpa [callsLeft, hp] using hlt)

theorem step_remaining {n : Nat} {E R A S P : Type} {m : P → Nat} {bound : Nat}
    {results : Fin n → R} {s t : Combining n E R A S P} (hs : s.Inv results)
    {C : Combinator n R A S P} (hstart : ∀ r a, m (C.release r a) ≤ bound)
    (hstep : ∀ i s p s' p', C.step i s p = some (s', p') → m p' < m p) {l : CombineLabel n}
    (h : s.step C l = some t) : t.remaining m bound < s.remaining m bound := by
  cases l with
  | acquire => exact acquireStep_remaining hs h
  | setResult i =>
    obtain ⟨v, hv, rfl⟩ := Option.map_eq_some_iff.mp h
    obtain ⟨hlt, -, -, hq⟩ := Rendezvous.setResult_remaining hv
    exact setInput_remaining m bound s (by simpa [callsLeft, hq] using hlt)
  | run i task =>
    simp only [Combining.step] at h
    split at h
    · cases h
    · rename_i hnone
      obtain ⟨t, hsub, rfl⟩ := Option.map_eq_some_iff.mp h
      obtain ⟨a, -, rfl, hcallback, hval⟩ := hs.task C hsub
      simp only [runTask, hcallback, hval]
      exact setCall_remaining s s.shared (by
        simpa [releaseLeft, hnone] using Nat.lt_succ_of_le (hstart (results i) a))
  | release i task =>
    simp only [Combining.step, Option.bind_eq_some_iff, Option.map_eq_some_iff] at h
    obtain ⟨p, hp, ⟨shared, p'⟩, hC, rfl⟩ := h
    obtain ⟨rfl, -⟩ := hs.calls i task p hp
    exact setCall_remaining s shared (by simpa [releaseLeft, hp] using hstep _ _ _ _ _ hC)

/-- When nothing can go on, each input has been released and that call has ended. -/
theorem Inv.ended {n : Nat} {E R A S P : Type} {results : Fin n → R} {s : Combining n E R A S P}
    (hs : s.Inv results) {C : Combinator n R A S P} (hend : ∀ l, s.step C l = none) (i : Fin n) :
    ∃ p, s.calls i 0 = some p ∧ C.step i s.shared p = none := by
  have hnot (k : Fin n) : s.loop ≠ .subscribe k := fun hloop => by
    have hstep := hend .acquire
    simp only [Combining.step, Combining.acquireStep, hloop] at hstep
    split at hstep
    · cases hstep
    · rename_i hne
      have hq : (s.inputs k).consumer ≠ .notCalled := fun hq => by
        have hle := (hs.captured k).mp ((hs.attached k).mp hq)
        simp [hloop, Acquiring.acquired] at hle
      have hsome := Rendezvous.setCallback_isSome hq hne
      simp [Option.map_eq_none_iff.mp hstep] at hsome
  have hcaptured : s.captured i ≠ none := fun hnone => by
    have hle := (hs.captured i).mp hnone
    have hstep := hend .acquire
    cases hloop : s.loop with
    | next k =>
      have hk : k < n := by simpa [hloop, Acquiring.acquired] using hle.trans_lt i.isLt
      simp [Combining.step, Combining.acquireStep, hloop, hk] at hstep
    | subscribe k => exact hnot k hloop
  have hq := (hs.returned i hcaptured).resolve_left (hnot i)
  have hp : (s.inputs i).producer = .returned := by
    by_contra hne
    have hsome := Rendezvous.setResult_isSome (hs.produced i) hne
    have hstep := hend (.setResult i)
    simp only [Combining.step, Option.map_eq_none_iff] at hstep
    simp [hstep] at hsome
  obtain ⟨a, ha⟩ := Option.ne_none_iff_exists'.mp hcaptured
  have hsub := (hs.inputs i a (.inr ha)).returned hp hq
  cases hcall : s.calls i 0 with
  | none =>
    have hstep := hend (.run i 0)
    simp [Combining.step, hcall, hsub] at hstep
  | some p =>
    have hstep := hend (.release i 0)
    simp only [Combining.step, hcall, Option.bind_some, Option.map_eq_none_iff] at hstep
    exact ⟨p, rfl, hstep⟩

end Combining

/-- No run of `Combine` goes on forever if no call of `Release` does. -/
theorem combine_ends {n : Nat} {E R A S P : Type} {C : Combinator n R A S P} (m : P → Nat)
    (bound : Nat) (hstart : ∀ r a, m (C.release r a) ≤ bound)
    (hstep : ∀ i s p s' p', C.step i s p = some (s', p') → m p' < m p) (executors : Fin n → E)
    (results : Fin n → R) : ∃ steps, ∀ ls s,
      (combine C executors results).exec (combine C executors results).init ls = some s →
        ls.length ≤ steps := by
  refine ⟨(combine C executors results).init.remaining m bound, fun ls s h => ?_⟩
  have hle := Machine.Reachable.exec_length_le (m := Combining.remaining m bound)
    (fun s l t hs ht => Combining.step_remaining (Combining.inv hs) hstart hstep ht) .init h
  omega

end ConcurrentProgramming.Futures
