import ConcurrentProgramming.Interleaving.Machine

/-!
The state shared between `Promise` and `Future`, and the two wait-free calls that
meet in it. Every access to a field of `SharedState` is a step of its own, so
`TryCallback` may be run by either party at any point of the other's call.
-/

set_option autoImplicit false

namespace ConcurrentProgramming.Futures
open Interleaving

universe u

/-- `result_` and `callback_` are `none` before they are written and after they
are moved from; the counters remember how often each was moved from. -/
structure SharedState (E R C : Type u) where
  result : Option R
  callback : Option C
  executor : E
  resultReady : Nat
  callbackReady : Bool
  resultMoves : Nat
  callbackMoves : Nat
  deriving DecidableEq, Repr

def makeSharedState {E R C : Type u} (executor : E) : SharedState E R C :=
  ⟨none, none, executor, 0, false, 0, 0⟩

def SharedState.setExecutor {E R C : Type u} (s : SharedState E R C) (executor : E) :
    SharedState E R C := { s with executor := executor }

def SharedState.getExecutor {E R C : Type u} (s : SharedState E R C) : E := s.executor

/-- What `TryCallback` hands to `Execute(*executor_, ..)`. -/
structure Submission (E R C : Type u) where
  executor : E
  callback : Option C
  val : Option R
  deriving DecidableEq, Repr

inductive TryCallback (R C : Type u) where
  | exchange
  | moveCallback
  | moveResult (callback : Option C)
  | execute (callback : Option C) (val : Option R)
  | returned
  deriving DecidableEq, Repr

inductive SetResult (R C : Type u) where
  | notCalled
  | writeResult (result : R)
  | storeReady
  | tryCallback (pc : TryCallback R C)
  | notifyAll
  | returned
  deriving DecidableEq, Repr

inductive SetCallback (R C : Type u) where
  | notCalled
  | writeCallback (callback : C)
  | storeReady
  | loadResultReady
  | tryCallback (pc : TryCallback R C)
  | returned
  deriving DecidableEq, Repr

def SharedState.tryCallback {E R C : Type u} (s : SharedState E R C) :
    TryCallback R C → Option (SharedState E R C × TryCallback R C × List (Submission E R C))
  | .exchange =>
    some ({ s with callbackReady := false },
      if s.callbackReady then .moveCallback else .returned, [])
  | .moveCallback =>
    some ({ s with callback := none, callbackMoves := s.callbackMoves + 1 },
      .moveResult s.callback, [])
  | .moveResult callback =>
    some ({ s with result := none, resultMoves := s.resultMoves + 1 },
      .execute callback s.result, [])
  | .execute callback val => some (s, .returned, [⟨s.executor, callback, val⟩])
  | .returned => none

/-- One shared state with its only producer call and its only consumer call. -/
structure Rendezvous (E R C : Type u) where
  state : SharedState E R C
  producer : SetResult R C
  consumer : SetCallback R C
  submitted : List (Submission E R C)
  deriving DecidableEq, Repr

def Rendezvous.setResult {E R C : Type u} (v : Rendezvous E R C) :
    Option (Rendezvous E R C) :=
  match v.producer with
  | .notCalled => none
  | .writeResult result =>
    some { v with state := { v.state with result := some result }, producer := .storeReady }
  | .storeReady =>
    some { v with state := { v.state with resultReady := 1 }, producer := .tryCallback .exchange }
  | .tryCallback .returned => some { v with producer := .notifyAll }
  | .tryCallback pc =>
    (v.state.tryCallback pc).map fun (state, pc', out) =>
      { v with state := state, producer := .tryCallback pc', submitted := v.submitted ++ out }
  | .notifyAll => some { v with producer := .returned }
  | .returned => none

def Rendezvous.setCallback {E R C : Type u} (v : Rendezvous E R C) :
    Option (Rendezvous E R C) :=
  match v.consumer with
  | .notCalled => none
  | .writeCallback callback =>
    some { v with state := { v.state with callback := some callback }, consumer := .storeReady }
  | .storeReady =>
    some { v with state := { v.state with callbackReady := true }, consumer := .loadResultReady }
  | .loadResultReady =>
    some { v with consumer :=
      if v.state.resultReady = 1 then .tryCallback .exchange else .returned }
  | .tryCallback .returned => some { v with consumer := .returned }
  | .tryCallback pc =>
    (v.state.tryCallback pc).map fun (state, pc', out) =>
      { v with state := state, consumer := .tryCallback pc', submitted := v.submitted ++ out }
  | .returned => none

inductive Party where
  | producer
  | consumer
  deriving DecidableEq, Repr

/-- `SetResult(result)` and `SetCallback(callback)` on a fresh shared state. -/
def rendezvous {E R C : Type u} (executor : E) (result : R) (callback : C) :
    Machine (Rendezvous E R C) Party where
  init := ⟨makeSharedState executor, .writeResult result, .writeCallback callback, []⟩
  step v
    | .producer => v.setResult
    | .consumer => v.setCallback

/-! Where the two calls are. `published` and `armed` say that the flag of the
call has been stored; a call that won the exchange is `firing`. -/

def TryCallback.firing {R C : Type u} : TryCallback R C → Bool
  | .moveCallback | .moveResult _ | .execute _ _ => true
  | .exchange | .returned => false

def SetResult.written {R C : Type u} : SetResult R C → Bool
  | .notCalled | .writeResult _ => false
  | _ => true

def SetResult.published {R C : Type u} : SetResult R C → Bool
  | .notCalled | .writeResult _ | .storeReady => false
  | _ => true

def SetResult.exchanged {R C : Type u} : SetResult R C → Bool
  | .notCalled | .writeResult _ | .storeReady | .tryCallback .exchange => false
  | _ => true

def SetResult.firing {R C : Type u} : SetResult R C → Bool
  | .tryCallback pc => pc.firing
  | _ => false

def SetCallback.written {R C : Type u} : SetCallback R C → Bool
  | .notCalled | .writeCallback _ => false
  | _ => true

def SetCallback.armed {R C : Type u} : SetCallback R C → Bool
  | .notCalled | .writeCallback _ | .storeReady => false
  | _ => true

def SetCallback.firing {R C : Type u} : SetCallback R C → Bool
  | .tryCallback pc => pc.firing
  | _ => false

structure Rendezvous.Fresh {E R C : Type u} (r : R) (c : C) (v : Rendezvous E R C) : Prop where
  resultMoves : v.state.resultMoves = 0
  callbackMoves : v.state.callbackMoves = 0
  result : v.producer.written = true → v.state.result = some r
  callback : v.consumer.written = true → v.state.callback = some c
  submitted : v.submitted = []

/-- What the winner of the exchange has already taken out of the state. -/
def SharedState.Firing {E R C : Type u} (r : R) (c : C) (s : SharedState E R C) :
    TryCallback R C → Prop
  | .moveCallback => s.resultMoves = 0 ∧ s.callbackMoves = 0 ∧
      s.result = some r ∧ s.callback = some c
  | .moveResult callback => s.resultMoves = 0 ∧ s.callbackMoves = 1 ∧
      s.result = some r ∧ callback = some c
  | .execute callback val => s.resultMoves = 1 ∧ s.callbackMoves = 1 ∧
      val = some r ∧ callback = some c
  | .exchange | .returned => False

/-- The right to submit: nobody has it before the callback is armed, then the
flag holds it, then exactly one of the two calls, and then it is spent. -/
inductive Rendezvous.Phase {E R C : Type u} (r : R) (c : C) (v : Rendezvous E R C) : Prop where
  | unarmed : v.consumer.armed = false → v.state.callbackReady = false → v.Fresh r c →
      v.producer.firing = false → v.Phase r c
  | armed : v.consumer.armed = true → v.state.callbackReady = true → v.Fresh r c →
      v.producer.firing = false →
      (v.consumer = .loadResultReady ∨ v.consumer = .tryCallback .exchange ∨
        v.consumer = .returned ∧ v.producer.exchanged = false) → v.Phase r c
  | producerFires (pc : TryCallback R C) : v.producer = .tryCallback pc →
      v.state.Firing r c pc → v.state.callbackReady = false → v.submitted = [] →
      v.consumer.armed = true → v.consumer.firing = false → v.Phase r c
  | consumerFires (pc : TryCallback R C) : v.consumer = .tryCallback pc →
      v.state.Firing r c pc → v.state.callbackReady = false → v.submitted = [] →
      v.producer.published = true → v.producer.firing = false → v.Phase r c
  | fired : v.state.resultMoves = 1 → v.state.callbackMoves = 1 →
      v.submitted = [⟨v.state.executor, some c, some r⟩] → v.state.callbackReady = false →
      v.producer.published = true → v.producer.firing = false →
      v.consumer.armed = true → v.consumer.firing = false → v.Phase r c

/-- `r` and `c` are the arguments of the two calls, made or still to be made. -/
structure Rendezvous.Inv {E R C : Type u} (r : R) (c : C) (v : Rendezvous E R C) : Prop where
  resultArg : ∀ x, v.producer = .writeResult x → x = r
  callbackArg : ∀ x, v.consumer = .writeCallback x → x = c
  ready : v.state.resultReady = if v.producer.published then 1 else 0
  tried : ∀ pc, v.consumer = .tryCallback pc → v.producer.published = true
  phase : v.Phase r c

/-- The winner's next step: it takes one more thing out, or submits both. -/
theorem SharedState.tryCallback_firing {E R C : Type u} {r : R} {c : C}
    {s s' : SharedState E R C} {pc pc' : TryCallback R C} {out : List (Submission E R C)}
    (hF : s.Firing r c pc) (h : s.tryCallback pc = some (s', pc', out)) :
    s'.callbackReady = s.callbackReady ∧ s'.resultReady = s.resultReady ∧
      (out = [] ∧ s'.Firing r c pc' ∨
        pc' = .returned ∧ out = [⟨s'.executor, some c, some r⟩] ∧
          s'.resultMoves = 1 ∧ s'.callbackMoves = 1) := by
  cases pc with
  | exchange | returned => exact hF.elim
  | moveCallback =>
    simp only [tryCallback, Option.some.injEq, Prod.mk.injEq] at h
    obtain ⟨rfl, rfl, rfl⟩ := h
    exact ⟨rfl, rfl, .inl ⟨rfl, by simpa [SharedState.Firing] using hF⟩⟩
  | moveResult callback =>
    simp only [tryCallback, Option.some.injEq, Prod.mk.injEq] at h
    obtain ⟨rfl, rfl, rfl⟩ := h
    exact ⟨rfl, rfl, .inl ⟨rfl, by simpa [SharedState.Firing] using hF⟩⟩
  | execute callback val =>
    simp only [tryCallback, Option.some.injEq, Prod.mk.injEq] at h
    obtain ⟨rfl, rfl, rfl⟩ := h
    obtain ⟨h₁, h₂, rfl, rfl⟩ := hF
    exact ⟨rfl, rfl, .inr ⟨rfl, rfl, h₁, h₂⟩⟩

/-- A producer step that neither enters nor leaves the firing part. -/
theorem Rendezvous.Phase.producer_quiet {E R C : Type u} {r : R} {c : C}
    {v : Rendezvous E R C} {p : SetResult R C} {ready : Nat} (hv : v.Phase r c)
    (result : Option R) (hfire : v.producer.firing = false) (hp : p.firing = false)
    (hpub : v.producer.published = true → p.published = true ∧ result = v.state.result)
    (hex : p.exchanged = v.producer.exchanged)
    (hres : v.Fresh r c → p.written = true → result = some r) :
    Phase r c { v with
      state := { v.state with result := result, resultReady := ready }, producer := p } := by
  have fresh (hf : v.Fresh r c) : Fresh r c { v with
      state := { v.state with result := result, resultReady := ready }, producer := p } :=
    ⟨hf.resultMoves, hf.callbackMoves, hres hf, hf.callback, hf.submitted⟩
  cases hv with
  | unarmed ha hcr hf _ => exact .unarmed ha hcr (fresh hf) hp
  | armed ha hcr hf _ hq =>
    rw [← hex] at hq
    exact .armed ha hcr (fresh hf) hp hq
  | producerFires pc hpc hF =>
    rw [hpc] at hfire
    cases pc with
    | exchange | returned => exact hF.elim
    | moveCallback | moveResult | execute => simp [SetResult.firing, TryCallback.firing] at hfire
  | consumerFires pc hpc hF hcr hs hpb _ =>
    obtain ⟨hpb', rfl⟩ := hpub hpb
    refine .consumerFires pc hpc ?_ hcr hs hpb' hp
    cases pc <;> exact hF
  | fired hm hm' hs hcr hpb _ ha hq => exact .fired hm hm' hs hcr (hpub hpb).1 hp ha hq

/-- A consumer step other than arming that neither enters nor leaves the firing
part; `hret` says where such a step may lead while the flag is up. -/
theorem Rendezvous.Phase.consumer_quiet {E R C : Type u} {r : R} {c : C}
    {v : Rendezvous E R C} {q : SetCallback R C} (hv : v.Phase r c) (callback : Option C)
    (hfire : v.consumer.firing = false) (hq : q.firing = false)
    (harm : q.armed = v.consumer.armed)
    (hkeep : v.consumer.armed = true → callback = v.state.callback)
    (hcb : v.Fresh r c → q.written = true → callback = some c)
    (hret : v.state.callbackReady = true → v.consumer.armed = true →
      q = .loadResultReady ∨ q = .tryCallback .exchange ∨
        q = .returned ∧ v.producer.exchanged = false) :
    Phase r c { v with state := { v.state with callback := callback }, consumer := q } := by
  have fresh (hf : v.Fresh r c) :
      Fresh r c { v with state := { v.state with callback := callback }, consumer := q } :=
    ⟨hf.resultMoves, hf.callbackMoves, hf.result, hcb hf, hf.submitted⟩
  cases hv with
  | unarmed ha hcr hf hp => exact .unarmed (harm.trans ha) hcr (fresh hf) hp
  | armed ha hcr hf hp _ => exact .armed (harm.trans ha) hcr (fresh hf) hp (hret hcr ha)
  | consumerFires pc hpc hF =>
    rw [hpc] at hfire
    cases pc with
    | exchange | returned => exact hF.elim
    | moveCallback | moveResult | execute =>
      simp [SetCallback.firing, TryCallback.firing] at hfire
  | producerFires pc hpc hF hcr hs ha _ =>
    obtain rfl := hkeep ha
    refine .producerFires pc hpc ?_ hcr hs (harm.trans ha) hq
    cases pc <;> exact hF
  | fired hm hm' hs hcr hpb hp ha _ => exact .fired hm hm' hs hcr hpb hp (harm.trans ha) hq

/-- The producer's exchange takes the flag, or finds it gone. -/
theorem Rendezvous.setResult_exchange_inv {E R C : Type u} {r : R} {c : C}
    {v v' : Rendezvous E R C} (hv : v.Inv r c) (hpc : v.producer = .tryCallback .exchange)
    (h : v.setResult = some v') : v'.Inv r c := by
  obtain ⟨hr, hc, ready, tried, phase⟩ := hv
  obtain ⟨state, p, q, sub⟩ := v
  obtain rfl := hpc
  have again (p : SetResult R C) (hp : ∀ x, p ≠ .writeResult x) :
      ∀ x, p = .writeResult x → x = r := fun x hx => (hp x hx).elim
  simp only [setResult, SharedState.tryCallback, Option.map_some, Option.some.injEq] at h
  subst h
  cases hcr : state.callbackReady with
  | true =>
    refine ⟨again _ (by simp), hc, ready, fun _ _ => rfl, ?_⟩
    cases phase with
    | unarmed _ hcr' | producerFires _ _ _ hcr' | consumerFires _ _ _ hcr' | fired _ _ _ hcr' =>
      simp [hcr] at hcr'
    | armed ha _ hf _ hq =>
      have hq' : q.written = true ∧ q.firing = false := by
        rcases hq with rfl | rfl | ⟨rfl, _⟩ <;> exact ⟨rfl, rfl⟩
      exact .producerFires .moveCallback rfl
        ⟨hf.resultMoves, hf.callbackMoves, hf.result rfl, hf.callback hq'.1⟩ rfl
        (by simpa using hf.submitted) ha hq'.2
  | false =>
    have hs : ({ state with callbackReady := false } : SharedState E R C) = state := by
      rw [← hcr]
    simp only [hs, Bool.false_eq_true, if_false, List.append_nil]
    refine ⟨again _ (by simp), hc, ready, fun _ _ => rfl, ?_⟩
    cases phase with
    | unarmed ha _ hf _ =>
      exact .unarmed ha hcr ⟨hf.resultMoves, hf.callbackMoves, fun _ => hf.result rfl,
        hf.callback, hf.submitted⟩ rfl
    | armed _ hcr' => simp [hcr] at hcr'
    | producerFires pc hp hF =>
      cases hp
      exact hF.elim
    | consumerFires pc hpc hF _ hs' => exact .consumerFires pc hpc hF hcr hs' rfl rfl
    | fired hm hm' hs' _ _ _ ha hq => exact .fired hm hm' hs' hcr rfl rfl ha hq

theorem Rendezvous.setResult_inv {E R C : Type u} {r : R} {c : C} {v v' : Rendezvous E R C}
    (hv : v.Inv r c) (h : v.setResult = some v') : v'.Inv r c := by
  obtain ⟨hr, hc, ready, tried, phase⟩ := hv
  obtain ⟨state, p, q, sub⟩ := v
  have again (p : SetResult R C) (hp : ∀ x, p ≠ .writeResult x) :
      ∀ x, p = .writeResult x → x = r := fun x hx => (hp x hx).elim
  cases p with
  | notCalled | returned => simp [setResult] at h
  | writeResult x =>
    simp only [setResult, Option.some.injEq] at h
    subst h
    obtain rfl := hr x rfl
    exact ⟨again _ (by simp), hc, ready, tried,
      phase.producer_quiet _ rfl rfl (by simp [SetResult.published]) rfl (fun _ _ => rfl)⟩
  | storeReady =>
    simp only [setResult, Option.some.injEq] at h
    subst h
    exact ⟨again _ (by simp), hc, rfl, fun _ _ => rfl,
      phase.producer_quiet _ rfl rfl (by simp [SetResult.published]) rfl
        (fun hf _ => hf.result rfl)⟩
  | notifyAll =>
    simp only [setResult, Option.some.injEq] at h
    subst h
    exact ⟨again _ (by simp), hc, ready, fun _ _ => rfl,
      phase.producer_quiet state.result rfl rfl (fun _ => ⟨rfl, rfl⟩) rfl
        (fun hf _ => hf.result rfl)⟩
  | tryCallback pc =>
    have firing (hF : state.Firing r c pc) (hs : sub = []) (hcr : state.callbackReady = false)
        (ha : q.armed = true) (hq : q.firing = false) : v'.Inv r c := by
      cases ht : state.tryCallback pc with
      | none => cases pc <;> simp [SharedState.tryCallback, SharedState.Firing] at ht hF
      | some next =>
        obtain ⟨s', pc', out⟩ := next
        have hv' : v' = ⟨s', .tryCallback pc', q, sub ++ out⟩ := by
          cases pc <;> simp_all [setResult, SharedState.Firing]
        subst hv' hs
        obtain ⟨hcb, hrd, hstep⟩ := SharedState.tryCallback_firing hF ht
        refine ⟨again _ (by simp), hc, ?_, fun _ _ => by cases pc' <;> rfl, ?_⟩
        · rw [hrd, ready]
          cases pc' <;> cases pc <;> rfl
        · rcases hstep with ⟨rfl, hF'⟩ | ⟨rfl, rfl, hm, hm'⟩
          · exact .producerFires pc' rfl hF' (hcb.trans hcr) rfl ha hq
          · exact .fired hm hm' rfl (hcb.trans hcr) rfl rfl ha hq
    cases pc with
    | moveCallback | moveResult | execute =>
      cases phase with
      | unarmed _ _ _ hp | armed _ _ _ hp | consumerFires _ _ _ _ _ _ hp | fired _ _ _ _ _ hp =>
        simp [SetResult.firing, TryCallback.firing] at hp
      | producerFires pc hp hF hcr hs ha hq =>
        cases hp
        exact firing hF hs hcr ha hq
    | returned =>
      simp only [setResult, Option.some.injEq] at h
      subst h
      exact ⟨again _ (by simp), hc, ready, fun _ _ => rfl,
        phase.producer_quiet state.result rfl rfl (fun _ => ⟨rfl, rfl⟩) rfl
          (fun hf _ => hf.result rfl)⟩
    | exchange => exact Rendezvous.setResult_exchange_inv ⟨hr, hc, ready, tried, phase⟩ rfl h

/-- The consumer's exchange takes the flag, or finds it gone. -/
theorem Rendezvous.setCallback_exchange_inv {E R C : Type u} {r : R} {c : C}
    {v v' : Rendezvous E R C} (hv : v.Inv r c) (hpc : v.consumer = .tryCallback .exchange)
    (h : v.setCallback = some v') : v'.Inv r c := by
  obtain ⟨hr, hc, ready, tried, phase⟩ := hv
  obtain ⟨state, p, q, sub⟩ := v
  obtain rfl := hpc
  have again (q : SetCallback R C) (hq : ∀ x, q ≠ .writeCallback x) :
      ∀ x, q = .writeCallback x → x = c := fun x hx => (hq x hx).elim
  have hpub : p.published = true := tried .exchange rfl
  simp only [setCallback, SharedState.tryCallback, Option.map_some, Option.some.injEq] at h
  subst h
  cases hcr : state.callbackReady with
  | true =>
    refine ⟨hr, again _ (by simp), ready, fun _ _ => hpub, ?_⟩
    cases phase with
    | unarmed _ hcr' | producerFires _ _ _ hcr' | consumerFires _ _ _ hcr' | fired _ _ _ hcr' =>
      simp [hcr] at hcr'
    | armed _ _ hf hp _ =>
      have hw : p.written = true := by
        cases p <;> simp_all [SetResult.published, SetResult.written]
      exact .consumerFires .moveCallback rfl
        ⟨hf.resultMoves, hf.callbackMoves, hf.result hw, hf.callback rfl⟩ rfl
        (by simpa using hf.submitted) hpub hp
  | false =>
    have hs : ({ state with callbackReady := false } : SharedState E R C) = state := by
      rw [← hcr]
    simp only [hs, Bool.false_eq_true, if_false, List.append_nil]
    refine ⟨hr, again _ (by simp), ready, fun _ _ => hpub, ?_⟩
    cases phase with
    | unarmed ha => simp [SetCallback.armed] at ha
    | armed _ hcr' => simp [hcr] at hcr'
    | producerFires pc hp hF _ hs' => exact .producerFires pc hp hF hcr hs' rfl rfl
    | consumerFires pc hpc hF =>
      cases hpc
      exact hF.elim
    | fired hm hm' hs' _ hpb hp => exact .fired hm hm' hs' hcr hpb hp rfl rfl

theorem Rendezvous.setCallback_inv {E R C : Type u} {r : R} {c : C}
    {v v' : Rendezvous E R C} (hv : v.Inv r c) (h : v.setCallback = some v') :
    v'.Inv r c := by
  obtain ⟨hr, hc, ready, tried, phase⟩ := hv
  obtain ⟨state, p, q, sub⟩ := v
  have again (q : SetCallback R C) (hq : ∀ x, q ≠ .writeCallback x) :
      ∀ x, q = .writeCallback x → x = c := fun x hx => (hq x hx).elim
  cases q with
  | notCalled | returned => simp [setCallback] at h
  | writeCallback x =>
    simp only [setCallback, Option.some.injEq] at h
    subst h
    obtain rfl := hc x rfl
    exact ⟨hr, again _ (by simp), ready, by simp,
      phase.consumer_quiet _ rfl rfl rfl (by simp [SetCallback.armed]) (fun _ _ => rfl)
        (by simp [SetCallback.armed])⟩
  | storeReady =>
    simp only [setCallback, Option.some.injEq] at h
    subst h
    refine ⟨hr, again _ (by simp), ready, by simp, ?_⟩
    cases phase with
    | unarmed _ hcr hf hp =>
      exact .armed rfl rfl ⟨hf.resultMoves, hf.callbackMoves, hf.result,
        fun _ => hf.callback rfl, hf.submitted⟩ hp (.inl rfl)
    | armed ha | producerFires _ _ _ _ _ ha | fired _ _ _ _ _ _ ha =>
      simp [SetCallback.armed] at ha
    | consumerFires _ hpc => simp at hpc
  | loadResultReady =>
    simp only [setCallback, Option.some.injEq] at h
    subst h
    cases hp : p.published with
    | true =>
      have hr1 : state.resultReady = 1 := by simpa [hp] using ready
      simp only [hr1, if_true]
      exact ⟨hr, again _ (by simp), ready, fun _ _ => hp,
        phase.consumer_quiet state.callback rfl rfl rfl (fun _ => rfl)
          (fun hf _ => hf.callback rfl) (fun _ _ => .inr (.inl rfl))⟩
    | false =>
      have hr0 : state.resultReady = 0 := by simpa [hp] using ready
      have hex : p.exchanged = false := by
        cases p <;> simp_all [SetResult.published, SetResult.exchanged]
      simp only [hr0, Nat.zero_ne_one, if_false]
      exact ⟨hr, again _ (by simp), ready, by simp,
        phase.consumer_quiet state.callback rfl rfl rfl (fun _ => rfl)
          (fun hf _ => hf.callback rfl) (fun _ _ => .inr (.inr ⟨rfl, hex⟩))⟩
  | tryCallback pc =>
    have hpub : p.published = true := tried pc rfl
    have firing (hF : state.Firing r c pc) (hs : sub = []) (hcr : state.callbackReady = false)
        (hp : p.firing = false) : v'.Inv r c := by
      cases ht : state.tryCallback pc with
      | none => cases pc <;> simp [SharedState.tryCallback, SharedState.Firing] at ht hF
      | some next =>
        obtain ⟨s', pc', out⟩ := next
        have hv' : v' = ⟨s', p, .tryCallback pc', sub ++ out⟩ := by
          cases pc <;> simp_all [setCallback, SharedState.Firing]
        subst hv' hs
        obtain ⟨hcb, hrd, hstep⟩ := SharedState.tryCallback_firing hF ht
        refine ⟨hr, again _ (by simp), hrd.trans ready, fun _ _ => hpub, ?_⟩
        rcases hstep with ⟨rfl, hF'⟩ | ⟨rfl, rfl, hm, hm'⟩
        · exact .consumerFires pc' rfl hF' (hcb.trans hcr) rfl hpub hp
        · exact .fired hm hm' rfl (hcb.trans hcr) hpub hp rfl rfl
    cases pc with
    | moveCallback | moveResult | execute =>
      cases phase with
      | unarmed ha => simp [SetCallback.armed] at ha
      | armed _ _ _ _ hq => simp at hq
      | producerFires _ _ _ _ _ _ hq | fired _ _ _ _ _ _ _ hq =>
        simp [SetCallback.firing, TryCallback.firing] at hq
      | consumerFires pc hpc hF hcr hs _ hp =>
        cases hpc
        exact firing hF hs hcr hp
    | returned =>
      simp only [setCallback, Option.some.injEq] at h
      subst h
      cases phase with
      | unarmed ha => simp [SetCallback.armed] at ha
      | armed _ _ _ _ hq => simp at hq
      | producerFires pc hp hF hcr hs =>
        exact ⟨hr, again _ (by simp), ready, by simp, .producerFires pc hp hF hcr hs rfl rfl⟩
      | consumerFires pc hpc hF =>
        cases hpc
        exact hF.elim
      | fired hm hm' hs hcr hpb hp =>
        exact ⟨hr, again _ (by simp), ready, by simp, .fired hm hm' hs hcr hpb hp rfl rfl⟩
    | exchange => exact Rendezvous.setCallback_exchange_inv ⟨hr, hc, ready, tried, phase⟩ rfl h

theorem Rendezvous.setResult_executor {E R C : Type u} {v v' : Rendezvous E R C}
    (h : v.setResult = some v') : v'.state.executor = v.state.executor := by
  obtain ⟨state, p, q, sub⟩ := v
  cases p with
  | notCalled | returned => simp [setResult] at h
  | writeResult | storeReady | notifyAll =>
    simp only [setResult, Option.some.injEq] at h
    subst h
    rfl
  | tryCallback pc =>
    cases pc <;>
      simp only [setResult, SharedState.tryCallback, Option.map_some, Option.some.injEq] at h <;>
      subst h <;> rfl

theorem Rendezvous.setCallback_executor {E R C : Type u} {v v' : Rendezvous E R C}
    (h : v.setCallback = some v') : v'.state.executor = v.state.executor := by
  obtain ⟨state, p, q, sub⟩ := v
  cases q with
  | notCalled | returned => simp [setCallback] at h
  | writeCallback | storeReady | loadResultReady =>
    simp only [setCallback, Option.some.injEq] at h
    subst h
    rfl
  | tryCallback pc =>
    cases pc <;>
      simp only [setCallback, SharedState.tryCallback, Option.map_some, Option.some.injEq] at h <;>
      subst h <;> rfl

theorem rendezvous_inv {E R C : Type u} {e : E} {r : R} {c : C} {v : Rendezvous E R C}
    (h : (rendezvous e r c).Reachable v) : v.Inv r c ∧ v.state.executor = e := by
  induction h with
  | init =>
    refine ⟨⟨?_, ?_, rfl, by simp [rendezvous], ?_⟩, rfl⟩
    · intro x hx; cases hx; rfl
    · intro x hx; cases hx; rfl
    · exact .unarmed rfl rfl ⟨rfl, rfl, nofun, nofun, rfl⟩ rfl
  | @step v v' l _ hl ih =>
    cases l with
    | producer =>
      exact ⟨Rendezvous.setResult_inv ih.1 hl, (Rendezvous.setResult_executor hl).trans ih.2⟩
    | consumer =>
      exact ⟨Rendezvous.setCallback_inv ih.1 hl, (Rendezvous.setCallback_executor hl).trans ih.2⟩

/-- Nothing is submitted before both arguments are in place, and nothing is
taken out of the state a second time. -/
theorem Rendezvous.Inv.submitted {E R C : Type u} {r : R} {c : C} {v : Rendezvous E R C}
    (hv : v.Inv r c) : v.submitted = [] ∨
      v.submitted = [⟨v.state.executor, some c, some r⟩] ∧
        v.producer.written = true ∧ v.consumer.written = true := by
  cases hv.phase with
  | unarmed _ _ hf | armed _ _ hf => exact .inl hf.submitted
  | producerFires _ _ _ _ hs | consumerFires _ _ _ _ hs => exact .inl hs
  | fired _ _ hs _ hpub _ ha _ =>
    refine .inr ⟨hs, ?_, ?_⟩
    · cases hp : v.producer <;> simp_all [SetResult.published, SetResult.written]
    · cases hq : v.consumer <;> simp_all [SetCallback.armed, SetCallback.written]

theorem Rendezvous.Inv.moves {E R C : Type u} {r : R} {c : C} {v : Rendezvous E R C}
    (hv : v.Inv r c) : v.state.resultMoves ≤ 1 ∧ v.state.callbackMoves ≤ 1 := by
  have firing {pc : TryCallback R C} (hF : v.state.Firing r c pc) :
      v.state.resultMoves ≤ 1 ∧ v.state.callbackMoves ≤ 1 := by
    cases pc with
    | exchange | returned => exact hF.elim
    | moveCallback | moveResult | execute =>
      simp only [SharedState.Firing] at hF
      omega
  cases hv.phase with
  | unarmed _ _ hf | armed _ _ hf =>
    have := hf.resultMoves
    have := hf.callbackMoves
    omega
  | producerFires _ _ hF | consumerFires _ _ hF => exact firing hF
  | fired hm hm' => omega

theorem Rendezvous.Inv.returned {E R C : Type u} {r : R} {c : C} {v : Rendezvous E R C}
    (hv : v.Inv r c) (hp : v.producer = .returned) (hq : v.consumer = .returned) :
    v.submitted = [⟨v.state.executor, some c, some r⟩] := by
  cases hv.phase with
  | unarmed ha => simp [hq, SetCallback.armed] at ha
  | armed _ _ _ _ h => simp [hp, hq, SetResult.exchanged] at h
  | producerFires _ hpc => simp [hp] at hpc
  | consumerFires _ hpc => simp [hq] at hpc
  | fired _ _ hs => exact hs

/-! The two calls made one after the other's start, at any time. -/

theorem Rendezvous.Inv.new {E R C : Type u} (e : E) (r : R) (c : C) :
    Rendezvous.Inv r c ⟨makeSharedState e, .notCalled, .notCalled, []⟩ :=
  ⟨nofun, nofun, rfl, nofun, .unarmed rfl rfl ⟨rfl, rfl, nofun, nofun, rfl⟩ rfl⟩

theorem Rendezvous.Inv.resolve {E R C : Type u} {r : R} {c : C} {v : Rendezvous E R C}
    (hv : v.Inv r c) (hp : v.producer = .notCalled) :
    Rendezvous.Inv r c { v with producer := .writeResult r } := by
  obtain ⟨hr, hc, ready, tried, phase⟩ := hv
  obtain ⟨state, p, q, sub⟩ := v
  obtain rfl : p = .notCalled := hp
  refine ⟨fun x hx => ?_, hc, ready, fun pc hpc => ?_, ?_⟩
  · cases hx
    rfl
  · have := tried pc hpc
    simp [SetResult.published] at this
  · exact phase.producer_quiet _ rfl rfl (by simp [SetResult.published]) rfl
      (by simp [SetResult.written])

/-- Before the call the result is open. -/
theorem Rendezvous.Inv.result_any {E R C : Type u} {r : R} {c : C} {v : Rendezvous E R C}
    (hv : v.Inv r c) (hp : v.producer = .notCalled) (r' : R) : v.Inv r' c := by
  obtain ⟨-, hc, ready, tried, phase⟩ := hv
  have fresh (hf : v.Fresh r c) : v.Fresh r' c :=
    ⟨hf.resultMoves, hf.callbackMoves, fun h => by simp [hp, SetResult.written] at h, hf.callback,
      hf.submitted⟩
  refine ⟨fun x hx => by simp [hp] at hx, hc, ready, tried, ?_⟩
  cases phase with
  | unarmed ha hcr hf hq => exact .unarmed ha hcr (fresh hf) hq
  | armed ha hcr hf hq h => exact .armed ha hcr (fresh hf) hq h
  | producerFires pc hpc => simp [hp] at hpc
  | consumerFires _ _ _ _ _ hpub | fired _ _ _ _ hpub => simp [hp, SetResult.published] at hpub

theorem Rendezvous.Inv.callback {E R C : Type u} {r : R} {c : C} {v : Rendezvous E R C}
    (hv : v.Inv r c) (hq : v.consumer = .notCalled) :
    Rendezvous.Inv r c { v with consumer := .writeCallback c } := by
  obtain ⟨hr, hc, ready, tried, phase⟩ := hv
  obtain ⟨state, p, q, sub⟩ := v
  obtain rfl : q = .notCalled := hq
  refine ⟨hr, fun x hx => ?_, ready, by simp, ?_⟩
  · cases hx
    rfl
  · exact phase.consumer_quiet _ rfl rfl rfl (fun _ => rfl) (by simp [SetCallback.written])
      (by simp [SetCallback.armed])

/-- `SetExecutor` comes before the callback. -/
theorem Rendezvous.Inv.setExecutor {E R C : Type u} {r : R} {c : C} {v : Rendezvous E R C}
    (hv : v.Inv r c) (hq : v.consumer = .notCalled) (e : E) :
    Rendezvous.Inv r c { v with state := v.state.setExecutor e } := by
  obtain ⟨hr, hc, ready, tried, phase⟩ := hv
  refine ⟨hr, hc, ready, tried, ?_⟩
  cases phase with
  | unarmed ha hcr hf hp =>
    exact .unarmed ha hcr ⟨hf.resultMoves, hf.callbackMoves, hf.result, hf.callback,
      hf.submitted⟩ hp
  | armed ha | fired _ _ _ _ _ _ ha => simp [hq, SetCallback.armed] at ha
  | producerFires _ _ _ _ _ ha => simp [hq, SetCallback.armed] at ha
  | consumerFires _ hpc => simp [hq] at hpc

/-! The calls are wait-free: a call has at most `remaining` steps to go, and its
next step exists until it has returned. -/

def TryCallback.remaining {R C : Type u} : TryCallback R C → Nat
  | .exchange => 4
  | .moveCallback => 3
  | .moveResult _ => 2
  | .execute _ _ => 1
  | .returned => 0

def SetResult.remaining {R C : Type u} : SetResult R C → Nat
  | .notCalled => 9
  | .writeResult _ => 8
  | .storeReady => 7
  | .tryCallback pc => pc.remaining + 2
  | .notifyAll => 1
  | .returned => 0

def SetCallback.remaining {R C : Type u} : SetCallback R C → Nat
  | .notCalled => 9
  | .writeCallback _ => 8
  | .storeReady => 7
  | .loadResultReady => 6
  | .tryCallback pc => pc.remaining + 1
  | .returned => 0

theorem Rendezvous.setResult_remaining {E R C : Type u} {v v' : Rendezvous E R C}
    (h : v.setResult = some v') : v'.producer.remaining < v.producer.remaining ∧
      v'.producer ≠ .notCalled ∧ v.producer ≠ .notCalled ∧ v'.consumer = v.consumer := by
  obtain ⟨state, p, q, sub⟩ := v
  cases p with
  | notCalled | returned => simp [setResult] at h
  | writeResult | storeReady | notifyAll =>
    simp only [setResult, Option.some.injEq] at h
    subst h
    simp [SetResult.remaining, TryCallback.remaining]
  | tryCallback pc =>
    cases hcr : state.callbackReady <;> cases pc <;>
      simp only [setResult, SharedState.tryCallback, Option.map_some, Option.some.injEq] at h <;>
      subst h <;> simp [SetResult.remaining, TryCallback.remaining, hcr]

theorem Rendezvous.setCallback_remaining {E R C : Type u} {v v' : Rendezvous E R C}
    (h : v.setCallback = some v') : v'.consumer.remaining < v.consumer.remaining ∧
      v'.consumer ≠ .notCalled ∧ v.consumer ≠ .notCalled ∧ v'.producer = v.producer := by
  obtain ⟨state, p, q, sub⟩ := v
  cases q with
  | notCalled | returned => simp [setCallback] at h
  | writeCallback | storeReady =>
    simp only [setCallback, Option.some.injEq] at h
    subst h
    simp [SetCallback.remaining]
  | loadResultReady =>
    simp only [setCallback, Option.some.injEq] at h
    subst h
    by_cases hready : state.resultReady = 1 <;>
      simp [SetCallback.remaining, TryCallback.remaining, hready]
  | tryCallback pc =>
    cases hcr : state.callbackReady <;> cases pc <;>
      simp only [setCallback, SharedState.tryCallback, Option.map_some, Option.some.injEq] at h <;>
      subst h <;> simp [SetCallback.remaining, TryCallback.remaining, hcr]

theorem Rendezvous.setResult_submitted {E R C : Type u} {v v' : Rendezvous E R C}
    (h : v.setResult = some v') : v.submitted <+: v'.submitted := by
  obtain ⟨state, p, q, sub⟩ := v
  cases p with
  | notCalled | returned => simp [setResult] at h
  | writeResult | storeReady | notifyAll =>
    simp only [setResult, Option.some.injEq] at h
    subst h
    exact List.prefix_rfl
  | tryCallback pc =>
    cases pc <;>
      simp only [setResult, SharedState.tryCallback, Option.map_some, Option.some.injEq] at h <;>
      subst h <;> simp

theorem Rendezvous.setCallback_submitted {E R C : Type u} {v v' : Rendezvous E R C}
    (h : v.setCallback = some v') : v.submitted <+: v'.submitted := by
  obtain ⟨state, p, q, sub⟩ := v
  cases q with
  | notCalled | returned => simp [setCallback] at h
  | writeCallback | storeReady | loadResultReady =>
    simp only [setCallback, Option.some.injEq] at h
    subst h
    exact List.prefix_rfl
  | tryCallback pc =>
    cases pc <;>
      simp only [setCallback, SharedState.tryCallback, Option.map_some, Option.some.injEq] at h <;>
      subst h <;> simp

theorem Rendezvous.setResult_isSome {E R C : Type u} {v : Rendezvous E R C}
    (hcalled : v.producer ≠ .notCalled) (hp : v.producer ≠ .returned) : v.setResult.isSome := by
  obtain ⟨state, p, q, sub⟩ := v
  cases p with
  | notCalled => exact absurd rfl hcalled
  | returned => exact absurd rfl hp
  | tryCallback pc => cases pc <;> rfl
  | _ => rfl

theorem Rendezvous.setCallback_isSome {E R C : Type u} {v : Rendezvous E R C}
    (hcalled : v.consumer ≠ .notCalled) (hq : v.consumer ≠ .returned) :
    v.setCallback.isSome := by
  obtain ⟨state, p, q, sub⟩ := v
  cases q with
  | notCalled => exact absurd rfl hcalled
  | returned => exact absurd rfl hq
  | tryCallback pc => cases pc <;> rfl
  | _ => rfl

/-- Whatever the order of the memory accesses of the two calls, their meeting
submits one task, to the executor of the state, applying `callback` to `result`. -/
theorem rendezvous_fires_once {E R C : Type u} (executor : E) (result : R) (callback : C)
    {v : Rendezvous E R C} (h : (rendezvous executor result callback).Reachable v) :
    (v.producer = .returned → v.consumer = .returned →
        v.submitted = [⟨executor, some callback, some result⟩]) ∧
      (v.submitted = [] ∨ v.submitted = [⟨executor, some callback, some result⟩] ∧
        v.producer.written = true ∧ v.consumer.written = true) ∧
      v.state.resultMoves ≤ 1 ∧ v.state.callbackMoves ≤ 1 := by
  obtain ⟨hv, rfl⟩ := rendezvous_inv h
  exact ⟨hv.returned, hv.submitted, hv.moves⟩

/-- Both parties see the other's flag: the consumer wins the exchange. -/
theorem rendezvous_fires_once_race :
    ∃ v, (rendezvous 0 1 2).Reachable v ∧ v.submitted = [⟨0, some 2, some 1⟩] := by
  have h : (rendezvous 0 1 2).Reachable _ := Machine.reachable_of_exec
    ([.producer, .consumer, .producer, .consumer, .consumer, .consumer, .producer, .producer,
      .producer, .consumer, .consumer, .consumer, .consumer]) rfl
  exact ⟨_, h, (rendezvous_fires_once 0 1 2 h).1 rfl rfl⟩

end ConcurrentProgramming.Futures
