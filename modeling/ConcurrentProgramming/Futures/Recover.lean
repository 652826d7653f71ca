import ConcurrentProgramming.Futures.Chain

/-!
`Recover`, called on the future of any chain of `Then` stages, with another such
chain attached to the future it returns. The lambda of `Recover` takes the place
of the callback at the end of the chain upstream and holds the promise at the
start of the one downstream.
-/

set_option autoImplicit false

namespace ConcurrentProgramming.Futures
open Interleaving

universe u

/-- `wheels::Result`, which is not part of the sources: `getError` is what
`GetError()` gives for a value, `none` if it does not return; `convert` passes a
`Result<T>` for a `T`, where an error is thrown. -/
structure ResultLibrary (V X : Type u) where
  getError : V → Option X
  convert : Except X V → Except X V

/-- What an error handler returns, if it does not throw. -/
abbrev Handler (V X : Type u) := X → Except X (Except X V)

/-- What the lambda sets its promise to, by `SetValue` or by `SetError`. -/
def recoverLambda {V X : Type u} (lib : ResultLibrary V X) (handler : Handler V X) :
    Except X V → Option (Except X V)
  | .ok v => (lib.getError v).map .error
  | .error e => some ((handler e).bind lib.convert)

/-- The errors for which the lambda calls the handler. -/
def handlerCalls {V X : Type u} : Except X V → List X
  | .ok _ => []
  | .error e => [e]

/-- Recovery as documented: the identity on values and the handler on errors. -/
def recovered {V X : Type u} (handler : Handler V X) : Except X V → Except X V
  | .ok v => .ok v
  | .error e => (handler e).bind id

/-- `handled` are the calls of the handler, `resolved` the calls of `SetResult`
by the lambda; the contract of `down` is made by the call of `Recover`. -/
structure Recovering (E V X : Type u) where
  up : FutureChain E V X
  down : Option (FutureChain E V X)
  handled : List X
  resolved : List (Except X V)

inductive RecoverLabel where
  | up (l : ChainLabel)
  | down (l : ChainLabel)
  deriving DecidableEq, Repr

/-- A chain on a new contract. -/
def FutureChain.start {E V X : Type u} (executor : E) (stages : List (Stage E V X)) :
    FutureChain E V X :=
  ⟨.stages stages 0, false, Function.update (fun _ => none) 0 (some (.new executor)), fun _ => none,
    [], [], false⟩

namespace Recovering

def resolve {E V X : Type u} (s : Recovering E V X) (r : Except X V) : Recovering E V X :=
  { s with
    resolved := s.resolved ++ [r]
    down := s.down.map fun d => { d.resolve 0 r with originCalled := true } }

def lambda {E V X : Type u} (lib : ResultLibrary V X) (handler : Handler V X)
    (s : Recovering E V X) (val : Except X V) : Recovering E V X :=
  let s := { s with handled := s.handled ++ handlerCalls val }
  match recoverLambda lib handler val with
  | some r => s.resolve r
  | none => s

/-- The call of `Recover` makes a contract for the executor of the future. -/
def contract {E V X : Type u} (rest : List (Stage E V X)) (s : Recovering E V X) :
    ChainLabel → Option (FutureChain E V X)
  | .attach =>
    match s.up.attach with
    | .stages [] k => (s.up.links k).map fun l => .start l.shared.state.getExecutor rest
    | _ => s.down
  | _ => s.down

/-- What has been called at the end of the chain upstream is the lambda. -/
def step {E V X : Type u} (lib : ResultLibrary V X) (handler : Handler V X) (origin : Origin E V X)
    (rest : List (Stage E V X)) (s : Recovering E V X) : RecoverLabel → Option (Recovering E V X)
  | .up l =>
    (s.up.step origin l).map fun up =>
      (up.finals.drop s.up.finals.length).foldl (lambda lib handler)
        { s with up := up, down := s.contract rest l }
  | .down .origin => none
  | .down .attach =>
    match s.up.attach with
    | .returned => s.down.bind fun d => d.attachStep.map fun d => { s with down := some d }
    | _ => none
  | .down l => s.down.bind fun d => (d.step origin l).map fun d => { s with down := some d }

end Recovering

/-- `stages` are attached to `origin`, then `Recover(handler)`, then `rest`. -/
def recovering {E V X : Type u} (lib : ResultLibrary V X) (handler : Handler V X)
    (origin : Origin E V X) (stages rest : List (Stage E V X)) :
    Machine (Recovering E V X) RecoverLabel where
  init := ⟨.start origin.executor stages, none, [], []⟩
  step := Recovering.step lib handler origin rest

/-! What a step of a chain does to the end of the chain. -/

/-- The last callback is attached, or being attached. -/
def Attach.subscribed {E V X : Type u} : Attach E V X → Bool
  | .subscribe _ | .returned => true
  | .stages _ _ | .setCallback _ _ => false

namespace FutureChain

structure Keeps {E V X : Type u} (s t : FutureChain E V X) : Prop where
  attach : t.attach = s.attach
  originCalled : t.originCalled = s.originCalled
  finals : s.finals <+: t.finals

theorem resolve_keeps {E V X : Type u} (s : FutureChain E V X) (p : Nat) (r : Except X V) :
    s.Keeps (s.resolve p r) := by
  unfold FutureChain.resolve
  split
  · exact ⟨rfl, rfl, List.prefix_rfl⟩
  · split <;> exact ⟨rfl, rfl, List.prefix_rfl⟩

theorem runTask_keeps {E V X : Type u} (s : FutureChain E V X)
    (t : Submission E (Except X V) (Callback E V X)) : s.Keeps (s.runTask t) := by
  unfold FutureChain.runTask
  split
  · rename_i callback val _ _
    cases callback with
    | final => exact ⟨rfl, rfl, List.prefix_append ..⟩
    | forward p => exact s.resolve_keeps p val
    | then_ c p =>
      cases val with
      | error e => cases c <;> exact s.resolve_keeps p (.error e)
      | ok v =>
        have invoked (r : Except X V) : s.Keeps ((s.invoke p).resolve p r) :=
          have h := (s.invoke p).resolve_keeps p r
          ⟨h.attach, h.originCalled, h.finals⟩
        cases c with
        | sync f => exact invoked (f v)
        | async g =>
          simp only [FutureChain.call]
          split
          · exact invoked _
          · exact ⟨rfl, rfl, List.prefix_rfl⟩
  · exact ⟨rfl, rfl, List.prefix_rfl⟩

theorem step_keeps {E V X : Type u} {origin : Origin E V X} {s t : FutureChain E V X}
    {l : ChainLabel} (ht : s.step origin l = some t) (hattach : l ≠ .attach)
    (horigin : l ≠ .origin) : s.Keeps t := by
  cases l with
  | attach => exact absurd rfl hattach
  | origin => exact absurd rfl horigin
  | setResult k | innerSetResult p | innerSetCallback p =>
    simp only [FutureChain.step, Option.bind_eq_some_iff, Option.map_eq_some_iff] at ht
    obtain ⟨l, -, l', -, rfl⟩ := ht
    exact ⟨rfl, rfl, List.prefix_rfl⟩
  | run k task | runInner p task =>
    simp only [FutureChain.step, Option.bind_eq_some_iff, Option.ite_none_left_eq_some,
      Option.map_eq_some_iff] at ht
    obtain ⟨l, -, -, t, -, rfl⟩ := ht
    obtain ⟨hattach, horigin, hfinals⟩ := runTask_keeps _ t
    exact ⟨hattach, horigin, hfinals⟩

theorem originStep_keeps {E V X : Type u} {origin : Origin E V X} {s t : FutureChain E V X}
    (ht : s.step origin .origin = some t) : t.attach = s.attach ∧ s.finals <+: t.finals := by
  simp only [FutureChain.step, Option.ite_none_left_eq_some] at ht
  obtain ⟨-, ht⟩ := ht
  obtain rfl := Option.some.inj ht
  exact ⟨(s.resolve_keeps 0 origin.result).attach, (s.resolve_keeps 0 origin.result).finals⟩

/-- Attaching goes on to the last callback from an empty list of stages only. -/
theorem attachStep_keeps {E V X : Type u} {s t : FutureChain E V X} (ht : s.attachStep = some t) :
    t.finals = s.finals ∧ t.originCalled = s.originCalled ∧
      (s.attach.subscribed = true → t.attach.subscribed = true) ∧
      ((∃ k, s.attach = .stages [] k ∧ (s.links k).isSome ∧ t.attach.subscribed = true) ∨
        (∀ k, s.attach ≠ .stages [] k) ∧ t.attach.subscribed = s.attach.subscribed) := by
  unfold FutureChain.attachStep at ht
  cases hattach : s.attach with
  | stages rest k =>
    cases rest with
    | nil =>
      simp only [hattach, Option.map_eq_some_iff] at ht
      obtain ⟨l, hl, rfl⟩ := ht
      exact ⟨rfl, rfl, fun _ => rfl, .inl ⟨k, rfl, by simp [hl], rfl⟩⟩
    | cons stage rest =>
      cases stage <;>
        simp only [hattach, Option.map_eq_some_iff] at ht <;>
        obtain ⟨l, -, rfl⟩ := ht <;>
        exact ⟨rfl, rfl, by simp [Attach.subscribed], .inr ⟨by simp, rfl⟩⟩
  | setCallback rest k | subscribe k =>
    simp only [hattach, Option.bind_eq_some_iff] at ht
    obtain ⟨l, -, ht⟩ := ht
    split at ht
    · obtain rfl := Option.some.inj ht
      exact ⟨rfl, rfl, by simp [Attach.subscribed], .inr ⟨by simp, rfl⟩⟩
    · obtain ⟨l', -, rfl⟩ := Option.map_eq_some_iff.mp ht
      exact ⟨rfl, rfl, by simp [hattach, FutureChain.setLink],
        .inr ⟨by simp, by simp [hattach, FutureChain.setLink]⟩⟩
  | returned => simp [hattach] at ht

/-- Nothing is called at the end of the chain before the last callback is attached. -/
theorem Inv.subscribed {E V X : Type u} {origin : Origin E V X} {stages : List (Stage E V X)}
    {s : FutureChain E V X} (hs : s.Inv origin stages) (h : s.finals ≠ []) :
    s.attach.subscribed = true := by
  rw [hs.flow.finals] at h
  have hran : ranOf s.links (thens stages).length = true := by
    by_contra hran
    simp [hran] at h
  cases hl : s.links (thens stages).length with
  | none => simp [ranOf, hl] at hran
  | some l =>
    rw [ranOf, hl, Option.any_some] at hran
    have hlt := (hs.links.attached _ l hl).mp ((hs.links.ok _ l hl).attached_of_run hran)
    have hahead := hs.links.ahead
    cases hattach : s.attach with
    | stages rest k =>
      rw [hattach] at hlt hahead
      exact absurd hahead.1 (Nat.not_le.mpr hlt)
    | setCallback rest k =>
      rw [hattach] at hlt hahead
      exact absurd hahead.1 (Nat.not_lt.mpr (Nat.le_of_lt_succ hlt))
    | subscribe k | returned => rfl

theorem Inv.finals_eq {E V X : Type u} {origin : Origin E V X} {stages : List (Stage E V X)}
    {s : FutureChain E V X} (hs : s.Inv origin stages) :
    s.finals = [] ∨ s.finals = [fold (thens stages) origin.result] := by
  rw [hs.flow.finals]
  split
  · exact .inr rfl
  · exact .inl rfl

/-- Who sets the promise of the first link matters to one step only. -/
theorem step_origin {E V X : Type u} (origin origin' : Origin E V X) (s : FutureChain E V X)
    {l : ChainLabel} (hl : l ≠ .origin) : s.step origin l = s.step origin' l := by
  cases l with
  | origin => exact absurd rfl hl
  | _ => rfl

end FutureChain

namespace Recovering

/-- Whether the lambda has been called, and what it has done. -/
inductive Lambda {E V X : Type u} (lib : ResultLibrary V X) (handler : Handler V X)
    (r : Except X V) (s : Recovering E V X) : Prop
  | waiting : s.up.finals = [] → s.handled = [] → s.resolved = [] →
      (∀ d, s.down = some d → d.originCalled = false) → Lambda lib handler r s
  | called : s.up.finals = [r] → s.handled = handlerCalls r →
      s.resolved = (recoverLambda lib handler r).toList →
      (∀ d, s.down = some d → d.originCalled = (recoverLambda lib handler r).isSome) →
      Lambda lib handler r s

/-- What the chain downstream is given, if anything. -/
def downOrigin {E V X : Type u} (lib : ResultLibrary V X) (handler : Handler V X) (e : E)
    (r : Except X V) : Origin E V X := .contract e ((recoverLambda lib handler r).getD r)

theorem downOrigin_result {E V X : Type u} {lib : ResultLibrary V X} {handler : Handler V X} {e : E}
    {r out : Except X V} (h : recoverLambda lib handler r = some out) :
    (downOrigin lib handler e r).result = out := by
  rw [downOrigin, Origin.result, h, Option.getD_some]

structure Inv {E V X : Type u} (lib : ResultLibrary V X) (handler : Handler V X)
    (origin : Origin E V X) (stages rest : List (Stage E V X)) (s : Recovering E V X) : Prop where
  up : (futureChain origin stages).Reachable s.up
  down : ∀ d, s.down = some d → ∃ e, (futureChain (downOrigin lib handler e
    (fold (thens stages) origin.result)) rest).Reachable d
  made : s.down.isSome = s.up.attach.subscribed
  lambda : Lambda lib handler (fold (thens stages) origin.result) s

theorem inv_init {E V X : Type u} (lib : ResultLibrary V X) (handler : Handler V X)
    (origin : Origin E V X) (stages rest : List (Stage E V X)) :
    Inv lib handler origin stages rest (recovering lib handler origin stages rest).init :=
  ⟨.init, nofun, rfl, .waiting rfl rfl rfl nofun⟩

/-- The chain upstream moves without reaching its end. -/
theorem Inv.moves {E V X : Type u} {lib : ResultLibrary V X} {handler : Handler V X}
    {origin : Origin E V X} {stages rest : List (Stage E V X)} {s : Recovering E V X}
    (hs : s.Inv lib handler origin stages rest) {t : FutureChain E V X}
    (ht : (futureChain origin stages).Reachable t) (hfinals : t.finals = s.up.finals)
    (hattach : t.attach.subscribed = s.up.attach.subscribed) :
    Inv lib handler origin stages rest { s with up := t } := by
  refine ⟨ht, hs.down, hs.made.trans hattach.symm, ?_⟩
  cases hs.lambda with
  | waiting hf hh hr hd => exact .waiting (hfinals.trans hf) hh hr hd
  | called hf hh hr hd => exact .called (hfinals.trans hf) hh hr hd

/-- The lambda runs. -/
theorem Inv.called {E V X : Type u} {lib : ResultLibrary V X} {handler : Handler V X}
    {origin : Origin E V X} {stages rest : List (Stage E V X)} {s : Recovering E V X}
    (hs : s.Inv lib handler origin stages rest) {t : FutureChain E V X}
    (ht : (futureChain origin stages).Reachable t) (hnil : s.up.finals = [])
    (hfinals : t.finals = [fold (thens stages) origin.result])
    (hattach : t.attach.subscribed = s.up.attach.subscribed) :
    Inv lib handler origin stages rest
      (Recovering.lambda lib handler { s with up := t } (fold (thens stages) origin.result)) := by
  cases hs.lambda with
  | called hf => simp [hnil] at hf
  | waiting _ hhandled hresolved hdown =>
    unfold Recovering.lambda
    cases hr : recoverLambda lib handler (fold (thens stages) origin.result) with
    | none =>
      refine ⟨ht, hs.down, hs.made.trans hattach.symm, .called hfinals (by simp [hhandled])
        (by simp [hresolved, hr]) fun d hd => ?_⟩
      rw [hr]
      exact hdown d hd
    | some r =>
      refine ⟨ht, fun d hd => ?_, ?_, .called hfinals (by simp [resolve, hhandled])
        (by simp [resolve, hresolved, hr]) fun d hd => ?_⟩
      · obtain ⟨d', hd', rfl⟩ := Option.map_eq_some_iff.mp hd
        obtain ⟨e, he⟩ := hs.down d' hd'
        refine ⟨e, .step (l := .origin) he ?_⟩
        simp [futureChain, FutureChain.step, hdown d' hd', downOrigin_result hr]
      · simpa [resolve] using hs.made.trans hattach.symm
      · obtain ⟨d', -, rfl⟩ := Option.map_eq_some_iff.mp hd
        simp [hr]

theorem Inv.downMoves {E V X : Type u} {lib : ResultLibrary V X} {handler : Handler V X}
    {origin : Origin E V X} {stages rest : List (Stage E V X)} {s : Recovering E V X}
    (hs : s.Inv lib handler origin stages rest) {d t : FutureChain E V X} (hd : s.down = some d)
    (hstep : ∀ e, (futureChain (downOrigin lib handler e (fold (thens stages) origin.result))
      rest).Reachable d → (futureChain (downOrigin lib handler e
        (fold (thens stages) origin.result)) rest).Reachable t)
    (hcalled : t.originCalled = d.originCalled) :
    Inv lib handler origin stages rest { s with down := some t } := by
  have only (d' : FutureChain E V X) (hd' : some t = some d') :
      d'.originCalled = d.originCalled := by
    obtain rfl := Option.some.inj hd'
    exact hcalled
  refine ⟨hs.up, fun d' hd' => ?_, ?_, ?_⟩
  · obtain rfl := Option.some.inj hd'
    obtain ⟨e, he⟩ := hs.down d hd
    exact ⟨e, hstep e he⟩
  · rw [← hs.made, hd]
    rfl
  · cases hs.lambda with
    | waiting hf hh hr hw => exact .waiting hf hh hr fun d' hd' => (only d' hd').trans (hw d hd)
    | called hf hh hr hc => exact .called hf hh hr fun d' hd' => (only d' hd').trans (hc d hd)

/-- `Recover` is called: the contract is made, and its future is the start of a chain. -/
theorem Inv.made_of_attach {E V X : Type u} {lib : ResultLibrary V X} {handler : Handler V X}
    {origin : Origin E V X} {stages rest : List (Stage E V X)} {s : Recovering E V X}
    (hs : s.Inv lib handler origin stages rest) {k : Nat} {l : Link E V X} {t : FutureChain E V X}
    (hattach : s.up.attach = .stages [] k) (ht : (futureChain origin stages).Reachable t)
    (hfinals : t.finals = s.up.finals) (hsubscribed : t.attach.subscribed = true) :
    Inv lib handler origin stages rest
      { s with up := t, down := some (.start l.shared.state.getExecutor rest) } := by
  have hnone : s.up.finals = [] := by
    by_contra hne
    have := (FutureChain.inv hs.up).subscribed hne
    simp [hattach, Attach.subscribed] at this
  refine ⟨ht, fun d hd => ?_, hsubscribed.symm, ?_⟩
  · obtain rfl := Option.some.inj hd
    exact ⟨_, .init⟩
  · cases hs.lambda with
    | called hf => simp [hnone] at hf
    | waiting _ hh hr _ =>
      refine .waiting (hfinals.trans hnone) hh hr fun d hd => ?_
      obtain rfl := Option.some.inj hd
      rfl

theorem Inv.upStep {E V X : Type u} {lib : ResultLibrary V X} {handler : Handler V X}
    {origin : Origin E V X} {stages rest : List (Stage E V X)} {s : Recovering E V X}
    (hs : s.Inv lib handler origin stages rest) {l : ChainLabel} {t : FutureChain E V X}
    (ht : s.up.step origin l = some t) :
    Inv lib handler origin stages rest ((t.finals.drop s.up.finals.length).foldl
      (Recovering.lambda lib handler) { s with up := t, down := s.contract rest l }) := by
  have hreach : (futureChain origin stages).Reachable t := .step hs.up ht
  by_cases hl : l = .attach
  · subst hl
    obtain ⟨hfinals, -, -, hend⟩ := FutureChain.attachStep_keeps ht
    rw [hfinals, List.drop_length, List.foldl_nil]
    rcases hend with ⟨k, hattach, hk, hsubscribed⟩ | ⟨hne, hsubscribed⟩
    · obtain ⟨l, hl⟩ := Option.isSome_iff_exists.mp hk
      simp only [contract, hattach, hl, Option.map_some]
      exact hs.made_of_attach hattach hreach hfinals hsubscribed
    · have hsame : s.contract rest .attach = s.down := by
        cases hattach : s.up.attach with
        | stages left k =>
          cases left with
          | nil => exact absurd hattach (hne k)
          | cons => simp only [contract, hattach]
        | _ => simp only [contract, hattach]
      rw [hsame]
      exact hs.moves hreach hfinals hsubscribed
  · have hsame : s.contract rest l = s.down := by
      cases l with
      | attach => exact absurd rfl hl
      | _ => rfl
    obtain ⟨hattach, hprefix⟩ : t.attach = s.up.attach ∧ s.up.finals <+: t.finals := by
      by_cases horigin : l = .origin
      · subst horigin
        exact FutureChain.originStep_keeps ht
      · have hkeeps := FutureChain.step_keeps ht hl horigin
        exact ⟨hkeeps.attach, hkeeps.finals⟩
    rw [hsame]
    rcases (FutureChain.inv hs.up).finals_eq with hnil | hone
    · rcases (FutureChain.inv hreach).finals_eq with hnil' | hone'
      · rw [hnil', List.drop_nil, List.foldl_nil]
        exact hs.moves hreach (hnil'.trans hnil.symm) (by rw [hattach])
      · rw [hnil, hone']
        exact hs.called hreach hnil hone' (by rw [hattach])
    · rcases (FutureChain.inv hreach).finals_eq with hnil' | hone'
      · rw [hone, hnil'] at hprefix
        simp at hprefix
      · rw [hone, hone']
        exact hs.moves hreach (hone'.trans hone.symm) (by rw [hattach])

theorem Inv.step {E V X : Type u} {lib : ResultLibrary V X} {handler : Handler V X}
    {origin : Origin E V X} {stages rest : List (Stage E V X)} {s t : Recovering E V X}
    (hs : s.Inv lib handler origin stages rest) {l : RecoverLabel}
    (ht : s.step lib handler origin rest l = some t) : t.Inv lib handler origin stages rest := by
  cases l with
  | up l =>
    obtain ⟨up, hup, rfl⟩ := Option.map_eq_some_iff.mp ht
    exact hs.upStep hup
  | down l =>
    have moves {d d' : FutureChain E V X} (hl : l ≠ .origin) (hd : s.down = some d)
        (hstep : d.step origin l = some d') (hcalled : d'.originCalled = d.originCalled) :
        Inv lib handler origin stages rest { s with down := some d' } :=
      hs.downMoves hd (fun e he => he.step
        (by rw [← hstep]; exact FutureChain.step_origin _ _ d hl)) hcalled
    cases l with
    | origin => cases ht
    | attach =>
      simp only [Recovering.step] at ht
      split at ht
      · simp only [Option.bind_eq_some_iff, Option.map_eq_some_iff] at ht
        obtain ⟨d, hd, d', hstep, rfl⟩ := ht
        exact moves (by simp) hd hstep (FutureChain.attachStep_keeps hstep).2.1
      · cases ht
    | setResult | run | innerSetResult | innerSetCallback | runInner =>
      simp only [Recovering.step, Option.bind_eq_some_iff, Option.map_eq_some_iff] at ht
      obtain ⟨d, hd, d', hstep, rfl⟩ := ht
      exact moves (by simp) hd hstep (FutureChain.step_keeps hstep (by simp) (by simp)).originCalled

theorem inv {E V X : Type u} {lib : ResultLibrary V X} {handler : Handler V X}
    {origin : Origin E V X} {stages rest : List (Stage E V X)} {s : Recovering E V X}
    (h : (recovering lib handler origin stages rest).Reachable s) :
    s.Inv lib handler origin stages rest :=
  h.invariant (inv_init lib handler origin stages rest) fun _ _ _ _ hs ht => hs.step ht

/-! Runs end. -/

theorem start_remaining {E V X : Type u} (n : Nat) (e e' : E) (stages : List (Stage E V X)) :
    (FutureChain.start e stages).remaining n = (FutureChain.start e' stages).remaining n := by
  have hslot : FutureChain.slot ∘ (FutureChain.start e stages).links =
      FutureChain.slot ∘ (FutureChain.start e' stages).links := by
    funext k
    by_cases hk : k = 0
    · simp [hk, FutureChain.start, FutureChain.slot, Link.new, Link.remaining]
    · simp [hk, FutureChain.start]
  have htally := congrArg (fun f => ∑ k ∈ Finset.range (n + 1), f k) hslot
  simp only [FutureChain.remaining, tally]
  exact congrArg (· + _) (congrArg (_ + ·) htally)

/-- A contract that has not been made yet counts as one that has. -/
def remaining {E V X : Type u} (origin : Origin E V X) (stages rest : List (Stage E V X))
    (s : Recovering E V X) : Nat :=
  s.up.remaining (thens stages).length +
    (s.down.getD (.start origin.executor rest)).remaining (thens rest).length

theorem lambda_remaining {E V X : Type u} (lib : ResultLibrary V X) (handler : Handler V X)
    (origin : Origin E V X) (stages rest : List (Stage E V X)) (vals : List (Except X V))
    (s : Recovering E V X) :
    (vals.foldl (lambda lib handler) s).remaining origin stages rest ≤
      s.remaining origin stages rest := by
  induction vals generalizing s with
  | nil => exact Nat.le_refl _
  | cons val vals ih =>
    refine Nat.le_trans (ih _) ?_
    unfold Recovering.lambda
    cases recoverLambda lib handler val with
    | none => exact Nat.le_refl _
    | some r =>
      cases hd : s.down with
      | none => simp [remaining, resolve, hd]
      | some d =>
        have hle := FutureChain.resolve_remaining_le (thens rest).length d 0 r
        have hsame := (d.resolve_keeps 0 r).originCalled
        simp only [remaining, resolve, hd, Option.map_some, Option.getD_some,
          FutureChain.remaining, hsame, Bool.not_true, Bool.toNat_false] at hle ⊢
        omega

theorem Inv.contract_remaining {E V X : Type u} {lib : ResultLibrary V X} {handler : Handler V X}
    {origin : Origin E V X} {stages rest : List (Stage E V X)} {s : Recovering E V X}
    (hs : s.Inv lib handler origin stages rest) {l : ChainLabel} {t : FutureChain E V X}
    (ht : s.up.step origin l = some t) :
    ((s.contract rest l).getD (.start origin.executor rest)).remaining (thens rest).length =
      (s.down.getD (.start origin.executor rest)).remaining (thens rest).length := by
  cases l with
  | attach =>
    cases hattach : s.up.attach with
    | stages left k =>
      cases left with
      | nil =>
        have hdown : s.down = none := by
          rw [← Option.not_isSome_iff_eq_none, hs.made, hattach]
          exact Bool.false_ne_true
        cases hl : s.up.links k with
        | none => simp [contract, hattach, hl, hdown]
        | some l =>
          simp only [contract, hattach, hl, hdown, Option.map_some, Option.getD_some,
            Option.getD_none]
          exact start_remaining ..
      | cons => simp only [contract, hattach]
    | _ => simp only [contract, hattach]
  | _ => rfl

theorem Inv.step_remaining {E V X : Type u} {lib : ResultLibrary V X} {handler : Handler V X}
    {origin : Origin E V X} {stages rest : List (Stage E V X)} {s t : Recovering E V X}
    (hs : s.Inv lib handler origin stages rest) {l : RecoverLabel}
    (ht : s.step lib handler origin rest l = some t) :
    t.remaining origin stages rest < s.remaining origin stages rest := by
  cases l with
  | up l =>
    obtain ⟨up, hup, rfl⟩ := Option.map_eq_some_iff.mp ht
    have hlt := (FutureChain.inv hs.up).step_remaining hup
    refine Nat.lt_of_le_of_lt (lambda_remaining lib handler origin stages rest _ _) ?_
    simp only [remaining, hs.contract_remaining hup]
    omega
  | down l =>
    have moves {d d' : FutureChain E V X} (hl : l ≠ .origin) (hd : s.down = some d)
        (hstep : d.step origin l = some d') :
        remaining origin stages rest { s with down := some d' } <
          s.remaining origin stages rest := by
      obtain ⟨e, he⟩ := hs.down d hd
      have hlt := (FutureChain.inv he).step_remaining
        ((FutureChain.step_origin _ origin d hl).trans hstep)
      simp only [remaining, hd, Option.getD_some]
      omega
    cases l with
    | origin => cases ht
    | attach =>
      simp only [Recovering.step] at ht
      split at ht
      · simp only [Option.bind_eq_some_iff, Option.map_eq_some_iff] at ht
        obtain ⟨d, hd, d', hstep, rfl⟩ := ht
        exact moves (by simp) hd hstep
      · cases ht
    | setResult | run | innerSetResult | innerSetCallback | runInner =>
      simp only [Recovering.step, Option.bind_eq_some_iff, Option.map_eq_some_iff] at ht
      obtain ⟨d, hd, d', hstep, rfl⟩ := ht
      exact moves (by simp) hd hstep

/-- When nothing can go on, the lambda has been called, and so has the callback
at the end of the chain downstream if the lambda has set its promise. -/
theorem Inv.ended {E V X : Type u} {lib : ResultLibrary V X} {handler : Handler V X}
    {origin : Origin E V X} {stages rest : List (Stage E V X)} {s : Recovering E V X}
    (hs : s.Inv lib handler origin stages rest)
    (hend : ∀ l, s.step lib handler origin rest l = none) :
    s.handled = handlerCalls (fold (thens stages) origin.result) ∧
      s.resolved = (recoverLambda lib handler (fold (thens stages) origin.result)).toList ∧
      ∀ out, recoverLambda lib handler (fold (thens stages) origin.result) = some out →
        ∃ d, s.down = some d ∧ d.finals = [fold (thens rest) out] := by
  have hup (l : ChainLabel) : s.up.step origin l = none := by
    simpa [Recovering.step] using hend (.up l)
  have hattach := (FutureChain.inv hs.up).attach_ended (hup .attach)
  have hfinals := (FutureChain.inv hs.up).finals_of_ended hup
  cases hs.lambda with
  | waiting hnil => simp [hnil] at hfinals
  | called _ hhandled hresolved hdown =>
    refine ⟨hhandled, hresolved, fun out hout => ?_⟩
    obtain ⟨d, hd⟩ := Option.isSome_iff_exists.mp (hs.made.trans (by rw [hattach]; rfl))
    obtain ⟨e, he⟩ := hs.down d hd
    have hcalled := hdown d hd
    rw [hout, Option.isSome_some] at hcalled
    refine ⟨d, hd, ?_⟩
    have hlast := (FutureChain.inv he).finals_of_ended fun l => by
      by_cases hl : l = .origin
      · simp [hl, FutureChain.step, hcalled]
      · rw [FutureChain.step_origin _ origin d hl]
        have hnone := hend (.down l)
        cases l with
        | origin => exact absurd rfl hl
        | attach => simpa [Recovering.step, hattach, hd, FutureChain.step] using hnone
        | _ => simpa only [Recovering.step, hd, Option.bind_some, Option.map_eq_none_iff] using hnone
    rwa [downOrigin_result hout] at hlast

/-- What is documented of `Recover`: its future resolves once, to the recovered
result, and the handler is called once for an error. Between stages it changes
nothing in a run without errors. -/
structure Correct {E V X : Type u} (handler : Handler V X) (origin : Origin E V X)
    (stages rest : List (Stage E V X)) (ended : Prop) (s : Recovering E V X) : Prop where
  unviolated : s.up.violated = false ∧ ∀ d, s.down = some d → d.violated = false
  resolved : s.resolved = [] ∨
    s.resolved = [recovered handler (fold (thens stages) origin.result)]
  handled : s.handled = [] ∨ s.handled = handlerCalls (fold (thens stages) origin.result)
  finished : ended → s.resolved = [recovered handler (fold (thens stages) origin.result)] ∧
    s.handled = handlerCalls (fold (thens stages) origin.result) ∧
    ∃ d, s.down = some d ∧
      d.finals = [fold (thens rest) (recovered handler (fold (thens stages) origin.result))]
  unchanged : ended → ∀ v, fold (thens (stages ++ rest)) origin.result = .ok v →
    ∃ d, s.down = some d ∧ d.finals = [.ok v]

theorem recoverLambda_error {V X : Type u} {lib : ResultLibrary V X}
    (hconvert : ∀ r, lib.convert r = r) (handler : Handler V X) (e : X) :
    recoverLambda lib handler (.error e) = some (recovered handler (.error e)) := by
  rw [recoverLambda, recovered, funext hconvert]
  rfl

theorem thens_append {E V X : Type u} (stages rest : List (Stage E V X)) :
    thens (stages ++ rest) = thens stages ++ thens rest := by
  induction stages with
  | nil => rfl
  | cons stage stages ih =>
    cases stage with
    | via e => exact ih
    | then_ c => exact congrArg (c :: ·) ih

theorem fold_error {E V X : Type u} (cs : List (Continuation E V X)) (e : X) :
    fold cs (.error e) = .error e := by
  induction cs with
  | nil => rfl
  | cons c cs ih => exact ih

theorem Inv.correct {E V X : Type u} {lib : ResultLibrary V X} (hconvert : ∀ r, lib.convert r = r)
    {handler : Handler V X} {origin : Origin E V X} {stages rest : List (Stage E V X)}
    {s : Recovering E V X} (hs : s.Inv lib handler origin stages rest) {e : X}
    (he : fold (thens stages) origin.result = .error e) :
    s.Correct handler origin stages rest (∀ l, s.step lib handler origin rest l = none) := by
  have hout : recoverLambda lib handler (fold (thens stages) origin.result) =
      some (recovered handler (fold (thens stages) origin.result)) := by
    rw [he, recoverLambda_error hconvert]
  refine ⟨⟨(FutureChain.inv hs.up).unviolated, fun d hd => ?_⟩, ?_, ?_, fun hend => ?_,
    fun hend v hv => ?_⟩
  · obtain ⟨e', he'⟩ := hs.down d hd
    exact (FutureChain.inv he').unviolated
  · cases hs.lambda with
    | waiting _ _ hnil _ => exact .inl hnil
    | called _ _ hresolved _ => exact .inr (by rw [hresolved, hout]; rfl)
  · cases hs.lambda with
    | waiting _ hnil _ _ => exact .inl hnil
    | called _ hhandled _ _ => exact .inr hhandled
  · obtain ⟨hhandled, hresolved, hdown⟩ := hs.ended hend
    exact ⟨by rw [hresolved, hout]; rfl, hhandled, hdown _ hout⟩
  · rw [thens_append, fold, List.foldl_append] at hv
    have hfold : fold (thens rest) (fold (thens stages) origin.result) = .ok v := hv
    rw [he, fold_error] at hfold
    cases hfold

/-- A value that is recovered comes out as an error, or not at all. -/
theorem error_of_correct {E V X : Type u} {lib : ResultLibrary V X} {handler : Handler V X}
    {origin : Origin E V X} {stages rest : List (Stage E V X)}
    (h : ∀ s, (recovering lib handler origin stages rest).Reachable s →
      s.Correct handler origin stages rest (∀ l, s.step lib handler origin rest l = none)) :
    ∃ e, fold (thens stages) origin.result = .error e := by
  obtain ⟨s, hs, hend⟩ := Machine.Reachable.exists_ended
    (fun _ _ _ hs ht => (inv hs).step_remaining ht)
    (.init (M := recovering lib handler origin stages rest))
  cases hr : fold (thens stages) origin.result with
  | error e => exact ⟨e, rfl⟩
  | ok v =>
    have hcorrect := ((h s hs).finished hend).1
    have hresolved := ((inv hs).ended hend).2.1
    rw [hresolved, hr, recoverLambda, recovered] at hcorrect
    cases hx : lib.getError v <;> simp [hx] at hcorrect

end Recovering

/-- Every run ends, and `Recover` does what is documented of it in all of them exactly
if the result it is called on is an error. -/
theorem recover_correct_iff {E V X : Type u} (lib : ResultLibrary V X)
    (hconvert : ∀ r, lib.convert r = r) (handler : Handler V X) (origin : Origin E V X)
    (stages rest : List (Stage E V X)) :
    (∃ bound, ∀ ls s, (recovering lib handler origin stages rest).exec
      (recovering lib handler origin stages rest).init ls = some s → ls.length ≤ bound) ∧
    ((∀ s, (recovering lib handler origin stages rest).Reachable s →
      s.Correct handler origin stages rest
        (∀ l, (recovering lib handler origin stages rest).step s l = none)) ↔
      ∃ e, fold (thens stages) origin.result = .error e) := by
  constructor
  · refine ⟨(recovering lib handler origin stages rest).init.remaining origin stages rest,
      fun ls s h => ?_⟩
    have hle := Machine.Reachable.exec_length_le
      (fun _ _ _ hs ht => (Recovering.inv hs).step_remaining ht) .init h
    omega
  · refine ⟨Recovering.error_of_correct, fun ⟨e, he⟩ s hs => ?_⟩
    exact (Recovering.inv hs).correct hconvert he

/-- The result arrives before `Recover` is called, and the handler gives a value. -/
theorem recover_correct_iff_error :
    ∃ s, (recovering (E := Nat) ⟨fun _ => none, id⟩ (fun e : Nat => .ok (.ok (e + 1)))
      (.contract 0 (.error 3)) [] []).Reachable s ∧ s.resolved = [.ok 4] := by
  obtain ⟨s, hs, hset⟩ := Machine.exists_reachable_of_exec
    (M := recovering (E := Nat) ⟨fun _ => none, id⟩ (fun e : Nat => .ok (.ok (e + 1)))
      (.contract 0 (.error 3)) [] [])
    (p := fun s => !s.resolved.isEmpty)
    (.up .origin :: List.replicate 5 (.up (.setResult 0)) ++ List.replicate 8 (.up .attach) ++
      [.up (.run 0 0)]) (by decide +kernel)
  have hcorrect := ((recover_correct_iff ⟨fun _ => none, id⟩ (fun _ => rfl) _ _ _ _).2.mpr
    ⟨3, rfl⟩ s hs).resolved
  rcases hcorrect with hnil | hone
  · simp [hnil] at hset
  · exact ⟨s, hs, hone⟩

/-- `Recover` on a future with a value, whatever `GetError` does then. -/
theorem recover_loses_value :
    ¬ ∃ lib : ResultLibrary Nat Nat, ∀ s,
      (recovering lib (fun e => .ok (.ok e)) (.contract 0 (.ok 5)) [] []).Reachable s →
        s.Correct (fun e => .ok (.ok e)) (.contract 0 (.ok 5)) [] [] (∀ l, (recovering lib
          (fun e => .ok (.ok e)) (.contract 0 (.ok 5)) [] []).step s l = none) := by
  rintro ⟨lib, h⟩
  obtain ⟨e, he⟩ := Recovering.error_of_correct h
  cases he

end ConcurrentProgramming.Futures
