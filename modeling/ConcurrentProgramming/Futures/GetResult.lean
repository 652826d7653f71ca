import ConcurrentProgramming.Futures.SharedState
import ConcurrentProgramming.Interleaving.Latch

/-!
The blocking end of a future. `GetResult` subscribes a lambda that fills two variables
on the stack of `GetResult`, and sleeps until it has. The lambda runs inline, in
`SetResult` or in `Subscribe`, whichever call submits it.
-/

set_option autoImplicit false

namespace ConcurrentProgramming.Futures
open Interleaving

universe u

/-- The lambda, where one of the two calls runs it. -/
inductive FillAns (R : Type u) where
  | notRun
  | writeAns (result : Option R)
  | storeSleeper
  | wakeAll
  | returned
  deriving DecidableEq, Repr

/-- `returned none` is a read of an optional that is empty. -/
inductive Getter (R : Type u) where
  | via
  | subscribe
  | loop
  | returned (ans : Option R)
  deriving DecidableEq, Repr

/-- One promise, the call of `Set` on it, if it comes, and the call of `GetResult`; the
callback that is subscribed is the lambda. -/
structure GetResult (E R : Type u) where
  meet : Rendezvous E R PUnit.{u + 1}
  lambda : Party → FillAns R
  ans : Option R
  sleeper : Latch Unit
  getter : Getter R

inductive GetLabel where
  | set
  | producer
  | getter
  | wake
  deriving DecidableEq, Repr

namespace GetResult

def run {E R : Type u} (s : GetResult E R) (p : Party) (pc : FillAns R) : GetResult E R :=
  { s with lambda := Function.update s.lambda p pc }

def lambdaStep {E R : Type u} (s : GetResult E R) (p : Party) : Option (GetResult E R) :=
  match s.lambda p with
  | .writeAns result => some { s.run p .storeSleeper with ans := result }
  | .storeSleeper => some { s.run p .wakeAll with sleeper := s.sleeper.store }
  | .wakeAll => some { s.run p .returned with sleeper := s.sleeper.wakeAll }
  | .notRun | .returned => none

/-- A step of one of the two calls. What is submitted to the inline executor starts
to run in that call; on another executor it would not. -/
def callStep {E R : Type u} [DecidableEq E] (inline : E) (s : GetResult E R) (p : Party)
    (meet : Rendezvous E R PUnit.{u + 1}) : GetResult E R :=
  match meet.submitted.drop s.meet.submitted.length with
  | [⟨e, some _, val⟩] =>
    if e = inline then { s.run p (.writeAns val) with meet := meet } else { s with meet := meet }
  | _ => { s with meet := meet }

def producerStep {E R : Type u} [DecidableEq E] (inline : E) (s : GetResult E R) :
    Option (GetResult E R) :=
  s.lambdaStep .producer <|> s.meet.setResult.map (s.callStep inline .producer)

def getterStep {E R : Type u} [DecidableEq E] (inline : E) (s : GetResult E R) :
    Option (GetResult E R) :=
  match s.getter with
  | .via =>
    some { s with
      meet := { s.meet with
        state := s.meet.state.setExecutor inline, consumer := .writeCallback ⟨⟩ }
      getter := .subscribe }
  | .subscribe =>
    s.lambdaStep .consumer <|>
      match s.meet.consumer with
      | .returned => some { s with getter := .loop }
      | _ => s.meet.setCallback.map (s.callStep inline .consumer)
  | .loop =>
    match s.sleeper.waiters () with
    | .passed => some { s with getter := .returned s.ans, ans := none }
    | _ => (s.sleeper.waitStep ()).map fun sleeper => { s with sleeper := sleeper }
  | .returned _ => none

def step {E R : Type u} [DecidableEq E] (inline : E) (result : R) (s : GetResult E R) :
    GetLabel → Option (GetResult E R)
  | .set =>
    match s.meet.producer with
    | .notCalled => some { s with meet := { s.meet with producer := .writeResult result } }
    | _ => none
  | .producer => s.producerStep inline
  | .getter => s.getterStep inline
  | .wake => (s.sleeper.wake ()).map fun sleeper => { s with sleeper := sleeper }

end GetResult

/-- `executor` is what the future came with. -/
def getResult {E R : Type u} [DecidableEq E] (executor inline : E) (result : R) :
    Machine (GetResult E R) GetLabel where
  init := {
    meet := ⟨makeSharedState executor, .notCalled, .notCalled, []⟩
    lambda := fun _ => .notRun
    ans := none
    sleeper := .new Unit
    getter := .via }
  step := GetResult.step inline result

namespace GetResult

/-- What the lambda has done so far, and what it has in its hands. -/
def Fills {E R : Type u} (r : R) (s : GetResult E R) : FillAns R → Prop
  | .notRun => False
  | .writeAns result => result = some r ∧ s.sleeper.raised = false
  | .storeSleeper => s.ans = some r ∧ s.sleeper.raised = false
  | .wakeAll | .returned => s.sleeper.raised = true

/-- The lambda runs once, in one of the two calls. -/
inductive Filled {E R : Type u} (r : R) (s : GetResult E R) : Prop where
  | notRun : s.meet.submitted = [] → s.lambda = (fun _ => .notRun) →
      s.sleeper.raised = false → s.Filled r
  | running {p : Party} {pc : FillAns R} : s.meet.submitted ≠ [] →
      s.lambda = Function.update (fun _ => .notRun) p pc → s.Fills r pc → s.Filled r

/-- `Filled` looks at the log, the lambda and the two variables alone. -/
theorem Filled.frame {E R : Type u} {r : R} {s t : GetResult E R} (h : s.Filled r)
    (hmeet : t.meet.submitted = [] ↔ s.meet.submitted = []) (hlambda : t.lambda = s.lambda)
    (hans : t.ans = s.ans) (hraised : t.sleeper.raised = s.sleeper.raised) : t.Filled r := by
  cases h with
  | notRun hnil hnobody hlowered =>
    exact .notRun (hmeet.mpr hnil) (hlambda.trans hnobody) (hraised.trans hlowered)
  | @running p pc hsome hsomebody hfills =>
    refine .running (fun hnil => hsome (hmeet.mp hnil)) (hlambda.trans hsomebody) ?_
    cases pc with
    | notRun => exact hfills
    | writeAns | storeSleeper | wakeAll | returned =>
      simpa only [Fills, hans, hraised] using hfills

structure Inv {E R : Type u} (inline : E) (r : R) (s : GetResult E R) : Prop where
  meet : s.meet.Inv r ⟨⟩
  start : s.getter = .via → s.meet.consumer = .notCalled
  called : s.getter ≠ .via → s.meet.consumer ≠ .notCalled
  executor : s.getter ≠ .via → s.meet.state.executor = inline
  subscribed : s.getter ≠ .via → s.getter ≠ .subscribe →
    s.meet.consumer = .returned ∧ (s.lambda .consumer = .notRun ∨ s.lambda .consumer = .returned)
  filled : s.Filled r
  answer : s.sleeper.raised = true → s.ans = some r ∨ s.getter = .returned (some r)
  returned : ∀ x, s.getter = .returned x → x = some r ∧ s.sleeper.raised = true
  heard : s.sleeper.Heard (∃ p, s.lambda p = .wakeAll)

theorem callStep_cases {E R : Type u} [DecidableEq E] {inline : E} {r : R} {s : GetResult E R}
    {p : Party} {meet : Rendezvous E R PUnit.{u + 1}} (hmeet : meet.Inv r ⟨⟩)
    (hlog : s.meet.submitted <+: meet.submitted)
    (hinline : meet.submitted ≠ [] → meet.state.executor = inline) :
    (meet.submitted = [] ↔ s.meet.submitted = []) ∧
        s.callStep inline p meet = { s with meet := meet } ∨
      s.meet.submitted = [] ∧ meet.submitted ≠ [] ∧
        s.callStep inline p meet = { s.run p (.writeAns (some r)) with meet := meet } := by
  rcases hmeet.submitted with hnil | ⟨hone, -⟩
  · left
    have hbefore : s.meet.submitted = [] := List.prefix_nil.mp (hnil ▸ hlog)
    exact ⟨by simp [hnil, hbefore], by simp [callStep, hnil]⟩
  · cases hbefore : s.meet.submitted with
    | nil =>
      right
      have hsome : meet.submitted ≠ [] := by simp [hone]
      exact ⟨rfl, hsome, by simp [callStep, hone, hbefore, hinline hsome]⟩
    | cons x rest =>
      left
      have hdrop : meet.submitted.drop s.meet.submitted.length = [] := by
        simp [hone, hbefore]
      exact ⟨by simp [hone], by simp [callStep, hdrop]⟩

theorem Inv.callStep {E R : Type u} [DecidableEq E] {inline : E} {r : R} {s : GetResult E R}
    (hs : s.Inv inline r) {p : Party} {meet : Rendezvous E R PUnit.{u + 1}}
    (hmeet : meet.Inv r ⟨⟩) (hlog : s.meet.submitted <+: meet.submitted)
    (hexecutor : meet.state.executor = s.meet.state.executor)
    (hplace : p = .producer ∧ meet.consumer = s.meet.consumer ∨
      s.getter = .subscribe ∧ meet.consumer ≠ .notCalled) :
    (s.callStep inline p meet).Inv inline r := by
  have hstart (hvia : s.getter = .via) : meet.consumer = .notCalled := by
    rcases hplace with ⟨-, hsame⟩ | ⟨hsubscribe, -⟩
    · rw [hsame, hs.start hvia]
    · rw [hvia] at hsubscribe
      cases hsubscribe
  have hcalled (hvia : s.getter ≠ .via) : meet.consumer ≠ .notCalled := by
    rcases hplace with ⟨-, hsame⟩ | ⟨-, hcalled⟩
    · rw [hsame]
      exact hs.called hvia
    · exact hcalled
  have hinline (hsome : meet.submitted ≠ []) : meet.state.executor = inline := by
    rw [hexecutor]
    refine hs.executor fun hvia => ?_
    rcases hmeet.submitted with hnil | ⟨-, -, hwritten⟩
    · exact hsome hnil
    · rw [hstart hvia] at hwritten
      cases hwritten
  have hsubscribed (hvia : s.getter ≠ .via) (hsub : s.getter ≠ .subscribe) :
      p = .producer ∧ meet.consumer = .returned := by
    rcases hplace with ⟨hp, hsame⟩ | ⟨hsubscribe, -⟩
    · exact ⟨hp, hsame.trans (hs.subscribed hvia hsub).1⟩
    · exact (hsub hsubscribe).elim
  rcases callStep_cases (p := p) hmeet hlog hinline with ⟨hiff, heq⟩ | ⟨hbefore, hafter, heq⟩
  · rw [heq]
    exact ⟨hmeet, hstart, hcalled, fun hvia => hexecutor.trans (hs.executor hvia), fun hvia hsub =>
      ⟨(hsubscribed hvia hsub).2, (hs.subscribed hvia hsub).2⟩, hs.filled.frame hiff rfl rfl rfl,
      hs.answer, hs.returned, hs.heard⟩
  · rw [heq]
    cases hs.filled with
    | running hsome => exact (hsome hbefore).elim
    | notRun hnil hlambda hraised =>
      have hnobody : ¬ ∃ q, s.lambda q = .wakeAll := by
        rintro ⟨q, hq⟩
        rw [hlambda] at hq
        cases hq
      refine ⟨hmeet, hstart, hcalled, fun hvia => hexecutor.trans (hs.executor hvia),
        fun hvia hsub => ?_,
        .running hafter (congrArg (Function.update · p _) hlambda) ⟨rfl, hraised⟩, hs.answer,
        hs.returned, hs.heard.mono fun hwakes => (hnobody hwakes).elim⟩
      obtain ⟨rfl, hreturned⟩ := hsubscribed hvia hsub
      refine ⟨hreturned, ?_⟩
      have hsettled := (hs.subscribed hvia hsub).2
      simpa [run] using hsettled

/-- In whose hands the lambda is, and how it goes on. -/
theorem lambdaStep_cases {E R : Type u} {s t : GetResult E R} {p : Party}
    (h : s.lambdaStep p = some t) :
    (∃ result, s.lambda p = .writeAns result ∧
        t = { s.run p .storeSleeper with ans := result }) ∨
      s.lambda p = .storeSleeper ∧ t = { s.run p .wakeAll with sleeper := s.sleeper.store } ∨
      s.lambda p = .wakeAll ∧ t = { s.run p .returned with sleeper := s.sleeper.wakeAll } := by
  unfold lambdaStep at h
  cases hp : s.lambda p with
  | notRun | returned => simp [hp] at h
  | writeAns result =>
    simp only [hp, Option.some.injEq] at h
    exact .inl ⟨result, rfl, h.symm⟩
  | storeSleeper =>
    simp only [hp, Option.some.injEq] at h
    exact .inr (.inl ⟨rfl, h.symm⟩)
  | wakeAll =>
    simp only [hp, Option.some.injEq] at h
    exact .inr (.inr ⟨rfl, h.symm⟩)

theorem Filled.of_lambda {E R : Type u} {r : R} {s : GetResult E R} (h : s.Filled r) {p : Party}
    (hp : s.lambda p ≠ .notRun) : s.meet.submitted ≠ [] ∧
      s.lambda = Function.update (fun _ => .notRun) p (s.lambda p) ∧ s.Fills r (s.lambda p) := by
  cases h with
  | notRun _ hlambda => simp [hlambda] at hp
  | @running q pc hsome hlambda hfills =>
    by_cases hpq : p = q
    · subst hpq
      have hpc : s.lambda p = pc := by simp [hlambda]
      rw [hpc]
      exact ⟨hsome, hlambda, hfills⟩
    · simp [hlambda, hpq] at hp

theorem Inv.lambdaStep {E R : Type u} {inline : E} {r : R} {s t : GetResult E R}
    (hs : s.Inv inline r) {p : Party} (hplace : p = .producer ∨ s.getter = .subscribe)
    (h : s.lambdaStep p = some t) : t.Inv inline r := by
  have hstays (pc : FillAns R) (hvia : s.getter ≠ .via) (hsub : s.getter ≠ .subscribe) :
      s.meet.consumer = .returned ∧ ((s.run p pc).lambda .consumer = .notRun ∨
        (s.run p pc).lambda .consumer = .returned) := by
    obtain ⟨hreturned, hsettled⟩ := hs.subscribed hvia hsub
    obtain rfl := hplace.resolve_right hsub
    exact ⟨hreturned, by simpa [run] using hsettled⟩
  have hupdate {pc : FillAns R}
      (hp : s.lambda = Function.update (fun _ => .notRun) p (s.lambda p)) :
      (s.run p pc).lambda = Function.update (fun _ => .notRun) p pc := by
    simp only [run]
    rw [hp, Function.update_idem]
  rcases lambdaStep_cases h with ⟨result, hp, rfl⟩ | ⟨hp, rfl⟩ | ⟨hp, rfl⟩
  all_goals
    obtain ⟨hsome, hlambda, hfills⟩ := hs.filled.of_lambda (p := p) (by rw [hp]; simp)
    rw [hp] at hfills
    have hwakes : (∃ q, s.lambda q = .wakeAll) → s.lambda p = .wakeAll := by
      rintro ⟨q, hq⟩
      rw [hlambda] at hq
      by_cases hqp : q = p
      · rw [← hqp, hlambda, ← hqp]
        simpa [hqp] using hq
      · simp [hqp] at hq
  · obtain ⟨rfl, hraised⟩ := hfills
    refine ⟨hs.meet, hs.start, hs.called, hs.executor, hstays _,
      .running hsome (hupdate hlambda) ⟨rfl, hraised⟩,
      fun hup => ?_, hs.returned, hs.heard.mono fun hdue => ?_⟩
    · have hup : s.sleeper.raised = true := hup
      rw [hraised] at hup
      cases hup
    · rw [hp] at hwakes
      cases hwakes hdue
  · obtain ⟨hans, -⟩ := hfills
    refine ⟨hs.meet, hs.start, hs.called, hs.executor, hstays _,
      .running hsome (hupdate hlambda) rfl,
      fun _ => .inl hans, fun x hx => ⟨(hs.returned x hx).1, rfl⟩,
      Latch.heard_store _ ⟨p, by simp [run]⟩⟩
  · exact ⟨hs.meet, hs.start, hs.called, hs.executor, hstays _,
      .running hsome (hupdate hlambda) hfills,
      hs.answer, hs.returned, hs.heard.wakeAll _⟩

theorem producerStep_cases {E R : Type u} [DecidableEq E] {inline : E} {s t : GetResult E R}
    (h : s.producerStep inline = some t) :
    s.lambdaStep .producer = some t ∨
      ∃ meet, s.meet.setResult = some meet ∧ t = s.callStep inline .producer meet := by
  rcases (Option.orElse_eq_some _ _ _).mp h with hlambda | ⟨-, h⟩
  · exact .inl hlambda
  · obtain ⟨meet, hmeet, rfl⟩ := Option.map_eq_some_iff.mp h
    exact .inr ⟨meet, hmeet, rfl⟩

theorem Inv.producerStep {E R : Type u} [DecidableEq E] {inline : E} {r : R} {s t : GetResult E R}
    (hs : s.Inv inline r) (h : s.producerStep inline = some t) : t.Inv inline r := by
  rcases producerStep_cases h with hlambda | ⟨meet, hmeet, rfl⟩
  · exact hs.lambdaStep (.inl rfl) hlambda
  · exact hs.callStep (Rendezvous.setResult_inv hs.meet hmeet)
      (Rendezvous.setResult_submitted hmeet) (Rendezvous.setResult_executor hmeet)
      (.inl ⟨rfl, (Rendezvous.setResult_remaining hmeet).2.2.2⟩)

/-- How `GetResult` goes on: `Via`, `Subscribe` and the lambda in it, the loop, `return`. -/
theorem getterStep_cases {E R : Type u} [DecidableEq E] {inline : E} {s t : GetResult E R}
    (h : s.getterStep inline = some t) :
    (s.getter = .via ∧ t = { s with
      meet := { s.meet with
        state := s.meet.state.setExecutor inline, consumer := .writeCallback ⟨⟩ }
      getter := .subscribe }) ∨
    (s.getter = .subscribe ∧ (s.lambdaStep .consumer = some t ∨
      s.lambdaStep .consumer = none ∧
        (s.meet.consumer = .returned ∧ t = { s with getter := .loop } ∨
          ∃ meet, s.meet.setCallback = some meet ∧ t = s.callStep inline .consumer meet))) ∨
    (s.getter = .loop ∧ (s.sleeper.waiters () = .passed ∧
        t = { s with getter := .returned s.ans, ans := none } ∨
      ∃ sleeper, s.sleeper.waitStep () = some sleeper ∧ t = { s with sleeper := sleeper })) := by
  unfold getterStep at h
  cases hg : s.getter with
  | returned ans => simp [hg] at h
  | via =>
    simp only [hg, Option.some.injEq] at h
    exact .inl ⟨rfl, h.symm⟩
  | subscribe =>
    right; left
    refine ⟨rfl, ?_⟩
    simp only [hg] at h
    rcases (Option.orElse_eq_some _ _ _).mp h with hlambda | ⟨hnone, h⟩
    · exact .inl hlambda
    · refine .inr ⟨hnone, ?_⟩
      split at h
      · rename_i hreturned
        exact .inl ⟨hreturned, (Option.some.inj h).symm⟩
      · obtain ⟨meet, hmeet, rfl⟩ := Option.map_eq_some_iff.mp h
        exact .inr ⟨meet, hmeet, rfl⟩
  | loop =>
    right; right
    refine ⟨rfl, ?_⟩
    simp only [hg] at h
    split at h
    · rename_i hpassed
      exact .inl ⟨hpassed, (Option.some.inj h).symm⟩
    · obtain ⟨sleeper, hsleeper, rfl⟩ := Option.map_eq_some_iff.mp h
      exact .inr ⟨sleeper, hsleeper, rfl⟩

theorem lambdaStep_eq_none {E R : Type u} {s : GetResult E R} {p : Party} :
    s.lambdaStep p = none ↔ s.lambda p = .notRun ∨ s.lambda p = .returned := by
  unfold lambdaStep
  cases s.lambda p <;> simp

/-- The thread goes round its loop, or is woken in it. -/
theorem Inv.sleeps {E R : Type u} {inline : E} {r : R} {s : GetResult E R}
    (hs : s.Inv inline r) {sleeper : Latch Unit} (hraised : sleeper.raised = s.sleeper.raised)
    (hheard : sleeper.Heard (∃ p, s.lambda p = .wakeAll)) :
    ({ s with sleeper := sleeper } : GetResult E R).Inv inline r := by
  exact ⟨hs.meet, hs.start, hs.called, hs.executor, hs.subscribed,
    hs.filled.frame .rfl rfl rfl hraised,
    fun hup => hs.answer (hraised ▸ hup),
    fun x hx => ⟨(hs.returned x hx).1, hraised.trans (hs.returned x hx).2⟩, hheard⟩

theorem Inv.getterStep {E R : Type u} [DecidableEq E] {inline : E} {r : R} {s t : GetResult E R}
    (hs : s.Inv inline r) (h : s.getterStep inline = some t) : t.Inv inline r := by
  have hopen (hup : s.sleeper.raised = true) (hg : s.getter ≠ .returned (some r)) :
      s.ans = some r := (hs.answer hup).resolve_right hg
  rcases getterStep_cases h with ⟨hg, rfl⟩ | ⟨hg, hstep⟩ | ⟨hg, hstep⟩
  · have hcalled := (hs.meet.setExecutor (hs.start hg) inline).callback (hs.start hg)
    refine ⟨hcalled, fun hvia => ?_, fun _ => by simp, fun _ => rfl, fun _ hsub => (hsub rfl).elim,
      hs.filled.frame .rfl rfl rfl rfl, fun hup => .inl (hopen hup (by rw [hg]; simp)),
      fun x hx => ?_, hs.heard⟩
    · cases hvia
    · cases hx
  · rcases hstep with hlambda | ⟨hnone, ⟨hreturned, rfl⟩ | ⟨meet, hmeet, rfl⟩⟩
    · exact hs.lambdaStep (.inr hg) hlambda
    · have hsettled := lambdaStep_eq_none.mp hnone
      refine ⟨hs.meet, fun hvia => ?_, fun _ => hs.called (by rw [hg]; simp),
        fun _ => hs.executor (by rw [hg]; simp), fun _ _ => ⟨hreturned, hsettled⟩,
        hs.filled.frame .rfl rfl rfl rfl,
        fun hup => .inl (hopen hup (by rw [hg]; simp)), fun x hx => ?_, hs.heard⟩
      · cases hvia
      · cases hx
    · exact hs.callStep (Rendezvous.setCallback_inv hs.meet hmeet)
        (Rendezvous.setCallback_submitted hmeet) (Rendezvous.setCallback_executor hmeet)
        (.inr ⟨hg, (Rendezvous.setCallback_remaining hmeet).2.1⟩)
  · rcases hstep with ⟨hpassed, rfl⟩ | ⟨sleeper, hsleeper, rfl⟩
    · have hraised := hs.heard.passed () hpassed
      have hans := hopen hraised (by rw [hg]; simp)
      have hsubscribed := hs.subscribed (by rw [hg]; simp) (by rw [hg]; simp)
      refine ⟨hs.meet, fun hvia => ?_, fun _ => hs.called (by rw [hg]; simp),
        fun _ => hs.executor (by rw [hg]; simp), fun _ _ => hsubscribed, ?_,
        fun _ => .inr (congrArg _ hans), fun x hx => ⟨?_, hraised⟩,
        hs.heard⟩
      · cases hvia
      · -- the lambda has stored to `ans` for the last time
        cases hs.filled with
        | notRun _ _ hlowered =>
          rw [hraised] at hlowered
          cases hlowered
        | @running p pc hsome hlambda hfills =>
          refine .running hsome hlambda ?_
          cases pc with
          | notRun => exact hfills
          | writeAns result => exact hfills
          | storeSleeper =>
            rw [hfills.2] at hraised
            cases hraised
          | wakeAll | returned => exact hfills
      · obtain rfl := Getter.returned.inj hx
        exact hans
    · obtain ⟨hraised, hheard⟩ := hs.heard.waitStep hsleeper
      exact hs.sleeps hraised hheard

theorem Inv.step {E R : Type u} [DecidableEq E] {inline : E} {r : R} {s t : GetResult E R}
    (hs : s.Inv inline r) {l : GetLabel} (h : s.step inline r l = some t) : t.Inv inline r := by
  cases l with
  | producer => exact hs.producerStep h
  | getter => exact hs.getterStep h
  | wake =>
    obtain ⟨sleeper, hsleeper, rfl⟩ := Option.map_eq_some_iff.mp h
    obtain ⟨hraised, hheard⟩ := hs.heard.wake hsleeper
    exact hs.sleeps hraised hheard
  | set =>
    cases hp : s.meet.producer <;> simp only [GetResult.step, hp, reduceCtorEq,
      Option.some.injEq] at h
    subst h
    exact ⟨hs.meet.resolve hp, hs.start, hs.called, hs.executor, hs.subscribed,
      hs.filled.frame .rfl rfl rfl rfl, hs.answer, hs.returned, hs.heard⟩

end GetResult

theorem getResult_inv {E R : Type u} [DecidableEq E] {executor inline : E} {r : R}
    {s : GetResult E R} (h : (getResult executor inline r).Reachable s) : s.Inv inline r := by
  apply h.invariant
  · refine ⟨.new executor r PUnit.unit, fun _ => rfl, fun hvia => (hvia rfl).elim,
      fun hvia => (hvia rfl).elim, fun hvia => (hvia rfl).elim, .notRun rfl rfl rfl,
      fun hup => ?_, fun x hx => ?_,
      Latch.heard_new _⟩
    · cases hup
    · cases hx
  · intro s l t _ hs hl
    exact hs.step hl

/-! How long it all takes. -/

def FillAns.ahead {R : Type u} : FillAns R → Nat
  | .notRun | .returned => 0
  | .wakeAll => 2
  | .storeSleeper => 4
  | .writeAns _ => 5

def Getter.ahead {R : Type u} : Getter R → Nat
  | .returned _ => 0
  | .loop => 1
  | .subscribe => 2
  | .via => 3

/-- The two calls, with the lambda that is still to come. -/
def Rendezvous.ahead {E R C : Type u} (v : Rendezvous E R C) : Nat :=
  v.producer.remaining + v.consumer.remaining + if v.submitted.isEmpty then 6 else 0

namespace GetResult

def ahead {E R : Type u} (s : GetResult E R) : Nat :=
  s.meet.ahead + (s.lambda .producer).ahead + (s.lambda .consumer).ahead + s.sleeper.ahead +
    s.getter.ahead

theorem ahead_run {E R : Type u} (s : GetResult E R) (p : Party) (pc : FillAns R) :
    (s.run p pc).ahead + (s.lambda p).ahead = s.ahead + pc.ahead := by
  cases p with
  | producer =>
    simp [ahead, run]
    omega
  | consumer =>
    simp [ahead, run]
    omega

theorem ahead_sleeper {E R : Type u} (s : GetResult E R) (sleeper : Latch Unit) :
    ({ s with sleeper := sleeper } : GetResult E R).ahead + s.sleeper.ahead =
      s.ahead + sleeper.ahead := by
  simp only [ahead]
  omega

theorem ahead_meet {E R : Type u} (s : GetResult E R) (meet : Rendezvous E R PUnit.{u + 1}) :
    ({ s with meet := meet } : GetResult E R).ahead + s.meet.ahead = s.ahead + meet.ahead := by
  simp only [ahead]
  omega

theorem ahead_lambdaStep {E R : Type u} {inline : E} {r : R} {s t : GetResult E R}
    (hs : s.Inv inline r) {p : Party} (h : s.lambdaStep p = some t) : t.ahead < s.ahead := by
  have hone : Fintype.card Unit = 1 := rfl
  rcases lambdaStep_cases h with ⟨result, hp, rfl⟩ | ⟨hp, rfl⟩ | ⟨hp, rfl⟩
  · have hrun : (s.run p .storeSleeper).ahead + _ = s.ahead + 4 := s.ahead_run p .storeSleeper
    have hbefore : (s.lambda p).ahead = 5 := by rw [hp]; rfl
    show (s.run p .storeSleeper).ahead < s.ahead
    omega
  · have hrun : (s.run p .wakeAll).ahead + _ = s.ahead + 2 := s.ahead_run p .wakeAll
    have hstore : ({ s.run p .wakeAll with sleeper := s.sleeper.store } : GetResult E R).ahead +
      s.sleeper.ahead = _ := (s.run p .wakeAll).ahead_sleeper s.sleeper.store
    have hgrows := s.sleeper.ahead_store
    have hbefore : (s.lambda p).ahead = 4 := by rw [hp]; rfl
    omega
  · have hrun : (s.run p .returned).ahead + _ = s.ahead + 0 := s.ahead_run p .returned
    have hwake : ({ s.run p .returned with sleeper := s.sleeper.wakeAll } : GetResult E R).ahead +
      s.sleeper.ahead = _ := (s.run p .returned).ahead_sleeper s.sleeper.wakeAll
    have hfills := (hs.filled.of_lambda (p := p) (by rw [hp]; simp)).2.2
    rw [hp] at hfills
    have hgrows := Latch.ahead_wakeAll hfills
    have hbefore : (s.lambda p).ahead = 2 := by rw [hp]; rfl
    omega

theorem ahead_callStep {E R : Type u} [DecidableEq E] {inline : E} {r : R} {s : GetResult E R}
    {p : Party} {meet : Rendezvous E R PUnit.{u + 1}}
    (hmeet : meet.Inv r ⟨⟩) (hlog : s.meet.submitted <+: meet.submitted)
    (hinline : meet.submitted ≠ [] → meet.state.executor = inline)
    (hless : meet.producer.remaining + meet.consumer.remaining <
      s.meet.producer.remaining + s.meet.consumer.remaining) :
    (s.callStep inline p meet).ahead < s.ahead := by
  rcases callStep_cases (p := p) hmeet hlog hinline with ⟨hiff, heq⟩ | ⟨hbefore, hafter, heq⟩
  · have hsame : meet.submitted.isEmpty = s.meet.submitted.isEmpty := by
      rw [Bool.eq_iff_iff, List.isEmpty_iff, List.isEmpty_iff, hiff]
    have hmeets := s.ahead_meet meet
    rw [heq]
    simp only [Rendezvous.ahead, hsame] at hmeets
    omega
  · have hrun : (s.run p (.writeAns (some r))).ahead + _ = s.ahead + 5 := s.ahead_run p _
    have hmeets : ({ s.run p (.writeAns (some r)) with meet := meet } : GetResult E R).ahead +
      s.meet.ahead = _ := (s.run p (.writeAns (some r))).ahead_meet meet
    -- the lambda has been paid for
    have hpaid : s.meet.ahead = s.meet.producer.remaining + s.meet.consumer.remaining + 6 := by
      simp [Rendezvous.ahead, hbefore]
    have hleft : meet.ahead = meet.producer.remaining + meet.consumer.remaining := by
      simp [Rendezvous.ahead, hafter]
    rw [heq]
    omega

theorem ahead_producerStep {E R : Type u} [DecidableEq E] {inline : E} {r : R}
    {s t : GetResult E R} (hs : s.Inv inline r) (h : s.producerStep inline = some t) :
    t.ahead < s.ahead := by
  rcases producerStep_cases h with hlambda | ⟨meet, hmeet, rfl⟩
  · exact ahead_lambdaStep hs hlambda
  · have hinv := Rendezvous.setResult_inv hs.meet hmeet
    obtain ⟨hless, -, -, hsame⟩ := Rendezvous.setResult_remaining hmeet
    refine ahead_callStep hinv (Rendezvous.setResult_submitted hmeet) (fun hsome => ?_)
      (by rw [hsame]; omega)
    rw [Rendezvous.setResult_executor hmeet]
    refine hs.executor fun hvia => ?_
    rcases hinv.submitted with hnil | ⟨-, -, hwritten⟩
    · exact hsome hnil
    · rw [hsame, hs.start hvia] at hwritten
      cases hwritten

theorem ahead_getterStep {E R : Type u} [DecidableEq E] {inline : E} {r : R}
    {s t : GetResult E R} (hs : s.Inv inline r) (h : s.getterStep inline = some t) :
    t.ahead < s.ahead := by
  rcases getterStep_cases h with ⟨hg, rfl⟩ | ⟨hg, hstep⟩ | ⟨hg, hstep⟩
  · simp only [ahead, Rendezvous.ahead, hg, hs.start hg, SetCallback.remaining, Getter.ahead]
    omega
  · rcases hstep with hlambda | ⟨-, ⟨-, rfl⟩ | ⟨meet, hmeet, rfl⟩⟩
    · exact ahead_lambdaStep hs hlambda
    · simp only [ahead, hg, Getter.ahead]
      omega
    · obtain ⟨hless, -, -, hsame⟩ := Rendezvous.setCallback_remaining hmeet
      refine ahead_callStep (Rendezvous.setCallback_inv hs.meet hmeet)
        (Rendezvous.setCallback_submitted hmeet) (fun _ => ?_) (by rw [hsame]; omega)
      rw [Rendezvous.setCallback_executor hmeet]
      exact hs.executor (by rw [hg]; simp)
  · rcases hstep with ⟨-, rfl⟩ | ⟨sleeper, hsleeper, rfl⟩
    · simp only [ahead, hg, Getter.ahead]
      omega
    · have hsleeps := s.ahead_sleeper sleeper
      have hless := Latch.ahead_waitStep hsleeper
      omega

/-- A wake-up for no reason puts the thread back to its `load`. -/
theorem ahead_step {E R : Type u} [DecidableEq E] {inline : E} {r : R} {s t : GetResult E R}
    (hs : s.Inv inline r) {l : GetLabel} (h : s.step inline r l = some t) :
    t.ahead < s.ahead + if l = .wake then 3 else 0 := by
  cases l with
  | producer => exact ahead_producerStep hs h
  | getter => exact ahead_getterStep hs h
  | set =>
    cases hp : s.meet.producer <;> simp only [GetResult.step, hp, reduceCtorEq,
      Option.some.injEq] at h
    subst h
    let meet : Rendezvous E R PUnit.{u + 1} := { s.meet with producer := .writeResult r }
    have hmeets := s.ahead_meet meet
    have hless : meet.ahead + 1 = s.meet.ahead := by
      simp only [meet, Rendezvous.ahead, hp, SetResult.remaining]
      omega
    show ({ s with meet := meet } : GetResult E R).ahead < s.ahead + 0
    omega
  | wake =>
    obtain ⟨sleeper, hsleeper, rfl⟩ := Option.map_eq_some_iff.mp h
    have hsleeps := s.ahead_sleeper sleeper
    have hless := Latch.ahead_wake hsleeper
    show ({ s with sleeper := sleeper } : GetResult E R).ahead < s.ahead + 3
    omega

/-- Where neither call can go on, the promise was never set, or both have returned. -/
theorem Inv.at_rest {E R : Type u} [DecidableEq E] {inline : E} {r : R} {s : GetResult E R}
    (hs : s.Inv inline r) (hproducer : s.producerStep inline = none)
    (hgetter : s.getterStep inline = none) :
    s.meet.producer = .notCalled ∧ s.sleeper.waiters () = .asleep ∨
      s.meet.producer = .returned ∧ s.getter = .returned (some r) := by
  simp only [GetResult.producerStep, Option.orElse_eq_orElse, Option.orElse_eq_or,
    Option.or_eq_none_iff, Option.map_eq_none_iff] at hproducer
  obtain ⟨hlambda, hcall⟩ := hproducer
  have hended : s.meet.producer = .notCalled ∨ s.meet.producer = .returned := by
    by_contra hneither
    obtain ⟨hcalled, hreturned⟩ := not_or.mp hneither
    have hsome := Rendezvous.setResult_isSome hcalled hreturned
    rw [hcall] at hsome
    cases hsome
  have hidle := lambdaStep_eq_none.mp hlambda
  cases hg : s.getter with
  | via => simp [GetResult.getterStep, hg] at hgetter
  | subscribe =>
    simp only [GetResult.getterStep, hg, Option.orElse_eq_orElse, Option.orElse_eq_or,
      Option.or_eq_none_iff] at hgetter
    have hnone := hgetter.2
    split at hnone
    · cases hnone
    · rename_i hreturned
      have hsome := Rendezvous.setCallback_isSome (hs.called (by rw [hg]; simp)) hreturned
      rw [Option.map_eq_none_iff.mp hnone] at hsome
      cases hsome
  | loop =>
    obtain ⟨hconsumer, hsettled⟩ := hs.subscribed (by rw [hg]; simp) (by rw [hg]; simp)
    have hquiet (p : Party) : s.lambda p = .notRun ∨ s.lambda p = .returned := by
      cases p with
      | producer => exact hidle
      | consumer => exact hsettled
    have hasleep : s.sleeper.waiters () = .asleep := by
      simp only [GetResult.getterStep, hg] at hgetter
      split at hgetter
      · cases hgetter
      · rename_i hpassed
        exact Latch.asleep_of_stuck (Option.map_eq_none_iff.mp hgetter) hpassed
    have hlowered : s.sleeper.raised = false := by
      by_contra hup
      obtain ⟨p, hp⟩ := hs.heard.asleep () hasleep (by simpa using hup)
      rcases hquiet p with hq | hq <;> rw [hq] at hp <;> cases hp
    refine .inl ⟨hended.resolve_right fun hreturned => ?_, hasleep⟩
    have hsubmitted := hs.meet.returned hreturned hconsumer
    cases hs.filled with
    | notRun hnil => simp [hsubmitted] at hnil
    | @running p pc _ hlambda hfills =>
      have hpc : s.lambda p = pc := by simp [hlambda]
      rcases hquiet p with hq | hq
      · rw [← hpc, hq] at hfills
        exact hfills
      · rw [← hpc, hq] at hfills
        simp [Fills, hlowered] at hfills
  | returned x =>
    obtain ⟨rfl, hraised⟩ := hs.returned x hg
    refine .inr ⟨hended.resolve_left fun hnot => ?_, rfl⟩
    cases hs.filled with
    | notRun _ _ hlowered =>
      rw [hraised] at hlowered
      cases hlowered
    | running hsome =>
      rcases hs.meet.submitted with hnil | ⟨-, hwritten, -⟩
      · exact hsome hnil
      · rw [hnot] at hwritten
        cases hwritten

end GetResult

/-- `GetResult` returns what the promise was set to, whatever executor the future came
with, and a wake-up is never lost: where neither call can go on, both have returned, or
the promise has not been set and the thread sleeps. -/
theorem getResult_returns {E R : Type u} [DecidableEq E] {executor inline : E} {r : R}
    {s : GetResult E R} (h : (getResult executor inline r).Reachable s) :
    (∀ ans, s.getter = .returned ans → ans = some r) ∧
      (s.producerStep inline = none → s.getterStep inline = none →
        s.meet.producer = .notCalled ∧ s.sleeper.waiters () = .asleep ∨
          s.meet.producer = .returned ∧ s.getter = .returned (some r)) := by
  have hs := getResult_inv h
  exact ⟨fun ans hans => (hs.returned ans hans).1, hs.at_rest⟩

/-- The thread falls asleep before the promise is set. -/
theorem getResult_returns_slept : ∃ s, (getResult 1 0 7).Reachable s ∧
    s.getter = .returned (some 7) ∧ s.meet.producer = .returned := by
  have h : (getResult 1 0 7).Reachable _ := Machine.reachable_of_exec
    (List.replicate 7 .getter ++ .set :: List.replicate 11 .producer ++
      List.replicate 2 .getter) rfl
  rcases (getResult_returns h).2 rfl rfl with ⟨hnot, -⟩ | ⟨hproducer, hgetter⟩
  · cases hnot
  · exact ⟨_, h, hgetter, hproducer⟩

/-- Both calls together take at most 29 steps, and 3 more for each time the thread is
woken for no reason. -/
theorem getResult_halts {E R : Type u} [DecidableEq E] {executor inline : E} {r : R}
    {ls : List GetLabel} {s : GetResult E R}
    (hrun : (getResult executor inline r).exec (getResult executor inline r).init ls = some s) :
    ls.length ≤ 29 + 3 * ls.count .wake := by
  have hbound := Machine.Reachable.init.exec_length_le_count (m := GetResult.ahead)
    (fun s l t hs hl => GetResult.ahead_step (getResult_inv hs) hl) hrun
  have hinit : (getResult executor inline r).init.ahead = 29 := rfl
  omega

/-- The thread is woken twice for no reason. -/
theorem getResult_halts_woken : ∃ ls s,
    (getResult 1 0 7).exec (getResult 1 0 7).init ls = some s ∧ ls.count .wake = 2 ∧
      s.getter = .returned (some 7) ∧ ls.length ≤ 35 := by
  have hrun : (getResult 1 0 7).exec (getResult 1 0 7).init
      (List.replicate 7 .getter ++ [.wake, .getter, .getter, .wake] ++
        .set :: List.replicate 11 .producer ++ List.replicate 2 .getter) = some _ := rfl
  exact ⟨_, _, hrun, by decide, rfl, getResult_halts hrun⟩

/-- What the lambda does to the stack of `GetResult` after `GetResult` has returned: it
no longer stores, but `FutexWakeAll` may be still to come, in the call of `Set`. -/
theorem getResult_frame {E R : Type u} [DecidableEq E] {executor inline : E} {r : R}
    {s : GetResult E R} (h : (getResult executor inline r).Reachable s) {ans : Option R}
    (hans : s.getter = .returned ans) (p : Party) :
    s.lambda p = .notRun ∨ s.lambda p = .returned ∨ s.lambda p = .wakeAll ∧ p = .producer := by
  have hs := getResult_inv h
  have hraised := (hs.returned ans hans).2
  have hsettled := (hs.subscribed (by rw [hans]; simp) (by rw [hans]; simp)).2
  by_cases hp : s.lambda p = .notRun
  · exact .inl hp
  · have hfills := (hs.filled.of_lambda hp).2.2
    right
    cases hpc : s.lambda p with
    | notRun => exact (hp hpc).elim
    | returned => exact .inl rfl
    | writeAns result =>
      rw [hpc] at hfills
      simp [GetResult.Fills, hraised] at hfills
    | storeSleeper =>
      rw [hpc] at hfills
      simp [GetResult.Fills, hraised] at hfills
    | wakeAll =>
      refine .inr ⟨rfl, ?_⟩
      cases p with
      | producer => rfl
      | consumer => rcases hsettled with hq | hq <;> rw [hpc] at hq <;> cases hq

/-- The thread comes to its `load` between `store` and `FutexWakeAll`, and is gone when
its variable is used. -/
theorem getResult_frame_outlived : ∃ s, (getResult 1 0 7).Reachable s ∧
    s.getter = .returned (some 7) ∧ s.lambda .producer = .wakeAll ∧
      (getResult 1 0 7).step s .producer ≠ none := by
  have h : (getResult 1 0 7).Reachable _ := Machine.reachable_of_exec
    (List.replicate 5 .getter ++ .set :: List.replicate 8 .producer ++ List.replicate 2 .getter) rfl
  rcases getResult_frame h rfl .producer with hnot | hreturned | ⟨hwake, -⟩
  · cases hnot
  · cases hreturned
  · exact ⟨_, h, rfl, hwake, Option.some_ne_none _⟩

end ConcurrentProgramming.Futures
