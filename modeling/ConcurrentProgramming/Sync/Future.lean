import ConcurrentProgramming.Interleaving.Latch
import ConcurrentProgramming.Interleaving.Machine

/-!
`stdlike::Promise` and `stdlike::Future`. A section of the mutex of `Blocker` is one
step, and so is the access to `message_`, which no mutex protects.
-/

set_option autoImplicit false

namespace ConcurrentProgramming.Sync
open Interleaving

/-- `message_` is a value or an exception, at first the null pointer to one. Threads
sleep in `is_ready_` until it is no longer closed. -/
structure FutureControlBlock (T X : Type) where
  isReady : Latch Unit
  message : T ⊕ Option X

inductive SetMessage (T X : Type) where
  | notCalled
  | writeMessage (message : T ⊕ X)
  | open_
  | returned
  deriving DecidableEq, Repr

/-- `returned` with what the visitor has returned or thrown. -/
inductive Get (T X : Type) where
  | check
  | returned (result : T ⊕ Option X)
  deriving DecidableEq, Repr

/-- A promise and its future, with the one call on each. -/
structure PromiseFuture (T X : Type) where
  connection : FutureControlBlock T X
  promise : SetMessage T X
  future : Get T X

inductive FutureLabel where
  | set
  | promise
  | future
  | wake
  deriving DecidableEq, Repr

namespace PromiseFuture

def promiseStep {T X : Type} (s : PromiseFuture T X) : Option (PromiseFuture T X) :=
  match s.promise with
  | .notCalled | .returned => none
  | .writeMessage message =>
    some { s with
      connection := { s.connection with message := message.map id some }, promise := .open_ }
  | .open_ =>
    some { s with
      connection := { s.connection with isReady := s.connection.isReady.store.wakeAll }
      promise := .returned }

def futureStep {T X : Type} (s : PromiseFuture T X) : Option (PromiseFuture T X) :=
  match s.future with
  | .check =>
    match s.connection.isReady.waiters () with
    | .passed => some { s with future := .returned s.connection.message }
    | _ => (s.connection.isReady.check ()).map fun isReady =>
      { s with connection := { s.connection with isReady := isReady } }
  | .returned _ => none

def step {T X : Type} (message : T ⊕ X) (s : PromiseFuture T X) :
    FutureLabel → Option (PromiseFuture T X)
  | .set =>
    match s.promise with
    | .notCalled => some { s with promise := .writeMessage message }
    | _ => none
  | .promise => s.promiseStep
  | .future => s.futureStep
  | .wake => (s.connection.isReady.wake ()).map fun isReady =>
    { s with connection := { s.connection with isReady := isReady } }

end PromiseFuture

/-- `SetValue` or `SetException` with `message`, and `Get`. -/
def promiseFuture {T X : Type} (message : T ⊕ X) : Machine (PromiseFuture T X) FutureLabel where
  init := ⟨⟨.new Unit, .inr none⟩, .notCalled, .check⟩
  step := PromiseFuture.step message

namespace PromiseFuture

/-- Nobody sleeps on an open `Blocker`, and `message_` is not written after that. -/
structure Inv {T X : Type} (message : T ⊕ X) (s : PromiseFuture T X) : Prop where
  argument : ∀ m, s.promise = .writeMessage m → m = message
  written : s.promise = .open_ ∨ s.promise = .returned →
    s.connection.message = message.map id some
  raised : s.connection.isReady.raised = true ↔ s.promise = .returned
  heard : s.connection.isReady.Heard False
  sectioned : s.connection.isReady.Sectioned
  returned : ∀ result, s.future = .returned result →
    result = message.map id some ∧ s.promise = .returned

theorem Inv.sleeps {T X : Type} {message : T ⊕ X} {s : PromiseFuture T X} (hs : s.Inv message)
    {isReady : Latch Unit} (hraised : isReady.raised = s.connection.isReady.raised)
    (hheard : isReady.Heard False) (hsectioned : isReady.Sectioned) :
    ({ s with connection := { s.connection with isReady := isReady } } : PromiseFuture T X).Inv
      message :=
  ⟨hs.argument, hs.written, hraised ▸ hs.raised, hheard, hsectioned, hs.returned⟩

theorem Inv.promiseStep {T X : Type} {message : T ⊕ X} {s t : PromiseFuture T X}
    (hs : s.Inv message) (h : s.promiseStep = some t) : t.Inv message := by
  unfold PromiseFuture.promiseStep at h
  have hopen (hnot : s.promise ≠ .returned) (result : T ⊕ Option X) :
      s.future ≠ .returned result := fun hresult => hnot (hs.returned result hresult).2
  cases hp : s.promise with
  | notCalled | returned => simp [hp] at h
  | writeMessage m =>
    simp only [hp, Option.some.injEq] at h
    subst h
    obtain rfl := hs.argument m hp
    have hlowered := hs.raised.not.mpr (by rw [hp]; simp)
    refine ⟨fun m hm => ?_, fun _ => rfl, ⟨fun hup => (hlowered hup).elim, fun hr => ?_⟩,
      hs.heard, hs.sectioned, fun result hresult => (hopen (by rw [hp]; simp) result hresult).elim⟩
    · cases hm
    · cases hr
  | open_ =>
    simp only [hp, Option.some.injEq] at h
    subst h
    refine ⟨fun m hm => ?_, fun _ => hs.written (.inl hp), ⟨fun _ => rfl, fun _ => rfl⟩,
      (Latch.heard_store _ trivial).wakeAll False, Latch.Sectioned.wakeAll hs.sectioned,
      fun result hresult => (hopen (by rw [hp]; simp) result hresult).elim⟩
    cases hm

theorem futureStep_cases {T X : Type} {s t : PromiseFuture T X} (h : s.futureStep = some t) :
    s.future = .check ∧ (s.connection.isReady.waiters () = .passed ∧
        t = { s with future := .returned s.connection.message } ∨
      ∃ isReady, s.connection.isReady.check () = some isReady ∧
        t = { s with connection := { s.connection with isReady := isReady } }) := by
  unfold futureStep at h
  cases hf : s.future with
  | returned result => simp [hf] at h
  | check =>
    refine ⟨rfl, ?_⟩
    simp only [hf] at h
    split at h
    · rename_i hpassed
      exact .inl ⟨hpassed, (Option.some.inj h).symm⟩
    · obtain ⟨isReady, hready, rfl⟩ := Option.map_eq_some_iff.mp h
      exact .inr ⟨isReady, hready, rfl⟩

theorem Inv.step {T X : Type} {message : T ⊕ X} {s t : PromiseFuture T X} (hs : s.Inv message)
    {l : FutureLabel} (h : s.step message l = some t) : t.Inv message := by
  cases l with
  | promise => exact hs.promiseStep h
  | set =>
    cases hp : s.promise <;> simp only [PromiseFuture.step, hp, reduceCtorEq,
      Option.some.injEq] at h
    subst h
    have hlowered := hs.raised.not.mpr (by rw [hp]; simp)
    refine ⟨fun m hm => ?_, fun hwritten => ?_, ⟨fun hup => (hlowered hup).elim, fun hr => ?_⟩,
      hs.heard, hs.sectioned, fun result hresult => ?_⟩
    · exact (SetMessage.writeMessage.inj hm).symm
    · rcases hwritten with hw | hw <;> cases hw
    · cases hr
    · have hreturned := (hs.returned result hresult).2
      rw [hp] at hreturned
      cases hreturned
  | future =>
    rcases futureStep_cases h with ⟨-, ⟨hpassed, rfl⟩ | ⟨isReady, hready, rfl⟩⟩
    · have hreturned := hs.raised.mp (hs.heard.passed () hpassed)
      refine ⟨hs.argument, hs.written, hs.raised, hs.heard, hs.sectioned,
        fun result hresult => ⟨?_, hreturned⟩⟩
      obtain rfl := Get.returned.inj hresult
      exact hs.written (.inr hreturned)
    · obtain ⟨hraised, hheard⟩ := hs.heard.check hready
      exact hs.sleeps hraised hheard (hs.sectioned.check hready)
  | wake =>
    obtain ⟨isReady, hready, rfl⟩ := Option.map_eq_some_iff.mp h
    obtain ⟨hraised, hheard⟩ := hs.heard.wake hready
    exact hs.sleeps hraised hheard (hs.sectioned.wake hready)

end PromiseFuture

theorem promiseFuture_inv {T X : Type} {message : T ⊕ X} {s : PromiseFuture T X}
    (h : (promiseFuture message).Reachable s) : s.Inv message := by
  apply h.invariant
  · refine ⟨fun m hm => ?_, fun hwritten => ?_, ⟨fun hup => ?_, fun hr => ?_⟩, Latch.heard_new _,
      Latch.sectioned_new, fun result hresult => ?_⟩
    · cases hm
    · rcases hwritten with hw | hw <;> cases hw
    · cases hup
    · cases hr
    · cases hresult
  · intro s l t _ hs hl
    exact hs.step hl

/-! How long it all takes. -/

def SetMessage.ahead {T X : Type} : SetMessage T X → Nat
  | .notCalled => 5
  | .writeMessage _ => 4
  | .open_ => 3
  | .returned => 0

def Get.ahead {T X : Type} : Get T X → Nat
  | .check => 1
  | .returned _ => 0

namespace PromiseFuture

def ahead {T X : Type} (s : PromiseFuture T X) : Nat :=
  s.promise.ahead + s.connection.isReady.ahead + s.future.ahead

theorem ahead_promiseStep {T X : Type} {s t : PromiseFuture T X}
    (h : s.promiseStep = some t) : t.ahead < s.ahead := by
  have hone : Fintype.card Unit = 1 := rfl
  unfold PromiseFuture.promiseStep at h
  cases hp : s.promise with
  | notCalled | returned => simp [hp] at h
  | writeMessage m =>
    simp only [hp, Option.some.injEq] at h
    subst h
    simp only [ahead, hp, SetMessage.ahead]
    omega
  | open_ =>
    simp only [hp, Option.some.injEq] at h
    subst h
    have hstore := s.connection.isReady.ahead_store
    have hwake := Latch.ahead_wakeAll (e := s.connection.isReady.store) rfl
    simp only [ahead, hp, SetMessage.ahead]
    omega

/-- A wake-up for no reason puts the thread back to the test of `closed_`. -/
theorem ahead_step {T X : Type} {message : T ⊕ X} {s t : PromiseFuture T X} {l : FutureLabel}
    (h : s.step message l = some t) : t.ahead < s.ahead + if l = .wake then 3 else 0 := by
  cases l with
  | promise => exact ahead_promiseStep h
  | set =>
    cases hp : s.promise <;> simp only [PromiseFuture.step, hp, reduceCtorEq,
      Option.some.injEq] at h
    subst h
    simp only [ahead, hp, SetMessage.ahead]
    omega
  | future =>
    rcases futureStep_cases h with ⟨hf, ⟨-, rfl⟩ | ⟨isReady, hready, rfl⟩⟩
    · simp only [ahead, hf, Get.ahead]
      omega
    · have hless := Latch.ahead_check hready
      simp only [ahead]
      omega
  | wake =>
    obtain ⟨isReady, hready, rfl⟩ := Option.map_eq_some_iff.mp h
    have hmore := Latch.ahead_wake hready
    simp only [ahead, if_true]
    omega

/-- Where neither call can go on, the promise was never set, or both have returned. -/
theorem Inv.at_rest {T X : Type} {message : T ⊕ X} {s : PromiseFuture T X} (hs : s.Inv message)
    (hpromise : s.promiseStep = none) (hfuture : s.futureStep = none) :
    s.promise = .notCalled ∧ s.connection.isReady.waiters () = .asleep ∨
      s.promise = .returned ∧ s.future = .returned (message.map id some) := by
  have hended : s.promise = .notCalled ∨ s.promise = .returned := by
    unfold PromiseFuture.promiseStep at hpromise
    cases hp : s.promise with
    | notCalled => exact .inl rfl
    | returned => exact .inr rfl
    | writeMessage | open_ => simp [hp] at hpromise
  cases hf : s.future with
  | returned result =>
    obtain ⟨rfl, hreturned⟩ := hs.returned result hf
    exact .inr ⟨hreturned, rfl⟩
  | check =>
    have hasleep : s.connection.isReady.waiters () = .asleep := by
      simp only [futureStep, hf] at hfuture
      split at hfuture
      · cases hfuture
      · rename_i hpassed
        exact hs.sectioned.asleep_of_stuck (Option.map_eq_none_iff.mp hfuture) hpassed
    refine .inl ⟨hended.resolve_right fun hreturned => ?_, hasleep⟩
    exact hs.heard.asleep () hasleep (hs.raised.mpr hreturned)

end PromiseFuture

/-- `Get` returns the value or throws the exception that the promise was given, not
before `Open` has let it, and a wake-up is never lost: where neither call can go on,
both have returned, or the promise has not been given anything and the thread sleeps. -/
theorem future_get {T X : Type} {message : T ⊕ X} {s : PromiseFuture T X}
    (h : (promiseFuture message).Reachable s) :
    (∀ result, s.future = .returned result →
        result = message.map id some ∧ s.promise = .returned) ∧
      (s.promiseStep = none → s.futureStep = none →
        s.promise = .notCalled ∧ s.connection.isReady.waiters () = .asleep ∨
          s.promise = .returned ∧ s.future = .returned (message.map id some)) := by
  have hs := promiseFuture_inv h
  exact ⟨hs.returned, hs.at_rest⟩

/-- The thread falls asleep before the exception is set. -/
theorem future_get_slept :
    ∃ s, (promiseFuture (T := Nat) (.inr "oops")).Reachable s ∧
      s.future = .returned (.inr (some "oops")) := by
  have h : (promiseFuture (T := Nat) (.inr "oops")).Reachable _ := Machine.reachable_of_exec
    [.future, .set, .promise, .promise, .future, .future] rfl
  rcases (future_get h).2 rfl rfl with ⟨hnot, -⟩ | ⟨-, hfuture⟩
  · cases hnot
  · exact ⟨_, h, hfuture⟩

/-- Both calls together take at most 8 steps, and 3 more for each time the thread is
woken for no reason. -/
theorem future_halts {T X : Type} {message : T ⊕ X} {ls : List FutureLabel}
    {s : PromiseFuture T X}
    (hrun : (promiseFuture message).exec (promiseFuture message).init ls = some s) :
    ls.length ≤ 8 + 3 * ls.count .wake := by
  have hbound := Machine.Reachable.init.exec_length_le_count (m := PromiseFuture.ahead)
    (fun s l t _ hl => PromiseFuture.ahead_step hl) hrun
  have hinit : (promiseFuture message).init.ahead = 8 := rfl
  omega

end ConcurrentProgramming.Sync
