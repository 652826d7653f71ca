import ConcurrentProgramming.Futures.Combine
import ConcurrentProgramming.Interleaving.Race

/-!
The `FirstOf` combinator. A value takes part in the race by the exchange on
`nobody_is_ready_`, an error by the decrement of `errors_left_`; the winner sets
the promise.
-/

set_option autoImplicit false

namespace ConcurrentProgramming.Futures
open Interleaving

/-- `promise` is what `promise_` has been set to, call by call; `errors_left_` is
a `uint32_t`. The logs hold the inputs in the order of their accesses to the atomics. -/
structure FirstOfCombinator (n : Nat) (V X : Type) where
  promise : List (Except X V)
  nobodyIsReady : Bool
  errorsLeft : BitVec 32
  exchanges : List (Fin n)
  decrements : List (Fin n)

/-- A call of `Release`, before each access to a field. -/
inductive FirstOfRelease (V X : Type) where
  | fetchSub (error : X)
  | exchange (value : V)
  | set (res : Except X V)
  | returned
  deriving DecidableEq, Repr

def FirstOfCombinator.release {n : Nat} {V X : Type} (i : Fin n) (s : FirstOfCombinator n V X) :
    FirstOfRelease V X → Option (FirstOfCombinator n V X × FirstOfRelease V X)
  | .fetchSub error =>
    some ({ s with errorsLeft := s.errorsLeft - 1, decrements := s.decrements ++ [i] },
      if s.errorsLeft - 1 = 0 then .set (.error error) else .returned)
  | .exchange value =>
    some ({ s with nobodyIsReady := false, exchanges := s.exchanges ++ [i] },
      if s.nobodyIsReady then .set (.ok value) else .returned)
  | .set res => some ({ s with promise := s.promise ++ [res] }, .returned)
  | .returned => none

def firstOfCombinator (n : Nat) (V X : Type) :
    Combinator n (Except X V) Unit (FirstOfCombinator n V X) (FirstOfRelease V X) where
  init := ⟨[], true, BitVec.ofNat 32 n, [], []⟩
  acquire s := (s, ())
  release
    | .error error, _ => .fetchSub error
    | .ok value, _ => .exchange value
  step := FirstOfCombinator.release

/-! Where a call is. -/

def FirstOfRelease.acted {V X : Type} : FirstOfRelease V X → Bool
  | .fetchSub _ | .exchange _ => false
  | .set _ | .returned => true

def FirstOfRelease.committing {V X : Type} : FirstOfRelease V X → Bool
  | .set _ => true
  | _ => false

/-- The calls that an input with result `r` can be in. -/
def FirstOfRelease.At {V X : Type} (r : Except X V) : FirstOfRelease V X → Prop
  | .fetchSub error => r = .error error
  | .exchange value => r = .ok value
  | .set res => r = res
  | .returned => True

def FirstOfCombinator.turns {n : Nat} {V X : Type} (s : FirstOfCombinator n V X) :
    Turns (Fin n) := ⟨s.exchanges, s.decrements⟩

def succeeds {n : Nat} {V X : Type} (results : Fin n → Except X V) (i : Fin n) : Bool :=
  (results i).toBool

theorem firstOfCombinator_release (n : Nat) {V X : Type} (r : Except X V) :
    ((firstOfCombinator n V X).release r ()).At r ∧
      ((firstOfCombinator n V X).release r ()).acted = false ∧
      ((firstOfCombinator n V X).release r ()).committing = false := by
  cases r with
  | error e => exact ⟨rfl, rfl, rfl⟩
  | ok v => exact ⟨rfl, rfl, rfl⟩

structure FirstOfInv {n : Nat} {V X : Type} (results : Fin n → Except X V)
    (s : Releasing n Unit (FirstOfCombinator n V X) (FirstOfRelease V X)) : Prop where
  nobodyIsReady : s.shared.nobodyIsReady = s.shared.exchanges.isEmpty
  errorsLeft : s.shared.errorsLeft = BitVec.ofNat 32 (n - s.shared.decrements.length)
  calls : ∀ i p, s.calls i = some p → p.At (results i)
  race : CallRace (succeeds results) results FirstOfRelease.acted FirstOfRelease.committing s.calls
    s.shared.turns s.shared.promise

/-- The decrement that leaves no error. -/
theorem errorsLeft_pred {n k : Nat} (hn : n < 2 ^ 32) (hk : k < n) :
    BitVec.ofNat 32 (n - k) - 1 = BitVec.ofNat 32 (n - (k + 1)) ∧
      (BitVec.ofNat 32 (n - k) - 1 = 0 ↔ k + 1 = n) := by
  constructor
  · apply BitVec.eq_of_toNat_eq
    simp
    omega
  · rw [← BitVec.toNat_inj]
    simp
    omega

namespace FirstOfInv

theorem init {n : Nat} (hn : 0 < n) {V X : Type} (results : Fin n → Except X V) :
    FirstOfInv results (releases (firstOfCombinator n V X) results).init where
  nobodyIsReady := rfl
  errorsLeft := rfl
  calls := nofun
  race := have : Nonempty (Fin n) := ⟨⟨0, hn⟩⟩; Race.init

theorem start {n : Nat} {V X : Type} {results : Fin n → Except X V}
    {s : Releasing n Unit (FirstOfCombinator n V X) (FirstOfRelease V X)}
    (hs : FirstOfInv results s) {i : Fin n} (hi : s.calls i = none) :
    FirstOfInv results { s with
      calls :=
        Function.update s.calls i (some ((firstOfCombinator n V X).release (results i) ())) } := by
  obtain ⟨hAt, hacted, hcommitting⟩ := firstOfCombinator_release n (results i)
  exact ⟨hs.nobodyIsReady, hs.errorsLeft, forall_update hs.calls hAt,
    hs.race.move (by rw [hi]; exact hacted) (by rw [hi]; exact hcommitting)⟩

theorem exchange {n : Nat} {V X : Type} {results : Fin n → Except X V}
    {s : Releasing n Unit (FirstOfCombinator n V X) (FirstOfRelease V X)}
    (hs : FirstOfInv results s) {i : Fin n} {v : V} (hi : s.calls i = some (.exchange v)) :
    FirstOfInv results { s with
      calls := Function.update s.calls i
        (some (if s.shared.nobodyIsReady then .set (.ok v) else .returned))
      shared := { s.shared with
        nobodyIsReady := false, exchanges := s.shared.exchanges ++ [i] } } := by
  have hr : results i = .ok v := hs.calls i _ hi
  refine ⟨by simp, hs.errorsLeft, forall_update hs.calls ?_, ?_⟩
  · split
    · exact hr
    · trivial
  · refine hs.race.stop (by simp [succeeds, hr, Except.toBool])
      (by simp [hi, FirstOfRelease.committing]) (by split <;> rfl) ?_
    have hready : s.shared.nobodyIsReady = s.shared.turns.stopped.isEmpty := hs.nobodyIsReady
    cases hempty : s.shared.turns.stopped.isEmpty <;>
      simp [hready, hempty, FirstOfRelease.committing]

theorem fetchSub {n : Nat} (hn : n < 2 ^ 32) {V X : Type} {results : Fin n → Except X V}
    {s : Releasing n Unit (FirstOfCombinator n V X) (FirstOfRelease V X)}
    (hs : FirstOfInv results s) {i : Fin n} {e : X} (hi : s.calls i = some (.fetchSub e)) :
    FirstOfInv results { s with
      calls := Function.update s.calls i
        (some (if s.shared.errorsLeft - 1 = 0 then .set (.error e) else .returned))
      shared := { s.shared with
        errorsLeft := s.shared.errorsLeft - 1, decrements := s.shared.decrements ++ [i] } } := by
  have hr : results i = .error e := hs.calls i _ hi
  have hcounts : succeeds results i = false := by simp [succeeds, hr, Except.toBool]
  have hturn : (s.calls i).any FirstOfRelease.acted = false := by simp [hi, FirstOfRelease.acted]
  have hlt : s.shared.turns.counted.length < n := by
    have hle := (hs.race.valid.count hcounts (hs.race.not_mem hturn).2).length_le
    exact Nat.lt_of_succ_le (by simpa [Turns.count] using hle)
  have hleft : s.shared.errorsLeft = BitVec.ofNat 32 (n - s.shared.turns.counted.length) :=
    hs.errorsLeft
  obtain ⟨hpred, hzero⟩ := errorsLeft_pred hn hlt
  rw [← hleft] at hpred hzero
  refine ⟨hs.nobodyIsReady, by simpa [FirstOfCombinator.turns] using hpred, forall_update hs.calls ?_, ?_⟩
  · split
    · exact hr
    · trivial
  · refine hs.race.count hcounts hturn (by simp [hi, FirstOfRelease.committing])
      (by split <;> rfl) ?_
    by_cases hlast : s.shared.turns.counted.length + 1 = n
    · rw [if_pos (hzero.mpr hlast)]
      simp [hlast, FirstOfRelease.committing]
    · rw [if_neg (hzero.not.mpr hlast)]
      simp [hlast, FirstOfRelease.committing]

theorem set {n : Nat} {V X : Type} {results : Fin n → Except X V}
    {s : Releasing n Unit (FirstOfCombinator n V X) (FirstOfRelease V X)}
    (hs : FirstOfInv results s) {i : Fin n} {res : Except X V} (hi : s.calls i = some (.set res)) :
    FirstOfInv results { s with
      calls := Function.update s.calls i (some .returned)
      shared := { s.shared with promise := s.shared.promise ++ [res] } } := by
  obtain rfl : results i = res := hs.calls i _ hi
  exact ⟨hs.nobodyIsReady, hs.errorsLeft, forall_update hs.calls (by trivial),
    hs.race.publish (by rw [hi]; rfl) rfl rfl⟩

theorem step {n : Nat} (hn : n < 2 ^ 32) {V X : Type} {results : Fin n → Except X V}
    {s t : Releasing n Unit (FirstOfCombinator n V X) (FirstOfRelease V X)}
    (hs : FirstOfInv results s) {l : ReleaseLabel n}
    (h : s.step (firstOfCombinator n V X) results l = some t) : FirstOfInv results t := by
  rcases Releasing.step_cases h with ⟨_, rfl⟩ | ⟨i, _, hnone, -, rfl⟩ |
    ⟨i, p, shared, p', hp, hrelease, rfl⟩
  · exact ⟨hs.nobodyIsReady, hs.errorsLeft, hs.calls, hs.race⟩
  · exact hs.start hnone
  · simp only [firstOfCombinator] at hrelease
    cases p with
    | fetchSub e =>
      obtain ⟨rfl, rfl⟩ := Prod.mk.inj (Option.some.inj hrelease)
      exact hs.fetchSub hn hp
    | exchange v =>
      obtain ⟨rfl, rfl⟩ := Prod.mk.inj (Option.some.inj hrelease)
      exact hs.exchange hp
    | set res =>
      obtain ⟨rfl, rfl⟩ := Prod.mk.inj (Option.some.inj hrelease)
      exact hs.set hp
    | returned => cases hrelease

theorem reached {n : Nat} (hpos : 0 < n) (hn : n < 2 ^ 32) {V X : Type}
    {results : Fin n → Except X V}
    {s : Releasing n Unit (FirstOfCombinator n V X) (FirstOfRelease V X)}
    (h : (releases (firstOfCombinator n V X) results).Reachable s) : FirstOfInv results s :=
  Machine.Reachable.invariant (init hpos results) (fun _ _ _ _ hs hstep => hs.step hn hstep) h

/-- Who the winner is, in terms of all results. -/
theorem output {n : Nat} {V X : Type} {results : Fin n → Except X V}
    {s : Releasing n Unit (FirstOfCombinator n V X) (FirstOfRelease V X)}
    (hs : FirstOfInv results s) {i : Fin n} (hwin : s.shared.turns.winner = some i) :
    ((∃ j v, results j = .ok v) → ∃ v, s.shared.exchanges.head? = some i ∧ results i = .ok v) ∧
      ((∀ j, ∃ e, results j = .error e) → ∃ e, s.shared.decrements.length = n ∧
        s.shared.decrements.getLast? = some i ∧ results i = .error e) := by
  constructor
  · rintro ⟨j, v, hj⟩
    cases hr : results i with
    | ok w =>
      have hstops : succeeds results i = true := by simp [succeeds, hr, Except.toBool]
      exact ⟨w, hs.race.valid.stopped_of_winner hstops hwin, rfl⟩
    | error e =>
      have hcounts : succeeds results i = false := by simp [succeeds, hr, Except.toBool]
      have hcounted := hs.race.valid.counted j (hs.race.valid.counted_of_winner hcounts hwin j)
      simp [succeeds, hj, Except.toBool] at hcounted
  · intro herrors
    obtain ⟨e, hr⟩ := herrors i
    have hcounts : succeeds results i = false := by simp [succeeds, hr, Except.toBool]
    obtain ⟨hall, hlast⟩ := hs.race.valid.last_of_winner hcounts hwin
    exact ⟨e, hall.trans (Fintype.card_fin n), hlast, hr⟩

end FirstOfInv

/-! A call of `Release` ends. -/

def FirstOfRelease.remaining {V X : Type} : FirstOfRelease V X → Nat
  | .fetchSub _ | .exchange _ => 2
  | .set _ => 1
  | .returned => 0

theorem FirstOfRelease.release_remaining {n : Nat} {V X : Type} {i : Fin n}
    {s s' : FirstOfCombinator n V X} {p p' : FirstOfRelease V X}
    (h : FirstOfCombinator.release i s p = some (s', p')) : p'.remaining < p.remaining := by
  cases p with
  | fetchSub e | exchange e =>
    obtain ⟨-, rfl⟩ := Prod.mk.inj (Option.some.inj h)
    split <;> simp [remaining]
  | set res =>
    obtain ⟨-, rfl⟩ := Prod.mk.inj (Option.some.inj h)
    simp [remaining]
  | returned => cases h

theorem FirstOfRelease.returned_of_ended {n : Nat} {V X : Type} {i : Fin n}
    {s : FirstOfCombinator n V X} {p : FirstOfRelease V X}
    (h : FirstOfCombinator.release i s p = none) : p = .returned := by
  cases p with
  | returned => rfl
  | fetchSub | exchange | set => simp [FirstOfCombinator.release] at h

/-- Every run of `Combine` ends. The promise is set at most once and in a finished
run exactly once: to the value of the input that was first to exchange
`nobody_is_ready_`, or, if all inputs are errors, to the error of the input that
was last to decrement `errors_left_`. -/
theorem firstOf_settles {n : Nat} (hpos : 0 < n) (hn : n < 2 ^ 32) {E V X : Type}
    (executors : Fin n → E) (results : Fin n → Except X V) :
    (∃ steps, ∀ ls s, (combine (firstOfCombinator n V X) executors results).exec
      (combine (firstOfCombinator n V X) executors results).init ls = some s →
        ls.length ≤ steps) ∧
    ∀ s, (combine (firstOfCombinator n V X) executors results).Reachable s →
      s.violated = false ∧
      (s.shared.promise = [] ∨ ∃ out, s.shared.promise = [out] ∧
        ((∃ i v, results i = .ok v) → ∃ i v, s.shared.exchanges.head? = some i ∧
          results i = .ok v ∧ out = .ok v) ∧
        ((∀ i, ∃ e, results i = .error e) → ∃ i e, s.shared.decrements.length = n ∧
          s.shared.decrements.getLast? = some i ∧ results i = .error e ∧ out = .error e)) ∧
      ((∀ l, (combine (firstOfCombinator n V X) executors results).step s l = none) →
        s.shared.promise ≠ []) := by
  constructor
  · refine combine_ends FirstOfRelease.remaining 2 (fun r _ => ?_)
      (fun i s p s' p' h => FirstOfRelease.release_remaining h) executors results
    cases r <;> simp [firstOfCombinator, FirstOfRelease.remaining]
  · intro s h
    have hs := FirstOfInv.reached hpos hn ((combineRefines _ executors results).reachable h)
    refine ⟨(Combining.inv h).unviolated, ?_, fun hend => ?_⟩
    · refine hs.race.published_winner.imp_right fun ⟨i, hwin, hpub⟩ => ⟨_, hpub, ?_, ?_⟩
      · intro hex
        obtain ⟨v, hfirst, hr⟩ := (hs.output hwin).1 hex
        exact ⟨i, v, hfirst, hr, hr⟩
      · intro herrors
        obtain ⟨e, hall, hlast, hr⟩ := (hs.output hwin).2 herrors
        exact ⟨i, e, hall, hlast, hr, hr⟩
    · have : Nonempty (Fin n) := ⟨⟨0, hpos⟩⟩
      refine hs.race.published_ne_nil fun i => ?_
      obtain ⟨p, hp, hended⟩ := (Combining.inv h).ended hend i
      obtain rfl := FirstOfRelease.returned_of_ended hended
      exact ⟨_, hp, rfl, rfl⟩

/-- The first input fails before the loop starts, the second succeeds after it. -/
theorem firstOf_settles_value :
    ∃ s, (combine (firstOfCombinator 2 Nat Nat) (fun _ => 0)
      fun i : Fin 2 => if i = 0 then .error 7 else .ok 8).Reachable s ∧
        s.shared.promise = [.ok 8] := by
  obtain ⟨s, h, hset⟩ := Machine.exists_reachable_of_exec
    (M := combine (firstOfCombinator 2 Nat Nat) (fun _ => 0)
      fun i : Fin 2 => if i = 0 then .error 7 else .ok 8)
    (p := fun s => !s.shared.promise.isEmpty)
    (List.replicate 5 (.setResult 0) ++ List.replicate 8 .acquire ++ .run 0 0 ::
      .release 0 0 :: List.replicate 6 .acquire ++ List.replicate 8 (.setResult 1) ++
      .run 1 0 :: List.replicate 2 (.release 1 0)) (by decide +kernel)
  obtain ⟨-, hpromise, -⟩ := (firstOf_settles (by decide) (by decide) _ _).2 s h
  rcases hpromise with hnil | ⟨out, hout, hvalue, -⟩
  · simp [hnil] at hset
  · obtain ⟨i, v, -, hi, rfl⟩ := hvalue ⟨1, 8, rfl⟩
    have hv : v = 8 := by
      split at hi
      · cases hi
      · exact (Except.ok.inj hi).symm
    exact ⟨s, h, by rw [hout, hv]⟩

end ConcurrentProgramming.Futures
