import ConcurrentProgramming.Futures.Combine
import ConcurrentProgramming.Interleaving.Race

/-!
The `All` combinator. A value takes part in the race by adding to `finished_`,
an error by the exchange on `exited_`; the winner sets the promise.
-/

set_option autoImplicit false

namespace ConcurrentProgramming.Futures
open Interleaving

/-- `promise` is what `promise_` has been set to, call by call, of which
`ReleaseState` lets only the first pass. `limit_` and the size of `ans_` are `n`;
`finished_` counts up to `limit_`, so it does not wrap. The logs hold the inputs in the order
of their accesses to `exited_` and `finished_`. -/
structure AllCombinator (n : Nat) (V X : Type) where
  promise : List (Except X (List V))
  ans : Fin n → Option V
  finished : Nat
  exited : Bool
  acquired : Nat
  exchanges : List (Fin n)
  additions : List (Fin n)
  violated : Bool

/-- A call of `Release`, before each access to a field. -/
inductive AllRelease (V X : Type) where
  | exchange (error : X)
  | setError (error : X)
  | store (value : V) (number : Nat)
  | fetchAdd
  | collect (k : Nat) (prepare : List V)
  | returned
  deriving DecidableEq, Repr

/-- A value moved out of its slot must not be read again. -/
def AllCombinator.release {n : Nat} {V X : Type} (i : Fin n) (s : AllCombinator n V X) :
    AllRelease V X → Option (AllCombinator n V X × AllRelease V X)
  | .exchange error =>
    some ({ s with exited := true, exchanges := s.exchanges ++ [i] },
      if s.exited then .returned else .setError error)
  | .setError error => some ({ s with promise := s.promise ++ [.error error] }, .returned)
  | .store value number =>
    if h : number < n then
      some ({ s with ans := Function.update s.ans ⟨number, h⟩ (some value) }, .fetchAdd)
    else some ({ s with violated := true }, .returned)
  | .fetchAdd =>
    some ({ s with finished := s.finished + 1, additions := s.additions ++ [i] },
      if s.finished + 1 = n then .collect 0 [] else .returned)
  | .collect k prepare =>
    if h : k < n then
      match s.ans ⟨k, h⟩ with
      | some value =>
        some ({ s with ans := Function.update s.ans ⟨k, h⟩ none },
          .collect (k + 1) (prepare ++ [value]))
      | none => some ({ s with violated := true }, .returned)
    else some ({ s with promise := s.promise ++ [.ok prepare] }, .returned)
  | .returned => none

/-- `Acquire` numbers the inputs by `acquired_`. -/
def allCombinator (n : Nat) (V X : Type) :
    Combinator n (Except X V) Nat (AllCombinator n V X) (AllRelease V X) where
  init := ⟨[], fun _ => none, 0, false, 0, [], [], false⟩
  acquire s := ({ s with acquired := s.acquired + 1 }, s.acquired)
  release
    | .error error, _ => .exchange error
    | .ok value, number => .store value number
  step := AllCombinator.release

/-! What an input contributes if it wins. -/

def values {n : Nat} {V X : Type} (results : Fin n → Except X V) : List V :=
  (List.ofFn results).filterMap Except.toOption

def allOutput {n : Nat} {V X : Type} (results : Fin n → Except X V) (i : Fin n) :
    Except X (List V) :=
  match results i with
  | .error error => .error error
  | .ok _ => .ok (values results)

def fails {n : Nat} {V X : Type} (results : Fin n → Except X V) (i : Fin n) : Bool :=
  !(results i).toBool

theorem values_eq {n : Nat} {V X : Type} {results : Fin n → Except X V} {v : Fin n → V}
    (h : ∀ i, results i = .ok (v i)) : values results = List.ofFn v := by
  have hofFn : List.ofFn results = (List.ofFn v).map .ok := by
    rw [List.map_ofFn]
    exact congrArg List.ofFn (funext h)
  rw [values, hofFn, List.filterMap_map]
  exact List.filterMap_some

/-! Where a call is. -/

def AllRelease.acted {V X : Type} : AllRelease V X → Bool
  | .exchange _ | .store _ _ | .fetchAdd => false
  | .setError _ | .collect _ _ | .returned => true

def AllRelease.stored {V X : Type} : AllRelease V X → Bool
  | .exchange _ | .store _ _ => false
  | _ => true

def AllRelease.committing {V X : Type} : AllRelease V X → Bool
  | .setError _ | .collect _ _ => true
  | _ => false

theorem AllRelease.stored_of_acted {V X : Type} {p : AllRelease V X} (h : p.acted = true) :
    p.stored = true := by
  cases p <;> first | rfl | cases h

/-- The calls that an input with result `r` and number `i` can be in. -/
def AllRelease.At {V X : Type} (r : Except X V) (i : Nat) : AllRelease V X → Prop
  | .exchange error | .setError error => r = .error error
  | .store value number => r = .ok value ∧ number = i
  | .fetchAdd | .collect _ _ => r.toBool = true
  | .returned => True

def AllCombinator.turns {n : Nat} {V X : Type} (s : AllCombinator n V X) : Turns (Fin n) :=
  ⟨s.exchanges, s.additions⟩

theorem allCombinator_release (n : Nat) {V X : Type} (r : Except X V) (number : Nat) :
    ((allCombinator n V X).release r number).At r number ∧
      ((allCombinator n V X).release r number).acted = false ∧
      ((allCombinator n V X).release r number).stored = false ∧
      ((allCombinator n V X).release r number).committing = false := by
  cases r with
  | error e => exact ⟨rfl, rfl, rfl, rfl⟩
  | ok v => exact ⟨⟨rfl, rfl⟩, rfl, rfl, rfl⟩

structure AllInv {n : Nat} {V X : Type} (results : Fin n → Except X V)
    (s : Releasing n Nat (AllCombinator n V X) (AllRelease V X)) : Prop where
  acquired : s.shared.acquired = s.next
  captured : ∀ i number, s.captured i = some number → number = i
  exited : s.shared.exited = !s.shared.exchanges.isEmpty
  finished : s.shared.finished = s.shared.additions.length
  calls : ∀ i p, s.calls i = some p → p.At (results i) i
  race : CallRace (fails results) (allOutput results) AllRelease.acted AllRelease.committing s.calls
    s.shared.turns s.shared.promise
  stored : s.shared.turns.winner = none → ∀ i value, results i = .ok value →
    (s.calls i).any AllRelease.stored = true → s.shared.ans i = some value
  collected : ∀ i k prepare, s.calls i = some (.collect k prepare) →
    prepare = (values results).take k ∧
      ∀ j value, k ≤ j.val → results j = .ok value → s.shared.ans j = some value
  unviolated : s.shared.violated = false

namespace AllInv

theorem init {n : Nat} (hn : 0 < n) {V X : Type} (results : Fin n → Except X V) :
    AllInv results (releases (allCombinator n V X) results).init where
  acquired := rfl
  captured := nofun
  exited := rfl
  finished := rfl
  calls := nofun
  race := have : Nonempty (Fin n) := ⟨⟨0, hn⟩⟩; Race.init
  stored _ _ _ _ h := by cases h
  collected := nofun
  unviolated := rfl

/-- While an input collects, all inputs are values that have been counted. -/
theorem counted {n : Nat} {V X : Type} {results : Fin n → Except X V}
    {s : Releasing n Nat (AllCombinator n V X) (AllRelease V X)} (hs : AllInv results s)
    {i : Fin n} {k : Nat} {prepare : List V} (hi : s.calls i = some (.collect k prepare)) :
    (∀ j, (s.calls j).any AllRelease.acted = true) ∧ (∃ v : Fin n → V, ∀ j, results j = .ok (v j)) ∧
      s.shared.turns.winner = some i ∧
      ∀ j k prepare, s.calls j = some (.collect k prepare) → j = i := by
  obtain ⟨hwin, honly, -⟩ := hs.race.winner_of_committing (i := i) (by simp [hi, AllRelease.committing])
  have hvalue : (results i).toBool = true := hs.calls i _ hi
  have hmem := hs.race.valid.counted_of_winner (by simp [fails, hvalue]) hwin
  refine ⟨fun j => (hs.race.acted j).mp (.inr (hmem j)), ?_, hwin, fun j k prepare hj =>
    honly j (by simp [hj, AllRelease.committing])⟩
  have hok (j : Fin n) : ∃ v, results j = .ok v := by
    have hj := hs.race.valid.counted j (hmem j)
    cases hr : results j with
    | error e => simp [fails, hr, Except.toBool] at hj
    | ok v => exact ⟨v, rfl⟩
  exact Classical.axiomOfChoice hok

theorem start {n : Nat} {V X : Type} {results : Fin n → Except X V}
    {s : Releasing n Nat (AllCombinator n V X) (AllRelease V X)} (hs : AllInv results s)
    {i : Fin n} {number : Nat} (hi : s.calls i = none) (hnumber : s.captured i = some number) :
    AllInv results { s with
      calls :=
        Function.update s.calls i (some ((allCombinator n V X).release (results i) number)) } := by
  obtain rfl := hs.captured i number hnumber
  obtain ⟨hAt, hacted, hstored, hcommitting⟩ := allCombinator_release n (results i) i
  refine ⟨hs.acquired, hs.captured, hs.exited, hs.finished, forall_update hs.calls hAt,
    hs.race.move (by rw [hi]; exact hacted) (by rw [hi]; exact hcommitting),
    fun hwin j v hj hmoved => ?_, fun j k prepare hj => ?_, hs.unviolated⟩
  · rcases eq_or_ne j i with rfl | hji
    · simp [hstored] at hmoved
    · exact hs.stored hwin j v hj (by simpa [hji] using hmoved)
  · rcases eq_or_ne j i with rfl | hji
    · simp only [Function.update_self, Option.some.injEq] at hj
      simp [hj, AllRelease.committing] at hcommitting
    · exact hs.collected j k prepare (by simpa [hji] using hj)

theorem exchange {n : Nat} {V X : Type} {results : Fin n → Except X V}
    {s : Releasing n Nat (AllCombinator n V X) (AllRelease V X)} (hs : AllInv results s)
    {i : Fin n} {e : X} (hi : s.calls i = some (.exchange e)) :
    AllInv results { s with
      calls := Function.update s.calls i (some (if s.shared.exited then .returned else .setError e))
      shared := { s.shared with exited := true, exchanges := s.shared.exchanges ++ [i] } } := by
  have hr : results i = .error e := hs.calls i _ hi
  refine ⟨hs.acquired, hs.captured, by simp, hs.finished, forall_update hs.calls ?_, ?_,
    fun hwin => absurd hwin (s.shared.turns.stop_winner i), fun j k prepare hj => ?_, hs.unviolated⟩
  · split
    · trivial
    · exact hr
  · refine hs.race.stop (by simp [fails, hr, Except.toBool]) (by simp [hi, AllRelease.committing])
      (by split <;> rfl) ?_
    have hexited : s.shared.exited = !s.shared.turns.stopped.isEmpty := hs.exited
    cases hempty : s.shared.turns.stopped.isEmpty <;> simp [hexited, hempty, AllRelease.committing]
  · rcases eq_or_ne j i with rfl | hji
    · split at hj <;> simp at hj
    · exact hs.collected j k prepare (by simpa [hji] using hj)

theorem setError {n : Nat} {V X : Type} {results : Fin n → Except X V}
    {s : Releasing n Nat (AllCombinator n V X) (AllRelease V X)} (hs : AllInv results s)
    {i : Fin n} {e : X} (hi : s.calls i = some (.setError e)) :
    AllInv results { s with
      calls := Function.update s.calls i (some .returned)
      shared := { s.shared with promise := s.shared.promise ++ [.error e] } } := by
  have hr : results i = .error e := hs.calls i _ hi
  have hcommitting : (s.calls i).any AllRelease.committing = true := by
    simp [hi, AllRelease.committing]
  refine ⟨hs.acquired, hs.captured, hs.exited, hs.finished, forall_update hs.calls (by trivial), ?_,
    fun hwin => ?_, fun j k prepare hj => ?_, hs.unviolated⟩
  · have hout : allOutput results i = .error e := by rw [allOutput, hr]
    rw [← hout]
    exact hs.race.publish (by rw [hi]; rfl) rfl rfl
  · have hwon := (hs.race.winner_of_committing hcommitting).1
    cases hwon.symm.trans hwin
  · rcases eq_or_ne j i with rfl | hji
    · simp at hj
    · exact hs.collected j k prepare (by simpa [hji] using hj)

theorem store {n : Nat} {V X : Type} {results : Fin n → Except X V}
    {s : Releasing n Nat (AllCombinator n V X) (AllRelease V X)} (hs : AllInv results s)
    {i : Fin n} {v : V} {number : Nat} (hi : s.calls i = some (.store v number)) :
    ∃ h : number < n, AllInv results { s with
      calls := Function.update s.calls i (some .fetchAdd)
      shared := { s.shared with ans := Function.update s.shared.ans ⟨number, h⟩ (some v) } } := by
  obtain ⟨hr, rfl⟩ : results i = .ok v ∧ number = i := hs.calls i _ hi
  refine ⟨i.isLt, hs.acquired, hs.captured, hs.exited, hs.finished,
    forall_update hs.calls (by rw [hr]; rfl), hs.race.move (by rw [hi]; rfl) (by rw [hi]; rfl),
    fun hwin j w hj hmoved => ?_, fun j k prepare hj => ?_, hs.unviolated⟩
  · rcases eq_or_ne j i with rfl | hji
    · obtain rfl : v = w := by simpa [hr] using hj
      simp
    · simpa [hji] using hs.stored hwin j w hj (by simpa [hji] using hmoved)
  · rcases eq_or_ne j i with rfl | hji
    · simp at hj
    · have hacted := (hs.counted (by simpa [hji] using hj)).1 i
      simp [hi, AllRelease.acted] at hacted

theorem fetchAdd {n : Nat} {V X : Type} {results : Fin n → Except X V}
    {s : Releasing n Nat (AllCombinator n V X) (AllRelease V X)} (hs : AllInv results s)
    {i : Fin n} (hi : s.calls i = some .fetchAdd) :
    AllInv results { s with
      calls :=
        Function.update s.calls i (some (if s.shared.finished + 1 = n then .collect 0 [] else .returned))
      shared := { s.shared with
        finished := s.shared.finished + 1, additions := s.shared.additions ++ [i] } } := by
  have hr : (results i).toBool = true := hs.calls i _ hi
  have hfails : fails results i = false := by simp [fails, hr]
  have hturn : (s.calls i).any AllRelease.acted = false := by simp [hi, AllRelease.acted]
  have hmem := (hs.race.not_mem hturn).2
  refine ⟨hs.acquired, hs.captured, hs.exited, by simp [hs.finished], forall_update hs.calls ?_, ?_,
    fun hwin j v hj hmoved => ?_, fun j k prepare hj => ?_, hs.unviolated⟩
  · split
    · exact hr
    · trivial
  · refine hs.race.count hfails hturn (by simp [hi, AllRelease.committing]) (by split <;> rfl) ?_
    have hfinished : s.shared.turns.counted.length = s.shared.finished := hs.finished.symm
    by_cases hlast : s.shared.finished + 1 = n <;> simp [hfinished, hlast, AllRelease.committing]
  · have hwin := hs.race.valid.winner_of_count hfails hmem hwin
    refine hs.stored hwin j v hj ?_
    rcases eq_or_ne j i with rfl | hji
    · simp [hi, AllRelease.stored]
    · simpa [hji] using hmoved
  · rcases eq_or_ne j i with rfl | hji
    · have hlast : s.shared.finished + 1 = n := by
        by_contra hne
        simp [hne] at hj
      obtain ⟨rfl, rfl⟩ : k = 0 ∧ prepare = [] := by simpa [hlast, eq_comm] using hj
      refine ⟨List.take_zero.symm, fun m w _ hm => ?_⟩
      have hcard : s.shared.turns.counted.length + 1 = Fintype.card (Fin n) := by
        simpa [AllCombinator.turns, ← hs.finished] using hlast
      refine hs.stored (hs.race.valid.count_last hfails hmem hcard).1 m w hm ?_
      have hall := (hs.race.valid.count hfails hmem).mem_counted
        (by simpa [Turns.count] using hcard) m
      rcases List.mem_append.mp hall with hcounted | hlast
      · have hacted := (hs.race.acted m).mp (.inr hcounted)
        obtain ⟨p, hp, hacted⟩ := (Option.any_eq_true _ _).mp hacted
        rw [hp]
        exact AllRelease.stored_of_acted hacted
      · rw [List.mem_singleton.mp hlast, hi]
        rfl
    · exact hs.collected j k prepare (by simpa [hji] using hj)

theorem values_length {n : Nat} {V X : Type} (results : Fin n → Except X V) :
    (values results).length ≤ n :=
  (List.length_filterMap_le ..).trans (List.length_ofFn ..).le

theorem collect {n : Nat} {V X : Type} {results : Fin n → Except X V}
    {s : Releasing n Nat (AllCombinator n V X) (AllRelease V X)} (hs : AllInv results s)
    {i : Fin n} {k : Nat} {prepare : List V} (hi : s.calls i = some (.collect k prepare))
    (hk : k < n) : ∃ v, s.shared.ans ⟨k, hk⟩ = some v ∧ AllInv results { s with
      calls := Function.update s.calls i (some (.collect (k + 1) (prepare ++ [v])))
      shared := { s.shared with ans := Function.update s.shared.ans ⟨k, hk⟩ none } } := by
  obtain ⟨hprepare, hans⟩ := hs.collected i k prepare hi
  obtain ⟨-, ⟨v, hv⟩, hwin, honly⟩ := hs.counted hi
  refine ⟨v ⟨k, hk⟩, hans _ _ (Nat.le_refl k) (hv _), hs.acquired, hs.captured, hs.exited,
    hs.finished, forall_update hs.calls (by rw [hv i]; rfl), hs.race.move (by rw [hi]; rfl) (by rw [hi]; rfl),
    fun hnone => ?_, fun j m prepare' hj => ?_, hs.unviolated⟩
  · cases hwin.symm.trans hnone
  · rcases eq_or_ne j i with rfl | hji
    · obtain ⟨rfl, rfl⟩ : k + 1 = m ∧ prepare ++ [v ⟨k, hk⟩] = prepare' := by simpa using hj
      refine ⟨?_, fun m w hm hw => ?_⟩
      · rw [hprepare, values_eq hv, List.take_succ_eq_append_getElem (by simpa using hk)]
        simp
      · have hne : m ≠ ⟨k, hk⟩ := fun h => by simp [h] at hm
        simpa [hne] using hans m w (Nat.le_of_succ_le hm) hw
    · exact absurd (honly j m prepare' (by simpa [hji] using hj)) hji

theorem setValue {n : Nat} {V X : Type} {results : Fin n → Except X V}
    {s : Releasing n Nat (AllCombinator n V X) (AllRelease V X)} (hs : AllInv results s)
    {i : Fin n} {k : Nat} {prepare : List V} (hi : s.calls i = some (.collect k prepare))
    (hk : ¬ k < n) : AllInv results { s with
      calls := Function.update s.calls i (some .returned)
      shared := { s.shared with promise := s.shared.promise ++ [.ok prepare] } } := by
  obtain ⟨hprepare, -⟩ := hs.collected i k prepare hi
  obtain ⟨-, ⟨v, hv⟩, hwin, -⟩ := hs.counted hi
  refine ⟨hs.acquired, hs.captured, hs.exited, hs.finished, forall_update hs.calls (by trivial), ?_,
    fun hnone => ?_, fun j m prepare' hj => ?_, hs.unviolated⟩
  · have hout : allOutput results i = .ok prepare := by
      rw [allOutput, hv i, hprepare, List.take_of_length_le ((values_length results).trans (by omega))]
    rw [← hout]
    exact hs.race.publish (by rw [hi]; rfl) rfl rfl
  · cases hwin.symm.trans hnone
  · rcases eq_or_ne j i with rfl | hji
    · simp at hj
    · exact hs.collected j m prepare' (by simpa [hji] using hj)

theorem step {n : Nat} {V X : Type} {results : Fin n → Except X V}
    {s t : Releasing n Nat (AllCombinator n V X) (AllRelease V X)} (hs : AllInv results s)
    {l : ReleaseLabel n} (h : s.step (allCombinator n V X) results l = some t) :
    AllInv results t := by
  rcases Releasing.step_cases h with ⟨hn, rfl⟩ | ⟨i, number, hnone, hnumber, rfl⟩ |
    ⟨i, p, shared, p', hp, hrelease, rfl⟩
  · refine ⟨congrArg Nat.succ hs.acquired, fun j number hj => ?_, hs.exited, hs.finished, hs.calls,
      hs.race, hs.stored, hs.collected, hs.unviolated⟩
    rcases eq_or_ne j ⟨s.next, hn⟩ with rfl | hji
    · obtain rfl : s.shared.acquired = number := by simpa [allCombinator] using hj
      exact hs.acquired
    · exact hs.captured j number (by simpa [hji] using hj)
  · exact hs.start hnone hnumber
  · simp only [allCombinator] at hrelease
    cases p with
    | exchange e =>
      obtain ⟨rfl, rfl⟩ := Prod.mk.inj (Option.some.inj hrelease)
      exact hs.exchange hp
    | setError e =>
      obtain ⟨rfl, rfl⟩ := Prod.mk.inj (Option.some.inj hrelease)
      exact hs.setError hp
    | store v number =>
      obtain ⟨hlt, hinv⟩ := hs.store hp
      simp only [AllCombinator.release, hlt, dif_pos] at hrelease
      obtain ⟨rfl, rfl⟩ := Prod.mk.inj (Option.some.inj hrelease)
      exact hinv
    | fetchAdd =>
      obtain ⟨rfl, rfl⟩ := Prod.mk.inj (Option.some.inj hrelease)
      exact hs.fetchAdd hp
    | collect k prepare =>
      by_cases hk : k < n
      · obtain ⟨v, hv, hinv⟩ := hs.collect hp hk
        simp only [AllCombinator.release, hk, dif_pos, hv] at hrelease
        obtain ⟨rfl, rfl⟩ := Prod.mk.inj (Option.some.inj hrelease)
        exact hinv
      · simp only [AllCombinator.release, hk, dif_neg, not_false_eq_true] at hrelease
        obtain ⟨rfl, rfl⟩ := Prod.mk.inj (Option.some.inj hrelease)
        exact hs.setValue hp hk
    | returned => cases hrelease

theorem reached {n : Nat} (hn : 0 < n) {V X : Type} {results : Fin n → Except X V}
    {s : Releasing n Nat (AllCombinator n V X) (AllRelease V X)}
    (h : (releases (allCombinator n V X) results).Reachable s) : AllInv results s :=
  Machine.Reachable.invariant (init hn results) (fun _ _ _ _ hs hstep => hs.step hstep) h

/-- What the winner publishes, in terms of all results. -/
theorem output {n : Nat} {V X : Type} {results : Fin n → Except X V}
    {s : Releasing n Nat (AllCombinator n V X) (AllRelease V X)} (hs : AllInv results s) {i : Fin n}
    (hwin : s.shared.turns.winner = some i) :
    (∀ v : Fin n → V, (∀ j, results j = .ok (v j)) →
        allOutput results i = .ok (List.ofFn v)) ∧
      ((∃ j e, results j = .error e) → ∃ e, s.shared.exchanges.head? = some i ∧
        results i = .error e ∧ allOutput results i = .error e) := by
  constructor
  · intro v hv
    rw [allOutput, hv i, values_eq hv]
  · rintro ⟨j, e, hj⟩
    cases hr : results i with
    | error e' =>
      have hfails : fails results i = true := by simp [fails, hr, Except.toBool]
      exact ⟨e', hs.race.valid.stopped_of_winner hfails hwin, rfl, by rw [allOutput, hr]⟩
    | ok v =>
      have hfails : fails results i = false := by simp [fails, hr, Except.toBool]
      have hcounted := hs.race.valid.counted j (hs.race.valid.counted_of_winner hfails hwin j)
      simp [fails, hj, Except.toBool] at hcounted

end AllInv

/-! A call of `Release` ends. -/

def AllRelease.remaining (n : Nat) {V X : Type} : AllRelease V X → Nat
  | .exchange _ => 2
  | .setError _ => 1
  | .store _ _ => n + 3
  | .fetchAdd => n + 2
  | .collect k _ => n - k + 1
  | .returned => 0

theorem AllRelease.release_remaining {n : Nat} {V X : Type} {i : Fin n}
    {s s' : AllCombinator n V X} {p p' : AllRelease V X}
    (h : AllCombinator.release i s p = some (s', p')) : p'.remaining n < p.remaining n := by
  cases p with
  | exchange e =>
    obtain ⟨-, rfl⟩ := Prod.mk.inj (Option.some.inj h)
    split <;> simp [remaining]
  | setError e =>
    obtain ⟨-, rfl⟩ := Prod.mk.inj (Option.some.inj h)
    simp [remaining]
  | store v number =>
    simp only [AllCombinator.release] at h
    split at h <;> obtain ⟨-, rfl⟩ := Prod.mk.inj (Option.some.inj h) <;> simp [remaining]
  | fetchAdd =>
    obtain ⟨-, rfl⟩ := Prod.mk.inj (Option.some.inj h)
    split <;> simp [remaining]
  | collect k prepare =>
    simp only [AllCombinator.release] at h
    split at h
    · split at h <;> obtain ⟨-, rfl⟩ := Prod.mk.inj (Option.some.inj h) <;> simp only [remaining] <;>
        omega
    · obtain ⟨-, rfl⟩ := Prod.mk.inj (Option.some.inj h)
      simp [remaining]
  | returned => cases h

theorem AllRelease.returned_of_ended {n : Nat} {V X : Type} {i : Fin n} {s : AllCombinator n V X}
    {p : AllRelease V X} (h : AllCombinator.release i s p = none) : p = .returned := by
  cases p with
  | returned => rfl
  | exchange | setError | fetchAdd => simp [AllCombinator.release] at h
  | store v number =>
    simp only [AllCombinator.release] at h
    split at h <;> cases h
  | collect k prepare =>
    simp only [AllCombinator.release] at h
    split at h
    · split at h <;> cases h
    · cases h

/-- Every run of `Combine` ends. The promise is set at most once and in a finished
run exactly once: to all values in the order of the inputs if there is no
error, or else to the error of the input that was first to exchange `exited_`. -/
theorem all_collects {n : Nat} (hn : 0 < n) {E V X : Type} (executors : Fin n → E)
    (results : Fin n → Except X V) :
    (∃ steps, ∀ ls s, (combine (allCombinator n V X) executors results).exec
      (combine (allCombinator n V X) executors results).init ls = some s → ls.length ≤ steps) ∧
    ∀ s, (combine (allCombinator n V X) executors results).Reachable s →
      s.violated = false ∧ s.shared.violated = false ∧
      (s.shared.promise = [] ∨ ∃ out, s.shared.promise = [out] ∧
        (∀ v : Fin n → V, (∀ i, results i = .ok (v i)) → out = .ok (List.ofFn v)) ∧
        ((∃ i e, results i = .error e) → ∃ i e, s.shared.exchanges.head? = some i ∧
          results i = .error e ∧ out = .error e)) ∧
      ((∀ l, (combine (allCombinator n V X) executors results).step s l = none) →
        s.shared.promise ≠ []) := by
  constructor
  · refine combine_ends (AllRelease.remaining n) (n + 3) (fun r number => ?_)
      (fun i s p s' p' h => AllRelease.release_remaining h) executors results
    cases r <;> simp [allCombinator, AllRelease.remaining]
  · intro s h
    have hs := AllInv.reached hn ((combineRefines _ executors results).reachable h)
    refine ⟨(Combining.inv h).unviolated, hs.unviolated, ?_, fun hend => ?_⟩
    · refine hs.race.published_winner.imp_right fun ⟨i, hwin, hpub⟩ => ?_
      obtain ⟨hvalues, herror⟩ := hs.output hwin
      exact ⟨_, hpub, hvalues, fun hex => ⟨i, herror hex⟩⟩
    · have : Nonempty (Fin n) := ⟨⟨0, hn⟩⟩
      refine hs.race.published_ne_nil fun i => ?_
      obtain ⟨p, hp, hended⟩ := (Combining.inv h).ended hend i
      obtain rfl := AllRelease.returned_of_ended hended
      exact ⟨_, hp, rfl, rfl⟩

/-- Both inputs are ready, and each is released inline in the loop that acquires them. -/
theorem all_collects_inline :
    ∃ s, (combine (allCombinator 2 Nat Nat) (fun _ => 0)
      fun i : Fin 2 => .ok (i.val + 5)).Reachable s ∧ s.shared.promise = [.ok [5, 6]] := by
  obtain ⟨s, h, hset⟩ := Machine.exists_reachable_of_exec
    (M := combine (allCombinator 2 Nat Nat) (fun _ => 0) fun i : Fin 2 => .ok (i.val + 5))
    (p := fun s => !s.shared.promise.isEmpty)
    (List.replicate 5 (.setResult 0) ++ List.replicate 5 (.setResult 1) ++
      List.replicate 8 .acquire ++ .run 0 0 :: List.replicate 2 (.release 0 0) ++
      List.replicate 10 .acquire ++ .run 1 0 :: List.replicate 5 (.release 1 0)) (by decide +kernel)
  obtain ⟨-, -, hpromise, -⟩ := (all_collects (by decide) _ _).2 s h
  rcases hpromise with hnil | ⟨out, hout, hvalues, -⟩
  · simp [hnil] at hset
  · exact ⟨s, h, by rw [hout, hvalues _ fun _ => rfl]; rfl⟩

end ConcurrentProgramming.Futures
