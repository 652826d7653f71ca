import ConcurrentProgramming.Interleaving.LockedSection

/-!
`Mutexed<T>`: an object that its users reach only through a `UniqueRef`, which has
the mutex as long as it lives.
-/

set_option autoImplicit false

namespace ConcurrentProgramming.Sync
open Interleaving

/-- `data` is `object_` and `owner` has `mutex_`; `Lock` is the step that gets the
mutex, and the destructor of the `UniqueRef` the one that gives it back. -/
abbrev Mutexed (P T R : Type) := LockedData P T R

/-- `Locked(object)->f()`. -/
def locked {T R : Type} (f : T → T × R) : Section T R :=
  .access (fun object => (f object).1) fun object => .return_ (f object).2

/-- `auto ref = object.Lock()`, then `ref->f()` and with what it returns `ref->g(x)`. -/
def lockedTwice {T R : Type} (f : T → T × R) (g : R → T → T × R) : Section T R :=
  .access (fun object => (f object).1) fun object => locked (g (f object).2)

def mutexed (P T R : Type) [DecidableEq P] (object : T) :
    Machine (Mutexed P T R × List (P × Section T R)) (SectionLabel P T R) :=
  observedData object

@[simp] theorem run_locked {T R : Type} (f : T → T × R) (object : T) :
    (locked f).run object = f object := rfl

/-- Nobody comes between the two accesses of one `UniqueRef`. -/
@[simp] theorem run_lockedTwice {T R : Type} (f : T → T × R) (g : R → T → T × R) (object : T) :
    (lockedTwice f g).run object = g (f object).2 (f object).1 := rfl

/-- One `UniqueRef` at a time; the object and the results are those of the sections
run as a whole, in the order in which they got the mutex. -/
theorem mutexed_serial {P T R : Type} [DecidableEq P] {object : T} {s : Mutexed P T R}
    {log : List (P × Section T R)} (h : (mutexed P T R object).Reachable (s, log)) :
    (∀ p q, (s.pc p).rest.isSome = true → (s.pc q).rest.isSome = true → p = q) ∧
    (s.owner = none → s.data = replay object log) ∧
    ∀ p result, s.pc p = .returned result → ∃ before call after,
      log = before ++ (p, call) :: after ∧ result = (call.run (replay object before)).2 := by
  obtain ⟨howned, hserial⟩ := observedData_serial h
  refine ⟨fun p q hp hq => ?_, fun hfree => ?_, fun p result hp => ?_⟩
  · have hp := (howned p).mpr hp
    have hq := (howned q).mpr hq
    exact Option.some.inj (hp.symm.trans hq)
  · have hpending : s.pending = none := by simp [LockedData.pending, hfree]
    have hdata : s.abstract.data = s.data := LockedData.abstract_data hpending
    rw [← hdata, hserial.data]
  · exact hserial.returned p result (by simp [LockedData.abstract, hp, SectionPc.abstract])

/-- Two threads push to one vector, the second one while the first has the mutex. -/
theorem mutexed_serial_pushes : ∃ (s : Mutexed (Fin 2) (List Nat) Nat)
    (log : List (Fin 2 × Section (List Nat) Nat)),
    (mutexed (Fin 2) (List Nat) Nat []).Reachable (s, log) ∧ s.data = [7, 8] ∧
      ∃ before call after, log = before ++ (1, call) :: after ∧
        1 = (call.run (replay [] before)).2 := by
  let push (x : Nat) : Section (List Nat) Nat := locked fun xs => (xs ++ [x], xs.length)
  have h : (mutexed (Fin 2) (List Nat) Nat []).Reachable (_, _) := Machine.reachable_of_exec
    [.call 0 (push 7), .step 0, .call 1 (push 8), .step 0, .step 0, .step 1, .step 1, .step 1] rfl
  exact ⟨_, _, h, rfl, (mutexed_serial h).2.2 1 1 rfl⟩

end ConcurrentProgramming.Sync
