import ConcurrentProgramming.Interleaving.ConditionVariable
import Mathlib.Algebra.Group.Nat.Defs

/-!
The counter of outstanding work and the threads that wait for it to be zero.
-/

set_option autoImplicit false

namespace ConcurrentProgramming.Compute
open Interleaving

/-- `counter_` is a `uint32_t`. -/
structure ZeroWaiter (ι : Type) where
  counter : Nat
  isNull : ConditionVariable ι
  deriving DecidableEq, Repr

namespace ZeroWaiter

def new (ι : Type) : ZeroWaiter ι := ⟨0, .new ι⟩

def incrementValue {ι : Type} (w : ZeroWaiter ι) : ZeroWaiter ι :=
  { w with counter := (w.counter + 1) % 2 ^ 32 }

/-- `none` is the failed assertion. -/
def decrementValue {ι : Type} (w : ZeroWaiter ι) : Option (ZeroWaiter ι) :=
  if w.counter = 0 then none
  else some ⟨w.counter - 1, if w.counter - 1 = 0 then w.isNull.notifyAll else w.isNull⟩

/-- Whether a thread that holds the mutex comes back from `Wait` or falls asleep. -/
def wait {ι : Type} (w : ZeroWaiter ι) (i : ι) : ZeroWaiter ι × Bool :=
  if w.counter ≠ 0 then ({ w with isNull := w.isNull.wait i }, false) else (w, true)

def rewait {ι : Type} [DecidableEq ι] (w : ZeroWaiter ι) (i : ι) :
    Option (ZeroWaiter ι × Bool) :=
  (w.isNull.resume i).map fun isNull => ({ w with isNull := isNull } : ZeroWaiter ι).wait i

def wake {ι : Type} [DecidableEq ι] (w : ZeroWaiter ι) (i : ι) : Option (ZeroWaiter ι) :=
  (w.isNull.wake i).map fun isNull => { w with isNull := isNull }

/-- Either way a thread comes back from `Wait` exactly when the counter is zero. -/
theorem wait_snd {ι : Type} (w : ZeroWaiter ι) (i : ι) : (w.wait i).2 = true ↔ w.counter = 0 := by
  unfold wait
  split
  · simp_all
  · simp_all

theorem rewait_snd {ι : Type} [DecidableEq ι] {w : ZeroWaiter ι} {i : ι}
    {x : ZeroWaiter ι × Bool} (h : w.rewait i = some x) : x.2 = true ↔ w.counter = 0 := by
  obtain ⟨isNull, -, rfl⟩ := Option.map_eq_some_iff.mp h
  exact wait_snd _ i

theorem exists_rewait {ι : Type} [DecidableEq ι] {w : ZeroWaiter ι} {i : ι}
    (hi : i ∈ w.isNull.notified) : ∃ x, w.rewait i = some x := by
  simp [rewait, ConditionVariable.resume, hi]

/-- The counter is `count`, and nobody sleeps on a zero. -/
structure Counts {ι : Type} (w : ZeroWaiter ι) (count : Nat) : Prop where
  counter : w.counter = count
  awake : count = 0 → w.isNull.asleep = []

theorem counts_new (ι : Type) : (new ι).Counts 0 := ⟨rfl, fun _ => rfl⟩

theorem Counts.incrementValue {ι : Type} {w : ZeroWaiter ι} {k : Nat} (h : w.Counts k)
    (hk : k + 1 < 2 ^ 32) : w.incrementValue.Counts (k + 1) :=
  ⟨by simp only [ZeroWaiter.incrementValue, h.counter, Nat.mod_eq_of_lt hk], by simp⟩

theorem Counts.decrementValue {ι : Type} {w x : ZeroWaiter ι} {k : Nat} (h : w.Counts k)
    (hd : w.decrementValue = some x) : x.Counts (k - 1) := by
  simp only [ZeroWaiter.decrementValue, Option.ite_none_left_eq_some, Option.some.injEq,
    h.counter] at hd
  obtain ⟨-, rfl⟩ := hd
  refine ⟨rfl, fun hzero => ?_⟩
  simp [hzero, ConditionVariable.notifyAll]

theorem Counts.wait {ι : Type} {w : ZeroWaiter ι} {k : Nat} (h : w.Counts k) (i : ι) :
    (w.wait i).1.Counts k := by
  unfold ZeroWaiter.wait
  split
  · rename_i hne
    exact ⟨h.counter, fun hzero => absurd (h.counter.trans hzero) hne⟩
  · exact h

theorem Counts.rewait {ι : Type} [DecidableEq ι] {w : ZeroWaiter ι} {k : Nat}
    (h : w.Counts k) {i : ι} {x : ZeroWaiter ι × Bool} (hr : w.rewait i = some x) :
    x.1.Counts k := by
  obtain ⟨isNull, hresume, rfl⟩ := Option.map_eq_some_iff.mp hr
  have hback : ({ w with isNull := isNull } : ZeroWaiter ι).Counts k :=
    ⟨h.counter, fun hzero => (ConditionVariable.resume_eq hresume).2.1.trans (h.awake hzero)⟩
  exact hback.wait i

theorem Counts.wake {ι : Type} [DecidableEq ι] {w x : ZeroWaiter ι} {k : Nat}
    (h : w.Counts k) {i : ι} (hw : w.wake i = some x) : x.Counts k := by
  obtain ⟨isNull, hwake, rfl⟩ := Option.map_eq_some_iff.mp hw
  obtain ⟨hi, hasleep, -⟩ := ConditionVariable.wake_eq hwake
  refine ⟨h.counter, fun hzero => ?_⟩
  show isNull.asleep = []
  rw [hasleep, h.awake hzero]
  rfl

/-- Exactly the threads in `waiting` are inside `Wait`. -/
def Tracks {ι : Type} (w : ZeroWaiter ι) (waiting : ι → Prop) : Prop := w.isNull.Tracks waiting

theorem Tracks.incrementValue {ι : Type} {w : ZeroWaiter ι} {waiting : ι → Prop}
    (h : w.Tracks waiting) : w.incrementValue.Tracks waiting := h

theorem Tracks.decrementValue {ι : Type} {w x : ZeroWaiter ι} {waiting : ι → Prop}
    (h : w.Tracks waiting) (hd : w.decrementValue = some x) : x.Tracks waiting := by
  simp only [ZeroWaiter.decrementValue, Option.ite_none_left_eq_some, Option.some.injEq] at hd
  obtain ⟨-, rfl⟩ := hd
  unfold Tracks
  split
  · exact ConditionVariable.Tracks.notifyAll h
  · exact h

theorem Tracks.wait {ι : Type} {w : ZeroWaiter ι} {waiting : ι → Prop} (h : w.Tracks waiting)
    {i : ι} (hi : ¬ waiting i) :
    (w.wait i).1.Tracks fun j => j = i ∧ (w.wait i).2 = false ∨ waiting j := by
  unfold ZeroWaiter.wait
  split
  · exact (ConditionVariable.Tracks.wait h hi).congr fun j => by simp
  · exact ConditionVariable.Tracks.congr h fun j => by simp

theorem Tracks.rewait {ι : Type} [DecidableEq ι] {w : ZeroWaiter ι} {waiting : ι → Prop}
    (h : w.Tracks waiting) {i : ι} {x : ZeroWaiter ι × Bool} (hr : w.rewait i = some x) :
    x.1.Tracks fun j => j = i ∧ x.2 = false ∨ j ≠ i ∧ waiting j := by
  obtain ⟨isNull, hresume, rfl⟩ := Option.map_eq_some_iff.mp hr
  have hback : ({ w with isNull := isNull } : ZeroWaiter ι).Tracks fun j => j ≠ i ∧ waiting j :=
    ConditionVariable.Tracks.resume h hresume
  exact hback.wait fun hi => hi.1 rfl

theorem Tracks.wake {ι : Type} [DecidableEq ι] {w x : ZeroWaiter ι} {waiting : ι → Prop}
    (h : w.Tracks waiting) {i : ι} (hw : w.wake i = some x) : x.Tracks waiting := by
  obtain ⟨isNull, hwake, rfl⟩ := Option.map_eq_some_iff.mp hw
  exact ConditionVariable.Tracks.wake h hwake

/-- A `DecrementValue` wakes at most everybody. -/
theorem decrementValue_notified_length {ι : Type} [Fintype ι] {w x : ZeroWaiter ι} {waiting : ι → Prop}
    (hd : w.decrementValue = some x) (h : w.Tracks waiting) :
    x.isNull.notified.length ≤ w.isNull.notified.length + Fintype.card ι := by
  simp only [ZeroWaiter.decrementValue, Option.ite_none_left_eq_some, Option.some.injEq] at hd
  obtain ⟨-, rfl⟩ := hd
  dsimp only
  split
  · exact ConditionVariable.Tracks.notifyAll_notified_length h
  · exact Nat.le_add_right _ _

theorem wait_notified {ι : Type} (w : ZeroWaiter ι) (i : ι) :
    (w.wait i).1.isNull.notified = w.isNull.notified := by
  unfold ZeroWaiter.wait
  split <;> rfl

theorem rewait_notified_length {ι : Type} [DecidableEq ι] {w : ZeroWaiter ι} {i : ι}
    {x : ZeroWaiter ι × Bool} (h : w.rewait i = some x) :
    x.1.isNull.notified.length + 1 = w.isNull.notified.length := by
  obtain ⟨isNull, hresume, rfl⟩ := Option.map_eq_some_iff.mp h
  rw [wait_notified]
  exact ConditionVariable.resume_notified_length hresume

end ZeroWaiter

end ConcurrentProgramming.Compute
