import Mathlib.Data.Fintype.Card
import Mathlib.Data.List.Nodup

/-!
Condition variables. A thread inside `wait` is asleep until a notification or a
spurious wake-up reaches it, and from then on notified until it has its mutex
back. The two facts to carry along a run: which threads are inside `wait`, and
that what was announced is not outnumbered by the threads on their way to it.
-/

set_option autoImplicit false

namespace Interleaving

universe u

structure ConditionVariable (ι : Type u) where
  asleep : List ι
  notified : List ι
  deriving DecidableEq, Repr

namespace ConditionVariable

def new (ι : Type u) : ConditionVariable ι := ⟨[], []⟩

/-- The mutex is given up and the thread falls asleep. -/
def wait {ι : Type u} (c : ConditionVariable ι) (i : ι) : ConditionVariable ι :=
  { c with asleep := c.asleep ++ [i] }

/-- A sleeper is woken, for a reason or for none. -/
def wake {ι : Type u} [DecidableEq ι] (c : ConditionVariable ι) (i : ι) :
    Option (ConditionVariable ι) :=
  if i ∈ c.asleep then some ⟨c.asleep.erase i, c.notified ++ [i]⟩ else none

/-- `woken` says which sleeper it is; it is none only where nobody sleeps. -/
def notifyOne {ι : Type u} [DecidableEq ι] (c : ConditionVariable ι) :
    Option ι → Option (ConditionVariable ι)
  | some i => c.wake i
  | none => if c.asleep.isEmpty then some c else none

def notifyAll {ι : Type u} (c : ConditionVariable ι) : ConditionVariable ι :=
  ⟨[], c.notified ++ c.asleep⟩

/-- The thread is back from `wait`, with the mutex. -/
def resume {ι : Type u} [DecidableEq ι] (c : ConditionVariable ι) (i : ι) :
    Option (ConditionVariable ι) :=
  if i ∈ c.notified then some { c with notified := c.notified.erase i } else none

/-- Exactly the threads in `waiting` are inside `wait`, each once. -/
structure Tracks {ι : Type u} (c : ConditionVariable ι) (waiting : ι → Prop) : Prop where
  nodup : (c.asleep ++ c.notified).Nodup
  mem : ∀ i, i ∈ c.asleep ++ c.notified ↔ waiting i

/-- Whoever sleeps may do so: `count` things to wait for are there, and no fewer
threads are on their way to them. -/
def Covers {ι : Type u} (c : ConditionVariable ι) (count : Nat) : Prop :=
  c.asleep = [] ∨ count ≤ c.notified.length

theorem wake_eq {ι : Type u} [DecidableEq ι] {c d : ConditionVariable ι} {i : ι}
    (h : c.wake i = some d) :
    i ∈ c.asleep ∧ d.asleep = c.asleep.erase i ∧ d.notified = c.notified ++ [i] := by
  simp only [wake, Option.ite_none_right_eq_some, Option.some.injEq] at h
  obtain ⟨hi, rfl⟩ := h
  exact ⟨hi, rfl, rfl⟩

theorem notifyOne_cases {ι : Type u} [DecidableEq ι] {c d : ConditionVariable ι}
    {woken : Option ι} (h : c.notifyOne woken = some d) :
    (∃ i, c.wake i = some d) ∨ c.asleep = [] ∧ d = c := by
  cases woken with
  | some i => exact .inl ⟨i, h⟩
  | none =>
    simp only [notifyOne, Option.ite_none_right_eq_some, Option.some.injEq,
      List.isEmpty_iff] at h
    exact .inr ⟨h.1, h.2.symm⟩

theorem exists_notifyOne {ι : Type u} [DecidableEq ι] (c : ConditionVariable ι) :
    ∃ woken d, c.notifyOne woken = some d := by
  cases h : c.asleep with
  | nil => exact ⟨none, c, by simp [notifyOne, h]⟩
  | cons i rest => exact ⟨some i, _, by simp [notifyOne, wake, h]; rfl⟩

theorem resume_eq {ι : Type u} [DecidableEq ι] {c d : ConditionVariable ι} {i : ι}
    (h : c.resume i = some d) :
    i ∈ c.notified ∧ d.asleep = c.asleep ∧ d.notified = c.notified.erase i := by
  simp only [resume, Option.ite_none_right_eq_some, Option.some.injEq] at h
  obtain ⟨hi, rfl⟩ := h
  exact ⟨hi, rfl, rfl⟩

/-! Who is inside `wait`. -/

theorem tracks_new {ι : Type u} {waiting : ι → Prop} (h : ∀ i, ¬ waiting i) :
    (new ι).Tracks waiting :=
  ⟨List.nodup_nil, fun i => by simp [new, h i]⟩

theorem Tracks.congr {ι : Type u} {c : ConditionVariable ι} {p q : ι → Prop} (h : c.Tracks p)
    (hpq : ∀ i, p i ↔ q i) : c.Tracks q :=
  ⟨h.nodup, fun i => (h.mem i).trans (hpq i)⟩

/-- Threads move between the two lists, nobody leaves. -/
theorem Tracks.perm {ι : Type u} {c d : ConditionVariable ι} {waiting : ι → Prop}
    (h : c.Tracks waiting)
    (hperm : (d.asleep ++ d.notified).Perm (c.asleep ++ c.notified)) : d.Tracks waiting :=
  ⟨hperm.nodup_iff.mpr h.nodup, fun i => hperm.mem_iff.trans (h.mem i)⟩

theorem Tracks.wake {ι : Type u} [DecidableEq ι] {c d : ConditionVariable ι}
    {waiting : ι → Prop} (h : c.Tracks waiting) {i : ι} (hw : c.wake i = some d) :
    d.Tracks waiting := by
  obtain ⟨hi, hasleep, hnotified⟩ := wake_eq hw
  apply h.perm
  rw [hasleep, hnotified]
  calc List.Perm (c.asleep.erase i ++ (c.notified ++ [i]))
        (c.asleep.erase i ++ i :: c.notified) :=
        List.Perm.append_left _ (List.perm_append_singleton _ _)
    List.Perm _ (i :: (c.asleep.erase i ++ c.notified)) := List.perm_middle
    List.Perm _ (c.asleep ++ c.notified) :=
        List.Perm.append_right _ (List.perm_cons_erase hi).symm

theorem Tracks.notifyOne {ι : Type u} [DecidableEq ι] {c d : ConditionVariable ι}
    {waiting : ι → Prop} (h : c.Tracks waiting) {woken : Option ι}
    (hn : c.notifyOne woken = some d) : d.Tracks waiting := by
  rcases notifyOne_cases hn with ⟨i, hi⟩ | ⟨-, rfl⟩
  · exact h.wake hi
  · exact h

theorem Tracks.notifyAll {ι : Type u} {c : ConditionVariable ι} {waiting : ι → Prop}
    (h : c.Tracks waiting) : c.notifyAll.Tracks waiting := by
  apply h.perm
  simpa [ConditionVariable.notifyAll] using List.perm_append_comm

theorem Tracks.wait {ι : Type u} {c : ConditionVariable ι} {waiting : ι → Prop}
    (h : c.Tracks waiting) {i : ι} (hi : ¬ waiting i) :
    (c.wait i).Tracks fun j => j = i ∨ waiting j := by
  have hperm : ((c.wait i).asleep ++ (c.wait i).notified).Perm
      (i :: (c.asleep ++ c.notified)) := by
    simp [ConditionVariable.wait, List.perm_middle]
  refine ⟨?_, fun j => ?_⟩
  · rw [hperm.nodup_iff, List.nodup_cons, h.mem]
    exact ⟨hi, h.nodup⟩
  · rw [hperm.mem_iff, List.mem_cons, h.mem]

theorem Tracks.resume {ι : Type u} [DecidableEq ι] {c d : ConditionVariable ι}
    {waiting : ι → Prop} (h : c.Tracks waiting) {i : ι} (hr : c.resume i = some d) :
    d.Tracks fun j => j ≠ i ∧ waiting j := by
  obtain ⟨hi, hasleep, hnotified⟩ := resume_eq hr
  have hperm : (c.asleep ++ c.notified).Perm (i :: (d.asleep ++ d.notified)) := by
    rw [hasleep, hnotified]
    exact ((List.perm_cons_erase hi).append_left _).trans List.perm_middle
  have hnodup := List.nodup_cons.mp (hperm.nodup_iff.mp h.nodup)
  refine ⟨hnodup.2, fun j => ?_⟩
  rw [← h.mem, hperm.mem_iff, List.mem_cons]
  constructor
  · intro hj
    exact ⟨fun he => hnodup.1 (he ▸ hj), .inr hj⟩
  · rintro ⟨hne, rfl | hj⟩
    · exact (hne rfl).elim
    · exact hj

theorem Tracks.waiting_of_asleep {ι : Type u} {c : ConditionVariable ι} {waiting : ι → Prop}
    (h : c.Tracks waiting) {i : ι} (hi : i ∈ c.asleep) : waiting i :=
  (h.mem i).mp (List.mem_append_left _ hi)

/-- With nobody able to come back, nobody is on the way. -/
theorem Tracks.notified_nil {ι : Type u} [DecidableEq ι] {c : ConditionVariable ι}
    {waiting : ι → Prop} (h : c.Tracks waiting) (hresume : ∀ i, waiting i → c.resume i = none) :
    c.notified = [] := by
  refine List.eq_nil_iff_forall_not_mem.mpr fun i hi => ?_
  have hwaiting := (h.mem i).mp (List.mem_append_right _ hi)
  simpa [ConditionVariable.resume, hi] using hresume i hwaiting

theorem Tracks.not_waiting {ι : Type u} {c : ConditionVariable ι} {waiting : ι → Prop}
    (h : c.Tracks waiting) (hasleep : c.asleep = []) (hnotified : c.notified = []) (i : ι) :
    ¬ waiting i := by
  intro hi
  have hmem := (h.mem i).mpr hi
  simp [hasleep, hnotified] at hmem

/-! Who is on the way to what was announced. -/

theorem covers_new (ι : Type u) (count : Nat) : (new ι).Covers count := .inl rfl

theorem Covers.mono {ι : Type u} {c : ConditionVariable ι} {k m : Nat} (h : c.Covers k)
    (hm : m ≤ k) : c.Covers m :=
  h.imp_right fun hk => Nat.le_trans hm hk

theorem Covers.wake {ι : Type u} [DecidableEq ι] {c d : ConditionVariable ι} {k : Nat}
    (h : c.Covers k) {i : ι} (hw : c.wake i = some d) : d.Covers (k + 1) := by
  obtain ⟨hi, -, hnotified⟩ := wake_eq hw
  right
  rcases h with h | h
  · simp [h] at hi
  · rw [hnotified, List.length_append, List.length_singleton]
    omega

/-- One more thing to wait for, one more thread on its way. -/
theorem Covers.notifyOne {ι : Type u} [DecidableEq ι] {c d : ConditionVariable ι} {k : Nat}
    (h : c.Covers k) {woken : Option ι} (hn : c.notifyOne woken = some d) :
    d.Covers (k + 1) := by
  rcases notifyOne_cases hn with ⟨i, hi⟩ | ⟨hnone, rfl⟩
  · exact h.wake hi
  · exact .inl hnone

theorem covers_notifyAll {ι : Type u} (c : ConditionVariable ι) (k : Nat) :
    c.notifyAll.Covers k := .inl rfl

/-- A thread falls asleep because nothing is there. -/
theorem covers_zero {ι : Type u} (c : ConditionVariable ι) : c.Covers 0 := .inr (Nat.zero_le _)

/-- A thread is back and takes one thing. -/
theorem Covers.resume {ι : Type u} [DecidableEq ι] {c d : ConditionVariable ι} {k : Nat}
    (h : c.Covers k) {i : ι} (hr : c.resume i = some d) : d.Covers (k - 1) := by
  obtain ⟨hi, hasleep, hnotified⟩ := resume_eq hr
  rcases h with h | h
  · exact .inl (hasleep.trans h)
  · right
    rw [hnotified, List.length_erase_of_mem hi]
    omega

/-- With nobody on the way, either nobody sleeps or nothing is there. -/
theorem Covers.of_notified_nil {ι : Type u} {c : ConditionVariable ι} {k : Nat} (h : c.Covers k)
    (hn : c.notified = []) : c.asleep = [] ∨ k = 0 := by
  rcases h with h | h
  · exact .inl h
  · right
    simpa [hn] using h

/-- How many are on their way. -/
theorem notifyOne_notified_length {ι : Type u} [DecidableEq ι] {c d : ConditionVariable ι}
    {woken : Option ι} (h : c.notifyOne woken = some d) :
    d.notified.length ≤ c.notified.length + 1 := by
  rcases notifyOne_cases h with ⟨i, hi⟩ | ⟨-, rfl⟩
  · obtain ⟨-, -, hnotified⟩ := wake_eq hi
    simp [hnotified]
  · exact Nat.le_succ _

theorem Tracks.notifyAll_notified_length {ι : Type u} [Fintype ι] {c : ConditionVariable ι}
    {waiting : ι → Prop} (h : c.Tracks waiting) :
    c.notifyAll.notified.length ≤ c.notified.length + Fintype.card ι := by
  have hasleep := (List.nodup_append.mp h.nodup).1.length_le_card
  simp only [ConditionVariable.notifyAll, List.length_append]
  omega

theorem resume_notified_length {ι : Type u} [DecidableEq ι] {c d : ConditionVariable ι} {i : ι}
    (h : c.resume i = some d) : d.notified.length + 1 = c.notified.length := by
  obtain ⟨hi, -, hnotified⟩ := resume_eq h
  have hpos := List.length_pos_of_mem hi
  rw [hnotified, List.length_erase_of_mem hi]
  omega

/-! How many are inside `wait`. -/

def inside {ι : Type u} (c : ConditionVariable ι) : Nat := c.asleep.length + c.notified.length

@[simp] theorem inside_notifyAll {ι : Type u} (c : ConditionVariable ι) :
    c.notifyAll.inside = c.inside := by
  simp only [inside, notifyAll, List.length_nil, List.length_append]
  omega

theorem inside_wait {ι : Type u} (c : ConditionVariable ι) (i : ι) :
    (c.wait i).inside = c.inside + 1 := by
  simp only [inside, ConditionVariable.wait, List.length_append, List.length_singleton]
  omega

theorem inside_resume {ι : Type u} [DecidableEq ι] {c d : ConditionVariable ι} {i : ι}
    (h : c.resume i = some d) : d.inside + 1 = c.inside := by
  have hnotified := resume_notified_length h
  obtain ⟨-, hasleep, -⟩ := resume_eq h
  simp only [inside, hasleep]
  omega

theorem Tracks.inside_le {ι : Type u} [Fintype ι] {c : ConditionVariable ι} {waiting : ι → Prop}
    (h : c.Tracks waiting) : c.inside ≤ Fintype.card ι := by
  have hle := h.nodup.length_le_card
  rwa [List.length_append] at hle

end ConditionVariable

end Interleaving
