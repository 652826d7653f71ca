import ConcurrentProgramming.Interleaving.ConditionVariable
import ConcurrentProgramming.Interleaving.Machine
import Mathlib.Data.Bool.Basic

/-!
The mutex of threads: a cell that `Lock` exchanges, and a futex on it to sleep on. A
thread that `Unlock` wakes up has to win the next exchange like any other.
-/

set_option autoImplicit false

namespace ConcurrentProgramming.Sync
open Interleaving

/-- `exchange`, `futexWait` and `asleep` are inside `Lock`; `notifyOne` is inside
`Unlock`, after the store. -/
inductive MutexPc where
  | outside
  | exchange
  | futexWait
  | asleep
  | critical
  | notifyOne
  deriving DecidableEq, Repr

structure Mutex (T : Type) where
  access : Nat
  sleepers : ConditionVariable T
  pc : T → MutexPc

/-- `wake` is `notify_one` with its choice, `spurious` a wake-up for no reason. -/
inductive MutexLabel (T : Type) where
  | lock (t : T)
  | unlock (t : T)
  | step (t : T)
  | wake (t : T) (woken : Option T)
  | spurious (t : T)
  deriving DecidableEq, Repr

namespace Mutex

def goto {T : Type} [DecidableEq T] (s : Mutex T) (t : T) (pc : MutexPc) : Mutex T :=
  { s with pc := Function.update s.pc t pc }

/-- `FutexWait(1)` blocks only while the cell is 1. -/
def threadStep {T : Type} [DecidableEq T] (s : Mutex T) (t : T) : Option (Mutex T) :=
  match s.pc t with
  | .outside | .critical | .notifyOne => none
  | .exchange =>
    some { s.goto t (if s.access ≠ 0 then .futexWait else .critical) with access := 1 }
  | .futexWait =>
    some (if s.access = 1 then { s.goto t .asleep with sleepers := s.sleepers.wait t }
      else s.goto t .exchange)
  | .asleep =>
    (s.sleepers.resume t).map fun sleepers => { s.goto t .exchange with sleepers := sleepers }

def step {T : Type} [DecidableEq T] (s : Mutex T) : MutexLabel T → Option (Mutex T)
  | .lock t => if s.pc t = .outside then some (s.goto t .exchange) else none
  | .unlock t =>
    if s.pc t = .critical then some { s.goto t .notifyOne with access := 0 } else none
  | .step t => s.threadStep t
  | .wake t woken =>
    if s.pc t = .notifyOne then
      (s.sleepers.notifyOne woken).map fun sleepers =>
        { s.goto t .outside with sleepers := sleepers }
    else none
  | .spurious t => (s.sleepers.wake t).map fun sleepers => { s with sleepers := sleepers }

end Mutex

def threadMutex (T : Type) [DecidableEq T] : Machine (Mutex T) (MutexLabel T) where
  init := ⟨0, .new T, fun _ => .outside⟩
  step := Mutex.step

namespace Mutex

/-- On its way to the next exchange, or about to wake somebody up. -/
def Attends {T : Type} (s : Mutex T) (t : T) : Prop :=
  s.pc t = .exchange ∨ s.pc t = .futexWait ∨ s.pc t = .notifyOne ∨ t ∈ s.sleepers.notified

structure Inv {T : Type} (s : Mutex T) : Prop where
  sleeping : s.sleepers.Tracks fun t => s.pc t = .asleep
  exclusive : ∀ t u, s.pc t = .critical → s.pc u = .critical → t = u
  bit : s.access = 0 ∨ s.access = 1
  taken : s.access = 1 ↔ ∃ t, s.pc t = .critical
  attended : s.access = 0 → s.sleepers.asleep ≠ [] → ∃ t, s.Attends t

/-- A step that neither enters nor leaves the critical section. -/
theorem Inv.move {T : Type} [DecidableEq T] {s : Mutex T} (hs : s.Inv) {t : T} {pc : MutexPc}
    {sleepers : ConditionVariable T} (hold : s.pc t ≠ .critical) (hnew : pc ≠ .critical)
    (hsleeping : sleepers.Tracks fun u => Function.update s.pc t pc u = .asleep)
    (hattended : s.access = 0 → sleepers.asleep ≠ [] →
      ∃ u, ({ s.goto t pc with sleepers := sleepers } : Mutex T).Attends u) :
    ({ s.goto t pc with sleepers := sleepers } : Mutex T).Inv := by
  have hcritical (u : T) : Function.update s.pc t pc u = .critical ↔ s.pc u = .critical := by
    by_cases hu : u = t
    · subst hu
      simp [hold, hnew]
    · rw [Function.update_of_ne hu]
  refine ⟨hsleeping, fun u v hu hv => ?_, hs.bit, ?_, hattended⟩
  · exact hs.exclusive u v ((hcritical u).mp hu) ((hcritical v).mp hv)
  · exact hs.taken.trans (exists_congr fun u => (hcritical u).symm)

/-- The sleepers are the same, before and after a step of a thread that is awake. -/
theorem Inv.sleeping_goto {T : Type} [DecidableEq T] {s : Mutex T} (hs : s.Inv) {t : T}
    {pc : MutexPc} (hold : s.pc t ≠ .asleep) (hnew : pc ≠ .asleep) :
    s.sleepers.Tracks fun u => Function.update s.pc t pc u = .asleep := by
  refine hs.sleeping.congr fun u => ?_
  by_cases hu : u = t
  · subst hu
    simp [hold, hnew]
  · rw [Function.update_of_ne hu]

theorem Inv.acquire {T : Type} [DecidableEq T] {s : Mutex T} (hs : s.Inv) {t : T}
    (ht : s.pc t = .exchange) (hfree : s.access = 0) :
    ({ s.goto t .critical with access := 1 } : Mutex T).Inv := by
  have hnobody : ¬ ∃ u, s.pc u = .critical := hs.taken.not.mp (by omega)
  have honly (u : T) (hu : (s.goto t .critical).pc u = .critical) : u = t := by
    by_contra hne
    exact hnobody ⟨u, by simpa [Mutex.goto, hne] using hu⟩
  refine ⟨hs.sleeping_goto (by simp [ht]) (by simp), fun u v hu hv => ?_, .inr rfl, ?_, nofun⟩
  · rw [honly u hu, honly v hv]
  · exact iff_of_true rfl ⟨t, by simp [Mutex.goto]⟩

theorem Inv.release {T : Type} [DecidableEq T] {s : Mutex T} (hs : s.Inv) {t : T}
    (ht : s.pc t = .critical) : ({ s.goto t .notifyOne with access := 0 } : Mutex T).Inv := by
  have hnobody (u : T) : (s.goto t .notifyOne).pc u ≠ .critical := by
    by_cases hu : u = t
    · simp [Mutex.goto, hu]
    · intro hcritical
      exact hu (hs.exclusive u t (by simpa [Mutex.goto, hu] using hcritical) ht)
  refine ⟨hs.sleeping_goto (by simp [ht]) (by simp), fun u v hu => (hnobody u hu).elim, .inl rfl,
    ?_, fun _ _ => ⟨t, .inr (.inr (.inl (by simp [Mutex.goto])))⟩⟩
  refine iff_of_false (by simp) ?_
  rintro ⟨u, hu⟩
  exact hnobody u hu

theorem Inv.threadStep {T : Type} [DecidableEq T] {s u : Mutex T} (hs : s.Inv) {t : T}
    (h : s.threadStep t = some u) : u.Inv := by
  unfold Mutex.threadStep at h
  cases ht : s.pc t with
  | outside | critical | notifyOne => simp [ht] at h
  | exchange =>
    simp only [ht, Option.some.injEq] at h
    subst h
    rcases hs.bit with hfree | htaken
    · simpa [hfree] using hs.acquire ht hfree
    · have hmove : (s.goto t .futexWait).Inv := hs.move (by simp [ht]) (by simp)
        (hs.sleeping_goto (by simp [ht]) (by simp)) (by simp [htaken])
      rw [if_pos (by omega), ← htaken]
      exact hmove
  | futexWait =>
    simp only [ht, Option.some.injEq] at h
    subst h
    split
    · rename_i htaken
      refine hs.move (by simp [ht]) (by simp) ?_ (by simp [htaken])
      refine (hs.sleeping.wait (i := t) (by simp [ht])).congr fun v => ?_
      by_cases hv : v = t
      · simp [hv]
      · simp [hv]
    · exact hs.move (by simp [ht]) (by simp) (hs.sleeping_goto (by simp [ht]) (by simp))
        fun _ _ => ⟨t, .inl (by simp [Mutex.goto])⟩
  | asleep =>
    simp only [ht] at h
    obtain ⟨sleepers, hresume, rfl⟩ := Option.map_eq_some_iff.mp h
    refine hs.move (by simp [ht]) (by simp) ?_ fun _ _ => ⟨t, .inl (by simp [Mutex.goto])⟩
    refine (hs.sleeping.resume hresume).congr fun v => ?_
    by_cases hv : v = t
    · simp [hv]
    · simp [hv]

/-- Whoever is woken up attends. -/
theorem Inv.wakes {T : Type} [DecidableEq T] {s : Mutex T} {t : T} {sleepers : ConditionVariable T}
    (h : s.sleepers.wake t = some sleepers) (pc : T → MutexPc) :
    ∃ u, ({ s with sleepers := sleepers, pc := pc } : Mutex T).Attends u :=
  ⟨t, .inr (.inr (.inr (by simp [(ConditionVariable.wake_eq h).2.2])))⟩

theorem Inv.step {T : Type} [DecidableEq T] {s u : Mutex T} (hs : s.Inv) {l : MutexLabel T}
    (h : s.step l = some u) : u.Inv := by
  cases l with
  | lock t =>
    simp only [Mutex.step, Option.ite_none_right_eq_some, Option.some.injEq] at h
    obtain ⟨ht, rfl⟩ := h
    exact hs.move (by simp [ht]) (by simp) (hs.sleeping_goto (by simp [ht]) (by simp))
      fun _ _ => ⟨t, .inl (by simp [Mutex.goto])⟩
  | unlock t =>
    simp only [Mutex.step, Option.ite_none_right_eq_some, Option.some.injEq] at h
    obtain ⟨ht, rfl⟩ := h
    exact hs.release ht
  | step t => exact hs.threadStep h
  | wake t woken =>
    simp only [Mutex.step, Option.ite_none_right_eq_some, Option.map_eq_some_iff] at h
    obtain ⟨ht, sleepers, hnotify, rfl⟩ := h
    have hleft : s.sleepers.Tracks fun u => Function.update s.pc t .outside u = .asleep :=
      hs.sleeping_goto (by simp [ht]) (by simp)
    have hsleeping := hleft.notifyOne hnotify
    refine hs.move (by simp [ht]) (by simp) hsleeping fun _ hasleep => ?_
    rcases ConditionVariable.notifyOne_cases hnotify with ⟨v, hv⟩ | ⟨hnone, rfl⟩
    · exact Inv.wakes hv _
    · exact (hasleep hnone).elim
  | spurious t =>
    obtain ⟨sleepers, hwake, rfl⟩ := Option.map_eq_some_iff.mp h
    exact ⟨hs.sleeping.wake hwake, hs.exclusive, hs.bit, hs.taken,
      fun _ _ => Inv.wakes hwake s.pc⟩

/-- Some step of `t`, other than to start a call, can be taken. -/
def CanGoOn {T : Type} [DecidableEq T] (s : Mutex T) (t : T) : Prop :=
  (s.step (.step t)).isSome = true ∨ ∃ woken, (s.step (.wake t woken)).isSome = true

theorem Inv.canGoOn {T : Type} [DecidableEq T] {s : Mutex T} (hs : s.Inv) {t : T}
    (ht : s.Attends t) : s.CanGoOn t := by
  rcases ht with ht | ht | ht | ht
  · exact .inl (by simp [Mutex.step, Mutex.threadStep, ht])
  · exact .inl (by simp [Mutex.step, Mutex.threadStep, ht])
  · obtain ⟨woken, sleepers, hnotify⟩ := s.sleepers.exists_notifyOne
    exact .inr ⟨woken, by simp [Mutex.step, ht, hnotify]⟩
  · have hasleep : s.pc t = .asleep :=
      (hs.sleeping.mem t).mp (List.mem_append_right _ ht)
    exact .inl (by simp [Mutex.step, Mutex.threadStep, hasleep, ConditionVariable.resume, ht])

end Mutex

theorem threadMutex_inv {T : Type} [DecidableEq T] {s : Mutex T}
    (h : (threadMutex T).Reachable s) : s.Inv := by
  apply h.invariant
  · exact ⟨ConditionVariable.tracks_new (by simp [threadMutex]), by simp [threadMutex], .inl rfl,
      by simp [threadMutex], by simp [threadMutex, ConditionVariable.new]⟩
  · intro s l u _ hs hu
    exact hs.step hu

/-- One thread at a time, the cell says whether there is one, and whoever sleeps does
so while somebody has the mutex or can go on. -/
theorem threadMutex_strands_nobody {T : Type} [DecidableEq T] {s : Mutex T}
    (h : (threadMutex T).Reachable s) :
    (∀ t u, s.pc t = .critical → s.pc u = .critical → t = u) ∧
    (s.access = 1 ↔ ∃ t, s.pc t = .critical) ∧
    ∀ t, s.pc t = .asleep → (∃ u, s.pc u = .critical) ∨ ∃ u, s.CanGoOn u := by
  have hs := threadMutex_inv h
  refine ⟨hs.exclusive, hs.taken, fun t ht => ?_⟩
  rcases List.mem_append.mp ((hs.sleeping.mem t).mpr ht) with hasleep | hnotified
  · rcases hs.bit with hfree | htaken
    · obtain ⟨u, hu⟩ := hs.attended hfree (List.ne_nil_of_mem hasleep)
      exact .inr ⟨u, hs.canGoOn hu⟩
    · exact .inl (hs.taken.mp htaken)
  · exact .inr ⟨t, hs.canGoOn (.inr (.inr (.inr hnotified)))⟩

/-- Thread 1 sleeps behind thread 0, which has stored and not yet notified. -/
theorem threadMutex_strands_nobody_unlocked : ∃ s : Mutex (Fin 2),
    (threadMutex (Fin 2)).Reachable s ∧ s.pc 1 = .asleep ∧ s.access = 0 ∧
      ((∃ u, s.pc u = .critical) ∨ ∃ u, s.CanGoOn u) := by
  obtain ⟨s, hreach, hs⟩ := (threadMutex (Fin 2)).exists_reachable_of_exec
    [.lock 0, .lock 1, .step 0, .step 1, .step 1, .unlock 0]
    (p := fun s => s.pc 1 = .asleep ∧ s.access = 0) (by decide)
  obtain ⟨hasleep, hfree⟩ := of_decide_eq_true hs
  exact ⟨s, hreach, hasleep, hfree, (threadMutex_strands_nobody hreach).2.2 1 hasleep⟩

end ConcurrentProgramming.Sync
