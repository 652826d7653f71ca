import ConcurrentProgramming.Interleaving.ConditionVariable
import ConcurrentProgramming.Interleaving.History
import ConcurrentProgramming.Interleaving.Machine
import Mathlib.Data.BitVec

/-!
The condition variable of threads: a 32-bit cell that every notification
increments, and an atomic wait for the cell to differ from what `Wait` has loaded
before it gave the mutex up.
-/

set_option autoImplicit false

namespace ConcurrentProgramming.Sync
open Interleaving

inductive Notify where
  | one
  | all
  deriving DecidableEq, Repr

/-- `compare` and `asleep` are inside `val_.wait`. -/
inductive CondVarPc (M : Type) where
  | outside
  | load (mutex : M)
  | unlock (mutex : M) (noticed : BitVec 32)
  | compare (mutex : M) (noticed : BitVec 32)
  | asleep (mutex : M) (noticed : BitVec 32)
  | lock (mutex : M)
  | fetchAdd (kind : Notify)
  | notify (kind : Notify)
  deriving DecidableEq, Repr

/-- `waiters` are the threads that block in `val_.wait`, `owner` says who has which
mutex. -/
structure CondVar (T M : Type) where
  val : BitVec 32
  waiters : ConditionVariable T
  owner : M → Option T
  pc : T → CondVarPc M

/-- `lock` and `unlock` are the calls of the users of the mutexes; `wake` is
`val_.notify_one` with its choice, `spurious` a wake-up for no reason. -/
inductive CondVarLabel (T M : Type) where
  | lock (t : T) (mutex : M)
  | unlock (t : T) (mutex : M)
  | wait (t : T) (mutex : M)
  | notify (t : T) (kind : Notify)
  | step (t : T)
  | wake (t : T) (woken : Option T)
  | spurious (t : T)
  deriving DecidableEq, Repr

namespace CondVar

def goto {T M : Type} [DecidableEq T] (s : CondVar T M) (t : T) (pc : CondVarPc M) :
    CondVar T M :=
  { s with pc := Function.update s.pc t pc }

def acquire {T M : Type} [DecidableEq T] [DecidableEq M] (s : CondVar T M) (t : T) (mutex : M) :
    Option (CondVar T M) :=
  if s.owner mutex = none then
    some { s.goto t .outside with owner := Function.update s.owner mutex (some t) }
  else none

/-- To unlock a mutex that somebody else has, or nobody, is undefined. -/
def release {T M : Type} [DecidableEq T] [DecidableEq M] (s : CondVar T M) (t : T) (mutex : M)
    (pc : CondVarPc M) : Option (CondVar T M) :=
  if s.owner mutex = some t then
    some { s.goto t pc with owner := Function.update s.owner mutex none }
  else none

/-- Atomic `wait(old)` blocks only while the cell equals `old`, and compares again
after every wake-up. -/
def threadStep {T M : Type} [DecidableEq T] [DecidableEq M] (s : CondVar T M) (t : T) :
    Option (CondVar T M) :=
  match s.pc t with
  | .outside | .notify .one => none
  | .load mutex => some (s.goto t (.unlock mutex s.val))
  | .unlock mutex noticed => s.release t mutex (.compare mutex noticed)
  | .compare mutex noticed =>
    if s.val = noticed then
      some { s.goto t (.asleep mutex noticed) with waiters := s.waiters.wait t }
    else some (s.goto t (.lock mutex))
  | .asleep mutex noticed =>
    (s.waiters.resume t).map fun waiters =>
      { s.goto t (.compare mutex noticed) with waiters := waiters }
  | .lock mutex => s.acquire t mutex
  | .fetchAdd kind => some { s.goto t (.notify kind) with val := s.val + 1 }
  | .notify .all => some { s.goto t .outside with waiters := s.waiters.notifyAll }

def step {T M : Type} [DecidableEq T] [DecidableEq M] (s : CondVar T M) :
    CondVarLabel T M → Option (CondVar T M)
  | .lock t mutex => if s.pc t = .outside then s.acquire t mutex else none
  | .unlock t mutex => if s.pc t = .outside then s.release t mutex .outside else none
  | .wait t mutex => if s.pc t = .outside then some (s.goto t (.load mutex)) else none
  | .notify t kind => if s.pc t = .outside then some (s.goto t (.fetchAdd kind)) else none
  | .step t => s.threadStep t
  | .wake t woken =>
    if s.pc t = .notify .one then
      (s.waiters.notifyOne woken).map fun waiters => { s.goto t .outside with waiters := waiters }
    else none
  | .spurious t => (s.waiters.wake t).map fun waiters => { s with waiters := waiters }

end CondVar

def condVar (T M : Type) [DecidableEq T] [DecidableEq M] :
    Machine (CondVar T M) (CondVarLabel T M) where
  init := ⟨0, .new T, fun _ => none, fun _ => .outside⟩
  step := CondVar.step

/-- What reads or writes the cell, comparisons apart. -/
inductive CondVarEvent (T : Type) where
  | load (t : T)
  | fetchAdd (t : T) (kind : Notify)
  deriving DecidableEq, Repr

namespace CondVarEvent

def notifies {T : Type} : CondVarEvent T → Bool
  | .load _ => false
  | .fetchAdd _ _ => true

end CondVarEvent

/-- How many notifications have incremented the cell. -/
def notifications {T : Type} (events : List (CondVarEvent T)) : Nat :=
  events.countP CondVarEvent.notifies

namespace CondVar

def events {T M : Type} (s : CondVar T M) : CondVarLabel T M → List (CondVarEvent T)
  | .step t =>
    match s.pc t with
    | .load _ => [.load t]
    | .fetchAdd kind => [.fetchAdd t kind]
    | _ => []
  | _ => []

end CondVar

def observedCondVar (T M : Type) [DecidableEq T] [DecidableEq M] :
    Machine (CondVar T M × List (CondVarEvent T)) (CondVarLabel T M) :=
  (condVar T M).observe CondVar.events

/-- What a thread inside `Wait` has loaded. -/
def CondVarPc.noticed {M : Type} : CondVarPc M → Option (BitVec 32)
  | .unlock _ noticed | .compare _ noticed | .asleep _ noticed => some noticed
  | _ => none

/-- Adding `k` to a word leaves it what it was only by going round. -/
theorem add_ofNat_eq_self {w : Nat} (v : BitVec w) (k : Nat) :
    v + BitVec.ofNat w k = v ↔ 2 ^ w ∣ k := by
  rw [BitVec.add_right_eq_self, ← BitVec.toNat_inj, BitVec.toNat_ofNat, BitVec.toNat_ofNat,
    Nat.zero_mod, Nat.dvd_iff_mod_eq_zero]

namespace CondVar

/-- A step that does not touch the cell. -/
structure Quiet {T M : Type} (s u : CondVar T M) : Prop where
  val : u.val = s.val
  noticed : ∀ t noticed, (u.pc t).noticed = some noticed → (s.pc t).noticed = some noticed

theorem quiet_of_update {T M : Type} [DecidableEq T] {s u : CondVar T M} {t : T}
    {pc : CondVarPc M} (hval : u.val = s.val) (hpc : u.pc = Function.update s.pc t pc)
    (hnoticed : pc.noticed = none ∨ pc.noticed = (s.pc t).noticed) : Quiet s u := by
  refine ⟨hval, fun r noticed hr => ?_⟩
  rw [hpc] at hr
  by_cases he : r = t
  · subst he
    rw [Function.update_self] at hr
    rcases hnoticed with hnone | hsame
    · simp [hnone] at hr
    · rw [← hsame, hr]
  · rwa [Function.update_of_ne he] at hr

theorem acquire_quiet {T M : Type} [DecidableEq T] [DecidableEq M] {s u : CondVar T M} {t : T}
    {mutex : M} (h : s.acquire t mutex = some u) : Quiet s u := by
  simp only [acquire, Option.ite_none_right_eq_some, Option.some.injEq] at h
  obtain ⟨-, rfl⟩ := h
  exact quiet_of_update rfl rfl (.inl rfl)

theorem release_quiet {T M : Type} [DecidableEq T] [DecidableEq M] {s u : CondVar T M} {t : T}
    {mutex : M} {pc : CondVarPc M} (h : s.release t mutex pc = some u)
    (hpc : pc.noticed = none ∨ pc.noticed = (s.pc t).noticed) : Quiet s u := by
  simp only [release, Option.ite_none_right_eq_some, Option.some.injEq] at h
  obtain ⟨-, rfl⟩ := h
  exact quiet_of_update rfl rfl hpc

/-- A thread's next step is its load, its increment, or leaves the cell alone. -/
theorem threadStep_cases {T M : Type} [DecidableEq T] [DecidableEq M] {s u : CondVar T M} {t : T}
    (h : s.threadStep t = some u) :
    (∃ mutex, s.pc t = .load mutex ∧ u = s.goto t (.unlock mutex s.val)) ∨
      (∃ kind, s.pc t = .fetchAdd kind ∧
        u = { s.goto t (.notify kind) with val := s.val + 1 }) ∨
      s.events (.step t) = [] ∧ Quiet s u := by
  unfold threadStep at h
  cases hpc : s.pc t with
  | outside => simp [hpc] at h
  | load mutex =>
    simp only [hpc, Option.some.injEq] at h
    exact .inl ⟨mutex, rfl, h.symm⟩
  | unlock mutex noticed =>
    simp only [hpc] at h
    exact .inr (.inr ⟨by simp [events, hpc], release_quiet h (.inr (by rw [hpc]; rfl))⟩)
  | compare mutex noticed =>
    refine .inr (.inr ⟨by simp [events, hpc], ?_⟩)
    simp only [hpc] at h
    split at h
    · obtain rfl := Option.some.inj h
      exact quiet_of_update rfl rfl (.inr (by rw [hpc]; rfl))
    · obtain rfl := Option.some.inj h
      exact quiet_of_update rfl rfl (.inl rfl)
  | asleep mutex noticed =>
    simp only [hpc, Option.map_eq_some_iff] at h
    obtain ⟨waiters, -, rfl⟩ := h
    exact .inr (.inr ⟨by simp [events, hpc],
      quiet_of_update rfl rfl (.inr (by rw [hpc]; rfl))⟩)
  | lock mutex =>
    simp only [hpc] at h
    exact .inr (.inr ⟨by simp [events, hpc], acquire_quiet h⟩)
  | fetchAdd kind =>
    simp only [hpc, Option.some.injEq] at h
    exact .inr (.inl ⟨kind, rfl, h.symm⟩)
  | notify kind =>
    cases kind with
    | one => simp [hpc] at h
    | all =>
      simp only [hpc, Option.some.injEq] at h
      subst h
      exact .inr (.inr ⟨by simp [events, hpc], quiet_of_update rfl rfl (.inl rfl)⟩)

/-- The labels that are not a thread's own next step. -/
theorem step_quiet {T M : Type} [DecidableEq T] [DecidableEq M] {s u : CondVar T M}
    {l : CondVarLabel T M} (hl : ∀ t, l ≠ .step t) (h : s.step l = some u) :
    s.events l = [] ∧ Quiet s u := by
  cases l with
  | step t => exact (hl t rfl).elim
  | lock t mutex =>
    simp only [step, Option.ite_none_right_eq_some] at h
    exact ⟨rfl, acquire_quiet h.2⟩
  | unlock t mutex =>
    simp only [step, Option.ite_none_right_eq_some] at h
    exact ⟨rfl, release_quiet h.2 (.inl rfl)⟩
  | wait t mutex | notify t kind =>
    simp only [step, Option.ite_none_right_eq_some, Option.some.injEq] at h
    obtain ⟨-, rfl⟩ := h
    exact ⟨rfl, quiet_of_update rfl rfl (.inl rfl)⟩
  | wake t woken =>
    simp only [step, Option.ite_none_right_eq_some, Option.map_eq_some_iff] at h
    obtain ⟨-, waiters, -, rfl⟩ := h
    exact ⟨rfl, quiet_of_update rfl rfl (.inl rfl)⟩
  | spurious t =>
    simp only [step, Option.map_eq_some_iff] at h
    obtain ⟨waiters, -, rfl⟩ := h
    exact ⟨rfl, rfl, fun _ _ hr => hr⟩

/-- Since a waiter's load the cell has moved on by one for every notification. -/
def Counted {T M : Type} (s : CondVar T M) (log : List (CondVarEvent T)) : Prop :=
  ∀ t noticed, (s.pc t).noticed = some noticed →
    ∃ during, Since (.load t) log during ∧
      s.val = noticed + BitVec.ofNat 32 (notifications during)

theorem Counted.quiet {T M : Type} {s u : CondVar T M} {log : List (CondVarEvent T)}
    (hs : s.Counted log) (h : Quiet s u) : u.Counted log := by
  intro t noticed ht
  rw [h.val]
  exact hs t noticed (h.noticed t noticed ht)

theorem Counted.load {T M : Type} [DecidableEq T] {s : CondVar T M}
    {log : List (CondVarEvent T)} (hs : s.Counted log) (t : T) (mutex : M) :
    (s.goto t (.unlock mutex s.val)).Counted (log ++ [.load t]) := by
  intro r noticed hr
  by_cases he : r = t
  · subst he
    simp only [goto, Function.update_self, CondVarPc.noticed, Option.some.injEq] at hr
    exact ⟨[], since_concat _ log, by simp [goto, notifications, hr]⟩
  · simp only [goto, Function.update_of_ne he] at hr
    obtain ⟨during, hsince, hval⟩ := hs r noticed hr
    refine ⟨during ++ [.load t], hsince.append (by simpa using he), ?_⟩
    simpa [goto, notifications, CondVarEvent.notifies] using hval

theorem Counted.fetchAdd {T M : Type} [DecidableEq T] {s : CondVar T M}
    {log : List (CondVarEvent T)} (hs : s.Counted log) (t : T) (kind : Notify) :
    ({ s.goto t (.notify kind) with val := s.val + 1 } : CondVar T M).Counted
      (log ++ [.fetchAdd t kind]) := by
  intro r noticed hr
  have hne : r ≠ t := by
    rintro rfl
    simp [goto, CondVarPc.noticed] at hr
  simp only [goto, Function.update_of_ne hne] at hr
  obtain ⟨during, hsince, hval⟩ := hs r noticed hr
  refine ⟨during ++ [.fetchAdd t kind], hsince.append (by simp), ?_⟩
  have hcount : notifications (during ++ [.fetchAdd t kind]) = notifications during + 1 := by
    simp [notifications, CondVarEvent.notifies]
  simp only [hval, hcount, BitVec.ofNat_add, BitVec.add_assoc]
  rfl

theorem Counted.step {T M : Type} [DecidableEq T] [DecidableEq M] {s u : CondVar T M}
    {log : List (CondVarEvent T)} (hs : s.Counted log) {l : CondVarLabel T M}
    (h : s.step l = some u) : u.Counted (log ++ s.events l) := by
  by_cases hl : ∃ t, l = .step t
  · obtain ⟨t, rfl⟩ := hl
    rcases threadStep_cases h with ⟨mutex, hpc, rfl⟩ | ⟨kind, hpc, rfl⟩ | ⟨hevents, hquiet⟩
    · simpa [events, hpc] using hs.load t mutex
    · simpa [events, hpc] using hs.fetchAdd t kind
    · simpa [hevents] using hs.quiet hquiet
  · obtain ⟨hevents, hquiet⟩ := step_quiet (fun t ht => hl ⟨t, ht⟩) h
    simpa [hevents] using hs.quiet hquiet

end CondVar

theorem observedCondVar_counted {T M : Type} [DecidableEq T] [DecidableEq M]
    {s : CondVar T M × List (CondVarEvent T)} (h : (observedCondVar T M).Reachable s) :
    s.1.Counted s.2 := by
  apply h.invariant
  · intro t noticed ht
    cases ht
  · intro s l u _ hs hu
    obtain ⟨hstep, hlog⟩ := Machine.observe_step hu
    exact hlog ▸ hs.step hstep

theorem CondVar.step_compare {T M : Type} [DecidableEq T] [DecidableEq M] {s : CondVar T M} {t : T}
    {mutex : M} {noticed : BitVec 32} (hpc : s.pc t = .compare mutex noticed) :
    ∃ u, s.step (.step t) = some u ∧
      u.pc t = if s.val = noticed then .asleep mutex noticed else .lock mutex := by
  simp only [step, threadStep, hpc]
  split
  · exact ⟨_, rfl, Function.update_self ..⟩
  · exact ⟨_, rfl, Function.update_self ..⟩

/-- A waiter falls asleep exactly where the notifications since its load have carried
the cell all the way round. -/
theorem condVar_sleeps_iff {T M : Type} [DecidableEq T] [DecidableEq M] {s u : CondVar T M}
    {log during : List (CondVarEvent T)} {t : T} {mutex : M} {noticed : BitVec 32}
    (h : (observedCondVar T M).Reachable (s, log)) (hpc : s.pc t = .compare mutex noticed)
    (hsince : Since (.load t) log during) (hu : s.step (.step t) = some u) :
    u.pc t = if 2 ^ 32 ∣ notifications during then .asleep mutex noticed else .lock mutex := by
  obtain ⟨during', hsince', hval⟩ := observedCondVar_counted h t noticed (by simp [hpc]; rfl)
  obtain rfl := hsince.unique hsince'
  have hround : s.val = noticed ↔ 2 ^ 32 ∣ notifications during := by
    rw [hval, add_ofNat_eq_self]
  obtain ⟨v, hv, hnext⟩ := CondVar.step_compare hpc
  obtain rfl := Option.some.inj (hu.symm.trans hv)
  rw [hnext]
  exact if_congr hround rfl rfl

/-- One notification comes between the load and the comparison: the waiter goes on. -/
theorem condVar_sleeps_iff_notified : ∃ s u,
    (observedCondVar (Fin 2) Unit).Reachable (s, [.load 0, .fetchAdd 1 .one]) ∧
      s.pc 0 = .compare () 0 ∧ s.step (.step 0) = some u ∧ u.pc 0 = .lock () := by
  obtain ⟨⟨s, log⟩, hreach, hs⟩ := (observedCondVar (Fin 2) Unit).exists_reachable_of_exec
    [.lock 0 (), .wait 0 (), .step 0, .notify 1 .one, .step 1, .step 0, .wake 1 none]
    (p := fun s => s.1.pc 0 = .compare () 0 ∧ s.2 = [.load 0, .fetchAdd 1 .one] ∧
      (s.1.step (.step 0)).isSome) (by decide)
  obtain ⟨hpc, rfl, hu⟩ := of_decide_eq_true hs
  obtain ⟨u, hu⟩ := Option.isSome_iff_exists.mp hu
  have hsince := (since_concat (CondVarEvent.load (0 : Fin 2)) []).append
    (show _ ∉ [CondVarEvent.fetchAdd 1 .one] by decide)
  exact ⟨s, u, hreach, hpc, hu,
    (condVar_sleeps_iff hreach hpc hsince hu).trans (if_neg (by decide))⟩

namespace CondVar

/-- A thread that notifies `n` times while nobody is asleep. -/
theorem exec_notifyAll {T M : Type} [DecidableEq T] [DecidableEq M] {s : CondVar T M} {t : T}
    (hpc : s.pc t = .outside) (hnobody : s.waiters = .new T) (log : List (CondVarEvent T))
    (n : Nat) :
    ∃ ls, (observedCondVar T M).exec (s, log) ls =
      some ({ s with val := s.val + BitVec.ofNat 32 n }, log ++ List.replicate n (.fetchAdd t .all))
      := by
  induction n with
  | zero => exact ⟨[], by simp⟩
  | succ n ih =>
    obtain ⟨ls, hls⟩ := ih
    have hround (v : BitVec 32) (log : List (CondVarEvent T)) :
        (observedCondVar T M).exec ({ s with val := v }, log) [.notify t .all, .step t, .step t] =
          some ({ s with val := v + 1 }, log ++ [.fetchAdd t .all]) := by
      simp [observedCondVar, condVar, Machine.observe, step, threadStep, events, goto, hpc,
        hnobody, ConditionVariable.notifyAll, ConditionVariable.new]
    refine ⟨ls ++ [.notify t .all, .step t, .step t], ?_⟩
    rw [Machine.exec_append, hls, Option.bind_some, hround, BitVec.ofNat_add, BitVec.add_assoc,
      List.append_assoc, List.replicate_succ']
    rfl

/-- Any multiple of `2 ^ 32` notifications goes unnoticed. -/
theorem exists_asleep {n : Nat} (hn : 2 ^ 32 ∣ n) :
    ∃ (s u : CondVar (Fin 2) Unit) (log during : List (CondVarEvent (Fin 2))),
      (observedCondVar (Fin 2) Unit).Reachable (s, log) ∧ s.pc 0 = .compare () 0 ∧
        Since (.load 0) log during ∧ notifications during = n ∧
        s.step (.step 0) = some u ∧ u.pc 0 = .asleep () 0 := by
  obtain ⟨⟨s, log⟩, hreach, hs⟩ := (observedCondVar (Fin 2) Unit).exists_reachable_of_exec
    [.lock 0 (), .wait 0 (), .step 0, .step 0]
    (p := fun s => s.1.pc 0 = .compare () 0 ∧ s.1.pc 1 = .outside ∧ s.1.waiters = .new _ ∧
      s.1.val = 0 ∧ s.2 = [.load 0]) (by decide)
  obtain ⟨hwaiter, hnotifier, hnobody, hval, rfl⟩ := of_decide_eq_true hs
  obtain ⟨ls, hls⟩ := exec_notifyAll hnotifier hnobody [CondVarEvent.load 0] n
  obtain ⟨u, hu, hasleep⟩ :=
    step_compare (s := { s with val := s.val + BitVec.ofNat 32 n }) hwaiter
  have hround : s.val + BitVec.ofNat 32 n = 0 := by
    rw [hval, add_ofNat_eq_self]
    exact hn
  have hsince := (since_concat (CondVarEvent.load (0 : Fin 2)) []).append
    (show _ ∉ List.replicate n (CondVarEvent.fetchAdd 1 .all) by simp [List.mem_replicate])
  refine ⟨_, u, _, _, hreach.exec hls, hwaiter, hsince, ?_, hu, hasleep.trans (if_pos hround)⟩
  exact List.countP_replicate.trans (if_pos rfl)

end CondVar

/-- As many notifications as the cell has values: the waiter sleeps through all of them. -/
theorem condVar_sleeps_through :
    ∃ (s u : CondVar (Fin 2) Unit) (log during : List (CondVarEvent (Fin 2))),
      (observedCondVar (Fin 2) Unit).Reachable (s, log) ∧ s.pc 0 = .compare () 0 ∧
        Since (.load 0) log during ∧ notifications during = 2 ^ 32 ∧
        s.step (.step 0) = some u ∧ u.pc 0 = .asleep () 0 :=
  CondVar.exists_asleep (Nat.dvd_refl _)

end ConcurrentProgramming.Sync
