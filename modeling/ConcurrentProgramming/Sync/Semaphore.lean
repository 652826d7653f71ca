import ConcurrentProgramming.Interleaving.ConditionVariable

/-!
The counting semaphore. `Acquire` is a section that ends with a token or inside
`wait`, and after a `wait` one more of them; `Release` is one section.
-/

set_option autoImplicit false

namespace ConcurrentProgramming.Sync
open Interleaving

structure Semaphore (ι : Type) where
  tokens : Nat
  emptyTokenSet : ConditionVariable ι
  deriving DecidableEq, Repr

namespace Semaphore

def new (ι : Type) (initial : Nat) : Semaphore ι := ⟨initial, .new ι⟩

/-- Whether the thread got a token; if not, it is inside `wait`. -/
def acquire {ι : Type} (s : Semaphore ι) (i : ι) : Semaphore ι × Bool :=
  if s.tokens = 0 then ({ s with emptyTokenSet := s.emptyTokenSet.wait i }, false)
  else ({ s with tokens := s.tokens - 1 }, true)

/-- The thread is back from `wait`. -/
def reacquire {ι : Type} [DecidableEq ι] (s : Semaphore ι) (i : ι) :
    Option (Semaphore ι × Bool) :=
  (s.emptyTokenSet.resume i).map fun emptyTokenSet =>
    ({ s with emptyTokenSet := emptyTokenSet } : Semaphore ι).acquire i

/-- `woken` is whom `notify_one` wakes. -/
def release {ι : Type} [DecidableEq ι] (s : Semaphore ι) (woken : Option ι) :
    Option (Semaphore ι) :=
  (s.emptyTokenSet.notifyOne woken).map fun emptyTokenSet => ⟨s.tokens + 1, emptyTokenSet⟩

/-- A sleeper wakes up for no reason. -/
def wake {ι : Type} [DecidableEq ι] (s : Semaphore ι) (i : ι) : Option (Semaphore ι) :=
  (s.emptyTokenSet.wake i).map fun emptyTokenSet => { s with emptyTokenSet := emptyTokenSet }

/-- The threads in `waiting` are inside `wait`, and no token is there that nobody is
on the way to while some of them sleep. -/
structure Sound {ι : Type} (s : Semaphore ι) (waiting : ι → Prop) : Prop where
  tracks : s.emptyTokenSet.Tracks waiting
  covers : s.emptyTokenSet.Covers s.tokens

theorem sound_new {ι : Type} {waiting : ι → Prop} (h : ∀ i, ¬ waiting i) (initial : Nat) :
    (new ι initial).Sound waiting :=
  ⟨ConditionVariable.tracks_new h, ConditionVariable.covers_new ι initial⟩

theorem Sound.congr {ι : Type} {s : Semaphore ι} {p q : ι → Prop} (h : s.Sound p)
    (hpq : ∀ i, p i ↔ q i) : s.Sound q :=
  ⟨h.tracks.congr hpq, h.covers⟩

theorem acquire_cases {ι : Type} {s r : Semaphore ι} {i : ι} {got : Bool}
    (h : s.acquire i = (r, got)) :
    got = true ∧ s.tokens = r.tokens + 1 ∧ r.emptyTokenSet = s.emptyTokenSet ∨
      got = false ∧ s.tokens = 0 ∧ r.tokens = 0 ∧ r.emptyTokenSet = s.emptyTokenSet.wait i := by
  unfold acquire at h
  split at h
  · rename_i hnone
    obtain ⟨rfl, rfl⟩ := Prod.mk.inj h
    exact .inr ⟨rfl, hnone, hnone, rfl⟩
  · obtain ⟨rfl, rfl⟩ := Prod.mk.inj h
    exact .inl ⟨rfl, by dsimp only; omega, rfl⟩

theorem reacquire_eq {ι : Type} [DecidableEq ι] {s r : Semaphore ι} {i : ι} {got : Bool}
    (h : s.reacquire i = some (r, got)) :
    ∃ emptyTokenSet, s.emptyTokenSet.resume i = some emptyTokenSet ∧
      ({ s with emptyTokenSet := emptyTokenSet } : Semaphore ι).acquire i = (r, got) :=
  Option.map_eq_some_iff.mp h

/-- A token less for a thread that got one. -/
theorem acquire_tokens {ι : Type} {s r : Semaphore ι} {i : ι} {got : Bool}
    (h : s.acquire i = (r, got)) : s.tokens = r.tokens + if got then 1 else 0 := by
  rcases acquire_cases h with ⟨rfl, htokens, -⟩ | ⟨rfl, hnone, hzero, -⟩
  · exact htokens
  · exact hnone.trans hzero.symm

theorem reacquire_tokens {ι : Type} [DecidableEq ι] {s r : Semaphore ι} {i : ι} {got : Bool}
    (h : s.reacquire i = some (r, got)) : s.tokens = r.tokens + if got then 1 else 0 := by
  obtain ⟨emptyTokenSet, -, hacquire⟩ := reacquire_eq h
  have htokens := acquire_tokens hacquire
  exact htokens

theorem release_tokens {ι : Type} [DecidableEq ι] {s r : Semaphore ι} {woken : Option ι}
    (h : s.release woken = some r) : r.tokens = s.tokens + 1 := by
  obtain ⟨emptyTokenSet, -, rfl⟩ := Option.map_eq_some_iff.mp h
  rfl

theorem wake_tokens {ι : Type} [DecidableEq ι] {s r : Semaphore ι} {i : ι}
    (h : s.wake i = some r) : r.tokens = s.tokens := by
  obtain ⟨emptyTokenSet, -, rfl⟩ := Option.map_eq_some_iff.mp h
  rfl

theorem Sound.acquire {ι : Type} {s r : Semaphore ι} {waiting : ι → Prop} (hs : s.Sound waiting)
    {i : ι} (hi : ¬ waiting i) {got : Bool} (h : s.acquire i = (r, got)) :
    r.Sound fun j => j = i ∧ got = false ∨ waiting j := by
  rcases acquire_cases h with ⟨rfl, htokens, hset⟩ | ⟨rfl, -, hzero, hset⟩
  · refine ⟨?_, ?_⟩
    · rw [hset]
      exact hs.tracks.congr fun j => ⟨.inr, fun hj => hj.resolve_left (by simp)⟩
    · rw [hset]
      exact hs.covers.mono (by omega)
  · refine ⟨?_, ?_⟩
    · rw [hset]
      exact (hs.tracks.wait hi).congr fun j => by simp
    · rw [hzero]
      exact ConditionVariable.covers_zero _

theorem Sound.reacquire {ι : Type} [DecidableEq ι] {s r : Semaphore ι} {waiting : ι → Prop}
    (hs : s.Sound waiting) {i : ι} {got : Bool} (h : s.reacquire i = some (r, got)) :
    r.Sound fun j => j = i ∧ got = false ∨ j ≠ i ∧ waiting j := by
  obtain ⟨emptyTokenSet, hresume, hacquire⟩ := reacquire_eq h
  have htracks := hs.tracks.resume hresume
  rcases acquire_cases hacquire with ⟨rfl, htokens, hset⟩ | ⟨rfl, -, hzero, hset⟩
  · refine ⟨?_, ?_⟩
    · rw [hset]
      exact htracks.congr fun j => ⟨.inr, fun hj => hj.resolve_left (by simp)⟩
    · rw [hset]
      have htokens : s.tokens = r.tokens + 1 := htokens
      exact (hs.covers.resume hresume).mono (by omega)
  · refine ⟨?_, ?_⟩
    · rw [hset]
      exact (htracks.wait fun hj => hj.1 rfl).congr fun j => by simp
    · rw [hzero]
      exact ConditionVariable.covers_zero _

theorem Sound.release {ι : Type} [DecidableEq ι] {s r : Semaphore ι} {waiting : ι → Prop}
    (hs : s.Sound waiting) {woken : Option ι} (h : s.release woken = some r) :
    r.Sound waiting := by
  obtain ⟨emptyTokenSet, hnotify, rfl⟩ := Option.map_eq_some_iff.mp h
  exact ⟨hs.tracks.notifyOne hnotify, hs.covers.notifyOne hnotify⟩

theorem Sound.wake {ι : Type} [DecidableEq ι] {s r : Semaphore ι} {waiting : ι → Prop}
    (hs : s.Sound waiting) {i : ι} (h : s.wake i = some r) : r.Sound waiting := by
  obtain ⟨emptyTokenSet, hwake, rfl⟩ := Option.map_eq_some_iff.mp h
  exact ⟨hs.tracks.wake hwake, (hs.covers.wake hwake).mono (Nat.le_succ _)⟩

theorem exists_release {ι : Type} [DecidableEq ι] (s : Semaphore ι) :
    ∃ woken r, s.release woken = some r := by
  obtain ⟨woken, emptyTokenSet, h⟩ := s.emptyTokenSet.exists_notifyOne
  exact ⟨woken, _, Option.map_eq_some_iff.mpr ⟨emptyTokenSet, h, rfl⟩⟩

/-- Nobody waits for a token that is there once everybody who was woken has run. -/
theorem Sound.settled {ι : Type} [DecidableEq ι] {s : Semaphore ι} {waiting : ι → Prop}
    (hs : s.Sound waiting) (hresume : ∀ i, waiting i → s.reacquire i = none)
    (htokens : 0 < s.tokens) (i : ι) : ¬ waiting i := by
  have hnotified := hs.tracks.notified_nil fun j hj =>
    Option.map_eq_none_iff.mp (hresume j hj)
  have hasleep := (hs.covers.of_notified_nil hnotified).resolve_right (Nat.ne_of_gt htokens)
  exact hs.tracks.not_waiting hasleep hnotified i

end Semaphore

end ConcurrentProgramming.Sync
