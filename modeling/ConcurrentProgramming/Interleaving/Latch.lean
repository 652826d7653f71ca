import ConcurrentProgramming.Interleaving.Tally

/-!
Latches: a flag that is only ever raised, and the threads that sleep on it until it
is. The one fact to carry along a run: who sleeps although the flag is up is about
to be woken.
-/

set_option autoImplicit false

namespace Interleaving

universe u

/-- Where a thread is in `while (flag.load() == 0) flag.wait(0)`. -/
inductive Waiter where
  | load
  | wait
  | asleep
  | passed
  deriving DecidableEq, Repr

/-- How far the loop is from its end, or from falling asleep. -/
def Waiter.ahead (raised : Bool) : Waiter → Nat
  | .load => if raised then 1 else 2
  | .wait => if raised then 2 else 1
  | .asleep | .passed => 0

theorem Waiter.ahead_store (pc : Waiter) (raised : Bool) :
    Waiter.ahead true pc ≤ Waiter.ahead raised pc + 1 := by
  cases pc <;> cases raised <;> decide

structure Latch (W : Type u) where
  raised : Bool
  waiters : W → Waiter

namespace Latch
variable {W : Type u}

/-- Nobody has looked at the flag. -/
def new (W : Type u) : Latch W := ⟨false, fun _ => .load⟩

def store (e : Latch W) : Latch W := { e with raised := true }

def wakeAll (e : Latch W) : Latch W :=
  { e with waiters := fun w => match e.waiters w with
      | .asleep => .load
      | pc => pc }

section
variable [DecidableEq W]

def goto (e : Latch W) (w : W) (pc : Waiter) : Latch W :=
  { e with waiters := Function.update e.waiters w pc }

/-- `wait` compares the flag and falls asleep in one step. -/
def waitStep (e : Latch W) (w : W) : Option (Latch W) :=
  match e.waiters w with
  | .load => some (e.goto w (if e.raised then .passed else .wait))
  | .wait => some (e.goto w (if e.raised then .load else .asleep))
  | .asleep | .passed => none

/-- Under a mutex the look at the flag and the sleep are one step. -/
def check (e : Latch W) (w : W) : Option (Latch W) :=
  match e.waiters w with
  | .load => some (e.goto w (if e.raised then .passed else .asleep))
  | .wait | .asleep | .passed => none

/-- A sleeper that is woken for no reason. -/
def wake (e : Latch W) (w : W) : Option (Latch W) :=
  match e.waiters w with
  | .asleep => some (e.goto w .load)
  | _ => none

end

/-- `due` is the promise to wake everybody, made with the flag raised. -/
structure Heard (e : Latch W) (due : Prop) : Prop where
  passed : ∀ w, e.waiters w = .passed → e.raised = true
  asleep : ∀ w, e.waiters w = .asleep → e.raised = true → due

theorem heard_new (due : Prop) : (new W).Heard due := by
  refine ⟨fun w hw => ?_, fun w hw => ?_⟩
  · cases hw
  · cases hw

theorem Heard.mono {e : Latch W} {due due' : Prop} (h : e.Heard due) (hdue : due → due') :
    e.Heard due' :=
  ⟨h.passed, fun w hw hraised => hdue (h.asleep w hw hraised)⟩

theorem heard_store (e : Latch W) {due : Prop} (hdue : due) : e.store.Heard due :=
  ⟨fun _ _ => rfl, fun _ _ _ => hdue⟩

theorem wakeAll_awake (e : Latch W) (w : W) : e.wakeAll.waiters w ≠ .asleep := by
  simp only [wakeAll]
  cases e.waiters w <;> simp

theorem wakeAll_passed {e : Latch W} {w : W} :
    e.wakeAll.waiters w = .passed ↔ e.waiters w = .passed := by
  simp only [wakeAll]
  cases e.waiters w <;> simp

theorem Heard.wakeAll {e : Latch W} {due : Prop} (h : e.Heard due) (due' : Prop) :
    e.wakeAll.Heard due' :=
  ⟨fun w hw => h.passed w (wakeAll_passed.mp hw), fun w hw => (e.wakeAll_awake w hw).elim⟩

/-- A thread that looks under a mutex never stands between its `load` and its `wait`. -/
def Sectioned (e : Latch W) : Prop := ∀ w, e.waiters w ≠ .wait

theorem sectioned_new : (new W).Sectioned := by
  intro w hw
  cases hw

theorem Sectioned.wakeAll {e : Latch W} (h : e.Sectioned) : e.wakeAll.Sectioned := by
  intro w hw
  simp only [Latch.wakeAll] at hw
  cases hpc : e.waiters w with
  | wait => exact h w hpc
  | load | asleep | passed => simp [hpc] at hw

section
variable [DecidableEq W]

@[simp] theorem goto_raised (e : Latch W) (w : W) (pc : Waiter) :
    (e.goto w pc).raised = e.raised := rfl

/-- A thread passes only a raised flag, and falls asleep only on a lowered one. -/
theorem Heard.goto {e : Latch W} {due : Prop} (h : e.Heard due) {w : W} {pc : Waiter}
    (hpassed : pc = .passed → e.raised = true) (hasleep : pc = .asleep → e.raised = false) :
    (e.goto w pc).Heard due := by
  refine ⟨fun v hv => ?_, fun v hv hraised => ?_⟩
  · by_cases hvw : v = w
    · subst hvw
      exact hpassed (by simpa [Latch.goto] using hv)
    · exact h.passed v (by simpa [Latch.goto, hvw] using hv)
  · by_cases hvw : v = w
    · subst hvw
      have hlowered := hasleep (by simpa [Latch.goto] using hv)
      rw [goto_raised, hlowered] at hraised
      cases hraised
    · exact h.asleep v (by simpa [Latch.goto, hvw] using hv) hraised

theorem waitStep_cases {e e' : Latch W} {w : W} (h : e.waitStep w = some e') :
    ∃ pc, e' = e.goto w pc ∧
      (e.waiters w = .load ∧ pc = (if e.raised then .passed else .wait) ∨
        e.waiters w = .wait ∧ pc = (if e.raised then .load else .asleep)) := by
  unfold waitStep at h
  cases hw : e.waiters w with
  | load =>
    simp only [hw, Option.some.injEq] at h
    exact ⟨_, h.symm, .inl ⟨rfl, rfl⟩⟩
  | wait =>
    simp only [hw, Option.some.injEq] at h
    exact ⟨_, h.symm, .inr ⟨rfl, rfl⟩⟩
  | asleep | passed => simp [hw] at h

theorem Heard.waitStep {e e' : Latch W} {due : Prop} (h : e.Heard due) {w : W}
    (hstep : e.waitStep w = some e') : e'.raised = e.raised ∧ e'.Heard due := by
  obtain ⟨pc, rfl, hpc⟩ := waitStep_cases hstep
  refine ⟨rfl, h.goto ?_ ?_⟩ <;>
    rcases hpc with ⟨-, rfl⟩ | ⟨-, rfl⟩ <;> cases e.raised <;> simp

theorem Heard.check {e e' : Latch W} {due : Prop} (h : e.Heard due) {w : W}
    (hstep : e.check w = some e') : e'.raised = e.raised ∧ e'.Heard due := by
  unfold Latch.check at hstep
  cases hw : e.waiters w with
  | wait | asleep | passed => simp [hw] at hstep
  | load =>
    simp only [hw, Option.some.injEq] at hstep
    subst hstep
    refine ⟨rfl, h.goto ?_ ?_⟩ <;> cases e.raised <;> simp

theorem Heard.wake {e e' : Latch W} {due : Prop} (h : e.Heard due) {w : W}
    (hstep : e.wake w = some e') : e'.raised = e.raised ∧ e'.Heard due := by
  unfold Latch.wake at hstep
  cases hw : e.waiters w with
  | asleep =>
    simp only [hw, Option.some.injEq] at hstep
    subst hstep
    exact ⟨rfl, h.goto (by simp) (by simp)⟩
  | load | wait | passed => simp [hw] at hstep

/-- Who is in the loop and cannot go on is asleep. -/
theorem asleep_of_stuck {e : Latch W} {w : W} (h : e.waitStep w = none)
    (hw : e.waiters w ≠ .passed) : e.waiters w = .asleep := by
  unfold waitStep at h
  cases hpc : e.waiters w with
  | asleep => rfl
  | load | wait => simp [hpc] at h
  | passed => exact (hw hpc).elim

theorem Sectioned.goto {e : Latch W} (h : e.Sectioned) {w : W} {pc : Waiter} (hpc : pc ≠ .wait) :
    (e.goto w pc).Sectioned := by
  intro v hv
  by_cases hvw : v = w
  · subst hvw
    exact hpc (by simpa [Latch.goto] using hv)
  · exact h v (by simpa [Latch.goto, hvw] using hv)

theorem Sectioned.check {e e' : Latch W} (h : e.Sectioned) {w : W} (hstep : e.check w = some e') :
    e'.Sectioned := by
  unfold Latch.check at hstep
  cases hw : e.waiters w with
  | wait | asleep | passed => simp [hw] at hstep
  | load =>
    simp only [hw, Option.some.injEq] at hstep
    subst hstep
    exact h.goto (by cases e.raised <;> simp)

theorem Sectioned.wake {e e' : Latch W} (h : e.Sectioned) {w : W} (hstep : e.wake w = some e') :
    e'.Sectioned := by
  unfold Latch.wake at hstep
  cases hw : e.waiters w with
  | load | wait | passed => simp [hw] at hstep
  | asleep =>
    simp only [hw, Option.some.injEq] at hstep
    subst hstep
    exact h.goto (by simp)

theorem Sectioned.asleep_of_stuck {e : Latch W} (h : e.Sectioned) {w : W}
    (hstuck : e.check w = none) (hw : e.waiters w ≠ .passed) : e.waiters w = .asleep := by
  unfold Latch.check at hstuck
  cases hpc : e.waiters w with
  | asleep => rfl
  | load => simp [hpc] at hstuck
  | wait => exact (h w hpc).elim
  | passed => exact (hw hpc).elim

end

/-! How far all the loops are from their ends. -/

variable [Fintype W]

def ahead (e : Latch W) : Nat := tally Finset.univ (Waiter.ahead e.raised) e.waiters

theorem ahead_store (e : Latch W) : e.store.ahead ≤ e.ahead + Fintype.card W := by
  have hsum := tally_le_add (s := Finset.univ) (p := e.waiters) (q := e.waiters)
    fun w _ => (e.waiters w).ahead_store e.raised
  rwa [Nat.mul_one, Finset.card_univ] at hsum

theorem ahead_wakeAll {e : Latch W} (h : e.raised = true) :
    e.wakeAll.ahead ≤ e.ahead + Fintype.card W := by
  have hraised : e.wakeAll.raised = e.raised := rfl
  have hwoken (w : W) (_ : w ∈ Finset.univ) : Waiter.ahead e.raised (e.wakeAll.waiters w) ≤
      Waiter.ahead e.raised (e.waiters w) + 1 := by
    simp only [wakeAll, h]
    cases e.waiters w <;> decide
  have hsum := tally_le_add hwoken
  rw [Nat.mul_one, Finset.card_univ] at hsum
  rwa [ahead, hraised]

theorem ahead_waitStep [DecidableEq W] {e e' : Latch W} {w : W} (h : e.waitStep w = some e') :
    e'.ahead < e.ahead := by
  obtain ⟨pc, rfl, hpc⟩ := waitStep_cases h
  refine tally_update_lt (Waiter.ahead e.raised) e.waiters (Finset.mem_univ w) ?_
  rcases hpc with ⟨hw, rfl⟩ | ⟨hw, rfl⟩ <;> rw [hw] <;> cases e.raised <;> decide

theorem ahead_check [DecidableEq W] {e e' : Latch W} {w : W} (h : e.check w = some e') :
    e'.ahead < e.ahead := by
  unfold check at h
  cases hw : e.waiters w with
  | wait | asleep | passed => simp [hw] at h
  | load =>
    simp only [hw, Option.some.injEq] at h
    subst h
    refine tally_update_lt (Waiter.ahead e.raised) e.waiters (Finset.mem_univ w) ?_
    rw [hw]
    cases e.raised <;> decide

theorem ahead_wake [DecidableEq W] {e e' : Latch W} {w : W} (h : e.wake w = some e') :
    e'.ahead ≤ e.ahead + 2 := by
  unfold wake at h
  cases hw : e.waiters w with
  | load | wait | passed => simp [hw] at h
  | asleep =>
    simp only [hw, Option.some.injEq] at h
    subst h
    have htally := tally_update (Waiter.ahead e.raised) e.waiters (Finset.mem_univ w) .load
    have hload : Waiter.ahead e.raised .load ≤ 2 := by cases e.raised <;> decide
    simp only [ahead, goto]
    omega

end Latch

end Interleaving
