import ConcurrentProgramming.Interleaving.Machine
import ConcurrentProgramming.Interleaving.Tally
import ConcurrentProgramming.Fibers.WaitGroup

/-!
A `WaitGroup` that any number of threads use at once, with one fiber in `Wait`.
The sections of `done_wait_` are taken apart: `lock_` has a holder, and the thread
that runs `AwaitSuspend` goes on beside the fiber that it has scheduled.
-/

set_option autoImplicit false

namespace ConcurrentProgramming.Fibers
open Interleaving

/-- A call of `Done`; `lock` to `unlock` are its `WakeAll`. -/
inductive DonePc where
  | useBegin
  | assert
  | fetchSub
  | storeDone
  | lock
  | pop
  | awake
  | unlock
  | useEnd
  deriving DecidableEq, Repr

inductive GroupCall where
  | idle
  | add (count : Nat) (pc : Add)
  | done (pc : DonePc)
  deriving DecidableEq, Repr

/-- The fiber in `Wait`; `lock` to `leave` are its `ParkIfEqual`. -/
inductive Waiter where
  | notCalled
  | load
  | lock
  | setAwaiter
  | unlock
  | suspend
  | suspended
  | scheduled
  | relock
  | leave
  | spin
  | returned
  deriving DecidableEq, Repr

/-- The thread that runs `AwaitSuspend` for the fiber. -/
inductive Suspender where
  | idle
  | lock
  | push
  | compare
  | unlink
  | schedule
  | unlock
  deriving DecidableEq, Repr

inductive LockOwner (ι : Type) where
  | caller (i : ι)
  | waiter
  | suspender
  deriving DecidableEq, Repr

structure SharedGroup (ι : Type) where
  tasks : Int
  isDone : Bool
  using_ : Nat
  queue : List Unit
  lock : Option (LockOwner ι)
  calls : ι → GroupCall
  waiter : Waiter
  suspender : Suspender

inductive SharedGroupLabel (ι : Type) where
  | add (i : ι) (count : Nat)
  | done (i : ι)
  | step (i : ι)
  | callWait
  | wait
  | suspend
  deriving DecidableEq, Repr

namespace SharedGroup

def goto {ι : Type} [DecidableEq ι] (s : SharedGroup ι) (i : ι) (c : GroupCall) :
    SharedGroup ι := { s with calls := Function.update s.calls i c }

def useBegin {ι : Type} (s : SharedGroup ι) : SharedGroup ι :=
  { s with using_ := (s.using_ + 1) % 2 ^ 64 }

def useEnd {ι : Type} (s : SharedGroup ι) : SharedGroup ι :=
  { s with using_ := if s.using_ = 0 then 2 ^ 64 - 1 else s.using_ - 1 }

/-- `lock_` is taken when it is free. -/
def acquire {ι : Type} (s : SharedGroup ι) (owner : LockOwner ι) : Option (SharedGroup ι) :=
  match s.lock with
  | none => some { s with lock := some owner }
  | some _ => none

def release {ι : Type} (s : SharedGroup ι) : SharedGroup ι := { s with lock := none }

/-- `handle_.Schedule()`. -/
def schedule {ι : Type} (s : SharedGroup ι) : SharedGroup ι := { s with waiter := .scheduled }

def addStep {ι : Type} [DecidableEq ι] (s : SharedGroup ι) (i : ι) (count : Nat) :
    Add → SharedGroup ι
  | .useBegin => s.useBegin.goto i (.add count .load)
  | .load => s.goto i (.add count
      (if s.tasks = 0 ∧ count ≠ 0 then .clear s.tasks else .fetchAdd s.tasks))
  | .clear prev => { s.goto i (.add count (.fetchAdd prev)) with isDone := false }
  | .fetchAdd _ => { s.goto i (.add count .useEnd) with tasks := int64 (s.tasks + count) }
  | .useEnd => s.useEnd.goto i .idle

/-- `none` is the failed assertion, or a lock that is taken. -/
def doneStep {ι : Type} [DecidableEq ι] (s : SharedGroup ι) (i : ι) :
    DonePc → Option (SharedGroup ι)
  | .useBegin => some (s.useBegin.goto i (.done .assert))
  | .assert => if 0 < s.tasks then some (s.goto i (.done .fetchSub)) else none
  | .fetchSub =>
    some { s.goto i (.done (if s.tasks = 1 then .storeDone else .useEnd)) with
      tasks := int64 (s.tasks - 1) }
  | .storeDone => some { s.goto i (.done .lock) with isDone := true }
  | .lock => (s.acquire (.caller i)).map (·.goto i (.done .pop))
  | .pop =>
    some (match s.queue with
      | [] => s.goto i (.done .unlock)
      | _ :: rest => { s.goto i (.done .awake) with queue := rest })
  | .awake => some (s.schedule.goto i (.done .pop))
  | .unlock => some (s.release.goto i (.done .useEnd))
  | .useEnd => some (s.useEnd.goto i .idle)

def callStep {ι : Type} [DecidableEq ι] (s : SharedGroup ι) (i : ι) : Option (SharedGroup ι) :=
  match s.calls i with
  | .idle => none
  | .add count pc => some (s.addStep i count pc)
  | .done pc => s.doneStep i pc

def waitStep {ι : Type} (s : SharedGroup ι) : Option (SharedGroup ι) :=
  match s.waiter with
  | .notCalled | .suspended | .returned => none
  | .load => some { s with waiter := if s.isDone then .spin else .lock }
  | .lock => (s.acquire .waiter).map fun s => { s with waiter := .setAwaiter }
  | .setAwaiter => some { s with waiter := .unlock }
  | .unlock => some { s.release with waiter := .suspend }
  | .suspend => some { s with waiter := .suspended, suspender := .lock }
  | .scheduled => some { s with waiter := .relock }
  | .relock => (s.acquire .waiter).map fun s => { s with waiter := .leave }
  | .leave => some { s.release with queue := s.queue.erase (), waiter := .load }
  | .spin => some { s with waiter := if s.using_ = 0 then .returned else .spin }

def suspendStep {ι : Type} (s : SharedGroup ι) : Option (SharedGroup ι) :=
  match s.suspender with
  | .idle => none
  | .lock => (s.acquire .suspender).map fun s => { s with suspender := .push }
  | .push => some { s with queue := s.queue ++ [()], suspender := .compare }
  | .compare => some { s with suspender := if s.isDone ≠ false then .unlink else .unlock }
  | .unlink => some { s with queue := s.queue.erase (), suspender := .schedule }
  | .schedule => some { s.schedule with suspender := .unlock }
  | .unlock => some { s.release with suspender := .idle }

/-- `count` is a `size_t`. -/
def step {ι : Type} [DecidableEq ι] (s : SharedGroup ι) :
    SharedGroupLabel ι → Option (SharedGroup ι)
  | .add i count =>
    if s.calls i = .idle ∧ count < 2 ^ 64 then some (s.goto i (.add count .useBegin)) else none
  | .done i => if s.calls i = .idle then some (s.goto i (.done .useBegin)) else none
  | .step i => s.callStep i
  | .callWait =>
    match s.waiter with
    | .notCalled => some { s with waiter := .load }
    | _ => none
  | .wait => s.waitStep
  | .suspend => s.suspendStep

end SharedGroup

def sharedGroup (ι : Type) [DecidableEq ι] : Machine (SharedGroup ι) (SharedGroupLabel ι) where
  init := ⟨0, false, 0, [], none, fun _ => .idle, .notCalled, .idle⟩
  step := SharedGroup.step

namespace SharedGroup

theorem acquire_eq {ι : Type} {s t : SharedGroup ι} {owner : LockOwner ι}
    (h : s.acquire owner = some t) : s.lock = none ∧ t = { s with lock := some owner } := by
  unfold acquire at h
  split at h
  · rename_i hfree
    exact ⟨hfree, (Option.some.inj h).symm⟩
  · cases h

/-- What the fiber in `Wait` and the thread that suspends it leave alone. -/
structure Counters {ι : Type} (s t : SharedGroup ι) : Prop where
  tasks : t.tasks = s.tasks
  isDone : t.isDone = s.isDone
  using_ : t.using_ = s.using_
  calls : t.calls = s.calls

theorem waitStep_counters {ι : Type} {s t : SharedGroup ι} (h : s.waitStep = some t) :
    s.Counters t := by
  unfold waitStep at h
  cases hw : s.waiter with
  | notCalled | suspended | returned => simp [hw] at h
  | lock | relock =>
    simp only [hw] at h
    obtain ⟨u, hu, rfl⟩ := Option.map_eq_some_iff.mp h
    obtain ⟨-, rfl⟩ := acquire_eq hu
    exact ⟨rfl, rfl, rfl, rfl⟩
  | _ =>
    simp only [hw, Option.some.injEq] at h
    subst h
    exact ⟨rfl, rfl, rfl, rfl⟩

theorem suspendStep_counters {ι : Type} {s t : SharedGroup ι} (h : s.suspendStep = some t) :
    s.Counters t := by
  unfold suspendStep at h
  cases hw : s.suspender with
  | idle => simp [hw] at h
  | lock =>
    simp only [hw] at h
    obtain ⟨u, hu, rfl⟩ := Option.map_eq_some_iff.mp h
    obtain ⟨-, rfl⟩ := acquire_eq hu
    exact ⟨rfl, rfl, rfl, rfl⟩
  | _ =>
    simp only [hw, Option.some.injEq] at h
    subst h
    exact ⟨rfl, rfl, rfl, rfl⟩

def Quiet {ι : Type} (s : SharedGroup ι) : Prop := ∀ i, s.calls i = .idle

end SharedGroup

/-! `using_` counts the calls that have begun to use the group. -/

def Add.uses : Add → Nat
  | .useBegin => 0
  | .load | .clear _ | .fetchAdd _ | .useEnd => 1

def DonePc.uses : DonePc → Nat
  | .useBegin => 0
  | .assert | .fetchSub | .storeDone | .lock | .pop | .awake | .unlock | .useEnd => 1

def GroupCall.uses : GroupCall → Nat
  | .idle => 0
  | .add _ pc => pc.uses
  | .done pc => pc.uses

namespace SharedGroup

def Uses {ι : Type} [Fintype ι] (s : SharedGroup ι) : Prop :=
  s.using_ = tally Finset.univ GroupCall.uses s.calls % 2 ^ 64

/-- The calls that neither begin nor end. -/
theorem Uses.same {ι : Type} [Fintype ι] [DecidableEq ι] {s t : SharedGroup ι} (hs : s.Uses)
    {i : ι} {c : GroupCall} (hcalls : t.calls = Function.update s.calls i c)
    (husing : t.using_ = s.using_) (hc : c.uses = (s.calls i).uses) : t.Uses := by
  unfold Uses
  rw [hcalls, husing, tally_update_of_eq _ _ hc]
  exact hs

theorem Uses.begins {ι : Type} [Fintype ι] [DecidableEq ι] {s : SharedGroup ι} (hs : s.Uses)
    {i : ι} {c : GroupCall} (hi : (s.calls i).uses = 0) (hc : c.uses = 1) :
    (s.useBegin.goto i c).Uses := by
  have htally := tally_update GroupCall.uses s.calls (Finset.mem_univ i) c
  unfold Uses at hs ⊢
  simp only [useBegin, goto]
  omega

theorem Uses.ends {ι : Type} [Fintype ι] [DecidableEq ι] {s : SharedGroup ι} (hs : s.Uses)
    {i : ι} (hi : (s.calls i).uses = 1) : (s.useEnd.goto i .idle).Uses := by
  have htally := tally_update GroupCall.uses s.calls (Finset.mem_univ i) .idle
  have hidle : GroupCall.uses .idle = 0 := rfl
  unfold Uses at hs ⊢
  simp only [useEnd, goto]
  split <;> omega

theorem Uses.addStep {ι : Type} [Fintype ι] [DecidableEq ι] {s : SharedGroup ι} (hs : s.Uses)
    {i : ι} {count : Nat} {pc : Add} (hi : s.calls i = .add count pc) :
    (s.addStep i count pc).Uses := by
  cases pc with
  | useBegin => exact hs.begins (by rw [hi]; rfl) rfl
  | load =>
    refine hs.same rfl rfl ?_
    rw [hi]
    show Add.uses (if _ then _ else _) = 1
    split <;> rfl
  | clear prev | fetchAdd prev => exact hs.same rfl rfl (by rw [hi]; rfl)
  | useEnd => exact hs.ends (by rw [hi]; rfl)

theorem Uses.doneStep {ι : Type} [Fintype ι] [DecidableEq ι] {s t : SharedGroup ι} (hs : s.Uses)
    {i : ι} {pc : DonePc} (hi : s.calls i = .done pc) (h : s.doneStep i pc = some t) :
    t.Uses := by
  unfold SharedGroup.doneStep at h
  cases pc with
  | useBegin =>
    obtain rfl := Option.some.inj h
    exact hs.begins (by rw [hi]; rfl) rfl
  | assert =>
    simp only [Option.ite_none_right_eq_some, Option.some.injEq] at h
    obtain ⟨-, rfl⟩ := h
    exact hs.same rfl rfl (by rw [hi]; rfl)
  | fetchSub =>
    obtain rfl := Option.some.inj h
    refine hs.same rfl rfl ?_
    rw [hi]
    show DonePc.uses (if _ then _ else _) = 1
    split <;> rfl
  | storeDone | awake | unlock =>
    obtain rfl := Option.some.inj h
    exact hs.same rfl rfl (by rw [hi]; rfl)
  | lock =>
    obtain ⟨u, hu, rfl⟩ := Option.map_eq_some_iff.mp h
    obtain ⟨-, rfl⟩ := acquire_eq hu
    exact hs.same rfl rfl (by rw [hi]; rfl)
  | pop =>
    obtain rfl := Option.some.inj h
    split <;> exact hs.same rfl rfl (by rw [hi]; rfl)
  | useEnd =>
    obtain rfl := Option.some.inj h
    exact hs.ends (by rw [hi]; rfl)

theorem Uses.counters {ι : Type} [Fintype ι] {s t : SharedGroup ι} (hs : s.Uses)
    (h : s.Counters t) : t.Uses := by
  unfold Uses
  rw [h.using_, h.calls]
  exact hs

theorem callWait_eq {ι : Type} [DecidableEq ι] {s t : SharedGroup ι}
    (h : s.step .callWait = some t) : s.waiter = .notCalled ∧ t = { s with waiter := .load } := by
  simp only [step] at h
  split at h
  · rename_i hw
    exact ⟨hw, (Option.some.inj h).symm⟩
  · cases h

theorem Uses.step {ι : Type} [Fintype ι] [DecidableEq ι] {s t : SharedGroup ι} (hs : s.Uses)
    {l : SharedGroupLabel ι} (h : s.step l = some t) : t.Uses := by
  cases l with
  | add i count | done i =>
    simp only [SharedGroup.step, Option.ite_none_right_eq_some, Option.some.injEq] at h
    obtain ⟨hi, rfl⟩ := h
    exact hs.same rfl rfl (by simp [hi, GroupCall.uses, Add.uses, DonePc.uses])
  | step i =>
    simp only [SharedGroup.step, callStep] at h
    cases hi : s.calls i with
    | idle => simp [hi] at h
    | add count pc =>
      simp only [hi, Option.some.injEq] at h
      exact h ▸ hs.addStep hi
    | done pc =>
      simp only [hi] at h
      exact hs.doneStep hi h
  | callWait =>
    obtain ⟨-, rfl⟩ := callWait_eq h
    exact hs.counters ⟨rfl, rfl, rfl, rfl⟩
  | wait => exact hs.counters (waitStep_counters h)
  | suspend => exact hs.counters (suspendStep_counters h)

end SharedGroup

theorem sharedGroup_uses {ι : Type} [Fintype ι] [DecidableEq ι] {s : SharedGroup ι}
    (h : (sharedGroup ι).Reachable s) : s.Uses := by
  refine h.invariant ?_ fun _ _ _ _ hs hl => hs.step hl
  simp [SharedGroup.Uses, sharedGroup, tally, GroupCall.uses]

/-- With no call in progress nobody uses the group. -/
theorem SharedGroup.Uses.quiet {ι : Type} [Fintype ι] {s : SharedGroup ι} (hs : s.Uses)
    (hquiet : s.Quiet) : s.using_ = 0 := by
  have hnone : tally Finset.univ GroupCall.uses s.calls = 0 :=
    tally_eq_zero.mpr fun i _ => by rw [hquiet i]; rfl
  rw [hs, hnone, Nat.zero_mod]

end ConcurrentProgramming.Fibers
