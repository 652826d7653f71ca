import Mathlib.Data.List.Basic

/-!
`FutexLike` at the granularity of its `lock_`-protected sections. A waiter is
named by its fiber: the `FutexAwaiter` lives on that fiber's stack, so a fiber
has at most one of them at a time.
-/

set_option autoImplicit false

namespace ConcurrentProgramming.Fibers

structure FutexLike (F : Type) where
  queue : List F
  deriving DecidableEq, Repr

/-- The section of `FutexAwaiter::AwaitSuspend`, run by the worker after the
fiber has switched off. `equal` is the outcome of comparing the cell with the
old value; the second component says that the fiber rescheduled itself. -/
def FutexLike.awaitSuspend {F : Type} [DecidableEq F] (x : FutexLike F) (f : F)
    (equal : Bool) : FutexLike F × Bool :=
  let pushed := x.queue ++ [f]
  if equal then (⟨pushed⟩, false) else (⟨pushed.erase f⟩, true)

/-- The section of `WakeOne`: the fiber whose awaiter was popped, if any. -/
def FutexLike.wakeOne {F : Type} (x : FutexLike F) : FutexLike F × Option F :=
  match x.queue with
  | [] => (x, none)
  | f :: rest => (⟨rest⟩, some f)

/-- The section of `WakeAll`: the popped fibers in the order of their wake-ups. -/
def FutexLike.wakeAll {F : Type} (x : FutexLike F) : FutexLike F × List F :=
  (⟨[]⟩, x.queue)

/-- Where a fiber is inside `ParkIfEqual`. -/
inductive ParkIfEqual where
  | setAwaiter
  | awaitSuspend
  | parked
  | scheduled
  | relock
  deriving DecidableEq, Repr

theorem FutexLike.awaitSuspend_equal {F : Type} [DecidableEq F] (x : FutexLike F) (f : F) :
    x.awaitSuspend f true = (⟨x.queue ++ [f]⟩, false) := rfl

theorem FutexLike.awaitSuspend_changed {F : Type} [DecidableEq F] {x : FutexLike F} {f : F}
    (hf : f ∉ x.queue) : x.awaitSuspend f false = (x, true) := by
  simp [awaitSuspend, List.erase_append_right _ hf]

end ConcurrentProgramming.Fibers
