import ConcurrentProgramming.Interleaving.Machine
import ConcurrentProgramming.Interleaving.Tally

/-!
The pool of stacks. `Allocate` looks into `freed_` under the mutex, but gives it up
before it allocates a new stack, so that stacks may be released in between.
-/

set_option autoImplicit false

namespace ConcurrentProgramming.Fibers
open Interleaving

/-- The stack of a fiber, from `AllocateStack` in the constructor to `ReleaseStack` in
the destructor. -/
inductive FiberStack where
  | unborn
  | allocate
  | allocateNewStack
  | owns (stack : Nat)
  | release (stack : Nat)
  | gone
  deriving DecidableEq, Repr

/-- `AllocatePages` has been called `pages` times. -/
structure StackAllocator (F : Type) where
  freed : List Nat
  pages : Nat
  fibers : F → FiberStack

inductive StackLabel (F : Type) where
  | go (f : F)
  | step (f : F)
  | destroy (f : F)
  deriving DecidableEq, Repr

namespace StackAllocator

def goto {F : Type} [DecidableEq F] (s : StackAllocator F) (f : F) (x : FiberStack) :
    StackAllocator F := { s with fibers := Function.update s.fibers f x }

def allocate {F : Type} [DecidableEq F] (s : StackAllocator F) (f : F) : StackAllocator F :=
  match s.freed.getLast? with
  | none => s.goto f .allocateNewStack
  | some stack => { s.goto f (.owns stack) with freed := s.freed.dropLast }

def step {F : Type} [DecidableEq F] (s : StackAllocator F) :
    StackLabel F → Option (StackAllocator F)
  | .go f =>
    match s.fibers f with
    | .unborn => some (s.goto f .allocate)
    | _ => none
  | .step f =>
    match s.fibers f with
    | .allocate => some (s.allocate f)
    | .allocateNewStack => some { s.goto f (.owns s.pages) with pages := s.pages + 1 }
    | .release stack => some { s.goto f .gone with freed := s.freed ++ [stack] }
    | _ => none
  | .destroy f =>
    match s.fibers f with
    | .owns stack => some (s.goto f (.release stack))
    | _ => none

end StackAllocator

def stackAllocator (F : Type) [DecidableEq F] : Machine (StackAllocator F) (StackLabel F) where
  init := ⟨[], 0, fun _ => .unborn⟩
  step := StackAllocator.step

namespace FiberStack

/-- From the call of `AllocateStack` to the return of `ReleaseStack`. -/
def live : FiberStack → Nat
  | .unborn | .gone => 0
  | _ => 1

def stack : FiberStack → Option Nat
  | .owns stack | .release stack => some stack
  | _ => none

def holding (stack : Nat) (x : FiberStack) : Nat := x.stack.toList.count stack

def held (x : FiberStack) : Nat := x.stack.toList.length

/-- Has found the pool empty. -/
def isNew : FiberStack → Nat
  | .allocateNewStack => 1
  | _ => 0

theorem held_add_isNew_le (x : FiberStack) : x.held + x.isNew ≤ x.live := by
  cases x <;> simp [held, stack, isNew, live]

end FiberStack

namespace StackAllocator

def live {F : Type} [Fintype F] (s : StackAllocator F) : Nat :=
  tally Finset.univ FiberStack.live s.fibers

def held {F : Type} [Fintype F] (s : StackAllocator F) : Nat :=
  tally Finset.univ FiberStack.held s.fibers

def news {F : Type} [Fintype F] (s : StackAllocator F) : Nat :=
  tally Finset.univ FiberStack.isNew s.fibers

/-- The step leaves at most `k` fibers with a stack or on the way to one. -/
def withinPeak {F : Type} [Fintype F] [DecidableEq F] (k : Nat) (s : StackAllocator F)
    (l : StackLabel F) : Bool :=
  (s.step l).any fun t => t.live ≤ k

/-- Every stack is in one place. -/
def Counted {F : Type} [Fintype F] (s : StackAllocator F) : Prop :=
  ∀ stack, s.freed.count stack + tally Finset.univ (FiberStack.holding stack) s.fibers =
    if stack < s.pages then 1 else 0

/-- All stacks there are lie free or are held, and no more are allocated than that. -/
structure Inv {F : Type} [Fintype F] (k : Nat) (s : StackAllocator F) : Prop where
  counted : s.Counted
  total : s.freed.length + s.held = s.pages
  bounded : s.pages + s.news ≤ k

@[simp] theorem goto_freed {F : Type} [DecidableEq F] (s : StackAllocator F) (f : F)
    (x : FiberStack) : (s.goto f x).freed = s.freed := rfl

@[simp] theorem goto_pages {F : Type} [DecidableEq F] (s : StackAllocator F) (f : F)
    (x : FiberStack) : (s.goto f x).pages = s.pages := rfl

theorem held_goto {F : Type} [Fintype F] [DecidableEq F] (s : StackAllocator F) (f : F)
    (x : FiberStack) : (s.goto f x).held + (s.fibers f).held = s.held + x.held :=
  tally_update FiberStack.held s.fibers (Finset.mem_univ f) x

theorem news_goto {F : Type} [Fintype F] [DecidableEq F] (s : StackAllocator F) (f : F)
    (x : FiberStack) : (s.goto f x).news + (s.fibers f).isNew = s.news + x.isNew :=
  tally_update FiberStack.isNew s.fibers (Finset.mem_univ f) x

theorem held_add_news_le {F : Type} [Fintype F] (s : StackAllocator F) :
    s.held + s.news ≤ s.live := by
  rw [held, news, live, tally, tally, tally, ← Finset.sum_add_distrib]
  exact Finset.sum_le_sum fun f _ => (s.fibers f).held_add_isNew_le

/-- One fiber goes on, with the pool. -/
theorem Inv.goto {F : Type} [Fintype F] [DecidableEq F] {k : Nat} {s : StackAllocator F}
    (hs : s.Inv k) {f : F} {x : FiberStack} {freed : List Nat} {pages : Nat}
    (hcounted : ∀ stack, freed.count stack + x.holding stack + (if stack < s.pages then 1 else 0) =
      s.freed.count stack + (s.fibers f).holding stack + if stack < pages then 1 else 0)
    (htotal : freed.length + x.held + s.pages = s.freed.length + (s.fibers f).held + pages)
    (hbounded : pages + (s.goto f x).news ≤ k) :
    ({ s.goto f x with freed := freed, pages := pages } : StackAllocator F).Inv k := by
  refine ⟨fun stack => ?_, ?_, hbounded⟩
  · have htally := tally_update (FiberStack.holding stack) s.fibers (Finset.mem_univ f) x
    have hbefore := hs.counted stack
    have hstep := hcounted stack
    simp only [StackAllocator.goto]
    omega
  · have hheld := s.held_goto f x
    have hbefore := hs.total
    show freed.length + (s.goto f x).held = pages
    omega

/-- A step after which no more stacks are on order than before. -/
theorem Inv.bounded_goto {F : Type} [Fintype F] [DecidableEq F] {k : Nat} {s : StackAllocator F}
    (hs : s.Inv k) {f : F} {x : FiberStack} {pages : Nat}
    (h : pages + x.isNew ≤ s.pages + (s.fibers f).isNew) : pages + (s.goto f x).news ≤ k := by
  have hnews := s.news_goto f x
  have hbefore := hs.bounded
  omega

/-- Where the pool is empty the fibers hold all stacks there are, and the one that
finds it so holds none. -/
theorem Inv.bounded_allocate {F : Type} [Fintype F] [DecidableEq F] {k : Nat}
    {s : StackAllocator F} (hs : s.Inv k) {f : F} (hf : s.fibers f = .allocate)
    (hempty : s.freed = []) (hpeak : (s.goto f .allocateNewStack).live ≤ k) :
    s.pages + (s.goto f .allocateNewStack).news ≤ k := by
  have hheld := s.held_goto f .allocateNewStack
  have hle := (s.goto f .allocateNewStack).held_add_news_le
  have htotal : s.held = s.pages := by simpa [hempty] using hs.total
  have hnone : (s.fibers f).held = 0 := by rw [hf]; rfl
  have hnew : FiberStack.allocateNewStack.held = 0 := rfl
  omega

theorem Inv.allocate {F : Type} [Fintype F] [DecidableEq F] {k : Nat} {s : StackAllocator F}
    (hs : s.Inv k) {f : F} (hf : s.fibers f = .allocate) (hpeak : (s.allocate f).live ≤ k) :
    (s.allocate f).Inv k := by
  unfold StackAllocator.allocate at hpeak ⊢
  cases hlast : s.freed.getLast? with
  | none =>
    have hempty : s.freed = [] := List.getLast?_eq_none_iff.mp hlast
    simp only [hlast] at hpeak
    exact hs.goto (fun stack => by rw [hf]; rfl) (by rw [hf]; rfl)
      (hs.bounded_allocate hf hempty hpeak)
  | some stack =>
    have hfreed : s.freed = s.freed.dropLast ++ [stack] :=
      (List.dropLast_append_getLast? stack hlast).symm
    refine hs.goto (fun other => ?_) ?_ (hs.bounded_goto (by rw [hf]; rfl))
    · rw [hf]
      conv => rhs; rw [hfreed]
      simp [FiberStack.holding, FiberStack.stack, List.count_append]
      rfl
    · rw [hf]
      conv => rhs; rw [hfreed]
      simp [FiberStack.held, FiberStack.stack]

theorem Inv.step {F : Type} [Fintype F] [DecidableEq F] {k : Nat} {s t : StackAllocator F}
    (hs : s.Inv k) {l : StackLabel F} (h : s.step l = some t) (hpeak : t.live ≤ k) : t.Inv k := by
  cases l with
  | go f =>
    cases hf : s.fibers f <;> simp only [StackAllocator.step, hf, reduceCtorEq, Option.some.injEq] at h
    subst h
    exact hs.goto (fun stack => by rw [hf]; rfl) (by rw [hf]; rfl)
      (hs.bounded_goto (by rw [hf]; rfl))
  | destroy f =>
    cases hf : s.fibers f <;> simp only [StackAllocator.step, hf, reduceCtorEq, Option.some.injEq] at h
    subst h
    exact hs.goto (fun stack => by rw [hf]; rfl) (by rw [hf]; rfl)
      (hs.bounded_goto (by rw [hf]; rfl))
  | step f =>
    cases hf : s.fibers f <;> simp only [StackAllocator.step, hf, reduceCtorEq, Option.some.injEq] at h
    · subst h
      exact hs.allocate hf hpeak
    · subst h
      refine hs.goto (fun stack => ?_) ?_ (hs.bounded_goto (by rw [hf]; rfl))
      · rw [hf]
        simp only [FiberStack.holding, FiberStack.stack, Option.toList_some, Option.toList_none,
          List.count_singleton, List.count_nil, goto_freed]
        grind
      · rw [hf]
        simp only [FiberStack.held, FiberStack.stack, Option.toList_some, Option.toList_none,
          List.length_singleton, List.length_nil, goto_freed]
        omega
    · subst h
      refine hs.goto (fun stack => ?_) ?_ (hs.bounded_goto (by rw [hf]; rfl))
      · rw [hf]
        simp [FiberStack.holding, FiberStack.stack, List.count_append]
        rfl
      · rw [hf]
        simp [FiberStack.held, FiberStack.stack]

end StackAllocator

/-- Runs in which at most `k` fibers have a stack, or are on the way to one or from
it, at any time. -/
def peakedAllocator (F : Type) [Fintype F] [DecidableEq F] (k : Nat) :
    Machine (StackAllocator F) (StackLabel F) :=
  (stackAllocator F).guard (StackAllocator.withinPeak k)

theorem peakedAllocator_inv {F : Type} [Fintype F] [DecidableEq F] {k : Nat}
    {s : StackAllocator F} (h : (peakedAllocator F k).Reachable s) : s.Inv k := by
  apply h.invariant
  · refine ⟨fun stack => ?_, ?_, ?_⟩
    · simp [peakedAllocator, stackAllocator, tally, FiberStack.holding, FiberStack.stack]
    · simp [peakedAllocator, stackAllocator, StackAllocator.held, tally, FiberStack.held,
        FiberStack.stack]
    · simp [peakedAllocator, stackAllocator, StackAllocator.news, tally, FiberStack.isNew]
  · intro s l t _ hs ht
    obtain ⟨hpeak, hstep⟩ := Machine.guard_step.mp ht
    refine hs.step hstep ?_
    rw [StackAllocator.withinPeak, show s.step l = some t from hstep] at hpeak
    simpa using hpeak

/-- Every stack that there is has one place, and no other stack has any. -/
theorem StackAllocator.Counted.unique {F : Type} [Fintype F] [DecidableEq F]
    {s : StackAllocator F} (hs : s.Counted) {f g : F} {stack : Nat}
    (hf : (s.fibers f).stack = some stack) : stack ∉ s.freed ∧
      ((s.fibers g).stack = some stack → f = g) := by
  have hcounted := hs stack
  have hone : (s.fibers f).holding stack = 1 := by simp [FiberStack.holding, hf]
  have hle := le_tally (FiberStack.holding stack) s.fibers (Finset.mem_univ f)
  refine ⟨fun hmem => ?_, fun hg => ?_⟩
  · have hpos := List.count_pos_iff.mpr hmem
    split at hcounted <;> omega
  · by_contra hne
    -- with `f` without its stack, `g` would still have it
    have htally := tally_update (FiberStack.holding stack) s.fibers (Finset.mem_univ f) .gone
    have hgone : FiberStack.gone.holding stack = 0 := rfl
    have hother := le_tally (FiberStack.holding stack) (Function.update s.fibers f .gone)
      (Finset.mem_univ g)
    rw [Function.update_of_ne (Ne.symm hne)] at hother
    have honeg : (s.fibers g).holding stack = 1 := by simp [FiberStack.holding, hg]
    split at hcounted <;> omega

/-- There are never more stacks than there were fibers at the busiest time; every
stack lies in the pool or is held by one fiber, and none is lost. -/
theorem stackAllocator_reuses {F : Type} [Fintype F] [DecidableEq F] {k : Nat}
    {s : StackAllocator F} (h : (peakedAllocator F k).Reachable s) :
    s.pages ≤ k ∧ s.freed.Nodup ∧
    (∀ f g stack, (s.fibers f).stack = some stack → stack ∉ s.freed ∧
      ((s.fibers g).stack = some stack → f = g)) ∧
    ∀ stack < s.pages, stack ∈ s.freed ∨ ∃ f, (s.fibers f).stack = some stack := by
  have hs := peakedAllocator_inv h
  refine ⟨?_, List.nodup_iff_count_le_one.mpr fun stack => ?_, fun f g stack hf =>
    hs.counted.unique hf, fun stack hstack => ?_⟩
  · have hbounded := hs.bounded
    omega
  · have hcounted := hs.counted stack
    split at hcounted <;> omega
  · by_contra hlost
    simp only [not_or, not_exists] at hlost
    have hcounted := hs.counted stack
    have hfree : s.freed.count stack = 0 := List.count_eq_zero.mpr hlost.1
    have hheld : tally Finset.univ (FiberStack.holding stack) s.fibers = 0 :=
      tally_eq_zero.mpr fun f _ => by
        rw [FiberStack.holding, List.count_eq_zero, Option.mem_toList]
        exact hlost.2 f
    rw [if_pos hstack] at hcounted
    omega

/-- Fiber 2 gets the stack of fiber 0, after both others have had one at a time. -/
theorem stackAllocator_reuses_freed : ∃ s : StackAllocator (Fin 3),
    (peakedAllocator (Fin 3) 2).Reachable s ∧ s.fibers 2 = .owns 0 ∧ s.pages ≤ 2 := by
  obtain ⟨s, hreach, hs⟩ := (peakedAllocator (Fin 3) 2).exists_reachable_of_exec
    [.go 0, .go 1, .step 0, .step 1, .step 0, .step 1, .destroy 0, .step 0, .go 2, .step 2]
    (p := fun s => s.fibers 2 = .owns 0) (by decide)
  exact ⟨s, hreach, of_decide_eq_true hs, (stackAllocator_reuses hreach).1⟩

end ConcurrentProgramming.Fibers
