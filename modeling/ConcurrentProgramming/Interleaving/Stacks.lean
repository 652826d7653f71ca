import Mathlib.Algebra.GroupWithZero.Nat
import Mathlib.Data.List.Basic

/-!
Threads with a stack of calls each, innermost call first. What is counted over all
frames of all threads changes by the frames that one thread pushes and pops.
-/

set_option autoImplicit false

namespace Interleaving

universe u v

/-- The weight of a stack. -/
def stackLoad {F : Type u} (w : F → Nat) (stack : List F) : Nat := (stack.map w).sum

/-- The weight of all frames. -/
def load {F : Type u} (w : F → Nat) (threads : List (List F)) : Nat :=
  (threads.map (stackLoad w)).sum

@[simp] theorem stackLoad_nil {F : Type u} (w : F → Nat) : stackLoad w [] = 0 := rfl

@[simp] theorem stackLoad_cons {F : Type u} (w : F → Nat) (f : F) (stack : List F) :
    stackLoad w (f :: stack) = w f + stackLoad w stack := List.sum_cons

@[simp] theorem load_nil {F : Type u} (w : F → Nat) : load w [] = 0 := rfl

@[simp] theorem load_cons {F : Type u} (w : F → Nat) (stack : List F) (threads : List (List F)) :
    load w (stack :: threads) = stackLoad w stack + load w threads := List.sum_cons

@[simp] theorem load_spawn {F : Type u} (w : F → Nat) (threads : List (List F)) (stack : List F) :
    load w (threads ++ [stack]) = load w threads + stackLoad w stack := by
  simp [load]

theorem load_set {F : Type u} (w : F → Nat) {threads : List (List F)} {i : Nat} {stack : List F}
    (h : threads[i]? = some stack) (stack' : List F) :
    load w (threads.set i stack') + stackLoad w stack = load w threads + stackLoad w stack' := by
  induction threads generalizing i with
  | nil => simp at h
  | cons first threads ih =>
    cases i with
    | zero =>
      obtain rfl : first = stack := by simpa using h
      simp only [List.set_cons_zero, load_cons]
      omega
    | succ i =>
      have hset := ih (by simpa using h)
      simp only [List.set_cons_succ, load_cons]
      omega

theorem stackLoad_eq_zero {F : Type u} {w : F → Nat} {stack : List F} :
    stackLoad w stack = 0 ↔ ∀ f ∈ stack, w f = 0 := by
  induction stack with
  | nil => simp
  | cons f stack ih => simp [ih]

theorem load_eq_zero {F : Type u} {w : F → Nat} {threads : List (List F)} :
    load w threads = 0 ↔ ∀ stack ∈ threads, ∀ f ∈ stack, w f = 0 := by
  induction threads with
  | nil => simp
  | cons stack threads ih => simp [ih, stackLoad_eq_zero]

def OnStack {F : Type u} (f : F) (threads : List (List F)) : Prop := ∃ stack ∈ threads, f ∈ stack

theorem load_eq_zero_iff {F : Type u} {w : F → Nat} {threads : List (List F)} :
    load w threads = 0 ↔ ∀ f, OnStack f threads → w f = 0 := by
  rw [load_eq_zero]
  exact ⟨fun h f ⟨stack, hstack, hf⟩ => h stack hstack f hf,
    fun h stack hstack f hf => h f ⟨stack, hstack, hf⟩⟩

/-- How many frames have the key `k`. -/
def frameCount {F : Type u} {K : Type v} [DecidableEq K] (key : F → Option K) (k : K)
    (threads : List (List F)) : Nat := load (fun f => if key f = some k then 1 else 0) threads

section
variable {F : Type u} {K : Type v} [DecidableEq K] {key : F → Option K} {k : K}
  {threads threads' : List (List F)} {popped pushed stack : List F} {f : F}

theorem stackCount_eq_zero (h : ∀ f ∈ stack, key f ≠ some k) :
    stackLoad (fun f => if key f = some k then 1 else 0) stack = 0 :=
  stackLoad_eq_zero.mpr fun f hf => if_neg (h f hf)

theorem frameCount_eq_zero (h : ∀ f, OnStack f threads → key f ≠ some k) :
    frameCount key k threads = 0 :=
  load_eq_zero_iff.mpr fun f hf => if_neg (h f hf)

theorem frameCount_pos (hf : OnStack f threads) (hk : key f = some k) :
    0 < frameCount key k threads :=
  Nat.pos_of_ne_zero fun hzero => by
    have := load_eq_zero_iff.mp hzero f hf
    simp [hk] at this

end

/-- Some frames have been popped and others pushed, by whichever threads. -/
structure Swapped {F : Type u} (popped pushed : List F) (threads threads' : List (List F)) :
    Prop where
  load : ∀ w : F → Nat, load w threads' + stackLoad w popped = load w threads + stackLoad w pushed
  mem : ∀ f, OnStack f threads' → OnStack f threads ∨ f ∈ pushed

namespace Swapped

theorem rfl {F : Type u} {threads : List (List F)} : Swapped [] [] threads threads :=
  ⟨fun _ => .refl _, fun _ h => .inl h⟩

/-- One thread replaces the top of its stack. -/
theorem top {F : Type u} {threads : List (List F)} {i : Nat} {popped stack : List F}
    (h : threads[i]? = some (popped ++ stack)) (pushed : List F) :
    Swapped popped pushed threads (threads.set i (pushed ++ stack)) := by
  refine ⟨fun w => ?_, fun f ⟨st, hst, hf⟩ => ?_⟩
  · have hset := load_set w h (pushed ++ stack)
    simp only [stackLoad, List.map_append, List.sum_append] at hset ⊢
    omega
  · rcases List.mem_or_eq_of_mem_set hst with hst | rfl
    · exact .inl ⟨st, hst, hf⟩
    · rcases List.mem_append.mp hf with hf | hf
      · exact .inr hf
      · exact .inl ⟨_, List.mem_of_getElem? h, List.mem_append_right _ hf⟩

theorem push {F : Type u} {threads : List (List F)} {i : Nat} {stack : List F}
    (h : threads[i]? = some stack) (pushed : List F) :
    Swapped [] pushed threads (threads.set i (pushed ++ stack)) :=
  top (by simpa using h) pushed

theorem spawn {F : Type u} (threads : List (List F)) (stack : List F) :
    Swapped [] stack threads (threads ++ [stack]) := by
  refine ⟨fun w => by simp, fun f ⟨st, hst, hf⟩ => ?_⟩
  rcases List.mem_append.mp hst with hst | hst
  · exact .inl ⟨st, hst, hf⟩
  · rw [List.mem_singleton.mp hst] at hf
    exact .inr hf

theorem trans {F : Type u} {popped pushed popped' pushed' : List F}
    {threads threads' threads'' : List (List F)} (h : Swapped popped pushed threads threads')
    (h' : Swapped popped' pushed' threads' threads'') :
    Swapped (popped ++ popped') (pushed ++ pushed') threads threads'' := by
  refine ⟨fun w => ?_, fun f hf => ?_⟩
  · have := h.load w
    have := h'.load w
    simp only [stackLoad, List.map_append, List.sum_append] at *
    omega
  · rcases h'.mem f hf with hf | hf
    · exact (h.mem f hf).imp_right (List.mem_append_left _)
    · exact .inr (List.mem_append_right _ hf)

section
variable {F : Type u} {K : Type v} [DecidableEq K] {key : F → Option K} {k : K}
  {threads threads' : List (List F)} {popped pushed : List F} {f : F}

theorem frameCount_add (h : Swapped popped pushed threads threads')
    (hpopped : ∀ f ∈ popped, key f ≠ some k) : frameCount key k threads' =
      frameCount key k threads + stackLoad (fun f => if key f = some k then 1 else 0) pushed := by
  have hcount := h.load fun f => if key f = some k then 1 else 0
  rw [stackCount_eq_zero hpopped] at hcount
  exact hcount

theorem frameCount_eq (h : Swapped popped pushed threads threads')
    (hpopped : ∀ f ∈ popped, key f ≠ some k) (hpushed : ∀ f ∈ pushed, key f ≠ some k) :
    frameCount key k threads' = frameCount key k threads := by
  rw [h.frameCount_add hpopped, stackCount_eq_zero hpushed, Nat.add_zero]

theorem frameCount_pos (h : Swapped popped pushed threads threads')
    (hpopped : ∀ f ∈ popped, key f ≠ some k) (hf : f ∈ pushed) (hk : key f = some k) :
    0 < frameCount key k threads' := by
  have hne : stackLoad (fun f => if key f = some k then 1 else 0) pushed ≠ 0 := fun hzero => by
    have := stackLoad_eq_zero.mp hzero f hf
    simp [hk] at this
  rw [h.frameCount_add hpopped]
  omega

/-- One frame comes, and none goes. -/
theorem frameCount_pushed (h : Swapped [] [f] threads threads') :
    frameCount key k threads' = frameCount key k threads + if key f = some k then 1 else 0 := by
  rw [h.frameCount_add nofun, stackLoad_cons, stackLoad_nil, Nat.add_zero]

/-- One frame goes, and none with this key comes. -/
theorem frameCount_popped (h : Swapped [f] pushed threads threads')
    (hpushed : ∀ f ∈ pushed, key f ≠ some k) :
    frameCount key k threads' + (if key f = some k then 1 else 0) = frameCount key k threads := by
  have hcount := h.load fun f => if key f = some k then 1 else 0
  rw [stackCount_eq_zero hpushed, stackLoad_cons, stackLoad_nil] at hcount
  exact hcount

end

end Swapped

end Interleaving
