import ConcurrentProgramming.Interleaving.Machine

/-!
What a serial FIFO executor is for: tasks are accepted one by one, one task runs
at a time, and the next to run is the oldest that was accepted and not yet run.
-/

set_option autoImplicit false

namespace Interleaving

universe u

structure SerialExecutor (T : Type u) where
  accepted : List T
  ran : List T
  busy : Bool

inductive SerialLabel (T : Type u) where
  | accept (task : T)
  | start
  | finish

namespace SerialExecutor

def step {T : Type u} (s : SerialExecutor T) : SerialLabel T → Option (SerialExecutor T)
  | .accept task => some { s with accepted := s.accepted ++ [task] }
  | .start =>
    if s.busy then none
    else (s.accepted.drop s.ran.length).head?.map fun task =>
      { s with ran := s.ran ++ [task], busy := true }
  | .finish => if s.busy then some { s with busy := false } else none

end SerialExecutor

def serialExecutor (T : Type u) : Machine (SerialExecutor T) (SerialLabel T) where
  init := ⟨[], [], false⟩
  step := SerialExecutor.step

/-- Each task runs once, in the order of acceptance. -/
theorem SerialExecutor.ran_prefix {T : Type u} {s : SerialExecutor T}
    (h : (serialExecutor T).Reachable s) : s.ran <+: s.accepted := by
  apply h.invariant
  · exact List.prefix_rfl
  · intro s l t _ hs ht
    cases l with
    | accept task =>
      simp only [serialExecutor, SerialExecutor.step, Option.some.injEq] at ht
      subst ht
      exact hs.trans (List.prefix_append _ _)
    | start =>
      cases hb : s.busy with
      | true => simp [serialExecutor, SerialExecutor.step, hb] at ht
      | false =>
        obtain ⟨rest, hrest⟩ := hs
        have hdrop : s.accepted.drop s.ran.length = rest := by rw [← hrest, List.drop_left]
        simp only [serialExecutor, SerialExecutor.step, hb, hdrop, Bool.false_eq_true, if_false,
          Option.map_eq_some_iff] at ht
        obtain ⟨task, hhead, rfl⟩ := ht
        obtain ⟨tail, rfl⟩ := List.head?_eq_some_iff.mp hhead
        exact ⟨tail, by simp [← hrest]⟩
    | finish =>
      cases hb : s.busy with
      | true =>
        simp only [serialExecutor, SerialExecutor.step, hb, if_true, Option.some.injEq] at ht
        subst ht
        exact hs
      | false => simp [serialExecutor, SerialExecutor.step, hb] at ht

end Interleaving
