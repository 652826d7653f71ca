import ConcurrentProgramming.Interleaving.Machine
import Mathlib.Data.List.Basic

/-!
What a pool of `n` workers with one queue is for: tasks are served in the order in
which they were accepted, at most `n` at a time.
-/

set_option autoImplicit false

namespace Interleaving

universe u

structure Servers (T : Type u) where
  waiting : List T
  busy : Nat

inductive ServersLabel (T : Type u) where
  | accept (task : T)
  | start (task : T)
  | finish

namespace ServersLabel

def accepted {T : Type u} : ServersLabel T → Option T
  | .accept task => some task
  | _ => none

def started {T : Type u} : ServersLabel T → Option T
  | .start task => some task
  | _ => none

def isFinish {T : Type u} : ServersLabel T → Bool
  | .finish => true
  | _ => false

end ServersLabel

def Servers.step {T : Type u} [DecidableEq T] (n : Nat) (s : Servers T) :
    ServersLabel T → Option (Servers T)
  | .accept task => some { s with waiting := s.waiting ++ [task] }
  | .start task =>
    if s.waiting.head? = some task ∧ s.busy < n then some ⟨s.waiting.tail, s.busy + 1⟩ else none
  | .finish => if s.busy = 0 then none else some { s with busy := s.busy - 1 }

def servers (n : Nat) (T : Type u) [DecidableEq T] : Machine (Servers T) (ServersLabel T) where
  init := ⟨[], 0⟩
  step := Servers.step n

/-- The books of a run from `s` to `t`. -/
theorem Servers.exec_books {T : Type u} [DecidableEq T] {n : Nat} {s t : Servers T}
    {log : List (ServersLabel T)} (h : (servers n T).exec s log = some t) (hs : s.busy ≤ n) :
    s.waiting ++ log.filterMap ServersLabel.accepted =
        log.filterMap ServersLabel.started ++ t.waiting ∧
      s.busy + (log.filterMap ServersLabel.started).length =
        t.busy + log.countP ServersLabel.isFinish ∧ t.busy ≤ n := by
  induction log generalizing s with
  | nil =>
    obtain rfl := Option.some.inj h
    exact ⟨by simp, by simp, hs⟩
  | cons l log ih =>
    obtain ⟨u, hu, hrest⟩ := Option.bind_eq_some_iff.mp h
    cases l with
    | accept task =>
      obtain rfl := Option.some.inj hu
      obtain ⟨hwaiting, hbusy, hle⟩ := ih hrest hs
      exact ⟨by simpa [List.filterMap_cons, ServersLabel.accepted, ServersLabel.started] using hwaiting,
        by simpa [List.filterMap_cons, ServersLabel.started, ServersLabel.isFinish] using hbusy, hle⟩
    | start task =>
      simp only [servers, Servers.step, Option.ite_none_right_eq_some, Option.some.injEq] at hu
      obtain ⟨⟨hhead, hroom⟩, rfl⟩ := hu
      obtain ⟨tail, htail⟩ := List.head?_eq_some_iff.mp hhead
      obtain ⟨hwaiting, hbusy, hle⟩ := ih hrest hroom
      rw [htail] at hwaiting ⊢
      refine ⟨by simpa [List.filterMap_cons, ServersLabel.accepted, ServersLabel.started] using hwaiting, ?_, hle⟩
      simp only [List.filterMap_cons, ServersLabel.started, ServersLabel.isFinish,
        List.length_cons, List.countP_cons, Bool.false_eq_true, if_false] at hbusy ⊢
      omega
    | finish =>
      simp only [servers, Servers.step, Option.ite_none_left_eq_some, Option.some.injEq] at hu
      obtain ⟨hpos, rfl⟩ := hu
      obtain ⟨hwaiting, hbusy, hle⟩ := ih hrest (by simp only; omega)
      refine ⟨by simpa [List.filterMap_cons, ServersLabel.accepted, ServersLabel.started] using hwaiting, ?_, hle⟩
      simp only [List.filterMap_cons, ServersLabel.started, ServersLabel.isFinish,
        List.countP_cons, if_true] at hbusy ⊢
      omega

/-- Tasks are started in the order of acceptance, and at most `n` of them are not yet
finished. -/
theorem servers_fifo {T : Type u} [DecidableEq T] {n : Nat} {log : List (ServersLabel T)}
    {s : Servers T} (h : (servers n T).exec (servers n T).init log = some s) :
    log.filterMap ServersLabel.accepted = log.filterMap ServersLabel.started ++ s.waiting ∧
      (log.filterMap ServersLabel.started).length =
        s.busy + log.countP ServersLabel.isFinish ∧ s.busy ≤ n := by
  simpa [servers] using Servers.exec_books h (Nat.zero_le n)

end Interleaving
