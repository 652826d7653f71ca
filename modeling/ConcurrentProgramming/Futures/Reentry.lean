import ConcurrentProgramming.Interleaving.Machine
import ConcurrentProgramming.Futures.ManualExecutor

/-!
`ManualExecutor` under arbitrary tasks, which may throw and may drive the executor
themselves. What a task does next is the label of a step; a stack holds the loops
that are running a task.
-/

set_option autoImplicit false

namespace ConcurrentProgramming.Futures
open Interleaving

/-- Where a call of `RunAtMost` or `Drain` is. -/
inductive DriveLoop where
  | runAtMost (limit completed : Nat)
  | drain (completed : Nat)
  deriving DecidableEq, Repr

def Drive.loop : Drive → DriveLoop
  | .runAtMost limit => .runAtMost limit 0
  | .runNext => .runAtMost 1 0
  | .drain => .drain 0

/-- The condition of the loop, apart from `HasTasks()`. -/
def DriveLoop.goesOn : DriveLoop → Bool
  | .runAtMost limit completed => completed < limit
  | .drain _ => true

def DriveLoop.complete : DriveLoop → DriveLoop
  | .runAtMost limit completed => .runAtMost limit (completed + 1)
  | .drain completed => .drain (completed + 1)

/-- The task whose `Run` a loop has called. -/
structure DriveFrame where
  task : Nat
  loop : DriveLoop
  deriving DecidableEq, Repr

/-- Tasks are numbered in the order of their creation; the innermost call comes
first in `frames`. -/
structure Reentrant where
  tasks : List Nat
  created : Nat
  frames : List DriveFrame
  called : List Nat
  left : List Nat
  deleted : List Nat
  deriving DecidableEq, Repr

inductive ReentrantLabel where
  | execute
  | drive (call : Drive)
  | return_
  | throw
  deriving DecidableEq, Repr

namespace Reentrant

/-- `none` is a task that is no more. -/
def delete (s : Reentrant) (task : Nat) : Option Reentrant :=
  if task ∈ s.deleted then none else some { s with deleted := s.deleted ++ [task] }

/-- The loop looks at its condition, and runs the front task or returns. -/
def loop (s : Reentrant) (loop : DriveLoop) : Option Reentrant :=
  match loop.goesOn, s.tasks with
  | true, task :: _ =>
    if task ∈ s.deleted then none
    else some { s with frames := ⟨task, loop⟩ :: s.frames, called := s.called ++ [task] }
  | _, _ => some s

/-- After `Run`: either the task has deleted itself, or `front()->Discard()` does. -/
def dispose (d : Deletion) (s : Reentrant) (task : Nat) : Option Reentrant :=
  match d with
  | .byRun => s.delete task
  | .byDiscard => s.tasks.head?.bind s.delete

/-- There is no `pop` of an empty queue. -/
def pop (s : Reentrant) : Option Reentrant :=
  match s.tasks with
  | [] => none
  | _ :: rest => some { s with tasks := rest }

def step (d : Deletion) (s : Reentrant) : ReentrantLabel → Option Reentrant
  | .execute => some { s with tasks := s.tasks ++ [s.created], created := s.created + 1 }
  | .drive call => s.loop call.loop
  | .return_ =>
    match s.frames with
    | [] => none
    | frame :: frames =>
      let s := { s with frames := frames, left := s.left ++ [frame.task] }
      ((s.dispose d frame.task).bind pop).bind (·.loop frame.loop.complete)
  | .throw =>
    match s.frames with
    | [] => none
    | frame :: frames => some { s with frames := frames, left := s.left ++ [frame.task] }

end Reentrant

def reentrant (d : Deletion) : Machine Reentrant ReentrantLabel where
  init := ⟨[], 0, [], [], [], []⟩
  step := Reentrant.step d

namespace Reentrant

/-- No task is run twice, and `TaskCount()` counts none that has been run. -/
structure NeverTwice (s : Reentrant) : Prop where
  called : s.called.Nodup
  counted : ∀ task ∈ s.tasks, task ∉ s.left

/-- Nothing is thrown, and a running task does not drive the executor. -/
def plain (s : Reentrant) : ReentrantLabel → Bool
  | .throw => false
  | .drive call => s.frames.isEmpty || !call.loop.goesOn
  | .execute | .return_ => true

/-- At most the front task is running. -/
structure Inv (s : Reentrant) : Prop where
  order : s.left ++ s.tasks = List.range s.created
  frames : s.frames = [] ∨ ∃ frame rest, s.frames = [frame] ∧ s.tasks = frame.task :: rest
  called : s.called = s.left ++ s.frames.map DriveFrame.task
  deleted : s.deleted = s.left

theorem inv_init (d : Deletion) : (reentrant d).init.Inv := ⟨rfl, .inl rfl, rfl, rfl⟩

theorem Inv.nodup {s : Reentrant} (hs : s.Inv) : (s.left ++ s.tasks).Nodup :=
  hs.order ▸ List.nodup_range

theorem Inv.waiting {s : Reentrant} (hs : s.Inv) {task : Nat} (h : task ∈ s.tasks) :
    task ∉ s.left :=
  fun hleft => (List.nodup_append.mp hs.nodup).2.2 task hleft task h rfl

theorem Inv.neverTwice {s : Reentrant} (hs : s.Inv) : s.NeverTwice := by
  refine ⟨?_, fun task h => hs.waiting h⟩
  rw [hs.called]
  rcases hs.frames with hframes | ⟨frame, rest, hframes, htasks⟩
  · rw [hframes, List.map_nil, List.append_nil]
    exact (List.nodup_append.mp hs.nodup).1
  · have hnodup := hs.nodup
    rw [htasks, List.append_cons] at hnodup
    rw [hframes]
    exact (List.nodup_append.mp hnodup).1

/-- A loop looks at the queue while no task is running. -/
theorem Inv.loop {s : Reentrant} (hs : s.Inv) (hidle : s.frames = []) (loop : DriveLoop) :
    ∃ t, s.loop loop = some t ∧ t.Inv := by
  have hcalled : s.called = s.left := by simpa [hidle] using hs.called
  unfold Reentrant.loop
  split
  · rename_i task rest hgoes htasks
    have hlives : task ∉ s.deleted := hs.deleted ▸ hs.waiting (by simp [htasks])
    refine ⟨_, if_neg hlives, hs.order, .inr ⟨⟨task, loop⟩, rest, by simp [hidle], htasks⟩, ?_,
      hs.deleted⟩
    simp [hidle, hcalled]
  · exact ⟨s, rfl, hs⟩

/-- The task that returns is the front task, and is deleted once. -/
theorem Inv.return_ {s : Reentrant} (hs : s.Inv) {frame : DriveFrame} {frames : List DriveFrame}
    (hframes : s.frames = frame :: frames) (d : Deletion) :
    ∃ t, s.step d .return_ = some t ∧ t.Inv := by
  obtain ⟨rest, rfl, htasks⟩ : ∃ rest, frames = [] ∧ s.tasks = frame.task :: rest := by
    rcases hs.frames with hnone | ⟨first, rest, hone, htasks⟩
    · simp [hnone] at hframes
    · obtain ⟨rfl, rfl⟩ := List.cons.inj (hframes.symm.trans hone)
      exact ⟨rest, rfl, htasks⟩
  have hlives : frame.task ∉ s.deleted := hs.deleted ▸ hs.waiting (by simp [htasks])
  have hpopped : Inv ⟨rest, s.created, [], s.called, s.left ++ [frame.task],
      s.deleted ++ [frame.task]⟩ := by
    refine ⟨?_, .inl rfl, ?_, by rw [hs.deleted]⟩
    · rw [← hs.order, htasks]
      simp
    · simpa [hframes] using hs.called
  obtain ⟨t, ht, hinv⟩ := hpopped.loop rfl frame.loop.complete
  refine ⟨t, ?_, hinv⟩
  cases d <;>
    simpa [Reentrant.step, hframes, dispose, delete, hlives, Reentrant.pop, htasks] using ht

theorem Inv.step {d : Deletion} {s t : Reentrant} (hs : s.Inv) {l : ReentrantLabel}
    (hplain : s.plain l = true) (h : s.step d l = some t) : t.Inv := by
  cases l with
  | execute =>
    obtain rfl := Option.some.inj h
    refine ⟨?_, hs.frames.imp_right ?_, hs.called, hs.deleted⟩
    · rw [List.range_succ, ← hs.order, List.append_assoc]
    · rintro ⟨frame, rest, hframes, htasks⟩
      exact ⟨frame, rest ++ [s.created], hframes, by simp [htasks]⟩
  | drive call =>
    by_cases hidle : s.frames = []
    · obtain ⟨u, hu, hinv⟩ := hs.loop hidle call.loop
      exact Option.some.inj (hu.symm.trans h) ▸ hinv
    · have hstops : call.loop.goesOn = false := by simpa [plain, hidle] using hplain
      simp only [Reentrant.step, Reentrant.loop, hstops, Option.some.injEq] at h
      exact h ▸ hs
  | return_ =>
    cases hframes : s.frames with
    | nil => simp [Reentrant.step, hframes] at h
    | cons frame frames =>
      obtain ⟨u, hu, hinv⟩ := hs.return_ hframes d
      exact Option.some.inj (hu.symm.trans h) ▸ hinv
  | throw => cases hplain

theorem Inv.breaks {d : Deletion} {s t : Reentrant} (hs : s.Inv) {l : ReentrantLabel}
    (hplain : s.plain l = false) (h : s.step d l = some t) : ¬ t.NeverTwice := by
  cases l with
  | execute | return_ => cases hplain
  | drive call =>
    simp only [plain, Bool.or_eq_false_iff, Bool.not_eq_false', List.isEmpty_eq_false_iff] at hplain
    rcases hs.frames with hidle | ⟨frame, rest, hframes, htasks⟩
    · exact (hplain.1 hidle).elim
    · simp only [Reentrant.step, Reentrant.loop, hplain.2, htasks,
        Option.ite_none_left_eq_some, Option.some.injEq] at h
      obtain ⟨-, rfl⟩ := h
      intro hnever
      -- the front task is the one that is running
      have htwice := hnever.called
      simp [hs.called, hframes, List.nodup_append] at htwice
  | throw =>
    rcases hs.frames with hidle | ⟨frame, rest, hframes, htasks⟩
    · simp [Reentrant.step, hidle] at h
    · simp only [Reentrant.step, hframes, Option.some.injEq] at h
      subst h
      intro hnever
      exact hnever.counted frame.task (by simp [htasks]) (by simp)

end Reentrant

/-- Exactly the runs in which nothing is thrown and no task drives the executor that
is running it are the runs in which no task is run twice. -/
theorem manualExecutor_runs_once_iff {d : Deletion} {ls : List ReentrantLabel} {s : Reentrant}
    (h : (reentrant d).exec (reentrant d).init ls = some s) :
    (∀ k u, (reentrant d).exec (reentrant d).init (ls.take k) = some u → u.NeverTwice) ↔
      ((reentrant d).guard Reentrant.plain).exec (reentrant d).init ls = some s :=
  Machine.Reachable.guard_exec_iff (fun _ _ hs => Reentrant.Inv.neverTwice hs)
    (fun _ _ _ _ hs hstep hplain => hs.step hplain hstep)
    (fun _ _ _ _ hs hstep hplain => hs.breaks hplain hstep) .init (Reentrant.inv_init d) h

/-- Two tasks, of which the first executes a third one, and a nested `RunAtMost(0)`. -/
theorem manualExecutor_runs_once_iff_spawning :
    ∃ ls s, (reentrant .byRun).exec (reentrant .byRun).init ls = some s ∧ s.called = [0, 1, 2] ∧
      ∀ k u, (reentrant .byRun).exec (reentrant .byRun).init (ls.take k) = some u →
        u.NeverTwice := by
  have h : (reentrant .byRun).exec (reentrant .byRun).init [.execute, .execute, .drive .drain,
      .execute, .drive (.runAtMost 0), .return_, .return_, .return_] = some _ := rfl
  exact ⟨_, _, h, rfl, (manualExecutor_runs_once_iff h).mpr rfl⟩

/-- A task that throws is still counted, and the next call runs it again. -/
theorem manualExecutor_runs_twice :
    ∃ s t, (reentrant .byRun).exec (reentrant .byRun).init [.execute, .drive .runNext, .throw] =
      some s ∧ s.tasks = [0] ∧ s.left = [0] ∧ ¬ s.NeverTwice ∧
      (reentrant .byRun).step s (.drive .runNext) = some t ∧ t.called = [0, 0] := by
  refine ⟨_, _, rfl, rfl, rfl, fun hnever => ?_, rfl, rfl⟩
  exact hnever.counted 0 (List.mem_singleton.mpr rfl) (List.mem_singleton.mpr rfl)

end ConcurrentProgramming.Futures
