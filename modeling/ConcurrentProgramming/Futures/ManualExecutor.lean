import ConcurrentProgramming.Interleaving.Forest
import Mathlib.Algebra.GroupWithZero.Nat

/-!
`ManualExecutor` under tasks that do nothing but `Execute` further tasks on it. A
tree is a task: its value, and what its `Run` will execute. The executor exists
twice; in one the tasks delete themselves in `Run`, in the other in `Discard`.
-/

set_option autoImplicit false

namespace ConcurrentProgramming.Futures
open Interleaving Rose

universe u

/-- Which call deletes a task that has been run. -/
inductive Deletion where
  | byRun
  | byDiscard
  deriving DecidableEq, Repr

/-- The tasks in the queue, and the logs of `Execute`, `Run` and `delete this`. -/
structure ManualExecutor (α : Type u) where
  tasks : List (Rose α)
  executed : List α
  ran : List α
  deleted : List α

namespace ManualExecutor

def new (α : Type u) : ManualExecutor α := ⟨[], [], [], []⟩

def hasTasks {α : Type u} (s : ManualExecutor α) : Bool := !s.tasks.isEmpty

def execute {α : Type u} (s : ManualExecutor α) (task : Rose α) : ManualExecutor α :=
  { s with tasks := s.tasks ++ [task], executed := s.executed ++ [task.value] }

def delete {α : Type u} (s : ManualExecutor α) (task : Rose α) : ManualExecutor α :=
  { s with deleted := s.deleted ++ [task.value] }

/-- `front()->Run()`: the task stays at the front while it calls `Execute`. -/
def run {α : Type u} (d : Deletion) (task : Rose α) (s : ManualExecutor α) : ManualExecutor α :=
  let s := task.children.foldl execute { s with ran := s.ran ++ [task.value] }
  match d with
  | .byRun => s.delete task
  | .byDiscard => s

/-- `front()->Discard()`, where there is such a call. -/
def discardFront {α : Type u} (d : Deletion) (s : ManualExecutor α) : ManualExecutor α :=
  match d, s.tasks with
  | .byDiscard, task :: _ => s.delete task
  | _, _ => s

def pop {α : Type u} (s : ManualExecutor α) : ManualExecutor α := { s with tasks := s.tasks.tail }

/-- The body of both loops. -/
def turn {α : Type u} (d : Deletion) (task : Rose α) (s : ManualExecutor α) : ManualExecutor α :=
  ((s.run d task).discardFront d).pop

theorem foldl_execute {α : Type u} (ts : List (Rose α)) (s : ManualExecutor α) :
    ts.foldl execute s =
      { s with tasks := s.tasks ++ ts, executed := s.executed ++ ts.map value } := by
  induction ts generalizing s with
  | nil => simp
  | cons t ts ih => simp [ih, execute, List.append_assoc]

theorem turn_eq {α : Type u} (d : Deletion) {s : ManualExecutor α} {task : Rose α}
    {rest : List (Rose α)} (h : s.tasks = task :: rest) :
    s.turn d task = ⟨rest ++ task.children, s.executed ++ task.children.map value,
      s.ran ++ [task.value], s.deleted ++ [task.value]⟩ := by
  cases d <;> simp [turn, run, discardFront, delete, pop, foldl_execute, h]

theorem forestSize_turn {α : Type u} (d : Deletion) {s : ManualExecutor α} {task : Rose α}
    {rest : List (Rose α)} (h : s.tasks = task :: rest) :
    forestSize s.tasks = forestSize (s.turn d task).tasks + 1 := by
  rw [turn_eq d h, h, forestSize_cons]

/-- The loop of `RunAtMost`. -/
def runLoop {α : Type u} (d : Deletion) (limit completed : Nat) (s : ManualExecutor α) :
    ManualExecutor α × Nat :=
  if completed < limit then
    match s.tasks with
    | [] => (s, completed)
    | task :: _ => runLoop d limit (completed + 1) (s.turn d task)
  else (s, completed)
termination_by limit - completed

/-- The loop of `Drain`. -/
def drainLoop {α : Type u} (d : Deletion) (completed : Nat) (s : ManualExecutor α) :
    ManualExecutor α × Nat :=
  match hfront : s.tasks with
  | [] => (s, completed)
  | task :: _ => drainLoop d (completed + 1) (s.turn d task)
termination_by forestSize s.tasks
decreasing_by
  have hsize := forestSize_turn d hfront
  omega

def runAtMost {α : Type u} (d : Deletion) (limit : Nat) (s : ManualExecutor α) :
    ManualExecutor α × Nat := s.runLoop d limit 0

def runNext {α : Type u} (d : Deletion) (s : ManualExecutor α) : ManualExecutor α × Bool :=
  let (t, completed) := s.runAtMost d 1
  (t, completed = 1)

def drain {α : Type u} (d : Deletion) (s : ManualExecutor α) : ManualExecutor α × Nat :=
  s.drainLoop d 0

/-! Every way of driving the executor is a number of turns. -/

def turns {α : Type u} (d : Deletion) : Nat → ManualExecutor α → ManualExecutor α
  | 0, s => s
  | k + 1, s =>
    match s.tasks with
    | [] => s
    | task :: _ => turns d k (s.turn d task)

theorem turns_nil {α : Type u} (d : Deletion) (k : Nat) {s : ManualExecutor α}
    (h : s.tasks = []) : s.turns d k = s := by
  cases k <;> simp [turns, h]

theorem turns_succ {α : Type u} (d : Deletion) (k : Nat) {s : ManualExecutor α} {task : Rose α}
    {rest : List (Rose α)} (h : s.tasks = task :: rest) :
    s.turns d (k + 1) = (s.turn d task).turns d k := by
  simp [turns, h]

theorem runLoop_eq {α : Type u} (d : Deletion) (limit completed : Nat) (s : ManualExecutor α) :
    s.runLoop d limit completed = (s.turns d (limit - completed),
      completed + min (limit - completed) (forestSize s.tasks)) := by
  induction completed, s using runLoop.induct d limit with
  | case1 completed s hlt hnil =>
    rw [runLoop, if_pos hlt, hnil]
    simp [turns_nil d _ hnil]
  | case2 completed s hlt task rest hcons ih =>
    have hsize := forestSize_turn d hcons
    have hleft : limit - completed = limit - (completed + 1) + 1 := by omega
    rw [runLoop, if_pos hlt, hcons]
    simp only
    rw [ih, hleft, turns_succ d _ hcons, ← hcons, hsize]
    simp only [Prod.mk.injEq, true_and]
    omega
  | case3 completed s hge =>
    have hleft : limit - completed = 0 := by omega
    rw [runLoop, if_neg hge, hleft]
    simp [turns]

theorem drainLoop_eq {α : Type u} (d : Deletion) (completed : Nat) (s : ManualExecutor α) :
    s.drainLoop d completed =
      (s.turns d (forestSize s.tasks), completed + forestSize s.tasks) := by
  induction completed, s using drainLoop.induct d with
  | case1 completed s hnil =>
    rw [drainLoop]
    split
    · simp [hnil, turns]
    · simp_all
  | case2 completed s task rest hcons ih =>
    have hsize := forestSize_turn d hcons
    rw [drainLoop]
    split
    · simp_all
    · rename_i first others hfront
      obtain ⟨rfl, rfl⟩ := List.cons.inj (hcons.symm.trans hfront)
      rw [ih, hsize, turns_succ d _ hcons]
      simp only [Prod.mk.injEq, true_and]
      omega

/-! What a turn keeps. -/

theorem forestSize_turns {α : Type u} (d : Deletion) (k : Nat) (s : ManualExecutor α) :
    forestSize (s.turns d k).tasks = forestSize s.tasks - k := by
  induction k generalizing s with
  | zero => rfl
  | succ k ih =>
    cases h : s.tasks with
    | nil => simp [turns_nil d _ h, h]
    | cons task rest =>
      have hsize := forestSize_turn d h
      rw [turns_succ d _ h, ih, ← h]
      omega

/-- What has run and what is still to run, in the order in which it will. -/
def schedule {α : Type u} (s : ManualExecutor α) : List α := s.ran ++ queueOrder s.tasks

theorem schedule_turns {α : Type u} (d : Deletion) (k : Nat) (s : ManualExecutor α) :
    (s.turns d k).schedule = s.schedule := by
  induction k generalizing s with
  | zero => rfl
  | succ k ih =>
    cases h : s.tasks with
    | nil => rw [turns_nil d _ h]
    | cons task rest =>
      rw [turns_succ d _ h, ih, turn_eq d h]
      simp [schedule, h, queueOrder_cons]

theorem length_ran_turns {α : Type u} (d : Deletion) (k : Nat) (s : ManualExecutor α) :
    (s.turns d k).ran.length = s.ran.length + min k (forestSize s.tasks) := by
  have hschedule := congrArg List.length (schedule_turns d k s)
  have hsize := forestSize_turns d k s
  simp only [schedule, List.length_append, length_queueOrder] at hschedule
  omega

/-- The logs agree with the queue. -/
structure Logged {α : Type u} (s : ManualExecutor α) : Prop where
  executed : s.executed = s.ran ++ s.tasks.map value
  deleted : s.deleted = s.ran

theorem Logged.turns {α : Type u} {s : ManualExecutor α} (hs : s.Logged) (d : Deletion) (k : Nat) :
    (s.turns d k).Logged := by
  induction k generalizing s with
  | zero => exact hs
  | succ k ih =>
    cases h : s.tasks with
    | nil => exact (turns_nil d _ h).symm ▸ hs
    | cons task rest =>
      rw [turns_succ d _ h]
      apply ih
      rw [turn_eq d h]
      refine ⟨?_, by rw [hs.deleted]⟩
      simp [hs.executed, h]

theorem logged_forest {α : Type u} (forest : List (Rose α)) :
    (forest.foldl execute (new α)).Logged := by
  rw [foldl_execute]
  exact ⟨by simp [new], rfl⟩

theorem schedule_forest {α : Type u} (forest : List (Rose α)) :
    (forest.foldl execute (new α)).schedule = levelOrder forest := by
  rw [foldl_execute]
  simp [schedule, new, queueOrder_eq_levelOrder]

end ManualExecutor

/-! Sequences of calls. -/

inductive Drive where
  | runAtMost (limit : Nat)
  | runNext
  | drain
  deriving DecidableEq, Repr

/-- One call, with the executor before and after it. -/
structure Driven (α : Type u) where
  call : Drive
  before : ManualExecutor α
  returned : Nat
  after : ManualExecutor α

namespace ManualExecutor

/-- The `bool` of `RunNext` is counted as a number. -/
def drive {α : Type u} (d : Deletion) (s : ManualExecutor α) (call : Drive) : Driven α :=
  match call with
  | .runAtMost limit => let (t, completed) := s.runAtMost d limit; ⟨call, s, completed, t⟩
  | .runNext => let (t, ran) := s.runNext d; ⟨call, s, ran.toNat, t⟩
  | .drain => let (t, completed) := s.drain d; ⟨call, s, completed, t⟩

def driveAll {α : Type u} (d : Deletion) (s : ManualExecutor α) :
    List Drive → List (Driven α) × ManualExecutor α
  | [] => ([], s)
  | call :: calls =>
    let driven := s.drive d call
    let (rest, t) := driveAll d driven.after calls
    (driven :: rest, t)

/-- How many turns a call may take. -/
def allowance {α : Type u} (s : ManualExecutor α) : Drive → Nat
  | .runAtMost limit => limit
  | .runNext => 1
  | .drain => forestSize s.tasks

theorem drive_eq {α : Type u} (d : Deletion) (s : ManualExecutor α) (call : Drive) :
    s.drive d call = ⟨call, s, min (s.allowance call) (forestSize s.tasks),
      s.turns d (s.allowance call)⟩ := by
  cases call with
  | runAtMost limit => simp [drive, runAtMost, runLoop_eq, allowance]
  | runNext =>
    simp only [drive, runNext, runAtMost, runLoop_eq, allowance, Driven.mk.injEq, true_and,
      and_true]
    by_cases hempty : forestSize s.tasks = 0
    · simp [hempty]
    · have hone : min 1 (forestSize s.tasks) = 1 := by omega
      simp [hone]
  | drain => simp [drive, drain, drainLoop_eq, allowance]

theorem tasks_of_forestSize {α : Type u} {ts : List (Rose α)} (h : forestSize ts = 0) :
    ts = [] := by
  cases ts with
  | nil => rfl
  | cons t ts => simp [forestSize_cons] at h

/-- What one call promises. -/
structure Kept {α : Type u} (c : Driven α) : Prop where
  counted : c.after.ran.length = c.before.ran.length + c.returned
  schedule : c.after.schedule = c.before.schedule
  limited : match c.call with
    | .runAtMost limit => c.returned = limit ∨ c.returned < limit ∧ c.after.hasTasks = false
    | .runNext => c.returned = 1 ∨ c.returned = 0 ∧ c.after.hasTasks = false
    | .drain => c.after.hasTasks = false

theorem drive_kept {α : Type u} (d : Deletion) (s : ManualExecutor α) (call : Drive) :
    Kept (s.drive d call) := by
  have hsize := forestSize_turns d (s.allowance call) s
  rw [drive_eq]
  refine ⟨length_ran_turns d _ s, schedule_turns d _ s, ?_⟩
  have hdone (hle : forestSize s.tasks ≤ s.allowance call) :
      (s.turns d (s.allowance call)).hasTasks = false := by
    have hnone := tasks_of_forestSize (hsize.trans (Nat.sub_eq_zero_of_le hle))
    simp [hasTasks, hnone]
  cases call with
  | runAtMost limit =>
    rcases Nat.lt_or_ge (forestSize s.tasks) limit with hlt | hge
    · exact .inr ⟨by simp only [allowance]; omega, hdone (Nat.le_of_lt hlt)⟩
    · exact .inl (Nat.min_eq_left hge)
  | runNext =>
    rcases Nat.lt_or_ge (forestSize s.tasks) 1 with hlt | hge
    · exact .inr ⟨by simp only [allowance]; omega, hdone (Nat.le_of_lt hlt)⟩
    · exact .inl (Nat.min_eq_left hge)
  | drain => exact hdone (Nat.le_refl _)

theorem drive_logged {α : Type u} (d : Deletion) {s : ManualExecutor α} (hs : s.Logged)
    (call : Drive) : (s.drive d call).after.Logged := by
  rw [drive_eq]
  exact hs.turns d _

theorem driveAll_kept {α : Type u} (d : Deletion) (s : ManualExecutor α) (calls : List Drive) :
    ∀ c ∈ (s.driveAll d calls).1, Kept c := by
  induction calls generalizing s with
  | nil => nofun
  | cons call calls ih =>
    intro c hc
    rcases List.mem_cons.mp hc with rfl | hc
    · exact drive_kept d s call
    · exact ih _ c hc

theorem driveAll_schedule {α : Type u} (d : Deletion) (s : ManualExecutor α)
    (calls : List Drive) : (s.driveAll d calls).2.schedule = s.schedule := by
  induction calls generalizing s with
  | nil => rfl
  | cons call calls ih =>
    calc ((s.drive d call).after.driveAll d calls).2.schedule
        = (s.drive d call).after.schedule := ih _
      _ = s.schedule := by
          rw [(drive_kept d s call).schedule, drive_eq]

theorem driveAll_counts {α : Type u} (d : Deletion) (s : ManualExecutor α) (calls : List Drive) :
    (s.driveAll d calls).2.ran.length =
      s.ran.length + ((s.driveAll d calls).1.map Driven.returned).sum := by
  induction calls generalizing s with
  | nil => rfl
  | cons call calls ih =>
    have hcall := (drive_kept d s call).counted
    have hrest := ih (s.drive d call).after
    have hbefore : (s.drive d call).before = s := by rw [drive_eq]
    rw [hbefore] at hcall
    simp only [driveAll, List.map_cons, List.sum_cons]
    omega

theorem driveAll_logged {α : Type u} (d : Deletion) {s : ManualExecutor α} (hs : s.Logged)
    (calls : List Drive) : (s.driveAll d calls).2.Logged := by
  induction calls generalizing s with
  | nil => exact hs
  | cons call calls ih => exact ih (drive_logged d hs call)

theorem driveAll_drain {α : Type u} (d : Deletion) (s : ManualExecutor α) (calls : List Drive) :
    (s.driveAll d (calls ++ [.drain])).2.hasTasks = false := by
  induction calls generalizing s with
  | nil => exact (drive_kept d s .drain).limited
  | cons call calls ih => exact ih _

/-- A forest of tasks after a sequence of calls: `cs` records the calls. -/
structure RunsForest {α : Type u} (forest : List (Rose α)) (cs : List (Driven α))
    (s : ManualExecutor α) : Prop where
  order : s.ran = levelOrder forest
  once : s.ran.Perm (forestValues forest)
  enqueued : s.executed = s.ran
  deleted : s.deleted = s.ran
  counts : (cs.map Driven.returned).sum = forestSize forest
  empty : s.hasTasks = false
  kept : ∀ c ∈ cs, Kept c

end ManualExecutor

/-- Whatever the calls before the last `Drain` are, the tasks run breadth first. -/
theorem manualExecutor_runs_forest {α : Type u} (d : Deletion) (forest : List (Rose α))
    (calls : List Drive) :
    let (cs, s) := (forest.foldl ManualExecutor.execute (.new α)).driveAll d (calls ++ [.drain])
    ManualExecutor.RunsForest forest cs s := by
  have hkept := ManualExecutor.driveAll_kept d (forest.foldl ManualExecutor.execute (.new α))
    (calls ++ [.drain])
  have hschedule := ManualExecutor.driveAll_schedule d
    (forest.foldl ManualExecutor.execute (.new α)) (calls ++ [.drain])
  have hcounts := ManualExecutor.driveAll_counts d
    (forest.foldl ManualExecutor.execute (.new α)) (calls ++ [.drain])
  have hlogged := ManualExecutor.driveAll_logged d (ManualExecutor.logged_forest forest)
    (calls ++ [.drain])
  have hempty := ManualExecutor.driveAll_drain d (forest.foldl ManualExecutor.execute (.new α))
    calls
  generalize (forest.foldl ManualExecutor.execute (.new α)).driveAll d (calls ++ [.drain]) = r
    at hkept hschedule hcounts hlogged hempty ⊢
  obtain ⟨cs, s⟩ := r
  simp only at hkept hschedule hcounts hlogged hempty ⊢
  have hnone : s.tasks = [] := by simpa [ManualExecutor.hasTasks] using hempty
  have horder : s.ran = levelOrder forest := by
    rw [ManualExecutor.schedule_forest] at hschedule
    simpa [ManualExecutor.schedule, hnone] using hschedule
  have hperm : s.ran.Perm (forestValues forest) := by
    rw [horder, ← queueOrder_eq_levelOrder]
    exact queueOrder_perm forest
  refine ⟨horder, hperm, ?_, hlogged.deleted, ?_, hempty, hkept⟩
  · rw [hlogged.executed, hnone]
    simp
  · have hstart : (forest.foldl ManualExecutor.execute (.new α)).ran.length = 0 := by
      rw [ManualExecutor.foldl_execute]
      rfl
    rw [hstart, hperm.length_eq] at hcounts
    simp only [forestSize]
    omega

end ConcurrentProgramming.Futures
