import ConcurrentProgramming.Futures.Reentry

/-!
Driving the executor with tasks that only `Execute` further tasks is one way to run the
machine: whatever a sequence of calls does to a forest, some run without throwing and
without nested calls does as well, with the tasks numbered as they are executed.
-/

set_option autoImplicit false

namespace ConcurrentProgramming.Futures
open Interleaving Rose

universe u

namespace Reentrant

/-- No task is running, and task `i` is the one that was executed as number `i`. -/
structure Plays {α : Type u} (m : Reentrant) (s : ManualExecutor α) : Prop where
  frames : m.frames = []
  created : m.created = s.executed.length
  tasks : m.tasks = List.range' s.ran.length s.tasks.length
  called : m.called = List.range s.ran.length
  left : m.left = List.range s.ran.length
  deleted : m.deleted = List.range s.ran.length

/-- What a task, or the owner of the executor, puts into the queue. -/
theorem exec_execute (d : Deletion) (k : Nat) (m : Reentrant) (ls : List ReentrantLabel) :
    ((reentrant d).guard plain).exec m (List.replicate k .execute ++ ls) =
      ((reentrant d).guard plain).exec
        { m with tasks := m.tasks ++ List.range' m.created k, created := m.created + k } ls := by
  induction k generalizing m with
  | zero => simp
  | succ k ih =>
    have hstep : ((reentrant d).guard plain).step m .execute = some
        { m with tasks := m.tasks ++ [m.created], created := m.created + 1 } := rfl
    rw [List.replicate_succ, List.cons_append, Machine.exec_cons, hstep, Option.bind_some, ih]
    simp only [List.append_assoc, List.singleton_append, List.range'_succ]
    rw [Nat.add_right_comm, Nat.add_assoc]

theorem plays_forest {α : Type u} (d : Deletion) (forest : List (Rose α)) :
    ∃ m, ((reentrant d).guard plain).Reachable m ∧
      m.Plays (forest.foldl ManualExecutor.execute (.new α)) := by
  have hrun := exec_execute d forest.length (reentrant d).init []
  rw [List.append_nil] at hrun
  refine ⟨_, Machine.reachable_of_exec _ hrun, ?_⟩
  rw [ManualExecutor.foldl_execute]
  refine ⟨rfl, ?_, ?_, rfl, rfl, rfl⟩
  · simp [reentrant, ManualExecutor.new]
  · simp [reentrant, ManualExecutor.new]

/-- The machine between two turns, `k` tasks having been run. -/
def between (k : Nat) (tasks : List Nat) (created : Nat) : Reentrant :=
  ⟨tasks, created, [], List.range k, List.range k, List.range k⟩

/-- One turn of a loop: the front task is called, executes its children and returns. -/
theorem between_turn (d : Deletion) (k created children : Nat) (rest : List Nat)
    (ls : List ReentrantLabel) {lp : DriveLoop} (hgoes : lp.goesOn = true) :
    ((between k (k :: rest) created).loop lp).bind (fun u =>
        ((reentrant d).guard plain).exec u (List.replicate children .execute ++ .return_ :: ls)) =
      ((between (k + 1) (rest ++ List.range' created children) (created + children)).loop
        lp.complete).bind fun u => ((reentrant d).guard plain).exec u ls := by
  have hcall : (between k (k :: rest) created).loop lp = some
      ⟨k :: rest, created, [⟨k, lp⟩], List.range (k + 1), List.range k, List.range k⟩ := by
    simp [Reentrant.loop, between, hgoes, List.range_succ]
  have hreturn : ((reentrant d).guard plain).step
      ⟨k :: rest ++ List.range' created children, created + children, [⟨k, lp⟩],
        List.range (k + 1), List.range k, List.range k⟩ .return_ =
      (between (k + 1) (rest ++ List.range' created children) (created + children)).loop
        lp.complete := by
    cases d <;> simp [Machine.guard, plain, reentrant, Reentrant.step, dispose, delete, pop, between,
      List.range_succ]
  rw [hcall, Option.bind_some, exec_execute, Machine.exec_cons, hreturn]

theorem Plays.eq_between {α : Type u} {m : Reentrant} {s : ManualExecutor α} (hm : m.Plays s) :
    m = between s.ran.length (List.range' s.ran.length s.tasks.length) s.executed.length := by
  obtain ⟨tasks, created, frames, called, left, deleted⟩ := m
  obtain ⟨rfl, rfl, rfl, rfl, rfl, rfl⟩ := hm
  rfl

theorem plays_between {α : Type u} (s : ManualExecutor α) :
    (between s.ran.length (List.range' s.ran.length s.tasks.length) s.executed.length).Plays s :=
  ⟨rfl, rfl, rfl, rfl, rfl, rfl⟩

theorem Plays.turn {α : Type u} {m : Reentrant} {s : ManualExecutor α} (hm : m.Plays s)
    (hs : s.Logged) (d : Deletion) {task : Rose α} {rest : List (Rose α)}
    (hfront : s.tasks = task :: rest) {lp : DriveLoop} (hgoes : lp.goesOn = true) :
    ∃ m' : Reentrant, m'.Plays (s.turn d task) ∧ ∀ ls,
      (m.loop lp).bind (fun u => ((reentrant d).guard plain).exec u
        (List.replicate task.children.length .execute ++ .return_ :: ls)) =
      (m'.loop lp.complete).bind fun u => ((reentrant d).guard plain).exec u ls := by
  have hlength : s.executed.length = s.ran.length + 1 + rest.length := by
    rw [hs.executed, hfront]
    simp only [List.length_append, List.length_map, List.length_cons]
    omega
  refine ⟨_, plays_between _, fun ls => ?_⟩
  rw [hm.eq_between, ManualExecutor.turn_eq d hfront, hfront]
  simp only [List.length_append, List.length_cons, List.length_map, List.length_nil,
    List.range'_succ, hlength]
  rw [between_turn d _ _ _ _ ls hgoes, ← List.range'_append_1]

/-- A loop that finds nothing to do leaves the machine alone. -/
theorem Plays.loop_stops {α : Type u} {m : Reentrant} {s : ManualExecutor α} (hm : m.Plays s)
    {lp : DriveLoop} (h : lp.goesOn = false ∨ s.tasks = []) : m.loop lp = some m := by
  have htasks := hm.tasks
  unfold Reentrant.loop
  split
  · rename_i hgoes hcons
    obtain hstops | hempty := h
    · simp [hstops] at hgoes
    · simp [hcons, hempty] at htasks
  · rfl

/-- A run of the machine from inside `lp` until the loop has returned. -/
def Finishes {α : Type u} (d : Deletion) (m : Reentrant) (lp : DriveLoop)
    (t : ManualExecutor α) : Prop :=
  ∃ ls m', (m.loop lp).bind (fun u => ((reentrant d).guard plain).exec u ls) = some m' ∧
    m'.Plays t

theorem Plays.finishes_turn {α : Type u} {m : Reentrant} {s t : ManualExecutor α}
    (hm : m.Plays s) (hs : s.Logged) {d : Deletion} {task : Rose α} {rest : List (Rose α)}
    (hfront : s.tasks = task :: rest) {lp : DriveLoop} (hgoes : lp.goesOn = true)
    (h : ∀ m' : Reentrant, m'.Plays (s.turn d task) → Finishes d m' lp.complete t) :
    Finishes d m lp t := by
  obtain ⟨m', hm', hturn⟩ := hm.turn hs d hfront hgoes
  obtain ⟨ls, u, hrun, hu⟩ := h m' hm'
  exact ⟨_, u, (hturn ls).trans hrun, hu⟩

theorem logged_turn {α : Type u} {s : ManualExecutor α} (hs : s.Logged) (d : Deletion)
    {task : Rose α} {rest : List (Rose α)} (hfront : s.tasks = task :: rest) :
    (s.turn d task).Logged := by
  have hturns := hs.turns d 1
  rwa [ManualExecutor.turns_succ d 0 hfront] at hturns

theorem finishes_runLoop {α : Type u} (d : Deletion) (limit completed : Nat)
    (s : ManualExecutor α) (hs : s.Logged) (m : Reentrant) (hm : m.Plays s) :
    Finishes d m (.runAtMost limit completed) (s.runLoop d limit completed).1 := by
  induction completed, s using ManualExecutor.runLoop.induct d limit generalizing m with
  | case1 completed s hlt hnil =>
    rw [ManualExecutor.runLoop, if_pos hlt, hnil]
    exact ⟨[], m, by rw [hm.loop_stops (.inr hnil)]; rfl, hm⟩
  | case2 completed s hlt task rest hfront ih =>
    rw [ManualExecutor.runLoop, if_pos hlt, hfront]
    exact hm.finishes_turn hs hfront (decide_eq_true hlt) fun m' hm' =>
      ih (logged_turn hs d hfront) m' hm'
  | case3 completed s hge =>
    rw [ManualExecutor.runLoop, if_neg hge]
    have hstops : (DriveLoop.runAtMost limit completed).goesOn = false := decide_eq_false hge
    exact ⟨[], m, by rw [hm.loop_stops (.inl hstops)]; rfl, hm⟩

theorem finishes_drainLoop {α : Type u} (d : Deletion) (completed : Nat)
    (s : ManualExecutor α) (hs : s.Logged) (m : Reentrant) (hm : m.Plays s) :
    Finishes d m (.drain completed) (s.drainLoop d completed).1 := by
  induction completed, s using ManualExecutor.drainLoop.induct d generalizing m with
  | case1 completed s hnil =>
    rw [ManualExecutor.drainLoop]
    split
    · exact ⟨[], m, by rw [hm.loop_stops (.inr hnil)]; rfl, hm⟩
    · simp_all
  | case2 completed s task rest hfront ih =>
    rw [ManualExecutor.drainLoop]
    split
    · simp_all
    · rename_i first others hcons
      obtain ⟨rfl, rfl⟩ := List.cons.inj (hfront.symm.trans hcons)
      exact hm.finishes_turn hs hfront rfl fun m' hm' => ih (logged_turn hs d hfront) m' hm'

theorem finishes_drive {α : Type u} (d : Deletion) {s : ManualExecutor α} (hs : s.Logged)
    (call : Drive) {m : Reentrant} (hm : m.Plays s) :
    Finishes d m call.loop (s.drive d call).after := by
  cases call with
  | runAtMost limit => exact finishes_runLoop d limit 0 s hs m hm
  | runNext => exact finishes_runLoop d 1 0 s hs m hm
  | drain => exact finishes_drainLoop d 0 s hs m hm

/-- A call from outside is a plain one. -/
theorem Plays.drive {α : Type u} (d : Deletion) {s : ManualExecutor α} (hs : s.Logged)
    (call : Drive) {m : Reentrant} (hm : m.Plays s) :
    ∃ ls m', ((reentrant d).guard plain).exec m ls = some m' ∧
      m'.Plays (s.drive d call).after := by
  obtain ⟨ls, m', hrun, hm'⟩ := finishes_drive d hs call hm
  have hstep : ((reentrant d).guard plain).step m (.drive call) = m.loop call.loop := by
    simp [Machine.guard, plain, hm.frames, reentrant, Reentrant.step]
  exact ⟨.drive call :: ls, m', by rw [Machine.exec_cons, hstep, hrun], hm'⟩

theorem Plays.driveAll {α : Type u} (d : Deletion) (calls : List Drive) {s : ManualExecutor α}
    (hs : s.Logged) {m : Reentrant} (hm : m.Plays s) :
    ∃ ls m', ((reentrant d).guard plain).exec m ls = some m' ∧
      m'.Plays (s.driveAll d calls).2 := by
  induction calls generalizing s m with
  | nil => exact ⟨[], m, rfl, hm⟩
  | cons call calls ih =>
    obtain ⟨ls, u, hu, hdriven⟩ := hm.drive d hs call
    obtain ⟨ls', m', hm', hplays⟩ := ih (ManualExecutor.drive_logged d hs call) hdriven
    exact ⟨ls ++ ls', m', by rw [Machine.exec_append, hu, Option.bind_some, hm'], hplays⟩

/-- The executor of a forest, driven by any calls, is a run of the machine in which
nothing is thrown and no call is nested. -/
theorem forest_played {α : Type u} (d : Deletion) (forest : List (Rose α)) (calls : List Drive) :
    ∃ m, ((reentrant d).guard plain).Reachable m ∧
      m.Plays ((forest.foldl ManualExecutor.execute (.new α)).driveAll d calls).2 := by
  obtain ⟨m, hreachable, hm⟩ := plays_forest d forest
  obtain ⟨ls, m', hrun, hplays⟩ := hm.driveAll d calls (ManualExecutor.logged_forest forest)
  exact ⟨m', hreachable.exec hrun, hplays⟩

end Reentrant

end ConcurrentProgramming.Futures
