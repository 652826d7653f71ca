import ConcurrentProgramming.Fast.Pick

/-!
How often a worker polls the global queue. Nothing in `PickNextTask` makes it do so
while its own ring has tasks, so the bound depends on how often the ring runs empty.
-/

set_option autoImplicit false

namespace ConcurrentProgramming.Fast
open Interleaving

/-- Among any `k` consecutive calls one has polled the global queue. -/
def PollsWithin {T : Type} (k : Nat) (log : List (PickEvent T)) : Prop :=
  Recurs PollsGlobalQueue k (calls log)

def PickEvent.ringPoll {T : Type} : PickEvent T → Option (Option T)
  | .tryPickNextTask ans => some ans
  | _ => none

/-- No more than `b` polls of the ring in a row find a task. -/
def RunsEmpty {T : Type} (b : Nat) (log : List (PickEvent T)) : Prop :=
  Recurs (fun ans => ans = none) (b + 1) (log.filterMap PickEvent.ringPoll)

/-- A log that some worker of some pool can have. -/
def PickLog (O : Type) {T : Type} [DecidableEq O] (log : List (PickEvent T)) : Prop :=
  ∃ (n : Nat) (w : Fin n) (s : Pool n O T × List (PickEvent T)),
    (pickingPool n O T w).Reachable s ∧ s.2 = log

theorem PickLog.picking {O T : Type} [DecidableEq O] {log : List (PickEvent T)}
    (h : PickLog O log) : ∃ (n : Nat) (x : Worker n T), Picking x log := by
  obtain ⟨n, w, s, hs, rfl⟩ := h
  exact ⟨n, s.1.workers w, pickingPool_inv hs⟩

/-- A call that returns at once takes its task from the LIFO slot or from the ring. -/
theorem PickEvent.atOnce {T : Type} {e : PickEvent T} (hbefore : e.before = .fresh)
    (hends : e.ends = true) : (!e.isLifo) = true → ∃ task, e.ringPoll = some (some task) := by
  intro hlifo
  cases e with
  | lifo task => cases hlifo
  | tryPickNextTask ans =>
    cases ans with
    | none => cases hends
    | some task => exact ⟨task, rfl⟩
  | _ => cases hbefore

/-- The limit of the LIFO slot brings the ring into play, over and over. -/
theorem Picking.pollsWithin {n : Nat} {T : Type} {x : Worker n T} {log : List (PickEvent T)}
    (hs : Picking x log) {b : Nat} (h : RunsEmpty b log) :
    PollsWithin ((kLifoLimit + 1) * (b + 1)) log := by
  intro window hwindow hlength
  by_contra hnone
  have hsingle : ∀ call ∈ window, ∃ e, call = [e] ∧ e.before = .fresh ∧ e.ends = true := by
    intro call hcall
    rcases hs.order.calls.1 call (hwindow.subset hcall) with hsingle | ⟨hpolls, -⟩
    · exact hsingle
    · exact absurd ⟨call, hcall, hpolls⟩ hnone
  have hevents : ∀ e ∈ window.flatten, e.before = .fresh ∧ e.ends = true := by
    intro e he
    obtain ⟨call, hcall, hmem⟩ := List.mem_flatten.mp he
    obtain ⟨e', rfl, hbefore, hends⟩ := hsingle call hcall
    exact List.mem_singleton.mp hmem ▸ ⟨hbefore, hends⟩
  have hwithin : window.flatten <:+: log := flatten_within hwindow
  have hlong : window.flatten.length = (kLifoLimit + 1) * (b + 1) := by
    rw [← hlength]
    apply length_flatten_of_singletons
    intro call hcall
    obtain ⟨e, he, -⟩ := hsingle call hcall
    exact ⟨e, he⟩
  -- the ring is polled at least `b + 1` times, and each time it has a task
  have hpolls : b + 1 ≤ (window.flatten.filterMap PickEvent.ringPoll).length := by
    have hcount := (hs.recurs.of_within hwithin).le_countP (Nat.le_of_eq hlong.symm)
    rw [List.length_filterMap_eq_countP]
    refine Nat.le_trans hcount (List.countP_mono_left fun e he hlifo => ?_)
    obtain ⟨task, htask⟩ := PickEvent.atOnce (hevents e he).1 (hevents e he).2 hlifo
    simp [htask]
  have hhits : ∀ ans ∈ window.flatten.filterMap PickEvent.ringPoll, ans ≠ none := by
    intro ans hans
    obtain ⟨e, he, hans⟩ := List.mem_filterMap.mp hans
    have hlifo : (!e.isLifo) = true := by cases e <;> first | rfl | cases hans
    obtain ⟨task, htask⟩ := PickEvent.atOnce (hevents e he).1 (hevents e he).2 hlifo
    rw [htask] at hans
    exact Option.some.inj hans ▸ nofun
  have hpart := ( List.take_prefix (b + 1) _).isInfix.trans (hwithin.filterMap PickEvent.ringPoll)
  obtain ⟨ans, hmem, hans⟩ := h _ hpart (List.length_take_of_le hpolls)
  exact hhits ans (List.mem_of_mem_take hmem) hans

/-- While the ring is found with a task every time, every call returns at once. -/
theorem PickOrder.atOnce {T : Type} {before after later : List (PickEvent T)} {e : PickEvent T}
    (h : PickOrder (before ++ e :: after ++ later)) (he : e.ends = true)
    (hhits : ∀ ans ∈ after.filterMap PickEvent.ringPoll, ans ≠ none) :
    ∀ x ∈ after, x.before = .fresh ∧ x.ends = true := by
  induction after generalizing before e with
  | nil => nofun
  | cons x after ih =>
    have hx : x.before = phase (before ++ [e]) := h (before ++ [e]) x (after ++ later) (by simp)
    rw [phase_concat, PickEvent.after_of_ends he] at hx
    have hends : x.ends = true := by
      cases x with
      | lifo task => rfl
      | tryPickNextTask ans =>
        exact Option.isSome_iff_ne_none.mpr (hhits ans (by simp [PickEvent.ringPoll]))
      | _ => cases hx
    intro y hy
    rcases List.mem_cons.mp hy with rfl | hy
    · exact ⟨hx, hends⟩
    · have hnext : PickOrder (before ++ [e] ++ x :: after ++ later) := by simpa using h
      refine ih hnext hends (fun ans hans => hhits ans ?_) y hy
      rw [List.filterMap_cons]
      split
      · exact hans
      · exact List.mem_cons_of_mem _ hans

/-- A stretch of calls that return at once is a stretch of the calls. -/
theorem calls_atOnce {T : Type} (before later : List (PickEvent T))
    {after : List (PickEvent T)} {e : PickEvent T} (he : e.ends = true) (hafter : ∀ x ∈ after, x.ends = true) :
    (after.map fun x => [x]) <:+: calls (before ++ e :: after ++ later) := by
  have hall := segments_all hafter
  have hrest : segments PickEvent.ends (after ++ later) =
      ((after.map fun x => [x]) ++ (segments PickEvent.ends later).1,
        (segments PickEvent.ends later).2) := by
    rw [segments_append (by rw [hall]), hall]
  have hsplit : before ++ e :: after ++ later = before ++ [e] ++ (after ++ later) := by simp
  rw [calls, hsplit, segments_append (segments_ended he before), hrest]
  exact ⟨_, _, List.append_assoc _ _ _⟩

theorem PickOrder.runsEmpty {T : Type} {log : List (PickEvent T)} (hs : PickOrder log) {k : Nat}
    (h : PollsWithin k log) : RunsEmpty k log := by
  intro window hwindow hlength
  by_contra hnone
  obtain ⟨part, ⟨earlier, later, rfl⟩, rfl⟩ := List.infix_filterMap_iff.mp hwindow
  have hhits : ∀ ans ∈ part.filterMap PickEvent.ringPoll, ans ≠ none :=
    fun ans hans heq => hnone ⟨ans, hans, heq⟩
  obtain ⟨first, rest, hpart⟩ := List.exists_cons_of_length_eq_add_one hlength
  obtain ⟨front, e, after, rfl, -, he, hrest⟩ := List.filterMap_eq_cons_iff.mp hpart
  rw [hpart] at hhits hlength
  have hends : e.ends = true := by
    have hfirst := hhits first (by simp)
    cases e <;> cases he
    exact Option.isSome_iff_ne_none.mpr hfirst
  rw [← List.append_assoc earlier front] at hs h
  have hatOnce := hs.atOnce hends fun ans hans =>
    hhits ans (List.mem_cons_of_mem _ (hrest ▸ hans))
  have hcalls := calls_atOnce (earlier ++ front) later hends fun x hx => (hatOnce x hx).2
  have hlong : k ≤ (after.map fun x => [x]).length := by
    have := List.length_filterMap_le PickEvent.ringPoll after
    rw [hrest] at this
    simp only [List.length_cons, List.length_map] at hlength ⊢
    omega
  obtain ⟨call, hcall, ans, hans⟩ := h _ (( List.take_prefix k _).isInfix.trans hcalls)
    (List.length_take_of_le hlong)
  obtain ⟨x, hx, rfl⟩ := List.mem_map.mp (List.mem_of_mem_take hcall)
  have hbefore := (hatOnce x hx).1
  rw [← List.mem_singleton.mp hans] at hbefore
  cases hbefore

/-- What is known of a pool with one worker, and its log. -/
structure Solo (log : List (PickEvent Nat)) (global : GlobalQueue (Option Nat))
    (x : Worker 1 Nat) (s : Pool 1 (Fin 1) Nat × List (PickEvent Nat)) : Prop where
  reachable : (pickingPool 1 (Fin 1) Nat 0).Reachable s
  log : s.2 = log
  global : s.1.global = global
  worker : s.1.workers 0 = x

theorem Solo.step {log e : List (PickEvent Nat)} {global global' : GlobalQueue (Option Nat)}
    {x y : Worker 1 Nat} {s : Pool 1 (Fin 1) Nat × List (PickEvent Nat)} {t : Pool 1 (Fin 1) Nat}
    (hs : Solo log global x s) {l : PoolLabel 1 (Fin 1) Nat} (h : s.1.step l = some t)
    (he : s.1.pickLog 0 l = e) (hglobal : t.global = global') (hy : t.workers 0 = y) :
    ∃ u, Solo (log ++ e) global' y u := by
  have hstep : (pickingPool 1 (Fin 1) Nat 0).step s l = some (t, s.2 ++ e) := by
    rw [← he]
    show (s.1.step l).map _ = _
    rw [h]
    rfl
  exact ⟨_, hs.reachable.step hstep, by rw [hs.log], hglobal, hy⟩

theorem Solo.localStep {log events : List (PickEvent Nat)} {global : GlobalQueue (Option Nat)}
    {x y : Worker 1 Nat} {s : Pool 1 (Fin 1) Nat × List (PickEvent Nat)}
    (hs : Solo log global x s) (h : x.localStep (s.1.coordinator.impudence 0) = some y)
    (hevents : s.1.pickEvents 0 = events) : ∃ u, Solo (log ++ events) global y u := by
  let c : Choice 1 Nat := ⟨none, 0, fun _ => none⟩
  have hstep : s.1.step (.worker 0 c) = some (s.1.setWorker 0 y) := by
    rw [← hs.worker] at h
    simp [Pool.step, Pool.workerStep, h]
  exact hs.step hstep (by simpa [Pool.pickLog] using hevents) hs.global
    (Pool.setWorker_self _ _ _)

theorem Solo.quietStep {log : List (PickEvent Nat)} {global : GlobalQueue (Option Nat)}
    {x y : Worker 1 Nat} {s : Pool 1 (Fin 1) Nat × List (PickEvent Nat)}
    (hs : Solo log global x s) (hevents : s.1.pickEvents 0 = [])
    (h : x.localStep (s.1.coordinator.impudence 0) = some y) : ∃ u, Solo log global y u := by
  have hnext := hs.localStep h hevents
  rwa [List.append_nil] at hnext

theorem Solo.goto {log : List (PickEvent Nat)} {global : GlobalQueue (Option Nat)} {x : Worker 1 Nat}
    {s : Pool 1 (Fin 1) Nat × List (PickEvent Nat)} (hs : Solo log global x s)
    {l : PoolLabel 1 (Fin 1) Nat} (pc : Work 1 Nat) (hevents : s.1.pickLog 0 l = [])
    (h : s.1.step l = some (s.1.goto 0 pc)) : ∃ u, Solo log global (x.goto pc) u := by
  have hnext := hs.step h hevents hs.global (Pool.goto_self s.1 0 pc)
  rwa [List.append_nil, hs.worker] at hnext

/-- The worker comes to the LIFO slot, after an `AwakeOne` in every tenth iteration. -/
theorem Solo.pick {log : List (PickEvent Nat)} {global : GlobalQueue (Option Nat)}
    {localTasks : List (Option Nat)} {cycle : Nat}
    {s : Pool 1 (Fin 1) Nat × List (PickEvent Nat)}
    (hs : Solo log global ⟨.pick, localTasks, none, 0, cycle, false⟩ s) :
    ∃ cycle' u, Solo log global ⟨.lifo, localTasks, none, 0, cycle', false⟩ u := by
  have hquiet : s.1.pickEvents 0 = [] := by simp [Pool.pickEvents, hs.worker]
  by_cases hcycle : cycle + 1 ≥ 10
  · obtain ⟨s, hs⟩ := hs.quietStep (y := ⟨.awakeOne, localTasks, none, 0, 0, false⟩) hquiet
      (by simp [Worker.localStep, hcycle])
    have hawake : s.1.step (.worker 0 ⟨none, 0, fun _ => none⟩) = some (s.1.goto 0 .lifo) := by
      simp [Pool.step, Pool.workerStep, Worker.localStep, Pool.globalStep, Pool.coordinatorStep,
        Pool.notifyOne, Worker.asleep, hs.worker]
    obtain ⟨s, hs⟩ := hs.goto .lifo (by simp [Pool.pickLog, Pool.pickEvents, hs.worker]) hawake
    exact ⟨_, s, hs⟩
  · obtain ⟨s, hs⟩ := hs.quietStep (y := ⟨.lifo, localTasks, none, 0, cycle + 1, false⟩) hquiet
      (by simp [Worker.localStep, hcycle])
    exact ⟨_, s, hs⟩

/-- The task calls `Execute` on itself, as a fiber that yields does. -/
theorem Solo.pushOne {log : List (PickEvent Nat)} {cycle : Nat}
    {s : Pool 1 (Fin 1) Nat × List (PickEvent Nat)}
    (hs : Solo log ⟨[], false, ⟨0⟩⟩ ⟨.run 0, [], none, 0, cycle, false⟩ s) :
    ∃ u, Solo log ⟨[some 0], false, ⟨1⟩⟩ ⟨.run 0, [], none, 0, cycle, false⟩ u := by
  let c : Choice 1 Nat := ⟨none, 0, fun _ => none⟩
  obtain ⟨s, hs⟩ := hs.goto (l := .execute 0 0 .slow) (.execute 0 (.pushOne 0)) rfl
    (by simp [Pool.step, hs.worker, Execute.start])
  obtain ⟨s, hs⟩ := hs.goto (l := .worker 0 c) (.execute 0 (.pushOneLocked 0))
    (by simp [Pool.pickLog, Pool.pickEvents, hs.worker, Worker.goto])
    (by simp [Pool.step, Pool.workerStep, Worker.localStep, Pool.globalStep, hs.worker, hs.global,
      Worker.goto])
  have hpush : s.1.step (.worker 0 c) = some { s.1.goto 0 (.execute 0 .prohibitParking) with
      global := s.1.global.pushOne (some 0) } := by
    simp [Pool.step, Pool.workerStep, Worker.localStep, Pool.globalStep, hs.worker, Worker.goto]
  obtain ⟨s, hs⟩ := hs.step (y := ⟨.execute 0 .prohibitParking, [], none, 0, cycle, false⟩)
    (e := []) hpush (by simp [Pool.pickLog, Pool.pickEvents, hs.worker, Worker.goto])
    (congrArg (·.pushOne (some 0)) hs.global) (by simp [Pool.goto, hs.worker, Worker.goto])
  have hprohibit : s.1.step (.worker 0 c) = some (Pool.goto
      { s.1 with coordinator := s.1.coordinator.prohibitParking } 0 (.run 0)) := by
    simp [Pool.step, Pool.workerStep, Worker.localStep, Pool.globalStep, Pool.coordinatorStep,
      Pool.prohibitParking, Pool.notifyOne, Worker.asleep, hs.worker, c]
  obtain ⟨u, hu⟩ := hs.step (y := ⟨.run 0, [], none, 0, cycle, false⟩) (e := []) hprohibit
    (by simp [Pool.pickLog, Pool.pickEvents, hs.worker]) hs.global
    (by simp [Pool.goto, hs.worker, Worker.goto])
  rw [List.append_nil, List.append_nil] at hu
  exact ⟨u, hu⟩

/-- The worker finds its ring empty and polls the global queue. -/
theorem Solo.poll {log : List (PickEvent Nat)} {cycle : Nat}
    {s : Pool 1 (Fin 1) Nat × List (PickEvent Nat)}
    (hs : Solo log ⟨[some 0], false, ⟨1⟩⟩ ⟨.pick, [], none, 0, cycle, false⟩ s) :
    ∃ cycle' u, Solo (log ++ [.tryPickNextTask none, .grabTasksFromGlobalQueue (some 0)])
      ⟨[], false, ⟨0⟩⟩ ⟨.run 0, [], none, 0, cycle', false⟩ u := by
  obtain ⟨cycle', s, hs⟩ := hs.pick
  obtain ⟨s, hs⟩ := hs.quietStep (y := ⟨.tryPop, [], none, 0, cycle', false⟩)
    (by simp [Pool.pickEvents, hs.worker]) rfl
  obtain ⟨s, hs⟩ := hs.localStep (y := ⟨.grab, [], none, 0, cycle', false⟩) rfl
    (by simp [Pool.pickEvents, hs.worker]; rfl)
  have hone : s.1.global.grab (kLocalQueueCapacity / 2) 1 =
      some (⟨[], false, ⟨0⟩⟩, [some 0]) := by
    rw [hs.global]
    rfl
  have hgrab : s.1.step (.worker 0 ⟨none, 0, fun _ => none⟩) =
      some { s.1.goto 0 (.run 0) with global := ⟨[], false, ⟨0⟩⟩ } := by
    simp [Pool.step, Pool.workerStep, Worker.localStep, Pool.globalStep, hs.worker, Pool.grab, hone,
      Worker.picked]
  obtain ⟨u, hu⟩ := hs.step (y := ⟨.run 0, [], none, 0, cycle', false⟩)
    (e := [.grabTasksFromGlobalQueue (some 0)]) hgrab
    (by simp [Pool.pickLog, Pool.pickEvents, hs.worker, hone]) rfl
    (by simp [Pool.goto, hs.worker, Worker.goto])
  rw [List.append_assoc] at hu
  exact ⟨cycle', u, hu⟩

/-- From one run of a task that yields to the next, through the global queue. -/
theorem Solo.yields {log : List (PickEvent Nat)} {cycle : Nat}
    {s : Pool 1 (Fin 1) Nat × List (PickEvent Nat)}
    (hs : Solo log ⟨[], false, ⟨0⟩⟩ ⟨.run 0, [], none, 0, cycle, false⟩ s) :
    ∃ cycle' u, Solo (log ++ [.tryPickNextTask none, .grabTasksFromGlobalQueue (some 0)])
      ⟨[], false, ⟨0⟩⟩ ⟨.run 0, [], none, 0, cycle', false⟩ u := by
  obtain ⟨s, hs⟩ := hs.pushOne
  obtain ⟨s, hs⟩ := hs.goto (l := .return_ 0) .pick rfl (by simp [Pool.step, hs.worker])
  exact hs.poll

/-- What the only worker of a pool learns while its only task yields `k` times. -/
def yields (k : Nat) : List (PickEvent Nat) :=
  (List.replicate (k + 1) [.tryPickNextTask none, .grabTasksFromGlobalQueue (some 0)]).flatten

theorem yields_start : ∃ s, Solo (yields 0) ⟨[], false, ⟨0⟩⟩ ⟨.run 0, [], none, 0, 1, false⟩ s := by
  obtain ⟨s, h, hs⟩ := Machine.exists_reachable_of_exec (M := pickingPool 1 (Fin 1) Nat 0)
    (p := fun s => decide (s.2 = yields 0 ∧ s.1.global = ⟨[], false, ⟨0⟩⟩ ∧
      s.1.workers 0 = ⟨.run 0, [], none, 0, 1, false⟩))
    (.submit 0 0 :: List.replicate 3 (.outside 0 none) ++
      List.replicate 4 (.worker 0 ⟨none, 0, fun _ => none⟩)) (by decide +kernel)
  obtain ⟨hlog, hglobal, hworker⟩ := of_decide_eq_true hs
  exact ⟨s, h, hlog, hglobal, hworker⟩

theorem yields_run (k : Nat) : ∃ cycle s,
    Solo (yields k) ⟨[], false, ⟨0⟩⟩ ⟨.run 0, [], none, 0, cycle, false⟩ s := by
  induction k with
  | zero => exact ⟨1, yields_start⟩
  | succ k ih =>
    obtain ⟨cycle, s, hs⟩ := ih
    obtain ⟨cycle', u, hu⟩ := hs.yields
    refine ⟨cycle', u, ?_⟩
    rwa [yields, List.replicate_succ', List.flatten_append, List.flatten_singleton]

theorem yields_pickLog (k : Nat) : PickLog (Fin 1) (yields k) := by
  obtain ⟨cycle, s, hs⟩ := yields_run k
  exact ⟨1, 0, s, hs.reachable, hs.log⟩

theorem yields_runsEmpty (k : Nat) : RunsEmpty 0 (yields k) := by
  have hpolls : (yields k).filterMap PickEvent.ringPoll = List.replicate (k + 1) none := by
    rw [yields]
    induction k + 1 with
    | zero => rfl
    | succ k ih =>
      rw [List.replicate_succ, List.flatten_cons, List.filterMap_append, ih]
      rfl
  intro window hwindow hlength
  rw [hpolls] at hwindow
  obtain ⟨ans, hans⟩ := List.exists_mem_of_length_pos (l := window) (by omega)
  exact ⟨ans, hans, List.eq_of_mem_replicate (hwindow.subset hans)⟩

/-- For any runs there is a bound on how long the global queue is not polled if and
only if there is one on how long the rings are found with a task. -/
theorem polls_iff_runsEmpty {O T : Type} [DecidableEq O] {R : List (PickEvent T) → Prop}
    (hR : ∀ log, R log → PickLog O log) :
    (∃ k, ∀ log, R log → PollsWithin k log) ↔ ∃ b, ∀ log, R log → RunsEmpty b log := by
  constructor
  · rintro ⟨k, h⟩
    refine ⟨k, fun log hlog => ?_⟩
    obtain ⟨n, x, hs⟩ := (hR log hlog).picking
    exact hs.order.runsEmpty (h log hlog)
  · rintro ⟨b, h⟩
    refine ⟨(kLifoLimit + 1) * (b + 1), fun log hlog => ?_⟩
    obtain ⟨n, x, hs⟩ := (hR log hlog).picking
    exact hs.pollsWithin (h log hlog)

/-- The runs of one worker whose only task yields, over and over. -/
theorem polls_iff_runsEmpty_yields : PickLog (Fin 1) (yields 2) ∧
    ∃ k, ∀ log, (∃ rounds, log = yields rounds) → PollsWithin k log :=
  ⟨yields_pickLog 2, (polls_iff_runsEmpty (O := Fin 1) fun _ ⟨rounds, h⟩ =>
    h ▸ yields_pickLog rounds).mpr ⟨0, fun _ ⟨rounds, h⟩ => h ▸ yields_runsEmpty rounds⟩⟩

/-! One worker whose task pushes a successor into the ring, while a yielded fiber
waits in the global queue. -/

/-- From one task to its successor, past a queue that is not polled. -/
theorem Solo.next {log : List (PickEvent Nat)} {global : GlobalQueue (Option Nat)} {task cycle : Nat}
    {s : Pool 1 (Fin 1) Nat × List (PickEvent Nat)}
    (hs : Solo log global ⟨.run task, [], none, 0, cycle, false⟩ s) :
    ∃ cycle' u, Solo (log ++ [.tryPickNextTask (some 7)]) global
      ⟨.run 7, [], none, 0, cycle', false⟩ u := by
  obtain ⟨s, hs⟩ := hs.goto (l := .execute 0 7 .upToYou) (.execute task (.pushToLocalQueue 7)) rfl
    (by simp [Pool.step, hs.worker, Execute.start])
  obtain ⟨s, hs⟩ := hs.quietStep
    (y := ⟨.execute task (.tryPush 7), [], none, 0, cycle, false⟩)
    (by simp [Pool.pickEvents, hs.worker, Worker.goto]) rfl
  obtain ⟨s, hs⟩ := hs.quietStep (y := ⟨.run task, [some 7], none, 0, cycle, false⟩)
    (by simp [Pool.pickEvents, hs.worker]) rfl
  obtain ⟨s, hs⟩ := hs.goto (l := .return_ 0) .pick rfl (by simp [Pool.step, hs.worker])
  obtain ⟨cycle', s, hs⟩ := hs.pick
  obtain ⟨s, hs⟩ := hs.quietStep (y := ⟨.tryPop, [some 7], none, 0, cycle', false⟩)
    (by simp [Pool.pickEvents, hs.worker]) rfl
  obtain ⟨s, hs⟩ := hs.localStep (y := ⟨.run 7, [], none, 0, cycle', false⟩)
    rfl (by simp [Pool.pickEvents, hs.worker]; rfl)
  exact ⟨cycle', s, hs⟩

/-- A task comes from the global queue, and a yielded fiber goes there. -/
theorem starved_start : ∃ s, Solo [.tryPickNextTask none, .grabTasksFromGlobalQueue (some 0)]
    ⟨[some 1], false, ⟨1⟩⟩ ⟨.run 0, [], none, 0, 1, false⟩ s := by
  let turns (k : Nat) : List (PoolLabel 1 (Fin 1) Nat) :=
    List.replicate k (.worker 0 ⟨none, 0, fun _ => none⟩)
  obtain ⟨s, h, hs⟩ := Machine.exists_reachable_of_exec (M := pickingPool 1 (Fin 1) Nat 0)
    (p := fun s => decide (
      s.2 = [.tryPickNextTask none, .grabTasksFromGlobalQueue (some 0)] ∧
        s.1.global = ⟨[some 1], false, ⟨1⟩⟩ ∧ s.1.workers 0 = ⟨.run 0, [], none, 0, 1, false⟩))
    (.submit 0 0 :: List.replicate 3 (.outside 0 none) ++ turns 4 ++ .execute 0 1 .slow :: turns 3)
    (by decide +kernel)
  obtain ⟨hlog, hglobal, hworker⟩ := of_decide_eq_true hs
  exact ⟨s, h, hlog, hglobal, hworker⟩

theorem starved_run (k : Nat) : ∃ task cycle s,
    Solo (.tryPickNextTask none :: .grabTasksFromGlobalQueue (some 0) ::
      List.replicate k (.tryPickNextTask (some 7))) ⟨[some 1], false, ⟨1⟩⟩
      ⟨.run task, [], none, 0, cycle, false⟩ s := by
  induction k with
  | zero =>
    obtain ⟨s, hs⟩ := starved_start
    exact ⟨0, 1, s, hs⟩
  | succ k ih =>
    obtain ⟨task, cycle, s, hs⟩ := ih
    obtain ⟨cycle', u, hu⟩ := hs.next
    rw [List.replicate_succ']
    exact ⟨7, cycle', u, hu⟩

/-- There is no bound: the yielded fiber waits in the global queue. -/
theorem globalQueue_starved : ¬ ∃ k, ∀ s, (pickingPool 1 (Fin 1) Nat 0).Reachable s →
    s.1.global.queue = [some 1] → PollsWithin k s.2 := by
  rintro ⟨k, h⟩
  obtain ⟨task, cycle, s, hs⟩ := starved_run k
  have hpolls := h s hs.reachable (by rw [hs.global])
  rw [hs.log] at hpolls
  have hhits : ∀ x ∈ List.replicate k (PickEvent.tryPickNextTask (some 7)), x.ends = true :=
    fun x hx => List.eq_of_mem_replicate hx ▸ rfl
  have hcalls := calls_atOnce (e := .grabTasksFromGlobalQueue (some 0)) [.tryPickNextTask none] []
    rfl hhits
  rw [List.append_nil] at hcalls
  obtain ⟨call, hcall, ans, hans⟩ := hpolls _ hcalls (by simp)
  obtain ⟨x, hx, rfl⟩ := List.mem_map.mp hcall
  rw [List.eq_of_mem_replicate hx, List.mem_singleton] at hans
  cases hans

end ConcurrentProgramming.Fast
