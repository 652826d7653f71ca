import ConcurrentProgramming.Interleaving.Machine
import ConcurrentProgramming.Interleaving.Tally
import ConcurrentProgramming.Fast.GlobalQueue

/-!
Shutdown of the global queue: any number of callers of `PushOne`, `Offload`,
`TryPopOne` and `Grab` against one `Stop`. The load of `is_closed_`, the locked
section and each `Discard` are steps of their own.
-/

set_option autoImplicit false

namespace ConcurrentProgramming.Fast
open Interleaving

inductive Request (T : Type) where
  | pushOne (item : T)
  | offload (buffer : List T)
  | tryPopOne
  | grab (outSize workers : Nat)
  deriving DecidableEq, Repr

/-- Where a caller is: `PushOne` and `Offload` first load `is_closed_`, then
either discard item by item or enter the locked section. -/
inductive Call (T : Type) where
  | idle
  | request (r : Request T)
  | pushOneLocked (item : T)
  | offloadLocked (buffer : List T)
  | discard (rest : List T)
  deriving DecidableEq, Repr

inductive StopCall (T : Type) where
  | notCalled
  | storeClosed
  | drain
  | discard (rest : List T)
  | returned
  deriving DecidableEq, Repr

/-- `passed`, `handed` and `discarded` record every item given to a push, handed
out by `Grab` or `TryPopOne`, and discarded. -/
structure Shutdown (ι T : Type) where
  global : GlobalQueue T
  calls : ι → Call T
  stop : StopCall T
  passed : List T
  handed : List T
  discarded : List T

inductive ShutdownLabel (ι T : Type) where
  | call (i : ι) (r : Request T)
  | step (i : ι)
  | callStop
  | stop
  deriving DecidableEq, Repr

def Request.items {T : Type} : Request T → List T
  | .pushOne item => [item]
  | .offload buffer => buffer
  | .tryPopOne | .grab _ _ => []

def Shutdown.goto {ι T : Type} [DecidableEq ι] (s : Shutdown ι T) (i : ι) (c : Call T) :
    Shutdown ι T := { s with calls := Function.update s.calls i c }

def Shutdown.callStep {ι T : Type} [DecidableEq ι] (s : Shutdown ι T) (i : ι) :
    Option (Shutdown ι T) :=
  match s.calls i with
  | .idle => none
  | .request (.pushOne item) =>
    some (s.goto i (if s.global.isClosed then .discard [item] else .pushOneLocked item))
  | .request (.offload buffer) =>
    some (s.goto i (if s.global.isClosed then .discard buffer else .offloadLocked buffer))
  | .request .tryPopOne =>
    s.global.tryPopOne.map fun (g, item) =>
      { s.goto i .idle with global := g, handed := s.handed ++ item.toList }
  | .request (.grab outSize workers) =>
    (s.global.grab outSize workers).map fun (g, items) =>
      { s.goto i .idle with global := g, handed := s.handed ++ items }
  | .pushOneLocked item => some { s.goto i .idle with global := s.global.pushOne item }
  | .offloadLocked buffer => some { s.goto i .idle with global := s.global.offload buffer }
  | .discard [] => some (s.goto i .idle)
  | .discard (item :: rest) =>
    some { s.goto i (.discard rest) with discarded := s.discarded ++ [item] }

def Shutdown.stopStep {ι T : Type} (s : Shutdown ι T) : Option (Shutdown ι T) :=
  match s.stop with
  | .notCalled | .returned => none
  | .storeClosed => some { s with global := { s.global with isClosed := true }, stop := .drain }
  | .drain =>
    match s.global.drain with
    | (_, []) => some { s with stop := .returned }
    | (g, items) => some { s with global := g, stop := .discard items }
  | .discard [] => some { s with stop := .drain }
  | .discard (item :: rest) =>
    some { s with stop := .discard rest, discarded := s.discarded ++ [item] }

def Shutdown.step {ι T : Type} [DecidableEq ι] (s : Shutdown ι T) :
    ShutdownLabel ι T → Option (Shutdown ι T)
  | .call i r =>
    match s.calls i with
    | .idle => some { s.goto i (.request r) with passed := s.passed ++ r.items }
    | _ => none
  | .step i => s.callStep i
  | .callStop =>
    match s.stop with
    | .notCalled => some { s with stop := .storeClosed }
    | _ => none
  | .stop => s.stopStep

def shutdown (ι T : Type) [DecidableEq ι] : Machine (Shutdown ι T) (ShutdownLabel ι T) where
  init := ⟨.new T, fun _ => .idle, .notCalled, [], [], []⟩
  step := Shutdown.step

/-- After `Stop` and every other call have returned, nothing is left behind and
every item passed was handed out or discarded, once. -/
structure Shutdown.LosesNothing {ι T : Type} [DecidableEq T] (s : Shutdown ι T) : Prop where
  empty : s.stop = .returned → (∀ i, s.calls i = .idle) → s.global.queue = []
  accounted : s.stop = .returned → (∀ i, s.calls i = .idle) →
    ∀ t, s.handed.count t + s.discarded.count t = s.passed.count t
  once : s.stop = .returned → (∀ i, s.calls i = .idle) → ∀ t, s.passed.count t = 1 →
    s.handed.count t = 1 ∧ s.discarded.count t = 0 ∨ s.handed.count t = 0 ∧ s.discarded.count t = 1

/-- No push that saw the queue open enters its section after `Stop` has seen the
queue empty for the last time. -/
def Shutdown.inTime {ι T : Type} [DecidableEq T] (s : Shutdown ι T) : ShutdownLabel ι T → Bool
  | .step i =>
    match s.calls i with
    | .pushOneLocked _ => s.stop ≠ .returned
    | .offloadLocked buffer => s.stop ≠ .returned ∨ buffer = []
    | _ => true
  | _ => true

/-- The items a caller still has to push or discard. -/
def Call.held {T : Type} : Call T → List T
  | .request r => r.items
  | .pushOneLocked item => [item]
  | .offloadLocked buffer => buffer
  | .discard rest => rest
  | .idle => []

def StopCall.held {T : Type} : StopCall T → List T
  | .discard rest => rest
  | _ => []

structure Shutdown.Inv {ι T : Type} [Fintype ι] [DecidableEq T] (s : Shutdown ι T) : Prop where
  conserved : ∀ t, s.passed.count t = s.handed.count t + s.discarded.count t +
    s.global.queue.count t + tally Finset.univ (fun c : Call T => c.held.count t) s.calls +
    s.stop.held.count t
  drained : s.stop = .returned → s.global.queue = []

/-- Caller `i` moves on; `hmove` balances what it held against the books. -/
theorem Shutdown.Inv.goto {ι T : Type} [Fintype ι] [DecidableEq ι] [DecidableEq T]
    {s : Shutdown ι T} (hs : s.Inv) {i : ι} {c : Call T} {g : GlobalQueue T}
    {passed handed discarded : List T}
    (hmove : ∀ t, passed.count t + (s.handed.count t + s.discarded.count t +
        s.global.queue.count t + (s.calls i).held.count t) =
      s.passed.count t + (handed.count t + discarded.count t + g.queue.count t + c.held.count t))
    (hdrained : s.stop = .returned → s.global.queue = [] → g.queue = []) :
    Inv { s.goto i c with
      global := g, passed := passed, handed := handed, discarded := discarded } := by
  refine ⟨fun t => ?_, fun h => hdrained h (hs.drained h)⟩
  have hc := hs.conserved t
  have hm := hmove t
  have ht := tally_update (fun c : Call T => c.held.count t) s.calls (Finset.mem_univ i) c
  simp only [Shutdown.goto] at ht ⊢
  omega

theorem Shutdown.callStep_inv {ι T : Type} [Fintype ι] [DecidableEq ι] [DecidableEq T]
    {s t : Shutdown ι T} {i : ι} (hs : s.Inv) (hok : s.inTime (.step i) = true)
    (h : s.callStep i = some t) : t.Inv := by
  cases hi : s.calls i with
  | idle => simp [callStep, hi] at h
  | request r =>
    cases r with
    | pushOne item =>
      simp only [callStep, hi, Option.some.injEq] at h
      subst h
      exact hs.goto (fun x => by split <;> simp [hi, Call.held, Request.items]) (fun _ h => h)
    | offload buffer =>
      simp only [callStep, hi, Option.some.injEq] at h
      subst h
      exact hs.goto (fun x => by split <;> simp [hi, Call.held, Request.items]) (fun _ h => h)
    | tryPopOne =>
      simp only [callStep, hi] at h
      obtain ⟨⟨g, item⟩, hg, rfl⟩ := Option.map_eq_some_iff.mp h
      have hq := (GlobalQueue.tryPopOne_queue hg).1
      refine hs.goto (fun x => ?_) (fun _ he => ?_)
      · simp only [Shutdown.goto, hi, hq, Call.held, Request.items, List.count_append,
          List.count_nil]
        omega
      · simp_all
    | grab outSize workers =>
      simp only [callStep, hi] at h
      obtain ⟨⟨g, items⟩, hg, rfl⟩ := Option.map_eq_some_iff.mp h
      have hq := (GlobalQueue.grab_queue hg).1
      refine hs.goto (fun x => ?_) (fun _ he => ?_)
      · simp only [Shutdown.goto, hi, hq, Call.held, Request.items, List.count_append,
          List.count_nil]
        omega
      · simp_all
  | pushOneLocked item =>
    simp only [callStep, hi, Option.some.injEq] at h
    subst h
    refine hs.goto (fun x => ?_) (fun hr _ => ?_)
    · simp only [Shutdown.goto, hi, Call.held, GlobalQueue.pushOne_queue, List.count_append,
        List.count_nil]
      omega
    · simp [inTime, hi, hr] at hok
  | offloadLocked buffer =>
    simp only [callStep, hi, Option.some.injEq] at h
    subst h
    refine hs.goto (fun x => ?_) (fun hr he => ?_)
    · simp only [Shutdown.goto, hi, Call.held, GlobalQueue.offload_queue, List.count_append,
        List.count_nil]
      omega
    · simp only [inTime, hi, hr, ne_eq, not_true_eq_false, false_or, decide_eq_true_eq] at hok
      simp [he, hok]
  | discard rest =>
    cases rest with
    | nil =>
      simp only [callStep, hi, Option.some.injEq] at h
      subst h
      exact hs.goto (fun x => by simp [hi, Call.held]) (fun _ h => h)
    | cons item rest =>
      simp only [callStep, hi, Option.some.injEq] at h
      subst h
      refine hs.goto (fun x => ?_) (fun _ h => h)
      simp only [Shutdown.goto, hi, Call.held, List.count_append, List.count_cons, List.count_nil]
      omega

theorem Shutdown.stopStep_inv {ι T : Type} [Fintype ι] [DecidableEq T] {s t : Shutdown ι T}
    (hs : s.Inv) (h : s.stopStep = some t) : t.Inv := by
  have hc := hs.conserved
  cases hst : s.stop with
  | notCalled | returned => simp [stopStep, hst] at h
  | storeClosed =>
    simp only [stopStep, hst, Option.some.injEq] at h
    subst h
    exact ⟨fun x => by simpa [hst, StopCall.held] using hc x, by simp⟩
  | drain =>
    cases hq : s.global.queue with
    | nil =>
      simp only [stopStep, hst, GlobalQueue.drain, hq, List.take_nil, Option.some.injEq] at h
      subst h
      exact ⟨fun x => by simpa [hst, StopCall.held] using hc x, fun _ => hq⟩
    | cons item rest =>
      simp only [stopStep, hst, GlobalQueue.drain, hq, List.take_succ_cons, Option.some.injEq] at h
      subst h
      refine ⟨fun x => ?_, by simp⟩
      have hx := hc x
      have hsplit := congrArg (List.count x) (List.take_append_drop 256 s.global.queue)
      rw [List.count_append] at hsplit
      simp only [hst, StopCall.held, hq, List.take_succ_cons] at hx hsplit ⊢
      simp only [List.count_nil] at hx
      omega
  | discard rest =>
    cases rest with
    | nil =>
      simp only [stopStep, hst, Option.some.injEq] at h
      subst h
      exact ⟨fun x => by simpa [hst, StopCall.held] using hc x, by simp⟩
    | cons item rest =>
      simp only [stopStep, hst, Option.some.injEq] at h
      subst h
      refine ⟨fun x => ?_, by simp⟩
      have hx := hc x
      simp only [hst, StopCall.held, List.count_append, List.count_cons, List.count_nil] at hx ⊢
      omega

theorem shutdown_inv {ι T : Type} [Fintype ι] [DecidableEq ι] [DecidableEq T]
    {s : Shutdown ι T} (h : ((shutdown ι T).guard Shutdown.inTime).Reachable s) : s.Inv := by
  refine h.invariant (I := Shutdown.Inv) ⟨fun t => ?_, by simp [shutdown]⟩ fun s l t _ hs hl => ?_
  · simp [shutdown, GlobalQueue.new, StopCall.held, tally, Call.held]
  · obtain ⟨hok, hl⟩ := Machine.guard_step.mp hl
    cases l with
    | step i => exact Shutdown.callStep_inv hs hok hl
    | stop => exact Shutdown.stopStep_inv hs hl
    | call i r =>
      cases hi : s.calls i <;> simp only [shutdown, Shutdown.step, hi, reduceCtorEq,
        Option.some.injEq] at hl
      subst hl
      refine hs.goto (fun x => ?_) (fun _ h => h)
      simp only [Shutdown.goto, hi, Call.held, List.count_append, List.count_nil]
      omega
    | callStop =>
      cases hst : s.stop <;> simp only [shutdown, Shutdown.step, hst, reduceCtorEq,
        Option.some.injEq] at hl
      subst hl
      exact ⟨fun x => by simpa [hst, StopCall.held] using hs.conserved x, by simp⟩

/-- Shutdown loses nothing in every run in which each push that saw the queue
open gets its section in before `Stop` is through draining. -/
theorem shutdown_loses_nothing {ι T : Type} [Fintype ι] [DecidableEq ι] [DecidableEq T]
    {s : Shutdown ι T} (h : ((shutdown ι T).guard Shutdown.inTime).Reachable s) :
    s.LosesNothing := by
  have hs := shutdown_inv h
  have hcount (hr : s.stop = .returned) (hi : ∀ i, s.calls i = .idle) (t : T) :
      s.handed.count t + s.discarded.count t = s.passed.count t := by
    have hc := hs.conserved t
    have hz : tally Finset.univ (fun c : Call T => c.held.count t) s.calls = 0 :=
      tally_eq_zero.mpr fun i _ => by simp [hi, Call.held]
    simp only [hs.drained hr, hz, hr, StopCall.held, List.count_nil] at hc
    omega
  refine ⟨fun hr _ => hs.drained hr, hcount, fun hr hi t ht => ?_⟩
  have := hcount hr hi t
  omega

/-- One item is handed out, two are left to the drain of `Stop`, and one comes when the
queue is closed. -/
theorem shutdown_loses_nothing_orderly :
    ∃ s, ((shutdown (Fin 2) Nat).guard Shutdown.inTime).Reachable s ∧ s.stop = .returned ∧
      s.passed = [6, 7, 8, 9] ∧ s.handed = [6] ∧ s.discarded = [7, 8, 9] ∧ s.LosesNothing := by
  have h : ((shutdown (Fin 2) Nat).guard Shutdown.inTime).Reachable _ :=
    Machine.reachable_of_exec ([.call 0 (.offload [6, 7]), .step 0, .step 0, .call 1 .tryPopOne,
      .step 1, .callStop, .call 0 (.pushOne 8), .step 0, .stop, .step 0, .stop, .stop, .stop, .stop,
      .call 1 (.pushOne 9), .step 1, .step 1, .step 1, .stop]) rfl
  exact ⟨_, h, rfl, rfl, rfl, rfl, shutdown_loses_nothing h⟩

/-- The push saw the queue open, `Stop` closed and drained it, and only then the
push entered its section: the item is neither handed out nor discarded. -/
theorem shutdown_strands_late_push :
    ∃ s, (shutdown (Fin 1) Nat).Reachable s ∧ s.stop = .returned ∧ (∀ i, s.calls i = .idle) ∧
      s.global.queue = [7] ∧ ¬ s.LosesNothing := by
  have h : (shutdown (Fin 1) Nat).Reachable _ := Machine.reachable_of_exec
    ([.call 0 (.pushOne 7), .step 0, .callStop, .stop, .stop, .step 0]) rfl
  refine ⟨_, h, rfl, by decide, rfl, fun hl => ?_⟩
  have := hl.empty rfl (by decide)
  revert this
  decide

end ConcurrentProgramming.Fast
