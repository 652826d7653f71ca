import ConcurrentProgramming.Interleaving.Machine
import ConcurrentProgramming.Fibers.Futex
import Mathlib.Data.List.Nodup
import Mathlib.Logic.Function.Basic

/-!
What `FutexLike` is for: its calls with a section a step, as if the lock were not
there. An awaiter in the list is that of a parked fiber, and after a `WakeAll`
nobody is parked on a value that the cell has lost before.
-/

set_option autoImplicit false

namespace ConcurrentProgramming.Fibers
open Interleaving

/-- Between its call and its return a `WakeOne` or `WakeAll` takes effect once. -/
inductive WakeCall where
  | idle
  | called (all : Bool)
  | returning
  deriving DecidableEq, Repr

/-- The futex with a section a step. -/
structure Futex (F C V : Type) where
  cell : V
  waiter : FutexLike F
  oldValue : F → V
  parking : F → Option ParkIfEqual
  calls : C → WakeCall

inductive FutexLabel (F C V : Type) where
  | parkIfEqual (f : F) (old : V)
  | setAwaiter (f : F)
  | awaitSuspend (f : F)
  | resume (f : F)
  | relock (f : F)
  | call (c : C) (all : Bool)
  | wake (c : C)
  | return_ (c : C)
  | store (value : V)
  deriving DecidableEq, Repr

namespace Futex

def goto {F C V : Type} [DecidableEq F] (s : Futex F C V) (f : F) (pc : Option ParkIfEqual) :
    Futex F C V := { s with parking := Function.update s.parking f pc }

def setCall {F C V : Type} [DecidableEq C] (s : Futex F C V) (c : C) (call : WakeCall) :
    Futex F C V := { s with calls := Function.update s.calls c call }

/-- What was popped is scheduled. -/
def scheduled {F C V : Type} [DecidableEq F] (s : Futex F C V) (popped : List F) : Futex F C V :=
  { s with parking := fun f => if f ∈ popped then some .scheduled else s.parking f }

def step {F C V : Type} [DecidableEq F] [DecidableEq C] [DecidableEq V] (s : Futex F C V) :
    FutexLabel F C V → Option (Futex F C V)
  | .parkIfEqual f old =>
    match s.parking f with
    | none => some { s.goto f (some .setAwaiter) with
        oldValue := Function.update s.oldValue f old }
    | _ => none
  | .setAwaiter f =>
    match s.parking f with
    | some .setAwaiter => some (s.goto f (some .awaitSuspend))
    | _ => none
  | .awaitSuspend f =>
    match s.parking f with
    | some .awaitSuspend =>
      let (waiter, scheduled) := s.waiter.awaitSuspend f (decide (s.cell = s.oldValue f))
      some { s.goto f (some (if scheduled then .scheduled else .parked)) with waiter := waiter }
    | _ => none
  | .resume f =>
    match s.parking f with
    | some .scheduled => some (s.goto f (some .relock))
    | _ => none
  | .relock f =>
    match s.parking f with
    | some .relock => some (s.goto f none)
    | _ => none
  | .call c all =>
    match s.calls c with
    | .idle => some (s.setCall c (.called all))
    | _ => none
  | .wake c =>
    match s.calls c with
    | .called true =>
      let (waiter, popped) := s.waiter.wakeAll
      some { (s.setCall c .returning).scheduled popped with waiter := waiter }
    | .called false =>
      let (waiter, popped) := s.waiter.wakeOne
      some { (s.setCall c .returning).scheduled popped.toList with waiter := waiter }
    | _ => none
  | .return_ c =>
    match s.calls c with
    | .returning => some (s.setCall c .idle)
    | _ => none
  | .store value => some { s with cell := value }

end Futex

def futex (F C V : Type) [DecidableEq F] [DecidableEq C] [DecidableEq V] (cell : V) :
    Machine (Futex F C V) (FutexLabel F C V) where
  init := ⟨cell, ⟨[]⟩, fun _ => cell, fun _ => none, fun _ => .idle⟩
  step := Futex.step

namespace Futex

/-- The list holds the parked fibers, each once. -/
structure Listed {F C V : Type} (s : Futex F C V) : Prop where
  nodup : s.waiter.queue.Nodup
  mem_iff : ∀ f, f ∈ s.waiter.queue ↔ s.parking f = some .parked

/-- Nobody is parked on a value that the cell does not have. -/
def Current {F C V : Type} (s : Futex F C V) : Prop :=
  ∀ f ∈ s.waiter.queue, s.oldValue f = s.cell

/-- A fiber moves that is not parked and does not park. -/
theorem Listed.goto {F C V : Type} [DecidableEq F] {s : Futex F C V} (hs : s.Listed) {f : F}
    {pc : Option ParkIfEqual} (hf : s.parking f ≠ some .parked) (hpc : pc ≠ some .parked) :
    (s.goto f pc).Listed := by
  refine ⟨hs.nodup, fun g => ?_⟩
  have hmem := hs.mem_iff g
  by_cases hg : g = f
  · subst hg
    simpa [Futex.goto, hpc, hf] using hmem
  · simpa [Futex.goto, hg] using hmem

/-- What leaves the list is scheduled. -/
theorem Listed.scheduled {F C V : Type} [DecidableEq F] {s : Futex F C V} (hs : s.Listed)
    {popped rest : List F} (hqueue : s.waiter.queue = popped ++ rest) :
    ({ s.scheduled popped with waiter := ⟨rest⟩ } : Futex F C V).Listed := by
  have hnodup := hs.nodup
  rw [hqueue] at hnodup
  obtain ⟨-, hrest, hdisjoint⟩ := List.nodup_append.mp hnodup
  refine ⟨hrest, fun g => ?_⟩
  have hmem := hs.mem_iff g
  rw [hqueue, List.mem_append] at hmem
  by_cases hg : g ∈ popped
  · have hgone : g ∉ rest := fun h => hdisjoint g hg g h rfl
    simp [Futex.scheduled, hg, hgone]
  · simpa [Futex.scheduled, hg] using hmem

theorem Listed.awaitSuspend {F C V : Type} [DecidableEq F] {s : Futex F C V} (hs : s.Listed)
    {f : F} (hf : s.parking f = some .awaitSuspend) {equal : Bool} :
    ({ s.goto f (some (if (s.waiter.awaitSuspend f equal).2 then .scheduled else .parked)) with
      waiter := (s.waiter.awaitSuspend f equal).1 } : Futex F C V).Listed := by
  have hfresh : f ∉ s.waiter.queue := by
    intro hmem
    rw [hs.mem_iff, hf] at hmem
    cases hmem
  cases equal with
  | false =>
    rw [FutexLike.awaitSuspend_changed hfresh]
    exact hs.goto (by simp [hf]) (by simp)
  | true =>
    rw [FutexLike.awaitSuspend_equal]
    refine ⟨List.nodup_append.mpr ⟨hs.nodup, List.nodup_singleton f,
      fun g hg k hk hgk => hfresh (List.mem_singleton.mp hk ▸ hgk ▸ hg)⟩, fun g => ?_⟩
    by_cases hg : g = f
    · simp [Futex.goto, hg]
    · simpa [Futex.goto, hg] using hs.mem_iff g

/-- What a section can do to the list, seen by the fibers that stay in it. -/
theorem step_cases {F C V : Type} [DecidableEq F] [DecidableEq C] [DecidableEq V]
    {s t : Futex F C V} {l : FutexLabel F C V} (hs : s.Listed) (h : s.step l = some t) :
    t.Listed ∧
      (∀ f ∈ t.waiter.queue, f ∈ s.waiter.queue ∧ t.oldValue f = s.oldValue f ∨
        t.oldValue f = s.cell ∧ t.cell = s.cell) ∧
      (t.cell = s.cell ∨ ∃ value, l = .store value) ∧
      (∀ c, s.calls c = .called true → t.calls c = .called true ∨ t.waiter.queue = []) := by
  cases l with
  | parkIfEqual f old =>
    cases hf : s.parking f with
    | some pc => simp [step, hf] at h
    | none =>
      simp only [step, hf, Option.some.injEq] at h
      subst h
      have hgoto : (s.goto f (some .setAwaiter)).Listed := hs.goto (by simp [hf]) (by simp)
      refine ⟨⟨hgoto.nodup, hgoto.mem_iff⟩, fun g hg => .inl ⟨hg, ?_⟩, .inl rfl, fun _ => .inl⟩
      have hne : g ≠ f := by
        rintro rfl
        have hparked := (hs.mem_iff g).mp hg
        rw [hf] at hparked
        cases hparked
      simp [hne]
  | setAwaiter f | resume f | relock f =>
    simp only [step] at h
    split at h
    · rename_i hf
      simp only [Option.some.injEq] at h
      subst h
      exact ⟨hs.goto (by simp [hf]) (by simp), fun g hg => .inl ⟨hg, rfl⟩, .inl rfl, fun _ => .inl⟩
    · cases h
  | awaitSuspend f =>
    simp only [step] at h
    split at h
    · rename_i hf
      simp only [Option.some.injEq] at h
      subst h
      refine ⟨hs.awaitSuspend hf, fun g hg => ?_, .inl rfl, fun _ => .inl⟩
      by_cases hequal : s.cell = s.oldValue f
      · simp only [hequal, decide_true, FutexLike.awaitSuspend_equal, List.mem_append,
          List.mem_singleton] at hg
        obtain hmem | rfl := hg
        · exact .inl ⟨hmem, rfl⟩
        · exact .inr ⟨hequal.symm, rfl⟩
      · have hfresh : f ∉ s.waiter.queue := by
          intro hmem
          rw [hs.mem_iff, hf] at hmem
          cases hmem
        simp only [hequal, decide_false, FutexLike.awaitSuspend_changed hfresh] at hg
        exact .inl ⟨hg, rfl⟩
    · cases h
  | call c all =>
    simp only [step] at h
    split at h
    · rename_i hc
      simp only [Option.some.injEq] at h
      subst h
      refine ⟨⟨hs.nodup, hs.mem_iff⟩, fun g hg => .inl ⟨hg, rfl⟩, .inl rfl, fun d hd => .inl ?_⟩
      have hne : d ≠ c := by
        rintro rfl
        rw [hc] at hd
        cases hd
      simpa [setCall, hne] using hd
    · cases h
  | wake c =>
    simp only [step] at h
    split at h
    · simp only [FutexLike.wakeAll, Option.some.injEq] at h
      subst h
      have hlisted : (s.setCall c .returning).Listed := ⟨hs.nodup, hs.mem_iff⟩
      exact ⟨hlisted.scheduled (List.append_nil _).symm, by simp, .inl rfl, fun _ _ => .inr rfl⟩
    · rename_i hc
      have hlisted : (s.setCall c .returning).Listed := ⟨hs.nodup, hs.mem_iff⟩
      have hcalls (d : C) (hd : s.calls d = .called true) :
          (s.setCall c .returning).calls d = .called true := by
        have hne : d ≠ c := by
          rintro rfl
          rw [hc] at hd
          cases hd
        simpa [setCall, hne] using hd
      simp only [Option.some.injEq] at h
      subst h
      cases hqueue : s.waiter.queue with
      | nil =>
        simp only [FutexLike.wakeOne, hqueue]
        exact ⟨hlisted.scheduled rfl, by simp, .inl rfl,
          fun d hd => .inl (hcalls d hd)⟩
      | cons f rest =>
        simp only [FutexLike.wakeOne, hqueue]
        exact ⟨hlisted.scheduled hqueue,
          fun g hg => .inl ⟨List.mem_cons_of_mem f hg, rfl⟩, .inl rfl,
          fun d hd => .inl (hcalls d hd)⟩
    · cases h
  | return_ c =>
    simp only [step] at h
    split at h
    · rename_i hc
      simp only [Option.some.injEq] at h
      subst h
      refine ⟨⟨hs.nodup, hs.mem_iff⟩, fun g hg => .inl ⟨hg, rfl⟩, .inl rfl, fun d hd => .inl ?_⟩
      have hne : d ≠ c := by
        rintro rfl
        rw [hc] at hd
        cases hd
      simpa [setCall, hne] using hd
    · cases h
  | store value =>
    simp only [step, Option.some.injEq] at h
    subst h
    exact ⟨⟨hs.nodup, hs.mem_iff⟩, fun g hg => .inl ⟨hg, rfl⟩, .inr ⟨value, rfl⟩, fun _ => .inl⟩

/-- A `WakeAll` under way will see to those parked on a value of before, or there are none. -/
def Cleared {F C V : Type} (s : Futex F C V) (c : C) : Prop :=
  s.Listed ∧ (s.calls c = .called true ∨ s.Current)

theorem Cleared.step {F C V : Type} [DecidableEq F] [DecidableEq C] [DecidableEq V]
    {s t : Futex F C V} {c : C} {l : FutexLabel F C V} (hs : s.Cleared c)
    (hl : ∀ value, l ≠ .store value) (h : s.step l = some t) : t.Cleared c := by
  obtain ⟨hlisted, hqueue, hcell, hcalls⟩ := step_cases hs.1 h
  obtain hcell | ⟨value, rfl⟩ := hcell
  · refine ⟨hlisted, hs.2.elim (fun hc => (hcalls c hc).imp_right fun hempty f hf => ?_)
      fun hcurrent => .inr fun f hf => ?_⟩
    · rw [hempty] at hf
      cases hf
    · obtain ⟨hmem, hold⟩ | ⟨hold, hsame⟩ := hqueue f hf
      · rw [hold, hcurrent f hmem, hcell]
      · rw [hold, hsame]
  · exact (hl value rfl).elim

theorem listed_of_reachable {F C V : Type} [DecidableEq F] [DecidableEq C] [DecidableEq V]
    {cell : V} {s : Futex F C V} (h : (futex F C V cell).Reachable s) : s.Listed :=
  Machine.Reachable.invariant (I := Listed) ⟨List.nodup_nil, by simp [futex]⟩
    (fun _ _ _ _ hs hl => (step_cases hs hl).1) h

theorem Cleared.exec {F C V : Type} [DecidableEq F] [DecidableEq C] [DecidableEq V] {cell : V}
    {s t : Futex F C V} {c : C} {ls : List (FutexLabel F C V)} (hs : s.Cleared c)
    (hls : ∀ l ∈ ls, ∀ value, l ≠ .store value) (h : (futex F C V cell).exec s ls = some t) :
    t.Cleared c :=
  Machine.exec_invariant (I := fun s => s.Cleared c) (fun _ _ _ hl hs hstep => hs.step hl hstep) hls
    hs h

end Futex

end ConcurrentProgramming.Fibers
