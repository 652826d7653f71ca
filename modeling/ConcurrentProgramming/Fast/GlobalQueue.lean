import Mathlib.Data.List.Basic
import Mathlib.Data.Option.Basic

/-!
The global queue of the fast pool: its state and the sections that its callers
run under `access_`.
-/

set_option autoImplicit false

namespace ConcurrentProgramming.Fast

/-- `counter_` is a `uint32_t`; what it has to hold is bounded where it is used, by the
number of workers at most. -/
structure ZeroWaiter where
  counter : Nat
  deriving DecidableEq, Repr

def ZeroWaiter.incrementValue (w : ZeroWaiter) : ZeroWaiter := ⟨w.counter + 1⟩

/-- `none` is the failed assertion. -/
def ZeroWaiter.decrementValue (w : ZeroWaiter) : Option ZeroWaiter :=
  if w.counter = 0 then none else some ⟨w.counter - 1⟩

structure GlobalQueue (T : Type) where
  queue : List T
  isClosed : Bool
  waiter : ZeroWaiter
  deriving DecidableEq, Repr

def GlobalQueue.new (T : Type) : GlobalQueue T := ⟨[], false, ⟨0⟩⟩

/-- The locked section of `PushOne`. -/
def GlobalQueue.pushOne {T : Type} (g : GlobalQueue T) (item : T) : GlobalQueue T :=
  { g with
    queue := g.queue ++ [item]
    waiter := if g.queue = [] then g.waiter.incrementValue else g.waiter }

/-- The locked section of `Offload`. -/
def GlobalQueue.offload {T : Type} (g : GlobalQueue T) (buffer : List T) : GlobalQueue T :=
  { g with
    queue := g.queue ++ buffer
    waiter := if g.queue = [] ∧ buffer ≠ [] then g.waiter.incrementValue else g.waiter }

def GlobalQueue.tryPopOne {T : Type} (g : GlobalQueue T) : Option (GlobalQueue T × Option T) :=
  match g.queue with
  | [] => some (g, none)
  | [item] => g.waiter.decrementValue.map fun waiter =>
      ({ g with queue := [], waiter := waiter }, some item)
  | item :: rest => some ({ g with queue := rest }, some item)

def GlobalQueue.grabLimit (outSize size workers : Nat) : Nat :=
  min (min outSize size) (size / workers + if size % workers ≠ 0 then 1 else 0)

def GlobalQueue.grab {T : Type} (g : GlobalQueue T) (outSize workers : Nat) :
    Option (GlobalQueue T × List T) :=
  let limit := grabLimit outSize g.queue.length workers
  if limit = 0 then some (g, [])
  else if limit = g.queue.length then
    g.waiter.decrementValue.map fun waiter =>
      ({ g with queue := g.queue.drop limit, waiter := waiter }, g.queue.take limit)
  else some ({ g with queue := g.queue.drop limit }, g.queue.take limit)

/-- One locked section of the drain loop in `Stop`; it does not tell `waiter_`. -/
def GlobalQueue.drain {T : Type} (g : GlobalQueue T) : GlobalQueue T × List T :=
  ({ g with queue := g.queue.drop 256 }, g.queue.take 256)

@[simp] theorem GlobalQueue.pushOne_queue {T : Type} (g : GlobalQueue T) (item : T) :
    (g.pushOne item).queue = g.queue ++ [item] := rfl

@[simp] theorem GlobalQueue.offload_queue {T : Type} (g : GlobalQueue T) (buffer : List T) :
    (g.offload buffer).queue = g.queue ++ buffer := rfl

theorem GlobalQueue.tryPopOne_queue {T : Type} {g g' : GlobalQueue T} {item : Option T}
    (h : g.tryPopOne = some (g', item)) :
    g.queue = item.toList ++ g'.queue ∧ g'.isClosed = g.isClosed := by
  unfold tryPopOne at h
  split at h
  · rename_i hq
    simp only [Option.some.injEq, Prod.mk.injEq] at h
    obtain ⟨rfl, rfl⟩ := h
    exact ⟨rfl, rfl⟩
  · rename_i x hq
    obtain ⟨waiter, _, h⟩ := Option.map_eq_some_iff.mp h
    simp only [Prod.mk.injEq] at h
    obtain ⟨rfl, rfl⟩ := h
    exact ⟨hq, rfl⟩
  · rename_i x rest _ hq
    simp only [Option.some.injEq, Prod.mk.injEq] at h
    obtain ⟨rfl, rfl⟩ := h
    exact ⟨hq, rfl⟩

theorem GlobalQueue.grab_queue {T : Type} {g g' : GlobalQueue T} {outSize workers : Nat}
    {items : List T} (h : g.grab outSize workers = some (g', items)) :
    g.queue = items ++ g'.queue ∧ g'.isClosed = g.isClosed ∧
      items.length = grabLimit outSize g.queue.length workers := by
  have hle : grabLimit outSize g.queue.length workers ≤ g.queue.length :=
    Nat.le_trans (Nat.min_le_left _ _) (Nat.min_le_right _ _)
  unfold grab at h
  by_cases h0 : grabLimit outSize g.queue.length workers = 0
  · simp only [h0, if_true, Option.some.injEq, Prod.mk.injEq] at h
    obtain ⟨rfl, rfl⟩ := h
    exact ⟨rfl, rfl, h0.symm⟩
  · simp only [h0, if_false] at h
    split at h
    · obtain ⟨waiter, _, h⟩ := Option.map_eq_some_iff.mp h
      simp only [Prod.mk.injEq] at h
      obtain ⟨rfl, rfl⟩ := h
      exact ⟨(List.take_append_drop _ _).symm, rfl, List.length_take_of_le hle⟩
    · simp only [Option.some.injEq, Prod.mk.injEq] at h
      obtain ⟨rfl, rfl⟩ := h
      exact ⟨(List.take_append_drop _ _).symm, rfl, List.length_take_of_le hle⟩

/-- A non-empty queue always yields something to a caller with room for it. -/
theorem GlobalQueue.grabLimit_eq_zero {outSize size workers : Nat} (ho : 0 < outSize) :
    grabLimit outSize size workers = 0 ↔ size = 0 := by
  have hdm := Nat.div_add_mod size workers
  constructor
  · intro h
    by_contra hs
    have hpos : 0 < size / workers + if size % workers ≠ 0 then 1 else 0 := by
      by_cases hm : size % workers = 0
      · have : size / workers ≠ 0 := by
          intro hd
          rw [hd, hm] at hdm
          omega
        exact Nat.add_pos_left (Nat.pos_of_ne_zero this) _
      · simp [hm]
    simp only [grabLimit] at h
    omega
  · rintro rfl
    simp [grabLimit]

/-- `waiter_` counts whether the queue holds anything. -/
def GlobalQueue.Tracks {T : Type} (g : GlobalQueue T) : Prop :=
  g.waiter.counter = if g.queue = [] then 0 else 1

theorem GlobalQueue.pushOne_tracks {T : Type} {g : GlobalQueue T} (h : g.Tracks) (item : T) :
    (g.pushOne item).Tracks := by
  unfold Tracks at h ⊢
  by_cases hq : g.queue = []
  · simp only [hq, if_true] at h
    simp [pushOne, hq, h, ZeroWaiter.incrementValue]
  · simp only [hq, if_false] at h
    simp [pushOne, hq, h]

theorem GlobalQueue.offload_tracks {T : Type} {g : GlobalQueue T} (h : g.Tracks)
    (buffer : List T) : (g.offload buffer).Tracks := by
  unfold Tracks at h ⊢
  by_cases hq : g.queue = []
  · simp only [hq, if_true] at h
    by_cases hb : buffer = []
    · simp [offload, hq, hb, h]
    · simp [offload, hq, hb, h, ZeroWaiter.incrementValue]
  · simp only [hq, if_false] at h
    simp [offload, hq, h]

theorem GlobalQueue.grab_tracks {T : Type} {g g' : GlobalQueue T} (hg : g.Tracks)
    {outSize workers : Nat} {items : List T} (h : g.grab outSize workers = some (g', items)) :
    g'.Tracks := by
  have hle : grabLimit outSize g.queue.length workers ≤ g.queue.length :=
    Nat.le_trans (Nat.min_le_left _ _) (Nat.min_le_right _ _)
  unfold grab at h
  unfold Tracks at hg ⊢
  by_cases h0 : grabLimit outSize g.queue.length workers = 0
  · simp only [h0, if_true, Option.some.injEq, Prod.mk.injEq] at h
    rw [← h.1]
    exact hg
  · have hq : g.queue ≠ [] := by
      rintro hq
      simp [hq] at hle h0
      omega
    simp only [hq, if_false] at hg
    simp only [h0, if_false] at h
    split at h
    · rename_i hall
      obtain ⟨waiter, hwaiter, h⟩ := Option.map_eq_some_iff.mp h
      simp only [ZeroWaiter.decrementValue, hg, Nat.one_ne_zero, if_false,
        Option.some.injEq] at hwaiter
      obtain ⟨rfl, -⟩ := Prod.mk.inj h
      simp [hall, ← hwaiter]
    · rename_i hall
      obtain ⟨rfl, -⟩ := Prod.mk.inj (Option.some.inj h)
      have hrest : ¬ g.queue.length ≤ grabLimit outSize g.queue.length workers := by omega
      simp [hg, hrest]

/-- A caller with room for it comes back empty-handed from an empty queue only. -/
theorem GlobalQueue.grab_nil {T : Type} {g g' : GlobalQueue T} {outSize workers : Nat}
    (ho : 0 < outSize) (h : g.grab outSize workers = some (g', [])) :
    g.queue = [] ∧ g'.queue = [] := by
  obtain ⟨hq, -, hlength⟩ := grab_queue h
  have hsize := (grabLimit_eq_zero ho).mp hlength.symm
  have hnil : g.queue = [] := List.length_eq_zero_iff.mp hsize
  exact ⟨hnil, by simpa [hnil, eq_comm] using hq⟩

end ConcurrentProgramming.Fast
