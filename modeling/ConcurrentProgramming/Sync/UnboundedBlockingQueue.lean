import ConcurrentProgramming.Interleaving.ConditionVariable

/-!
The unbounded blocking queue of the pools. The class exists in several copies,
with values or with intrusive tasks in it; the sections that its callers run
under `mutex_` are the same in all of them.
-/

set_option autoImplicit false

namespace ConcurrentProgramming.Sync
open Interleaving

structure UnboundedBlockingQueue (ι T : Type) where
  closed : Bool
  queueAccess : ConditionVariable ι
  queue : List T
  deriving DecidableEq, Repr

/-- What a `Take` comes to when it holds the mutex. -/
inductive Taken (T : Type) where
  | wait
  | nullopt
  | value (value : T)
  deriving DecidableEq, Repr

namespace UnboundedBlockingQueue

def new (ι T : Type) : UnboundedBlockingQueue ι T := ⟨false, .new ι, []⟩

/-- `woken` is whom `notify_one` wakes. -/
def put {ι T : Type} [DecidableEq ι] (q : UnboundedBlockingQueue ι T) (value : T)
    (woken : Option ι) : Option (UnboundedBlockingQueue ι T × Bool) :=
  if q.closed then some (q, false)
  else (q.queueAccess.notifyOne woken).map fun queueAccess =>
    ({ q with queue := q.queue ++ [value], queueAccess := queueAccess }, true)

def take {ι T : Type} (q : UnboundedBlockingQueue ι T) (i : ι) :
    UnboundedBlockingQueue ι T × Taken T :=
  match q.queue with
  | [] =>
    if q.closed then (q, .nullopt)
    else ({ q with queueAccess := q.queueAccess.wait i }, .wait)
  | value :: rest => ({ q with queue := rest }, .value value)

/-- A `Take` that is back from `wait` looks again. -/
def retake {ι T : Type} [DecidableEq ι] (q : UnboundedBlockingQueue ι T) (i : ι) :
    Option (UnboundedBlockingQueue ι T × Taken T) :=
  (q.queueAccess.resume i).map fun queueAccess =>
    ({ q with queueAccess := queueAccess } : UnboundedBlockingQueue ι T).take i

/-- A sleeper wakes up for no reason. -/
def wake {ι T : Type} [DecidableEq ι] (q : UnboundedBlockingQueue ι T) (i : ι) :
    Option (UnboundedBlockingQueue ι T) :=
  (q.queueAccess.wake i).map fun queueAccess => { q with queueAccess := queueAccess }

def closeImpl {ι T : Type} (q : UnboundedBlockingQueue ι T) (clear : Bool) :
    UnboundedBlockingQueue ι T where
  closed := true
  queueAccess := q.queueAccess.notifyAll
  queue := if clear then [] else q.queue

def close {ι T : Type} (q : UnboundedBlockingQueue ι T) : UnboundedBlockingQueue ι T :=
  q.closeImpl false

def cancel {ι T : Type} (q : UnboundedBlockingQueue ι T) : UnboundedBlockingQueue ι T :=
  q.closeImpl true

theorem put_eq {ι T : Type} [DecidableEq ι] {q r : UnboundedBlockingQueue ι T} {value : T}
    {woken : Option ι} {accepted : Bool} (h : q.put value woken = some (r, accepted)) :
    accepted = !q.closed ∧ r.closed = q.closed ∧
      r.queue = q.queue ++ if accepted then [value] else [] := by
  unfold put at h
  split at h
  · rename_i hclosed
    simp only [Option.some.injEq, Prod.mk.injEq] at h
    obtain ⟨rfl, rfl⟩ := h
    simp [hclosed]
  · rename_i hclosed
    obtain ⟨queueAccess, -, heq⟩ := Option.map_eq_some_iff.mp h
    simp only [Prod.mk.injEq] at heq
    obtain ⟨rfl, rfl⟩ := heq
    simp [hclosed]

theorem exists_put {ι T : Type} [DecidableEq ι] (q : UnboundedBlockingQueue ι T) (value : T) :
    ∃ woken x, q.put value woken = some x := by
  obtain ⟨woken, queueAccess, hnotify⟩ := ConditionVariable.exists_notifyOne q.queueAccess
  refine ⟨woken, ?_⟩
  unfold put
  split
  · exact ⟨_, rfl⟩
  · simp [hnotify]

/-- The value that a `Take` returns was the first of the queue. -/
theorem take_eq {ι T : Type} {q r : UnboundedBlockingQueue ι T} {i : ι} {taken : Taken T}
    (h : q.take i = (r, taken)) :
    r.closed = q.closed ∧
      match taken with
      | .wait => q.closed = false ∧ q.queue = [] ∧ r.queue = [] ∧
          r.queueAccess = q.queueAccess.wait i
      | .nullopt => q.closed = true ∧ q.queue = [] ∧ r = q
      | .value value => q.queue = value :: r.queue ∧ r.queueAccess = q.queueAccess := by
  unfold take at h
  split at h
  · rename_i hqueue
    split at h
    · rename_i hclosed
      obtain ⟨rfl, rfl⟩ := Prod.mk.inj h
      exact ⟨rfl, hclosed, hqueue, rfl⟩
    · rename_i hclosed
      obtain ⟨rfl, rfl⟩ := Prod.mk.inj h
      exact ⟨rfl, by simpa using hclosed, hqueue, hqueue, rfl⟩
  · rename_i hqueue
    obtain ⟨rfl, rfl⟩ := Prod.mk.inj h
    exact ⟨rfl, hqueue, rfl⟩

theorem retake_eq {ι T : Type} [DecidableEq ι] {q r : UnboundedBlockingQueue ι T} {i : ι}
    {taken : Taken T} (h : q.retake i = some (r, taken)) :
    ∃ queueAccess, q.queueAccess.resume i = some queueAccess ∧
      ({ q with queueAccess := queueAccess } : UnboundedBlockingQueue ι T).take i = (r, taken) :=
  Option.map_eq_some_iff.mp h

/-- What a look at the queue, first or second, does to what is queued. -/
def Looks {ι T : Type} (q r : UnboundedBlockingQueue ι T) (taken : Taken T) : Prop :=
  r.closed = q.closed ∧
    match taken with
    | .wait => q.closed = false ∧ q.queue = [] ∧ r.queue = []
    | .nullopt => q.closed = true ∧ q.queue = [] ∧ r.queue = []
    | .value value => q.queue = value :: r.queue

theorem take_looks {ι T : Type} {q r : UnboundedBlockingQueue ι T} {i : ι} {taken : Taken T}
    (h : q.take i = (r, taken)) : q.Looks r taken := by
  obtain ⟨hclosed, hcase⟩ := take_eq h
  refine ⟨hclosed, ?_⟩
  cases taken with
  | wait => exact ⟨hcase.1, hcase.2.1, hcase.2.2.1⟩
  | nullopt =>
    obtain ⟨hc, hq, rfl⟩ := hcase
    exact ⟨hc, hq, hq⟩
  | value value => exact hcase.1

theorem retake_looks {ι T : Type} [DecidableEq ι] {q r : UnboundedBlockingQueue ι T} {i : ι}
    {taken : Taken T} (h : q.retake i = some (r, taken)) : q.Looks r taken := by
  obtain ⟨queueAccess, -, htake⟩ := retake_eq h
  have hlooks := take_looks htake
  exact hlooks

/-- Closed and empty is for ever. -/
theorem Looks.ended {ι T : Type} {q r : UnboundedBlockingQueue ι T} {taken : Taken T}
    (h : q.Looks r taken) (hclosed : q.closed = true) (hqueue : q.queue = []) :
    r.closed = true ∧ r.queue = [] := by
  obtain ⟨hsame, hcase⟩ := h
  refine ⟨hsame.trans hclosed, ?_⟩
  cases taken with
  | wait | nullopt => exact hcase.2.2
  | value value => simp [hqueue] at hcase

theorem put_ended {ι T : Type} [DecidableEq ι] {q r : UnboundedBlockingQueue ι T} {value : T}
    {woken : Option ι} {accepted : Bool} (h : q.put value woken = some (r, accepted))
    (hclosed : q.closed = true) (hqueue : q.queue = []) : r.closed = true ∧ r.queue = [] := by
  obtain ⟨rfl, hsame, hr⟩ := put_eq h
  simp [hsame, hr, hclosed, hqueue]

theorem wake_frame {ι T : Type} [DecidableEq ι] {q r : UnboundedBlockingQueue ι T} {i : ι}
    (h : q.wake i = some r) : r.closed = q.closed ∧ r.queue = q.queue := by
  obtain ⟨queueAccess, -, rfl⟩ := Option.map_eq_some_iff.mp h
  exact ⟨rfl, rfl⟩

theorem put_notified {ι T : Type} [DecidableEq ι] {q r : UnboundedBlockingQueue ι T} {value : T}
    {woken : Option ι} {accepted : Bool} (h : q.put value woken = some (r, accepted)) :
    r.queueAccess.notified.length ≤ q.queueAccess.notified.length + 1 := by
  unfold put at h
  split at h
  · simp only [Option.some.injEq, Prod.mk.injEq] at h
    obtain ⟨rfl, -⟩ := h
    exact Nat.le_succ _
  · obtain ⟨queueAccess, hnotify, heq⟩ := Option.map_eq_some_iff.mp h
    obtain ⟨rfl, -⟩ := Prod.mk.inj heq
    exact ConditionVariable.notifyOne_notified_length hnotify

theorem take_notified {ι T : Type} (q : UnboundedBlockingQueue ι T) (i : ι) :
    (q.take i).1.queueAccess.notified = q.queueAccess.notified := by
  unfold take
  split
  · split <;> rfl
  · rfl

theorem retake_notified {ι T : Type} [DecidableEq ι] {q : UnboundedBlockingQueue ι T} {i : ι}
    {x : UnboundedBlockingQueue ι T × Taken T} (h : q.retake i = some x) :
    x.1.queueAccess.notified.length + 1 = q.queueAccess.notified.length := by
  obtain ⟨queueAccess, hresume, rfl⟩ := Option.map_eq_some_iff.mp h
  rw [take_notified]
  exact ConditionVariable.resume_notified_length hresume

@[simp] theorem cancel_queue {ι T : Type} (q : UnboundedBlockingQueue ι T) :
    q.cancel.queue = [] := rfl

@[simp] theorem cancel_closed {ι T : Type} (q : UnboundedBlockingQueue ι T) :
    q.cancel.closed = true := rfl

end UnboundedBlockingQueue

end ConcurrentProgramming.Sync
