import ConcurrentProgramming.Interleaving.History
import ConcurrentProgramming.Interleaving.Machine
import ConcurrentProgramming.Sync.UnboundedBlockingQueue
import Mathlib.Logic.Function.Basic

/-!
Runs of the unbounded blocking queue: any number of threads in `Put`, `Take`,
`Close` and `Cancel`, one section a step.
-/

set_option autoImplicit false

namespace ConcurrentProgramming.Sync
open Interleaving

/-- What a section comes to; `cancel` comes with the elements it clears. -/
inductive QueueEvent (E : Type) where
  | put (value : E) (accepted : Bool)
  | took (value : E)
  | nullopt
  | close
  | cancel (cleared : List E)
  deriving DecidableEq, Repr

/-- `waiting` are the threads inside the `wait` of a `Take`. -/
structure QueueRun (ι E : Type) where
  queue : UnboundedBlockingQueue ι E
  waiting : ι → Bool
  history : List (QueueEvent E)

/-- `woken` is whom the `notify_one` wakes; `wake` is a wake-up for no reason. -/
inductive QueueLabel (ι E : Type) where
  | put (value : E) (woken : Option ι)
  | take (i : ι)
  | resume (i : ι)
  | wake (i : ι)
  | close
  | cancel
  deriving DecidableEq, Repr

def Taken.events {E : Type} : Taken E → List (QueueEvent E)
  | .wait => []
  | .nullopt => [.nullopt]
  | .value first => [.took first]

def Taken.waits {E : Type} : Taken E → Bool
  | .wait => true
  | _ => false

namespace QueueRun

/-- The section of a `Take` has come out as `result`. -/
def looked {ι E : Type} [DecidableEq ι] (s : QueueRun ι E) (i : ι)
    (result : UnboundedBlockingQueue ι E × Taken E) : QueueRun ι E where
  queue := result.1
  waiting := Function.update s.waiting i result.2.waits
  history := s.history ++ result.2.events

def step {ι E : Type} [DecidableEq ι] (s : QueueRun ι E) : QueueLabel ι E → Option (QueueRun ι E)
  | .put value woken => (s.queue.put value woken).map fun result =>
    { s with queue := result.1, history := s.history ++ [.put value result.2] }
  | .take i => if s.waiting i then none else some (s.looked i (s.queue.take i))
  | .resume i => (s.queue.retake i).map (s.looked i)
  | .wake i => (s.queue.wake i).map fun queue => { s with queue := queue }
  | .close => some { s with queue := s.queue.close, history := s.history ++ [.close] }
  | .cancel =>
    some { s with queue := s.queue.cancel, history := s.history ++ [.cancel s.queue.queue] }

end QueueRun

def queueRun (ι E : Type) [DecidableEq ι] : Machine (QueueRun ι E) (QueueLabel ι E) where
  init := ⟨.new ι E, fun _ => false, []⟩
  step := QueueRun.step

namespace QueueEvent

def accepted {E : Type} : QueueEvent E → List E
  | .put value true => [value]
  | _ => []

def taken {E : Type} : QueueEvent E → List E
  | .took value => [value]
  | _ => []

def cleared {E : Type} : QueueEvent E → List E
  | .cancel cleared => cleared
  | _ => []

def closes {E : Type} : QueueEvent E → Bool
  | .close | .cancel _ => true
  | _ => false

def cancels {E : Type} : QueueEvent E → Bool
  | .cancel _ => true
  | _ => false

/-- `Put` accepts until the queue is closed, `Take` gets the elements in the order of
their `Put` until a `Cancel`, and returns without one when it is closed and nothing
is left. -/
def Fits {E : Type} (before : List (QueueEvent E)) : QueueEvent E → Prop
  | .put _ accepted => accepted = !before.any closes
  | .took value => before.any cancels = false ∧
      ∃ rest, before.flatMap accepted = before.flatMap taken ++ value :: rest
  | .nullopt => before.any closes = true ∧
      before.flatMap accepted = before.flatMap taken ++ before.flatMap cleared
  | .close => True
  | .cancel removed =>
    before.flatMap accepted = before.flatMap taken ++ before.flatMap cleared ++ removed

end QueueEvent

namespace QueueRun

/-- What is queued is what was accepted and neither taken nor cleared. -/
structure Accounted {E : Type} (closed : Bool) (queue : List E) (history : List (QueueEvent E)) :
    Prop where
  lawful : Lawful QueueEvent.Fits history
  closed_eq : closed = history.any QueueEvent.closes
  queued : history.flatMap QueueEvent.accepted =
    history.flatMap QueueEvent.taken ++ history.flatMap QueueEvent.cleared ++ queue
  cancelled : history.any QueueEvent.cancels = true → closed = true ∧ queue = []
  uncancelled : history.any QueueEvent.cancels = false → history.flatMap QueueEvent.cleared = []

theorem accounted_init (E : Type) : Accounted false ([] : List E) [] :=
  ⟨lawful_nil _, rfl, rfl, nofun, fun _ => rfl⟩

theorem Accounted.put {E : Type} {closed : Bool} {queue : List E}
    {history : List (QueueEvent E)} (h : Accounted closed queue history) (value : E) :
    Accounted closed (queue ++ if (!closed) = true then [value] else [])
      (history ++ [.put value (!closed)]) := by
  have hfits : QueueEvent.Fits history (.put value (!closed)) := by
    rw [h.closed_eq]
    rfl
  refine ⟨h.lawful.concat hfits, ?_, ?_, fun hc => ?_, fun hc => ?_⟩
  · simpa [QueueEvent.closes] using h.closed_eq
  · cases closed <;> simp [h.queued, QueueEvent.accepted, QueueEvent.taken, QueueEvent.cleared]
  · obtain ⟨rfl, rfl⟩ := h.cancelled (by simpa [QueueEvent.cancels] using hc)
    simp
  · simpa [QueueEvent.cleared] using h.uncancelled (by simpa [QueueEvent.cancels] using hc)

theorem Accounted.looks {ι E : Type} {q r : UnboundedBlockingQueue ι E}
    {history : List (QueueEvent E)} (h : Accounted q.closed q.queue history) {taken : Taken E}
    (hlooks : q.Looks r taken) : Accounted r.closed r.queue (history ++ taken.events) := by
  obtain ⟨hclosed, hcase⟩ := hlooks
  rw [hclosed]
  cases taken with
  | wait =>
    obtain ⟨-, hq, hr⟩ := hcase
    rw [hr, ← hq]
    simpa [Taken.events] using h
  | nullopt =>
    obtain ⟨hc, hq, hr⟩ := hcase
    have hqueued := h.queued
    rw [hq, List.append_nil] at hqueued
    have hfits : QueueEvent.Fits history .nullopt := ⟨h.closed_eq.symm.trans hc, hqueued⟩
    refine ⟨h.lawful.concat hfits, ?_, ?_, fun hn => ⟨hc, hr⟩, fun hn => ?_⟩
    · simpa [Taken.events, QueueEvent.closes] using h.closed_eq
    · simpa [Taken.events, QueueEvent.accepted, QueueEvent.taken, QueueEvent.cleared, hr]
        using hqueued
    · simpa [Taken.events, QueueEvent.cleared] using
        h.uncancelled (by simpa [Taken.events, QueueEvent.cancels] using hn)
  | value value =>
    -- the queue is not empty: no `Cancel` has come
    have hnone : history.any QueueEvent.cancels = false := by
      cases hc : history.any QueueEvent.cancels with
      | false => rfl
      | true =>
        have hnil := (h.cancelled hc).2
        rw [hcase] at hnil
        cases hnil
    have hcleared := h.uncancelled hnone
    have hqueued := h.queued
    rw [hcleared, List.append_nil, hcase] at hqueued
    have hfits : QueueEvent.Fits history (.took value) := ⟨hnone, _, hqueued⟩
    refine ⟨h.lawful.concat hfits, ?_, ?_, fun hn => ?_, fun _ => ?_⟩
    · simpa [Taken.events, QueueEvent.closes] using h.closed_eq
    · simp [Taken.events, QueueEvent.accepted, QueueEvent.taken, QueueEvent.cleared, hcleared,
        hqueued]
    · simp [Taken.events, QueueEvent.cancels, hnone] at hn
    · simpa [Taken.events, QueueEvent.cleared] using hcleared

theorem Accounted.close {E : Type} {closed : Bool} {queue : List E}
    {history : List (QueueEvent E)} (h : Accounted closed queue history) :
    Accounted true queue (history ++ [.close]) := by
  refine ⟨h.lawful.concat trivial, ?_, ?_, fun hc => ⟨rfl, (h.cancelled ?_).2⟩, fun hc => ?_⟩
  · simp [QueueEvent.closes]
  · simpa [QueueEvent.accepted, QueueEvent.taken, QueueEvent.cleared] using h.queued
  · simpa [QueueEvent.cancels] using hc
  · simpa [QueueEvent.cleared] using h.uncancelled (by simpa [QueueEvent.cancels] using hc)

theorem Accounted.cancel {E : Type} {closed : Bool} {queue : List E}
    {history : List (QueueEvent E)} (h : Accounted closed queue history) :
    Accounted true [] (history ++ [.cancel queue]) := by
  have hfits : QueueEvent.Fits history (.cancel queue) := h.queued
  refine ⟨h.lawful.concat hfits, ?_, ?_, fun _ => ⟨rfl, rfl⟩, fun hc => ?_⟩
  · simp [QueueEvent.closes]
  · simpa [QueueEvent.accepted, QueueEvent.taken, QueueEvent.cleared] using h.queued
  · simp [QueueEvent.cancels] at hc

structure Inv {ι E : Type} (s : QueueRun ι E) : Prop where
  accounted : Accounted s.queue.closed s.queue.queue s.history
  tracks : s.queue.queueAccess.Tracks fun i => s.waiting i = true
  covers : s.queue.queueAccess.Covers s.queue.queue.length
  asleep : s.queue.closed = true → s.queue.queueAccess.asleep = []

/-- A look at the queue by a thread that is not inside `wait`. -/
theorem look {ι E : Type} {q r : UnboundedBlockingQueue ι E} {i : ι} {taken : Taken E}
    {waiting : ι → Prop} (h : q.take i = (r, taken)) (htracks : q.queueAccess.Tracks waiting)
    (hi : ¬ waiting i) (hcovers : q.queueAccess.Covers (q.queue.length - 1))
    (hasleep : q.closed = true → q.queueAccess.asleep = []) :
    (r.queueAccess.Tracks fun j => j = i ∧ taken.waits = true ∨ waiting j) ∧
      r.queueAccess.Covers r.queue.length ∧
      (r.closed = true → r.queueAccess.asleep = []) := by
  obtain ⟨hclosed, hcase⟩ := UnboundedBlockingQueue.take_eq h
  cases taken with
  | wait =>
    obtain ⟨hopen, -, hr, haccess⟩ := hcase
    refine ⟨?_, ?_, fun hc => ?_⟩
    · rw [haccess]
      exact (htracks.wait hi).congr fun j => by simp [Taken.waits]
    · rw [hr]
      exact ConditionVariable.covers_zero _
    · rw [hclosed, hopen] at hc
      cases hc
  | nullopt =>
    obtain ⟨-, hq, rfl⟩ := hcase
    refine ⟨htracks.congr fun j => by simp [Taken.waits], ?_, hasleep⟩
    rw [hq]
    exact ConditionVariable.covers_zero _
  | value value =>
    obtain ⟨hq, haccess⟩ := hcase
    rw [haccess, hclosed]
    refine ⟨htracks.congr fun j => by simp [Taken.waits], ?_, hasleep⟩
    simpa [hq] using hcovers

theorem Inv.looked {ι E : Type} [DecidableEq ι] {s : QueueRun ι E} {i : ι}
    {r : UnboundedBlockingQueue ι E} {taken : Taken E}
    (haccounted : Accounted r.closed r.queue (s.history ++ taken.events))
    (hlook : (r.queueAccess.Tracks fun j =>
        j = i ∧ taken.waits = true ∨ j ≠ i ∧ s.waiting j = true) ∧
      r.queueAccess.Covers r.queue.length ∧ (r.closed = true → r.queueAccess.asleep = [])) :
    (s.looked i (r, taken)).Inv := by
  obtain ⟨htracks, hcovers, hasleep⟩ := hlook
  refine ⟨haccounted, htracks.congr fun j => ?_, hcovers, hasleep⟩
  by_cases hj : j = i
  · simp [QueueRun.looked, hj]
  · simp [QueueRun.looked, hj]

theorem Inv.put {ι E : Type} [DecidableEq ι] {s : QueueRun ι E} (hs : s.Inv) {value : E}
    {woken : Option ι} {q : UnboundedBlockingQueue ι E} {accepted : Bool}
    (h : s.queue.put value woken = some (q, accepted)) :
    ({ s with queue := q, history := s.history ++ [.put value accepted] } : QueueRun ι E).Inv := by
  obtain ⟨rfl, hclosed, hqueue⟩ := UnboundedBlockingQueue.put_eq h
  have haccounted : Accounted q.closed q.queue
      (s.history ++ [.put value (!s.queue.closed)]) := by
    rw [hclosed, hqueue]
    exact hs.accounted.put value
  unfold UnboundedBlockingQueue.put at h
  split at h
  · simp only [Option.some.injEq, Prod.mk.injEq] at h
    obtain ⟨rfl, -⟩ := h
    exact ⟨haccounted, hs.tracks, hs.covers, hs.asleep⟩
  · rename_i hopen
    obtain ⟨queueAccess, hnotify, heq⟩ := Option.map_eq_some_iff.mp h
    obtain ⟨rfl, -⟩ := Prod.mk.inj heq
    refine ⟨haccounted, hs.tracks.notifyOne hnotify, ?_, fun hc => (hopen hc).elim⟩
    simpa using hs.covers.notifyOne hnotify

theorem Inv.step {ι E : Type} [DecidableEq ι] {s u : QueueRun ι E} (hs : s.Inv)
    {l : QueueLabel ι E} (h : s.step l = some u) : u.Inv := by
  cases l with
  | put value woken =>
    obtain ⟨⟨q, accepted⟩, hput, rfl⟩ := Option.map_eq_some_iff.mp h
    exact hs.put hput
  | take i =>
    simp only [QueueRun.step, Option.ite_none_left_eq_some, Option.some.injEq] at h
    obtain ⟨hi, rfl⟩ := h
    cases htake : s.queue.take i with | mk r taken =>
    have hlook := look htake hs.tracks hi (hs.covers.mono (Nat.sub_le _ _)) hs.asleep
    refine Inv.looked (hs.accounted.looks (UnboundedBlockingQueue.take_looks htake))
      ⟨hlook.1.congr fun j => or_congr_right ⟨fun hj => ⟨fun he => hi (he ▸ hj), hj⟩, And.right⟩,
        hlook.2⟩
  | resume i =>
    obtain ⟨⟨r, taken⟩, hretake, rfl⟩ := Option.map_eq_some_iff.mp h
    obtain ⟨queueAccess, hresume, htake⟩ := UnboundedBlockingQueue.retake_eq hretake
    refine Inv.looked (hs.accounted.looks (UnboundedBlockingQueue.retake_looks hretake))
      (look htake (hs.tracks.resume hresume) (fun hj => hj.1 rfl) (hs.covers.resume hresume) ?_)
    exact fun hc => (ConditionVariable.resume_eq hresume).2.1.trans (hs.asleep hc)
  | wake i =>
    obtain ⟨q, hwake, rfl⟩ := Option.map_eq_some_iff.mp h
    obtain ⟨queueAccess, haccess, rfl⟩ := Option.map_eq_some_iff.mp hwake
    obtain ⟨hi, hasleep, -⟩ := ConditionVariable.wake_eq haccess
    refine ⟨hs.accounted, hs.tracks.wake haccess, (hs.covers.wake haccess).mono (Nat.le_succ _),
      fun hc => ?_⟩
    simp [hs.asleep hc] at hi
  | close =>
    simp only [QueueRun.step, Option.some.injEq] at h
    subst h
    exact ⟨hs.accounted.close, hs.tracks.notifyAll, ConditionVariable.covers_notifyAll _ _,
      fun _ => rfl⟩
  | cancel =>
    simp only [QueueRun.step, Option.some.injEq] at h
    subst h
    exact ⟨hs.accounted.cancel, hs.tracks.notifyAll, ConditionVariable.covers_notifyAll _ _,
      fun _ => rfl⟩

theorem inv_init (ι E : Type) [DecidableEq ι] : (queueRun ι E).init.Inv where
  accounted := accounted_init E
  tracks := ConditionVariable.tracks_new nofun
  covers := ConditionVariable.covers_new ι _
  asleep _ := rfl

/-- No thread inside `Take` can go on, unless a sleeper wakes up for no reason. -/
def Quiescent {ι E : Type} [DecidableEq ι] (s : QueueRun ι E) : Prop :=
  ∀ i, s.queue.retake i = none

theorem Inv.awake {ι E : Type} [DecidableEq ι] {s : QueueRun ι E} (hs : s.Inv)
    (hquiet : s.Quiescent) (h : s.queue.queue ≠ [] ∨ s.queue.closed = true) (i : ι) :
    s.waiting i = false := by
  have hnotified := hs.tracks.notified_nil fun j _ => Option.map_eq_none_iff.mp (hquiet j)
  have hasleep : s.queue.queueAccess.asleep = [] := by
    rcases h with hne | hc
    · refine (hs.covers.of_notified_nil hnotified).resolve_right fun hzero => ?_
      exact hne (List.eq_nil_of_length_eq_zero hzero)
    · exact hs.asleep hc
  simpa using hs.tracks.not_waiting hasleep hnotified i

theorem rejects {ι E : Type} [DecidableEq ι] {q r : UnboundedBlockingQueue ι E} {value : E}
    {woken : Option ι} {accepted : Bool} (h : q.put value woken = some (r, accepted)) :
    (accepted = false ↔ q.closed = true) ∧ (accepted = false → r = q) := by
  have haccepted := (UnboundedBlockingQueue.put_eq h).1
  refine ⟨by simp [haccepted], fun hfalse => ?_⟩
  have hclosed : q.closed = true := by simpa [haccepted] using hfalse
  simp only [UnboundedBlockingQueue.put, hclosed, if_true, Option.some.injEq, Prod.mk.injEq] at h
  exact h.1.symm

structure Sound {ι E : Type} [DecidableEq ι] (s : QueueRun ι E) : Prop where
  lawful : Lawful QueueEvent.Fits s.history
  closed_eq : s.queue.closed = s.history.any QueueEvent.closes
  queued : s.history.flatMap QueueEvent.accepted =
    s.history.flatMap QueueEvent.taken ++ s.history.flatMap QueueEvent.cleared ++ s.queue.queue
  uncancelled : s.history.any QueueEvent.cancels = false →
    s.history.flatMap QueueEvent.cleared = []
  rejects : ∀ value woken q accepted, s.queue.put value woken = some (q, accepted) →
    (accepted = false ↔ s.queue.closed = true) ∧ (accepted = false → q = s.queue)
  awake : s.Quiescent → s.queue.queue ≠ [] ∨ s.queue.closed = true → ∀ i, s.waiting i = false

end QueueRun

theorem queueRun_sound {ι E : Type} [DecidableEq ι] {s : QueueRun ι E}
    (h : (queueRun ι E).Reachable s) : s.Sound := by
  have hs : s.Inv := h.invariant (QueueRun.inv_init ι E) fun _ _ _ _ hs hu => hs.step hu
  exact ⟨hs.accounted.lawful, hs.accounted.closed_eq, hs.accounted.queued,
    hs.accounted.uncancelled, fun _ _ _ _ hput => QueueRun.rejects hput, hs.awake⟩

/-- One element for two threads, of which the newcomer gets it. -/
theorem queueRun_sound_barged : ∃ s : QueueRun (Fin 2) Nat,
    (queueRun (Fin 2) Nat).Reachable s ∧ s.Sound ∧
      s.history = [.put 7 true, .took 7] ∧ s.waiting 0 = true := by
  have h : (queueRun (Fin 2) Nat).Reachable _ :=
    Machine.reachable_of_exec [.take 0, .put 7 (some 0), .take 1, .resume 0] rfl
  exact ⟨_, h, queueRun_sound h, rfl, rfl⟩

/-- What `Close` has left in the queue, a `Cancel` clears before a `Take` gets it. -/
theorem queueRun_cancelled_after_close : ∃ s : QueueRun Unit Nat,
    (queueRun Unit Nat).Reachable s ∧
      s.history = [.put 7 true, .close, .cancel [7], .nullopt] := by
  have h : (queueRun Unit Nat).Reachable _ :=
    Machine.reachable_of_exec [.put 7 none, .close, .cancel, .take ()] rfl
  exact ⟨_, h, rfl⟩

end ConcurrentProgramming.Sync
