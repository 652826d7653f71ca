import ConcurrentProgramming.Interleaving.Machine
import ConcurrentProgramming.Interleaving.Tally
import ConcurrentProgramming.Fibers.Futex

/-!
`WaitGroup`: one coordinator fiber performs `n` times "`Add(1)`, start a worker
fiber" and then `Wait`; every worker calls `Done` once. Each access to `tasks_`,
`is_done_` and `using_` and each futex section is a step.
-/

set_option autoImplicit false

namespace ConcurrentProgramming.Fibers
open Interleaving

/-- The value of an `int64_t`. -/
def int64 (x : Int) : Int := (x + 2 ^ 63) % 2 ^ 64 - 2 ^ 63

theorem int64_range (x : Int) : -2 ^ 63 ≤ int64 x ∧ int64 x < 2 ^ 63 := by
  unfold int64
  omega

theorem int64_of_range {x : Int} (h : -2 ^ 63 ≤ x ∧ x < 2 ^ 63) : int64 x = x := by
  unfold int64
  omega

/-- `tasks` is an `int64_t` and `using_` a `uint64_t`. -/
structure WaitGroup where
  tasks : Int
  isDone : Bool
  using_ : Nat
  doneWait : FutexLike Unit
  deriving DecidableEq, Repr

def WaitGroup.new : WaitGroup := ⟨0, false, 0, ⟨[]⟩⟩

/-- `prev` is the local of `Add`: the loaded value of `tasks_`. -/
inductive Add where
  | useBegin
  | load
  | clear (prev : Int)
  | fetchAdd (prev : Int)
  | useEnd
  deriving DecidableEq, Repr

inductive Done where
  | useBegin
  | assert
  | fetchSub
  | storeDone
  | wakeAll
  | useEnd
  deriving DecidableEq, Repr

inductive Wait where
  | load
  | park (pc : ParkIfEqual)
  | spin
  deriving DecidableEq, Repr

def WaitGroup.useBegin (g : WaitGroup) : WaitGroup :=
  { g with using_ := (g.using_ + 1) % 2 ^ 64 }

def WaitGroup.useEnd (g : WaitGroup) : WaitGroup :=
  { g with using_ := if g.using_ = 0 then 2 ^ 64 - 1 else g.using_ - 1 }

@[simp] theorem WaitGroup.useBegin_doneWait (g : WaitGroup) :
    g.useBegin.doneWait = g.doneWait := rfl

@[simp] theorem WaitGroup.useEnd_doneWait (g : WaitGroup) : g.useEnd.doneWait = g.doneWait := rfl

/-- A step of `Add(count)`; `none` is its return. `prev + count` is a sum of `size_t`. -/
def WaitGroup.add (g : WaitGroup) (count : Nat) : Add → WaitGroup × Option Add
  | .useBegin => (g.useBegin, some .load)
  | .load =>
    (g, some (if g.tasks = 0 ∧ (g.tasks + count) % 2 ^ 64 ≠ 0 then .clear g.tasks
      else .fetchAdd g.tasks))
  | .clear prev => ({ g with isDone := false }, some (.fetchAdd prev))
  | .fetchAdd _ => ({ g with tasks := int64 (g.tasks + count) }, some .useEnd)
  | .useEnd => (g.useEnd, none)

/-- Where the coordinator is. `add i` and `start i` are the `i`-th round. -/
inductive Coordinator where
  | add (i : Nat) (pc : Add)
  | start (i : Nat)
  | wait (pc : Wait)
  | returned
  deriving DecidableEq, Repr

inductive Worker where
  | notStarted
  | working
  | done (pc : Done)
  | finished
  | assertFailed
  deriving DecidableEq, Repr

structure Group where
  group : WaitGroup
  coordinator : Coordinator
  workers : Nat → Worker

inductive GroupLabel where
  | coordinator
  | worker (i : Nat)
  deriving DecidableEq, Repr

def Group.set (s : Group) (i : Nat) (w : Worker) : Group :=
  { s with workers := Function.update s.workers i w }

/-- The coordinator at the top of round `i`. -/
def Coordinator.round (n i : Nat) : Coordinator :=
  if i < n then .add i .useBegin else .wait .load

def Group.coordinatorStep (n : Nat) (s : Group) : Option Group :=
  match s.coordinator with
  | .add i pc =>
    match s.group.add 1 pc with
    | (g, some pc') => some { s with group := g, coordinator := .add i pc' }
    | (g, none) => some { s with group := g, coordinator := .start i }
  | .start i =>
    some { s.set i .working with coordinator := .round n (i + 1) }
  | .wait .load =>
    some { s with coordinator := .wait (if s.group.isDone then .spin else .park .setAwaiter) }
  | .wait (.park .setAwaiter) => some { s with coordinator := .wait (.park .awaitSuspend) }
  | .wait (.park .awaitSuspend) =>
    let (doneWait, scheduled) := s.group.doneWait.awaitSuspend () (s.group.isDone == false)
    some { s with
      group := { s.group with doneWait := doneWait }
      coordinator := .wait (.park (if scheduled then .scheduled else .parked)) }
  | .wait (.park .parked) => none
  | .wait (.park .scheduled) => some { s with coordinator := .wait (.park .relock) }
  | .wait (.park .relock) => some { s with coordinator := .wait .load }
  | .wait .spin =>
    some { s with coordinator := if s.group.using_ = 0 then .returned else .wait .spin }
  | .returned => none

/-- The coordinator is the only fiber that ever parks on `done_wait_`. -/
def Group.wake (s : Group) (popped : List Unit) : Group :=
  if popped = [] then s else { s with coordinator := .wait (.park .scheduled) }

def Group.workerStep (s : Group) (i : Nat) : Option Group :=
  match s.workers i with
  | .notStarted | .finished | .assertFailed => none
  | .working => some (s.set i (.done .useBegin))
  | .done .useBegin =>
    some { s.set i (.done .assert) with group := s.group.useBegin }
  | .done .assert => some (s.set i (if s.group.tasks > 0 then .done .fetchSub else .assertFailed))
  | .done .fetchSub =>
    some { s.set i (.done (if s.group.tasks = 1 then .storeDone else .useEnd)) with
      group := { s.group with tasks := int64 (s.group.tasks - 1) } }
  | .done .storeDone =>
    some { s.set i (.done .wakeAll) with group := { s.group with isDone := true } }
  | .done .wakeAll =>
    let (doneWait, popped) := s.group.doneWait.wakeAll
    some (({ s with group := { s.group with doneWait := doneWait } }.set i (.done .useEnd)).wake
      popped)
  | .done .useEnd =>
    some { s.set i .finished with group := s.group.useEnd }

def waitGroup (n : Nat) : Machine Group GroupLabel where
  init := ⟨.new, .round n 0, fun _ => .notStarted⟩
  step s
    | .coordinator => s.coordinatorStep n
    | .worker i => s.workerStep i

/-- The worker has executed the `fetch_sub` of its `Done`. -/
def Worker.subtracted : Worker → Bool
  | .done .storeDone | .done .wakeAll | .done .useEnd | .finished => true
  | _ => false

def Worker.outstanding : Worker → Nat
  | .working | .done .useBegin | .done .assert | .done .fetchSub | .assertFailed => 1
  | _ => 0

def Group.Quiet (s : Group) : Prop :=
  (∀ i pc, s.coordinator ≠ .add i pc) ∧ ∀ i pc, s.workers i ≠ .done pc

/-- `Wait` has not returned early, and the flag is not up while work is outstanding. -/
structure Group.Waits (n : Nat) (s : Group) : Prop where
  returned : s.coordinator = .returned → ∀ i < n, (s.workers i).subtracted = true
  isDone : s.Quiet → s.group.isDone = true → s.group.tasks = 0

/-- The steps at which `Add` and the last outstanding `Done` do not cross: an
`Add` clears the flag only when no `Done` is about to raise it, and the count
does not reach zero between the load of an `Add` that saw work and its `fetch_add`. -/
def Group.uncrossed (n : Nat) (s : Group) : GroupLabel → Bool
  | .coordinator =>
    match s.coordinator with
    | .add _ (.clear _) => (List.range n).all fun i => s.workers i ≠ .done .storeDone
    | _ => true
  | .worker i =>
    match s.workers i, s.coordinator with
    | .done .fetchSub, .add _ (.fetchAdd prev) => s.group.tasks ≠ 1 ∨ prev = 0
    | _, _ => true

def Coordinator.started (n : Nat) : Coordinator → Nat
  | .add i _ | .start i => i
  | .wait _ | .returned => n

/-- Added by the current round, its worker not started yet. -/
def Coordinator.added : Coordinator → Nat
  | .add _ .useEnd | .start _ => 1
  | _ => 0

structure Group.Inv (n : Nat) (s : Group) : Prop where
  count : s.group.tasks = tally (Finset.range n) Worker.outstanding s.workers + s.coordinator.added
  started : ∀ i, s.workers i = .notStarted ↔ s.coordinator.started n ≤ i
  inRange : (∃ i, s.coordinator = .start i ∨ ∃ pc, s.coordinator = .add i pc) →
    s.coordinator.started n < n
  clear : ∀ i prev, s.coordinator = .add i (.clear prev) → prev = 0 ∧ s.group.tasks = 0
  addZero : ∀ i, s.coordinator = .add i (.fetchAdd 0) →
    s.group.tasks = 0 ∧ s.group.isDone = false ∧ ∀ j, s.workers j ≠ .done .storeDone
  addMore : ∀ i prev, s.coordinator = .add i (.fetchAdd prev) → prev ≠ 0 → 0 < s.group.tasks
  isDone : 0 < s.group.tasks → s.group.isDone = false
  pending : ∀ i, s.workers i = .done .storeDone → s.group.tasks = 0
  asserted : ∀ i, s.workers i ≠ .assertFailed
  parked : s.group.doneWait.queue ≠ [] → s.coordinator = .wait (.park .parked)
  waited : s.coordinator = .wait .spin ∨ s.coordinator = .returned → s.group.tasks = 0

theorem Group.Inv.started_lt {n : Nat} {s : Group} (hs : s.Inv n) {i : Nat}
    (hi : s.workers i ≠ .notStarted) : i < n := by
  have hlt : i < s.coordinator.started n := Nat.lt_of_not_le fun h => hi ((hs.started i).mpr h)
  cases hc : s.coordinator with
  | wait | returned => simpa [hc, Coordinator.started] using hlt
  | add j pc =>
    have := hs.inRange ⟨j, .inr ⟨pc, hc⟩⟩
    omega
  | start j =>
    have := hs.inRange ⟨j, .inl hc⟩
    omega

/-- A worker at work keeps the count positive. -/
theorem Group.Inv.tasks_pos {n : Nat} {s : Group} (hs : s.Inv n) {i : Nat}
    (hi : (s.workers i).outstanding = 1) : 0 < s.group.tasks := by
  have hlt := hs.started_lt (i := i) (by intro h; simp [h, Worker.outstanding] at hi)
  have hle := le_tally Worker.outstanding s.workers (Finset.mem_range.mpr hlt)
  have := hs.count
  omega

theorem Worker.outstanding_le (w : Worker) : w.outstanding ≤ 1 := by
  unfold Worker.outstanding
  split <;> omega

theorem Group.tally_le (n : Nat) (workers : Nat → Worker) :
    tally (Finset.range n) Worker.outstanding workers ≤ n := by
  simpa [tally] using Finset.sum_le_card_nsmul (Finset.range n) _ 1
    fun i _ => (workers i).outstanding_le

/-- There is room for one more while a worker is not at work. -/
theorem Group.tally_lt {n : Nat} {s : Group} {i : Nat} (hi : i < n)
    (hout : (s.workers i).outstanding = 0) :
    tally (Finset.range n) Worker.outstanding s.workers < n := by
  have htally := tally_update Worker.outstanding s.workers (Finset.mem_range.mpr hi) .working
  have hle := Group.tally_le n (Function.update s.workers i .working)
  rw [hout, show Worker.outstanding .working = 1 from rfl] at htally
  omega

/-- A step of worker `i` that leaves the count and the flag alone. -/
theorem Group.Inv.set {n : Nat} {s : Group} (hs : s.Inv n) {i : Nat} {w : Worker} {u : Nat}
    (hold : s.workers i ≠ .notStarted) (hnew : w ≠ .notStarted) (hstore : w ≠ .done .storeDone)
    (hassert : w ≠ .assertFailed) (hw : w.outstanding = (s.workers i).outstanding) :
    Inv n { s.set i w with group := { s.group with using_ := u } } := by
  have at_ (j : Nat) : Function.update s.workers i w j = if j = i then w else s.workers j := by
    by_cases h : j = i <;> simp [h]
  refine ⟨?_, fun j => ?_, hs.inRange, hs.clear, fun j hj => ?_, hs.addMore, hs.isDone,
    fun j hj => ?_, fun j => ?_, hs.parked, hs.waited⟩
  · simp only [Group.set, tally_update_of_eq _ _ hw]
    exact hs.count
  · simp only [Group.set, at_]
    by_cases h : j = i
    · subst h
      simpa [hnew] using (hs.started j).not.mp hold
    · simpa [h] using hs.started j
  · obtain ⟨h₁, h₂, h₃⟩ := hs.addZero j hj
    refine ⟨h₁, h₂, fun k => ?_⟩
    simp only [Group.set, at_]
    by_cases h : k = i <;> simp [h, hstore, h₃]
  · simp only [Group.set, at_] at hj
    by_cases h : j = i
    · simp [h, hstore] at hj
    · exact hs.pending j (by simpa [h] using hj)
  · simp only [Group.set, at_]
    by_cases h : j = i <;> simp [h, hassert, hs.asserted]

theorem Group.Inv.wake {n : Nat} {s : Group} (hs : s.Inv n) :
    Inv n (wake { s with group := { s.group with doneWait := ⟨[]⟩ } } s.group.doneWait.queue) := by
  by_cases hq : s.group.doneWait.queue = []
  · simp only [Group.wake, hq, if_true]
    exact { hs with parked := by simp }
  · have hc := hs.parked hq
    have hcount := hs.count
    have hstarted := hs.started
    simp only [hc, Coordinator.added, Coordinator.started] at hcount hstarted
    simp only [Group.wake, hq, if_false]
    exact ⟨hcount, hstarted, by simp, by simp, by simp, by simp, hs.isDone, hs.pending,
      hs.asserted, by simp, by simp⟩

theorem Group.Inv.storeDone {n : Nat} {s : Group} (hs : s.Inv n) {i : Nat}
    (hi : s.workers i = .done .storeDone) :
    Inv n { s.set i (.done .wakeAll) with group := { s.group with isDone := true } } := by
  have hzero := hs.pending i hi
  have hset := hs.set (i := i) (w := .done .wakeAll) (u := s.group.using_) (by simp [hi]) (by simp)
    (by simp) (by simp) (by simp [hi, Worker.outstanding])
  exact { hset with
    addZero := fun j hj => ((hs.addZero j hj).2.2 i hi).elim
    isDone := fun h => absurd hzero (by simp only at h; omega) }

theorem Coordinator.added_le (c : Coordinator) : c.added ≤ 1 := by
  unfold Coordinator.added
  split <;> omega

theorem Group.Inv.fetchSub {n : Nat} {s : Group} (hn : n < 2 ^ 63) (hs : s.Inv n) {i : Nat}
    (hi : s.workers i = .done .fetchSub) (hok : s.uncrossed n (.worker i) = true) :
    Inv n { s.set i (.done (if s.group.tasks = 1 then .storeDone else .useEnd)) with
      group := { s.group with tasks := int64 (s.group.tasks - 1) } } := by
  have hpos := hs.tasks_pos (i := i) (by simp [hi, Worker.outstanding])
  have hlt := hs.started_lt (i := i) (by simp [hi])
  have hcount := hs.count
  have hfits : int64 (s.group.tasks - 1) = s.group.tasks - 1 := by
    have hle := Group.tally_le n s.workers
    have hadded := s.coordinator.added_le
    exact int64_of_range (by omega)
  rw [hfits]
  have htally := tally_update Worker.outstanding s.workers (Finset.mem_range.mpr hlt)
    (.done (if s.group.tasks = 1 then .storeDone else .useEnd))
  have hout :
      Worker.outstanding (.done (if s.group.tasks = 1 then .storeDone else .useEnd)) = 0 := by
    split <;> rfl
  rw [hout, hi] at htally
  simp only [Worker.outstanding] at htally
  have at_ (j : Nat) (w : Worker) : Function.update s.workers i w j =
      if j = i then w else s.workers j := by
    by_cases h : j = i <;> simp [h]
  refine ⟨?_, fun j => ?_, hs.inRange, fun j prev hj => ?_, fun j hj => ?_, fun j prev hj hp => ?_,
    fun h => hs.isDone hpos, fun j hj => ?_, fun j => ?_, hs.parked, fun h => ?_⟩
  · simp only [Group.set]
    omega
  · simp only [Group.set, at_]
    by_cases h : j = i
    · subst h
      simpa using (hs.started j).not.mp (by simp [hi])
    · simpa [h] using hs.started j
  · have := (hs.clear j prev hj).2
    omega
  · have := (hs.addZero j hj).1
    omega
  · simp only [Group.set] at hj ⊢
    simp only [Group.uncrossed, hi, hj, decide_eq_true_eq] at hok
    omega
  · simp only [Group.set, at_] at hj ⊢
    by_cases h : j = i
    · by_cases h1 : s.group.tasks = 1
      · omega
      · simp [h, h1] at hj
    · have := hs.pending j (by simpa [h] using hj)
      omega
  · simp only [Group.set, at_]
    by_cases h : j = i <;> simp [h, hs.asserted]
  · have := hs.waited h
    omega

theorem Group.workerStep_inv {n : Nat} {s t : Group} {i : Nat} (hn : n < 2 ^ 63) (hs : s.Inv n)
    (hok : s.uncrossed n (.worker i) = true) (h : s.workerStep i = some t) : t.Inv n := by
  cases hi : s.workers i with
  | notStarted | finished | assertFailed => simp [Group.workerStep, hi] at h
  | working =>
    simp only [Group.workerStep, hi, Option.some.injEq] at h
    exact h ▸ hs.set (u := s.group.using_) (by simp [hi]) (by simp) (by simp) (by simp)
      (by simp [hi, Worker.outstanding])
  | done pc =>
    cases pc with
    | useBegin | useEnd =>
      simp only [Group.workerStep, hi, Option.some.injEq] at h
      exact h ▸ hs.set (by simp [hi]) (by simp) (by simp) (by simp)
        (by simp [hi, Worker.outstanding])
    | assert =>
      have hpos := hs.tasks_pos (i := i) (by simp [hi, Worker.outstanding])
      simp only [Group.workerStep, hi, gt_iff_lt, hpos, if_true, Option.some.injEq] at h
      exact h ▸ hs.set (u := s.group.using_) (by simp [hi]) (by simp) (by simp) (by simp)
        (by simp [hi, Worker.outstanding])
    | fetchSub =>
      simp only [Group.workerStep, hi, Option.some.injEq] at h
      exact h ▸ hs.fetchSub hn hi hok
    | storeDone =>
      simp only [Group.workerStep, hi, Option.some.injEq] at h
      exact h ▸ hs.storeDone hi
    | wakeAll =>
      simp only [Group.workerStep, hi, FutexLike.wakeAll, Option.some.injEq] at h
      have hset := hs.set (i := i) (w := .done .useEnd) (u := s.group.using_) (by simp [hi])
        (by simp) (by simp) (by simp) (by simp [hi, Worker.outstanding])
      exact h ▸ hset.wake

theorem Group.Inv.queue_nil {n : Nat} {s : Group} (hs : s.Inv n)
    (hne : s.coordinator ≠ .wait (.park .parked)) : s.group.doneWait.queue = [] := by
  by_contra hq
  exact hne (hs.parked hq)

/-- The worker of round `i` starts, and the coordinator goes on to the next round. -/
theorem Group.Inv.start {n : Nat} {s t : Group} (hs : s.Inv n) {i : Nat}
    (hc : s.coordinator = .start i) (h : s.coordinatorStep n = some t) : t.Inv n := by
  have hi : i < n := by simpa [hc, Coordinator.started] using hs.inRange ⟨i, .inl hc⟩
  have hcount := hs.count
  have hstarted := hs.started
  have hq' := hs.queue_nil (by simp [hc])
  rw [hc] at hcount hstarted
  simp only [Group.coordinatorStep, hc, Option.some.injEq] at h
  subst h
  have hnot : s.workers i = .notStarted := (hstarted i).mpr (Nat.le_refl i)
  have htally := tally_update Worker.outstanding s.workers (Finset.mem_range.mpr hi) .working
  have hround : (Coordinator.round n (i + 1)).started n = i + 1 := by
    unfold Coordinator.round
    split
    · rfl
    · simp only [Coordinator.started]
      omega
  have hadded : (Coordinator.round n (i + 1)).added = 0 := by
    unfold Coordinator.round
    split <;> rfl
  have hne (p : Coordinator → Prop) (h₁ : ¬ p (.add (i + 1) .useBegin)) (h₂ : ¬ p (.wait .load)) :
      ¬ p (.round n (i + 1)) := by
    unfold Coordinator.round
    split <;> assumption
  have at_ (j : Nat) : Function.update s.workers i .working j =
      if j = i then .working else s.workers j := by
    by_cases h : j = i <;> simp [h]
  simp only [hnot, Worker.outstanding, Coordinator.added] at htally hcount
  refine ⟨?_, fun j => ?_, fun hex => ?_, fun j prev hj => ?_, fun j hj => ?_,
    fun j prev hj => ?_, hs.isDone, fun j hj => ?_, fun j => ?_, by simp [Group.set, hq'],
    fun hw => ?_⟩
  · simp only [Group.set, hadded]
    omega
  · simp only [Group.set, hround, at_]
    by_cases h : j = i
    · simp [h]
    · have := hstarted j
      simp only [Coordinator.started] at this
      simp only [h, if_false, this]
      omega
  · simp only [hround]
    by_contra hlt
    refine hne (fun c => ∃ k, c = .start k ∨ ∃ pc, c = .add k pc) ?_ (by simp) hex
    have : ¬ i + 1 < n := hlt
    simp only [Coordinator.round, this, if_false] at hex
    simp at hex
  · exact (hne (· = .add j (.clear prev)) (by simp) (by simp) hj).elim
  · exact (hne (· = .add j (.fetchAdd 0)) (by simp) (by simp) hj).elim
  · exact (hne (· = .add j (.fetchAdd prev)) (by simp) (by simp) hj).elim
  · simp only [Group.set, at_] at hj
    by_cases h : j = i
    · simp [h] at hj
    · exact hs.pending j (by simpa [h] using hj)
  · simp only [Group.set, at_]
    by_cases h : j = i <;> simp [h, hs.asserted]
  · exact (hne (fun c => c = .wait .spin ∨ c = .returned) (by simp) (by simp) hw).elim

theorem Group.Inv.add {n : Nat} {s t : Group} (hn : n < 2 ^ 63) (hs : s.Inv n)
    (hok : s.uncrossed n .coordinator = true) {i : Nat} {pc : Add}
    (hc : s.coordinator = .add i pc) (h : s.coordinatorStep n = some t) : t.Inv n := by
  have hi : i < n := by simpa [hc, Coordinator.started] using hs.inRange ⟨i, .inr ⟨pc, hc⟩⟩
  have hcount := hs.count
  have hstarted := hs.started
  have hq' := hs.queue_nil (by simp [hc])
  rw [hc] at hcount hstarted
  cases pc with
  | useBegin =>
    simp only [Group.coordinatorStep, hc, WaitGroup.add, Option.some.injEq] at h
    subst h
    exact ⟨hcount, hstarted, fun _ => hi, by simp, by simp, by simp, hs.isDone, hs.pending,
      hs.asserted, by simp [hq'], by simp⟩
  | load =>
    by_cases hz : s.group.tasks = 0
    · have hclear : s.group.tasks = 0 ∧ (s.group.tasks + (1 : Nat)) % 2 ^ 64 ≠ 0 :=
        ⟨hz, by omega⟩
      simp only [Group.coordinatorStep, hc, WaitGroup.add, if_pos hclear, Option.some.injEq] at h
      subst h
      exact ⟨hcount, hstarted, fun _ => hi, by simp [hz], by simp, by simp, hs.isDone,
        hs.pending, hs.asserted, by simp [hq'], by simp⟩
    · simp only [Group.coordinatorStep, hc, WaitGroup.add, hz, false_and, if_false,
        Option.some.injEq] at h
      subst h
      have hpos : 0 < s.group.tasks := by
        simp only [Coordinator.added] at hcount
        omega
      exact ⟨hcount, hstarted, fun _ => hi, by simp, by simp [hz], fun _ _ _ _ => hpos,
        hs.isDone, hs.pending, hs.asserted, by simp [hq'], by simp⟩
  | clear prev =>
    obtain ⟨rfl, hz⟩ := hs.clear i prev hc
    have hstore (j : Nat) : s.workers j ≠ .done .storeDone := by
      simp only [Group.uncrossed, hc, List.all_eq_true, List.mem_range, decide_eq_true_eq] at hok
      intro hj
      exact hok j (hs.started_lt (by simp [hj])) hj
    simp only [Group.coordinatorStep, hc, WaitGroup.add, Option.some.injEq] at h
    subst h
    exact ⟨hcount, hstarted, fun _ => hi, by simp, fun _ _ => ⟨hz, rfl, hstore⟩, by simp,
      fun _ => rfl, hs.pending, hs.asserted, by simp [hq'], by simp⟩
  | fetchAdd prev =>
    have hclear : s.group.isDone = false ∧ ∀ j, s.workers j ≠ .done .storeDone := by
      by_cases hp : prev = 0
      · subst hp
        exact (hs.addZero i hc).2
      · have hpos := hs.addMore i prev hc hp
        refine ⟨hs.isDone hpos, fun j hj => ?_⟩
        have := hs.pending j hj
        omega
    have hfits : int64 (s.group.tasks + (1 : Nat)) = s.group.tasks + (1 : Nat) := by
      have hnot : s.workers i = .notStarted := (hstarted i).mpr (Nat.le_refl i)
      have hlt := Group.tally_lt (s := s) hi (by simp [hnot, Worker.outstanding])
      simp only [Coordinator.added] at hcount
      exact int64_of_range (by omega)
    simp only [Group.coordinatorStep, hc, WaitGroup.add, hfits, Option.some.injEq] at h
    subst h
    refine ⟨?_, hstarted, fun _ => hi, by simp, by simp, by simp, fun _ => hclear.1,
      fun j hj => (hclear.2 j hj).elim, hs.asserted, by simp [hq'], by simp⟩
    simp only [Coordinator.added] at hcount ⊢
    omega
  | useEnd =>
    simp only [Group.coordinatorStep, hc, WaitGroup.add, Option.some.injEq] at h
    subst h
    exact ⟨hcount, hstarted, fun _ => hi, by simp, by simp, by simp, hs.isDone, hs.pending,
      hs.asserted, by simp [hq'], by simp⟩

theorem Group.Inv.wait {n : Nat} {s t : Group} (hs : s.Inv n) {pc : Wait}
    (hc : s.coordinator = .wait pc) (h : s.coordinatorStep n = some t) : t.Inv n := by
  have hcount := hs.count
  have hstarted := hs.started
  rw [hc] at hcount hstarted
  cases pc with
  | load =>
    have hq' := hs.queue_nil (by simp [hc])
    have hwaited (h : s.group.isDone = true) : s.group.tasks = 0 := by
      have hd := hs.isDone
      simp only [h, Bool.true_eq_false, imp_false] at hd
      simp only [Coordinator.added] at hcount
      omega
    simp only [Group.coordinatorStep, hc, Option.some.injEq] at h
    subst h
    refine ⟨hcount, hstarted, by simp, by simp, by simp, by simp, hs.isDone, hs.pending,
      hs.asserted, by simp [hq'], ?_⟩
    cases hd : s.group.isDone with
    | true => exact fun _ => hwaited hd
    | false => simp
  | spin =>
    have hz := hs.waited (.inl hc)
    have hq' := hs.queue_nil (by simp [hc])
    simp only [Group.coordinatorStep, hc, Option.some.injEq] at h
    subst h
    by_cases hu : s.group.using_ = 0 <;> simp only [hu, if_true, if_false] <;>
      exact ⟨hcount, hstarted, by simp, by simp, by simp, by simp, hs.isDone, hs.pending,
        hs.asserted, by simp [hq'], fun _ => hz⟩
  | park pc =>
    cases pc with
    | parked => simp [Group.coordinatorStep, hc] at h
    | setAwaiter | scheduled | relock =>
      have hq' := hs.queue_nil (by simp [hc])
      simp only [Group.coordinatorStep, hc, Option.some.injEq] at h
      subst h
      exact ⟨hcount, hstarted, by simp, by simp, by simp, by simp, hs.isDone, hs.pending,
        hs.asserted, by simp [hq'], by simp⟩
    | awaitSuspend =>
      have hq' := hs.queue_nil (by simp [hc])
      simp only [Group.coordinatorStep, hc, Option.some.injEq] at h
      subst h
      cases hd : s.group.isDone with
      | true =>
        have hmem : () ∉ s.group.doneWait.queue := by simp [hq']
        simp only [Bool.true_beq, FutexLike.awaitSuspend_changed hmem]
        exact ⟨hcount, hstarted, by simp, by simp, by simp, by simp,
          by simpa [hd] using hs.isDone, hs.pending, hs.asserted, by simp [hq'], by simp⟩
      | false =>
        simp only [beq_self_eq_true, FutexLike.awaitSuspend_equal]
        exact ⟨hcount, hstarted, by simp, by simp, by simp, by simp, fun _ => rfl, hs.pending,
          hs.asserted, by simp, by simp⟩

theorem Group.coordinatorStep_inv {n : Nat} {s t : Group} (hn : n < 2 ^ 63) (hs : s.Inv n)
    (hok : s.uncrossed n .coordinator = true) (h : s.coordinatorStep n = some t) : t.Inv n := by
  cases hc : s.coordinator with
  | returned => simp [Group.coordinatorStep, hc] at h
  | start i => exact hs.start hc h
  | add i pc => exact hs.add hn hok hc h
  | wait pc => exact hs.wait hc h

theorem waitGroup_inv {n : Nat} {s : Group} (hn : n < 2 ^ 63)
    (h : ((waitGroup n).guard (Group.uncrossed n)).Reachable s) : s.Inv n := by
  refine h.invariant (I := Group.Inv n) ?_ fun s l t _ hs hl => ?_
  · have hzero : tally (Finset.range n) Worker.outstanding (fun _ => .notStarted) = 0 :=
      tally_eq_zero.mpr fun _ _ => rfl
    by_cases hpos : 0 < n
    · refine ⟨?_, ?_, ?_, ?_, ?_, ?_, ?_, ?_, ?_, ?_, ?_⟩ <;>
        simp [waitGroup, WaitGroup.new, Coordinator.round, hpos, Coordinator.added,
          Coordinator.started, hzero]
    · obtain rfl : n = 0 := by omega
      refine ⟨?_, ?_, ?_, ?_, ?_, ?_, ?_, ?_, ?_, ?_, ?_⟩ <;>
        simp [waitGroup, WaitGroup.new, Coordinator.round, Coordinator.added,
          Coordinator.started, tally]
  · obtain ⟨hok, hl⟩ := Machine.guard_step.mp hl
    cases l with
    | coordinator => exact Group.coordinatorStep_inv hn hs hok hl
    | worker i => exact Group.workerStep_inv hn hs hok hl

/-- Once every worker is started, a zero count means that none of them is still
before its `fetch_sub`. -/
theorem Group.Inv.subtracted {n : Nat} {s : Group} (hs : s.Inv n)
    (hc : s.coordinator = .returned) : ∀ i < n, (s.workers i).subtracted = true := by
  intro i hi
  have hz := hs.waited (.inr hc)
  have hcount := hs.count
  simp only [hc, hz, Coordinator.added] at hcount
  have hout : (s.workers i).outstanding = 0 :=
    tally_eq_zero.mp (by omega) i (Finset.mem_range.mpr hi)
  have hstarted : s.workers i ≠ .notStarted := by
    rw [Ne, hs.started, hc]
    exact Nat.not_le_of_lt hi
  cases hw : s.workers i with
  | notStarted => exact (hstarted hw).elim
  | finished => rfl
  | working | assertFailed =>
    rw [hw] at hout
    exact (Nat.one_ne_zero hout).elim
  | done pc =>
    rw [hw] at hout
    cases pc with
    | useBegin | assert | fetchSub => exact (Nat.one_ne_zero hout).elim
    | storeDone | wakeAll | useEnd => rfl

/-- `Wait` waits for all `n` workers, as many as an `int64_t` can count, in every run
in which no `Add` crosses the last outstanding `Done`. -/
theorem waitGroup_waits (n : Nat) (hn : n < 2 ^ 63) {s : Group}
    (h : ((waitGroup n).guard (Group.uncrossed n)).Reachable s) : s.Waits n := by
  have hs := waitGroup_inv hn h
  refine ⟨hs.subtracted, fun _ hd => ?_⟩
  have hcount := hs.count
  have hflag := hs.isDone
  simp only [hd, Bool.true_eq_false, imp_false] at hflag
  omega

def oneRound : List GroupLabel :=
  [.coordinator, .coordinator, .coordinator, .coordinator, .coordinator, .coordinator]

def afterSecondAdd : List GroupLabel :=
  List.flatten [[.coordinator, .worker 0, .worker 0], List.replicate 5 .coordinator,
    List.replicate 7 (.worker 1), List.replicate 4 .coordinator]

/-- Two workers. The second `Add` comes between the load and the `fetch_sub` of the
first `Done`, and `Wait` is parked until the second one wakes it. -/
theorem waitGroup_waits_two :
    ∃ s t ls, ((waitGroup 2).guard (Group.uncrossed 2)).Reachable s ∧
      s.coordinator = .add 1 (.fetchAdd 1) ∧ s.workers 0 = .done .fetchSub ∧
      ((waitGroup 2).guard (Group.uncrossed 2)).exec s ls = some t ∧
      t.coordinator = .returned ∧ t.Waits 2 := by
  obtain ⟨s, hs, h⟩ := Machine.exists_reachable_of_exec
    (M := (waitGroup 2).guard (Group.uncrossed 2))
    (p := fun s => (s.coordinator == .add 1 (.fetchAdd 1) && s.workers 0 == .done .fetchSub) &&
      (((waitGroup 2).guard (Group.uncrossed 2)).exec s afterSecondAdd).any
        (·.coordinator == .returned))
    (List.flatten [oneRound, List.replicate 3 (.worker 0), [.coordinator, .coordinator]])
    (by decide +kernel)
  simp only [Bool.and_eq_true, beq_iff_eq] at h
  obtain ⟨t, ht, hreturned⟩ := Machine.exists_exec _ h.2
  exact ⟨s, t, _, hs, h.1.1, h.1.2, ht, beq_iff_eq.mp hreturned,
    waitGroup_waits 2 (by decide) (hs.exec ht)⟩

/-- The first worker is preempted between the `fetch_sub` that reaches zero and
the store of the flag, and stores it after the second `Add` has cleared it:
`Wait` returns although the second worker has not called `Done`. -/
theorem waitGroup_returns_early :
    ∃ s, (waitGroup 2).Reachable s ∧ s.coordinator = .returned ∧ s.workers 1 = .working ∧
      ¬ s.Waits 2 := by
  have h : (waitGroup 2).Reachable _ :=
    Machine.reachable_of_exec (List.flatten [oneRound, List.replicate 4 (.worker 0), oneRound,
      List.replicate 3 (.worker 0), [.coordinator, .coordinator]]) rfl
  refine ⟨_, h, rfl, rfl, fun hw => ?_⟩
  have := hw.returned rfl 1 (by decide)
  revert this
  decide

end ConcurrentProgramming.Fibers
