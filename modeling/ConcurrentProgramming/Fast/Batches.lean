import ConcurrentProgramming.Fast.LostWakeup
import ConcurrentProgramming.Fast.Ready
import ConcurrentProgramming.Fast.WorkStealingQueue

/-!
Batches that go into a worker's ring by `PushMany`, from the global queue or from
a victim: there is room for them, and they arrive as they were taken.
-/

set_option autoImplicit false

namespace ConcurrentProgramming.Fast
open Interleaving

namespace Pool

/-- The queue from which a worker is about to take. -/
def source {n : Nat} {O T : Type} (s : Pool n O T) : Work n T → Option (List (Option T))
  | .grab | .grabAgain => some s.global.queue
  | .steal _ victim _ => some (s.workers victim).localTasks
  | _ => none

/-- What `w` has just taken arrives: the first task is returned, and whatever the
others do before `PushMany`, it appends the rest to the ring. -/
def Arrives {n : Nat} {O T : Type} [DecidableEq O] (t : Pool n O T) (w : Fin n) :
    List (Option T) → Prop
  | [] => True
  | [first] => ∃ task, first = some task ∧ (t.workers w).work = .run task
  | first :: rest => ∃ task, first = some task ∧ ∀ ls u, (∀ l ∈ ls, l.actor ≠ some w) →
      (pool n O T).exec t ls = some u → ∀ c, ∃ v, (pool n O T).step u (.worker w c) = some v ∧
        (v.workers w).work = .run task ∧ (v.workers w).localTasks = (u.workers w).localTasks ++ rest

/-- Until it has pushed its batch, a worker waits with an empty ring. -/
theorem holds_batch {n : Nat} {O T : Type} [DecidableEq O] {s t : Pool n O T} {w : Fin n}
    {pc : Work n T} (hpc : pc ≠ .asleep) {ls : List (PoolLabel n O T)}
    (hls : ∀ l ∈ ls, l.actor ≠ some w) (hw : (s.workers w).work = pc)
    (hempty : (s.workers w).localTasks = []) (h : (pool n O T).exec s ls = some t) :
    (t.workers w).work = pc ∧ (t.workers w).localTasks = [] := by
  refine Machine.exec_invariant
    (I := fun s : Pool n O T => (s.workers w).work = pc ∧ (s.workers w).localTasks = [])
    ?_ hls ⟨hw, hempty⟩ h
  intro s l t (hl : l.actor ≠ some w) ⟨hw, hempty⟩ ht
  obtain ⟨hwork, k, hlocal⟩ := (aside_step ht hl).work (hw ▸ hpc)
  exact ⟨hwork.trans hw, by rw [hlocal, hempty, List.drop_nil]⟩

theorem workerStep_pushMany {n : Nat} {O T : Type} {s : Pool n O T} {w : Fin n} {c : Choice n T}
    {x : Worker n T} (hx : (s.workers w).localStep (s.coordinator.impudence w) = some x) :
    s.workerStep w c = some (s.setWorker w x) := by
  simp [workerStep, hx]

theorem Ready.arrives {n : Nat} {O T : Type} [DecidableEq O] {t : Pool n O T} {w : Fin n}
    (ht : (t.workers w).Ready) {first second : Option T} {rest : List (Option T)}
    (hw : (t.workers w).work = .pushGrabbed first (second :: rest) ∨
      (t.workers w).work = .pushStolen first (second :: rest)) :
    t.Arrives w (first :: second :: rest) := by
  obtain ⟨task, rfl, -⟩ := ht.pushMany .pick hw
  refine ⟨task, rfl, fun ls u hls hrun c => ?_⟩
  have hempty : (t.workers w).localTasks = [] := by
    have hwork := ht.work
    rcases hw with hw | hw
    · rw [hw] at hwork
      exact hwork.1
    · rw [hw] at hwork
      exact hwork.1
  have hawake : (t.workers w).work ≠ .asleep := by rcases hw with hw | hw <;> simp [hw]
  obtain ⟨hwork, hlocal⟩ := holds_batch hawake hls rfl hempty hrun
  have hu : (u.workers w).Ready := ⟨by simp [hlocal, Tasks], by rw [hwork, hlocal, ← hempty]; exact ht.work⟩
  rw [← hwork] at hw
  have hpush : ∃ x, (u.workers w).localStep (u.coordinator.impudence w) = some x ∧
      x.work = .run task ∧ x.localTasks = second :: rest := by
    rcases hw with hw | hw
    · obtain ⟨_, heq, -, hpush⟩ := hu.pushMany .impudence (.inl hw)
      obtain rfl := Option.some.inj heq
      exact ⟨_, by simpa only [Worker.localStep, hw] using hpush, rfl, rfl⟩
    · obtain ⟨_, heq, -, hpush⟩ := hu.pushMany .lifoCheck (.inr hw)
      obtain rfl := Option.some.inj heq
      exact ⟨_, by simpa only [Worker.localStep, hw] using hpush, rfl, rfl⟩
  obtain ⟨x, hx, hrun, hring⟩ := hpush
  refine ⟨u.setWorker w x, workerStep_pushMany hx, ?_, ?_⟩
  · rw [setWorker_self, hrun]
  · rw [setWorker_self, hring, hlocal, List.nil_append]

theorem steal_ring {n : Nat} {O T : Type} (s : Pool n O T) (w victim : Fin n) (limit : Nat)
    (pc : Work n T) :
    (((s.setWorker victim { s.workers victim with
      localTasks := (s.workers victim).localTasks.drop limit }).goto w pc).workers
        victim).localTasks = (s.workers victim).localTasks.drop limit := by
  by_cases hv : victim = w
  · subst hv
    simp [Worker.goto]
  · rw [goto_ne _ _ hv, setWorker_self]

theorem Ready.takes {n : Nat} {O T : Type} [DecidableEq O] {s t : Pool n O T} (hs : s.Ready)
    {w : Fin n} {c : Choice n T} {queue : List (Option T)} (h : s.workerStep w c = some t)
    (ht : (t.workers w).Ready) (hqueue : s.source (s.workers w).work = some queue) :
    ∃ items left, t.source (s.workers w).work = some left ∧ queue = items ++ left ∧
      t.Arrives w items := by
  have hwork := (hs.workers w).work
  have grabbed {pc : Work n T} (h : s.grab w pc = some t) (hq : queue = s.global.queue) :
      ∃ items, queue = items ++ t.global.queue ∧ t.Arrives w items := by
    obtain ⟨global, items, hgrab, rfl⟩ := grab_eq h
    obtain ⟨hfront, -, -⟩ := GlobalQueue.grab_queue hgrab
    have hitems := hs.tasks
    rw [hfront] at hitems
    refine ⟨items, by rw [hq]; exact hfront, ?_⟩
    have hgrabbed := hitems.of_append.1
    rcases items with _ | ⟨first, _ | ⟨second, rest⟩⟩
    · trivial
    · obtain ⟨task, rfl⟩ := Option.ne_none_iff_exists'.mp hgrabbed.of_cons.1
      exact ⟨task, rfl, by simp [Worker.picked, Worker.goto]⟩
    · exact Ready.arrives ht (.inl (by simp [Worker.goto]))
  cases hw : (s.workers w).work with
  | grab =>
    simp only [hw, source, Option.some.injEq] at hqueue
    have hgrab : s.grab w .allowParking = some t := by
      simpa [Pool.workerStep, Worker.localStep, Pool.globalStep, Pool.coordinatorStep, Pool.stealStep, hw] using h
    obtain ⟨items, hitems, harrives⟩ := grabbed hgrab hqueue.symm
    exact ⟨items, _, rfl, hitems, harrives⟩
  | grabAgain =>
    simp only [hw, source, Option.some.injEq] at hqueue
    have hgrab : s.grab w .impudence = some t := by
      simpa [Pool.workerStep, Worker.localStep, Pool.globalStep, Pool.coordinatorStep, Pool.stealStep, hw] using h
    obtain ⟨items, hitems, harrives⟩ := grabbed hgrab hqueue.symm
    exact ⟨items, _, rfl, hitems, harrives⟩
  | steal remaining victim limit =>
    simp only [hw, source, Option.some.injEq] at hqueue
    have hsteal : s.stealStep w c = some t := by
      simpa [Pool.workerStep, Worker.localStep, Pool.globalStep, Pool.coordinatorStep, hw] using h
    simp only [Pool.stealStep, hw, Option.some.injEq] at hsteal
    subst hsteal
    refine ⟨(s.workers victim).localTasks.take limit, _, rfl, ?_, ?_⟩
    · rw [steal_ring, List.take_append_drop]
      exact hqueue.symm
    · have htaken := (hs.workers victim).tasks.take limit
      generalize (s.workers victim).localTasks.take limit = items at htaken ht ⊢
      rcases items with _ | ⟨first, _ | ⟨second, rest⟩⟩
      · trivial
      · obtain ⟨task, rfl⟩ := Option.ne_none_iff_exists'.mp htaken.of_cons.1
        exact ⟨task, rfl, by simp [Worker.picked, Worker.goto]⟩
      · exact Ready.arrives ht (.inr (by simp [Worker.goto]))
  | _ => simp [hw, source] at hqueue

end Pool

/-! The ring itself, into which a batch that fits is copied slot by slot. -/

namespace WorkStealingQueue

/-- `PushMany` is called with a batch that fits. -/
def roomFor {C T : Type} (capacity : Nat) (s : WorkStealingQueue C T) : QueueLabel C T → Bool
  | .pushMany buffer => s.size + buffer.length ≤ capacity
  | _ => true

/-- The room that `PushMany` was called with is still there. -/
def Roomy {C T : Type} (capacity : Nat) (s : WorkStealingQueue C T) : Prop :=
  ∀ buffer, (s.producer = .pushManyLoadEnd buffer ∨ ∃ e, s.producer = .pushManyAssert buffer e) →
    s.end_ + buffer.length ≤ s.begin_ + capacity

/-- Consumers only make room. -/
theorem Inv.consumerStep_begin {C T : Type} [DecidableEq C] {capacity : Nat}
    {s t : WorkStealingQueue C T} (hs : s.Inv capacity) (hword : s.end_ < word) {c : C}
    {spurious : Bool} (ht : s.consumerStep capacity c spurious = some t) :
    s.begin_ ≤ t.begin_ ∧ t.end_ = s.end_ ∧ t.producer = s.producer := by
  have hconsumer := hs.consumers c
  have hlow := hs.low
  unfold WorkStealingQueue.consumerStep at ht
  cases hpc : s.consumers c with
  | idle => simp [hpc] at ht
  | tryPopLoadBegin | tryPopLoadItem b | grabLoadBegin outSize =>
    simp only [hpc, Option.some.injEq] at ht
    subst ht
    exact ⟨Nat.le_refl _, rfl, rfl⟩
  | tryPopLoadEnd b =>
    simp only [hpc] at ht
    split at ht
    · obtain rfl := Option.some.inj ht
      exact ⟨Nat.le_refl _, rfl, rfl⟩
    · obtain rfl := Option.some.inj ht
      exact ⟨Nat.le_refl _, rfl, rfl⟩
  | tryPopExchange b ans =>
    rw [hpc] at hconsumer
    obtain ⟨-, hlt, -⟩ := hconsumer
    simp only [hpc] at ht
    split at ht
    · rename_i hsame
      obtain rfl := Option.some.inj ht
      have hwrap : (s.begin_ + 1) % word = s.begin_ + 1 := Nat.mod_eq_of_lt (by omega)
      refine ⟨?_, rfl, rfl⟩
      simp only [WorkStealingQueue.remove, WorkStealingQueue.consumed, hwrap]
      exact Nat.le_succ _
    · obtain rfl := Option.some.inj ht
      exact ⟨Nat.le_refl _, rfl, rfl⟩
  | grabLoadEnd outSize b =>
    simp only [hpc] at ht
    split at ht
    · obtain rfl := Option.some.inj ht
      exact ⟨Nat.le_refl _, rfl, rfl⟩
    · obtain rfl := Option.some.inj ht
      exact ⟨Nat.le_refl _, rfl, rfl⟩
  | grabCopy outSize b lim copied =>
    rw [hpc] at hconsumer
    obtain ⟨-, hlim, -⟩ := hconsumer
    simp only [hpc] at ht
    split at ht
    · obtain rfl := Option.some.inj ht
      exact ⟨Nat.le_refl _, rfl, rfl⟩
    · split at ht
      · rename_i hsame
        obtain rfl := Option.some.inj ht
        have hwrap : (s.begin_ + lim) % word = s.begin_ + lim := Nat.mod_eq_of_lt (by omega)
        refine ⟨?_, rfl, rfl⟩
        simp only [WorkStealingQueue.remove, WorkStealingQueue.consumed, hwrap]
        exact Nat.le_add_right _ _
      · obtain rfl := Option.some.inj ht
        exact ⟨Nat.le_refl _, rfl, rfl⟩

theorem Roomy.step {C T : Type} [DecidableEq C] {capacity : Nat} {s t : WorkStealingQueue C T}
    (hroom : s.Roomy capacity) (hs : s.Inv capacity) (hbound : t.pushes + capacity < word)
    {l : QueueLabel C T} (hl : s.roomFor capacity l = true) (ht : s.step capacity l = some t) :
    t.Roomy capacity := by
  have hle := pushes_le_of_step ht
  have hends := hs.ends
  have hlow := hs.low
  intro buffer hbuffer
  cases l with
  | tryPush item =>
    cases hp : s.producer <;>
      simp only [WorkStealingQueue.step, hp, Option.some.injEq, reduceCtorEq] at ht
    subst ht
    simp at hbuffer
  | pushMany items =>
    cases hp : s.producer <;>
      simp only [WorkStealingQueue.step, hp, Option.some.injEq, reduceCtorEq] at ht
    subst ht
    obtain rfl : items = buffer := by simpa using hbuffer
    have hfits : s.end_ - s.begin_ + items.length ≤ capacity := of_decide_eq_true hl
    show s.end_ + items.length ≤ s.begin_ + capacity
    omega
  | tryPop c | grab c outSize =>
    cases hc : s.consumers c <;>
      simp only [WorkStealingQueue.step, hc, Option.some.injEq, reduceCtorEq] at ht
    subst ht
    exact hroom buffer hbuffer
  | consumer c spurious =>
    have hword : s.end_ < word := by
      unfold pushes at hle hbound
      omega
    obtain ⟨hbegin, hend, hproducer⟩ := hs.consumerStep_begin hword ht
    rw [hproducer] at hbuffer
    have := hroom buffer hbuffer
    omega
  | producer =>
    simp only [WorkStealingQueue.step, WorkStealingQueue.producerStep] at ht
    cases hp : s.producer with
    | pushManyLoadEnd items =>
      simp only [hp, Option.some.injEq] at ht
      subst ht
      obtain rfl : items = buffer := by simpa [WorkStealingQueue.produce] using hbuffer
      exact hroom items (.inl hp)
    | idle => simp [hp] at ht
    | tryPushLoadEnd item b | pushManyAssert items e =>
      simp only [hp] at ht
      split at ht <;> simp only [Option.some.injEq, reduceCtorEq] at ht <;> subst ht <;>
        simp [WorkStealingQueue.produce, WorkStealingQueue.produced] at hbuffer
    | pushManyStore items rest e =>
      cases rest <;> simp only [hp, Option.some.injEq] at ht <;> subst ht <;>
        simp [WorkStealingQueue.produce] at hbuffer
    | _ =>
      simp only [hp, Option.some.injEq] at ht
      subst ht
      simp [WorkStealingQueue.produce, WorkStealingQueue.produced,
        WorkStealingQueue.publish] at hbuffer

/-- No step of the producer writes to a slot that is in use. -/
theorem Inv.producerStep_slots {C T : Type} {capacity : Nat} {s t : WorkStealingQueue C T}
    (hs : s.Inv capacity) (ht : s.producerStep capacity = some t) {j : Nat} (hlow : s.begin_ ≤ j)
    (hhigh : j < s.end_) : t.buffer (j % capacity) = s.buffer (j % capacity) := by
  have hproducer := hs.producer
  unfold WorkStealingQueue.producerStep at ht
  cases hp : s.producer with
  | idle => simp [hp] at ht
  | tryPushStore item e =>
    rw [hp] at hproducer
    obtain ⟨rfl, hroom⟩ := hproducer
    simp only [hp, Option.some.injEq] at ht
    subst ht
    exact Function.update_of_ne (mod_ne_of_lt hhigh (by omega)) _ _
  | pushManyStore items rest e =>
    rw [hp] at hproducer
    obtain ⟨copied, hitems, he, hroom, -⟩ := hproducer
    cases rest with
    | nil =>
      simp only [hp, Option.some.injEq] at ht
      subst ht
      rfl
    | cons item rest =>
      simp only [hp, Option.some.injEq] at ht
      subst ht
      rw [hitems, List.length_append, List.length_cons] at hroom
      exact Function.update_of_ne (mod_ne_of_lt (by omega) (by omega)) _ _
  | tryPushLoadEnd item b | pushManyAssert items e =>
    simp only [hp] at ht
    split at ht <;> simp only [Option.some.injEq, reduceCtorEq] at ht <;> subst ht <;> rfl
  | _ =>
    simp only [hp, Option.some.injEq] at ht
    subst ht
    rfl

/-- The assertion of `PushMany`. -/
def AssertsRoom {C T : Type} (capacity : Nat) (s : WorkStealingQueue C T) : Prop :=
  ∀ buffer e, s.producer = .pushManyAssert buffer e →
    (e + buffer.length) % word ≤ (s.begin_ + capacity) % word

theorem Roomy.assertsRoom {C T : Type} {capacity : Nat} {s : WorkStealingQueue C T}
    (hroom : s.Roomy capacity) (hs : s.Inv capacity) (hbound : s.pushes + capacity < word) :
    s.AssertsRoom capacity := by
  intro buffer e hp
  have hproducer := hs.producer
  rw [hp] at hproducer
  obtain rfl : e = s.end_ := hproducer
  have hfits := hroom buffer (.inr ⟨_, hp⟩)
  have hends := hs.ends
  have hlow := hs.low
  simp only [pushes, hp, Producer.inFlight] at hbound
  rwa [Nat.mod_eq_of_lt (by omega), Nat.mod_eq_of_lt (by omega)]

end WorkStealingQueue

/-- A worker's ring, with `PushMany` called only for batches that fit. -/
def roomyQueue (C T : Type) [DecidableEq C] (slots : Nat → Option T) :
    Machine (WorkStealingQueue C T) (QueueLabel C T) :=
  (workStealingQueue C T kLocalQueueCapacity slots).guard
    (WorkStealingQueue.roomFor kLocalQueueCapacity)

theorem roomyQueue_inv {C T : Type} [DecidableEq C] {slots : Nat → Option T}
    {q : WorkStealingQueue C T} (h : (roomyQueue C T slots).Reachable q)
    (hbound : q.pushes < word - kLocalQueueCapacity) :
    q.Inv kLocalQueueCapacity ∧ q.Roomy kLocalQueueCapacity := by
  have hmono : ∀ s l t, (roomyQueue C T slots).step s l = some t → s.pushes ≤ t.pushes :=
    fun _ _ _ ht => WorkStealingQueue.pushes_le_of_step (Machine.guard_step.mp ht).2
  refine Machine.Reachable.invariant
    (I := fun q => q.Inv kLocalQueueCapacity ∧ q.Roomy kLocalQueueCapacity) ?_ ?_
    (h.guard_of_mono hmono hbound)
  · refine ⟨⟨rfl, Nat.le_refl _, Nat.zero_le _, fun j _ hj => absurd hj (Nat.not_lt_zero j),
      trivial, fun _ => trivial, by simp [roomyQueue, workStealingQueue]⟩, ?_⟩
    intro buffer hbuffer
    simp [roomyQueue, workStealingQueue] at hbuffer
  · rintro s l t - ⟨hs, hroom⟩ ht
    obtain ⟨hok, hguarded⟩ := Machine.guard_step.mp ht
    simp only [hguarded, Option.any_some, decide_eq_true_eq] at hok
    obtain ⟨hl, hstep⟩ := Machine.guard_step.mp hguarded
    have hlt : t.pushes + kLocalQueueCapacity < word := by omega
    exact ⟨hs.step hlt hstep, hroom.step hs hlt hl hstep⟩

/-- A batch in the hands of a worker fits into its ring. -/
def Pool.Fits {n : Nat} {O T : Type} (s : Pool n O T) (w : Fin n) : Prop :=
  ∀ first rest, (s.workers w).work = .pushGrabbed first rest ∨
    (s.workers w).work = .pushStolen first rest →
      (s.workers w).localTasks.length + rest.length ≤ kLocalQueueCapacity

/-- Batches fit and arrive in order as long as no offload publishes a null
pointer; then, too, `PushMany` copies into unused slots. -/
theorem batches_fit {n : Nat} {O T : Type} [DecidableEq O] {s : Pool n O T}
    (h : (tasksPool n O T).Reachable s) (w : Fin n) :
    s.Fits w ∧
    (∀ c t queue, (tasksPool n O T).step s (.worker w c) = some t →
      s.source (s.workers w).work = some queue →
        ∃ items left, t.source (s.workers w).work = some left ∧ queue = items ++ left ∧
          t.Arrives w items) ∧
    ∀ (C : Type) [DecidableEq C] (slots : Nat → Option T) (q : WorkStealingQueue C T),
      (roomyQueue C T slots).Reachable q → q.pushes < word - kLocalQueueCapacity →
        q.AssertsRoom kLocalQueueCapacity ∧
        ∀ q', q.producerStep kLocalQueueCapacity = some q' → ∀ j, q.begin_ ≤ j → j < q.end_ →
          q'.buffer (j % kLocalQueueCapacity) = q.buffer (j % kLocalQueueCapacity) := by
  have hs := tasksPool_ready h
  refine ⟨?_, ?_, ?_⟩
  · intro first rest hw
    obtain ⟨-, -, hfits, -⟩ := (hs.workers w).pushMany .pick hw
    exact hfits
  · intro c t queue ht hqueue
    have hready := tasksPool_ready (.step h ht)
    exact hs.takes (Machine.guard_step.mp ht).2 (hready.workers w) hqueue
  · intro C _ slots q hq hbound
    obtain ⟨hinv, hroom⟩ := roomyQueue_inv hq hbound
    exact ⟨hroom.assertsRoom hinv (by omega), fun q' hq' j => hinv.producerStep_slots hq'⟩

/-- A worker has grabbed three tasks. -/
theorem batches_fit_grabbed : ∃ s, (tasksPool 1 (Fin 1) Nat).Reachable s ∧
    (s.workers 0).work = .pushGrabbed (some 7) [some 8, some 9] ∧ s.Fits 0 := by
  let c : Choice 1 Nat := ⟨none, 0, fun _ => none⟩
  let submit (task : Nat) : List (PoolLabel 1 (Fin 1) Nat) :=
    .submit 0 task :: List.replicate 3 (.outside 0 none)
  obtain ⟨s, h, hs⟩ := Machine.exists_reachable_of_exec (M := tasksPool 1 (Fin 1) Nat)
    (p := fun s => decide ((s.workers 0).work = .pushGrabbed (some 7) [some 8, some 9]))
    (submit 7 ++ submit 8 ++ submit 9 ++ List.replicate 4 (.worker 0 c)) (by decide +kernel)
  exact ⟨s, h, of_decide_eq_true hs, (batches_fit h 0).1⟩

/-! A null pointer that an offload has published reaches a ring with the batch it is
in. `TryPop` takes it for an empty ring, and the next batch comes upon 255 tasks. -/

theorem batch_exceeds_ring : ∃ s, (pool 3 (Fin 1) Nat).Reachable s ∧
    (s.workers 1).work = .pushGrabbed (some 1001) [some 1002, some 1003] ∧
      (s.workers 1).localTasks.length = 255 ∧ ¬ s.Fits 1 := by
  obtain ⟨s, h, hs⟩ := Machine.exists_reachable_of_exec (M := pool 3 (Fin 1) Nat)
    (p := fun s => decide ((s.workers 1).work = .pushGrabbed (some 1001) [some 1002, some 1003] ∧
      (s.workers 1).localTasks.length = 255)) nullRun (by decide +kernel)
  obtain ⟨hw, hlength⟩ := of_decide_eq_true hs
  refine ⟨s, h, hw, hlength, fun hfits => ?_⟩
  have := hfits _ _ (.inl hw)
  rw [hlength] at this
  exact absurd this (by decide)

end ConcurrentProgramming.Fast
