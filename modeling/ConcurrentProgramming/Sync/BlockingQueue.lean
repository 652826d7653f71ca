import ConcurrentProgramming.Interleaving.BoundedFifo
import ConcurrentProgramming.Interleaving.Tally
import ConcurrentProgramming.Sync.Semaphore

/-!
The bounded blocking queue over three semaphores. Every section of a semaphore and
every access to the deque is a step.
-/

set_option autoImplicit false

namespace ConcurrentProgramming.Sync
open Interleaving

inductive QueueSemaphore where
  | freeSpace
  | occupiedSpace
  | writingRights
  deriving DecidableEq, Repr

/-- The calls of `Acquire`, two in `Put` and two in `Take`. -/
inductive AcquireSite (E : Type) where
  | putFree (value : E)
  | putWriting (value : E)
  | takeOccupied
  | takeWriting
  deriving DecidableEq, Repr

/-- The calls of `Release`. -/
inductive ReleaseSite (E : Type) where
  | putWriting
  | putOccupied
  | takeWriting (ans : E)
  | takeFree (ans : E)
  deriving DecidableEq, Repr

inductive QueuePc (E : Type) where
  | idle
  | acquire (site : AcquireSite E) (inWait : Bool)
  | pushBack (value : E)
  | front
  | popFront (ans : E)
  | release (site : ReleaseSite E)
  deriving DecidableEq, Repr

def AcquireSite.semaphore {E : Type} : AcquireSite E → QueueSemaphore
  | .putFree _ => .freeSpace
  | .takeOccupied => .occupiedSpace
  | .putWriting _ | .takeWriting => .writingRights

def AcquireSite.next {E : Type} : AcquireSite E → QueuePc E
  | .putFree value => .acquire (.putWriting value) false
  | .putWriting value => .pushBack value
  | .takeOccupied => .acquire .takeWriting false
  | .takeWriting => .front

def ReleaseSite.semaphore {E : Type} : ReleaseSite E → QueueSemaphore
  | .putWriting | .takeWriting _ => .writingRights
  | .putOccupied => .occupiedSpace
  | .takeFree _ => .freeSpace

def ReleaseSite.next {E : Type} : ReleaseSite E → QueuePc E
  | .putWriting => .release .putOccupied
  | .takeWriting ans => .release (.takeFree ans)
  | .putOccupied | .takeFree _ => .idle

/-- `inserted` and `taken` record what went into the deque and out of it. -/
structure BlockingQueue (T E : Type) where
  semaphores : QueueSemaphore → Semaphore T
  queue : List E
  pc : T → QueuePc E
  inserted : List E
  taken : List E

/-- `woken` is whom a `notify_one` wakes; `wake` is a wake-up for no reason. -/
inductive BlockingQueueLabel (T E : Type) where
  | put (t : T) (value : E)
  | take (t : T)
  | step (t : T) (woken : Option T)
  | wake (t : T) (semaphore : QueueSemaphore)
  deriving DecidableEq, Repr

namespace BlockingQueue

def goto {T E : Type} [DecidableEq T] (q : BlockingQueue T E) (t : T) (pc : QueuePc E) :
    BlockingQueue T E := { q with pc := Function.update q.pc t pc }

def setSemaphore {T E : Type} (q : BlockingQueue T E) (name : QueueSemaphore)
    (semaphore : Semaphore T) : BlockingQueue T E :=
  { q with semaphores := Function.update q.semaphores name semaphore }

/-- A section of `Acquire` has come out as `result`. -/
def acquired {T E : Type} [DecidableEq T] (q : BlockingQueue T E) (t : T) (site : AcquireSite E)
    (result : Semaphore T × Bool) : BlockingQueue T E :=
  (q.setSemaphore site.semaphore result.1).goto t
    (if result.2 then site.next else .acquire site true)

/-- `front` and `pop_front` on an empty deque are undefined. -/
def threadStep {T E : Type} [DecidableEq T] (q : BlockingQueue T E) (t : T) (woken : Option T) :
    Option (BlockingQueue T E) :=
  match q.pc t with
  | .idle => none
  | .acquire site false => some (q.acquired t site ((q.semaphores site.semaphore).acquire t))
  | .acquire site true => ((q.semaphores site.semaphore).reacquire t).map (q.acquired t site)
  | .pushBack value =>
    some { q.goto t (.release .putWriting) with
      queue := q.queue ++ [value], inserted := q.inserted ++ [value] }
  | .front => q.queue.head?.map fun ans => q.goto t (.popFront ans)
  | .popFront ans =>
    match q.queue with
    | [] => none
    | _ :: rest =>
      some { q.goto t (.release (.takeWriting ans)) with queue := rest, taken := q.taken ++ [ans] }
  | .release site =>
    ((q.semaphores site.semaphore).release woken).map fun semaphore =>
      (q.setSemaphore site.semaphore semaphore).goto t site.next

def step {T E : Type} [DecidableEq T] (q : BlockingQueue T E) :
    BlockingQueueLabel T E → Option (BlockingQueue T E)
  | .put t value =>
    match q.pc t with
    | .idle => some (q.goto t (.acquire (.putFree value) false))
    | _ => none
  | .take t =>
    match q.pc t with
    | .idle => some (q.goto t (.acquire .takeOccupied false))
    | _ => none
  | .step t woken => q.threadStep t woken
  | .wake t name => ((q.semaphores name).wake t).map (q.setSemaphore name)

end BlockingQueue

def BlockingQueue.new (T E : Type) (capacity : Nat) : BlockingQueue T E where
  semaphores
    | .freeSpace => .new T capacity
    | .occupiedSpace => .new T 0
    | .writingRights => .new T 1
  queue := []
  pc _ := .idle
  inserted := []
  taken := []

def blockingQueue (T E : Type) [DecidableEq T] (capacity : Nat) :
    Machine (BlockingQueue T E) (BlockingQueueLabel T E) where
  init := .new T E capacity
  step := BlockingQueue.step

namespace QueuePc

def waits {E : Type} (name : QueueSemaphore) : QueuePc E → Bool
  | .acquire site true => site.semaphore == name
  | _ => false

/-- The tokens that a thread has: a free place it will fill or has emptied, an
element it will take or has put in, the right to access the deque. -/
def held {E : Type} : QueueSemaphore → QueuePc E → Nat
  | .freeSpace, .acquire (.putWriting _) _ | .freeSpace, .pushBack _
  | .freeSpace, .release (.takeWriting _) | .freeSpace, .release (.takeFree _) => 1
  | .occupiedSpace, .acquire .takeWriting _ | .occupiedSpace, .front
  | .occupiedSpace, .popFront _ | .occupiedSpace, .release .putWriting
  | .occupiedSpace, .release .putOccupied => 1
  | .writingRights, .pushBack _ | .writingRights, .front | .writingRights, .popFront _
  | .writingRights, .release .putWriting | .writingRights, .release (.takeWriting _) => 1
  | _, _ => 0

/-- A section of `Acquire` comes out with a token or inside `wait`. -/
theorem held_acquired {E : Type} (site : AcquireSite E) (inWait got : Bool)
    (name : QueueSemaphore) :
    (if got then site.next else .acquire site true).held name =
      (QueuePc.acquire site inWait).held name +
        if got = true ∧ site.semaphore = name then 1 else 0 := by
  cases site <;> cases got <;> cases inWait <;> cases name <;> rfl

theorem waits_acquired {E : Type} (site : AcquireSite E) (got : Bool) (name : QueueSemaphore) :
    (if got then site.next else .acquire site true).waits name =
      (!got && site.semaphore == name) := by
  cases site <;> cases got <;> cases name <;> rfl

theorem waits_acquire {E : Type} (site : AcquireSite E) (inWait : Bool) (name : QueueSemaphore) :
    (QueuePc.acquire site inWait).waits name = (inWait && site.semaphore == name) := by
  cases inWait <;> rfl

theorem held_released {E : Type} (site : ReleaseSite E) (name : QueueSemaphore) :
    (QueuePc.release site).held name =
      site.next.held name + if site.semaphore = name then 1 else 0 := by
  cases site <;> cases name <;> rfl

theorem waits_released {E : Type} (site : ReleaseSite E) (name : QueueSemaphore) :
    site.next.waits name = false := by
  cases site <;> rfl

end QueuePc

namespace BlockingQueue

/-- The tokens of one semaphore, wherever they are. -/
def total {T E : Type} [Fintype T] (q : BlockingQueue T E) (name : QueueSemaphore) : Nat :=
  (q.semaphores name).tokens + tally Finset.univ (QueuePc.held name) q.pc

structure Inv {T E : Type} [Fintype T] (capacity : Nat) (q : BlockingQueue T E) : Prop where
  sound : ∀ name, (q.semaphores name).Sound fun t => (q.pc t).waits name = true
  free : q.total .freeSpace + q.queue.length = capacity
  occupied : q.total .occupiedSpace = q.queue.length
  writing : q.total .writingRights = 1
  front : ∀ t ans, q.pc t = .popFront ans → q.queue.head? = some ans

theorem total_goto {T E : Type} [Fintype T] [DecidableEq T] (q : BlockingQueue T E) (t : T)
    (pc : QueuePc E) (name : QueueSemaphore) (semaphores : QueueSemaphore → Semaphore T)
    (queue inserted taken : List E) :
    (BlockingQueue.mk semaphores queue (Function.update q.pc t pc) inserted taken).total name +
        (q.semaphores name).tokens + (q.pc t).held name =
      q.total name + (semaphores name).tokens + pc.held name := by
  have htally := tally_update (QueuePc.held name) q.pc (Finset.mem_univ t) pc
  unfold total
  dsimp only
  omega

theorem Inv.goto {T E : Type} [Fintype T] [DecidableEq T] {capacity : Nat}
    {q : BlockingQueue T E} (hq : q.Inv capacity) {t : T} {pc : QueuePc E}
    {semaphores : QueueSemaphore → Semaphore T}
    (hsound : ∀ name, (semaphores name).Sound fun u =>
      (Function.update q.pc t pc u).waits name = true)
    (hheld : ∀ name, (semaphores name).tokens + pc.held name =
      (q.semaphores name).tokens + (q.pc t).held name)
    (hfront : ∀ ans, pc = .popFront ans → q.queue.head? = some ans) :
    ({ q with semaphores := semaphores, pc := Function.update q.pc t pc } :
      BlockingQueue T E).Inv capacity := by
  have htotal (name : QueueSemaphore) :
      (BlockingQueue.mk semaphores q.queue (Function.update q.pc t pc) q.inserted q.taken).total
        name = q.total name := by
    have htotal := total_goto q t pc name semaphores q.queue q.inserted q.taken
    have := hheld name
    omega
  refine ⟨hsound, ?_, ?_, ?_, fun u ans hu => ?_⟩
  · rw [htotal]
    exact hq.free
  · rw [htotal]
    exact hq.occupied
  · rw [htotal]
    exact hq.writing
  · by_cases he : u = t
    · subst he
      exact hfront ans (by simpa using hu)
    · exact hq.front u ans (by simpa [he] using hu)

/-- Only the semaphore at hand and the thread at hand are concerned. -/
theorem Inv.sound_update {T E : Type} [Fintype T] [DecidableEq T] {capacity : Nat}
    {q : BlockingQueue T E} (hq : q.Inv capacity) {t : T} {pc : QueuePc E}
    {name : QueueSemaphore} {semaphore : Semaphore T} {waiting : T → Prop}
    (h : semaphore.Sound waiting) (ht : waiting t ↔ pc.waits name = true)
    (hwaiting : ∀ u, u ≠ t → (waiting u ↔ (q.pc u).waits name = true))
    (hother : ∀ other, other ≠ name → pc.waits other = (q.pc t).waits other)
    (other : QueueSemaphore) :
    (Function.update q.semaphores name semaphore other).Sound fun u =>
      (Function.update q.pc t pc u).waits other = true := by
  by_cases he : other = name
  · subst he
    rw [Function.update_self]
    refine h.congr fun u => ?_
    by_cases hu : u = t
    · rw [hu, Function.update_self]
      exact ht
    · rw [Function.update_of_ne hu]
      exact hwaiting u hu
  · rw [Function.update_of_ne he]
    refine (hq.sound other).congr fun u => ?_
    by_cases hu : u = t
    · rw [hu, Function.update_self, hother other he]
    · rw [Function.update_of_ne hu]

theorem Inv.acquired {T E : Type} [Fintype T] [DecidableEq T] {capacity : Nat}
    {q : BlockingQueue T E} (hq : q.Inv capacity) {t : T} {site : AcquireSite E} {inWait : Bool}
    (ht : q.pc t = .acquire site inWait) {semaphore : Semaphore T} {got : Bool}
    (hsound : semaphore.Sound fun u =>
      u = t ∧ got = false ∨ u ≠ t ∧ (q.pc u).waits site.semaphore = true)
    (htokens : (q.semaphores site.semaphore).tokens = semaphore.tokens + if got then 1 else 0) :
    (q.acquired t site (semaphore, got)).Inv capacity := by
  refine hq.goto (fun name => hq.sound_update hsound ?_ (fun u hu => by simp [hu])
    (fun other ho => ?_) name) (fun name => ?_) ?_
  · simp [QueuePc.waits_acquired]
  · have hne : (site.semaphore == other) = false := beq_false_of_ne ho.symm
    rw [ht, QueuePc.waits_acquired, QueuePc.waits_acquire, hne, Bool.and_false, Bool.and_false]
  · rw [ht, QueuePc.held_acquired site inWait]
    by_cases he : site.semaphore = name
    · subst he
      simp only [BlockingQueue.setSemaphore, Function.update_self, and_true]
      omega
    · have hne : name ≠ site.semaphore := fun h => he h.symm
      simp [BlockingQueue.setSemaphore, hne, he]
  · intro ans hpc
    cases got with
    | false => cases hpc
    | true => cases site <;> cases hpc

/-- A thread that goes on to a place where it waits for nothing. -/
theorem Inv.sound_goto {T E : Type} [Fintype T] [DecidableEq T] {capacity : Nat}
    {q : BlockingQueue T E} (hq : q.Inv capacity) {t : T} {pc : QueuePc E}
    (hwaits : ∀ name, pc.waits name = (q.pc t).waits name) (name : QueueSemaphore) :
    (q.semaphores name).Sound fun u => (Function.update q.pc t pc u).waits name = true := by
  refine (hq.sound name).congr fun u => ?_
  by_cases hu : u = t
  · rw [hu, Function.update_self, hwaits]
  · rw [Function.update_of_ne hu]

theorem Inv.released {T E : Type} [Fintype T] [DecidableEq T] {capacity : Nat}
    {q : BlockingQueue T E} (hq : q.Inv capacity) {t : T} {site : ReleaseSite E}
    (ht : q.pc t = .release site) {woken : Option T} {semaphore : Semaphore T}
    (h : (q.semaphores site.semaphore).release woken = some semaphore) :
    ((q.setSemaphore site.semaphore semaphore).goto t site.next).Inv capacity := by
  refine hq.goto (fun name => hq.sound_update ((hq.sound site.semaphore).release h) ?_
    (fun u _ => Iff.rfl) (fun other _ => ?_) name) (fun name => ?_) ?_
  · rw [ht, QueuePc.waits_released]
    rfl
  · rw [ht, QueuePc.waits_released]
    rfl
  · have htokens := Semaphore.release_tokens h
    rw [ht, QueuePc.held_released]
    by_cases he : site.semaphore = name
    · subst he
      simp only [BlockingQueue.setSemaphore, Function.update_self, if_true]
      omega
    · have hne : name ≠ site.semaphore := fun h => he h.symm
      simp [BlockingQueue.setSemaphore, hne, he]
  · intro ans hpc
    cases site <;> cases hpc

/-- Only one thread has the right to access the deque. -/
theorem Inv.exclusive {T E : Type} [Fintype T] [DecidableEq T] {capacity : Nat}
    {q : BlockingQueue T E} (hq : q.Inv capacity) {t u : T}
    (ht : (q.pc t).held .writingRights = 1) (hu : (q.pc u).held .writingRights = 1) : t = u := by
  by_contra hne
  have htally := tally_update (QueuePc.held .writingRights) q.pc (Finset.mem_univ t) .idle
  have hother := le_tally (QueuePc.held .writingRights) (Function.update q.pc t .idle)
    (Finset.mem_univ u)
  have hwriting := hq.writing
  rw [Function.update_of_ne (Ne.symm hne)] at hother
  have hidle : (QueuePc.idle : QueuePc E).held .writingRights = 0 := rfl
  unfold total at hwriting
  omega

/-- What a thread holds is there. -/
theorem held_le {T E : Type} [Fintype T] (q : BlockingQueue T E) (t : T)
    (name : QueueSemaphore) : (q.pc t).held name ≤ q.total name :=
  Nat.le_trans (le_tally (QueuePc.held name) q.pc (Finset.mem_univ t)) (Nat.le_add_left _ _)

/-- A step of the thread that has the right to access the deque. -/
theorem Inv.access {T E : Type} [Fintype T] [DecidableEq T] {capacity : Nat}
    {q : BlockingQueue T E} (hq : q.Inv capacity) {t : T} {pc : QueuePc E}
    {queue inserted taken : List E} (ht : (q.pc t).held .writingRights = 1)
    (hpc : pc.held .writingRights = 1) (hwaits : ∀ name, pc.waits name = (q.pc t).waits name)
    (hfree : pc.held .freeSpace + queue.length = (q.pc t).held .freeSpace + q.queue.length)
    (hoccupied : pc.held .occupiedSpace + q.queue.length =
      (q.pc t).held .occupiedSpace + queue.length)
    (hfront : ∀ ans, pc = .popFront ans → queue.head? = some ans) :
    (BlockingQueue.mk q.semaphores queue (Function.update q.pc t pc) inserted taken).Inv
      capacity := by
  have htotal (name : QueueSemaphore) :=
    total_goto q t pc name q.semaphores queue inserted taken
  refine ⟨hq.sound_goto hwaits, ?_, ?_, ?_, fun u ans hu => ?_⟩
  · have htotal := htotal .freeSpace
    have hbefore := hq.free
    dsimp only
    omega
  · have htotal := htotal .occupiedSpace
    have hbefore := hq.occupied
    dsimp only
    omega
  · have htotal := htotal .writingRights
    have hbefore := hq.writing
    omega
  · by_cases he : u = t
    · subst he
      exact hfront ans (by simpa using hu)
    · have hu : q.pc u = .popFront ans := by simpa [he] using hu
      exact (he (hq.exclusive (by rw [hu]; rfl) ht)).elim

theorem Inv.threadStep {T E : Type} [Fintype T] [DecidableEq T] {capacity : Nat}
    {q r : BlockingQueue T E} (hq : q.Inv capacity) {t : T} {woken : Option T}
    (h : q.threadStep t woken = some r) : r.Inv capacity := by
  unfold BlockingQueue.threadStep at h
  cases ht : q.pc t with
  | idle => simp [ht] at h
  | acquire site inWait =>
    cases inWait with
    | false =>
      simp only [ht, Option.some.injEq] at h
      subst h
      have hwaits : ¬ (q.pc t).waits site.semaphore = true := by
        rw [ht, QueuePc.waits_acquire]
        nofun
      cases hacquire : (q.semaphores site.semaphore).acquire t with | mk semaphore got =>
      have hsound := (hq.sound site.semaphore).acquire hwaits hacquire
      refine hq.acquired ht (hsound.congr fun u => ?_) (Semaphore.acquire_tokens hacquire)
      exact or_congr_right ⟨fun hu => ⟨fun he => hwaits (he ▸ hu), hu⟩, And.right⟩
    | true =>
      simp only [ht] at h
      obtain ⟨⟨semaphore, got⟩, hreacquire, rfl⟩ := Option.map_eq_some_iff.mp h
      exact hq.acquired ht ((hq.sound site.semaphore).reacquire hreacquire)
        (Semaphore.reacquire_tokens hreacquire)
  | pushBack value =>
    simp only [ht, Option.some.injEq] at h
    subst h
    refine hq.access (by rw [ht]; rfl) rfl (fun name => by rw [ht]; rfl) ?_ ?_ nofun
    · rw [ht, List.length_append]
      exact (Nat.zero_add _).trans (Nat.add_comm _ _)
    · rw [ht, List.length_append]
      exact (Nat.add_comm _ _).trans (Nat.zero_add _).symm
  | front =>
    simp only [ht] at h
    obtain ⟨ans, hhead, rfl⟩ := Option.map_eq_some_iff.mp h
    refine hq.access (by rw [ht]; rfl) rfl (fun name => by rw [ht]; rfl) ?_ ?_ fun other hother => ?_
    · rw [ht]
      rfl
    · rw [ht]
      rfl
    · cases hother
      exact hhead
  | popFront ans =>
    simp only [ht] at h
    cases hqueue : q.queue with
    | nil => simp [hqueue] at h
    | cons first rest =>
      simp only [hqueue, Option.some.injEq] at h
      subst h
      refine hq.access (by rw [ht]; rfl) rfl (fun name => by rw [ht]; rfl) ?_ ?_ nofun
      · rw [ht, hqueue, List.length_cons]
        exact (Nat.add_comm _ _).trans (Nat.zero_add _).symm
      · rw [ht, hqueue, List.length_cons]
        exact (Nat.zero_add _).trans (Nat.add_comm _ _)
  | release site =>
    simp only [ht] at h
    obtain ⟨semaphore, hrelease, rfl⟩ := Option.map_eq_some_iff.mp h
    exact hq.released ht hrelease

theorem Inv.step {T E : Type} [Fintype T] [DecidableEq T] {capacity : Nat}
    {q r : BlockingQueue T E} (hq : q.Inv capacity) {l : BlockingQueueLabel T E}
    (h : q.step l = some r) : r.Inv capacity := by
  have call (t : T) (site : AcquireSite E) (ht : q.pc t = .idle)
      (hheld : ∀ name, (QueuePc.acquire site false).held name = 0) :
      (q.goto t (.acquire site false)).Inv capacity := by
    refine hq.goto (hq.sound_goto fun name => ?_) (fun name => ?_) nofun
    · rw [ht, QueuePc.waits_acquire]
      rfl
    · rw [ht, hheld]
      cases name <;> rfl
  cases l with
  | put t value =>
    cases ht : q.pc t <;> simp only [BlockingQueue.step, ht, reduceCtorEq, Option.some.injEq] at h
    subst h
    exact call t _ ht fun name => by cases name <;> rfl
  | take t =>
    cases ht : q.pc t <;> simp only [BlockingQueue.step, ht, reduceCtorEq, Option.some.injEq] at h
    subst h
    exact call t _ ht fun name => by cases name <;> rfl
  | step t woken => exact hq.threadStep h
  | wake t name =>
    obtain ⟨semaphore, hwake, rfl⟩ := Option.map_eq_some_iff.mp h
    have hsame : Function.update q.pc t (q.pc t) = q.pc := Function.update_eq_self ..
    have hsound (other : QueueSemaphore) :
        (Function.update q.semaphores name semaphore other).Sound fun u =>
          (Function.update q.pc t (q.pc t) u).waits other = true :=
      hq.sound_update ((hq.sound name).wake hwake) Iff.rfl (fun u _ => Iff.rfl)
        (fun other _ => rfl) other
    have hinv := hq.goto hsound (fun other => ?_) (hq.front t)
    · rwa [hsame] at hinv
    · by_cases he : other = name
      · subst he
        rw [Function.update_self, Semaphore.wake_tokens hwake]
      · rw [Function.update_of_ne he]

theorem inv_init (T E : Type) [Fintype T] [DecidableEq T] (capacity : Nat) :
    (BlockingQueue.new T E capacity).Inv capacity := by
  have hheld (name : QueueSemaphore) :
      tally Finset.univ (QueuePc.held name) (fun _ : T => (.idle : QueuePc E)) = 0 :=
    tally_eq_zero.mpr fun _ _ => by cases name <;> rfl
  have htotal (name : QueueSemaphore) : (BlockingQueue.new T E capacity).total name =
      ((BlockingQueue.new T E capacity).semaphores name).tokens := by
    unfold total
    rw [show (BlockingQueue.new T E capacity).pc = fun _ => .idle from rfl, hheld, Nat.add_zero]
  refine ⟨fun name => ?_, by rw [htotal]; rfl, by rw [htotal]; rfl, by rw [htotal]; rfl, nofun⟩
  cases name <;> exact Semaphore.sound_new nofun _

theorem inv {T E : Type} [Fintype T] [DecidableEq T] {capacity : Nat} {q : BlockingQueue T E}
    (h : (blockingQueue T E capacity).Reachable q) : q.Inv capacity :=
  h.invariant (inv_init T E capacity) fun _ _ _ _ hq hr => hq.step hr

/-- What the step does to the deque. -/
def act {T E : Type} (q : BlockingQueue T E) : BlockingQueueLabel T E → List (FifoLabel E)
  | .step t _ =>
    match q.pc t with
    | .pushBack value => [.push [value]]
    | .popFront _ => [.pop 1]
    | _ => []
  | _ => []

def fifo {T E : Type} (q : BlockingQueue T E) : BoundedFifo E := ⟨q.inserted, q.taken, q.queue⟩

theorem Inv.refines {T E : Type} [Fintype T] [DecidableEq T] {capacity : Nat}
    {q r : BlockingQueue T E} (hq : q.Inv capacity) {l : BlockingQueueLabel T E}
    (h : q.step l = some r) : (boundedFifo E capacity).exec q.fifo (q.act l) = some r.fifo := by
  cases l with
  | put t value | take t =>
    cases ht : q.pc t <;> simp only [BlockingQueue.step, ht, reduceCtorEq, Option.some.injEq] at h
    subst h
    rfl
  | wake t name =>
    obtain ⟨semaphore, -, rfl⟩ := Option.map_eq_some_iff.mp h
    rfl
  | step t woken =>
    simp only [BlockingQueue.step, BlockingQueue.threadStep] at h
    cases ht : q.pc t with
    | idle => simp [ht] at h
    | acquire site inWait =>
      cases inWait with
      | false =>
        simp only [ht, Option.some.injEq] at h
        subst h
        simp [act, ht, fifo, BlockingQueue.acquired, BlockingQueue.setSemaphore,
          BlockingQueue.goto]
      | true =>
        simp only [ht] at h
        obtain ⟨result, -, rfl⟩ := Option.map_eq_some_iff.mp h
        simp [act, ht, fifo, BlockingQueue.acquired, BlockingQueue.setSemaphore,
          BlockingQueue.goto]
    | pushBack value =>
      simp only [ht, Option.some.injEq] at h
      subst h
      -- the token of `free_space_` stands for the place
      have hheld := q.held_le t .freeSpace
      rw [ht] at hheld
      have hheld : 1 ≤ q.total .freeSpace := hheld
      have hfree := hq.free
      have hroom : q.queue.length + 1 ≤ capacity := by omega
      simp [act, ht, fifo, boundedFifo, BoundedFifo.step, hroom, BlockingQueue.goto]
    | front =>
      simp only [ht] at h
      obtain ⟨ans, -, rfl⟩ := Option.map_eq_some_iff.mp h
      simp [act, ht, fifo, BlockingQueue.goto]
    | popFront ans =>
      have hhead := hq.front t ans ht
      simp only [ht] at h
      cases hqueue : q.queue with
      | nil => simp [hqueue] at h
      | cons first rest =>
        simp only [hqueue, Option.some.injEq] at h
        subst h
        obtain rfl : first = ans := by simpa [hqueue] using hhead
        simp [act, ht, fifo, boundedFifo, BoundedFifo.step, hqueue, BlockingQueue.goto]
    | release site =>
      simp only [ht] at h
      obtain ⟨semaphore, -, rfl⟩ := Option.map_eq_some_iff.mp h
      simp [act, ht, fifo, BlockingQueue.setSemaphore, BlockingQueue.goto]

/-- The queue over semaphores is a bounded queue. -/
def fifoRefinement (T E : Type) [Fintype T] [DecidableEq T] (capacity : Nat) :
    Machine.Refinement (blockingQueue T E capacity) (boundedFifo E capacity) where
  f := fifo
  act := act
  init := rfl
  step _ _ _ hq hr := (inv hq).refines hr

/-- No call can go on, unless a sleeper wakes up for no reason. -/
def Quiescent {T E : Type} [DecidableEq T] (q : BlockingQueue T E) : Prop :=
  ∀ t woken, q.threadStep t woken = none

theorem Inv.nonempty {T E : Type} [Fintype T] {capacity : Nat} {q : BlockingQueue T E}
    (hq : q.Inv capacity) {t : T} (ht : (q.pc t).held .occupiedSpace = 1) : q.queue ≠ [] := by
  intro hnil
  have hheld := q.held_le t .occupiedSpace
  have hoccupied := hq.occupied
  rw [hnil, List.length_nil] at hoccupied
  omega

theorem Inv.quiescent_pc {T E : Type} [Fintype T] [DecidableEq T] {capacity : Nat}
    {q : BlockingQueue T E} (hq : q.Inv capacity) (hquiet : q.Quiescent) (t : T) :
    q.pc t = .idle ∨ ∃ site, q.pc t = .acquire site true ∧
      (q.semaphores site.semaphore).reacquire t = none := by
  have hnone := hquiet t
  unfold BlockingQueue.threadStep at hnone
  cases ht : q.pc t with
  | idle => exact .inl rfl
  | acquire site inWait =>
    cases inWait with
    | false => simp [ht] at hnone
    | true => exact .inr ⟨site, rfl, by simpa [ht] using hnone⟩
  | pushBack value => simp [ht] at hnone
  | front =>
    have hne := hq.nonempty (t := t) (by rw [ht]; rfl)
    simp [ht, hne] at hnone
  | popFront ans =>
    have hhead := hq.front t ans ht
    cases hqueue : q.queue with
    | nil => simp [hqueue] at hhead
    | cons first rest => simp [ht, hqueue] at hnone
  | release site =>
    obtain ⟨woken, semaphore, hrelease⟩ := (q.semaphores site.semaphore).exists_release
    have hnone := hnone woken
    simp [ht, hrelease] at hnone

/-- With everybody outside or asleep, nobody waits where there are tokens. -/
theorem Inv.quiescent_waits {T E : Type} [Fintype T] [DecidableEq T] {capacity : Nat}
    {q : BlockingQueue T E} (hq : q.Inv capacity) (hquiet : q.Quiescent) (name : QueueSemaphore)
    (htokens : 0 < (q.semaphores name).tokens) (t : T) : (q.pc t).waits name = false := by
  have hresume (u : T) (hu : (q.pc u).waits name = true) :
      (q.semaphores name).reacquire u = none := by
    rcases hq.quiescent_pc hquiet u with hidle | ⟨site, hsite, hnone⟩
    · rw [hidle] at hu
      cases hu
    · rw [hsite, QueuePc.waits_acquire, Bool.true_and, beq_iff_eq] at hu
      exact hu ▸ hnone
  simpa using (hq.sound name).settled hresume htokens t

theorem Inv.quiescent_site {T E : Type} [Fintype T] [DecidableEq T] {capacity : Nat}
    {q : BlockingQueue T E} (hq : q.Inv capacity) (hquiet : q.Quiescent) (t : T) :
    q.pc t = .idle ∨ q.pc t = .acquire .takeOccupied true ∨
      ∃ value, q.pc t = .acquire (.putFree value) true := by
  have hwriting : tally Finset.univ (QueuePc.held .writingRights) q.pc = 0 := by
    refine tally_eq_zero.mpr fun u _ => ?_
    rcases hq.quiescent_pc hquiet u with hidle | ⟨site, hsite, -⟩
    · rw [hidle]
      rfl
    · rw [hsite]
      cases site <;> rfl
  have htotal := hq.writing
  unfold total at htotal
  have hwaits := hq.quiescent_waits hquiet .writingRights (by omega) t
  rcases hq.quiescent_pc hquiet t with hidle | ⟨site, hsite, -⟩
  · exact .inl hidle
  · rw [hsite] at hwaits ⊢
    cases site with
    | putFree value => exact .inr (.inr ⟨value, rfl⟩)
    | takeOccupied => exact .inr (.inl rfl)
    | putWriting value | takeWriting => cases hwaits

/-- Whoever is left holds nothing. -/
theorem Inv.quiescent_total {T E : Type} [Fintype T] [DecidableEq T] {capacity : Nat}
    {q : BlockingQueue T E} (hq : q.Inv capacity) (hquiet : q.Quiescent) (name : QueueSemaphore) :
    q.total name = (q.semaphores name).tokens := by
  have hheld : tally Finset.univ (QueuePc.held name) q.pc = 0 := by
    refine tally_eq_zero.mpr fun u _ => ?_
    rcases hq.quiescent_site hquiet u with hu | hu | ⟨value, hu⟩
    all_goals
      rw [hu]
      cases name <;> rfl
  unfold total
  rw [hheld, Nat.add_zero]

/-- Inside `Put`. -/
def puts {T E : Type} (q : BlockingQueue T E) (t : T) : Bool :=
  match q.pc t with
  | .acquire (.putFree _) _ | .acquire (.putWriting _) _ | .pushBack _
  | .release .putWriting | .release .putOccupied => true
  | _ => false

/-- Inside `Take`. -/
def takes {T E : Type} (q : BlockingQueue T E) (t : T) : Bool :=
  match q.pc t with
  | .acquire .takeOccupied _ | .acquire .takeWriting _ | .front | .popFront _
  | .release (.takeWriting _) | .release (.takeFree _) => true
  | _ => false

/-- About to read or to remove the first element. -/
def reads {T E : Type} (q : BlockingQueue T E) (t : T) : Bool :=
  match q.pc t with
  | .front | .popFront _ => true
  | _ => false

structure Sound {T E : Type} [DecidableEq T] (capacity : Nat) (q : BlockingQueue T E) : Prop where
  length_le : q.queue.length ≤ capacity
  fifo : q.taken.IsPrefix q.inserted
  nonempty : ∀ t, q.reads t = true → q.queue ≠ []
  put : q.Quiescent → q.queue.length < capacity → ∀ t, q.puts t = false
  take : q.Quiescent → q.queue ≠ [] → ∀ t, q.takes t = false

end BlockingQueue

/-! What the calls of one thread have done, in order. -/

inductive BlockingQueueEvent (E : Type) where
  | put (value : E)
  | inserted (value : E)
  | putReturned
  | take
  | removed (ans : E)
  | takeReturned (ans : E)
  deriving DecidableEq, Repr

def BlockingQueueEvent.insertedValue {E : Type} : BlockingQueueEvent E → Option E
  | .inserted value => some value
  | _ => none

def BlockingQueueEvent.removedValue {E : Type} : BlockingQueueEvent E → Option E
  | .removed ans => some ans
  | _ => none

/-- A call that has returned. -/
inductive BlockingQueueCall (E : Type) where
  | put (value : E)
  | take (ans : E)
  deriving DecidableEq, Repr

def BlockingQueueCall.events {E : Type} : BlockingQueueCall E → List (BlockingQueueEvent E)
  | .put value => [.put value, .inserted value, .putReturned]
  | .take ans => [.take, .removed ans, .takeReturned ans]

/-- The events of the call that a thread is in. -/
def QueuePc.Begun {E : Type} : QueuePc E → List (BlockingQueueEvent E) → Prop
  | .idle, events => events = []
  | .acquire (.putFree value) _, events | .acquire (.putWriting value) _, events
  | .pushBack value, events => events = [.put value]
  | .release .putWriting, events | .release .putOccupied, events =>
    ∃ value, events = [.put value, .inserted value]
  | .acquire .takeOccupied _, events | .acquire .takeWriting _, events | .front, events
  | .popFront _, events => events = [.take]
  | .release (.takeWriting ans), events | .release (.takeFree ans), events =>
    events = [.take, .removed ans]

def eventsOf {T E : Type} [DecidableEq T] (t : T) (log : List (T × BlockingQueueEvent E)) :
    List (BlockingQueueEvent E) := (log.filter (·.1 = t)).map Prod.snd

namespace BlockingQueue

def callEvents {T E : Type} (q : BlockingQueue T E) :
    BlockingQueueLabel T E → List (T × BlockingQueueEvent E)
  | .put t value => [(t, .put value)]
  | .take t => [(t, .take)]
  | .step t _ =>
    match q.pc t with
    | .pushBack value => [(t, .inserted value)]
    | .popFront ans => [(t, .removed ans)]
    | .release .putOccupied => [(t, .putReturned)]
    | .release (.takeFree ans) => [(t, .takeReturned ans)]
    | _ => []
  | .wake _ _ => []

/-- Each thread has made whole calls, but for the one that it is in, and nobody else
has touched the deque. -/
structure Logged {T E : Type} [DecidableEq T] (q : BlockingQueue T E)
    (log : List (T × BlockingQueueEvent E)) : Prop where
  inserted : q.inserted = log.filterMap fun x => x.2.insertedValue
  taken : q.taken = log.filterMap fun x => x.2.removedValue
  calls : ∀ t, ∃ (calls : List (BlockingQueueCall E)) (begun : List (BlockingQueueEvent E)),
    eventsOf t log = calls.flatMap BlockingQueueCall.events ++ begun ∧ (q.pc t).Begun begun

/-- A step of `t` adds `e`, with which its call goes on or is complete. -/
theorem Logged.move {T E : Type} [DecidableEq T] {q r : BlockingQueue T E}
    {log : List (T × BlockingQueueEvent E)} (hq : q.Logged log) {t : T} {pc : QueuePc E}
    {e : List (BlockingQueueEvent E)} (hpc : r.pc = Function.update q.pc t pc)
    (hinserted : r.inserted = q.inserted ++ e.filterMap BlockingQueueEvent.insertedValue)
    (htaken : r.taken = q.taken ++ e.filterMap BlockingQueueEvent.removedValue)
    (hbegun : ∀ begun, (q.pc t).Begun begun → ∃ (calls : List (BlockingQueueCall E)) (rest : _),
      begun ++ e = calls.flatMap BlockingQueueCall.events ++ rest ∧ pc.Begun rest) :
    r.Logged (log ++ e.map fun x => (t, x)) := by
  have hof (u : T) : eventsOf u (log ++ e.map fun x => (t, x)) =
      eventsOf u log ++ if u = t then e else [] := by
    by_cases hu : u = t
    · subst hu
      simp [eventsOf, List.filter_map, Function.comp_def]
    · simp [eventsOf, List.filter_map, Function.comp_def, Ne.symm hu, hu]
  refine ⟨?_, ?_, fun u => ?_⟩
  · simp [hinserted, hq.inserted, List.filterMap_map]
  · simp [htaken, hq.taken, List.filterMap_map]
  · obtain ⟨calls, begun, hlog, hu⟩ := hq.calls u
    rw [hof, hlog, hpc]
    by_cases he : u = t
    · subst he
      obtain ⟨more, rest, hevents, hrest⟩ := hbegun begun hu
      refine ⟨calls ++ more, rest, ?_, by rwa [Function.update_self]⟩
      rw [if_pos rfl, List.append_assoc, hevents, List.flatMap_append, List.append_assoc]
    · exact ⟨calls, begun, by simp [he], by rwa [Function.update_of_ne he]⟩

/-- A step inside a call. -/
theorem Logged.goto {T E : Type} [DecidableEq T] {q r : BlockingQueue T E}
    {log : List (T × BlockingQueueEvent E)} (hq : q.Logged log) {t : T} {pc : QueuePc E}
    (hpc : r.pc = Function.update q.pc t pc) (hinserted : r.inserted = q.inserted)
    (htaken : r.taken = q.taken) (hbegun : ∀ begun, (q.pc t).Begun begun → pc.Begun begun) :
    r.Logged log := by
  have hr := hq.move (e := []) hpc (by simpa using hinserted) (by simpa using htaken)
    fun begun h => ⟨[], begun, by simp, hbegun begun h⟩
  simpa using hr

theorem begun_acquired {E : Type} (site : AcquireSite E) (inWait got : Bool)
    {begun : List (BlockingQueueEvent E)} (h : (QueuePc.acquire site inWait).Begun begun) :
    (if got then site.next else .acquire site true).Begun begun := by
  cases got <;> cases site <;> exact h

theorem Logged.threadStep {T E : Type} [DecidableEq T] {q r : BlockingQueue T E}
    {log : List (T × BlockingQueueEvent E)} (hq : q.Logged log) {t : T} {woken : Option T}
    (h : q.threadStep t woken = some r) : r.Logged (log ++ q.callEvents (.step t woken)) := by
  unfold BlockingQueue.threadStep at h
  cases ht : q.pc t with
  | idle => simp [ht] at h
  | acquire site inWait =>
    simp only [callEvents, ht, List.append_nil]
    have hacquired (result : Semaphore T × Bool) : (q.acquired t site result).Logged log :=
      hq.goto rfl rfl rfl fun begun hbegun => begun_acquired site inWait result.2 (ht ▸ hbegun)
    cases inWait with
    | false =>
      simp only [ht, Option.some.injEq] at h
      exact h ▸ hacquired _
    | true =>
      simp only [ht] at h
      obtain ⟨result, -, rfl⟩ := Option.map_eq_some_iff.mp h
      exact hacquired result
  | pushBack value =>
    simp only [ht, Option.some.injEq] at h
    subst h
    simp only [callEvents, ht]
    refine hq.move (e := [.inserted value]) rfl rfl (List.append_nil _).symm ?_
    rintro begun hbegun
    rw [ht] at hbegun
    exact ⟨[], [.put value, .inserted value], by rw [hbegun]; rfl, value, rfl⟩
  | front =>
    simp only [ht] at h
    obtain ⟨ans, -, rfl⟩ := Option.map_eq_some_iff.mp h
    simp only [callEvents, ht, List.append_nil]
    refine hq.goto rfl rfl rfl fun begun hbegun => ?_
    rw [ht] at hbegun
    exact hbegun
  | popFront ans =>
    simp only [ht] at h
    split at h
    · cases h
    · simp only [Option.some.injEq] at h
      subst h
      simp only [callEvents, ht]
      refine hq.move (e := [.removed ans]) rfl (List.append_nil _).symm rfl ?_
      rintro begun hbegun
      rw [ht] at hbegun
      exact ⟨[], [.take, .removed ans], by rw [hbegun]; rfl, rfl⟩
  | release site =>
    simp only [ht] at h
    obtain ⟨semaphore, -, rfl⟩ := Option.map_eq_some_iff.mp h
    cases site with
    | putWriting | takeWriting ans =>
      simp only [callEvents, ht, List.append_nil]
      refine hq.goto rfl rfl rfl fun begun hbegun => ?_
      rw [ht] at hbegun
      exact hbegun
    | putOccupied =>
      simp only [callEvents, ht]
      refine hq.move (e := [.putReturned]) rfl (List.append_nil _).symm
        (List.append_nil _).symm ?_
      rintro begun hbegun
      rw [ht] at hbegun
      obtain ⟨value, rfl⟩ := hbegun
      exact ⟨[.put value], [], rfl, rfl⟩
    | takeFree ans =>
      simp only [callEvents, ht]
      refine hq.move (e := [.takeReturned ans]) rfl (List.append_nil _).symm
        (List.append_nil _).symm ?_
      rintro begun hbegun
      rw [ht] at hbegun
      obtain rfl := hbegun
      exact ⟨[.take ans], [], rfl, rfl⟩

theorem Logged.step {T E : Type} [DecidableEq T] {q r : BlockingQueue T E}
    {log : List (T × BlockingQueueEvent E)} (hq : q.Logged log) {l : BlockingQueueLabel T E}
    (h : q.step l = some r) : r.Logged (log ++ q.callEvents l) := by
  cases l with
  | put t value =>
    cases ht : q.pc t <;> simp only [BlockingQueue.step, ht, reduceCtorEq, Option.some.injEq] at h
    subst h
    refine hq.move (e := [.put value]) rfl (List.append_nil _).symm
      (List.append_nil _).symm fun begun hbegun => ?_
    rw [ht] at hbegun
    exact ⟨[], [.put value], by rw [hbegun]; rfl, rfl⟩
  | take t =>
    cases ht : q.pc t <;> simp only [BlockingQueue.step, ht, reduceCtorEq, Option.some.injEq] at h
    subst h
    refine hq.move (e := [.take]) rfl (List.append_nil _).symm
      (List.append_nil _).symm fun begun hbegun => ?_
    rw [ht] at hbegun
    exact ⟨[], [.take], by rw [hbegun]; rfl, rfl⟩
  | step t woken => exact hq.threadStep h
  | wake t name =>
    obtain ⟨semaphore, -, rfl⟩ := Option.map_eq_some_iff.mp h
    rw [callEvents, List.append_nil]
    exact ⟨hq.inserted, hq.taken, hq.calls⟩

end BlockingQueue

/-- The queue with a log of its calls. -/
def blockingQueueCalls (T E : Type) [DecidableEq T] (capacity : Nat) :
    Machine (BlockingQueue T E × List (T × BlockingQueueEvent E)) (BlockingQueueLabel T E) :=
  (blockingQueue T E capacity).observe BlockingQueue.callEvents

theorem blockingQueueCalls_logged {T E : Type} [DecidableEq T] {capacity : Nat}
    {s : BlockingQueue T E × List (T × BlockingQueueEvent E)}
    (h : (blockingQueueCalls T E capacity).Reachable s) : s.1.Logged s.2 := by
  apply h.invariant (I := fun s => s.1.Logged s.2)
  · exact ⟨rfl, rfl, fun t => ⟨[], [], rfl, rfl⟩⟩
  · intro s l t _ hs ht
    obtain ⟨hstep, hlog⟩ := Machine.observe_step ht
    exact hlog ▸ hs.step hstep

theorem blockingQueue_sound {T E : Type} [Fintype T] [DecidableEq T] {capacity : Nat}
    {q : BlockingQueue T E} (h : (blockingQueue T E capacity).Reachable q) :
    q.Sound capacity ∧
      ∀ log, (blockingQueueCalls T E capacity).Reachable (q, log) → q.Logged log := by
  have hq := BlockingQueue.inv h
  have hfifo := (BlockingQueue.fifoRefinement T E capacity).reachable h
  refine ⟨⟨BoundedFifo.bounded hfifo, ⟨q.queue, (BoundedFifo.conserved hfifo).symm⟩,
    fun t ht => ?_, fun hquiet hroom t => ?_, fun hquiet hne t => ?_⟩,
    fun _ hlog => blockingQueueCalls_logged hlog⟩
  · apply hq.nonempty (t := t)
    unfold BlockingQueue.reads at ht
    cases hpc : q.pc t <;> simp_all [QueuePc.held]
  · have hfree := hq.free
    rw [hq.quiescent_total hquiet] at hfree
    have hwaits := hq.quiescent_waits hquiet .freeSpace (by omega) t
    rcases hq.quiescent_site hquiet t with ht | ht | ⟨value, ht⟩
    · simp [BlockingQueue.puts, ht]
    · simp [BlockingQueue.puts, ht]
    · rw [ht] at hwaits
      cases hwaits
  · have hoccupied := hq.occupied
    rw [hq.quiescent_total hquiet] at hoccupied
    have hlength := List.length_pos_iff.mpr hne
    have hwaits := hq.quiescent_waits hquiet .occupiedSpace (by omega) t
    rcases hq.quiescent_site hquiet t with ht | ht | ⟨value, ht⟩
    · simp [BlockingQueue.takes, ht]
    · rw [ht] at hwaits
      cases hwaits
    · simp [BlockingQueue.takes, ht]

/-- The only place is taken and a second `Put` sleeps. -/
theorem blockingQueue_sound_full : ∃ q : BlockingQueue (Fin 2) Nat,
    (blockingQueueCalls (Fin 2) Nat 1).Reachable
      (q, [(0, .put 7), (0, .inserted 7), (0, .putReturned), (1, .put 8)]) ∧
    q.Sound 1 ∧ q.queue = [7] ∧ q.puts 1 = true ∧
    (q.semaphores .freeSpace).emptyTokenSet.asleep = [1] := by
  let ls : List (BlockingQueueLabel (Fin 2) Nat) := [.put 0 7, .step 0 none, .step 0 none,
    .step 0 none, .step 0 none, .step 0 none, .put 1 8, .step 1 none]
  have h : (blockingQueue (Fin 2) Nat 1).Reachable _ := Machine.reachable_of_exec ls rfl
  have hlog : (blockingQueueCalls (Fin 2) Nat 1).Reachable _ := Machine.reachable_of_exec ls rfl
  exact ⟨_, hlog, (blockingQueue_sound h).1, rfl, rfl, rfl⟩

end ConcurrentProgramming.Sync
