import ConcurrentProgramming.Interleaving.Exclusion
import ConcurrentProgramming.Interleaving.Simulation
import ConcurrentProgramming.Fibers.FutexSections

/-!
`FutexLike` access by access: the exchanges and loads of its spinlock, the list of
awaiters, the cell, and `Schedule`. A fiber that parks is run by one worker up to
its switch, by that worker in `AwaitSuspend`, and by any worker once it is
scheduled, which may be before that `AwaitSuspend` has given the lock back.
-/

set_option autoImplicit false

namespace ConcurrentProgramming.Fibers
open Interleaving

/-- In `SpinLock::Lock`. -/
inductive Spin where
  | exchange
  | load
  deriving DecidableEq, Repr

/-- The exchange finds the lock free. -/
def Spin.acquires (spin : Spin) (free : Bool) : Bool :=
  match spin with
  | .exchange => free
  | .load => false

theorem Spin.free_of_acquires {spin : Spin} {free : Bool} (h : spin.acquires free = true) :
    free = true := by
  cases spin with
  | exchange => exact h
  | load => cases h

def Spin.next (free : Bool) : Spin → Spin
  | .exchange => .load
  | .load => if free then .exchange else .load

/-- A fiber in `ParkIfEqual`; `unlink` is the destructor of its awaiter. -/
inductive FiberPc where
  | outside
  | lock (spin : Spin)
  | setAwaiter
  | unlock
  | suspend
  | suspended
  | scheduled
  | relock (spin : Spin)
  | unlink
  | leave
  deriving DecidableEq, Repr

/-- The worker in `AwaitSuspend` of the awaiter of a fiber. -/
inductive SuspendPc where
  | idle
  | lock (spin : Spin)
  | pushBack
  | load
  | unlink
  | schedule
  | unlock
  deriving DecidableEq, Repr

/-- A thread in `WakeOne`, or in `WakeAll` where `all` is set. -/
inductive WakePc (F : Type) where
  | idle
  | lock (all : Bool) (spin : Spin)
  | isEmpty (all : Bool)
  | popFront (all : Bool)
  | unlink (all : Bool) (f : F)
  | schedule (all : Bool) (f : F)
  | unlock
  deriving DecidableEq, Repr

/-- `oldValue` is that of the awaiters. -/
structure SpinFutex (F C V : Type) where
  free : Bool
  cell : V
  queue : List F
  oldValue : F → V
  fibers : F → FiberPc
  suspends : F → SuspendPc
  wakers : C → WakePc F

inductive SpinFutexLabel (F C V : Type) where
  | parkIfEqual (f : F) (old : V)
  | fiber (f : F)
  | suspend (f : F)
  | wake (c : C) (all : Bool)
  | waker (c : C)
  | store (value : V)
  deriving DecidableEq, Repr

namespace SpinFutex

def setFiber {F C V : Type} [DecidableEq F] (s : SpinFutex F C V) (f : F) (pc : FiberPc) :
    SpinFutex F C V := { s with fibers := Function.update s.fibers f pc }

def setSuspend {F C V : Type} [DecidableEq F] (s : SpinFutex F C V) (f : F) (pc : SuspendPc) :
    SpinFutex F C V := { s with suspends := Function.update s.suspends f pc }

def setWaker {F C V : Type} [DecidableEq C] (s : SpinFutex F C V) (c : C) (pc : WakePc F) :
    SpinFutex F C V := { s with wakers := Function.update s.wakers c pc }

def fiberStep {F C V : Type} [DecidableEq F] (s : SpinFutex F C V) (f : F) :
    Option (SpinFutex F C V) :=
  match s.fibers f with
  | .outside | .suspended => none
  | .lock spin =>
    some (if spin.acquires s.free then { s.setFiber f .setAwaiter with free := false }
      else s.setFiber f (.lock (spin.next s.free)))
  | .setAwaiter => some (s.setFiber f .unlock)
  | .unlock => some { s.setFiber f .suspend with free := true }
  | .suspend => some ((s.setFiber f .suspended).setSuspend f (.lock .exchange))
  | .scheduled => some (s.setFiber f (.relock .exchange))
  | .relock spin =>
    some (if spin.acquires s.free then { s.setFiber f .unlink with free := false }
      else s.setFiber f (.relock (spin.next s.free)))
  | .unlink => some { s.setFiber f .leave with queue := s.queue.erase f }
  | .leave => some { s.setFiber f .outside with free := true }

def suspendStep {F C V : Type} [DecidableEq F] [DecidableEq V] (s : SpinFutex F C V) (f : F) :
    Option (SpinFutex F C V) :=
  match s.suspends f with
  | .idle => none
  | .lock spin =>
    some (if spin.acquires s.free then { s.setSuspend f .pushBack with free := false }
      else s.setSuspend f (.lock (spin.next s.free)))
  | .pushBack => some { s.setSuspend f .load with queue := s.queue ++ [f] }
  | .load => some (s.setSuspend f (if s.cell = s.oldValue f then .unlock else .unlink))
  | .unlink => some { s.setSuspend f .schedule with queue := s.queue.erase f }
  | .schedule => some ((s.setSuspend f .unlock).setFiber f .scheduled)
  | .unlock => some { s.setSuspend f .idle with free := true }

def wakerStep {F C V : Type} [DecidableEq F] [DecidableEq C] (s : SpinFutex F C V) (c : C) :
    Option (SpinFutex F C V) :=
  match s.wakers c with
  | .idle => none
  | .lock all spin =>
    some (if spin.acquires s.free then { s.setWaker c (.isEmpty all) with free := false }
      else s.setWaker c (.lock all (spin.next s.free)))
  | .isEmpty all => some (s.setWaker c (if s.queue.isEmpty then .unlock else .popFront all))
  | .popFront all =>
    match s.queue with
    | [] => none
    | f :: rest => some { s.setWaker c (.unlink all f) with queue := rest }
  | .unlink all f => some { s.setWaker c (.schedule all f) with queue := s.queue.erase f }
  | .schedule all f =>
    some ((s.setWaker c (if all then .isEmpty true else .unlock)).setFiber f .scheduled)
  | .unlock => some { s.setWaker c .idle with free := true }

def step {F C V : Type} [DecidableEq F] [DecidableEq C] [DecidableEq V] (s : SpinFutex F C V) :
    SpinFutexLabel F C V → Option (SpinFutex F C V)
  | .parkIfEqual f old =>
    match s.fibers f with
    | .outside => some { s.setFiber f (.lock .exchange) with
        oldValue := Function.update s.oldValue f old }
    | _ => none
  | .fiber f => s.fiberStep f
  | .suspend f => s.suspendStep f
  | .wake c all =>
    match s.wakers c with
    | .idle => some (s.setWaker c (.lock all .exchange))
    | _ => none
  | .waker c => s.wakerStep c
  | .store value => some { s with cell := value }

end SpinFutex

def spinFutex (F C V : Type) [DecidableEq F] [DecidableEq C] [DecidableEq V] (cell : V) :
    Machine (SpinFutex F C V) (SpinFutexLabel F C V) where
  init := ⟨true, cell, [], fun _ => cell, fun _ => .outside, fun _ => .idle, fun _ => .idle⟩
  step := SpinFutex.step

/-- Who takes the lock: a fiber in `ParkIfEqual`, a worker in `AwaitSuspend`, or a
thread in one of the wake-ups. -/
inductive Party (F C : Type) where
  | fiber (f : F)
  | suspend (f : F)
  | waker (c : C)

def FiberPc.inside : FiberPc → Bool
  | .setAwaiter | .unlock | .unlink | .leave => true
  | .outside | .lock _ | .suspend | .suspended | .scheduled | .relock _ => false

def SuspendPc.inside : SuspendPc → Bool
  | .pushBack | .load | .unlink | .schedule | .unlock => true
  | .idle | .lock _ => false

def WakePc.inside {F : Type} : WakePc F → Bool
  | .isEmpty _ | .popFront _ | .unlink _ _ | .schedule _ _ | .unlock => true
  | .idle | .lock _ _ => false

/-- How far the section has come that is going on: an awaiter is in the list and not
yet compared, a fiber is in the hands of `WakeOne`, or `WakeAll` is under way. -/
inductive Stage (F : Type) where
  | settled
  | pending (f : F)
  | popped (f : F)
  | clearing (hand : Option F)

namespace Stage

/-- The list as it is between the sections. -/
def visible {F : Type} (queue : List F) : Stage F → List F
  | .settled | .popped _ => queue
  | .pending _ => queue.dropLast
  | .clearing _ => []

def hand {F : Type} : Stage F → Option F
  | .popped f => some f
  | .clearing hand => hand
  | .settled | .pending _ => none

/-- A wake-up has been decided on that is still to be carried out. -/
def woken {F : Type} [DecidableEq F] (queue : List F) (f : F) : Stage F → Bool
  | .popped g => f = g
  | .clearing hand => hand = some f ∨ f ∈ queue
  | .settled | .pending _ => false

end Stage

/-- Where a fiber is, as far as the others can tell. -/
def phase (fiber : FiberPc) (suspend : SuspendPc) (woken : Bool) : Option ParkIfEqual :=
  match fiber with
  | .outside | .unlink | .leave => none
  | .lock _ | .setAwaiter => some .setAwaiter
  | .unlock | .suspend => some .awaitSuspend
  | .scheduled => some .scheduled
  | .relock _ => some .relock
  | .suspended =>
    match suspend with
    | .lock _ | .pushBack | .load => some .awaitSuspend
    | .unlink | .schedule => some .scheduled
    | .idle | .unlock => some (if woken then .scheduled else .parked)

inductive Standing where
  | running
  | suspended
  | resumed
  deriving DecidableEq, Repr

def FiberPc.standing : FiberPc → Standing
  | .outside | .lock _ | .setAwaiter | .unlock | .suspend | .unlink | .leave => .running
  | .suspended => .suspended
  | .scheduled | .relock _ => .resumed

/-- What a fiber and the worker in its `AwaitSuspend` can be up to at the same time, and
whether the awaiter is linked or has just been popped then. -/
def Placed (fiber : Standing) (suspend : SuspendPc) (linked popped : Prop) : Prop :=
  match fiber, suspend with
  | .suspended, .lock _ | .suspended, .pushBack | .suspended, .schedule => ¬ linked ∧ ¬ popped
  | .suspended, .load | .suspended, .unlink | .suspended, .unlock => linked ∧ ¬ popped
  | .suspended, .idle => linked ∧ ¬ popped ∨ ¬ linked ∧ popped
  | .running, .idle | .resumed, .idle | .resumed, .unlock => ¬ linked ∧ ¬ popped
  | _, _ => False

theorem Placed.running {suspend : SuspendPc} {linked popped : Prop}
    (h : Placed .running suspend linked popped) : suspend = .idle ∧ ¬ linked ∧ ¬ popped := by
  cases suspend with
  | idle => exact ⟨rfl, h⟩
  | lock spin | pushBack | load | unlink | schedule | unlock => exact h.elim

theorem Placed.resumed {suspend : SuspendPc} {linked popped : Prop}
    (h : Placed .resumed suspend linked popped) :
    (suspend = .idle ∨ suspend = .unlock) ∧ ¬ linked ∧ ¬ popped := by
  cases suspend with
  | idle => exact ⟨.inl rfl, h⟩
  | unlock => exact ⟨.inr rfl, h⟩
  | lock spin | pushBack | load | unlink | schedule => exact h.elim

theorem FiberPc.eq_suspended {pc : FiberPc} (h : pc.standing = .suspended) : pc = .suspended := by
  cases pc with
  | suspended => rfl
  | outside | lock spin | setAwaiter | unlock | suspend | unlink | leave | scheduled
  | relock spin => cases h

/-- Before the awaiter is linked, or after it has been unlinked again. -/
theorem Placed.unlinked {pc : FiberPc} {suspend : SuspendPc} {linked popped : Prop}
    (h : Placed pc.standing suspend linked popped)
    (hsuspend : (∃ spin, suspend = .lock spin) ∨ suspend = .pushBack ∨ suspend = .schedule) :
    pc = .suspended ∧ ¬ linked ∧ ¬ popped := by
  cases hpc : pc.standing with
  | running | resumed =>
    rw [hpc] at h
    obtain ⟨spin, rfl⟩ | rfl | rfl := hsuspend <;> exact h.elim
  | suspended =>
    refine ⟨FiberPc.eq_suspended hpc, ?_⟩
    rw [hpc] at h
    obtain ⟨spin, rfl⟩ | rfl | rfl := hsuspend <;> exact h

theorem Placed.linked {pc : FiberPc} {suspend : SuspendPc} {linked popped : Prop}
    (h : Placed pc.standing suspend linked popped)
    (hsuspend : suspend = .load ∨ suspend = .unlink) :
    pc = .suspended ∧ linked ∧ ¬ popped := by
  cases hpc : pc.standing with
  | running | resumed =>
    rw [hpc] at h
    obtain rfl | rfl := hsuspend <;> exact h.elim
  | suspended =>
    refine ⟨FiberPc.eq_suspended hpc, ?_⟩
    rw [hpc] at h
    obtain rfl | rfl := hsuspend <;> exact h

theorem Placed.of_linked {pc : FiberPc} {suspend : SuspendPc} {linked popped : Prop}
    (h : Placed pc.standing suspend linked popped) (hlinked : linked) :
    pc = .suspended ∧ ¬ popped ∧ (suspend.inside = true ∨ suspend = .idle) := by
  cases hpc : pc.standing with
  | running =>
    rw [hpc] at h
    exact (h.running.2.1 hlinked).elim
  | resumed =>
    rw [hpc] at h
    exact (h.resumed.2.1 hlinked).elim
  | suspended =>
    refine ⟨FiberPc.eq_suspended hpc, ?_⟩
    rw [hpc] at h
    cases suspend with
    | idle => exact ⟨h.elim And.right fun hn => (hn.1 hlinked).elim, .inr rfl⟩
    | load | unlink | unlock => exact ⟨h.2, .inl rfl⟩
    | lock spin | pushBack | schedule => exact (h.1 hlinked).elim

theorem Placed.of_popped {pc : FiberPc} {suspend : SuspendPc} {linked popped : Prop}
    (h : Placed pc.standing suspend linked popped) (hpopped : popped) :
    pc = .suspended ∧ suspend = .idle ∧ ¬ linked := by
  cases hpc : pc.standing with
  | running =>
    rw [hpc] at h
    exact (h.running.2.2 hpopped).elim
  | resumed =>
    rw [hpc] at h
    exact (h.resumed.2.2 hpopped).elim
  | suspended =>
    refine ⟨FiberPc.eq_suspended hpc, ?_⟩
    rw [hpc] at h
    cases suspend with
    | idle => exact ⟨rfl, h.elim (fun hn => (hn.2 hpopped).elim) And.left⟩
    | load | unlink | unlock | lock spin | pushBack | schedule => exact (h.2 hpopped).elim

/-- The worker leaves `AwaitSuspend`. -/
theorem Placed.idle {standing : Standing} {linked popped : Prop}
    (h : Placed standing .unlock linked popped) : Placed standing .idle linked popped := by
  cases standing with
  | running => exact h.elim
  | suspended => exact .inl h
  | resumed => exact h

def WakePc.call {F : Type} : WakePc F → WakeCall
  | .idle => .idle
  | .lock all _ => .called all
  | .isEmpty false | .popFront false => .called false
  | .isEmpty true | .popFront true | .unlink _ _ | .schedule _ _ | .unlock => .returning

namespace SpinFutex

def inside {F C V : Type} (s : SpinFutex F C V) : Party F C → Bool
  | .fiber f => (s.fibers f).inside
  | .suspend f => (s.suspends f).inside
  | .waker c => (s.wakers c).inside

def stage {F C V : Type} (s : SpinFutex F C V) : Option (Party F C) → Stage F
  | some (.suspend f) =>
    match s.suspends f with
    | .load | .unlink => .pending f
    | _ => .settled
  | some (.waker c) =>
    match s.wakers c with
    | .isEmpty true | .popFront true => .clearing none
    | .unlink true f | .schedule true f => .clearing (some f)
    | .unlink false f | .schedule false f => .popped f
    | _ => .settled
  | _ => .settled

/-- The sections that take effect by a step. -/
def acts {F C V : Type} (s : SpinFutex F C V) : SpinFutexLabel F C V → List (FutexLabel F C V)
  | .parkIfEqual f old => [.parkIfEqual f old]
  | .fiber f =>
    match s.fibers f with
    | .setAwaiter => [.setAwaiter f]
    | .scheduled => [.resume f]
    | .relock spin => if spin.acquires s.free then [.relock f] else []
    | _ => []
  | .suspend f =>
    match s.suspends f with
    | .load => [.awaitSuspend f]
    | _ => []
  | .wake c all => [.call c all]
  | .waker c =>
    match s.wakers c with
    | .lock true spin => if spin.acquires s.free then [.wake c] else []
    | .isEmpty false => if s.queue.isEmpty then [.wake c] else []
    | .popFront false => [.wake c]
    | .unlock => [.return_ c]
    | _ => []
  | .store value => [.store value]

/-- The list, the awaiters and the fibers, with a section at `x`. -/
structure Books {F C V : Type} [DecidableEq F] (s : SpinFutex F C V) (x : Stage F)
    (a : Futex F C V) : Prop where
  cell : a.cell = s.cell
  oldValue : a.oldValue = s.oldValue
  queue : a.waiter.queue = x.visible s.queue
  nodup : s.queue.Nodup
  pending : ∀ f, x = .pending f → ∃ earlier, s.queue = earlier ++ [f]
  placed : ∀ f, Placed (s.fibers f).standing (s.suspends f) (f ∈ s.queue) (x.hand = some f)
  parking : ∀ f, a.parking f = phase (s.fibers f) (s.suspends f) (x.woken s.queue f)

structure Simulates {F C V : Type} [DecidableEq F] (s : SpinFutex F C V) (holder : Option (Party F C))
    (a : Futex F C V) : Prop where
  exclusive : Exclusive s.free holder fun p => s.inside p = true
  books : s.Books (s.stage holder) a
  calls : ∀ c, a.calls c = (s.wakers c).call
  popFront : ∀ c all, s.wakers c = .popFront all → s.queue ≠ []

/-- One fiber, or the worker in its `AwaitSuspend`, moves on; for the others nothing
changes. -/
theorem Books.update {F C V : Type} [DecidableEq F] {s t : SpinFutex F C V} {x y : Stage F}
    {a b : Futex F C V} (hs : s.Books x a) (f : F) (hcell : b.cell = t.cell)
    (hold : b.oldValue = t.oldValue) (hqueue : b.waiter.queue = y.visible t.queue)
    (hnodup : t.queue.Nodup) (hpending : ∀ g, y = .pending g → ∃ earlier, t.queue = earlier ++ [g])
    (hplaced : Placed (t.fibers f).standing (t.suspends f) (f ∈ t.queue) (y.hand = some f))
    (hparking : b.parking f =
      phase (t.fibers f) (t.suspends f) (y.woken t.queue f))
    (hothers : ∀ g, g ≠ f → t.fibers g = s.fibers g ∧ t.suspends g = s.suspends g ∧
      (g ∈ t.queue ↔ g ∈ s.queue) ∧ (y.hand = some g ↔ x.hand = some g) ∧
      y.woken t.queue g = x.woken s.queue g ∧ b.parking g = a.parking g) :
    t.Books y b := by
  refine ⟨hcell, hold, hqueue, hnodup, hpending, fun g => ?_, fun g => ?_⟩
  · by_cases hg : g = f
    · exact hg ▸ hplaced
    · obtain ⟨hfiber, hsuspend, hlinked, hpopped, -, -⟩ := hothers g hg
      rw [hfiber, hsuspend, hlinked, hpopped]
      exact hs.placed g
  · by_cases hg : g = f
    · exact hg ▸ hparking
    · obtain ⟨hfiber, hsuspend, -, -, hwoken, hsame⟩ := hothers g hg
      rw [hfiber, hsuspend, hwoken, hsame, hs.parking g]

/-- A fiber moves on by itself. -/
theorem Books.setFiber {F C V : Type} [DecidableEq F] {s : SpinFutex F C V} {x : Stage F}
    {a : Futex F C V} (hs : s.Books x a) {f : F} {pc : FiberPc} {free : Bool}
    {parking : Option ParkIfEqual}
    (hplaced : Placed pc.standing (s.suspends f) (f ∈ s.queue) (x.hand = some f))
    (hparking : parking = phase pc (s.suspends f) (x.woken s.queue f)) :
    ({ s.setFiber f pc with free := free } : SpinFutex F C V).Books x (a.goto f parking) := by
  refine hs.update f hs.cell hs.oldValue hs.queue hs.nodup hs.pending ?_ ?_ fun g hg => ?_
  · simpa [SpinFutex.setFiber] using hplaced
  · simpa [SpinFutex.setFiber, Futex.goto] using hparking
  · simp [SpinFutex.setFiber, Futex.goto, hg]

/-- A fiber moves on and nobody can tell. -/
theorem Books.setFiber_hidden {F C V : Type} [DecidableEq F] {s : SpinFutex F C V} {x : Stage F}
    {a : Futex F C V} (hs : s.Books x a) {f : F} {pc : FiberPc} {free : Bool}
    (hplaced : Placed pc.standing (s.suspends f) (f ∈ s.queue) (x.hand = some f))
    (hphase : phase pc (s.suspends f) (x.woken s.queue f) =
      phase (s.fibers f) (s.suspends f) (x.woken s.queue f)) :
    ({ s.setFiber f pc with free := free } : SpinFutex F C V).Books x a := by
  have hsame : ({ s.setFiber f pc with free := free } : SpinFutex F C V).Books x
      (a.goto f (phase (s.fibers f) (s.suspends f) (x.woken s.queue f))) :=
    hs.setFiber hplaced hphase.symm
  have hgoto : a.goto f (phase (s.fibers f) (s.suspends f) (x.woken s.queue f)) = a := by
    rw [← hs.parking f]
    simp [Futex.goto]
  rwa [hgoto] at hsame

theorem inside_setFiber {F C V : Type} [DecidableEq F] (s : SpinFutex F C V) {f : F}
    {pc : FiberPc} {q : Party F C} (hq : q ≠ .fiber f) :
    ((s.setFiber f pc).inside q = true) ↔ (s.inside q = true) := by
  cases q with
  | fiber g =>
    have hg : g ≠ f := fun h => hq (h ▸ rfl)
    simp [inside, SpinFutex.setFiber, hg]
  | suspend g | waker c => rfl

theorem inside_setSuspend {F C V : Type} [DecidableEq F] (s : SpinFutex F C V) {f : F}
    {pc : SuspendPc} {q : Party F C} (hq : q ≠ .suspend f) :
    ((s.setSuspend f pc).inside q = true) ↔ (s.inside q = true) := by
  cases q with
  | suspend g =>
    have hg : g ≠ f := fun h => hq (h ▸ rfl)
    simp [inside, SpinFutex.setSuspend, hg]
  | fiber g | waker c => rfl

theorem inside_setWaker {F C V : Type} [DecidableEq C] (s : SpinFutex F C V) {c : C}
    {pc : WakePc F} {q : Party F C} (hq : q ≠ .waker c) :
    ((s.setWaker c pc).inside q = true) ↔ (s.inside q = true) := by
  cases q with
  | waker d =>
    have hd : d ≠ c := fun h => hq (h ▸ rfl)
    simp [inside, SpinFutex.setWaker, hd]
  | fiber g | suspend g => rfl

theorem Simulates.holder_eq_none {F C V : Type} [DecidableEq F] {s : SpinFutex F C V}
    {holder : Option (Party F C)} {a : Futex F C V} (hs : s.Simulates holder a)
    (hfree : s.free = true) : holder = none := by
  have hexclusive := hs.exclusive
  rw [hfree] at hexclusive
  exact hexclusive.eq_none

/-- A fiber takes the lock, at the start or at the end of `ParkIfEqual`. -/
theorem Simulates.fiber_acquires {F C V : Type} [DecidableEq F] {s : SpinFutex F C V}
    {holder : Option (Party F C)} {a b : Futex F C V} (hs : s.Simulates holder a) {f : F}
    {pc : FiberPc} (hfree : s.free = true) (hpc : pc.inside = true)
    (hbooks : ({ s.setFiber f pc with free := false } : SpinFutex F C V).Books .settled b)
    (hcalls : b.calls = a.calls) :
    ({ s.setFiber f pc with free := false } : SpinFutex F C V).Simulates (some (.fiber f)) b := by
  have hexclusive := hs.exclusive
  rw [hfree] at hexclusive
  refine ⟨hexclusive.acquire ?_ fun q hq => s.inside_setFiber hq, hbooks, ?_, hs.popFront⟩
  · simpa [inside, SpinFutex.setFiber] using hpc
  · rw [hcalls]
    exact hs.calls

theorem Simulates.fiber_stays {F C V : Type} [DecidableEq F] {s : SpinFutex F C V}
    {holder : Option (Party F C)} {a b : Futex F C V} (hs : s.Simulates holder a) {f : F}
    {pc : FiberPc} (hpc : pc.inside = (s.fibers f).inside)
    (hbooks : (s.setFiber f pc).Books (s.stage holder) b) (hcalls : b.calls = a.calls) :
    (s.setFiber f pc).Simulates holder b := by
  refine ⟨hs.exclusive.stay (p := .fiber f) ?_ fun q hq => s.inside_setFiber hq, hbooks, ?_,
    hs.popFront⟩
  · simp [inside, SpinFutex.setFiber, hpc]
  · rw [hcalls]
    exact hs.calls

theorem Simulates.fiber_releases {F C V : Type} [DecidableEq F] {s : SpinFutex F C V}
    {holder : Option (Party F C)} {a b : Futex F C V} (hs : s.Simulates holder a) {f : F}
    {pc : FiberPc} (hf : (s.fibers f).inside = true) (hpc : pc.inside = false)
    (hbooks : ({ s.setFiber f pc with free := true } : SpinFutex F C V).Books .settled b)
    (hcalls : b.calls = a.calls) :
    ({ s.setFiber f pc with free := true } : SpinFutex F C V).Simulates none b := by
  refine ⟨hs.exclusive.release (p := .fiber f) hf ?_ fun q hq => s.inside_setFiber hq, hbooks, ?_,
    hs.popFront⟩
  · simp [inside, SpinFutex.setFiber, hpc]
  · rw [hcalls]
    exact hs.calls

theorem Simulates.stage_eq {F C V : Type} [DecidableEq F] {s : SpinFutex F C V}
    {holder : Option (Party F C)} {a : Futex F C V} (hs : s.Simulates holder a) {p : Party F C}
    (hp : s.inside p = true) : holder = some p := hs.exclusive.holder_eq hp

theorem Simulates.holder_ne {F C V : Type} [DecidableEq F] {s : SpinFutex F C V}
    {holder : Option (Party F C)} {a : Futex F C V} (hs : s.Simulates holder a) {p : Party F C}
    (hp : s.inside p = false) : holder ≠ some p := by
  intro h
  have hinside := (hs.exclusive.inside_iff p).mpr h
  rw [hp] at hinside
  cases hinside

/-- The stage is a matter of who is inside. -/
theorem stage_setSuspend {F C V : Type} [DecidableEq F] (s : SpinFutex F C V) {f : F}
    {pc : SuspendPc} {holder : Option (Party F C)} (h : holder ≠ some (.suspend f)) :
    (s.setSuspend f pc).stage holder = s.stage holder := by
  rcases holder with _ | g | g | c
  · rfl
  · rfl
  · have hg : g ≠ f := fun heq => h (heq ▸ rfl)
    simp [stage, SpinFutex.setSuspend, hg]
  · rfl

theorem stage_setWaker {F C V : Type} [DecidableEq C] (s : SpinFutex F C V) {c : C}
    {pc : WakePc F} {holder : Option (Party F C)} (h : holder ≠ some (.waker c)) :
    (s.setWaker c pc).stage holder = s.stage holder := by
  rcases holder with _ | g | g | d
  · rfl
  · rfl
  · rfl
  · have hd : d ≠ c := fun heq => h (heq ▸ rfl)
    simp [stage, SpinFutex.setWaker, hd]

theorem Simulates.fiberStep {F C V : Type} [DecidableEq F] [DecidableEq C] [DecidableEq V]
    {cell : V} {s t : SpinFutex F C V} {holder : Option (Party F C)} {a : Futex F C V}
    (hs : s.Simulates holder a) {f : F} (h : s.fiberStep f = some t) :
    ∃ holder' b, (futex F C V cell).exec a (s.acts (.fiber f)) = some b ∧
      t.Simulates holder' b := by
  have hplaced := hs.books.placed f
  have hparking := hs.books.parking f
  unfold SpinFutex.fiberStep at h
  cases hf : s.fibers f with
  | outside | suspended => simp [hf] at h
  | lock spin =>
    simp only [hf, Option.some.injEq] at h
    have hacts : s.acts (.fiber f) = [] := by simp [acts, hf]
    rw [hacts]
    rw [hf] at hplaced
    split at h
    · rename_i hacquires
      have hfree := Spin.free_of_acquires hacquires
      obtain rfl := hs.holder_eq_none hfree
      subst h
      exact ⟨_, a, rfl, hs.fiber_acquires hfree rfl
        (hs.books.setFiber_hidden hplaced (by rw [hf]; rfl)) rfl⟩
    · subst h
      exact ⟨_, a, rfl, hs.fiber_stays (by rw [hf]; rfl)
        (hs.books.setFiber_hidden hplaced (by rw [hf]; rfl)) rfl⟩
  | setAwaiter =>
    simp only [hf, Option.some.injEq] at h
    subst h
    have hacts : s.acts (.fiber f) = [.setAwaiter f] := by simp [acts, hf]
    rw [hf] at hplaced hparking
    refine ⟨_, a.goto f (some .awaitSuspend), ?_, hs.fiber_stays (by rw [hf]; rfl)
      (hs.books.setFiber hplaced rfl) rfl⟩
    rw [hacts]
    simp [futex, Futex.step, hparking, phase]
  | unlock =>
    simp only [hf, Option.some.injEq] at h
    subst h
    have hacts : s.acts (.fiber f) = [] := by simp [acts, hf]
    obtain rfl := hs.stage_eq (p := .fiber f) (by simp [inside, hf, FiberPc.inside])
    rw [hf] at hplaced
    rw [hacts]
    exact ⟨_, a, rfl, hs.fiber_releases (by rw [hf]; rfl) rfl
      (hs.books.setFiber_hidden hplaced (by rw [hf]; rfl)) rfl⟩
  | suspend =>
    simp only [hf, Option.some.injEq] at h
    subst h
    have hacts : s.acts (.fiber f) = [] := by simp [acts, hf]
    rw [hf] at hplaced hparking
    obtain ⟨hidle, hunlinked⟩ := Placed.running hplaced
    rw [hacts]
    refine ⟨holder, a, rfl, ?_, ?_, hs.calls, hs.popFront⟩
    · refine hs.exclusive.congr fun q => ?_
      by_cases hq : q = .fiber f
      · simp [hq, inside, SpinFutex.setSuspend, SpinFutex.setFiber, hf, FiberPc.inside]
      by_cases hq' : q = .suspend f
      · simp [hq', inside, SpinFutex.setSuspend, SpinFutex.setFiber, hidle, SuspendPc.inside]
      · exact ((s.setFiber f .suspended).inside_setSuspend hq').trans (s.inside_setFiber hq)
    · have hout : s.inside (.suspend f) = false := by simp [inside, hidle, SuspendPc.inside]
      have hstage : ((s.setFiber f .suspended).setSuspend f (.lock .exchange)).stage holder =
          s.stage holder := (s.setFiber f .suspended).stage_setSuspend (hs.holder_ne hout)
      have hto : Placed FiberPc.suspended.standing (.lock .exchange) (f ∈ s.queue)
        ((s.stage holder).hand = some f) := hunlinked
      have hawaits : a.parking f = some .awaitSuspend := hparking
      rw [hstage]
      refine hs.books.update f hs.books.cell hs.books.oldValue hs.books.queue hs.books.nodup
        hs.books.pending ?_ ?_ fun g hg => ?_
      · simpa [SpinFutex.setSuspend, SpinFutex.setFiber] using hto
      · simpa [SpinFutex.setSuspend, SpinFutex.setFiber, phase] using hawaits
      · simp [SpinFutex.setSuspend, SpinFutex.setFiber, hg]
  | scheduled =>
    simp only [hf, Option.some.injEq] at h
    subst h
    have hacts : s.acts (.fiber f) = [.resume f] := by simp [acts, hf]
    rw [hf] at hplaced hparking
    refine ⟨_, a.goto f (some .relock), ?_, hs.fiber_stays (by rw [hf]; rfl)
      (hs.books.setFiber hplaced rfl) rfl⟩
    rw [hacts]
    simp [futex, Futex.step, hparking, phase]
  | relock spin =>
    simp only [hf, Option.some.injEq] at h
    rw [hf] at hplaced hparking
    split at h
    · rename_i hacquires
      have hfree := Spin.free_of_acquires hacquires
      obtain rfl := hs.holder_eq_none hfree
      subst h
      have hacts : s.acts (.fiber f) = [.relock f] := by simp [acts, hf, hacquires]
      have hout : s.suspends f ≠ .unlock := by
        intro hunlock
        have hinside : s.inside (.suspend f) = true := by
          simp [inside, hunlock, SuspendPc.inside]
        cases hs.stage_eq hinside
      obtain ⟨hsuspend, hunlinked⟩ := Placed.resumed hplaced
      have hidle := hsuspend.resolve_right hout
      refine ⟨_, a.goto f none, ?_, hs.fiber_acquires hfree rfl
        (hs.books.setFiber (by rw [hidle]; exact hunlinked) rfl) rfl⟩
      rw [hacts]
      simp [futex, Futex.step, hparking, phase]
    · rename_i hspins
      subst h
      have hacts : s.acts (.fiber f) = [] := by simp [acts, hf, hspins]
      rw [hacts]
      exact ⟨_, a, rfl, hs.fiber_stays (by rw [hf]; rfl)
        (hs.books.setFiber_hidden hplaced (by rw [hf]; rfl)) rfl⟩
  | unlink =>
    simp only [hf, Option.some.injEq] at h
    subst h
    have hacts : s.acts (.fiber f) = [] := by simp [acts, hf]
    rw [hf] at hplaced
    have hgone := (Placed.running hplaced).2.1
    rw [hacts, List.erase_of_not_mem hgone]
    exact ⟨_, a, rfl, hs.fiber_stays (by rw [hf]; rfl)
      (hs.books.setFiber_hidden hplaced (by rw [hf]; rfl)) rfl⟩
  | leave =>
    simp only [hf, Option.some.injEq] at h
    subst h
    have hacts : s.acts (.fiber f) = [] := by simp [acts, hf]
    obtain rfl := hs.stage_eq (p := .fiber f) (by simp [inside, hf, FiberPc.inside])
    rw [hf] at hplaced
    rw [hacts]
    exact ⟨_, a, rfl, hs.fiber_releases (by rw [hf]; rfl) rfl
      (hs.books.setFiber_hidden hplaced (by rw [hf]; rfl)) rfl⟩

theorem Books.setSuspend {F C V : Type} [DecidableEq F] {s : SpinFutex F C V} {x : Stage F}
    {a : Futex F C V} (hs : s.Books x a) {f : F} {pc : SuspendPc} {free : Bool}
    (hplaced : Placed (s.fibers f).standing pc (f ∈ s.queue) (x.hand = some f))
    (hphase : phase (s.fibers f) pc (x.woken s.queue f) =
      phase (s.fibers f) (s.suspends f) (x.woken s.queue f)) :
    ({ s.setSuspend f pc with free := free } : SpinFutex F C V).Books x a := by
  refine hs.update f hs.cell hs.oldValue hs.queue hs.nodup hs.pending ?_ ?_ fun g hg => ?_
  · simpa [SpinFutex.setSuspend] using hplaced
  · simpa [SpinFutex.setSuspend, hphase] using hs.parking f
  · simp [SpinFutex.setSuspend, hg]

theorem Simulates.suspend_lock {F C V : Type} [DecidableEq F] {s : SpinFutex F C V}
    {holder : Option (Party F C)} {a : Futex F C V} (hs : s.Simulates holder a) {f : F}
    {spin : Spin} (hf : s.suspends f = .lock spin) :
    ∃ holder', (if spin.acquires s.free then { s.setSuspend f .pushBack with free := false }
      else s.setSuspend f (.lock (spin.next s.free)) : SpinFutex F C V).Simulates holder' a := by
  have hplaced := hs.books.placed f
  rw [hf] at hplaced
  obtain ⟨hfiber, hunlinked⟩ := hplaced.unlinked (.inl ⟨spin, rfl⟩)
  have hout : s.inside (.suspend f) = false := by simp [inside, hf, SuspendPc.inside]
  split
  · rename_i hacquires
    have hfree := Spin.free_of_acquires hacquires
    obtain rfl := hs.holder_eq_none hfree
    have hexclusive := hs.exclusive
    rw [hfree] at hexclusive
    refine ⟨some (.suspend f), hexclusive.acquire ?_ fun q hq => s.inside_setSuspend hq, ?_,
      hs.calls, hs.popFront⟩
    · simp [inside, SpinFutex.setSuspend, SuspendPc.inside]
    · have hstage : (s.setSuspend f .pushBack).stage (some (.suspend f)) = s.stage none := by
        simp [stage, SpinFutex.setSuspend]
      have hbooks : ({ s.setSuspend f .pushBack with free := false } : SpinFutex F C V).Books
          (s.stage none) a :=
        hs.books.setSuspend (by rw [hfiber]; exact hunlinked) (by rw [hfiber, hf]; rfl)
      rwa [← hstage] at hbooks
  · refine ⟨holder, hs.exclusive.stay (p := .suspend f) ?_ fun q hq => s.inside_setSuspend hq, ?_,
      hs.calls, hs.popFront⟩
    · simp [inside, SpinFutex.setSuspend, SuspendPc.inside, hf]
    · rw [s.stage_setSuspend (hs.holder_ne hout)]
      exact hs.books.setSuspend (by rw [hfiber]; exact hunlinked) (by rw [hfiber, hf]; rfl)

/-- The worker that has the lock goes on in `AwaitSuspend`. -/
theorem Simulates.suspend_inside {F C V : Type} [DecidableEq F] {s : SpinFutex F C V}
    {a b : Futex F C V} {f : F} (hs : s.Simulates (some (.suspend f)) a) {pc : SuspendPc}
    (hpc : pc.inside = true) {q : List F} {y : Stage F}
    (hstage : (s.setSuspend f pc).stage (some (.suspend f)) = y)
    (hbooks : ({ s.setSuspend f pc with queue := q } : SpinFutex F C V).Books y b)
    (hcalls : b.calls = a.calls) :
    ({ s.setSuspend f pc with queue := q } : SpinFutex F C V).Simulates
      (some (.suspend f)) b := by
  have hinside : s.inside (.suspend f) = true := (hs.exclusive.inside_iff _).mpr rfl
  refine ⟨hs.exclusive.stay (p := .suspend f) ?_ fun r hr => s.inside_setSuspend hr, ?_, ?_, ?_⟩
  · rw [hinside]
    simp [inside, SpinFutex.setSuspend, hpc]
  · rw [← hstage] at hbooks
    exact hbooks
  · rw [hcalls]
    exact hs.calls
  · intro c all hc
    have hwaker : s.inside (.waker c) = true := by
      show (s.wakers c).inside = true
      rw [show s.wakers c = .popFront all from hc]
      rfl
    cases hs.exclusive.unique hwaker hinside

theorem Simulates.suspendStep {F C V : Type} [DecidableEq F] [DecidableEq C] [DecidableEq V]
    {cell : V} {s t : SpinFutex F C V} {holder : Option (Party F C)} {a : Futex F C V}
    (hs : s.Simulates holder a) {f : F} (h : s.suspendStep f = some t) :
    ∃ holder' b, (futex F C V cell).exec a (s.acts (.suspend f)) = some b ∧
      t.Simulates holder' b := by
  have hplaced := hs.books.placed f
  have hparking := hs.books.parking f
  have hcell := hs.books.cell
  have hold := hs.books.oldValue
  unfold SpinFutex.suspendStep at h
  cases hf : s.suspends f with
  | idle => simp [hf] at h
  | lock spin =>
    simp only [hf, Option.some.injEq] at h
    subst h
    have hacts : s.acts (.suspend f) = [] := by simp [acts, hf]
    obtain ⟨holder', hafter⟩ := hs.suspend_lock hf
    rw [hacts]
    exact ⟨holder', a, rfl, hafter⟩
  | pushBack =>
    simp only [hf, Option.some.injEq] at h
    subst h
    have hacts : s.acts (.suspend f) = [] := by simp [acts, hf]
    obtain rfl := hs.stage_eq (p := .suspend f) (by simp [inside, hf, SuspendPc.inside])
    have hstage : s.stage (some (.suspend f)) = .settled := by simp [stage, hf]
    have hbooks := hs.books
    rw [hstage] at hbooks hplaced hparking
    rw [hf] at hplaced hparking
    obtain ⟨hfiber, hunlinked, -⟩ := hplaced.unlinked (.inr (.inl rfl))
    rw [hacts]
    refine ⟨_, a, rfl, hs.suspend_inside rfl (y := .pending f)
      (by simp [stage, SpinFutex.setSuspend]) (hbooks.update f hcell hold ?_ ?_ ?_ ?_ ?_ ?_) rfl⟩
    · have hqueue := hbooks.queue
      simpa [Stage.visible] using hqueue
    · exact List.nodup_append.mpr ⟨hbooks.nodup, List.nodup_singleton f,
        fun g hg k hk hgk => hunlinked (List.mem_singleton.mp hk ▸ hgk ▸ hg)⟩
    · intro g hg
      obtain rfl := Stage.pending.inj hg
      exact ⟨s.queue, rfl⟩
    · simp [SpinFutex.setSuspend, hfiber, FiberPc.standing, Placed, Stage.hand]
    · rw [hfiber] at hparking
      simpa [SpinFutex.setSuspend, hfiber, phase] using hparking
    · intro g hg
      simp [SpinFutex.setSuspend, hg, Stage.hand, Stage.woken]
  | load =>
    simp only [hf, Option.some.injEq] at h
    subst h
    have hacts : s.acts (.suspend f) = [.awaitSuspend f] := by simp [acts, hf]
    obtain rfl := hs.stage_eq (p := .suspend f) (by simp [inside, hf, SuspendPc.inside])
    have hstage : s.stage (some (.suspend f)) = .pending f := by simp [stage, hf]
    have hbooks := hs.books
    rw [hstage] at hbooks hplaced hparking
    rw [hf] at hplaced hparking
    obtain ⟨hfiber, hlinked, -⟩ := hplaced.linked (.inl rfl)
    rw [hfiber] at hparking
    obtain ⟨earlier, hqueue⟩ := hbooks.pending f rfl
    have hvisible : a.waiter.queue = earlier := by
      rw [hbooks.queue, hqueue]
      simp [Stage.visible]
    have hfresh : f ∉ earlier := by
      have hnodup := hbooks.nodup
      rw [hqueue] at hnodup
      exact fun hmem => (List.nodup_append.mp hnodup).2.2 f hmem f (by simp) rfl
    by_cases hequal : s.cell = s.oldValue f
    · rw [if_pos hequal]
      refine ⟨_, { a.goto f (some .parked) with waiter := ⟨a.waiter.queue ++ [f]⟩ }, ?_,
        hs.suspend_inside rfl (q := s.queue) (y := .settled)
          (by simp [stage, SpinFutex.setSuspend]) ?_ rfl⟩
      · rw [hacts]
        simp [futex, Futex.step, hparking, phase, hcell, hold, hequal, FutexLike.awaitSuspend_equal]
      · refine hbooks.update f hcell hold ?_ hbooks.nodup (by simp) ?_ ?_ fun g hg => ?_
        · simp [Stage.visible, hvisible, hqueue]
        · simpa [SpinFutex.setSuspend, hequal, hfiber, FiberPc.standing, Placed, Stage.hand]
            using hlinked
        · simp [SpinFutex.setSuspend, hequal, hfiber, phase, Futex.goto, Stage.woken]
        · simp [SpinFutex.setSuspend, hg, Futex.goto, Stage.hand, Stage.woken]
    · rw [if_neg hequal]
      refine ⟨_, a.goto f (some .scheduled), ?_,
        hs.suspend_inside rfl (q := s.queue) (y := .pending f)
          (by simp [stage, SpinFutex.setSuspend]) ?_ rfl⟩
      · rw [hacts]
        have hfresh' : f ∉ a.waiter.queue := hvisible ▸ hfresh
        simp [futex, Futex.step, hparking, phase, hcell, hold, hequal,
          FutexLike.awaitSuspend_changed hfresh']
        rfl
      · refine hbooks.update f hcell hold hbooks.queue hbooks.nodup hbooks.pending ?_ ?_
          fun g hg => ?_
        · simpa [SpinFutex.setSuspend, hequal, hfiber, FiberPc.standing, Placed, Stage.hand]
            using hlinked
        · simp [SpinFutex.setSuspend, hfiber, phase, Futex.goto]
        · simp [SpinFutex.setSuspend, hg, Futex.goto]
  | unlink =>
    simp only [hf, Option.some.injEq] at h
    subst h
    have hacts : s.acts (.suspend f) = [] := by simp [acts, hf]
    obtain rfl := hs.stage_eq (p := .suspend f) (by simp [inside, hf, SuspendPc.inside])
    have hstage : s.stage (some (.suspend f)) = .pending f := by simp [stage, hf]
    have hbooks := hs.books
    rw [hstage] at hbooks hplaced hparking
    rw [hf] at hplaced hparking
    obtain ⟨hfiber, -, -⟩ := hplaced.linked (.inr rfl)
    rw [hfiber] at hparking
    obtain ⟨earlier, hqueue⟩ := hbooks.pending f rfl
    have hnodup := hbooks.nodup
    rw [hqueue] at hnodup
    have hfresh : f ∉ earlier :=
      fun hmem => (List.nodup_append.mp hnodup).2.2 f hmem f (by simp) rfl
    have herase : s.queue.erase f = earlier := by
      rw [hqueue, List.erase_append_right _ hfresh]
      simp
    rw [hacts, herase]
    refine ⟨_, a, rfl, hs.suspend_inside rfl (y := .settled)
      (by simp [stage, SpinFutex.setSuspend]) (hbooks.update f hcell hold ?_ ?_ ?_ ?_ ?_ ?_) rfl⟩
    · rw [hbooks.queue, hqueue]
      simp [Stage.visible]
    · exact (List.nodup_append.mp hnodup).1
    · simp
    · simpa [SpinFutex.setSuspend, hfiber, FiberPc.standing, Placed, Stage.hand] using hfresh
    · simpa [SpinFutex.setSuspend, hfiber, phase] using hparking
    · intro g hg
      simp [SpinFutex.setSuspend, hg, Stage.hand, Stage.woken, hqueue]
  | schedule =>
    simp only [hf, Option.some.injEq] at h
    subst h
    have hacts : s.acts (.suspend f) = [] := by simp [acts, hf]
    have hinside : s.inside (.suspend f) = true := by simp [inside, hf, SuspendPc.inside]
    obtain rfl := hs.stage_eq hinside
    have hstage : s.stage (some (.suspend f)) = .settled := by simp [stage, hf]
    have hbooks := hs.books
    rw [hstage] at hbooks hplaced hparking
    rw [hf] at hplaced hparking
    obtain ⟨hfiber, hunlinked, -⟩ := hplaced.unlinked (.inr (.inr rfl))
    rw [hfiber] at hparking
    rw [hacts]
    refine ⟨some (.suspend f), a, rfl, hs.exclusive.congr fun q => ?_, ?_, hs.calls, hs.popFront⟩
    · by_cases hq : q = .fiber f
      · simp [hq, inside, SpinFutex.setSuspend, SpinFutex.setFiber, hfiber, FiberPc.inside]
      rw [(s.setSuspend f .unlock).inside_setFiber hq]
      by_cases hq' : q = .suspend f
      · rw [hq', hinside]
        simp [inside, SpinFutex.setSuspend, SuspendPc.inside]
      · exact s.inside_setSuspend hq'
    · have hafter : ((s.setSuspend f .unlock).setFiber f .scheduled).stage
          (some (.suspend f) : Option (Party F C)) = .settled := by
        simp [stage, SpinFutex.setSuspend, SpinFutex.setFiber]
      rw [hafter]
      refine hbooks.update f hcell hold hbooks.queue hbooks.nodup hbooks.pending ?_ ?_ fun g hg => ?_
      · simpa [SpinFutex.setSuspend, SpinFutex.setFiber, FiberPc.standing, Placed, Stage.hand]
          using hunlinked
      · simpa [SpinFutex.setSuspend, SpinFutex.setFiber, phase] using hparking
      · simp [SpinFutex.setSuspend, SpinFutex.setFiber, hg]
  | unlock =>
    simp only [hf, Option.some.injEq] at h
    subst h
    have hacts : s.acts (.suspend f) = [] := by simp [acts, hf]
    have hinside : s.inside (.suspend f) = true := by simp [inside, hf, SuspendPc.inside]
    obtain rfl := hs.stage_eq hinside
    have hstage : s.stage (some (.suspend f)) = .settled := by simp [stage, hf]
    have hbooks := hs.books
    rw [hstage] at hbooks hplaced
    rw [hf] at hplaced
    rw [hacts]
    refine ⟨none, a, rfl, hs.exclusive.release hinside ?_ fun q hq => s.inside_setSuspend hq,
      hbooks.setSuspend hplaced.idle ?_, hs.calls, hs.popFront⟩
    · simp [inside, SpinFutex.setSuspend, SuspendPc.inside]
    · rw [hf]
      cases s.fibers f <;> rfl

/-- The section goes on and no fiber moves. -/
theorem Books.restage {F C V : Type} [DecidableEq F] {s t : SpinFutex F C V} {x y : Stage F}
    {a b : Futex F C V} (hs : s.Books x a) (hcell : b.cell = t.cell)
    (hold : b.oldValue = t.oldValue) (hvisible : b.waiter.queue = y.visible t.queue)
    (hqueue : t.queue = s.queue) (hfibers : t.fibers = s.fibers)
    (hsuspends : t.suspends = s.suspends) (hpending : ∀ g, y ≠ .pending g)
    (hhand : ∀ f, y.hand = some f ↔ x.hand = some f)
    (hparking : ∀ f, b.parking f = phase (s.fibers f) (s.suspends f) (y.woken s.queue f)) :
    t.Books y b := by
  refine ⟨hcell, hold, hvisible, hqueue ▸ hs.nodup, fun g hg => (hpending g hg).elim, fun f => ?_,
    fun f => ?_⟩
  · rw [hfibers, hsuspends, hqueue, hhand]
    exact hs.placed f
  · rw [hfibers, hsuspends, hqueue]
    exact hparking f

/-- An awaiter that is linked while no `AwaitSuspend` has the lock. -/
theorem Simulates.of_linked {F C V : Type} [DecidableEq F] {s : SpinFutex F C V}
    {holder : Option (Party F C)} {a : Futex F C V} (hs : s.Simulates holder a) {f : F}
    (hholder : holder ≠ some (.suspend f)) (hf : f ∈ s.queue) :
    s.fibers f = .suspended ∧ s.suspends f = .idle := by
  obtain ⟨hfiber, -, hsuspend⟩ := (hs.books.placed f).of_linked hf
  refine ⟨hfiber, hsuspend.resolve_left fun hinside => ?_⟩
  exact hholder (hs.stage_eq (p := .suspend f) hinside)

theorem Simulates.waker_inside {F C V : Type} [DecidableEq F] [DecidableEq C]
    {s : SpinFutex F C V} {a b : Futex F C V} {c : C} (hs : s.Simulates (some (.waker c)) a)
    {pc : WakePc F} (hpc : pc.inside = true) {q : List F} {y : Stage F}
    (hstage : (s.setWaker c pc).stage (some (.waker c)) = y)
    (hbooks : ({ s.setWaker c pc with queue := q } : SpinFutex F C V).Books y b)
    (hcall : b.calls c = pc.call) (hcalls : ∀ d, d ≠ c → b.calls d = a.calls d)
    (hpop : ∀ all, pc = .popFront all → q ≠ []) :
    ({ s.setWaker c pc with queue := q } : SpinFutex F C V).Simulates (some (.waker c)) b := by
  have hinside : s.inside (.waker c) = true := (hs.exclusive.inside_iff _).mpr rfl
  refine ⟨hs.exclusive.stay (p := .waker c) ?_ fun r hr => s.inside_setWaker hr, ?_, fun d => ?_,
    fun d all hd => ?_⟩
  · rw [hinside]
    simp [inside, SpinFutex.setWaker, hpc]
  · rw [← hstage] at hbooks
    exact hbooks
  · by_cases hd : d = c
    · simp [hd, SpinFutex.setWaker, hcall]
    · simp [hd, SpinFutex.setWaker, hcalls d hd, hs.calls d]
  · by_cases hdc : d = c
    · simp only [SpinFutex.setWaker, hdc, Function.update_self] at hd
      exact hpop all hd
    · simp only [SpinFutex.setWaker, Function.update_of_ne hdc] at hd
      have hother : s.inside (.waker d) = true := by simp [inside, hd, WakePc.inside]
      exact (hdc (Party.waker.inj (hs.exclusive.unique hother hinside))).elim

theorem Simulates.calls_setWaker {F C V : Type} [DecidableEq F] [DecidableEq C]
    {s : SpinFutex F C V} {holder : Option (Party F C)} {a b : Futex F C V}
    (hs : s.Simulates holder a) {c : C} {pc : WakePc F} (hcall : b.calls c = pc.call)
    (hcalls : ∀ d, d ≠ c → b.calls d = a.calls d) (d : C) :
    b.calls d = ((s.setWaker c pc).wakers d).call := by
  by_cases hd : d = c
  · simp [hd, SpinFutex.setWaker, hcall]
  · simp [hd, SpinFutex.setWaker, hcalls d hd, hs.calls d]

theorem Simulates.popFront_setWaker {F C V : Type} [DecidableEq F] [DecidableEq C]
    {s : SpinFutex F C V} {holder : Option (Party F C)} {a : Futex F C V}
    (hs : s.Simulates holder a) {c : C} {pc : WakePc F} (hpc : ∀ all, pc ≠ .popFront all) (d : C)
    (all : Bool) (hd : (s.setWaker c pc).wakers d = .popFront all) : s.queue ≠ [] := by
  by_cases hdc : d = c
  · simp only [SpinFutex.setWaker, hdc, Function.update_self] at hd
    exact (hpc all hd).elim
  · simp only [SpinFutex.setWaker, Function.update_of_ne hdc] at hd
    exact hs.popFront d all hd

/-- A thread in `WakeAll` takes the lock: all that are parked are as good as scheduled. -/
theorem Simulates.wakeAll {F C V : Type} [DecidableEq F] [DecidableEq C] [DecidableEq V]
    {cell : V} {s : SpinFutex F C V} {a : Futex F C V} (hs : s.Simulates none a) {c : C}
    (hfree : s.free = true) {spin : Spin} (hc : s.wakers c = .lock true spin) :
    ∃ b, (futex F C V cell).exec a [.wake c] = some b ∧
      ({ s.setWaker c (.isEmpty true) with free := false } : SpinFutex F C V).Simulates
        (some (.waker c)) b := by
  have hcall : a.calls c = .called true := by rw [hs.calls, hc]; rfl
  have hvisible : a.waiter.queue = s.queue := hs.books.queue
  refine ⟨{ (a.setCall c .returning).scheduled a.waiter.queue with waiter := ⟨[]⟩ }, ?_, ?_, ?_,
    hs.calls_setWaker (by simp [Futex.scheduled, Futex.setCall, WakePc.call])
      fun d hd => by simp [Futex.scheduled, Futex.setCall, hd], hs.popFront_setWaker (by simp)⟩
  · simp [futex, Futex.step, hcall, FutexLike.wakeAll]
  · have hexclusive := hs.exclusive
    rw [hfree] at hexclusive
    refine hexclusive.acquire ?_ fun q hq => s.inside_setWaker hq
    simp [inside, SpinFutex.setWaker, WakePc.inside]
  · have hstage : ({ s.setWaker c (.isEmpty true) with free := false } : SpinFutex F C V).stage
        (some (.waker c)) = .clearing none := by
      simp [stage, SpinFutex.setWaker]
    rw [hstage]
    refine hs.books.restage hs.books.cell hs.books.oldValue rfl rfl rfl rfl (by simp)
      (fun f => by simp [Stage.hand, stage]) fun f => ?_
    by_cases hf : f ∈ s.queue
    · obtain ⟨hfiber, hsuspend⟩ := hs.of_linked (by simp) hf
      simp [Futex.scheduled, hvisible, hf, hfiber, hsuspend, phase, Stage.woken]
    · have hparking := hs.books.parking f
      simp only [stage, Stage.woken] at hparking
      simp [Futex.scheduled, Futex.setCall, hvisible, hf, hparking, Stage.woken]

theorem Simulates.wake_lock {F C V : Type} [DecidableEq F] [DecidableEq C] [DecidableEq V]
    {cell : V} {s : SpinFutex F C V} {holder : Option (Party F C)} {a : Futex F C V}
    (hs : s.Simulates holder a) {c : C} {all : Bool} {spin : Spin}
    (hc : s.wakers c = .lock all spin) :
    ∃ holder' b, (futex F C V cell).exec a (s.acts (.waker c)) = some b ∧
      (if spin.acquires s.free then { s.setWaker c (.isEmpty all) with free := false }
        else s.setWaker c (.lock all (spin.next s.free)) : SpinFutex F C V).Simulates holder' b := by
  have hout : s.inside (.waker c) = false := by simp [inside, hc, WakePc.inside]
  split
  · rename_i hacquires
    have hfree := Spin.free_of_acquires hacquires
    obtain rfl := hs.holder_eq_none hfree
    cases all with
    | true =>
      have hacts : s.acts (.waker c) = [.wake c] := by simp [acts, hc, hacquires]
      rw [hacts]
      exact ⟨_, hs.wakeAll hfree hc⟩
    | false =>
      have hacts : s.acts (.waker c) = [] := by simp [acts, hc]
      have hexclusive := hs.exclusive
      rw [hfree] at hexclusive
      rw [hacts]
      refine ⟨some (.waker c), a, rfl, hexclusive.acquire ?_ fun q hq => s.inside_setWaker hq, ?_,
        hs.calls_setWaker (by rw [hs.calls, hc]; rfl) (fun _ _ => rfl),
        hs.popFront_setWaker (by simp)⟩
      · simp [inside, SpinFutex.setWaker, WakePc.inside]
      · have hstage : ({ s.setWaker c (.isEmpty false) with free := false } :
            SpinFutex F C V).stage (some (.waker c)) = s.stage none := by
          simp [stage, SpinFutex.setWaker]
        rw [hstage]
        exact hs.books.restage hs.books.cell hs.books.oldValue hs.books.queue rfl rfl rfl
          (by simp [stage]) (fun _ => .rfl) hs.books.parking
  · rename_i hspins
    have hacts : s.acts (.waker c) = [] := by cases all <;> simp [acts, hc, hspins]
    rw [hacts]
    refine ⟨holder, a, rfl, hs.exclusive.stay (p := .waker c) ?_ fun q hq => s.inside_setWaker hq,
      ?_, hs.calls_setWaker (by rw [hs.calls, hc]; rfl) (fun _ _ => rfl),
      hs.popFront_setWaker (by simp)⟩
    · rw [hout]
      simp [inside, SpinFutex.setWaker, WakePc.inside]
    · rw [s.stage_setWaker (hs.holder_ne hout)]
      exact ⟨hs.books.cell, hs.books.oldValue, hs.books.queue, hs.books.nodup, hs.books.pending,
        hs.books.placed, hs.books.parking⟩

/-- The thread that has the lock goes on and nobody can tell. -/
theorem Simulates.waker_hidden {F C V : Type} [DecidableEq F] [DecidableEq C]
    {s : SpinFutex F C V} {a : Futex F C V} {c : C} (hs : s.Simulates (some (.waker c)) a)
    {pc : WakePc F} (hpc : pc.inside = true) {x y : Stage F}
    (hfrom : s.stage (some (.waker c)) = x)
    (hto : (s.setWaker c pc).stage (some (.waker c)) = y)
    (hvisible : y.visible s.queue = x.visible s.queue) (hpending : ∀ g, y ≠ .pending g)
    (hhand : y.hand = x.hand) (hwoken : ∀ f, y.woken s.queue f = x.woken s.queue f)
    (hcall : (s.wakers c).call = pc.call) (hpop : ∀ all, pc = .popFront all → s.queue ≠ []) :
    (s.setWaker c pc).Simulates (some (.waker c)) a := by
  have hbooks := hs.books
  rw [hfrom] at hbooks
  refine hs.waker_inside hpc (q := s.queue) hto ?_ ((hs.calls c).trans hcall)
    (fun _ _ => rfl) hpop
  refine hbooks.restage hbooks.cell hbooks.oldValue ?_ rfl rfl rfl hpending (fun f => by rw [hhand])
    fun f => ?_
  · exact hbooks.queue.trans hvisible.symm
  · rw [hwoken f]
    exact hbooks.parking f

/-- `WakeOne` finds the list empty. -/
theorem Simulates.wake_none {F C V : Type} [DecidableEq F] [DecidableEq C] [DecidableEq V]
    {cell : V} {s : SpinFutex F C V} {a : Futex F C V} {c : C}
    (hs : s.Simulates (some (.waker c)) a) (hc : s.wakers c = .isEmpty false)
    (hqueue : s.queue = []) :
    ∃ b, (futex F C V cell).exec a [.wake c] = some b ∧
      (s.setWaker c .unlock).Simulates (some (.waker c)) b := by
  have hstage : s.stage (some (.waker c)) = .settled := by simp [stage, hc]
  have hbooks := hs.books
  rw [hstage] at hbooks
  have hcall : a.calls c = .called false := by rw [hs.calls, hc]; rfl
  have hvisible : a.waiter.queue = [] := hbooks.queue.trans hqueue
  refine ⟨{ (a.setCall c .returning).scheduled [] with waiter := a.waiter }, ?_,
    hs.waker_inside rfl (q := s.queue) (y := .settled) (by simp [stage, SpinFutex.setWaker])
      ?_ ?_ ?_ (by simp)⟩
  · simp [futex, Futex.step, hcall, FutexLike.wakeOne, hvisible]
  · refine hbooks.restage hbooks.cell hbooks.oldValue hbooks.queue rfl rfl rfl (by simp)
      (fun _ => .rfl) fun f => ?_
    simpa [Futex.scheduled, Futex.setCall] using hbooks.parking f
  · simp [Futex.scheduled, Futex.setCall, WakePc.call]
  · intro d hd
    simp [Futex.scheduled, Futex.setCall, hd]

theorem Simulates.wake_isEmpty {F C V : Type} [DecidableEq F] [DecidableEq C] [DecidableEq V]
    {cell : V} {s : SpinFutex F C V} {a : Futex F C V} {c : C} {all : Bool}
    (hs : s.Simulates (some (.waker c)) a) (hc : s.wakers c = .isEmpty all) :
    ∃ b, (futex F C V cell).exec a (s.acts (.waker c)) = some b ∧
      (s.setWaker c (if s.queue.isEmpty then .unlock else .popFront all)).Simulates
        (some (.waker c)) b := by
  by_cases hqueue : s.queue = []
  · have hempty : s.queue.isEmpty = true := by simp [hqueue]
    rw [if_pos hempty]
    cases all with
    | true =>
      have hacts : s.acts (.waker c) = [] := by simp [acts, hc]
      rw [hacts]
      exact ⟨a, rfl, hs.waker_hidden rfl (x := .clearing none) (y := .settled)
        (by simp [stage, hc]) (by simp [stage, SpinFutex.setWaker]) hqueue (by simp) rfl
        (fun f => by simp [Stage.woken, hqueue]) (by rw [hc]; rfl) (by simp)⟩
    | false =>
      have hacts : s.acts (.waker c) = [.wake c] := by simp [acts, hc, hqueue]
      rw [hacts]
      exact hs.wake_none hc hqueue
  · have hacts : s.acts (.waker c) = [] := by cases all <;> simp [acts, hc, hqueue]
    have hnonempty : ¬ s.queue.isEmpty = true := by simpa using hqueue
    rw [hacts, if_neg hnonempty]
    refine ⟨a, rfl, hs.waker_hidden rfl rfl (y := s.stage (some (.waker c))) ?_ rfl ?_ rfl
      (fun _ => rfl) ?_ fun _ _ => hqueue⟩
    · cases all <;> simp [stage, SpinFutex.setWaker, hc]
    · cases all <;> simp [stage, hc]
    · cases all <;> rw [hc] <;> rfl

/-- `PopFront` takes an awaiter whose fiber is suspended and whose `AwaitSuspend` is over. -/
theorem Simulates.wake_popFront {F C V : Type} [DecidableEq F] [DecidableEq C] [DecidableEq V]
    {cell : V} {s : SpinFutex F C V} {a : Futex F C V} {c : C} {all : Bool}
    (hs : s.Simulates (some (.waker c)) a) (hc : s.wakers c = .popFront all) {f : F}
    {rest : List F} (hqueue : s.queue = f :: rest) :
    ∃ b, (futex F C V cell).exec a (s.acts (.waker c)) = some b ∧
      ({ s.setWaker c (.unlink all f) with queue := rest } : SpinFutex F C V).Simulates
        (some (.waker c)) b := by
  have hbooks := hs.books
  have hnodup := hbooks.nodup
  rw [hqueue] at hnodup
  obtain ⟨hfresh, hrest⟩ := List.nodup_cons.mp hnodup
  obtain ⟨hfiber, hidle⟩ := hs.of_linked (by simp) (hqueue ▸ List.mem_cons_self)
  have hcall := hs.calls c
  rw [hc] at hcall
  cases all with
  | true =>
    have hstage : s.stage (some (.waker c)) = .clearing none := by simp [stage, hc]
    rw [hstage] at hbooks
    have hacts : s.acts (.waker c) = [] := by simp [acts, hc]
    rw [hacts]
    refine ⟨a, rfl, hs.waker_inside rfl (y := .clearing (some f))
      (by simp [stage, SpinFutex.setWaker]) ?_ hcall (fun _ _ => rfl) (by simp)⟩
    refine hbooks.update f hbooks.cell hbooks.oldValue hbooks.queue hrest (by simp) ?_ ?_
      fun g hg => ?_
    · simpa [SpinFutex.setWaker, hfiber, hidle, FiberPc.standing, Placed, Stage.hand] using hfresh
    · have hparking := hbooks.parking f
      simpa [SpinFutex.setWaker, hfiber, hidle, phase, Stage.woken, hqueue] using hparking
    · simp [SpinFutex.setWaker, Stage.hand, Stage.woken, hqueue, hg, Ne.symm hg]
  | false =>
    have hstage : s.stage (some (.waker c)) = .settled := by simp [stage, hc]
    rw [hstage] at hbooks
    have hacts : s.acts (.waker c) = [.wake c] := by simp [acts, hc]
    have hvisible : a.waiter.queue = f :: rest := hbooks.queue.trans hqueue
    rw [hacts]
    refine ⟨{ (a.setCall c .returning).scheduled [f] with waiter := ⟨rest⟩ }, ?_,
      hs.waker_inside rfl (y := .popped f) (by simp [stage, SpinFutex.setWaker]) ?_ ?_ ?_
        (by simp)⟩
    · simp [futex, Futex.step, hcall, WakePc.call, FutexLike.wakeOne, hvisible]
    · refine hbooks.update f hbooks.cell hbooks.oldValue rfl hrest (by simp) ?_ ?_ fun g hg => ?_
      · simpa [SpinFutex.setWaker, hfiber, hidle, FiberPc.standing, Placed, Stage.hand] using hfresh
      · simp [SpinFutex.setWaker, Futex.scheduled, hfiber, hidle, phase, Stage.woken]
      · simp [SpinFutex.setWaker, Futex.scheduled, Futex.setCall, Stage.hand, Stage.woken, hqueue,
          hg, Ne.symm hg]
    · simp [Futex.scheduled, Futex.setCall, WakePc.call]
    · intro d hd
      simp [Futex.scheduled, Futex.setCall, hd]

/-- What `WakeOne` or `WakeAll` has popped is scheduled, which it was due to be. -/
theorem Simulates.wake_schedule {F C V : Type} [DecidableEq F] [DecidableEq C]
    {s : SpinFutex F C V} {a : Futex F C V} {c : C} {all : Bool} {f : F}
    (hs : s.Simulates (some (.waker c)) a) (hc : s.wakers c = .schedule all f) :
    ((s.setWaker c (if all then .isEmpty true else .unlock)).setFiber f .scheduled).Simulates
      (some (.waker c)) a := by
  have hhand : (s.stage (some (.waker c))).hand = some f := by
    cases all <;> simp [stage, hc, Stage.hand]
  obtain ⟨hfiber, hidle, hgone⟩ := (hs.books.placed f).of_popped hhand
  have hinside : s.inside (.waker c) = true := (hs.exclusive.inside_iff _).mpr rfl
  have hparking := hs.books.parking f
  have hcall := hs.calls c
  rw [hc] at hcall
  refine ⟨hs.exclusive.congr fun q => ?_, ?_, ?_, ?_⟩
  · by_cases hq : q = .fiber f
    · simp [hq, inside, SpinFutex.setWaker, SpinFutex.setFiber, hfiber, FiberPc.inside]
    rw [inside_setFiber _ hq]
    by_cases hq' : q = .waker c
    · rw [hq', hinside]
      cases all <;> simp [inside, SpinFutex.setWaker, WakePc.inside]
    · exact s.inside_setWaker hq'
  · have hbooks := hs.books
    cases all with
    | true =>
      have hfrom : s.stage (some (.waker c)) = .clearing (some f) := by simp [stage, hc]
      have hto : ((s.setWaker c (.isEmpty true)).setFiber f .scheduled).stage
          (some (.waker c)) = .clearing none := by
        simp [stage, SpinFutex.setWaker, SpinFutex.setFiber]
      rw [hfrom] at hbooks hparking
      rw [if_pos rfl, hto]
      refine hbooks.update f hbooks.cell hbooks.oldValue hbooks.queue hbooks.nodup (by simp) ?_ ?_
        fun g hg => ?_
      · simpa [SpinFutex.setWaker, SpinFutex.setFiber, hidle, FiberPc.standing, Placed, Stage.hand]
          using hgone
      · simpa [SpinFutex.setWaker, SpinFutex.setFiber, hfiber, hidle, phase, Stage.woken]
          using hparking
      · simp [SpinFutex.setWaker, SpinFutex.setFiber, Stage.hand, Stage.woken, hg, Ne.symm hg]
    | false =>
      have hfrom : s.stage (some (.waker c)) = .popped f := by simp [stage, hc]
      have hto : ((s.setWaker c .unlock).setFiber f .scheduled).stage
          (some (.waker c)) = .settled := by
        simp [stage, SpinFutex.setWaker, SpinFutex.setFiber]
      rw [hfrom] at hbooks hparking
      rw [if_neg (by simp), hto]
      refine hbooks.update f hbooks.cell hbooks.oldValue hbooks.queue hbooks.nodup (by simp) ?_ ?_
        fun g hg => ?_
      · simpa [SpinFutex.setWaker, SpinFutex.setFiber, hidle, FiberPc.standing, Placed, Stage.hand]
          using hgone
      · simpa [SpinFutex.setWaker, SpinFutex.setFiber, hfiber, hidle, phase, Stage.woken]
          using hparking
      · simp [SpinFutex.setWaker, SpinFutex.setFiber, Stage.hand, Stage.woken, hg, Ne.symm hg]
  · exact hs.calls_setWaker (by rw [hcall]; cases all <;> rfl) fun _ _ => rfl
  · exact hs.popFront_setWaker (by cases all <;> simp)

theorem Simulates.wake_unlock {F C V : Type} [DecidableEq F] [DecidableEq C] [DecidableEq V]
    {cell : V} {s : SpinFutex F C V} {a : Futex F C V} {c : C}
    (hs : s.Simulates (some (.waker c)) a) (hc : s.wakers c = .unlock) :
    ∃ b, (futex F C V cell).exec a (s.acts (.waker c)) = some b ∧
      ({ s.setWaker c .idle with free := true } : SpinFutex F C V).Simulates none b := by
  have hacts : s.acts (.waker c) = [.return_ c] := by simp [acts, hc]
  have hcall : a.calls c = .returning := by rw [hs.calls, hc]; rfl
  have hinside : s.inside (.waker c) = true := (hs.exclusive.inside_iff _).mpr rfl
  have hstage : s.stage (some (.waker c)) = .settled := by simp [stage, hc]
  have hbooks := hs.books
  rw [hstage] at hbooks
  rw [hacts]
  refine ⟨a.setCall c .idle, ?_,
    hs.exclusive.release hinside ?_ fun q hq => s.inside_setWaker hq, ?_,
    hs.calls_setWaker (by simp [Futex.setCall, WakePc.call])
      fun d hd => by simp [Futex.setCall, hd],
    hs.popFront_setWaker (by simp)⟩
  · simp [futex, Futex.step, hcall]
  · simp [inside, SpinFutex.setWaker, WakePc.inside]
  · exact hbooks.restage hbooks.cell hbooks.oldValue hbooks.queue rfl rfl rfl (by simp [stage])
      (fun _ => .rfl) hbooks.parking

theorem Simulates.wakerStep {F C V : Type} [DecidableEq F] [DecidableEq C] [DecidableEq V]
    {cell : V} {s t : SpinFutex F C V} {holder : Option (Party F C)} {a : Futex F C V}
    (hs : s.Simulates holder a) {c : C} (h : s.wakerStep c = some t) :
    ∃ holder' b, (futex F C V cell).exec a (s.acts (.waker c)) = some b ∧
      t.Simulates holder' b := by
  have hholder (hinside : (s.wakers c).inside = true) : holder = some (.waker c) :=
    hs.stage_eq (p := .waker c) hinside
  unfold SpinFutex.wakerStep at h
  cases hc : s.wakers c with
  | idle => simp [hc] at h
  | lock all spin =>
    simp only [hc, Option.some.injEq] at h
    subst h
    exact hs.wake_lock hc
  | isEmpty all =>
    simp only [hc, Option.some.injEq] at h
    subst h
    obtain rfl := hholder (by rw [hc]; rfl)
    exact ⟨_, hs.wake_isEmpty hc⟩
  | popFront all =>
    simp only [hc] at h
    obtain rfl := hholder (by rw [hc]; rfl)
    cases hqueue : s.queue with
    | nil => exact (hs.popFront c all hc hqueue).elim
    | cons f rest =>
      simp only [hqueue, Option.some.injEq] at h
      subst h
      exact ⟨_, hs.wake_popFront hc hqueue⟩
  | unlink all f =>
    simp only [hc, Option.some.injEq] at h
    subst h
    obtain rfl := hholder (by rw [hc]; rfl)
    have hacts : s.acts (.waker c) = [] := by simp [acts, hc]
    have hhand : (s.stage (some (.waker c))).hand = some f := by
      cases all <;> simp [stage, hc, Stage.hand]
    obtain ⟨-, -, hgone⟩ := (hs.books.placed f).of_popped hhand
    rw [hacts, List.erase_of_not_mem hgone]
    refine ⟨_, a, rfl, hs.waker_hidden rfl rfl (y := s.stage (some (.waker c))) ?_ rfl ?_ rfl
      (fun _ => rfl) (by rw [hc]; rfl) (by simp)⟩
    · cases all <;> simp [stage, SpinFutex.setWaker, hc]
    · cases all <;> simp [stage, hc]
  | schedule all f =>
    simp only [hc, Option.some.injEq] at h
    subst h
    obtain rfl := hholder (by rw [hc]; rfl)
    have hacts : s.acts (.waker c) = [] := by simp [acts, hc]
    rw [hacts]
    exact ⟨_, a, rfl, hs.wake_schedule hc⟩
  | unlock =>
    simp only [hc, Option.some.injEq] at h
    subst h
    obtain rfl := hholder (by rw [hc]; rfl)
    exact ⟨_, hs.wake_unlock hc⟩

/-- A store, or a call, is a section of its own. -/
theorem Simulates.call {F C V : Type} [DecidableEq F] [DecidableEq C] [DecidableEq V]
    {cell : V} {s : SpinFutex F C V} {holder : Option (Party F C)} {a : Futex F C V}
    (hs : s.Simulates holder a) {c : C} {all : Bool} (hc : s.wakers c = .idle) :
    ∃ holder' b, (futex F C V cell).exec a [.call c all] = some b ∧
      (s.setWaker c (.lock all .exchange)).Simulates holder' b := by
  have hcall : a.calls c = .idle := by rw [hs.calls, hc]; rfl
  have hout : s.inside (.waker c) = false := by simp [inside, hc, WakePc.inside]
  refine ⟨holder, a.setCall c (.called all), ?_,
    hs.exclusive.stay (p := .waker c) ?_ fun q hq => s.inside_setWaker hq, ?_,
    hs.calls_setWaker (by simp [Futex.setCall, WakePc.call])
      fun d hd => by simp [Futex.setCall, hd], hs.popFront_setWaker (by simp)⟩
  · simp [futex, Futex.step, hcall]
  · rw [hout]
    simp [inside, SpinFutex.setWaker, WakePc.inside]
  · rw [s.stage_setWaker (hs.holder_ne hout)]
    exact ⟨hs.books.cell, hs.books.oldValue, hs.books.queue, hs.books.nodup, hs.books.pending,
      hs.books.placed, hs.books.parking⟩

theorem Simulates.parkIfEqual {F C V : Type} [DecidableEq F] [DecidableEq C] [DecidableEq V]
    {cell : V} {s : SpinFutex F C V} {holder : Option (Party F C)} {a : Futex F C V}
    (hs : s.Simulates holder a) {f : F} {old : V} (hf : s.fibers f = .outside) :
    ∃ holder' b, (futex F C V cell).exec a [.parkIfEqual f old] = some b ∧
      ({ s.setFiber f (.lock .exchange) with
        oldValue := Function.update s.oldValue f old } : SpinFutex F C V).Simulates holder' b := by
  have hplaced := hs.books.placed f
  have hparking := hs.books.parking f
  rw [hf] at hplaced hparking
  have hnone : a.parking f = none := hparking
  have hafter : (s.setFiber f (.lock .exchange)).Simulates holder
      (a.goto f (some .setAwaiter)) :=
    hs.fiber_stays (by rw [hf]; rfl) (hs.books.setFiber hplaced rfl) rfl
  refine ⟨holder, { a.goto f (some .setAwaiter) with
    oldValue := Function.update a.oldValue f old }, ?_, hafter.exclusive, ?_, hafter.calls,
    hafter.popFront⟩
  · simp [futex, Futex.step, hnone]
  · have hbooks := hafter.books
    exact ⟨hbooks.cell, by simp only [hs.books.oldValue], hbooks.queue, hbooks.nodup,
      hbooks.pending, hbooks.placed, hbooks.parking⟩

theorem Simulates.step {F C V : Type} [DecidableEq F] [DecidableEq C] [DecidableEq V]
    {cell : V} {s t : SpinFutex F C V} {holder : Option (Party F C)} {a : Futex F C V}
    (hs : s.Simulates holder a) {l : SpinFutexLabel F C V}
    (h : (spinFutex F C V cell).step s l = some t) :
    ∃ holder' b, (futex F C V cell).exec a (s.acts l) = some b ∧ t.Simulates holder' b := by
  cases l with
  | parkIfEqual f old =>
    simp only [spinFutex, SpinFutex.step] at h
    split at h
    · rename_i hf
      simp only [Option.some.injEq] at h
      subst h
      exact hs.parkIfEqual hf
    · cases h
  | fiber f => exact hs.fiberStep h
  | suspend f => exact hs.suspendStep h
  | wake c all =>
    simp only [spinFutex, SpinFutex.step] at h
    split at h
    · rename_i hc
      simp only [Option.some.injEq] at h
      subst h
      exact hs.call hc
    · cases h
  | waker c => exact hs.wakerStep h
  | store value =>
    simp only [spinFutex, SpinFutex.step, Option.some.injEq] at h
    subst h
    exact ⟨holder, { a with cell := value }, rfl, hs.exclusive,
      ⟨rfl, hs.books.oldValue, hs.books.queue, hs.books.nodup, hs.books.pending, hs.books.placed,
        hs.books.parking⟩, hs.calls, hs.popFront⟩

theorem simulates_init {F C V : Type} [DecidableEq F] [DecidableEq C] [DecidableEq V] (cell : V) :
    (spinFutex F C V cell).init.Simulates none (futex F C V cell).init := by
  refine ⟨.init fun p => ?_, ⟨rfl, rfl, rfl, List.nodup_nil, by simp [stage], fun f => ?_,
    fun _ => rfl⟩, fun _ => rfl, ?_⟩
  · cases p <;> simp [inside, spinFutex, FiberPc.inside, SuspendPc.inside, WakePc.inside]
  · simp [spinFutex, FiberPc.standing, Placed, stage, Stage.hand]
  · simp [spinFutex]

end SpinFutex

/-- The sections of a run are a run of the futex without a lock. -/
theorem spinFutex_simulates {F C V : Type} [DecidableEq F] [DecidableEq C] [DecidableEq V]
    {cell : V} {s : SpinFutex F C V} {log : List (FutexLabel F C V)}
    (h : ((spinFutex F C V cell).observe SpinFutex.acts).Reachable (s, log)) :
    ∃ a, (futex F C V cell).exec (futex F C V cell).init log = some a ∧
      ∃ holder, s.Simulates holder a := by
  refine (Machine.Reachable.simulates (R := fun s a => ∃ holder, s.Simulates holder a)
    ⟨none, SpinFutex.simulates_init cell⟩ ?_ h).2
  intro s a l t _ hs hl
  obtain ⟨holder, hs⟩ := hs
  obtain ⟨holder', b, hb, ht⟩ := hs.step hl
  exact ⟨b, hb, holder', ht⟩

/-- Whatever the interleaving of the accesses, the calls act as if each section were one
step: on the cell, on the wake-ups, and, whenever the lock is free, on the list and on
where each fiber is. -/
theorem spinFutex_atomic {F C V : Type} [DecidableEq F] [DecidableEq C] [DecidableEq V]
    {cell : V} {s : SpinFutex F C V} {log : List (FutexLabel F C V)}
    (h : ((spinFutex F C V cell).observe SpinFutex.acts).Reachable (s, log)) :
    ∃ a, (futex F C V cell).exec (futex F C V cell).init log = some a ∧ a.cell = s.cell ∧
      (∀ c, a.calls c = (s.wakers c).call) ∧
      (s.free = true → a.waiter.queue = s.queue ∧
        ∀ f, a.parking f = phase (s.fibers f) (s.suspends f) false) := by
  obtain ⟨a, hexec, holder, hs⟩ := spinFutex_simulates h
  refine ⟨a, hexec, hs.books.cell, hs.calls, fun hfree => ?_⟩
  obtain rfl := hs.holder_eq_none hfree
  exact ⟨hs.books.queue, hs.books.parking⟩

/-- A fiber parks on the value of the cell, a store follows, and a `WakeOne` spins for the
lock that `AwaitSuspend` has before it gets hold of the fiber. -/
theorem spinFutex_atomic_woken :
    ∃ s log, ((spinFutex Unit Unit Bool false).observe SpinFutex.acts).Reachable (s, log) ∧
      log = [.parkIfEqual () false, .setAwaiter (), .awaitSuspend (), .call () false, .store true,
        .wake ()] ∧ s.free = false ∧
      ∃ a, (futex Unit Unit Bool false).exec (futex Unit Unit Bool false).init log = some a ∧
        a.cell = s.cell ∧ (∀ c, a.calls c = (s.wakers c).call) ∧
        (s.free = true → a.waiter.queue = s.queue ∧
          ∀ f, a.parking f = phase (s.fibers f) (s.suspends f) false) := by
  obtain ⟨s, hreach, hs⟩ := Machine.exists_reachable_of_exec
    (M := (spinFutex Unit Unit Bool false).observe SpinFutex.acts)
    [.parkIfEqual () false, .fiber (), .fiber (), .fiber (), .fiber (), .suspend (), .suspend (),
      .suspend (), .wake () false, .waker (), .store true, .suspend (), .waker (), .waker (),
      .waker (), .waker ()]
    (p := fun s => decide (s.2 = [.parkIfEqual () false, .setAwaiter (), .awaitSuspend (),
      .call () false, .store true, .wake ()] ∧ s.1.free = false)) (by decide)
  obtain ⟨hlog, hfree⟩ := of_decide_eq_true hs
  exact ⟨s.1, s.2, hreach, hlog, hfree, spinFutex_atomic hreach⟩

/-- Whoever uses an awaiter finds its fiber suspended, on whose stack it is; the lock has
one holder, no awaiter is linked twice, and nothing is popped from an empty list. -/
theorem spinFutex_awaiters_alive {F C V : Type} [DecidableEq F] [DecidableEq C] [DecidableEq V]
    {cell : V} {s : SpinFutex F C V} (h : (spinFutex F C V cell).Reachable s) :
    (∀ p q, s.inside p = true → s.inside q = true → p = q) ∧
      s.queue.Nodup ∧ (∀ f ∈ s.queue, s.fibers f = .suspended) ∧
      (∀ f, s.suspends f ≠ .idle → s.suspends f ≠ .unlock → s.fibers f = .suspended) ∧
      (∀ c all f, s.wakers c = .unlink all f ∨ s.wakers c = .schedule all f →
        s.fibers f = .suspended ∧ s.suspends f = .idle) ∧
      ∀ c all, s.wakers c = .popFront all → s.queue ≠ [] := by
  obtain ⟨log, hlog⟩ := h.exists_observed SpinFutex.acts
  obtain ⟨a, -, holder, hs⟩ := spinFutex_simulates hlog
  refine ⟨fun p q => hs.exclusive.unique, hs.books.nodup,
    fun f hf => ((hs.books.placed f).of_linked hf).1, fun f hidle hunlock => ?_,
    fun c all f hc => ?_, hs.popFront⟩
  · have hplaced := hs.books.placed f
    cases hsuspend : s.suspends f with
    | idle => exact (hidle hsuspend).elim
    | unlock => exact (hunlock hsuspend).elim
    | lock spin => exact (hplaced.unlinked (.inl ⟨spin, hsuspend⟩)).1
    | pushBack => exact (hplaced.unlinked (.inr (.inl hsuspend))).1
    | schedule => exact (hplaced.unlinked (.inr (.inr hsuspend))).1
    | load => exact (hplaced.linked (.inl hsuspend)).1
    | unlink => exact (hplaced.linked (.inr hsuspend)).1
  · have hinside : s.inside (.waker c) = true := by
      obtain hc | hc := hc <;> simp [SpinFutex.inside, hc, WakePc.inside]
    obtain rfl := hs.stage_eq hinside
    have hhand : (s.stage (some (.waker c))).hand = some f := by
      obtain hc | hc := hc <;> cases all <;> simp [SpinFutex.stage, hc, Stage.hand]
    obtain ⟨hfiber, hidle, -⟩ := (hs.books.placed f).of_popped hhand
    exact ⟨hfiber, hidle⟩

/-- `WakeAll` holds the awaiter of a fiber. -/
theorem spinFutex_awaiters_alive_unlink :
    ∃ s, (spinFutex Unit Unit Bool false).Reachable s ∧ s.wakers () = .unlink true () ∧
      (s.fibers () = .suspended ∧ s.suspends () = .idle) := by
  obtain ⟨s, hreach, hs⟩ := (spinFutex Unit Unit Bool false).exists_reachable_of_exec
    [.parkIfEqual () false, .fiber (), .fiber (), .fiber (), .fiber (), .suspend (), .suspend (),
      .suspend (), .suspend (), .wake () true, .waker (), .waker (), .waker ()]
    (p := fun s => decide (s.wakers () = .unlink true ())) (by decide)
  have hc := of_decide_eq_true hs
  exact ⟨s, hreach, hc, (spinFutex_awaiters_alive hreach).2.2.2.2.1 () true () (.inl hc)⟩

theorem SpinFutex.acts_ne_store {F C V : Type} [DecidableEq F] {s : SpinFutex F C V}
    {l : SpinFutexLabel F C V} (hl : ∀ value, l ≠ .store value) :
    ∀ k ∈ s.acts l, ∀ value, k ≠ .store value := by
  intro k hk value hstore
  subst hstore
  cases l with
  | parkIfEqual f old | wake c all => simp [acts] at hk
  | store value' => exact hl value' rfl
  | fiber f | suspend f | waker c =>
    simp only [acts] at hk
    split at hk <;> (try split at hk) <;> simp at hk

/-- Let a `WakeAll` be waiting for the lock and nobody store from then on. Once it has
taken effect and the lock is free, every fiber that is suspended, its `AwaitSuspend`
being over, is in the list, and the cell still has the value it is parked on. -/
theorem spinFutex_loses_no_wakeup {F C V : Type} [DecidableEq F] [DecidableEq C] [DecidableEq V]
    {cell : V} {s t : SpinFutex F C V} {c : C} {spin : Spin} {ls : List (SpinFutexLabel F C V)}
    (hs : (spinFutex F C V cell).Reachable s) (hc : s.wakers c = .lock true spin)
    (hls : ∀ l ∈ ls, ∀ value, l ≠ .store value) (h : (spinFutex F C V cell).exec s ls = some t)
    (hover : ∀ spin, t.wakers c ≠ .lock true spin) (hfree : t.free = true) {f : F}
    (hf : t.fibers f = .suspended) (hsuspend : t.suspends f = .idle) :
    f ∈ t.queue ∧ t.oldValue f = t.cell := by
  have hstart : ∃ holder a, s.Simulates holder a ∧ a.Cleared c := by
    obtain ⟨log, hlog⟩ := hs.exists_observed SpinFutex.acts
    obtain ⟨a, ha, holder, hsim⟩ := spinFutex_simulates hlog
    have hlisted := Futex.listed_of_reachable (Machine.reachable_of_exec log ha)
    exact ⟨holder, a, hsim, hlisted, .inl (by rw [hsim.calls, hc]; rfl)⟩
  obtain ⟨holder, b, hsim, hlisted, hcleared⟩ := Machine.exec_invariant
    (I := fun s => ∃ holder a, s.Simulates holder a ∧ a.Cleared c)
    (fun s l t hl hI hstep => by
      obtain ⟨holder, a, hsim, ha⟩ := hI
      obtain ⟨holder', b, hb, hsim'⟩ := hsim.step hstep
      exact ⟨holder', b, hsim', ha.exec (SpinFutex.acts_ne_store hl) hb⟩) hls hstart h
  obtain rfl := hsim.holder_eq_none hfree
  have hplaced := hsim.books.placed f
  rw [hf, hsuspend] at hplaced
  have hmem : f ∈ t.queue := by
    obtain ⟨hlinked, -⟩ | ⟨-, hpopped⟩ := hplaced
    · exact hlinked
    · cases hpopped
  refine ⟨hmem, ?_⟩
  obtain hcall | hcurrent := hcleared
  · rw [hsim.calls] at hcall
    cases hwaker : t.wakers c with
    | lock all spin =>
      rw [hwaker] at hcall
      obtain rfl := WakeCall.called.inj hcall
      exact (hover spin hwaker).elim
    | isEmpty all | popFront all => cases all <;> rw [hwaker] at hcall <;> cases hcall
    | idle | unlink all g | schedule all g | unlock =>
      rw [hwaker] at hcall
      cases hcall
  · have hqueue : b.waiter.queue = t.queue := hsim.books.queue
    rw [← hsim.books.oldValue, ← hsim.books.cell]
    exact hcurrent f (hqueue ▸ hmem)

/-- One fiber is parked on the value that the cell has lost, another parks on the new one
while `WakeAll` is at work. -/
theorem spinFutex_loses_no_wakeup_parked :
    ∃ s t, (spinFutex Bool Unit Bool false).Reachable s ∧
      s.wakers () = .lock true .exchange ∧ s.queue = [false] ∧ s.oldValue false ≠ s.cell ∧
      (∃ ls, (spinFutex Bool Unit Bool false).exec s ls = some t) ∧
      t.fibers false = .scheduled ∧ (true ∈ t.queue ∧ t.oldValue true = t.cell) := by
  have hls : ∀ l ∈ [.parkIfEqual true true, .fiber true, .fiber true, .fiber true, .fiber true,
      .waker (), .waker (), .waker (), .waker (), .waker (), .waker (), .waker (), .suspend true,
      .suspend true, .suspend true, .suspend true],
      ∀ value, l ≠ SpinFutexLabel.store (F := Bool) (C := Unit) (V := Bool) value := by simp
  obtain ⟨s, hreach, hs⟩ := (spinFutex Bool Unit Bool false).exists_reachable_of_exec
    [.parkIfEqual false false, .fiber false, .fiber false, .fiber false, .fiber false,
      .suspend false, .suspend false, .suspend false, .suspend false, .store true, .wake () true]
    (p := fun s => decide (s.wakers () = .lock true .exchange ∧ s.queue = [false] ∧
      s.oldValue false ≠ s.cell) && ((spinFutex Bool Unit Bool false).exec s
        [.parkIfEqual true true, .fiber true, .fiber true, .fiber true, .fiber true,
        .waker (), .waker (), .waker (), .waker (), .waker (), .waker (), .waker (),
        .suspend true, .suspend true, .suspend true, .suspend true]).any
          fun t : SpinFutex Bool Unit Bool =>
          decide (t.wakers () = .idle ∧ t.free = true ∧ t.fibers true = .suspended ∧
            t.suspends true = .idle ∧ t.fibers false = .scheduled)) (by decide)
  obtain ⟨hbefore, hafter⟩ := (Bool.and_eq_true _ _).mp hs
  obtain ⟨hc, hqueue, hstale⟩ := of_decide_eq_true hbefore
  obtain ⟨t, hexec, ht⟩ := Machine.exists_exec _ hafter
  obtain ⟨hidle, hfree, hfiber, hsuspend, hwoken⟩ := of_decide_eq_true ht
  exact ⟨s, t, hreach, hc, hqueue, hstale, ⟨_, hexec⟩, hwoken,
    spinFutex_loses_no_wakeup hreach hc hls hexec (by simp [hidle]) hfree hfiber hsuspend⟩

end ConcurrentProgramming.Fibers
