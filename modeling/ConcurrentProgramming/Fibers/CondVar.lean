import ConcurrentProgramming.Fibers.Mutex
import Mathlib.Data.ENat.Lattice
import Mathlib.Data.Set.Card

/-!
The fiber condition variable over its own futex and the fiber mutex. Here the
futex is taken apart: taking `lock_`, the load of the cell, every pop and the
release are steps of their own, since `val_` changes outside the lock.
-/

set_option autoImplicit false

namespace ConcurrentProgramming.Fibers
open Interleaving

/-- Inside `bell_.ParkIfEqual`. From `compare` to `release` the worker holds
`lock_` on behalf of the fiber. -/
inductive ParkStep where
  | setAwaiter
  | awaitSuspend
  | compare
  | release (scheduled : Bool)
  | parked
  | relock
  deriving DecidableEq, Repr

inductive Notify where
  | one
  | all
  deriving DecidableEq, Repr

/-- `lock` and `unlock` are the calls at the mutex inside `Wait`; `ticket` counts
the `fetch_add`s before that of the call. -/
inductive CondPc where
  | outside
  | load
  | unlock (noticed : Nat)
  | park (noticed : Nat) (pc : ParkStep)
  | lock
  | fetchAdd (kind : Notify)
  | wake (kind : Notify) (ticket : Nat)
  | pop (kind : Notify) (ticket : Nat)
  | release (kind : Notify) (ticket : Nat)
  deriving DecidableEq, Repr

/-- `scheduled` counts for each fiber how often a wake-up or its own
`AwaitSuspend` has scheduled it; `woke` and `returned` list the notifications
that are through with the queue and that have returned. -/
structure CondVar (F : Type) where
  mutex : Mutex F
  val : Nat
  lock : Option F
  bell : FutexLike F
  pc : F → CondPc
  notifies : Nat
  scheduled : F → Nat
  woke : List (Notify × Nat)
  returned : List (Notify × Nat)

inductive CondLabel (F : Type) where
  | mutex (l : MutexLabel F)
  | wait (f : F)
  | notify (f : F) (kind : Notify)
  | step (f : F)
  deriving DecidableEq, Repr

def MutexLabel.fiber {F : Type} : MutexLabel F → F
  | .lock f | .unlock f | .step f => f

/-- What a fiber may do at the mutex: anything by itself, and inside `Wait` only
what `lock.unlock()` and `lock.lock()` do. -/
def CondPc.permits {F : Type} : CondPc → MutexLabel F → Bool
  | .outside, _ => true
  | .unlock _, .unlock _ | .unlock _, .step _ => true
  | .lock, .lock _ | .lock, .step _ => true
  | _, _ => false

/-- `Schedule` of a fiber that was parked. -/
def CondPc.schedule : CondPc → CondPc
  | .park noticed .parked => .park noticed .relock
  | pc => pc

namespace CondVar

def goto {F : Type} [DecidableEq F] (s : CondVar F) (f : F) (pc : CondPc) : CondVar F :=
  { s with pc := Function.update s.pc f pc }

/-- `Awake` of the awaiter that was popped. -/
def awake {F : Type} [DecidableEq F] (s : CondVar F) (bell : FutexLike F) (g : F) : CondVar F :=
  { s with
    bell := bell
    pc := Function.update s.pc g (s.pc g).schedule
    scheduled := Function.update s.scheduled g (s.scheduled g + 1) }

/-- A section of `lock_` begins. -/
def acquire {F : Type} [DecidableEq F] (s : CondVar F) (f : F) (pc : CondPc) :
    Option (CondVar F) :=
  match s.lock with
  | none => some { s.goto f pc with lock := some f }
  | some _ => none

/-- A section of `lock_` that touches nothing but the fiber's own awaiter. -/
def pass {F : Type} [DecidableEq F] (s : CondVar F) (f : F) (pc : CondPc) : Option (CondVar F) :=
  match s.lock with
  | none => some (s.goto f pc)
  | some _ => none

def parkStep {F : Type} [DecidableEq F] (s : CondVar F) (f : F) (noticed : Nat) :
    ParkStep → Option (CondVar F)
  | .setAwaiter => s.pass f (.park noticed .awaitSuspend)
  | .awaitSuspend =>
    (s.acquire f (.park noticed .compare)).map fun t =>
      { t with bell := ⟨s.bell.queue ++ [f]⟩ }
  | .compare =>
    some (if s.val = noticed then s.goto f (.park noticed (.release false))
      else { s.goto f (.park noticed (.release true)) with
        bell := ⟨s.bell.queue.erase f⟩
        scheduled := Function.update s.scheduled f (s.scheduled f + 1) })
  | .release scheduled =>
    some { s.goto f (.park noticed (if scheduled then .relock else .parked)) with lock := none }
  | .parked => none
  | .relock => s.pass f .lock

def popStep {F : Type} [DecidableEq F] (s : CondVar F) (f : F) (kind : Notify) (ticket : Nat) :
    CondVar F :=
  match s.bell.wakeOne with
  | (_, none) => { s.goto f (.release kind ticket) with woke := s.woke ++ [(kind, ticket)] }
  | (bell, some g) =>
    match kind with
    | .one => { (s.awake bell g).goto f (.release .one ticket) with
        woke := s.woke ++ [(.one, ticket)] }
    | .all => s.awake bell g

def fiberStep {F : Type} [DecidableEq F] (s : CondVar F) (f : F) : Option (CondVar F) :=
  match s.pc f with
  | .outside => none
  | .load => some (s.goto f (.unlock s.val))
  | .unlock noticed =>
    if s.mutex.pc f = .outside then some (s.goto f (.park noticed .setAwaiter)) else none
  | .park noticed pc => s.parkStep f noticed pc
  | .lock => if s.mutex.pc f = .critical then some (s.goto f .outside) else none
  | .fetchAdd kind =>
    some { s.goto f (.wake kind s.notifies) with
      val := (s.val + 1) % 2 ^ 64, notifies := s.notifies + 1 }
  | .wake kind ticket => s.acquire f (.pop kind ticket)
  | .pop kind ticket => some (s.popStep f kind ticket)
  | .release kind ticket =>
    some { s.goto f .outside with lock := none, returned := s.returned ++ [(kind, ticket)] }

def step {F : Type} [DecidableEq F] (s : CondVar F) : CondLabel F → Option (CondVar F)
  | .mutex l =>
    if (s.pc l.fiber).permits l then (s.mutex.step l).map fun mutex => { s with mutex := mutex }
    else none
  | .wait f =>
    if s.pc f = .outside ∧ s.mutex.pc f = .critical then some (s.goto f .load) else none
  | .notify f kind =>
    if s.pc f = .outside ∧ (s.mutex.pc f = .outside ∨ s.mutex.pc f = .critical) then
      some (s.goto f (.fetchAdd kind))
    else none
  | .step f => s.fiberStep f

end CondVar

def condVar (F : Type) [DecidableEq F] : Machine (CondVar F) (CondLabel F) where
  init := ⟨(mutex F).init, 0, none, ⟨[]⟩, fun _ => .outside, 0, fun _ => 0, [], []⟩
  step := CondVar.step

namespace CondPc

def noticed : CondPc → Option Nat
  | .unlock noticed | .park noticed _ => some noticed
  | _ => none

def ticket : CondPc → Option Nat
  | .wake _ ticket | .pop _ ticket | .release _ ticket => some ticket
  | _ => none

/-- In the queue of the futex. -/
def queued : CondPc → Bool
  | .park _ .compare | .park _ (.release false) | .park _ .parked => true
  | _ => false

/-- Inside a section of `lock_`. -/
def locked : CondPc → Bool
  | .park _ .compare | .park _ (.release _) | .pop _ _ | .release _ _ => true
  | _ => false

/-- The value is read and not yet compared. -/
def early : CondPc → Bool
  | .unlock _ | .park _ .setAwaiter | .park _ .awaitSuspend | .park _ .compare => true
  | _ => false

end CondPc

namespace CondVar

structure Inv {F : Type} (s : CondVar F) : Prop where
  val : s.val = s.notifies % 2 ^ 64
  noticed : ∀ f v, (s.pc f).noticed = some v → v ≤ s.notifies
  ticket : ∀ f c, (s.pc f).ticket = some c → c < s.notifies
  woke : ∀ x ∈ s.woke, x.2 < s.notifies
  returned : ∀ x ∈ s.returned, x ∈ s.woke
  released : ∀ f kind c, s.pc f = .release kind c → (kind, c) ∈ s.woke
  queued : ∀ f, f ∈ s.bell.queue ↔ (s.pc f).queued = true
  nodup : s.bell.queue.Nodup
  locked : ∀ f, (s.pc f).locked = true → s.lock = some f
  last : ∀ f v, s.pc f = .park v .compare → ∃ front, s.bell.queue = front ++ [f]

/-- What the new place of a fiber has to agree with. -/
structure Fits {F : Type} (s : CondVar F) (f : F) (pc : CondPc) (lock : Option F) : Prop where
  noticed : ∀ v, pc.noticed = some v → v ≤ s.notifies
  ticket : ∀ c, pc.ticket = some c → c < s.notifies
  released : ∀ kind c, pc = .release kind c → (kind, c) ∈ s.woke
  locked : pc.locked = true → lock = some f
  others : ∀ g, g ≠ f → s.lock = some g → lock = some g

theorem Inv.move {F : Type} [DecidableEq F] {s : CondVar F} (hs : s.Inv) {f : F} {pc : CondPc}
    {lock : Option F} {bell : FutexLike F} {scheduled : F → Nat} (hfits : s.Fits f pc lock)
    (hqueued : ∀ g, g ∈ bell.queue ↔ (Function.update s.pc f pc g).queued = true)
    (hnodup : bell.queue.Nodup)
    (hlast : ∀ g v, Function.update s.pc f pc g = .park v .compare →
      ∃ front, bell.queue = front ++ [g]) :
    ({ s.goto f pc with lock := lock, bell := bell, scheduled := scheduled }).Inv := by
  constructor
  · exact hs.val
  · intro g v hg
    by_cases h : g = f
    · subst h
      exact hfits.noticed v (by simpa [goto] using hg)
    · exact hs.noticed g v (by simpa [goto, h] using hg)
  · intro g c hg
    by_cases h : g = f
    · subst h
      exact hfits.ticket c (by simpa [goto] using hg)
    · exact hs.ticket g c (by simpa [goto, h] using hg)
  · exact hs.woke
  · exact hs.returned
  · intro g kind c hg
    by_cases h : g = f
    · subst h
      exact hfits.released kind c (by simpa [goto] using hg)
    · exact hs.released g kind c (by simpa [goto, h] using hg)
  · exact hqueued
  · exact hnodup
  · intro g hg
    by_cases h : g = f
    · subst h
      exact hfits.locked (by simpa [goto] using hg)
    · exact hfits.others g h (hs.locked g (by simpa [goto, h] using hg))
  · exact hlast

/-- A step of one fiber away from the queue. -/
theorem Inv.stay {F : Type} [DecidableEq F] {s : CondVar F} (hs : s.Inv) {f : F} {pc : CondPc}
    {lock : Option F} (hfits : s.Fits f pc lock) (hqueued : pc.queued = (s.pc f).queued)
    (hcompare : ∀ v, pc ≠ .park v .compare) : ({ s.goto f pc with lock := lock }).Inv := by
  refine hs.move hfits (fun g => ?_) hs.nodup fun g v hg => ?_
  · by_cases h : g = f
    · subst h
      simp [goto, hqueued, hs.queued]
    · simp [goto, h, hs.queued]
  · by_cases h : g = f
    · subst h
      exact (hcompare v (by simpa using hg)).elim
    · exact hs.last g v (by simpa [h] using hg)

/-- Nobody else is inside a section while `f` is. -/
theorem Inv.alone {F : Type} {s : CondVar F} (hs : s.Inv) {f g : F}
    (hf : (s.pc f).locked = true) (hg : (s.pc g).locked = true) : g = f := by
  have hf := hs.locked f hf
  have hg := hs.locked g hg
  simpa [hf, eq_comm] using hg

/-- The front of the queue is parked whenever a wake-up looks at it. -/
theorem Inv.front {F : Type} {s : CondVar F} (hs : s.Inv) {f g : F} {rest : List F}
    {kind : Notify} {c : Nat} (hf : s.pc f = .pop kind c) (hq : s.bell.queue = g :: rest) :
    ∃ v, s.pc g = .park v .parked := by
  have hqueued : (s.pc g).queued = true := (hs.queued g).mp (by simp [hq])
  have hunlocked : (s.pc g).locked = false := by
    by_contra h
    have := hs.alone (f := f) (g := g) (by simp [hf, CondPc.locked]) (by simpa using h)
    simp [this, hf, CondPc.queued] at hqueued
  cases hg : s.pc g with
  | park v pc => cases pc <;> simp_all [CondPc.queued, CondPc.locked]
  | _ => simp [hg, CondPc.queued] at hqueued

theorem Inv.awake {F : Type} [DecidableEq F] {s : CondVar F} (hs : s.Inv) {f g : F}
    {rest : List F} {kind : Notify} {c : Nat} (hf : s.pc f = .pop kind c)
    (hq : s.bell.queue = g :: rest) :
    (s.awake ⟨rest⟩ g).Inv ∧ (s.awake ⟨rest⟩ g).pc f = .pop kind c := by
  obtain ⟨v, hg⟩ := hs.front hf hq
  have hne : f ≠ g := by
    rintro rfl
    simp [hf] at hg
  have hgr := List.nodup_cons.mp (hq ▸ hs.nodup)
  refine ⟨hs.move ⟨?_, ?_, ?_, ?_, fun _ _ h => h⟩ (fun h => ?_) hgr.2 (fun h w hh => ?_), ?_⟩
  · intro w hw
    exact hs.noticed g w (by simpa [hg, CondPc.schedule, CondPc.noticed] using hw)
  · simp [hg, CondPc.schedule, CondPc.ticket]
  · simp [hg, CondPc.schedule]
  · simp [hg, CondPc.schedule, CondPc.locked]
  · by_cases h' : h = g
    · subst h'
      simp [hgr.1, hg, CondPc.schedule, CondPc.queued]
    · rw [Function.update_of_ne h', ← hs.queued, hq, List.mem_cons, or_iff_right h']
  · -- the lock is taken by `f`, so nobody is comparing
    by_cases h' : h = g
    · subst h'
      simp [hg, CondPc.schedule] at hh
    · rw [Function.update_of_ne h'] at hh
      have := hs.alone (f := f) (g := h) (by simp [hf, CondPc.locked]) (by simp [hh, CondPc.locked])
      simp [this, hf] at hh
  · simp [CondVar.awake, hne, hf]

/-- A wake-up is through with the queue. -/
theorem Inv.popped {F : Type} [DecidableEq F] {s : CondVar F} (hs : s.Inv) {f : F}
    {kind : Notify} {c : Nat} (hf : s.pc f = .pop kind c) :
    ({ s.goto f (.release kind c) with woke := s.woke ++ [(kind, c)] }).Inv := by
  have hc : c < s.notifies := hs.ticket f c (by simp [hf, CondPc.ticket])
  have hlogged : ({ s with woke := s.woke ++ [(kind, c)] }).Inv := by
    refine { hs with
      woke := fun x hx => ?_
      returned := fun x hx => List.mem_append_left _ (hs.returned x hx)
      released := fun g k d hg => List.mem_append_left _ (hs.released g k d hg) }
    rcases List.mem_append.mp hx with hx | hx
    · exact hs.woke x hx
    · rw [List.mem_singleton.mp hx]
      exact hc
  refine hlogged.stay ⟨nofun, ?_, ?_, fun _ => hs.locked f ?_, fun _ _ h => h⟩ ?_ nofun
  · simpa [CondPc.ticket] using hc
  · rintro k d ⟨⟩
    simp
  · simp [hf, CondPc.locked]
  · simp [hf, CondPc.queued]

/-- What one step can do. Only a fiber that finds its value unchanged goes from
`early` to being parked. -/
inductive Change {F : Type} [DecidableEq F] (s : CondVar F) : CondVar F → Prop where
  | mutex (m : Mutex F) : s.Change { s with mutex := m }
  | move {f : F} {pc : CondPc} {lock : Option F} (hfits : s.Fits f pc lock)
      (hqueued : pc.queued = (s.pc f).queued) (hcompare : ∀ v, pc ≠ .park v .compare)
      (hearly : (s.pc f).early = true → pc.early = true ∧ pc.noticed = (s.pc f).noticed ∨
        s.pc f = .park s.val .compare) : s.Change { s.goto f pc with lock := lock }
  | returns {f : F} {kind : Notify} {c : Nat} (hf : s.pc f = .release kind c) :
      s.Change { s.goto f .outside with lock := none, returned := s.returned ++ [(kind, c)] }
  | fetchAdd {f : F} {kind : Notify} (hf : s.pc f = .fetchAdd kind) :
      s.Change { s.goto f (.wake kind s.notifies) with
        val := (s.val + 1) % 2 ^ 64, notifies := s.notifies + 1 }
  | enqueue {f : F} {v : Nat} (hf : s.pc f = .park v .awaitSuspend) (hlock : s.lock = none) :
      s.Change { s.goto f (.park v .compare) with
        lock := some f, bell := ⟨s.bell.queue ++ [f]⟩ }
  | unlink {f : F} {v : Nat} (hf : s.pc f = .park v .compare) :
      s.Change { s.goto f (.park v (.release true)) with
        bell := ⟨s.bell.queue.erase f⟩
        scheduled := Function.update s.scheduled f (s.scheduled f + 1) }
  | empty {f : F} {kind : Notify} {c : Nat} (hf : s.pc f = .pop kind c) (hq : s.bell.queue = []) :
      s.Change { s.goto f (.release kind c) with woke := s.woke ++ [(kind, c)] }
  | one {f g : F} {c : Nat} {rest : List F} (hf : s.pc f = .pop .one c)
      (hq : s.bell.queue = g :: rest) :
      s.Change { (s.awake ⟨rest⟩ g).goto f (.release .one c) with
        woke := s.woke ++ [(.one, c)] }
  | all {f g : F} {c : Nat} {rest : List F} (hf : s.pc f = .pop .all c)
      (hq : s.bell.queue = g :: rest) : s.Change (s.awake ⟨rest⟩ g)

theorem pass_eq {F : Type} [DecidableEq F] {s t : CondVar F} {f : F} {pc : CondPc}
    (h : s.pass f pc = some t) : s.lock = none ∧ t = s.goto f pc := by
  unfold pass at h
  split at h
  · rename_i hlock
    exact ⟨hlock, (Option.some.inj h).symm⟩
  · cases h

theorem acquire_eq {F : Type} [DecidableEq F] {s t : CondVar F} {f : F} {pc : CondPc}
    (h : s.acquire f pc = some t) : s.lock = none ∧ t = { s.goto f pc with lock := some f } := by
  unfold acquire at h
  split at h
  · rename_i hlock
    exact ⟨hlock, (Option.some.inj h).symm⟩
  · cases h

theorem Inv.parkStep {F : Type} [DecidableEq F] {s t : CondVar F} (hs : s.Inv) {f : F} {v : Nat}
    {p : ParkStep} (hf : s.pc f = .park v p) (h : s.parkStep f v p = some t) : s.Change t := by
  have hv : v ≤ s.notifies := hs.noticed f v (by simp [hf, CondPc.noticed])
  have hfits {q : ParkStep} (hq : (CondPc.park v q).locked = true → s.lock = some f) :
      s.Fits f (.park v q) s.lock := by
    refine ⟨?_, nofun, nofun, hq, fun _ _ h => h⟩
    rintro w ⟨⟩
    exact hv
  cases p with
  | setAwaiter =>
    obtain ⟨-, rfl⟩ := pass_eq h
    exact .move (hfits nofun) (by simp [hf, CondPc.queued]) nofun fun _ => .inl ⟨rfl, by rw [hf]; rfl⟩
  | awaitSuspend =>
    obtain ⟨u, hu, rfl⟩ := Option.map_eq_some_iff.mp h
    obtain ⟨hlock, rfl⟩ := acquire_eq hu
    exact .enqueue hf hlock
  | compare =>
    have hlocked := hs.locked f (by simp [hf, CondPc.locked])
    simp only [CondVar.parkStep, Option.some.injEq] at h
    subst h
    split
    · rename_i heq
      exact .move (hfits fun _ => hlocked) (by simp [hf, CondPc.queued]) nofun
        fun _ => .inr (by rw [hf, heq])
    · exact .unlink hf
  | release scheduled =>
    have hlocked := hs.locked f (by simp [hf, CondPc.locked])
    simp only [CondVar.parkStep, Option.some.injEq] at h
    subst h
    refine .move ⟨?_, ?_, ?_, ?_, fun g hg h => ?_⟩ ?_ ?_ (by simp [hf, CondPc.early])
    · cases scheduled <;> rintro w ⟨⟩ <;> exact hv
    · cases scheduled <;> nofun
    · cases scheduled <;> nofun
    · cases scheduled <;> nofun
    · rw [hlocked] at h
      exact (hg (Option.some.inj h).symm).elim
    · cases scheduled <;> simp [hf, CondPc.queued]
    · cases scheduled <;> nofun
  | parked => simp [CondVar.parkStep] at h
  | relock =>
    obtain ⟨-, rfl⟩ := pass_eq h
    exact .move ⟨nofun, nofun, nofun, nofun, fun _ _ h => h⟩ (by simp [hf, CondPc.queued]) nofun
      (by simp [hf, CondPc.early])

theorem popStep_change {F : Type} [DecidableEq F] {s : CondVar F} {f : F} {kind : Notify} {c : Nat}
    (hf : s.pc f = .pop kind c) : s.Change (s.popStep f kind c) := by
  unfold popStep FutexLike.wakeOne
  cases hq : s.bell.queue with
  | nil => exact .empty hf hq
  | cons g rest =>
    cases kind with
    | one => exact .one hf hq
    | all => exact .all hf hq

theorem Inv.fiberStep {F : Type} [DecidableEq F] {s t : CondVar F} (hs : s.Inv) {f : F}
    (h : s.fiberStep f = some t) : s.Change t := by
  unfold CondVar.fiberStep at h
  cases hf : s.pc f with
  | outside => simp [hf] at h
  | load =>
    simp only [hf, Option.some.injEq] at h
    subst h
    refine .move ⟨?_, nofun, nofun, nofun, fun _ _ h => h⟩ (by simp [hf, CondPc.queued]) nofun
      (by simp [hf, CondPc.early])
    rintro v ⟨⟩
    rw [hs.val]
    exact Nat.mod_le _ _
  | unlock v =>
    simp only [hf, Option.ite_none_right_eq_some, Option.some.injEq] at h
    obtain ⟨-, rfl⟩ := h
    refine .move ⟨?_, nofun, nofun, nofun, fun _ _ h => h⟩ (by simp [hf, CondPc.queued]) nofun
      fun _ => .inl ⟨rfl, by rw [hf]; rfl⟩
    rintro w ⟨⟩
    exact hs.noticed f v (by simp [hf, CondPc.noticed])
  | park v p =>
    simp only [hf] at h
    exact hs.parkStep hf h
  | lock =>
    simp only [hf, Option.ite_none_right_eq_some, Option.some.injEq] at h
    obtain ⟨-, rfl⟩ := h
    exact .move ⟨nofun, nofun, nofun, nofun, fun _ _ h => h⟩ (by simp [hf, CondPc.queued]) nofun
      (by simp [hf, CondPc.early])
  | fetchAdd kind =>
    simp only [hf, Option.some.injEq] at h
    subst h
    exact .fetchAdd hf
  | wake kind c =>
    simp only [hf] at h
    obtain ⟨hlock, rfl⟩ := acquire_eq h
    refine .move ⟨nofun, ?_, nofun, fun _ => rfl, ?_⟩ (by simp [hf, CondPc.queued]) nofun
      (by simp [hf, CondPc.early])
    · rintro d ⟨⟩
      exact hs.ticket f c (by simp [hf, CondPc.ticket])
    · simp [hlock]
  | pop kind c =>
    simp only [hf, Option.some.injEq] at h
    subst h
    exact popStep_change hf
  | release kind c =>
    simp only [hf, Option.some.injEq] at h
    subst h
    exact .returns hf

theorem Inv.change {F : Type} [DecidableEq F] {s t : CondVar F} (hs : s.Inv) {l : CondLabel F}
    (h : s.step l = some t) : s.Change t := by
  cases l with
  | mutex l =>
    simp only [CondVar.step, Option.ite_none_right_eq_some] at h
    obtain ⟨m, -, rfl⟩ := Option.map_eq_some_iff.mp h.2
    exact .mutex m
  | wait f | notify f kind =>
    simp only [CondVar.step, Option.ite_none_right_eq_some, Option.some.injEq] at h
    obtain ⟨⟨hf, -⟩, rfl⟩ := h
    exact .move ⟨nofun, nofun, nofun, nofun, fun _ _ h => h⟩ (by simp [hf, CondPc.queued]) nofun
      (by simp [hf, CondPc.early])
  | step f => exact hs.fiberStep h

theorem Inv.fetchAdd {F : Type} [DecidableEq F] {s : CondVar F} (hs : s.Inv) {f : F}
    {kind : Notify} (hf : s.pc f = .fetchAdd kind) :
    ({ s.goto f (.wake kind s.notifies) with
      val := (s.val + 1) % 2 ^ 64, notifies := s.notifies + 1 }).Inv := by
  have hcounted : ({ s with
      val := (s.val + 1) % 2 ^ 64, notifies := s.notifies + 1 } : CondVar F).Inv := by
    refine { hs with
      val := ?_
      noticed := fun g v hg => Nat.le_succ_of_le (hs.noticed g v hg)
      ticket := fun g c hg => Nat.lt_succ_of_lt (hs.ticket g c hg)
      woke := fun x hx => Nat.lt_succ_of_lt (hs.woke x hx) }
    simp only [hs.val]
    omega
  refine hcounted.stay ⟨nofun, ?_, nofun, nofun, fun _ _ h => h⟩ ?_ nofun
  · rintro c ⟨⟩
    exact Nat.lt_succ_self _
  · simp [hf, CondPc.queued]

theorem Inv.enqueue {F : Type} [DecidableEq F] {s : CondVar F} (hs : s.Inv) {f : F} {v : Nat}
    (hf : s.pc f = .park v .awaitSuspend) (hlock : s.lock = none) :
    ({ s.goto f (.park v .compare) with lock := some f, bell := ⟨s.bell.queue ++ [f]⟩ }).Inv := by
  have hnew : f ∉ s.bell.queue := by simp [hs.queued, hf, CondPc.queued]
  refine hs.move ⟨?_, nofun, nofun, fun _ => rfl, ?_⟩ (fun g => ?_) ?_ fun g w hg => ?_
  · rintro w ⟨⟩
    exact hs.noticed f v (by simp [hf, CondPc.noticed])
  · simp [hlock]
  · by_cases h : g = f
    · subst h
      simp [CondPc.queued]
    · simp [h, hs.queued]
  · exact List.nodup_append.mpr ⟨hs.nodup, by simp, by
      intro g hg k hk hgk
      exact hnew (List.mem_singleton.mp hk ▸ hgk ▸ hg)⟩
  · by_cases h : g = f
    · exact ⟨s.bell.queue, by rw [h]⟩
    · rw [Function.update_of_ne h] at hg
      have := hs.locked g (by simp [hg, CondPc.locked])
      simp [hlock] at this

theorem Inv.unlink {F : Type} [DecidableEq F] {s : CondVar F} (hs : s.Inv) {f : F} {v : Nat}
    (hf : s.pc f = .park v .compare) :
    ({ s.goto f (.park v (.release true)) with
      bell := ⟨s.bell.queue.erase f⟩
      scheduled := Function.update s.scheduled f (s.scheduled f + 1) }).Inv := by
  have hlocked := hs.locked f (by simp [hf, CondPc.locked])
  refine hs.move ⟨?_, nofun, nofun, fun _ => hlocked, fun _ _ h => h⟩ (fun g => ?_)
    (hs.nodup.erase f) fun g w hg => ?_
  · rintro w ⟨⟩
    exact hs.noticed f v (by simp [hf, CondPc.noticed])
  · rw [hs.nodup.mem_erase_iff]
    by_cases h : g = f
    · subst h
      simp [CondPc.queued]
    · simp [h, hs.queued]
  · by_cases h : g = f
    · subst h
      simp at hg
    · rw [Function.update_of_ne h] at hg
      exact (h (hs.alone (by simp [hf, CondPc.locked]) (by simp [hg, CondPc.locked]))).elim

theorem Inv.step {F : Type} [DecidableEq F] {s t : CondVar F} (hs : s.Inv) (h : s.Change t) :
    t.Inv := by
  cases h with
  | mutex m => exact { hs with }
  | move hfits hqueued hcompare _ => exact hs.stay hfits hqueued hcompare
  | @returns f kind c hf =>
    have hlocked := hs.locked f (by simp [hf, CondPc.locked])
    have hlogged : ({ s with returned := s.returned ++ [(kind, c)] } : CondVar F).Inv := by
      refine { hs with returned := fun x hx => ?_ }
      rcases List.mem_append.mp hx with hx | hx
      · exact hs.returned x hx
      · rw [List.mem_singleton.mp hx]
        exact hs.released f kind c hf
    refine hlogged.stay ⟨nofun, nofun, nofun, nofun, fun g hg h => ?_⟩ ?_ nofun
    · have h : s.lock = some g := h
      rw [hlocked] at h
      exact (hg (Option.some.inj h).symm).elim
    · simp [hf, CondPc.queued]
  | fetchAdd hf => exact hs.fetchAdd hf
  | enqueue hf hlock => exact hs.enqueue hf hlock
  | unlink hf => exact hs.unlink hf
  | empty hf _ => exact hs.popped hf
  | one hf hq =>
    obtain ⟨ht, hf⟩ := hs.awake hf hq
    exact ht.popped hf
  | all hf hq => exact (hs.awake hf hq).1

/-- The fibers that are parked for good unless somebody wakes them, in order. -/
def settled {F : Type} (s : CondVar F) : List F := s.bell.queue.filter fun g => !(s.pc g).early

def recent (n : Nat) (x : Notify × Nat) : Bool := x.1 = .one ∧ n ≤ x.2

/-- The state `u` of a run that passed a `fetch_add` in the state `s`. The
wake-ups of the notifications from that one on, but for `slack` that are still
to be booked, took `gone` off the fibers that were settled in `s`; `left` are
still at the front of the queue. -/
structure Since {F : Type} (s u : CondVar F) (slack : Nat) : Prop where
  count : s.notifies < u.notifies
  mono : ∀ g, s.scheduled g ≤ u.scheduled g
  queue : ∃ gone left late, s.settled = gone ++ left ∧ u.bell.queue = left ++ late ∧
    (∀ g ∈ gone, s.scheduled g < u.scheduled g) ∧ (∀ g ∈ left, (u.pc g).early = false) ∧
    (left = [] ∨ (u.woke.filter (recent s.notifies)).length + slack ≤ gone.length ∧
      ∀ c, s.notifies ≤ c → (.all, c) ∉ u.woke)
  early : u.notifies < 2 ^ 64 → ∀ g, (s.pc g).early = true → s.scheduled g < u.scheduled g ∨
    (u.pc g).early = true ∧ ∀ v, (u.pc g).noticed = some v → v ≤ s.notifies

theorem queued_of_early {F : Type} {s : CondVar F} (hs : s.Inv) {g : F}
    (hg : g ∈ s.bell.queue) (hearly : (s.pc g).early = true) : ∃ v, s.pc g = .park v .compare := by
  have hqueued := (hs.queued g).mp hg
  cases h : s.pc g with
  | park v p => cases p <;> simp_all [CondPc.early, CondPc.queued]
  | _ => simp [h, CondPc.queued] at hqueued

/-- Only the last fiber of the queue may still be comparing. -/
theorem Inv.settled {F : Type} {s : CondVar F} (hs : s.Inv) :
    ∃ late, s.bell.queue = s.settled ++ late := by
  by_cases hall : ∀ g ∈ s.bell.queue, (s.pc g).early = false
  · refine ⟨[], ?_⟩
    rw [CondVar.settled, List.filter_eq_self.mpr (by simpa using hall), List.append_nil]
  · push Not at hall
    obtain ⟨f, hf, hearly⟩ := hall
    obtain ⟨v, hv⟩ := queued_of_early hs hf (by simpa using hearly)
    obtain ⟨front, hfront⟩ := hs.last f v hv
    have hnodup := hs.nodup
    rw [hfront, List.nodup_append] at hnodup
    have hrest : ∀ g ∈ front, (!(s.pc g).early) = true := by
      intro g hg
      by_contra h
      obtain ⟨w, hw⟩ := queued_of_early hs (g := g) (by simp [hfront, hg]) (by simpa using h)
      have := hs.alone (f := f) (g := g) (by simp [hv, CondPc.locked]) (by simp [hw, CondPc.locked])
      exact hnodup.2.2 g hg f (by simp) this
    refine ⟨[f], ?_⟩
    have hlast : (!(s.pc f).early) = false := by simp [hv, CondPc.early]
    rw [CondVar.settled, hfront, List.filter_append, List.filter_eq_self.mpr hrest,
      List.filter_singleton]
    simp [hlast]

theorem Inv.since {F : Type} [DecidableEq F] {s : CondVar F} (hs : s.Inv) {f : F}
    {kind : Notify} (hf : s.pc f = .fetchAdd kind) :
    s.Since { s.goto f (.wake kind s.notifies) with
      val := (s.val + 1) % 2 ^ 64, notifies := s.notifies + 1 } 0 := by
  have hother {g : F} (hg : (s.pc g).early = true) : g ≠ f := by
    rintro rfl
    simp [hf, CondPc.early] at hg
  refine ⟨Nat.lt_succ_self _, fun g => Nat.le_refl _, ?_, fun _ g hg => .inr ?_⟩
  · obtain ⟨late, hlate⟩ := hs.settled
    refine ⟨[], s.settled, late, rfl, hlate, nofun, fun g hg => ?_, .inr ⟨?_, ?_⟩⟩
    · by_cases h : g = f
      · simp [goto, h, CondPc.early]
      · simpa [goto, h, CondVar.settled] using (List.mem_filter.mp hg).2
    · have hold : s.woke.filter (recent s.notifies) = [] := by
        rw [List.filter_eq_nil_iff]
        intro x hx
        have := hs.woke x hx
        simp [recent]
        omega
      simp [goto, hold]
    · intro c hc hx
      have := hs.woke _ hx
      simp only at this
      omega
  · simp only [goto, Function.update_of_ne (hother hg)]
    exact ⟨hg, hs.noticed g⟩

/-- A step that leaves the front of the queue alone. -/
theorem Since.move {F : Type} [DecidableEq F] {s u : CondVar F} {k : Nat} (h : s.Since u k)
    {f : F} {pc : CondPc} {lock : Option F} {bell : FutexLike F} {scheduled : F → Nat}
    (hmono : ∀ g, u.scheduled g ≤ scheduled g)
    (hqueue : ∀ left late, u.bell.queue = left ++ late → (∀ g ∈ left, (u.pc g).early = false) →
      ∃ late', bell.queue = left ++ late')
    (hback : pc.early = true → f ∈ u.bell.queue → (u.pc f).early = true)
    (hearly : u.notifies < 2 ^ 64 → (u.pc f).early = true →
      (∀ v, (u.pc f).noticed = some v → v ≤ s.notifies) → u.scheduled f < scheduled f ∨
        pc.early = true ∧ ∀ v, pc.noticed = some v → v ≤ s.notifies) :
    s.Since { u.goto f pc with lock := lock, bell := bell, scheduled := scheduled } k := by
  refine ⟨h.count, fun g => Nat.le_trans (h.mono g) (hmono g), ?_, fun hbound g hg => ?_⟩
  · obtain ⟨gone, left, late, hsettled, hu, hgone, hleft, hbooked⟩ := h.queue
    obtain ⟨late', hbell⟩ := hqueue left late hu hleft
    refine ⟨gone, left, late', hsettled, hbell,
      fun g hg => Nat.lt_of_lt_of_le (hgone g hg) (hmono g), fun g hg => ?_, hbooked⟩
    by_cases hgf : g = f
    · subst hgf
      have hcalm := hleft g hg
      by_contra hpc
      have := hback (by simpa [goto] using hpc) (by simp [hu, hg])
      simp [hcalm] at this
    · simpa [goto, hgf] using hleft g hg
  · rcases h.early hbound g hg with hlt | ⟨hge, hgv⟩
    · exact .inl (Nat.lt_of_lt_of_le hlt (hmono g))
    · by_cases hgf : g = f
      · subst hgf
        rcases hearly hbound hge hgv with hlt | hstill
        · exact .inl (Nat.lt_of_le_of_lt (h.mono g) hlt)
        · exact .inr (by simpa [goto] using hstill)
      · exact .inr (by simpa [goto, hgf] using ⟨hge, hgv⟩)

/-- A wake-up takes the first of those that are left, if any are left. -/
theorem Since.awake {F : Type} [DecidableEq F] {s u : CondVar F} {k : Nat} (h : s.Since u k)
    (hu : u.Inv) {f g : F} {rest : List F} {kind : Notify} {c : Nat} (hf : u.pc f = .pop kind c)
    (hq : u.bell.queue = g :: rest) : s.Since (u.awake ⟨rest⟩ g) (k + 1) := by
  obtain ⟨v, hg⟩ := hu.front hf hq
  have hmono (x : F) : u.scheduled x ≤ (u.awake ⟨rest⟩ g).scheduled x := by
    by_cases hx : x = g
    · simp [CondVar.awake, hx]
    · simp [CondVar.awake, hx]
  have hcalm {x : F} (hx : (u.pc x).early = false) :
      ((u.awake ⟨rest⟩ g).pc x).early = false := by
    by_cases hxg : x = g
    · simp [CondVar.awake, hxg, hg, CondPc.schedule, CondPc.early]
    · simpa [CondVar.awake, hxg] using hx
  refine ⟨h.count, fun x => Nat.le_trans (h.mono x) (hmono x), ?_, fun hbound x hx => ?_⟩
  · obtain ⟨gone, left, late, hsettled, hbell, hgone, hleft, hbooked⟩ := h.queue
    rw [hq] at hbell
    cases left with
    | nil =>
      exact ⟨gone, [], rest, hsettled, rfl,
        fun x hx => Nat.lt_of_lt_of_le (hgone x hx) (hmono x), nofun, .inl rfl⟩
    | cons y left =>
      obtain ⟨rfl, hrest⟩ := List.cons.inj hbell
      refine ⟨gone ++ [g], left, late, by simp [hsettled], hrest, fun x hx => ?_,
        fun x hx => hcalm (hleft x (by simp [hx])), .inr ?_⟩
      · rcases List.mem_append.mp hx with hx | hx
        · exact Nat.lt_of_lt_of_le (hgone x hx) (hmono x)
        · rw [List.mem_singleton.mp hx]
          have := h.mono g
          simp only [CondVar.awake, Function.update_self]
          omega
      · obtain ⟨hcount, hall⟩ := hbooked.resolve_left (List.cons_ne_nil _ _)
        refine ⟨?_, hall⟩
        simp only [CondVar.awake, List.length_append, List.length_singleton]
        omega
  · rcases h.early hbound x hx with hlt | ⟨hxe, hxv⟩
    · exact .inl (Nat.lt_of_lt_of_le hlt (hmono x))
    · have hxg : x ≠ g := by
        rintro rfl
        simp [hg, CondPc.early] at hxe
      exact .inr (by simpa [CondVar.awake, hxg] using ⟨hxe, hxv⟩)

/-- The wake-up is booked; a `WakeAll` only when the queue is empty. -/
theorem Since.popped {F : Type} [DecidableEq F] {s u : CondVar F} {k : Nat}
    (h : s.Since u (k + 1) ∨ s.Since u k ∧ u.bell.queue = []) {f : F} {kind : Notify} {c : Nat}
    (hf : u.pc f = .pop kind c) (hkind : kind = .one ∨ u.bell.queue = []) :
    s.Since { u.goto f (.release kind c) with woke := u.woke ++ [(kind, c)] } k := by
  have hempty {left late : List F} (hq : u.bell.queue = []) (hbell : u.bell.queue = left ++ late) :
      left = [] := by
    rw [hq] at hbell
    exact (List.append_eq_nil_iff.mp hbell.symm).1
  have hlength : ((u.woke ++ [(kind, c)]).filter (recent s.notifies)).length ≤
      (u.woke.filter (recent s.notifies)).length + 1 := by
    rw [List.filter_append, List.length_append]
    have := List.length_filter_le (recent s.notifies) [(kind, c)]
    simpa using this
  have hlogged : s.Since { u with woke := u.woke ++ [(kind, c)] } k := by
    rcases h with h | ⟨h, hq⟩
    · refine { h with queue := ?_ }
      obtain ⟨gone, left, late, hsettled, hbell, hgone, hleft, hbooked⟩ := h.queue
      refine ⟨gone, left, late, hsettled, hbell, hgone, hleft, ?_⟩
      rcases hkind with rfl | hq
      · refine hbooked.imp_right fun ⟨hcount, hall⟩ => ⟨by simp only; omega, fun d hd hx => ?_⟩
        rcases List.mem_append.mp hx with hx | hx
        · exact hall d hd hx
        · simp at hx
      · exact .inl (hempty hq hbell)
    · refine { h with queue := ?_ }
      obtain ⟨gone, left, late, hsettled, hbell, hgone, hleft, -⟩ := h.queue
      exact ⟨gone, left, late, hsettled, hbell, hgone, hleft, .inl (hempty hq hbell)⟩
  exact hlogged.move (fun _ => Nat.le_refl _) (fun left late hl _ => ⟨late, hl⟩) nofun
    (by simp [hf, CondPc.early])

theorem Since.step {F : Type} [DecidableEq F] {s u t : CondVar F} (h : s.Since u 0) (hu : u.Inv)
    (ht : u.Change t) : s.Since t 0 := by
  cases ht with
  | mutex m => exact { h with }
  | @move f pc lock hfits hqueued hcompare hearly =>
    refine h.move (fun _ => Nat.le_refl _) (fun left late hl _ => ⟨late, hl⟩)
      (fun hpc hf => ?_) fun hbound hf hv => ?_
    · have hq := (hu.queued f).mp hf
      rw [← hqueued] at hq
      cases pc with
      | park v p => cases p <;> simp_all [CondPc.queued, CondPc.early]
      | _ => simp [CondPc.queued] at hq
    · rcases hearly hf with ⟨hpc, hnoticed⟩ | heq
      · exact .inr ⟨hpc, hnoticed ▸ hv⟩
      · -- the value has changed since it was read
        have hle := hv u.val (by rw [heq]; rfl)
        have hlt := h.count
        rw [hu.val, Nat.mod_eq_of_lt hbound] at hle
        omega
  | @returns f kind c hf =>
    have hlogged : s.Since { u with returned := u.returned ++ [(kind, c)] } 0 := { h with }
    exact hlogged.move (fun _ => Nat.le_refl _) (fun left late hl _ => ⟨late, hl⟩) nofun
      (by simp [hf, CondPc.early])
  | @fetchAdd f kind hf =>
    have hcounted : s.Since { u with
        val := (u.val + 1) % 2 ^ 64, notifies := u.notifies + 1 } 0 :=
      ⟨Nat.lt_succ_of_lt h.count, h.mono, h.queue, fun hbound => h.early (by simp only at hbound; omega)⟩
    exact hcounted.move (fun _ => Nat.le_refl _) (fun left late hl _ => ⟨late, hl⟩) nofun
      (by simp [hf, CondPc.early])
  | @enqueue f v hf hlock =>
    refine h.move (fun _ => Nat.le_refl _) (fun left late hl _ => ⟨late ++ [f], by simp [hl]⟩)
      (fun _ _ => by rw [hf]; rfl) fun _ _ hv => .inr ⟨rfl, fun w hw => hv w ?_⟩
    rw [hf]
    exact hw
  | @unlink f v hf =>
    refine h.move (fun g => ?_) (fun left late hl hleft => ⟨late.erase f, ?_⟩) nofun
      fun _ _ _ => .inl (by simp)
    · by_cases hg : g = f
      · simp [hg]
      · simp [hg]
    · have hf : f ∉ left := fun hin => by simpa [hf, CondPc.early] using hleft f hin
      rw [hl, List.erase_append_right _ hf]
  | empty hf hq => exact Since.popped (.inr ⟨h, hq⟩) hf (.inr hq)
  | one hf hq => exact Since.popped (.inl (h.awake hu hf hq)) (hu.awake hf hq).2 (.inl rfl)
  | all hf hq =>
    have ht := h.awake hu hf hq
    refine { ht with queue := ?_ }
    obtain ⟨gone, left, late, hsettled, hbell, hgone, hleft, hbooked⟩ := ht.queue
    exact ⟨gone, left, late, hsettled, hbell, hgone, hleft,
      hbooked.imp_right fun ⟨hcount, hall⟩ => ⟨by omega, hall⟩⟩

end CondVar

theorem condVar_inv {F : Type} [DecidableEq F] {s : CondVar F} (h : (condVar F).Reachable s) :
    s.Inv := by
  apply h.invariant
  · exact ⟨rfl, nofun, nofun, nofun, nofun, nofun, fun f => ⟨nofun, nofun⟩, List.nodup_nil, nofun,
      nofun⟩
  · intro s l t _ hs ht
    exact hs.step (hs.change ht)

theorem CondVar.Inv.run {F : Type} [DecidableEq F] {s t u : CondVar F} (hs : s.Inv) {f : F}
    {kind : Notify} (hf : s.pc f = .fetchAdd kind) (ht : (condVar F).step s (.step f) = some t)
    {ls : List (CondLabel F)} (hu : (condVar F).exec t ls = some u) :
    u.Inv ∧ s.Since u 0 := by
  have hstep : s.fiberStep f = some t := ht
  simp only [CondVar.fiberStep, hf, Option.some.injEq] at hstep
  refine Machine.exec_invariant (I := fun u => u.Inv ∧ s.Since u 0)
    (fun u l v (_ : True) ⟨hu, hsince⟩ hl => ?_) (fun _ _ => trivial) ?_ hu
  · have hchange := hu.change hl
    exact ⟨hu.step hchange, hsince.step hu hchange⟩
  · rw [← hstep]
    exact ⟨hs.step (.fetchAdd hf), hs.since hf⟩

/-- Past the `val_.load` of a `Wait` and not yet out of its `ParkIfEqual`. -/
def CondPc.waits : CondPc → Bool
  | .unlock _ | .park _ _ => true
  | _ => false

def CondPc.rescheduled : CondPc → Bool
  | .park _ (.release true) | .park _ .relock => true
  | _ => false

/-- The comparison is still to come and will fail. -/
def CondPc.turnsBack (pc : CondPc) (val : Nat) : Bool := pc.early && pc.noticed ≠ some val

def CondVar.waiting {F : Type} (s : CondVar F) : Set F := {g | (s.pc g).waits = true}

/-- The wait that `g` is in in `s` has been ended by the time of `u`, or `g` will
end it by itself. -/
def CondVar.Served {F : Type} (s u : CondVar F) (g : F) : Prop :=
  (s.pc g).rescheduled = true ∨ s.scheduled g < u.scheduled g ∨ (u.pc g).turnsBack u.val = true

namespace CondVar

/-- The compare of a fiber that turns back schedules it. -/
theorem turnsBack_compare {F : Type} [DecidableEq F] {s t : CondVar F} {f : F} {v : Nat}
    (hf : s.pc f = .park v .compare) (hback : (s.pc f).turnsBack s.val = true)
    (ht : (condVar F).step s (.step f) = some t) :
    t.pc f = .park v (.release true) ∧ t.scheduled f = s.scheduled f + 1 := by
  have hne : s.val ≠ v := by
    rintro rfl
    simp [hf, CondPc.turnsBack, CondPc.noticed] at hback
  have hstep : s.fiberStep f = some t := ht
  simp only [CondVar.fiberStep, hf, parkStep, if_neg hne, Option.some.injEq] at hstep
  subst hstep
  simp [goto]

theorem Change.scheduled_le {F : Type} [DecidableEq F] {s t : CondVar F} (h : s.Change t) (g : F) :
    s.scheduled g ≤ t.scheduled g := by
  cases h with
  | @unlink f _ _ | @one _ f _ _ _ _ | @all _ f _ _ _ _ =>
    by_cases hg : g = f <;> simp [goto, CondVar.awake, hg]
  | _ => exact Nat.le_refl _

/-- The value only grows, so a fiber that turns back does so until its own compare. -/
theorem Inv.turnsBack {F : Type} [DecidableEq F] {s t : CondVar F} (hs : s.Inv) (h : s.Change t)
    (hbound : t.notifies < 2 ^ 64) {g : F} (hg : (s.pc g).turnsBack s.val = true) :
    s.scheduled g < t.scheduled g ∨ (t.pc g).turnsBack t.val = true := by
  have hearly : (s.pc g).early = true := (Bool.and_eq_true_iff.mp hg).1
  have hne {f : F} (hf : (s.pc f).early = false) : g ≠ f := by
    rintro rfl
    rw [hearly] at hf
    cases hf
  cases h with
  | mutex m => exact .inr hg
  | @move f pc lock _ _ _ hmove =>
    by_cases hgf : g = f
    · subst hgf
      rcases hmove hearly with ⟨hpc, hnoticed⟩ | heq
      · exact .inr (by simpa [goto, CondPc.turnsBack, hpc, hnoticed, hearly] using hg)
      · simp [heq, CondPc.turnsBack, CondPc.noticed] at hg
    · exact .inr (by simpa [goto, hgf] using hg)
  | @fetchAdd f kind hf =>
    have hgf : g ≠ f := hne (by rw [hf]; rfl)
    have hval : (s.val + 1) % 2 ^ 64 = s.notifies + 1 := by
      have hs := hs.val
      simp only at hbound
      omega
    refine .inr ?_
    simp only [goto, Function.update_of_ne hgf, hval, CondPc.turnsBack, hearly, Bool.true_and,
      decide_eq_true_eq, ne_eq]
    intro heq
    have := hs.noticed g _ heq
    omega
  | @enqueue f v hf _ =>
    by_cases hgf : g = f
    · subst hgf
      exact .inr (by simpa [goto, hf, CondPc.turnsBack, CondPc.early, CondPc.noticed] using hg)
    · exact .inr (by simpa [goto, hgf] using hg)
  | @unlink f v hf =>
    by_cases hgf : g = f
    · exact .inl (by simp [hgf])
    · exact .inr (by simpa [goto, hgf] using hg)
  | @returns f _ _ hf | @empty f _ _ hf _ =>
    have hgf : g ≠ f := hne (by rw [hf]; rfl)
    exact .inr (by simpa [goto, hgf] using hg)
  | @one f x _ _ hf hq | @all f x _ _ hf hq =>
    have hgf : g ≠ f := hne (by rw [hf]; rfl)
    obtain ⟨v, hx⟩ := hs.front hf hq
    have hgx : g ≠ x := hne (by rw [hx]; rfl)
    exact .inr (by simpa [goto, CondVar.awake, hgf, hgx] using hg)

theorem Change.notifies_le {F : Type} [DecidableEq F] {s t : CondVar F} (h : s.Change t) :
    s.notifies ≤ t.notifies := by
  cases h with
  | fetchAdd _ => exact Nat.le_succ _
  | _ => exact Nat.le_refl _

/-- Whoever is served stays so, however the run goes on. -/
theorem Served.run {F : Type} [DecidableEq F] {s u v : CondVar F} {g : F} (h : s.Served u g)
    (hle : s.scheduled g ≤ u.scheduled g) (hu : u.Inv) {ls : List (CondLabel F)}
    (hv : (condVar F).exec u ls = some v) (hbound : v.notifies < 2 ^ 64) : s.Served v g := by
  have hkept : v.Inv ∧ s.scheduled g ≤ v.scheduled g ∧ (v.notifies < 2 ^ 64 → s.Served v g) := by
    refine Machine.exec_invariant
      (I := fun v => v.Inv ∧ s.scheduled g ≤ v.scheduled g ∧ (v.notifies < 2 ^ 64 → s.Served v g))
      (fun w l t (_ : True) ⟨hw, hle, hserved⟩ ht => ?_) (fun _ _ => trivial)
      ⟨hu, hle, fun _ => h⟩ hv
    have hchange := hw.change ht
    have hmono := hchange.scheduled_le g
    refine ⟨hw.step hchange, Nat.le_trans hle hmono, fun hbound => ?_⟩
    rcases hserved (Nat.lt_of_le_of_lt hchange.notifies_le hbound) with hre | hlt | hback
    · exact .inl hre
    · exact .inr (.inl (Nat.lt_of_lt_of_le hlt hmono))
    · exact .inr ((hw.turnsBack hchange hbound hback).imp_left (Nat.lt_of_le_of_lt hle))
  exact hkept.2.2 hbound

theorem Since.served_of_early {F : Type} {s u : CondVar F} {k : Nat} (h : s.Since u k)
    (hu : u.Inv) (hbound : u.notifies < 2 ^ 64) {g : F} (hg : (s.pc g).early = true) :
    s.Served u g := by
  rcases h.early hbound g hg with hlt | ⟨hearly, hnoticed⟩
  · exact .inr (.inl hlt)
  · refine .inr (.inr ?_)
    have hval : u.val = u.notifies := hu.val.trans (Nat.mod_eq_of_lt hbound)
    have hne : (u.pc g).noticed ≠ some u.val := by
      intro heq
      have hle := hnoticed u.val heq
      have hlt := h.count
      omega
    simp [CondPc.turnsBack, hearly, hne]

/-- Whoever waits in `s` is settled in the queue unless it is served anyway. -/
theorem Since.served_or_settled {F : Type} {s u : CondVar F} {k : Nat} (h : s.Since u k)
    (hs : s.Inv) (hu : u.Inv) (hbound : u.notifies < 2 ^ 64) {g : F} (hg : g ∈ s.waiting) :
    s.Served u g ∨ g ∈ s.settled := by
  have hg : (s.pc g).waits = true := hg
  by_cases hearly : (s.pc g).early = true
  · exact .inl (h.served_of_early hu hbound hearly)
  · have hqueued : (s.pc g).rescheduled = true ∨ (s.pc g).queued = true := by
      cases hpc : s.pc g with
      | unlock v => simp [hpc, CondPc.early] at hearly
      | park v p =>
        cases p with
        | release scheduled => cases scheduled <;> simp [CondPc.rescheduled, CondPc.queued]
        | _ => simp_all [CondPc.early, CondPc.rescheduled, CondPc.queued]
      | _ => simp [hpc, CondPc.waits] at hg
    rcases hqueued with hre | hqueued
    · exact .inl (.inl hre)
    · exact .inr (List.mem_filter.mpr ⟨(hs.queued g).mpr hqueued, by simpa using hearly⟩)

theorem settled_waiting {F : Type} {s : CondVar F} (hs : s.Inv) {g : F} (hg : g ∈ s.settled) :
    g ∈ s.waiting := by
  have hqueued := (hs.queued g).mp (List.mem_of_mem_filter hg)
  cases hpc : s.pc g with
  | park v p => simp [waiting, hpc, CondPc.waits]
  | _ => simp [hpc, CondPc.queued] at hqueued

end CondVar

/-- Of the fibers that wait when the first of `k` `NotifyOne`s counts itself, `k`
or all are served when these have returned; a `NotifyAll` serves all of them. -/
theorem condVar_loses_no_notification {F : Type} [DecidableEq F] {s t u : CondVar F}
    (hs : (condVar F).Reachable s) {f : F} {kind : Notify} (hf : s.pc f = .fetchAdd kind)
    (ht : (condVar F).step s (.step f) = some t) {ls : List (CondLabel F)}
    (hu : (condVar F).exec t ls = some u) (hbound : u.notifies < 2 ^ 64) :
    (∀ K : Finset Nat, (∀ c ∈ K, s.notifies ≤ c ∧ (.one, c) ∈ u.returned) →
      min (K.card : ℕ∞) s.waiting.encard ≤ {g ∈ s.waiting | s.Served u g}.encard) ∧
    ((.all, s.notifies) ∈ u.returned → ∀ g ∈ s.waiting, s.Served u g) := by
  have hs := condVar_inv hs
  obtain ⟨hu, hsince⟩ := hs.run hf ht hu
  obtain ⟨gone, left, late, hsettled, -, hgone, -, hbooked⟩ := hsince.queue
  -- whoever waits and is not served is among those that are left
  have hserved {g : F} (hg : g ∈ s.waiting) (hleft : g ∉ left) : s.Served u g := by
    rcases hsince.served_or_settled hs hu hbound hg with h | h
    · exact h
    · rw [hsettled] at h
      exact .inr (.inl (hgone g ((List.mem_append.mp h).resolve_right hleft)))
  refine ⟨fun K hK => ?_, fun hall g hg => ?_⟩
  · rcases hbooked with hnone | ⟨hcount, -⟩
    · refine (min_le_right _ _).trans (Set.encard_le_encard fun g hg => ⟨hg, hserved hg ?_⟩)
      simp [hnone]
    · refine (min_le_left _ _).trans ?_
      have hnodup : gone.Nodup := by
        have hnodup : s.settled.Nodup := hs.nodup.filter _
        rw [hsettled] at hnodup
        exact hnodup.of_append_left
      have hsubset : K.image (fun c => (Notify.one, c)) ⊆
          (u.woke.filter (CondVar.recent s.notifies)).toFinset := by
        intro x hx
        obtain ⟨c, hc, rfl⟩ := Finset.mem_image.mp hx
        obtain ⟨hle, hreturned⟩ := hK c hc
        rw [List.mem_toFinset, List.mem_filter]
        exact ⟨hu.returned _ hreturned, by simp [CondVar.recent, hle]⟩
      have hcard : K.card ≤ gone.length := by
        have hle := (Finset.card_le_card hsubset).trans (List.toFinset_card_le _)
        rw [Finset.card_image_of_injective _ (Prod.mk_right_injective _)] at hle
        omega
      calc (K.card : ℕ∞) ≤ gone.toFinset.card := by
            rw [List.toFinset_card_of_nodup hnodup]
            exact_mod_cast hcard
        _ = (gone.toFinset : Set F).encard := (Set.encard_coe_eq_coe_finsetCard _).symm
        _ ≤ _ := Set.encard_le_encard fun g hg => by
            have hg : g ∈ gone := by simpa using hg
            exact ⟨CondVar.settled_waiting hs (by simp [hsettled, hg]), .inr (.inl (hgone g hg))⟩
  · rcases hbooked with hnone | ⟨-, hnotall⟩
    · exact hserved hg (by simp [hnone])
    · exact (hnotall s.notifies (Nat.le_refl _) (hu.returned _ hall)).elim

/-- Fiber 1 waits and is parked; fiber 2 loads only after the notification has
counted itself and does not get the wake-up. -/
theorem condVar_loses_no_notification_late :
    ∃ s t u, (condVar (Fin 3)).Reachable s ∧ s.pc 0 = .fetchAdd .one ∧
      s.pc 1 = .park 0 .parked ∧ (condVar (Fin 3)).step s (.step 0) = some t ∧
      (∃ ls, (condVar (Fin 3)).exec t ls = some u) ∧ (.one, 0) ∈ u.returned ∧
      u.scheduled 1 = 1 ∧ u.pc 2 = .park 1 .parked ∧
      min ((1 : Nat) : ℕ∞) s.waiting.encard ≤ {g ∈ s.waiting | s.Served u g}.encard := by
  have hs : (condVar (Fin 3)).Reachable _ := Machine.reachable_of_exec
    ([.mutex (.lock 1), .mutex (.step 1), .wait 1, .step 1, .mutex (.unlock 1), .mutex (.step 1),
      .step 1, .step 1, .step 1, .step 1, .step 1, .notify 0 .one]) rfl
  let ls : List (CondLabel (Fin 3)) := [.mutex (.lock 2), .mutex (.step 2), .wait 2, .step 2,
    .mutex (.unlock 2), .mutex (.step 2), .step 2, .step 2, .step 2, .step 2, .step 2, .step 0,
    .step 0, .step 0]
  have h := (condVar_loses_no_notification hs rfl
    (show (condVar (Fin 3)).step _ (.step 0) = some _ from rfl)
    (show (condVar (Fin 3)).exec _ ls = some _ from rfl) (by decide)).1 {0} (by decide)
  exact ⟨_, _, _, hs, rfl, rfl, rfl, ⟨ls, rfl⟩, by decide, rfl, rfl, h⟩

theorem CondVar.fiberStep_mutex {F : Type} [DecidableEq F] {s t : CondVar F} {f : F}
    (h : s.fiberStep f = some t) : t.mutex = s.mutex := by
  unfold fiberStep at h
  cases hf : s.pc f with
  | park v p =>
    simp only [hf] at h
    cases p with
    | setAwaiter | relock => rw [(pass_eq h).2]; rfl
    | awaitSuspend =>
      obtain ⟨u, hu, rfl⟩ := Option.map_eq_some_iff.mp h
      rw [(acquire_eq hu).2]
      rfl
    | compare =>
      simp only [parkStep, Option.some.injEq] at h
      subst h
      split <;> rfl
    | release scheduled =>
      simp only [parkStep, Option.some.injEq] at h
      subst h
      rfl
    | parked => simp [parkStep] at h
  | pop kind c =>
    simp only [hf, popStep, Option.some.injEq] at h
    subst h
    split
    · rfl
    · cases kind <;> rfl
  | wake kind c =>
    simp only [hf] at h
    rw [(acquire_eq h).2]
    rfl
  | outside => simp [hf] at h
  | unlock v | lock =>
    simp only [hf, Option.ite_none_right_eq_some, Option.some.injEq] at h
    rw [← h.2]
    rfl
  | load | fetchAdd kind | release kind c =>
    simp only [hf, Option.some.injEq] at h
    subst h
    rfl

/-- The mutex of a condition variable is used as a mutex. -/
def condVarMutex (F : Type) [DecidableEq F] : (condVar F).Refinement (mutex F) where
  f := CondVar.mutex
  act _ l := match l with
    | .mutex l => [l]
    | _ => []
  init := rfl
  step s l t _ ht := by
    cases l with
    | mutex l =>
      simp only [condVar, CondVar.step, Option.ite_none_right_eq_some] at ht
      obtain ⟨-, ht⟩ := ht
      obtain ⟨m, hm, rfl⟩ := Option.map_eq_some_iff.mp ht
      have hm : (mutex F).step s.mutex l = some m := hm
      simp [hm]
    | wait f | notify f kind =>
      simp only [condVar, CondVar.step, Option.ite_none_right_eq_some, Option.some.injEq] at ht
      obtain ⟨-, rfl⟩ := ht
      rfl
    | step f =>
      rw [CondVar.fiberStep_mutex ht]
      rfl

/-- So at most one fiber is in its critical section, `Wait` or not. -/
theorem condVar_exclusive {F : Type} [DecidableEq F] {s : CondVar F}
    (h : (condVar F).Reachable s) {f g : F} (hf : s.mutex.pc f = .critical)
    (hg : s.mutex.pc g = .critical) : f = g :=
  (mutex_inv ((condVarMutex F).reachable h)).unique f g hf hg

end ConcurrentProgramming.Fibers
