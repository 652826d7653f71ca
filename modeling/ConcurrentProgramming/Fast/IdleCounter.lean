import ConcurrentProgramming.Compute.ZeroWaiter
import ConcurrentProgramming.Fast.Shutdown

/-!
The idle counter of the global queue. A section of `access_` is taken apart into
its entry, what it tells `waiter_`, and what it does to the queue, since `WaitIdle`
reads the counter under another mutex.
-/

set_option autoImplicit false

namespace ConcurrentProgramming.Fast
open Interleaving

/-- Where a thread is: in one of the requests, in `Stop` or in `WaitIdle`. -/
inductive AccessCall (T : Type) where
  | idle
  | loadClosed (r : Request T)
  | lock (r : Request T)
  | locked (r : Request T)
  | told (r : Request T)
  | discard (rest : List T)
  | storeClosed
  | drain
  | discardDrained (rest : List T)
  | wait
  | waiting
  deriving DecidableEq, Repr

structure IdleQueue (ι T : Type) where
  queue : List T
  isClosed : Bool
  waiter : Compute.ZeroWaiter ι
  access : Option ι
  calls : ι → AccessCall T

inductive IdleQueueLabel (ι T : Type) where
  | call (i : ι) (r : Request T)
  | callStop (i : ι)
  | callWaitIdle (i : ι)
  | step (i : ι)
  | spurious (i : ι)
  deriving DecidableEq, Repr

/-- Only the pushes look at `is_closed_`, and before they lock; a `Grab` for no
workers divides by zero. -/
def Request.enter {T : Type} : Request T → Option (AccessCall T)
  | .pushOne item => some (.loadClosed (.pushOne item))
  | .offload buffer => some (.loadClosed (.offload buffer))
  | .tryPopOne => some (.lock .tryPopOne)
  | .grab outSize workers => if workers = 0 then none else some (.lock (.grab outSize workers))

/-- What the section tells `waiter_` before it touches `queue_`; `none` is the
failed assertion. -/
def Request.tell {ι T : Type} (queue : List T) (w : Compute.ZeroWaiter ι) :
    Request T → Option (Compute.ZeroWaiter ι)
  | .pushOne _ => some (if queue.isEmpty then w.incrementValue else w)
  | .offload buffer => some (if queue.isEmpty && !buffer.isEmpty then w.incrementValue else w)
  | .tryPopOne => if queue.length = 1 then w.decrementValue else some w
  | .grab outSize workers =>
    let limit := GlobalQueue.grabLimit outSize queue.length workers
    if limit ≠ 0 ∧ limit = queue.length then w.decrementValue else some w

/-- What the section leaves in `queue_`. -/
def Request.leaves {T : Type} (queue : List T) : Request T → List T
  | .pushOne item => queue ++ [item]
  | .offload buffer => queue ++ buffer
  | .tryPopOne => queue.drop 1
  | .grab outSize workers => queue.drop (GlobalQueue.grabLimit outSize queue.length workers)

namespace IdleQueue

def goto {ι T : Type} [DecidableEq ι] (s : IdleQueue ι T) (i : ι) (c : AccessCall T) :
    IdleQueue ι T := { s with calls := Function.update s.calls i c }

def waited {ι T : Type} [DecidableEq ι] (s : IdleQueue ι T) (i : ι)
    (x : Compute.ZeroWaiter ι × Bool) : IdleQueue ι T :=
  { s.goto i (if x.2 then .idle else .waiting) with waiter := x.1 }

def callStep {ι T : Type} [DecidableEq ι] (s : IdleQueue ι T) (i : ι) : Option (IdleQueue ι T) :=
  match s.calls i with
  | .idle => none
  | .loadClosed r => some (s.goto i (if s.isClosed then .discard r.items else .lock r))
  | .lock r => if s.access = none then some { s.goto i (.locked r) with access := some i } else none
  | .locked r =>
    (r.tell s.queue s.waiter).map fun waiter => { s.goto i (.told r) with waiter := waiter }
  | .told r => some { s.goto i .idle with queue := r.leaves s.queue, access := none }
  | .discard [] => some (s.goto i .idle)
  | .discard (_ :: rest) => some (s.goto i (.discard rest))
  | .storeClosed => some { s.goto i .drain with isClosed := true }
  | .drain =>
    if s.access = none then
      some (match s.queue.take 256 with
        | [] => s.goto i .idle
        | items => { s.goto i (.discardDrained items) with queue := s.queue.drop 256 })
    else none
  | .discardDrained [] => some (s.goto i .drain)
  | .discardDrained (_ :: rest) => some (s.goto i (.discardDrained rest))
  | .wait => some (s.waited i (s.waiter.wait i))
  | .waiting => (s.waiter.rewait i).map (s.waited i)

/-- A thread that is in none of the calls starts one. -/
def start {ι T : Type} [DecidableEq ι] (s : IdleQueue ι T) (i : ι) (c : AccessCall T) :
    Option (IdleQueue ι T) :=
  match s.calls i with
  | .idle => some (s.goto i c)
  | _ => none

def step {ι T : Type} [DecidableEq ι] (s : IdleQueue ι T) :
    IdleQueueLabel ι T → Option (IdleQueue ι T)
  | .call i r => r.enter.bind (s.start i)
  | .callStop i => s.start i .storeClosed
  | .callWaitIdle i => s.start i .wait
  | .step i => s.callStep i
  | .spurious i => (s.waiter.wake i).map fun waiter => { s with waiter := waiter }

end IdleQueue

def idleQueue (ι T : Type) [DecidableEq ι] : Machine (IdleQueue ι T) (IdleQueueLabel ι T) where
  init := ⟨[], false, .new ι, none, fun _ => .idle⟩
  step := IdleQueue.step

/-- What the counter should be for a queue. -/
def filled {T : Type} : List T → Nat
  | [] => 0
  | _ :: _ => 1

theorem filled_eq_zero {T : Type} {queue : List T} : filled queue = 0 ↔ queue = [] := by
  cases queue <;> simp [filled]

theorem filled_of_ne {T : Type} {queue : List T} (h : queue ≠ []) : filled queue = 1 := by
  cases queue with
  | nil => exact (h rfl).elim
  | cons item rest => rfl

def AccessCall.inside {T : Type} : AccessCall T → Bool
  | .locked _ | .told _ => true
  | _ => false

/-- The queue that the counter speaks of: in the middle of a section, the one that
the section will leave. -/
def IdleQueue.due {ι T : Type} (s : IdleQueue ι T) : List T :=
  match s.access with
  | none => s.queue
  | some i =>
    match s.calls i with
    | .told r => r.leaves s.queue
    | _ => s.queue

/-- The claim on the counter and on those who wait for it. -/
structure IdleQueue.TracksIdle {ι T : Type} [DecidableEq ι] (s : IdleQueue ι T) : Prop where
  counter : s.access = none → s.waiter.counter = if s.queue.isEmpty then 0 else 1
  asserted : ∀ i r, s.calls i = .locked r → (s.callStep i).isSome = true
  waitIdle : s.access = none → ∀ i, s.calls i = .wait ∨ s.calls i = .waiting →
    (s.queue = [] ↔ ∃ t, s.callStep i = some t ∧ t.calls i = .idle)

structure IdleQueue.Inv {ι T : Type} (s : IdleQueue ι T) : Prop where
  counts : s.waiter.Counts (filled s.due)
  holder : ∀ i, (s.calls i).inside = true ↔ s.access = some i
  waiting : s.waiter.Tracks fun i => s.calls i = .waiting

/-- No section of `Stop` takes the last tasks out of the queue. -/
def IdleQueue.stopsIdle {ι T : Type} (s : IdleQueue ι T) : IdleQueueLabel ι T → Bool
  | .step i =>
    match s.calls i with
    | .drain => s.queue.isEmpty ∨ 256 < s.queue.length
    | _ => true
  | _ => true

theorem Request.tell_counts {ι T : Type} {w x : Compute.ZeroWaiter ι} {queue : List T}
    {r : Request T} (h : w.Counts (filled queue)) (ht : r.tell queue w = some x) :
    x.Counts (filled (r.leaves queue)) := by
  cases r with
  | pushOne item =>
    obtain rfl := Option.some.inj ht
    cases queue with
    | nil => exact h.incrementValue (by simp [filled])
    | cons head rest => exact h
  | offload buffer =>
    obtain rfl := Option.some.inj ht
    cases queue with
    | cons head rest => exact h
    | nil =>
      cases buffer with
      | nil => exact h
      | cons item buffer => exact h.incrementValue (by simp [filled])
  | tryPopOne =>
    match queue with
    | [] | _ :: _ :: _ =>
      simp only [tell, List.length_nil, List.length_cons, Nat.zero_ne_one, if_false,
        Nat.add_eq_right, Nat.add_eq_zero_iff, Nat.one_ne_zero, and_false, Option.some.injEq] at ht
      exact ht ▸ h
    | [_] => exact h.decrementValue ht
  | grab outSize workers =>
    have hle : GlobalQueue.grabLimit outSize queue.length workers ≤ queue.length :=
      Nat.le_trans (Nat.min_le_left _ _) (Nat.min_le_right _ _)
    simp only [tell] at ht
    simp only [leaves]
    generalize GlobalQueue.grabLimit outSize queue.length workers = limit at hle ht
    split at ht
    · rename_i hall
      have hne : queue ≠ [] := fun hnil => hall.1 (hall.2.trans (by simp [hnil]))
      have hx := h.decrementValue ht
      rw [filled_of_ne hne] at hx
      simpa [hall.2, filled] using hx
    · rename_i hpart
      obtain rfl := Option.some.inj ht
      by_cases hzero : limit = 0
      · simpa [hzero] using h
      · have hrest : queue.drop limit ≠ [] := by
          rw [ne_eq, List.drop_eq_nil_iff]
          omega
        have hne : queue ≠ [] := fun hnil => hrest (by simp [hnil])
        rw [filled_of_ne hrest, ← filled_of_ne hne]
        exact h

theorem Request.exists_tell {ι T : Type} {w : Compute.ZeroWaiter ι} {queue : List T}
    (h : w.Counts (filled queue)) (r : Request T) : ∃ x, r.tell queue w = some x := by
  have hdecrement (hne : queue ≠ []) : ∃ x, w.decrementValue = some x := by
    have hcounter : w.counter ≠ 0 := by simp [h.counter, filled_of_ne hne]
    exact ⟨_, if_neg hcounter⟩
  cases r with
  | pushOne item | offload buffer => exact ⟨_, rfl⟩
  | tryPopOne =>
    simp only [tell]
    split
    · rename_i hone
      exact hdecrement fun hnil => by simp [hnil] at hone
    · exact ⟨_, rfl⟩
  | grab outSize workers =>
    simp only [tell]
    split
    · rename_i hall
      exact hdecrement fun hnil => hall.1 (hall.2.trans (by simp [hnil]))
    · exact ⟨_, rfl⟩

theorem Request.tell_tracks {ι T : Type} {w x : Compute.ZeroWaiter ι} {queue : List T}
    {waiting : ι → Prop} {r : Request T} (h : w.Tracks waiting) (ht : r.tell queue w = some x) :
    x.Tracks waiting := by
  cases r with
  | pushOne item | offload buffer =>
    obtain rfl := Option.some.inj ht
    split
    · exact h.incrementValue
    · exact h
  | tryPopOne | grab outSize workers =>
    simp only [tell] at ht
    split at ht
    · exact h.decrementValue ht
    · exact Option.some.inj ht ▸ h

namespace IdleQueue

theorem Inv.due_goto {ι T : Type} [DecidableEq ι] {s : IdleQueue ι T} (hs : s.Inv) {i : ι}
    (hi : (s.calls i).inside = false) (c : AccessCall T) : (s.goto i c).due = s.due := by
  unfold due
  cases haccess : s.access with
  | none => simp [goto, haccess]
  | some j =>
    have hne : j ≠ i := by
      rintro rfl
      simp [(hs.holder j).mpr haccess] at hi
    simp [goto, haccess, hne]

theorem holder_goto {ι T : Type} [DecidableEq ι] {s : IdleQueue ι T} (hs : s.Inv) {i : ι}
    {c : AccessCall T} (hi : (s.calls i).inside = false) (hc : c.inside = false) (j : ι) :
    ((s.goto i c).calls j).inside = true ↔ s.access = some j := by
  by_cases hj : j = i
  · subst hj
    rw [← hs.holder]
    simp [goto, hi, hc]
  · rw [← hs.holder]
    simp [goto, hj]

theorem waiting_goto {ι T : Type} [DecidableEq ι] {s : IdleQueue ι T} {i : ι} {c : AccessCall T}
    (hi : s.calls i ≠ .waiting) (hc : c ≠ .waiting) (j : ι) :
    s.calls j = .waiting ↔ (s.goto i c).calls j = .waiting := by
  by_cases hj : j = i
  · subst hj
    simp [goto, hi, hc]
  · simp [goto, hj]

/-- A thread outside the sections moves on; it may have closed the queue. -/
theorem Inv.outside {ι T : Type} [DecidableEq ι] {s : IdleQueue ι T} (hs : s.Inv) {i : ι}
    {c : AccessCall T} {closed : Bool} (hi : (s.calls i).inside = false)
    (hc : c.inside = false) (hwas : s.calls i ≠ .waiting) (his : c ≠ .waiting) :
    Inv { s.goto i c with isClosed := closed } := by
  refine ⟨?_, holder_goto hs hi hc, ?_⟩
  · have hdue := hs.due_goto hi c
    unfold due at hdue ⊢
    simp only at hdue ⊢
    rw [hdue]
    exact hs.counts
  · exact ConditionVariable.Tracks.congr hs.waiting (waiting_goto hwas his)

/-- A thread looks at the counter in `Wait`. -/
theorem Inv.waited {ι T : Type} [DecidableEq ι] {s : IdleQueue ι T} (hs : s.Inv) {i : ι}
    {x : Compute.ZeroWaiter ι × Bool} (hi : (s.calls i).inside = false)
    (hcounts : x.1.Counts (filled s.due))
    (htracks : x.1.Tracks fun j => j = i ∧ x.2 = false ∨ j ≠ i ∧ s.calls j = .waiting) :
    (s.waited i x).Inv := by
  have hc : (if x.2 then .idle else .waiting : AccessCall T).inside = false := by split <;> rfl
  refine ⟨?_, holder_goto hs hi hc, ?_⟩
  · have hdue := hs.due_goto hi (if x.2 then .idle else .waiting)
    unfold due at hdue ⊢
    simp only [IdleQueue.waited] at hdue ⊢
    rw [hdue]
    exact hcounts
  · apply ConditionVariable.Tracks.congr htracks
    intro j
    by_cases hj : j = i
    · subst hj
      cases hx : x.2 <;> simp [IdleQueue.waited, goto, hx]
    · simp [IdleQueue.waited, goto, hj]

/-- The three parts of a section. -/
theorem Inv.enter {ι T : Type} [DecidableEq ι] {s : IdleQueue ι T} (hs : s.Inv) {i : ι}
    {r : Request T} (hi : s.calls i = .lock r) (hfree : s.access = none) :
    Inv { s.goto i (.locked r) with access := some i } := by
  have hcounts := hs.counts
  simp only [due, hfree] at hcounts
  refine ⟨by simpa [due, goto] using hcounts, fun j => ?_, ?_⟩
  · have hj := hs.holder j
    rw [hfree] at hj
    by_cases he : j = i
    · simp [goto, he, AccessCall.inside]
    · simpa [goto, he, Ne.symm he] using hj
  · exact ConditionVariable.Tracks.congr hs.waiting (waiting_goto (by simp [hi]) nofun)

theorem Inv.tell {ι T : Type} [DecidableEq ι] {s : IdleQueue ι T} (hs : s.Inv) {i : ι}
    {r : Request T} (hi : s.calls i = .locked r) {waiter : Compute.ZeroWaiter ι}
    (hwaiter : r.tell s.queue s.waiter = some waiter) :
    Inv { s.goto i (.told r) with waiter := waiter } := by
  have haccess := (hs.holder i).mp (by simp [hi, AccessCall.inside])
  have hcounts := hs.counts
  simp only [due, haccess, hi] at hcounts
  refine ⟨?_, fun j => ?_, ?_⟩
  · simpa [due, goto, haccess] using Request.tell_counts hcounts hwaiter
  · have hj := hs.holder j
    by_cases he : j = i
    · subst he
      simp [goto, haccess, AccessCall.inside]
    · simpa [goto, he] using hj
  · exact ConditionVariable.Tracks.congr (Request.tell_tracks hs.waiting hwaiter)
      (waiting_goto (by simp [hi]) nofun)

theorem Inv.leave {ι T : Type} [DecidableEq ι] {s : IdleQueue ι T} (hs : s.Inv) {i : ι}
    {r : Request T} (hi : s.calls i = .told r) :
    Inv { s.goto i .idle with queue := r.leaves s.queue, access := none } := by
  have haccess := (hs.holder i).mp (by simp [hi, AccessCall.inside])
  have hcounts := hs.counts
  simp only [due, haccess, hi] at hcounts
  refine ⟨hcounts, fun j => ?_, ?_⟩
  · have hj := hs.holder j
    rw [haccess] at hj
    by_cases he : j = i
    · simp [goto, he, AccessCall.inside]
    · simpa [goto, he, Ne.symm he] using hj
  · exact ConditionVariable.Tracks.congr hs.waiting (waiting_goto (by simp [hi]) nofun)

/-- A section of `Stop` that leaves something in the queue. -/
theorem Inv.drain {ι T : Type} [DecidableEq ι] {s : IdleQueue ι T} (hs : s.Inv) {i : ι}
    (hi : s.calls i = .drain) (hfree : s.access = none) (hmore : 256 < s.queue.length)
    (items : List T) :
    Inv { s.goto i (.discardDrained items) with queue := s.queue.drop 256 } := by
  have hrest : s.queue.drop 256 ≠ [] := by
    rw [ne_eq, List.drop_eq_nil_iff]
    omega
  have hne : s.queue ≠ [] := fun hnil => hrest (by simp [hnil])
  have hcounts := hs.counts
  simp only [due, hfree, filled_of_ne hne] at hcounts
  refine ⟨?_, holder_goto hs (by simp [hi, AccessCall.inside]) rfl, ?_⟩
  · simpa [due, goto, hfree, filled_of_ne hrest] using hcounts
  · exact ConditionVariable.Tracks.congr hs.waiting (waiting_goto (by simp [hi]) nofun)

theorem Inv.callStep {ι T : Type} [DecidableEq ι] {s t : IdleQueue ι T} (hs : s.Inv) {i : ι}
    (hok : s.stopsIdle (.step i) = true) (h : s.callStep i = some t) : t.Inv := by
  unfold IdleQueue.callStep at h
  cases hi : s.calls i with
  | idle => simp [hi] at h
  | loadClosed r =>
    simp only [hi, Option.some.injEq] at h
    subst h
    split <;> exact hs.outside (by simp [hi, AccessCall.inside]) rfl (by simp [hi]) (by simp)
  | lock r =>
    simp only [hi, Option.ite_none_right_eq_some, Option.some.injEq] at h
    obtain ⟨hfree, rfl⟩ := h
    exact hs.enter hi hfree
  | locked r =>
    simp only [hi] at h
    obtain ⟨waiter, hwaiter, rfl⟩ := Option.map_eq_some_iff.mp h
    exact hs.tell hi hwaiter
  | told r =>
    simp only [hi, Option.some.injEq] at h
    exact h ▸ hs.leave hi
  | storeClosed =>
    simp only [hi, Option.some.injEq] at h
    subst h
    exact hs.outside (by simp [hi, AccessCall.inside]) rfl (by simp [hi]) (by simp)
  | discard rest | discardDrained rest =>
    cases rest <;> simp only [hi, Option.some.injEq] at h <;> subst h <;>
      exact hs.outside (by simp [hi, AccessCall.inside]) rfl (by simp [hi]) (by simp)
  | drain =>
    simp only [hi, Option.ite_none_right_eq_some, Option.some.injEq] at h
    obtain ⟨hfree, rfl⟩ := h
    simp only [stopsIdle, hi, Bool.decide_or, Bool.or_eq_true, decide_eq_true_eq,
      List.isEmpty_iff] at hok
    split
    · exact hs.outside (by simp [hi, AccessCall.inside]) rfl (by simp [hi]) (by simp)
    · rename_i hitems
      exact hs.drain hi hfree (hok.resolve_left fun hnil => hitems (by simp [hnil])) _
  | wait =>
    simp only [hi, Option.some.injEq] at h
    subst h
    apply hs.waited (by simp [hi, AccessCall.inside]) (hs.counts.wait i)
    apply ConditionVariable.Tracks.congr (hs.waiting.wait (i := i) (by simp [hi]))
    intro j
    by_cases hj : j = i <;> simp [hj, hi]
  | waiting =>
    simp only [hi] at h
    obtain ⟨x, hx, rfl⟩ := Option.map_eq_some_iff.mp h
    exact hs.waited (by simp [hi, AccessCall.inside]) (hs.counts.rewait hx) (hs.waiting.rewait hx)

theorem Inv.start {ι T : Type} [DecidableEq ι] {s t : IdleQueue ι T} (hs : s.Inv) {i : ι}
    {c : AccessCall T} (hc : c.inside = false) (hwait : c ≠ .waiting)
    (h : s.start i c = some t) : t.Inv := by
  unfold IdleQueue.start at h
  split at h
  · rename_i hi
    obtain rfl := Option.some.inj h
    exact hs.outside (by simp [hi, AccessCall.inside]) hc (by simp [hi]) hwait
  · cases h

theorem Request.enter_outside {T : Type} {r : Request T} {c : AccessCall T}
    (h : r.enter = some c) : c.inside = false ∧ c ≠ .waiting := by
  cases r <;> simp only [Request.enter, Option.some.injEq, Option.ite_none_left_eq_some] at h
  case grab => exact h.2 ▸ ⟨rfl, nofun⟩
  all_goals exact h ▸ ⟨rfl, nofun⟩

theorem Inv.step {ι T : Type} [DecidableEq ι] {s t : IdleQueue ι T} (hs : s.Inv)
    {l : IdleQueueLabel ι T} (hok : s.stopsIdle l = true) (h : s.step l = some t) : t.Inv := by
  cases l with
  | call i r =>
    obtain ⟨c, hc, h⟩ := Option.bind_eq_some_iff.mp h
    obtain ⟨houtside, hwait⟩ := Request.enter_outside hc
    exact hs.start houtside hwait h
  | callStop i => exact hs.start (c := .storeClosed) rfl nofun h
  | callWaitIdle i => exact hs.start (c := .wait) rfl nofun h
  | step i => exact hs.callStep hok h
  | spurious i =>
    obtain ⟨waiter, hwaiter, rfl⟩ := Option.map_eq_some_iff.mp h
    exact ⟨hs.counts.wake hwaiter, hs.holder, hs.waiting.wake hwaiter⟩

theorem inv_init (ι T : Type) [DecidableEq ι] : (idleQueue ι T).init.Inv :=
  ⟨Compute.ZeroWaiter.counts_new ι, by simp [idleQueue, AccessCall.inside],
    ConditionVariable.tracks_new (by simp [idleQueue])⟩

end IdleQueue

/-- A caller of `WaitIdle` looks at the counter when the queue is at rest. -/
theorem IdleQueue.Inv.waitIdle {ι T : Type} [DecidableEq ι] {s : IdleQueue ι T} (hs : s.Inv)
    (hfree : s.access = none) {i : ι} (hi : s.calls i = .wait ∨ s.calls i = .waiting) :
    s.queue = [] ↔ ∃ t, s.callStep i = some t ∧ t.calls i = .idle := by
  have hcounts := hs.counts
  simp only [due, hfree] at hcounts
  have hreturns (x : Compute.ZeroWaiter ι × Bool) (hx : x.2 = true ↔ s.waiter.counter = 0) :
      (s.waited i x).calls i = .idle ↔ s.queue = [] := by
    rw [← filled_eq_zero, ← hcounts.counter, ← hx]
    cases hback : x.2 <;> simp [IdleQueue.waited, goto, hback]
  rcases hi with hi | hi
  · have hreturn := hreturns _ (s.waiter.wait_snd i)
    simp [IdleQueue.callStep, hi, hreturn]
  · constructor
    · intro hnil
      have hasleep := hcounts.awake (by simp [hnil, filled])
      have hnotified : i ∈ s.waiter.isNull.notified := by
        have hmem := (hs.waiting.mem i).mpr hi
        simpa [hasleep] using hmem
      obtain ⟨x, hx⟩ := Compute.ZeroWaiter.exists_rewait hnotified
      exact ⟨s.waited i x, by simp [IdleQueue.callStep, hi, hx],
        (hreturns x (Compute.ZeroWaiter.rewait_snd hx)).mpr hnil⟩
    · rintro ⟨t, ht, hidle⟩
      simp only [IdleQueue.callStep, hi] at ht
      obtain ⟨x, hx, rfl⟩ := Option.map_eq_some_iff.mp ht
      exact (hreturns x (Compute.ZeroWaiter.rewait_snd hx)).mp hidle

theorem IdleQueue.Inv.tracksIdle {ι T : Type} [DecidableEq ι] {s : IdleQueue ι T}
    (hs : s.Inv) : s.TracksIdle := by
  refine ⟨fun hfree => ?_, fun i r hi => ?_, fun hfree i hi => hs.waitIdle hfree hi⟩
  · have hcounter := hs.counts.counter
    simp only [due, hfree] at hcounter
    rw [hcounter]
    cases s.queue <;> rfl
  · have haccess := (hs.holder i).mp (by simp [hi, AccessCall.inside])
    have hcounts := hs.counts
    simp only [due, haccess, hi] at hcounts
    obtain ⟨x, hx⟩ := r.exists_tell hcounts
    simp [IdleQueue.callStep, hi, hx]

/-- `Stop` takes the last tasks and does not tell `waiter_`. -/
theorem IdleQueue.Inv.not_tracksIdle {ι T : Type} [DecidableEq ι] {s t : IdleQueue ι T}
    (hs : s.Inv) {l : IdleQueueLabel ι T} (h : s.step l = some t)
    (hnot : s.stopsIdle l = false) : ¬ t.TracksIdle := by
  intro ht
  cases l with
  | call _ _ | callStop _ | callWaitIdle _ | spurious _ => simp [stopsIdle] at hnot
  | step i =>
    cases hi : s.calls i with
    | drain =>
      simp only [stopsIdle, hi, Bool.decide_or, Bool.or_eq_false_iff, decide_eq_false_iff_not,
        List.isEmpty_iff] at hnot
      simp only [IdleQueue.step, IdleQueue.callStep, hi, Option.ite_none_right_eq_some,
        Option.some.injEq] at h
      obtain ⟨hfree, rfl⟩ := h
      have hcounter := hs.counts.counter
      simp only [due, hfree, filled_of_ne hnot.1] at hcounter
      have hrest : s.queue.drop 256 = [] := List.drop_eq_nil_iff.mpr (by omega)
      split at ht
      · rename_i hnil
        exact hnot.1 (by simpa using hnil)
      · have hzero := ht.counter hfree
        simp [goto, hrest, hcounter] at hzero
    | _ => simp [stopsIdle, hi] at hnot

/-- The counter says whether the queue is empty, in all states of a run, exactly
if `Stop` never takes the last tasks. -/
theorem idleCounter_tracks_iff {ι T : Type} [DecidableEq ι] {ls : List (IdleQueueLabel ι T)}
    {t : IdleQueue ι T} (h : (idleQueue ι T).exec (idleQueue ι T).init ls = some t) :
    (∀ k s, (idleQueue ι T).exec (idleQueue ι T).init (ls.take k) = some s → s.TracksIdle) ↔
      ((idleQueue ι T).guard IdleQueue.stopsIdle).exec (idleQueue ι T).init ls = some t := by
  refine Machine.Reachable.guard_exec_iff (I := IdleQueue.Inv) (fun s _ hs => hs.tracksIdle) ?_ ?_
    .init (IdleQueue.inv_init ι T) h
  · exact fun s l u _ hs hl hok => hs.step hok hl
  · exact fun s l u _ hs hl hnot => hs.not_tracksIdle hl hnot

/-- A push and a `Grab` around a `WaitIdle`, then `Stop` on the empty queue. -/
theorem idleCounter_tracks_iff_stopped :
    ∃ ls t, (idleQueue (Fin 2) Nat).exec (idleQueue (Fin 2) Nat).init ls = some t ∧
      t.isClosed = true ∧ t.calls 1 = .idle ∧ ∀ k s, (idleQueue (Fin 2) Nat).exec
        (idleQueue (Fin 2) Nat).init (ls.take k) = some s → s.TracksIdle := by
  have h : (idleQueue (Fin 2) Nat).exec (idleQueue (Fin 2) Nat).init
      [.call 0 (.pushOne 7), .step 0, .step 0, .step 0, .step 0, .callWaitIdle 1, .step 1,
        .call 0 (.grab 128 3), .step 0, .step 0, .step 0, .step 1, .callStop 0, .step 0,
        .step 0] = some _ := rfl
  exact ⟨_, _, h, rfl, rfl, (idleCounter_tracks_iff h).mpr rfl⟩

/-- `Stop` finds one task in the queue and discards it: the counter stays at 1, and
`WaitIdle` waits for ever. -/
theorem idleCounter_stuck :
    ∃ s, (idleQueue (Fin 2) Nat).Reachable s ∧ (∀ i, s.calls i = .idle) ∧ s.queue = [] ∧
      s.waiter.counter = 1 ∧ ¬ s.TracksIdle := by
  have h : (idleQueue (Fin 2) Nat).Reachable _ := Machine.reachable_of_exec
    [.call 0 (.pushOne 7), .step 0, .step 0, .step 0, .step 0, .callStop 1, .step 1, .step 1,
      .step 1, .step 1, .step 1] rfl
  refine ⟨_, h, by decide, rfl, rfl, fun hs => ?_⟩
  have hcounter := hs.counter rfl
  revert hcounter
  decide

end ConcurrentProgramming.Fast
