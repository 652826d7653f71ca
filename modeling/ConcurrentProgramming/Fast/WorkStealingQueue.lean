import ConcurrentProgramming.Interleaving.BoundedFifo
import Mathlib.Data.Nat.ModEq
import Mathlib.Logic.Function.Basic

/-!
`WorkStealingQueue`: the single-producer multi-consumer ring, one atomic load,
store, `fetch_add` or compare-exchange a step. Counters are 64-bit words.
-/

set_option autoImplicit false

namespace ConcurrentProgramming.Fast
open Interleaving

universe u v

def word : Nat := 2 ^ 64

/-- Inside a call of `TryPush` or `PushMany`. -/
inductive Producer (T : Type v) where
  | idle
  | tryPushLoadBegin (item : T)
  | tryPushLoadEnd (item : T) (begin : Nat)
  | tryPushStore (item : T) (end_ : Nat)
  | tryPushFetchAdd (item : T)
  | pushManyLoadEnd (buffer : List T)
  | pushManyAssert (buffer : List T) (end_ : Nat)
  | pushManyStore (buffer rest : List T) (end_ : Nat)
  | pushManyFetchAdd (buffer : List T)
  deriving DecidableEq, Repr

/-- Inside a call of `TryPop`, or of `Grab` with a span of `outSize` slots. -/
inductive Consumer (T : Type v) where
  | idle
  | tryPopLoadBegin
  | tryPopLoadEnd (begin : Nat)
  | tryPopLoadItem (begin : Nat)
  | tryPopExchange (begin : Nat) (ans : Option T)
  | grabLoadBegin (outSize : Nat)
  | grabLoadEnd (outSize begin : Nat)
  | grabCopy (outSize begin lim : Nat) (outBuffer : List (Option T))
  deriving DecidableEq, Repr

/-- A finished call, with the number of items the queue held at each of its
steps. -/
inductive Returned (T : Type v) where
  | tryPush (pushed : Bool) (sizes : List Nat)
  | pushMany (buffer : List T) (sizes : List Nat)
  | tryPop (ans : Option T) (sizes : List Nat)
  | grab (outSize : Nat) (outBuffer : List (Option T)) (sizes : List Nat)
  deriving DecidableEq, Repr

/-- A slot is a pointer, so it may be null; tasks are not. `pushed` lists the
items in the order of the `fetch_add`s on `end_`, `removed` what the successful
compare-exchanges on `begin_` took. -/
structure WorkStealingQueue (C : Type u) (T : Type v) where
  buffer : Nat → Option T
  begin_ : Nat
  end_ : Nat
  producer : Producer T
  consumers : C → Consumer T
  pushed : List T
  removed : List (Option T)
  producerSizes : List Nat
  consumerSizes : C → List Nat
  log : List (Returned T)

inductive QueueLabel (C : Type u) (T : Type v) where
  | tryPush (item : T)
  | pushMany (buffer : List T)
  | producer
  | tryPop (c : C)
  | grab (c : C) (outSize : Nat)
  | consumer (c : C) (spurious : Bool)

namespace WorkStealingQueue

def size {C : Type u} {T : Type v} (s : WorkStealingQueue C T) : Nat := s.end_ - s.begin_

def produce {C : Type u} {T : Type v} (s : WorkStealingQueue C T) (pc : Producer T) :
    WorkStealingQueue C T :=
  { s with producer := pc, producerSizes := s.producerSizes ++ [s.size] }

def produced {C : Type u} {T : Type v} (s : WorkStealingQueue C T)
    (result : List Nat → Returned T) : WorkStealingQueue C T :=
  { s with producer := .idle, log := s.log ++ [result (s.producerSizes ++ [s.size])] }

def consume {C : Type u} {T : Type v} [DecidableEq C] (s : WorkStealingQueue C T) (c : C)
    (pc : Consumer T) : WorkStealingQueue C T :=
  { s with
    consumers := Function.update s.consumers c pc
    consumerSizes := Function.update s.consumerSizes c (s.consumerSizes c ++ [s.size]) }

def consumed {C : Type u} {T : Type v} [DecidableEq C] (s : WorkStealingQueue C T) (c : C)
    (result : List Nat → Returned T) : WorkStealingQueue C T :=
  { s with
    consumers := Function.update s.consumers c .idle
    log := s.log ++ [result (s.consumerSizes c ++ [s.size])] }

/-- The store of one slot, at the counter value `at_`. -/
def store {C : Type u} {T : Type v} (capacity : Nat) (s : WorkStealingQueue C T) (at_ : Nat)
    (item : T) : WorkStealingQueue C T :=
  { s with buffer := Function.update s.buffer (at_ % capacity) (some item) }

def publish {C : Type u} {T : Type v} (s : WorkStealingQueue C T) (items : List T) :
    WorkStealingQueue C T :=
  { s with end_ := (s.end_ + items.length) % word, pushed := s.pushed ++ items }

def remove {C : Type u} {T : Type v} (s : WorkStealingQueue C T) (count : Nat)
    (items : List (Option T)) : WorkStealingQueue C T :=
  { s with begin_ := (s.begin_ + count) % word, removed := s.removed ++ items }

def producerStep {C : Type u} {T : Type v} (capacity : Nat) (s : WorkStealingQueue C T) :
    Option (WorkStealingQueue C T) :=
  match s.producer with
  | .idle => none
  | .tryPushLoadBegin item => some (s.produce (.tryPushLoadEnd item s.begin_))
  | .tryPushLoadEnd item begin =>
    if (begin + capacity) % word ≤ s.end_ then some (s.produced (.tryPush false))
    else some (s.produce (.tryPushStore item s.end_))
  | .tryPushStore item end_ =>
    some ((s.store capacity end_ item).produce (.tryPushFetchAdd item))
  | .tryPushFetchAdd item => some ((s.produced (.tryPush true)).publish [item])
  | .pushManyLoadEnd buffer => some (s.produce (.pushManyAssert buffer s.end_))
  | .pushManyAssert buffer end_ =>
    -- a failed assertion ends the program
    if (end_ + buffer.length) % word ≤ (s.begin_ + capacity) % word then
      some (s.produce (.pushManyStore buffer buffer end_))
    else none
  | .pushManyStore buffer [] _ => some (s.produce (.pushManyFetchAdd buffer))
  | .pushManyStore buffer (item :: rest) end_ =>
    some ((s.store capacity end_ item).produce
      (.pushManyStore buffer rest ((end_ + 1) % word)))
  | .pushManyFetchAdd buffer => some ((s.produced (.pushMany buffer)).publish buffer)

/-- `spurious` is the failure that a weak compare-exchange may report. -/
def consumerStep {C : Type u} {T : Type v} [DecidableEq C] (capacity : Nat)
    (s : WorkStealingQueue C T) (c : C) (spurious : Bool) : Option (WorkStealingQueue C T) :=
  match s.consumers c with
  | .idle => none
  | .tryPopLoadBegin => some (s.consume c (.tryPopLoadEnd s.begin_))
  | .tryPopLoadEnd begin =>
    if s.end_ = begin then some (s.consumed c (.tryPop none))
    else some (s.consume c (.tryPopLoadItem begin))
  | .tryPopLoadItem begin =>
    some (s.consume c (.tryPopExchange begin (s.buffer (begin % capacity))))
  | .tryPopExchange begin ans =>
    if s.begin_ = begin ∧ spurious = false then
      some ((s.consumed c (.tryPop ans)).remove 1 [ans])
    else some (s.consume c .tryPopLoadBegin)
  | .grabLoadBegin outSize => some (s.consume c (.grabLoadEnd outSize s.begin_))
  | .grabLoadEnd outSize begin =>
    if s.end_ ≤ begin then some (s.consumed c (.grab outSize []))
    else some (s.consume c (.grabCopy outSize begin (min outSize (s.end_ - begin)) []))
  | .grabCopy outSize begin lim outBuffer =>
    if outBuffer.length < lim then
      let i := outBuffer.length
      some (s.consume c (.grabCopy outSize begin lim
        (outBuffer ++ [s.buffer ((begin + i) % word % capacity)])))
    else if s.begin_ = begin then
      some ((s.consumed c (.grab outSize outBuffer)).remove lim outBuffer)
    else some (s.consume c (.grabLoadBegin outSize))

def step {C : Type u} {T : Type v} [DecidableEq C] (capacity : Nat)
    (s : WorkStealingQueue C T) : QueueLabel C T → Option (WorkStealingQueue C T)
  | .tryPush item =>
    match s.producer with
    | .idle => some { s with producer := .tryPushLoadBegin item, producerSizes := [] }
    | _ => none
  | .pushMany buffer =>
    match s.producer with
    | .idle => some { s with producer := .pushManyLoadEnd buffer, producerSizes := [] }
    | _ => none
  | .producer => s.producerStep capacity
  | .tryPop c =>
    match s.consumers c with
    | .idle => some { s with
        consumers := Function.update s.consumers c .tryPopLoadBegin
        consumerSizes := Function.update s.consumerSizes c [] }
    | _ => none
  | .grab c outSize =>
    match s.consumers c with
    | .idle => some { s with
        consumers := Function.update s.consumers c (.grabLoadBegin outSize)
        consumerSizes := Function.update s.consumerSizes c [] }
    | _ => none
  | .consumer c spurious => s.consumerStep capacity c spurious

end WorkStealingQueue

/-- `slots` is what the slots happen to hold at the start. -/
def workStealingQueue (C : Type u) (T : Type v) [DecidableEq C] (capacity : Nat)
    (slots : Nat → Option T) : Machine (WorkStealingQueue C T) (QueueLabel C T) where
  init := ⟨slots, 0, 0, .idle, fun _ => .idle, [], [], [], fun _ => [], []⟩
  step := WorkStealingQueue.step capacity

/-- The items that a `PushMany` in progress is about to publish. -/
def Producer.inFlight {T : Type v} : Producer T → Nat
  | .pushManyLoadEnd buffer | .pushManyAssert buffer _ | .pushManyStore buffer _ _
  | .pushManyFetchAdd buffer => buffer.length
  | _ => 0

def Returned.Justified {T : Type v} (capacity : Nat) : Returned T → Prop
  | .tryPush pushed sizes => pushed = false → capacity ∈ sizes
  | .pushMany _ _ => True
  | .tryPop ans sizes => ans = none → 0 ∈ sizes
  | .grab outSize outBuffer sizes => 0 < outSize → outBuffer = [] → 0 ∈ sizes

/-- The slots from counter value `from_` on hold `items`, in order. -/
def Stored {T : Type v} (capacity : Nat) (buffer : Nat → Option T) (from_ : Nat)
    (items : List T) : Prop :=
  ∀ i, i < items.length → buffer ((from_ + i) % capacity) = items[i]?

def Producer.Ok {T : Type v} (capacity : Nat) (buffer : Nat → Option T) (begin_ end_ : Nat)
    (sizes : List Nat) : Producer T → Prop
  | .tryPushLoadEnd _ begin => begin ≤ begin_ ∧ (begin + capacity ≤ end_ → capacity ∈ sizes)
  | .tryPushStore _ e => e = end_ ∧ end_ < begin_ + capacity
  | .tryPushFetchAdd item =>
    end_ + 1 ≤ begin_ + capacity ∧ Stored capacity buffer end_ [item]
  | .pushManyAssert _ e => e = end_
  | .pushManyStore items rest e => ∃ done, items = done ++ rest ∧ e = end_ + done.length ∧
      end_ + items.length ≤ begin_ + capacity ∧ Stored capacity buffer end_ done
  | .pushManyFetchAdd items =>
    end_ + items.length ≤ begin_ + capacity ∧ Stored capacity buffer end_ items
  | _ => True

/-- What a consumer has read counts only if `begin_` is still what it loaded. -/
def Consumer.Ok {T : Type v} (begin_ end_ : Nat) (pushed : List T) : Consumer T → Prop
  | .idle | .tryPopLoadBegin | .grabLoadBegin _ => True
  | .tryPopLoadEnd b => b ≤ begin_
  | .tryPopLoadItem b => b ≤ begin_ ∧ b < end_
  | .tryPopExchange b ans => b ≤ begin_ ∧ b < end_ ∧ (b = begin_ → ans = pushed[b]?)
  | .grabLoadEnd _ b => b ≤ begin_
  | .grabCopy outSize b lim copied => b ≤ begin_ ∧ b + lim ≤ end_ ∧ copied.length ≤ lim ∧
      (0 < outSize → 0 < lim) ∧
      (b = begin_ → copied = ((pushed.drop b).take copied.length).map some)

namespace WorkStealingQueue

def pushes {C : Type u} {T : Type v} (s : WorkStealingQueue C T) : Nat :=
  s.pushed.length + s.producer.inFlight

structure Inv {C : Type u} {T : Type v} (capacity : Nat) (s : WorkStealingQueue C T) :
    Prop where
  ends : s.end_ = s.pushed.length
  low : s.begin_ ≤ s.end_
  high : s.end_ ≤ s.begin_ + capacity
  slots : ∀ j, s.begin_ ≤ j → j < s.end_ → s.buffer (j % capacity) = s.pushed[j]?
  producer : s.producer.Ok capacity s.buffer s.begin_ s.end_ s.producerSizes
  consumers : ∀ c, (s.consumers c).Ok s.begin_ s.end_ s.pushed
  log : ∀ e ∈ s.log, e.Justified capacity

end WorkStealingQueue

theorem mod_ne_of_lt {i j capacity : Nat} (hij : i < j) (hj : j < i + capacity) :
    i % capacity ≠ j % capacity := by
  intro h
  have hdvd : capacity ∣ j - i := (Nat.modEq_iff_dvd' hij.le).mp h
  have := Nat.le_of_dvd (by omega) hdvd
  omega

theorem Stored.append {T : Type v} {capacity from_ : Nat} {buffer : Nat → Option T}
    {items : List T} (h : Stored capacity buffer from_ items)
    (hroom : items.length < capacity) (item : T) :
    Stored capacity (Function.update buffer ((from_ + items.length) % capacity) (some item))
      from_ (items ++ [item]) := by
  intro i hi
  rcases Nat.lt_or_ge i items.length with hlt | hge
  · have hne : (from_ + i) % capacity ≠ (from_ + items.length) % capacity :=
      mod_ne_of_lt (by omega) (by omega)
    rw [Function.update_of_ne hne, List.getElem?_append_left hlt]
    exact h i hlt
  · have hi : i = items.length := by
      simp only [List.length_append, List.length_singleton] at hi
      omega
    subst hi
    simp

theorem Consumer.Ok.mono {T : Type v} {begin_ end_ begin' end' : Nat} {pushed m : List T}
    {pc : Consumer T} (h : pc.Ok begin_ end_ pushed) (hlen : end_ = pushed.length)
    (hb : begin_ ≤ begin') (he : end_ ≤ end') : pc.Ok begin' end' (pushed ++ m) := by
  cases pc with
  | tryPopLoadEnd b => exact Nat.le_trans h hb
  | tryPopLoadItem b =>
    simp only [Consumer.Ok] at h ⊢
    omega
  | tryPopExchange b ans =>
    obtain ⟨hle, hlt, hans⟩ := h
    refine ⟨by omega, by omega, fun hbe => ?_⟩
    rw [List.getElem?_append_left (by omega)]
    exact hans (by omega)
  | grabLoadEnd outSize b => exact Nat.le_trans h hb
  | grabCopy outSize b lim copied =>
    obtain ⟨hle, hlt, hcopied, hpos, hans⟩ := h
    refine ⟨by omega, by omega, hcopied, hpos, fun hbe => ?_⟩
    have hfit : copied.length ≤ (pushed.drop b).length := by
      rw [List.length_drop]
      omega
    rw [List.drop_append_of_le_length (by omega), List.take_append_of_le_length hfit]
    exact hans (by omega)
  | _ => trivial

theorem Producer.Ok.mono {T : Type v} {capacity begin_ end_ begin' : Nat}
    {buffer : Nat → Option T} {sizes : List Nat} {pc : Producer T}
    (h : pc.Ok capacity buffer begin_ end_ sizes) (hb : begin_ ≤ begin') :
    pc.Ok capacity buffer begin' end_ sizes := by
  cases pc with
  | tryPushLoadEnd item b => exact ⟨Nat.le_trans h.1 hb, h.2⟩
  | tryPushStore item e => exact ⟨h.1, by have := h.2; omega⟩
  | tryPushFetchAdd item => exact ⟨by have := h.1; omega, h.2⟩
  | pushManyStore items rest e =>
    obtain ⟨done, hitems, he, hfits, hstored⟩ := h
    exact ⟨done, hitems, he, by omega, hstored⟩
  | pushManyFetchAdd items => exact ⟨by have := h.1; omega, h.2⟩
  | _ => exact h

namespace WorkStealingQueue

/-- A store past the end, at distance less than the capacity from the front,
overwrites no slot in use. -/
theorem Inv.slots_store {C : Type u} {T : Type v} {capacity : Nat} {s : WorkStealingQueue C T}
    (hs : s.Inv capacity) {k : Nat} (hk : s.end_ + k < s.begin_ + capacity) (item : T) (j : Nat)
    (hlow : s.begin_ ≤ j) (hhigh : j < s.end_) :
    Function.update s.buffer ((s.end_ + k) % capacity) (some item) (j % capacity) =
      s.pushed[j]? := by
  have hne : j % capacity ≠ (s.end_ + k) % capacity := mod_ne_of_lt (by omega) (by omega)
  rw [Function.update_of_ne hne]
  exact hs.slots j hlow hhigh

/-- Filled slots become part of the queue by one `fetch_add`. -/
theorem Inv.slots_publish {C : Type u} {T : Type v} {capacity : Nat}
    {s : WorkStealingQueue C T} (hs : s.Inv capacity) {items : List T}
    (hstored : Stored capacity s.buffer s.end_ items) (j : Nat) (hlow : s.begin_ ≤ j)
    (hhigh : j < s.end_ + items.length) :
    s.buffer (j % capacity) = (s.pushed ++ items)[j]? := by
  have hends := hs.ends
  rcases Nat.lt_or_ge j s.end_ with hlt | hge
  · rw [List.getElem?_append_left (by omega)]
    exact hs.slots j hlow hlt
  · obtain ⟨i, rfl⟩ := Nat.exists_eq_add_of_le hge
    rw [hstored i (by omega), List.getElem?_append_right (by omega)]
    congr 1
    omega

/-- The producer moves on: only its own facts are new. -/
theorem Inv.produce {C : Type u} {T : Type v} {capacity : Nat} {s : WorkStealingQueue C T}
    (hs : s.Inv capacity) {pc : Producer T}
    (hpc : pc.Ok capacity s.buffer s.begin_ s.end_ (s.producerSizes ++ [s.size])) :
    (s.produce pc).Inv capacity :=
  { hs with producer := hpc }

theorem Inv.produced {C : Type u} {T : Type v} {capacity : Nat} {s : WorkStealingQueue C T}
    (hs : s.Inv capacity) (result : List Nat → Returned T)
    (hresult : (result (s.producerSizes ++ [s.size])).Justified capacity) :
    (s.produced result).Inv capacity := by
  refine { hs with producer := trivial, log := fun e he => ?_ }
  rcases List.mem_append.mp he with he | he
  · exact hs.log e he
  · obtain rfl := List.mem_singleton.mp he
    exact hresult

theorem Inv.publish {C : Type u} {T : Type v} {capacity : Nat} {s : WorkStealingQueue C T}
    (hs : s.Inv capacity) {items : List T} (hproducer : s.producer = .idle)
    (hfits : s.end_ + items.length ≤ s.begin_ + capacity)
    (hstored : Stored capacity s.buffer s.end_ items)
    (hword : s.end_ + items.length < word) : (s.publish items).Inv capacity := by
  have hend : (s.publish items).end_ = s.end_ + items.length := Nat.mod_eq_of_lt hword
  have hlow := hs.low
  refine ⟨?_, ?_, ?_, ?_, ?_, fun c => ?_, hs.log⟩
  · rw [hend, hs.ends]
    simp [WorkStealingQueue.publish]
  · rw [hend]
    exact Nat.le_trans hlow (Nat.le_add_right _ _)
  · rw [hend]
    exact hfits
  · rw [hend]
    exact hs.slots_publish hstored
  · have hidle : (s.publish items).producer = .idle := hproducer
    rw [hidle]
    trivial
  · rw [hend]
    exact (hs.consumers c).mono hs.ends (Nat.le_refl _) (Nat.le_add_right _ _)

theorem Inv.consume {C : Type u} {T : Type v} [DecidableEq C] {capacity : Nat}
    {s : WorkStealingQueue C T} (hs : s.Inv capacity) {c : C} {pc : Consumer T}
    (hpc : pc.Ok s.begin_ s.end_ s.pushed) : (s.consume c pc).Inv capacity := by
  refine { hs with consumers := fun d => ?_ }
  by_cases hd : d = c
  · subst hd
    simpa [WorkStealingQueue.consume] using hpc
  · simpa [WorkStealingQueue.consume, hd] using hs.consumers d

theorem Inv.consumed {C : Type u} {T : Type v} [DecidableEq C] {capacity : Nat}
    {s : WorkStealingQueue C T} (hs : s.Inv capacity) (c : C) (result : List Nat → Returned T)
    (hresult : (result (s.consumerSizes c ++ [s.size])).Justified capacity) :
    (s.consumed c result).Inv capacity := by
  refine { hs with consumers := fun d => ?_, log := fun e he => ?_ }
  · by_cases hd : d = c
    · subst hd
      simp [WorkStealingQueue.consumed, Consumer.Ok]
    · simpa [WorkStealingQueue.consumed, hd] using hs.consumers d
  · rcases List.mem_append.mp he with he | he
    · exact hs.log e he
    · obtain rfl := List.mem_singleton.mp he
      exact hresult

/-- The front moves, and with it everything that was read behind it is void. -/
theorem Inv.remove {C : Type u} {T : Type v} {capacity : Nat} {s : WorkStealingQueue C T}
    (hs : s.Inv capacity) {count : Nat} (hcount : s.begin_ + count ≤ s.end_)
    (hword : s.end_ < word) (items : List (Option T)) : (s.remove count items).Inv capacity := by
  have hbegin : (s.remove count items).begin_ = s.begin_ + count :=
    Nat.mod_eq_of_lt (by omega)
  have hhigh := hs.high
  refine ⟨hs.ends, ?_, ?_, fun j hj => ?_, ?_, fun c => ?_, hs.log⟩
  · rw [hbegin]
    exact hcount
  · rw [hbegin]
    exact Nat.le_trans hhigh (by omega)
  · rw [hbegin] at hj
    exact hs.slots j (by omega)
  · rw [hbegin]
    exact hs.producer.mono (by omega)
  · rw [hbegin]
    have hpc := (hs.consumers c).mono (m := []) hs.ends (Nat.le_add_right s.begin_ count)
      (Nat.le_refl _)
    rwa [List.append_nil] at hpc

theorem Inv.producerStep {C : Type u} {T : Type v} {capacity : Nat}
    {s t : WorkStealingQueue C T} (hs : s.Inv capacity) (hbound : t.pushes + capacity < word)
    (hle : s.pushes ≤ t.pushes) (ht : s.producerStep capacity = some t) : t.Inv capacity := by
  have hproducer := hs.producer
  have hends := hs.ends
  have hlow := hs.low
  have hhigh := hs.high
  have hpushes : s.end_ ≤ s.pushes := by
    unfold pushes
    omega
  unfold WorkStealingQueue.producerStep at ht
  cases hpc : s.producer with
  | idle => simp [hpc] at ht
  | tryPushLoadBegin item =>
    simp only [hpc, Option.some.injEq] at ht
    subst ht
    refine hs.produce ⟨Nat.le_refl _, fun hfull => ?_⟩
    have hsize : s.size = capacity := by
      unfold size
      omega
    simp [hsize]
  | tryPushLoadEnd item begin =>
    rw [hpc] at hproducer
    obtain ⟨hle', hfull⟩ := hproducer
    have hwrap : (begin + capacity) % word = begin + capacity := Nat.mod_eq_of_lt (by omega)
    simp only [hpc, hwrap] at ht
    by_cases hroom : begin + capacity ≤ s.end_
    · simp only [hroom, if_true, Option.some.injEq] at ht
      subst ht
      refine hs.produced _ fun _ => ?_
      exact List.mem_append_left _ (hfull hroom)
    · simp only [hroom, if_false, Option.some.injEq] at ht
      subst ht
      exact hs.produce ⟨rfl, by omega⟩
  | tryPushStore item e =>
    rw [hpc] at hproducer
    obtain ⟨rfl, hroom⟩ := hproducer
    simp only [hpc, Option.some.injEq] at ht
    subst ht
    have hstore := hs.slots_store (k := 0) hroom item
    have hitem : Stored capacity (Function.update s.buffer ((s.end_ + 0) % capacity)
        (some item)) s.end_ ([] ++ [item]) :=
      Stored.append (by simp [Stored]) (by simp only [List.length_nil]; omega) item
    have hfits : s.end_ + 1 ≤ s.begin_ + capacity := by omega
    exact { hs with slots := hstore, producer := ⟨hfits, hitem⟩ }
  | tryPushFetchAdd item =>
    rw [hpc] at hproducer
    simp only [hpc, Option.some.injEq] at ht
    subst ht
    have hpushed : s.pushed.length + 1 < word := by
      simp only [pushes, WorkStealingQueue.publish, WorkStealingQueue.produced,
        Producer.inFlight, List.length_append, List.length_singleton] at hbound
      omega
    exact (hs.produced _ (by simp [Returned.Justified])).publish rfl hproducer.1 hproducer.2
      (by simpa [WorkStealingQueue.produced, hends] using hpushed)
  | pushManyLoadEnd items =>
    simp only [hpc, Option.some.injEq] at ht
    subst ht
    exact hs.produce rfl
  | pushManyAssert items e =>
    rw [hpc] at hproducer
    obtain rfl : e = s.end_ := hproducer
    have hflight : s.pushes = s.end_ + items.length := by
      simp [pushes, hpc, Producer.inFlight, hends]
    have hwrap : (s.end_ + items.length) % word = s.end_ + items.length :=
      Nat.mod_eq_of_lt (by omega)
    have hwrap' : (s.begin_ + capacity) % word = s.begin_ + capacity :=
      Nat.mod_eq_of_lt (by omega)
    simp only [hpc, hwrap, hwrap', Option.ite_none_right_eq_some, Option.some.injEq] at ht
    obtain ⟨hfits, rfl⟩ := ht
    exact hs.produce ⟨[], rfl, rfl, hfits, by simp [Stored]⟩
  | pushManyStore items rest e =>
    rw [hpc] at hproducer
    obtain ⟨done, rfl, rfl, hfits, hstored⟩ := hproducer
    cases rest with
    | nil =>
      simp only [hpc, Option.some.injEq] at ht
      subst ht
      rw [List.append_nil] at hfits
      refine hs.produce ⟨?_, ?_⟩
      · rw [List.append_nil]
        exact hfits
      · rw [List.append_nil]
        exact hstored
    | cons item rest =>
      simp only [hpc, Option.some.injEq] at ht
      subst ht
      simp only [List.length_append, List.length_cons] at hfits
      have hwrap : (s.end_ + done.length + 1) % word = s.end_ + done.length + 1 :=
        Nat.mod_eq_of_lt (by omega)
      rw [hwrap]
      have hnext : s.end_ + done.length + 1 = s.end_ + (done ++ [item]).length := by
        simp [Nat.add_assoc]
      have hroom : s.end_ + (done ++ item :: rest).length ≤ s.begin_ + capacity := by
        simpa using hfits
      have hstore := hs.slots_store (k := done.length) (by omega) item
      exact { hs with
        slots := hstore
        producer := ⟨done ++ [item], by simp, hnext, hroom, hstored.append (by omega) item⟩ }
  | pushManyFetchAdd items =>
    rw [hpc] at hproducer
    simp only [hpc, Option.some.injEq] at ht
    subst ht
    have hpushed : s.pushed.length + items.length < word := by
      simp only [pushes, WorkStealingQueue.publish, WorkStealingQueue.produced,
        Producer.inFlight, List.length_append] at hbound
      omega
    exact (hs.produced _ (by trivial)).publish rfl hproducer.1 hproducer.2
      (by simpa [WorkStealingQueue.produced, hends] using hpushed)

theorem Inv.consumerStep {C : Type u} {T : Type v} [DecidableEq C] {capacity : Nat}
    {s t : WorkStealingQueue C T} (hs : s.Inv capacity) (hword : s.end_ < word) {c : C}
    {spurious : Bool} (ht : s.consumerStep capacity c spurious = some t) : t.Inv capacity := by
  have hconsumer := hs.consumers c
  have hends := hs.ends
  have hlow := hs.low
  unfold WorkStealingQueue.consumerStep at ht
  cases hpc : s.consumers c with
  | idle => simp [hpc] at ht
  | tryPopLoadBegin =>
    simp only [hpc, Option.some.injEq] at ht
    subst ht
    exact hs.consume (Nat.le_refl _)
  | tryPopLoadEnd b =>
    rw [hpc] at hconsumer
    simp only [Consumer.Ok] at hconsumer
    by_cases hempty : s.end_ = b
    · simp only [hpc, hempty, if_true, Option.some.injEq] at ht
      subst ht
      have hsize : s.size = 0 := by
        unfold size
        omega
      exact hs.consumed _ _ fun _ => by simp [hsize]
    · simp only [hpc, hempty, if_false, Option.some.injEq] at ht
      subst ht
      exact hs.consume ⟨hconsumer, by omega⟩
  | tryPopLoadItem b =>
    rw [hpc] at hconsumer
    obtain ⟨hle, hlt⟩ := hconsumer
    simp only [hpc, Option.some.injEq] at ht
    subst ht
    exact hs.consume ⟨hle, hlt, fun hb => hs.slots b (by omega) hlt⟩
  | tryPopExchange b ans =>
    rw [hpc] at hconsumer
    obtain ⟨hle, hlt, hans⟩ := hconsumer
    by_cases hsame : s.begin_ = b ∧ spurious = false
    · simp only [hpc, hsame, and_self, if_true, Option.some.injEq] at ht
      subst ht
      have hsome : ans ≠ none := by
        rw [hans hsame.1.symm, List.getElem?_eq_getElem (by omega)]
        simp
      have hinv := hs.consumed c (.tryPop ans) fun hnone => absurd hnone hsome
      have hlim : s.begin_ + 1 ≤ s.end_ := by omega
      exact hinv.remove hlim hword _
    · simp only [hpc, hsame, if_false, Option.some.injEq] at ht
      subst ht
      exact hs.consume trivial
  | grabLoadBegin outSize =>
    simp only [hpc, Option.some.injEq] at ht
    subst ht
    exact hs.consume (Nat.le_refl _)
  | grabLoadEnd outSize b =>
    rw [hpc] at hconsumer
    simp only [Consumer.Ok] at hconsumer
    by_cases hempty : s.end_ ≤ b
    · simp only [hpc, hempty, if_true, Option.some.injEq] at ht
      subst ht
      have hsize : s.size = 0 := by
        unfold size
        omega
      exact hs.consumed _ _ fun _ _ => by simp [hsize]
    · simp only [hpc, hempty, if_false, Option.some.injEq] at ht
      subst ht
      exact hs.consume ⟨hconsumer, by omega, Nat.zero_le _, fun _ => by omega, fun _ => rfl⟩
  | grabCopy outSize b lim copied =>
    rw [hpc] at hconsumer
    obtain ⟨hle, hlim, hcopied, hpos, hans⟩ := hconsumer
    by_cases hmore : copied.length < lim
    · have hwrap : (b + copied.length) % word = b + copied.length := Nat.mod_eq_of_lt (by omega)
      simp only [hpc, hmore, if_true, hwrap, Option.some.injEq] at ht
      subst ht
      have hnext : (copied ++ [s.buffer ((b + copied.length) % capacity)]).length ≤ lim := by
        simp only [List.length_append, List.length_singleton]
        omega
      refine hs.consume ⟨hle, hlim, hnext, hpos, fun hb => ?_⟩
      have hslot := hs.slots (b + copied.length) (by omega) (by omega)
      have hlen : b + copied.length < s.pushed.length := by omega
      rw [List.length_append, List.length_singleton, List.take_add_one, List.map_append,
        ← hans hb, hslot, List.getElem?_drop, List.getElem?_eq_getElem hlen]
      rfl
    · by_cases hsame : s.begin_ = b
      · simp only [hpc, hmore, hsame, if_true, if_false, Option.some.injEq] at ht
        subst ht
        have hinv := hs.consumed c (.grab outSize copied) fun hout hnil => by
          have := hpos hout
          simp only [hnil, List.length_nil] at hmore
          omega
        have hfront : s.begin_ + lim ≤ s.end_ := by omega
        exact hinv.remove hfront hword _
      · simp only [hpc, hmore, hsame, if_false, Option.some.injEq] at ht
        subst ht
        exact hs.consume trivial

theorem consumerStep_pushed {C : Type u} {T : Type v} [DecidableEq C] {capacity : Nat}
    {s t : WorkStealingQueue C T} {c : C} {spurious : Bool}
    (ht : s.consumerStep capacity c spurious = some t) :
    t.pushed = s.pushed ∧ t.producer = s.producer := by
  unfold WorkStealingQueue.consumerStep at ht
  split at ht <;> (try split at ht) <;> (try split at ht) <;>
    simp only [Option.some.injEq, reduceCtorEq] at ht <;> subst ht <;> exact ⟨rfl, rfl⟩

theorem pushes_le_of_step {C : Type u} {T : Type v} [DecidableEq C] {capacity : Nat}
    {s t : WorkStealingQueue C T} {l : QueueLabel C T} (ht : s.step capacity l = some t) :
    s.pushes ≤ t.pushes := by
  have hsame (h : t.pushed = s.pushed ∧ t.producer = s.producer) : s.pushes ≤ t.pushes := by
    rw [pushes, pushes, h.1, h.2]
  have hidle (hp : s.producer = .idle) (h : t.pushed = s.pushed) : s.pushes ≤ t.pushes := by
    simp [pushes, hp, h, Producer.inFlight]
  cases l with
  | tryPush item =>
    cases hp : s.producer <;> simp only [step, hp, Option.some.injEq, reduceCtorEq] at ht
    subst ht
    exact hidle hp rfl
  | pushMany items =>
    cases hp : s.producer <;> simp only [step, hp, Option.some.injEq, reduceCtorEq] at ht
    subst ht
    exact hidle hp rfl
  | tryPop c =>
    cases hc : s.consumers c <;> simp only [step, hc, Option.some.injEq, reduceCtorEq] at ht
    subst ht
    exact hsame ⟨rfl, rfl⟩
  | grab c outSize =>
    cases hc : s.consumers c <;> simp only [step, hc, Option.some.injEq, reduceCtorEq] at ht
    subst ht
    exact hsame ⟨rfl, rfl⟩
  | consumer c spurious => exact hsame (consumerStep_pushed ht)
  | producer =>
    simp only [step, WorkStealingQueue.producerStep] at ht
    split at ht <;> (try split at ht) <;>
      simp only [Option.some.injEq, reduceCtorEq] at ht <;> subst ht <;>
      simp_all [pushes, WorkStealingQueue.produce, WorkStealingQueue.produced,
        WorkStealingQueue.publish, store, Producer.inFlight]

theorem Inv.step {C : Type u} {T : Type v} [DecidableEq C] {capacity : Nat}
    {s t : WorkStealingQueue C T} (hs : s.Inv capacity) (hbound : t.pushes + capacity < word)
    {l : QueueLabel C T} (ht : s.step capacity l = some t) : t.Inv capacity := by
  have hle := pushes_le_of_step ht
  cases l with
  | tryPush item =>
    cases hp : s.producer <;>
      simp only [WorkStealingQueue.step, hp, Option.some.injEq, reduceCtorEq] at ht
    subst ht
    exact { hs with producer := trivial }
  | pushMany items =>
    cases hp : s.producer <;>
      simp only [WorkStealingQueue.step, hp, Option.some.injEq, reduceCtorEq] at ht
    subst ht
    exact { hs with producer := trivial }
  | producer => exact hs.producerStep hbound hle ht
  | tryPop c =>
    cases hc : s.consumers c <;>
      simp only [WorkStealingQueue.step, hc, Option.some.injEq, reduceCtorEq] at ht
    subst ht
    have hcall : (s.consume c .tryPopLoadBegin).Inv capacity := hs.consume trivial
    exact { hs with consumers := hcall.consumers }
  | grab c outSize =>
    cases hc : s.consumers c <;>
      simp only [WorkStealingQueue.step, hc, Option.some.injEq, reduceCtorEq] at ht
    subst ht
    have hcall : (s.consume c (.grabLoadBegin outSize)).Inv capacity := hs.consume trivial
    exact { hs with consumers := hcall.consumers }
  | consumer c spurious =>
    have hends := hs.ends
    unfold pushes at hle hbound
    exact hs.consumerStep (by omega) ht

/-- The queue that the ring implements. -/
def fifo {C : Type u} {T : Type v} (s : WorkStealingQueue C T) : BoundedFifo (Option T) :=
  ⟨s.pushed.map some, s.removed, (s.pushed.drop s.begin_).map some⟩

/-- Items enter by the `fetch_add` and leave by the compare-exchange. -/
def fifoAct {C : Type u} {T : Type v} (s : WorkStealingQueue C T) :
    QueueLabel C T → List (FifoLabel (Option T))
  | .producer =>
    match s.producer with
    | .tryPushFetchAdd item => [.push [some item]]
    | .pushManyFetchAdd buffer => [.push (buffer.map some)]
    | _ => []
  | .consumer c spurious =>
    match s.consumers c with
    | .tryPopExchange begin _ => if s.begin_ = begin ∧ spurious = false then [.pop 1] else []
    | .grabCopy _ begin lim outBuffer =>
      if outBuffer.length < lim then [] else if s.begin_ = begin then [.pop lim] else []
    | _ => []
  | _ => []

theorem Inv.fifo_publish {C : Type u} {T : Type v} {capacity : Nat}
    {s : WorkStealingQueue C T} (hs : s.Inv capacity) {items : List T}
    (hfits : s.end_ + items.length ≤ s.begin_ + capacity) :
    (boundedFifo (Option T) capacity).exec s.fifo [.push (items.map some)] =
      some (s.publish items).fifo := by
  have hends := hs.ends
  have hlow := hs.low
  have hroom : s.pushed.length - s.begin_ + items.length ≤ capacity := by omega
  have hdrop : (s.pushed ++ items).drop s.begin_ = s.pushed.drop s.begin_ ++ items :=
    List.drop_append_of_le_length (by omega)
  simp [boundedFifo, BoundedFifo.step, fifo, WorkStealingQueue.publish, hroom, hdrop]

theorem Inv.fifo_remove {C : Type u} {T : Type v} {capacity : Nat}
    {s : WorkStealingQueue C T} (hs : s.Inv capacity) {count : Nat}
    (hcount : s.begin_ + count ≤ s.end_) (hword : s.end_ < word) :
    (boundedFifo (Option T) capacity).exec s.fifo [.pop count] =
      some (s.remove count (((s.pushed.drop s.begin_).take count).map some)).fifo := by
  have hends := hs.ends
  have hwrap : (s.begin_ + count) % word = s.begin_ + count := Nat.mod_eq_of_lt (by omega)
  have hroom : count ≤ s.pushed.length - s.begin_ := by omega
  simp [boundedFifo, BoundedFifo.step, fifo, WorkStealingQueue.remove, hwrap, hroom]

theorem Inv.fifo_producer {C : Type u} {T : Type v} {capacity : Nat}
    {s t : WorkStealingQueue C T} (hs : s.Inv capacity)
    (ht : s.producerStep capacity = some t) :
    (boundedFifo (Option T) capacity).exec s.fifo (s.fifoAct .producer) = some t.fifo := by
  have hproducer := hs.producer
  unfold WorkStealingQueue.producerStep at ht
  cases hpc : s.producer with
  | tryPushFetchAdd item =>
    rw [hpc] at hproducer
    simp only [hpc, Option.some.injEq] at ht
    subst ht
    have hact : s.fifoAct .producer = [.push ([item].map some)] := by simp [fifoAct, hpc]
    rw [hact]
    exact hs.fifo_publish hproducer.1
  | pushManyFetchAdd items =>
    rw [hpc] at hproducer
    simp only [hpc, Option.some.injEq] at ht
    subst ht
    have hact : s.fifoAct .producer = [.push (items.map some)] := by simp [fifoAct, hpc]
    rw [hact]
    exact hs.fifo_publish hproducer.1
  | pushManyStore items rest e =>
    have hact : s.fifoAct .producer = [] := by simp [fifoAct, hpc]
    rw [hact]
    cases rest with
    | nil =>
      simp only [hpc, Option.some.injEq] at ht
      subst ht
      rfl
    | cons item rest =>
      simp only [hpc, Option.some.injEq] at ht
      subst ht
      rfl
  | idle => simp [hpc] at ht
  | _ =>
    have hact : s.fifoAct .producer = [] := by simp [fifoAct, hpc]
    rw [hact]
    simp only [hpc] at ht
    (try split at ht) <;> simp only [Option.some.injEq, reduceCtorEq] at ht <;> subst ht <;> rfl

theorem Inv.fifo_consumer {C : Type u} {T : Type v} [DecidableEq C] {capacity : Nat}
    {s t : WorkStealingQueue C T} (hs : s.Inv capacity) (hword : s.end_ < word) {c : C}
    {spurious : Bool} (ht : s.consumerStep capacity c spurious = some t) :
    (boundedFifo (Option T) capacity).exec s.fifo (s.fifoAct (.consumer c spurious)) =
      some t.fifo := by
  have hconsumer := hs.consumers c
  have hends := hs.ends
  unfold WorkStealingQueue.consumerStep at ht
  cases hpc : s.consumers c with
  | idle => simp [hpc] at ht
  | tryPopExchange b ans =>
    rw [hpc] at hconsumer
    obtain ⟨-, hlt, hans⟩ := hconsumer
    by_cases hsame : s.begin_ = b ∧ spurious = false
    · simp only [hpc, hsame, and_self, if_true, Option.some.injEq] at ht
      subst ht
      have hact : s.fifoAct (.consumer c spurious) = [.pop 1] := by simp [fifoAct, hpc, hsame]
      have hitem : [ans] = ((s.pushed.drop s.begin_).take 1).map some := by
        have hlen : b < s.pushed.length := by omega
        rw [hsame.1, hans hsame.1.symm, List.take_one, List.head?_drop,
          List.getElem?_eq_getElem hlen]
        rfl
      rw [hact, hitem]
      exact hs.fifo_remove (by omega) hword
    · simp only [hpc, hsame, if_false, Option.some.injEq] at ht
      subst ht
      have hact : s.fifoAct (.consumer c spurious) = [] := by simp [fifoAct, hpc, hsame]
      rw [hact]
      rfl
  | grabCopy outSize b lim copied =>
    rw [hpc] at hconsumer
    obtain ⟨-, hlim, hcopied, -, hans⟩ := hconsumer
    by_cases hmore : copied.length < lim
    · simp only [hpc, hmore, if_true, Option.some.injEq] at ht
      subst ht
      have hact : s.fifoAct (.consumer c spurious) = [] := by simp [fifoAct, hpc, hmore]
      rw [hact]
      rfl
    · by_cases hsame : s.begin_ = b
      · simp only [hpc, hmore, hsame, if_true, if_false, Option.some.injEq] at ht
        subst ht
        have hact : s.fifoAct (.consumer c spurious) = [.pop lim] := by
          simp [fifoAct, hpc, hmore, hsame]
        have hlen : copied.length = lim := by omega
        have hitems := hans hsame.symm
        rw [hlen, ← hsame] at hitems
        rw [hact, hitems]
        exact hs.fifo_remove (by omega) hword
      · simp only [hpc, hmore, hsame, if_false, Option.some.injEq] at ht
        subst ht
        have hact : s.fifoAct (.consumer c spurious) = [] := by
          simp [fifoAct, hpc, hmore, hsame]
        rw [hact]
        rfl
  | _ =>
    have hact : s.fifoAct (.consumer c spurious) = [] := by simp [fifoAct, hpc]
    rw [hact]
    simp only [hpc] at ht
    (try split at ht) <;> simp only [Option.some.injEq] at ht <;> subst ht <;> rfl

end WorkStealingQueue

/-- The runs in which fewer than `2^64 - capacity` items are pushed. -/
def boundedQueue (C : Type u) (T : Type v) [DecidableEq C] (capacity : Nat)
    (slots : Nat → Option T) : Machine (WorkStealingQueue C T) (QueueLabel C T) :=
  (workStealingQueue C T capacity slots).guard fun s l =>
    (s.step capacity l).any fun t => t.pushes < word - capacity

theorem boundedQueue_step {C : Type u} {T : Type v} [DecidableEq C] {capacity : Nat}
    {slots : Nat → Option T} {s t : WorkStealingQueue C T} {l : QueueLabel C T}
    (ht : (boundedQueue C T capacity slots).step s l = some t) :
    t.pushes + capacity < word ∧ s.step capacity l = some t := by
  obtain ⟨hok, hstep⟩ := Machine.guard_step.mp ht
  have hstep : s.step capacity l = some t := hstep
  simp only [hstep, Option.any_some, decide_eq_true_eq] at hok
  exact ⟨by omega, hstep⟩

theorem WorkStealingQueue.inv {C : Type u} {T : Type v} [DecidableEq C] {capacity : Nat}
    {slots : Nat → Option T} {s : WorkStealingQueue C T}
    (h : (boundedQueue C T capacity slots).Reachable s) : s.Inv capacity := by
  apply h.invariant
  · exact ⟨rfl, Nat.le_refl _, Nat.zero_le _, fun j _ hj => absurd hj (Nat.not_lt_zero j),
      trivial, fun _ => trivial, by simp [boundedQueue, workStealingQueue]⟩
  · intro s l t _ hs ht
    obtain ⟨hbound, hstep⟩ := boundedQueue_step ht
    exact hs.step hbound hstep

/-- The ring implements the bounded queue. -/
def boundedQueueRefinement (C : Type u) (T : Type v) [DecidableEq C] (capacity : Nat)
    (slots : Nat → Option T) :
    (boundedQueue C T capacity slots).Refinement (boundedFifo (Option T) capacity) where
  f := WorkStealingQueue.fifo
  act := WorkStealingQueue.fifoAct
  init := rfl
  step s l t hs ht := by
    have hs := WorkStealingQueue.inv hs
    obtain ⟨hbound, hstep⟩ := boundedQueue_step ht
    have hle := WorkStealingQueue.pushes_le_of_step hstep
    have hends := hs.ends
    unfold WorkStealingQueue.pushes at hle hbound
    cases l with
    | producer => exact hs.fifo_producer hstep
    | consumer c spurious => exact hs.fifo_consumer (by omega) hstep
    | tryPush item =>
      cases hp : s.producer <;>
        simp only [WorkStealingQueue.step, hp, Option.some.injEq, reduceCtorEq] at hstep
      subst hstep
      rfl
    | pushMany items =>
      cases hp : s.producer <;>
        simp only [WorkStealingQueue.step, hp, Option.some.injEq, reduceCtorEq] at hstep
      subst hstep
      rfl
    | tryPop c =>
      cases hc : s.consumers c <;>
        simp only [WorkStealingQueue.step, hc, Option.some.injEq, reduceCtorEq] at hstep
      subst hstep
      rfl
    | grab c outSize =>
      cases hc : s.consumers c <;>
        simp only [WorkStealingQueue.step, hc, Option.some.injEq, reduceCtorEq] at hstep
      subst hstep
      rfl

/-- The counters stay in range, what was removed is what was pushed first, in
push order, and an empty-handed or refused call met an empty or full queue. -/
theorem workStealingQueue_fifo {C : Type u} {T : Type v} [DecidableEq C] {capacity : Nat}
    {slots : Nat → Option T} {s : WorkStealingQueue C T}
    (h : (workStealingQueue C T capacity slots).Reachable s)
    (hbound : s.pushes < word - capacity) :
    (s.begin_ ≤ s.end_ ∧ s.end_ ≤ s.begin_ + capacity ∧ s.end_ = s.pushed.length) ∧
    s.removed = (s.pushed.take s.begin_).map some ∧
    ∀ e ∈ s.log, e.Justified capacity := by
  have h : (boundedQueue C T capacity slots).Reachable s :=
    h.guard_of_mono (fun _ _ _ => WorkStealingQueue.pushes_le_of_step) hbound
  have hs := WorkStealingQueue.inv h
  refine ⟨⟨hs.low, hs.high, hs.ends⟩, ?_, hs.log⟩
  have hconserved : s.pushed.map some = s.removed ++ (s.pushed.drop s.begin_).map some :=
    BoundedFifo.conserved ((boundedQueueRefinement C T capacity slots).reachable h)
  have hsplit : s.pushed.map some =
      (s.pushed.take s.begin_).map some ++ (s.pushed.drop s.begin_).map some := by
    rw [← List.map_append, List.take_append_drop]
  exact List.append_cancel_right (hconserved.symm.trans hsplit)

/-- A consumer that read the front of a full ring loses it to another one, the
slot is overwritten, and the late compare-exchange fails. -/
theorem workStealingQueue_fifo_overwritten :
    ∃ s, (workStealingQueue (Fin 2) Nat 1 fun _ => none).Reachable s ∧
      s.removed = [some 7, some 8] ∧ s.removed = (s.pushed.take s.begin_).map some := by
  have h : (workStealingQueue (Fin 2) Nat 1 fun _ => none).Reachable _ :=
    Machine.reachable_of_exec
      (List.flatten [.tryPush 7 :: List.replicate 4 .producer,
        .tryPop 0 :: List.replicate 3 (.consumer 0 false),
        .grab 1 4 :: List.replicate 4 (.consumer 1 false), .tryPush 8 :: List.replicate 4 .producer,
        List.replicate 5 (.consumer 0 false)]) rfl
  exact ⟨_, h, rfl, (workStealingQueue_fifo h (by decide)).2.1⟩

end ConcurrentProgramming.Fast
