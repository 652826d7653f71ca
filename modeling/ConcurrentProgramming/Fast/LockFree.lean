import ConcurrentProgramming.Fast.WorkStealingQueue
import ConcurrentProgramming.Interleaving.Tally

/-!
`WorkStealingQueue` is lock-free: a compare-exchange fails only because another call
has succeeded, so every call pays for one more attempt of everybody else.
-/

set_option autoImplicit false

namespace ConcurrentProgramming.Fast
open Interleaving

universe u v

/-- The slots of the span that a call of `Grab` comes with. -/
def QueueLabel.span {C : Type u} {T : Type v} : QueueLabel C T → Nat
  | .grab _ outSize => outSize
  | _ => 0

def Consumer.span {T : Type v} : Consumer T → Nat
  | .grabLoadBegin outSize | .grabLoadEnd outSize _ | .grabCopy outSize _ _ _ => outSize
  | _ => 0

/-- What `begin_` was when the call loaded it. -/
def Consumer.loaded {T : Type v} : Consumer T → Option Nat
  | .tryPopLoadEnd begin | .tryPopLoadItem begin | .tryPopExchange begin _
  | .grabLoadEnd _ begin | .grabCopy _ begin _ _ => some begin
  | .idle | .tryPopLoadBegin | .grabLoadBegin _ => none

/-- An attempt of a call that takes at most `span` items, and one step. -/
def attempt (span : Nat) : Nat := span + 4

/-- The steps to the end of the attempt. -/
def Consumer.ahead {T : Type v} : Consumer T → Nat
  | .idle => 0
  | .tryPopLoadBegin => 4
  | .tryPopLoadEnd _ => 3
  | .tryPopLoadItem _ => 2
  | .tryPopExchange _ _ => 1
  | .grabLoadBegin outSize => outSize + 3
  | .grabLoadEnd outSize _ => outSize + 2
  | .grabCopy _ _ lim outBuffer => lim - outBuffer.length + 1

def Producer.ahead {T : Type v} : Producer T → Nat
  | .idle => 0
  | .tryPushLoadBegin _ => 4
  | .tryPushLoadEnd _ _ => 3
  | .tryPushStore _ _ => 2
  | .tryPushFetchAdd _ => 1
  | .pushManyLoadEnd buffer => buffer.length + 4
  | .pushManyAssert buffer _ => buffer.length + 3
  | .pushManyStore _ rest _ => rest.length + 2
  | .pushManyFetchAdd _ => 1

def Consumer.inCall {T : Type v} : Consumer T → Bool
  | .idle => false
  | _ => true

/-- A call in progress has `credit` to spend when it succeeds, and one that has missed
a change of `begin_` has another attempt before it. -/
def Consumer.weight {T : Type v} (credit span begin_ : Nat) (pc : Consumer T) : Nat :=
  pc.ahead + (if pc.inCall then credit else 0) +
    if pc.loaded.any (· ≠ begin_) then attempt span else 0

namespace WorkStealingQueue

def weight {C : Type u} {T : Type v} [Fintype C] (span : Nat) (s : WorkStealingQueue C T) : Nat :=
  s.producer.ahead +
    tally Finset.univ (Consumer.weight (Fintype.card C * attempt span) span s.begin_) s.consumers

end WorkStealingQueue

/-- What the steps of a run are paid with: by each call, and by a compare-exchange that
fails for no reason. -/
def QueueLabel.cost {C : Type u} {T : Type v} [Fintype C] (span : Nat) : QueueLabel C T → Nat
  | .tryPush _ => 5
  | .pushMany buffer => buffer.length + 5
  | .producer => 0
  | .tryPop _ | .grab _ _ => (Fintype.card C + 1) * attempt span + 1
  | .consumer _ spurious => if spurious then attempt span else 0

/-- A change of `begin_` costs a call at most another attempt. -/
theorem Consumer.weight_le {T : Type v} (credit span begin_ begin' : Nat) (pc : Consumer T) :
    pc.weight credit span begin' ≤ pc.weight credit span begin_ + attempt span := by
  simp only [Consumer.weight]
  split <;> split <;> omega

namespace WorkStealingQueue

/-- The spans of the calls in progress. -/
def Spans {C : Type u} {T : Type v} (span : Nat) (s : WorkStealingQueue C T) : Prop :=
  ∀ c, (s.consumers c).span ≤ span

variable {C : Type u} {T : Type v} {span : Nat}

/-- A call keeps the span that it came with. -/
theorem Spans.consumerStep [DecidableEq C] {capacity : Nat} {s t : WorkStealingQueue C T} {c : C}
    {spurious : Bool} (hs : s.Spans span) (ht : s.consumerStep capacity c spurious = some t) :
    t.Spans span := by
  have hspan := hs c
  have hgoto {pc : Consumer T} (hpc : pc.span ≤ (s.consumers c).span)
      (h : t.consumers = Function.update s.consumers c pc) : t.Spans span := by
    intro d
    rw [h]
    by_cases hd : d = c
    · rw [hd, Function.update_self]
      omega
    · rw [Function.update_of_ne hd]
      exact hs d
  unfold WorkStealingQueue.consumerStep at ht
  cases hpc : s.consumers c with
  | idle => simp [hpc] at ht
  | tryPopLoadBegin | tryPopLoadItem b | grabLoadBegin outSize =>
    simp only [hpc, Option.some.injEq] at ht
    subst ht
    exact hgoto (by rw [hpc]; exact Nat.le_refl _) rfl
  | tryPopLoadEnd b | tryPopExchange b ans =>
    simp only [hpc] at ht
    split at ht <;> simp only [Option.some.injEq] at ht <;> subst ht <;>
      exact hgoto (Nat.zero_le _) rfl
  | grabLoadEnd outSize b =>
    simp only [hpc] at ht
    split at ht <;> simp only [Option.some.injEq] at ht <;> subst ht
    · exact hgoto (Nat.zero_le _) rfl
    · exact hgoto (by rw [hpc]; exact Nat.le_refl _) rfl
  | grabCopy outSize b lim copied =>
    simp only [hpc] at ht
    split at ht
    · simp only [Option.some.injEq] at ht
      subst ht
      exact hgoto (by rw [hpc]; exact Nat.le_refl _) rfl
    · split at ht <;> simp only [Option.some.injEq] at ht <;> subst ht
      · exact hgoto (Nat.zero_le _) rfl
      · exact hgoto (by rw [hpc]; exact Nat.le_refl _) rfl

variable [Fintype C]

theorem weight_goto [DecidableEq C] {s t : WorkStealingQueue C T} {c : C} {pc : Consumer T}
    {extra : Nat} (hproducer : t.producer = s.producer) (hbegin : t.begin_ = s.begin_)
    (hconsumers : t.consumers = Function.update s.consumers c pc)
    (h : pc.weight (Fintype.card C * attempt span) span s.begin_ <
      (s.consumers c).weight (Fintype.card C * attempt span) span s.begin_ + extra) :
    t.weight span < s.weight span + extra := by
  have htally := tally_update
    (Consumer.weight (Fintype.card C * attempt span) span s.begin_) s.consumers
    (Finset.mem_univ c) pc
  simp only [weight, hproducer, hbegin, hconsumers]
  omega

/-- A success is paid for by the call that has it. -/
theorem weight_remove [DecidableEq C] {s : WorkStealingQueue C T} {c : C}
    (hcall : Fintype.card C * attempt span <
      (s.consumers c).weight (Fintype.card C * attempt span) span s.begin_)
    (result : List Nat → Returned T) (count : Nat) (items : List (Option T)) :
    ((s.consumed c result).remove count items).weight span < s.weight span := by
  have htally := tally_update
    (Consumer.weight (Fintype.card C * attempt span) span s.begin_) s.consumers
    (Finset.mem_univ c) .idle
  have hidle : (Consumer.idle : Consumer T).weight (Fintype.card C * attempt span) span
      s.begin_ = 0 := rfl
  have hothers := tally_le_add (s := Finset.univ)
    (p := Function.update s.consumers c .idle) (q := Function.update s.consumers c .idle)
    fun d _ => Consumer.weight_le (Fintype.card C * attempt span) span s.begin_
      ((s.begin_ + count) % word) (Function.update s.consumers c .idle d)
  rw [Finset.card_univ] at hothers
  simp only [weight, remove, consumed]
  omega

/-- A call that has returned weighs nothing. -/
theorem weight_consumed [DecidableEq C] {s : WorkStealingQueue C T} {c : C}
    (hahead : 0 < (s.consumers c).ahead) (result : List Nat → Returned T) :
    (s.consumed c result).weight span < s.weight span := by
  rw [← Nat.add_zero (s.weight span)]
  refine weight_goto rfl rfl rfl ?_
  show 0 < _
  simp only [Consumer.weight]
  omega

/-- Within an attempt only the way to its end counts. -/
theorem weight_consume [DecidableEq C] {s : WorkStealingQueue C T} {c : C} {pc : Consumer T}
    (hcall : (s.consumers c).inCall = true) (hloaded : pc.loaded = (s.consumers c).loaded)
    (hahead : pc.ahead < (s.consumers c).ahead) :
    (s.consume c pc).weight span < s.weight span := by
  rw [← Nat.add_zero (s.weight span)]
  refine weight_goto rfl rfl rfl ?_
  simp only [Consumer.weight, hloaded, hcall, if_true]
  split <;> split <;> omega

/-- An attempt begins with a load of `begin_`. -/
theorem weight_load [DecidableEq C] {s : WorkStealingQueue C T} {c : C} {pc : Consumer T}
    (hcall : (s.consumers c).inCall = true) (hloaded : pc.loaded = some s.begin_)
    (hahead : pc.ahead < (s.consumers c).ahead) :
    (s.consume c pc).weight span < s.weight span := by
  rw [← Nat.add_zero (s.weight span)]
  refine weight_goto rfl rfl rfl ?_
  simp only [Consumer.weight, hloaded, hcall, if_true, Option.any_some, ne_eq, not_true,
    decide_false, Bool.false_eq_true, if_false]
  split <;> omega

/-- An attempt that has failed is paid for by who changed `begin_`, or by the label. -/
theorem weight_retry [DecidableEq C] {s : WorkStealingQueue C T} {c : C} {pc : Consumer T}
    {begin extra : Nat} (hcall : (s.consumers c).inCall = true)
    (hbefore : (s.consumers c).loaded = some begin) (hloaded : pc.loaded = none)
    (hahead : pc.ahead < (s.consumers c).ahead + attempt span)
    (hpaid : s.begin_ = begin → extra = attempt span) :
    (s.consume c pc).weight span < s.weight span + extra := by
  refine weight_goto rfl rfl rfl ?_
  by_cases hb : s.begin_ = begin
  · simp only [Consumer.weight, hloaded, hcall, if_true, Option.any_none, Bool.false_eq_true,
      if_false]
    have := hpaid hb
    split <;> omega
  · have hstale : (s.consumers c).loaded.any (· ≠ s.begin_) = true := by
      simpa [hbefore] using Ne.symm hb
    simp only [Consumer.weight, hloaded, hcall, hstale, if_true, Option.any_none,
      Bool.false_eq_true, if_false]
    split <;> omega

theorem weight_consumerStep [DecidableEq C] {capacity : Nat} {s t : WorkStealingQueue C T} {c : C}
    {spurious : Bool} (hs : s.Spans span) (ht : s.consumerStep capacity c spurious = some t) :
    t.weight span < s.weight span + if spurious then attempt span else 0 := by
  have hspan := hs c
  have hfree (h : t.weight span < s.weight span) :
      t.weight span < s.weight span + if spurious then attempt span else 0 :=
    Nat.lt_add_right _ h
  unfold consumerStep at ht
  cases hpc : s.consumers c with
  | idle => simp [hpc] at ht
  | tryPopLoadBegin =>
    simp only [hpc, Option.some.injEq] at ht
    subst ht
    exact hfree (weight_load (by rw [hpc]; rfl) rfl (by rw [hpc]; exact Nat.lt_succ_self _))
  | tryPopLoadEnd b =>
    simp only [hpc] at ht
    split at ht <;> simp only [Option.some.injEq] at ht <;> subst ht
    · exact hfree (weight_consumed (by rw [hpc]; exact Nat.succ_pos _) _)
    · exact hfree (weight_consume (by rw [hpc]; rfl) (by rw [hpc]; rfl)
      (by rw [hpc]; exact Nat.lt_succ_self _))
  | tryPopLoadItem b =>
    simp only [hpc, Option.some.injEq] at ht
    subst ht
    exact hfree (weight_consume (by rw [hpc]; rfl) (by rw [hpc]; rfl)
      (by rw [hpc]; exact Nat.lt_succ_self _))
  | tryPopExchange b ans =>
    simp only [hpc] at ht
    split at ht <;> simp only [Option.some.injEq] at ht <;> subst ht
    · refine hfree (weight_remove ?_ _ _ _)
      simp only [hpc, Consumer.weight, Consumer.ahead, Consumer.inCall, if_true]
      omega
    · rename_i hfails
      refine weight_retry (by rw [hpc]; rfl) (by rw [hpc]; rfl) rfl ?_ fun hb => ?_
      · rw [hpc]
        simp only [Consumer.ahead, attempt]
        omega
      · have hspurious : spurious = true := by
          cases spurious with
          | true => rfl
          | false => exact (hfails ⟨hb, rfl⟩).elim
        rw [if_pos hspurious]
  | grabLoadBegin outSize =>
    simp only [hpc, Option.some.injEq] at ht
    subst ht
    exact hfree (weight_load (by rw [hpc]; rfl) rfl (by rw [hpc]; exact Nat.lt_succ_self _))
  | grabLoadEnd outSize b =>
    simp only [hpc] at ht
    split at ht <;> simp only [Option.some.injEq] at ht <;> subst ht
    · exact hfree (weight_consumed (by rw [hpc]; exact Nat.succ_pos _) _)
    · refine hfree (weight_consume (by rw [hpc]; rfl) (by rw [hpc]; rfl) ?_)
      rw [hpc]
      simp only [Consumer.ahead, List.length_nil]
      omega
  | grabCopy outSize b lim copied =>
    rw [hpc] at hspan
    simp only [hpc] at ht
    by_cases hmore : copied.length < lim
    · simp only [hmore, if_true, Option.some.injEq] at ht
      subst ht
      refine hfree (weight_consume (by rw [hpc]; rfl) (by rw [hpc]; rfl) ?_)
      rw [hpc]
      simp only [Consumer.ahead, List.length_append, List.length_singleton]
      omega
    · simp only [hmore, if_false] at ht
      split at ht <;> simp only [Option.some.injEq] at ht <;> subst ht
      · refine hfree (weight_remove ?_ _ _ _)
        simp only [hpc, Consumer.weight, Consumer.ahead, Consumer.inCall, if_true]
        omega
      · rename_i hfails
        refine weight_retry (by rw [hpc]; rfl) (by rw [hpc]; rfl) rfl ?_ fun hb =>
          (hfails hb).elim
        rw [hpc]
        simp only [Consumer.span] at hspan
        simp only [Consumer.ahead, attempt]
        omega

theorem weight_producerStep {capacity : Nat} {s t : WorkStealingQueue C T}
    (ht : s.producerStep capacity = some t) : t.weight span < s.weight span := by
  have hless (h : t.producer.ahead < s.producer.ahead) (hbegin : t.begin_ = s.begin_)
      (hconsumers : t.consumers = s.consumers) : t.weight span < s.weight span := by
    simp only [weight, hbegin, hconsumers]
    omega
  unfold producerStep at ht
  cases hpc : s.producer with
  | idle => simp [hpc] at ht
  | tryPushLoadEnd item b =>
    simp only [hpc] at ht
    split at ht <;> simp only [Option.some.injEq] at ht <;> subst ht
    · exact hless (by rw [hpc]; exact Nat.succ_pos _) rfl rfl
    · exact hless (by rw [hpc]; exact Nat.lt_succ_self _) rfl rfl
  | pushManyAssert buffer e =>
    simp only [hpc, Option.ite_none_right_eq_some, Option.some.injEq] at ht
    obtain ⟨-, rfl⟩ := ht
    exact hless (by rw [hpc]; exact Nat.lt_succ_self _) rfl rfl
  | pushManyStore buffer rest e =>
    cases rest with
    | nil =>
      simp only [hpc, Option.some.injEq] at ht
      subst ht
      exact hless (by rw [hpc]; exact Nat.lt_succ_self _) rfl rfl
    | cons item rest =>
      simp only [hpc, Option.some.injEq] at ht
      subst ht
      exact hless (by rw [hpc]; exact Nat.lt_succ_self _) rfl rfl
  | tryPushLoadBegin _ | tryPushStore _ _ | tryPushFetchAdd _ | pushManyLoadEnd _
  | pushManyFetchAdd _ =>
    simp only [hpc, Option.some.injEq] at ht
    subst ht
    exact hless (by rw [hpc]; exact Nat.lt_succ_self _) rfl rfl

/-- Every step is paid for. -/
theorem Spans.step [DecidableEq C] {capacity : Nat} {s t : WorkStealingQueue C T}
    {l : QueueLabel C T} (hl : l.span ≤ span) (hs : s.Spans span)
    (ht : s.step capacity l = some t) :
    t.Spans span ∧ t.weight span < s.weight span + l.cost span := by
  have hcall {c : C} {pc : Consumer T} (hc : s.consumers c = .idle) (hpc : pc.inCall = true)
      (hloaded : pc.loaded = none) (hspan : pc.span ≤ span) (hahead : pc.ahead ≤ attempt span)
      (hproducer : t.producer = s.producer) (hbegin : t.begin_ = s.begin_)
      (hconsumers : t.consumers = Function.update s.consumers c pc) :
      t.Spans span ∧
        t.weight span < s.weight span + ((Fintype.card C + 1) * attempt span + 1) := by
    refine ⟨fun d => ?_, weight_goto hproducer hbegin hconsumers ?_⟩
    · rw [hconsumers]
      by_cases hd : d = c
      · rw [hd, Function.update_self]
        exact hspan
      · rw [Function.update_of_ne hd]
        exact hs d
    · simp only [Consumer.weight, hpc, hloaded, Option.any_none, if_true, Bool.false_eq_true,
        if_false, Nat.add_mul]
      omega
  cases l with
  | tryPush item =>
    cases hp : s.producer <;>
      simp only [WorkStealingQueue.step, hp, Option.some.injEq, reduceCtorEq] at ht
    subst ht
    refine ⟨hs, ?_⟩
    simp only [weight, hp, Producer.ahead, QueueLabel.cost]
    omega
  | pushMany buffer =>
    cases hp : s.producer <;>
      simp only [WorkStealingQueue.step, hp, Option.some.injEq, reduceCtorEq] at ht
    subst ht
    refine ⟨hs, ?_⟩
    simp only [weight, hp, Producer.ahead, QueueLabel.cost]
    omega
  | producer =>
    have hconsumers : t.consumers = s.consumers := by
      have ht : s.producerStep capacity = some t := ht
      unfold producerStep at ht
      split at ht <;> (try split at ht) <;>
        simp only [Option.some.injEq, reduceCtorEq] at ht <;> subst ht <;> rfl
    exact ⟨fun d => hconsumers ▸ hs d, weight_producerStep ht⟩
  | tryPop c =>
    cases hc : s.consumers c <;>
      simp only [WorkStealingQueue.step, hc, Option.some.injEq, reduceCtorEq] at ht
    subst ht
    have hahead : (Consumer.tryPopLoadBegin : Consumer T).ahead ≤ attempt span :=
      Nat.le_add_left 4 span
    exact hcall hc rfl rfl (Nat.zero_le _) hahead rfl rfl rfl
  | grab c outSize =>
    cases hc : s.consumers c <;>
      simp only [WorkStealingQueue.step, hc, Option.some.injEq, reduceCtorEq] at ht
    subst ht
    have hspan : (Consumer.grabLoadBegin outSize : Consumer T).span ≤ span := hl
    have hahead : (Consumer.grabLoadBegin outSize : Consumer T).ahead ≤ attempt span :=
      Nat.add_le_add hspan (by decide)
    exact hcall hc rfl rfl hspan hahead rfl rfl rfl
  | consumer c spurious => exact ⟨hs.consumerStep ht, weight_consumerStep hs ht⟩

end WorkStealingQueue

theorem consumerStep_isSome {C : Type u} {T : Type v} [DecidableEq C] {capacity : Nat}
    {s : WorkStealingQueue C T} {c : C} (hc : s.consumers c ≠ .idle) (spurious : Bool) :
    (s.consumerStep capacity c spurious).isSome := by
  unfold WorkStealingQueue.consumerStep
  cases hpc : s.consumers c with
  | idle => exact (hc hpc).elim
  | tryPopLoadBegin | tryPopLoadItem b | grabLoadBegin outSize => rfl
  | tryPopLoadEnd b | tryPopExchange b ans | grabLoadEnd outSize b =>
    dsimp only
    split <;> rfl
  | grabCopy outSize b lim copied =>
    dsimp only
    split
    · rfl
    · split <;> rfl

theorem producerStep_isSome {C : Type u} {T : Type v} {capacity : Nat}
    {s : WorkStealingQueue C T} (hp : s.producer ≠ .idle)
    (hassert : ∀ buffer e, s.producer ≠ .pushManyAssert buffer e) :
    (s.producerStep capacity).isSome := by
  unfold WorkStealingQueue.producerStep
  cases hpc : s.producer with
  | idle => exact (hp hpc).elim
  | pushManyAssert buffer e => exact (hassert buffer e hpc).elim
  | pushManyStore buffer rest e => cases rest <;> rfl
  | tryPushLoadEnd item b =>
    dsimp only
    split <;> rfl
  | tryPushLoadBegin _ | tryPushStore _ _ | tryPushFetchAdd _ | pushManyLoadEnd _
  | pushManyFetchAdd _ => rfl

/-- The ring is lock-free: whoever is inside a call can go on at any time, up to the
assertion of `PushMany`, and a run whose calls of `Grab` come with at most `span` slots
is over when its calls, and the exchanges that fail for no reason, are used up. -/
theorem workStealingQueue_lockFree {C : Type u} {T : Type v} [Fintype C] [DecidableEq C]
    {capacity span : Nat} {slots : Nat → Option T} {ls : List (QueueLabel C T)}
    {s : WorkStealingQueue C T} (hspans : ∀ l ∈ ls, l.span ≤ span)
    (hrun : (workStealingQueue C T capacity slots).exec
      (workStealingQueue C T capacity slots).init ls = some s) :
    ls.length ≤ (ls.map (QueueLabel.cost span)).sum ∧
      (∀ c, s.consumers c ≠ .idle → ∀ spurious, (s.consumerStep capacity c spurious).isSome) ∧
      (s.producer ≠ .idle → (∀ buffer e, s.producer ≠ .pushManyAssert buffer e) →
        (s.producerStep capacity).isSome) := by
  refine ⟨?_, fun c hc spurious => consumerStep_isSome hc spurious, producerStep_isSome⟩
  have hinit : (workStealingQueue C T capacity slots).init.Spans span := fun _ => Nat.zero_le _
  have hbound : ls.length + s.weight span ≤ _ + (ls.map (QueueLabel.cost span)).sum :=
    Machine.exec_length_le_cost (I := WorkStealingQueue.Spans span)
      (fun _ _ _ hl hs ht => WorkStealingQueue.Spans.step hl hs ht) hspans hinit hrun
  have hweight : (workStealingQueue C T capacity slots).init.weight span = 0 := by
    have hzero : tally Finset.univ
        (Consumer.weight (T := T) (Fintype.card C * attempt span) span 0)
        (fun _ : C => Consumer.idle) = 0 := tally_eq_zero.mpr fun _ _ => rfl
    exact (Nat.zero_add _).trans hzero
  omega

/-- Two calls of `TryPop` load the same `begin_`, and one of them wins. -/
def contendedPops : List (QueueLabel (Fin 2) Nat) :=
  .tryPush 7 :: List.replicate 4 .producer ++ [.tryPop 0, .tryPop 1] ++
    List.replicate 3 (.consumer 0 false) ++ List.replicate 3 (.consumer 1 false) ++
    [.consumer 0 false, .consumer 1 false]

theorem workStealingQueue_lockFree_contended :
    ∃ s, (workStealingQueue (Fin 2) Nat 4 fun _ => none).exec
        (workStealingQueue (Fin 2) Nat 4 fun _ => none).init contendedPops = some s ∧
      s.removed = [some 7] ∧ s.consumers 1 = .tryPopLoadBegin ∧
      (s.consumerStep 4 1 false).isSome ∧ contendedPops.length ≤ 31 := by
  have hrun : (workStealingQueue (Fin 2) Nat 4 fun _ => none).exec
      (workStealingQueue (Fin 2) Nat 4 fun _ => none).init contendedPops = some _ := rfl
  have hspans : ∀ l ∈ contendedPops, l.span ≤ 0 := by decide
  obtain ⟨hlength, hgoes, -⟩ := workStealingQueue_lockFree hspans hrun
  exact ⟨_, hrun, rfl, rfl, hgoes 1 (by decide) false, hlength⟩

end ConcurrentProgramming.Fast
