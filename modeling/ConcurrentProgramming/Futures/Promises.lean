import ConcurrentProgramming.Futures.Throwing

/-!
Where the promises of a chain are. A promise is made unclaimed, is claimed when the
lambda that holds it is called, and is released by the frame that has it.
-/

set_option autoImplicit false

namespace ConcurrentProgramming.Futures
open Interleaving

universe u

section
variable {E V X : Type u}

/-- The task of `a` has been called. -/
def started (nodes : Place → Option (Node E V X)) (a : Place) : Bool :=
  (nodes a).any fun n => !n.ran.isEmpty

/-- The lambda that holds promise `p` has been called. -/
def claimed (nodes : Place → Option (Node E V X)) : Nat → Bool
  | 0 => true
  | k + 1 => started nodes (.link k)

/-- The promise is held by a lambda that waits for the future of a continuation. -/
def pending (nodes : Place → Option (Node E V X)) (p : Nat) : Bool :=
  (nodes (.inner p)).any fun n => n.ran.isEmpty

def releasedAt (nodes : Place → Option (Node E V X)) (p : Nat) : Bool :=
  (nodes (.link p)).any fun n => n.shared.producer.called

def held (threads : List (List (Frame E V X))) (h : PromiseHolder) : Nat :=
  frameCount Frame.holder h threads

/-- Once claimed, a promise is in one place: with the lambda of its stage, with the
one that forwards to it, in a future that is waited for, or released. -/
structure Promises (n : Nat) (nodes : Place → Option (Node E V X))
    (threads : List (List (Frame E V X))) (released : List Nat) : Prop where
  conserved : ∀ p, p ≤ n → held threads (.stage p) + held threads (.forward p) +
    (pending nodes p).toNat + (releasedAt nodes p).toNat = (claimed nodes p).toNat
  inner : ∀ p, (nodes (.inner p)).isSome →
    held threads (.stage p) = 0 ∧ claimed nodes p = true
  counted : ∀ p, released.count p = (releasedAt nodes p).toNat

theorem held_of_swapped {popped pushed : List (Frame E V X)}
    {threads threads' : List (List (Frame E V X))} (h : Swapped popped pushed threads threads')
    (hpopped : ∀ f ∈ popped, f.holder = none) (hpushed : ∀ f ∈ pushed, f.holder = none) :
    held threads' = held threads :=
  funext fun _ => h.frameCount_eq (fun f hf => by simp [hpopped f hf])
    fun f hf => by simp [hpushed f hf]

/-- One frame that holds a promise goes, and none comes. -/
theorem held_of_popped {f : Frame E V X} {pushed : List (Frame E V X)}
    {threads threads' : List (List (Frame E V X))} (h : Swapped [f] pushed threads threads')
    (hpushed : ∀ f ∈ pushed, f.holder = none) (holder : PromiseHolder) :
    held threads' holder + (if f.holder = some holder then 1 else 0) = held threads holder :=
  h.frameCount_popped fun f hf => by simp [hpushed f hf]

theorem held_of_pushed {f : Frame E V X} {threads threads' : List (List (Frame E V X))}
    (h : Swapped [] [f] threads threads') (holder : PromiseHolder) :
    held threads' holder = held threads holder + (if f.holder = some holder then 1 else 0) :=
  h.frameCount_pushed

namespace Promises

variable {n : Nat} {nodes nodes' : Place → Option (Node E V X)}
  {threads threads' : List (List (Frame E V X))} {released : List Nat}

/-- The frame that sets the first promise is on a stack. -/
theorem init (n : Nat) (e : E) (hswap : Swapped [] [.origin] [[]] threads) :
    Promises n (Function.update (fun _ => none) (.link 0) (some (.new e : Node E V X))) threads
      [] := by
  have hheld (h : PromiseHolder) : held threads h = if h = .stage 0 then 1 else 0 := by
    rw [held_of_pushed hswap]
    simp [held, frameCount, Frame.holder, eq_comm]
  refine ⟨fun p _ => ?_, fun p hp => ?_, fun p => ?_⟩
  · rw [hheld, hheld]
    cases p with
    | zero => simp [pending, releasedAt, claimed, Node.new, SetResult.called]
    | succ k => cases k <;> simp [pending, releasedAt, claimed, started, Node.new]
  · simp at hp
  · cases p <;> simp [releasedAt, Node.new, SetResult.called]

theorem of_views (hs : Promises n nodes threads released) (hheld : held threads' = held threads)
    (hclaimed : ∀ p, claimed nodes' p = claimed nodes p)
    (hpending : ∀ p, pending nodes' p = pending nodes p)
    (hreleased : ∀ p, releasedAt nodes' p = releasedAt nodes p)
    (hinner : ∀ p, (nodes' (.inner p)).isSome = (nodes (.inner p)).isSome) :
    Promises n nodes' threads' released := by
  refine ⟨fun p hp => ?_, fun p hp => ?_, fun p => ?_⟩
  · rw [hheld, hclaimed, hpending, hreleased]
    exact hs.conserved p hp
  · rw [hheld, hclaimed]
    exact hs.inner p ((hinner p).symm.trans hp)
  · rw [hreleased]
    exact hs.counted p

theorem started_update (nodes : Place → Option (Node E V X)) (a b : Place) (m : Node E V X) :
    started (Function.update nodes a (some m)) b =
      if b = a then !m.ran.isEmpty else started nodes b := by
  rcases eq_or_ne b a with rfl | hb
  · simp [started]
  · simp [started, hb]

theorem pending_update (nodes : Place → Option (Node E V X)) (a : Place) (p : Nat)
    (m : Node E V X) : pending (Function.update nodes a (some m)) p =
      if .inner p = a then m.ran.isEmpty else pending nodes p := by
  by_cases hb : .inner p = a
  · simp [pending, hb]
  · simp [pending, hb]

theorem releasedAt_update (nodes : Place → Option (Node E V X)) (a : Place) (p : Nat)
    (m : Node E V X) : releasedAt (Function.update nodes a (some m)) p =
      if .link p = a then m.shared.producer.called else releasedAt nodes p := by
  by_cases hb : .link p = a
  · simp [releasedAt, hb]
  · simp [releasedAt, hb]

/-- A shared state moves on; its task and its promise stay where they are. -/
theorem moves (hs : Promises n nodes threads released) {a : Place} {m m' : Node E V X}
    (ha : nodes a = some m) (hran : m'.ran = m.ran)
    (hp : m'.shared.producer.called = m.shared.producer.called)
    (hheld : held threads' = held threads) :
    Promises n (Function.update nodes a (some m')) threads' released := by
  refine hs.of_views hheld (fun p => ?_) (fun p => ?_) (fun p => ?_) fun p => ?_
  · cases p with
    | zero => rfl
    | succ k =>
      rw [claimed, claimed, started_update, hran]
      split
      · rename_i h
        simp [started, h, ha]
      · rfl
  · rw [pending_update, hran]
    split
    · rename_i h
      simp [pending, h, ha]
    · rfl
  · rw [releasedAt_update, hp]
    split
    · rename_i h
      simp [releasedAt, h, ha]
    · rfl
  · by_cases h : .inner p = a
    · simp [h, ha]
    · simp [h]

/-- The next link is made. -/
theorem made (hs : Promises n nodes threads released) {k : Nat} (hk : nodes (.link k) = none)
    (e : E) : Promises n (Function.update nodes (.link k) (some (.new e))) threads released := by
  refine hs.of_views rfl (fun p => ?_) (fun p => ?_) (fun p => ?_) fun p => ?_
  · cases p with
    | zero => rfl
    | succ j =>
      rw [claimed, claimed, started_update]
      split
      · rename_i h
        simp [started, h, hk, Node.new]
      · rfl
  · simp [pending_update]
  · rw [releasedAt_update]
    split
    · rename_i h
      simp [releasedAt, h, hk, Node.new, SetResult.called]
    · rfl
  · simp

/-- A step that concerns the promise `q` only. -/
theorem changes (hs : Promises n nodes threads released) {released' : List Nat} (q : Nat)
    (hstage : ∀ p, p ≠ q → held threads' (.stage p) = held threads (.stage p))
    (hforward : ∀ p, p ≠ q → held threads' (.forward p) = held threads (.forward p))
    (hclaimed : ∀ p, p ≠ q → claimed nodes' p = claimed nodes p)
    (hpending : ∀ p, p ≠ q → pending nodes' p = pending nodes p)
    (hreleased : ∀ p, p ≠ q → releasedAt nodes' p = releasedAt nodes p)
    (hinner : ∀ p, p ≠ q → (nodes' (.inner p)).isSome = (nodes (.inner p)).isSome)
    (hcount : ∀ p, p ≠ q → released'.count p = released.count p)
    (hq : q ≤ n → held threads' (.stage q) + held threads' (.forward q) +
      (pending nodes' q).toNat + (releasedAt nodes' q).toNat = (claimed nodes' q).toNat)
    (hinner_q : (nodes' (.inner q)).isSome → held threads' (.stage q) = 0 ∧ claimed nodes' q = true)
    (hcount_q : released'.count q = (releasedAt nodes' q).toNat) :
    Promises n nodes' threads' released' := by
  refine ⟨fun p hp => ?_, fun p hp => ?_, fun p => ?_⟩
  · rcases eq_or_ne p q with rfl | hpq
    · exact hq hp
    · rw [hstage p hpq, hforward p hpq, hpending p hpq, hreleased p hpq, hclaimed p hpq]
      exact hs.conserved p hp
  · rcases eq_or_ne p q with rfl | hpq
    · exact hinner_q hp
    · rw [hstage p hpq, hclaimed p hpq]
      exact hs.inner p ((hinner p hpq).symm.trans hp)
  · rcases eq_or_ne p q with rfl | hpq
    · exact hcount_q
    · rw [hcount p hpq, hreleased p hpq]
      exact hs.counted p

theorem releasedAt_same {a : Place} {m m' : Node E V X} (ha : nodes a = some m)
    (hp : m'.shared.producer.called = m.shared.producer.called) (p : Nat) :
    releasedAt (Function.update nodes a (some m')) p = releasedAt nodes p := by
  rw [releasedAt_update, hp]
  split
  · rename_i h
    simp [releasedAt, h, ha]
  · rfl

theorem isSome_same {a : Place} {m m' : Node E V X} (ha : nodes a = some m) (b : Place) :
    (Function.update nodes a (some m') b).isSome = (nodes b).isSome := by
  rcases eq_or_ne b a with rfl | hb
  · simp [ha]
  · simp [hb]

/-- The task of a link is called: the lambda claims its promise, if it has one. -/
theorem startsLink {stages : List (ChainStage E V X)}
    (hs : Promises (lambdas stages).length nodes threads released) {k : Nat} {m m' : Node E V X}
    (ha : nodes (.link k) = some m) (hran : m.ran = []) (hran' : m'.ran = [0])
    (hp : m'.shared.producer.called = m.shared.producer.called) {val : Except X V}
    (hswap : Swapped [] [.call (lambdaOf stages (.link k)) val] threads threads') :
    Promises (lambdas stages).length (Function.update nodes (.link k) (some m')) threads'
      released := by
  have hheld := held_of_pushed hswap
  have hreleased := releasedAt_same ha hp
  have hpending (p : Nat) : pending (Function.update nodes (.link k) (some m')) p =
      pending nodes p := by simp [pending_update]
  have hbefore : claimed nodes (k + 1) = false := by simp [claimed, started, ha, hran]
  have hafter : claimed (Function.update nodes (.link k) (some m')) (k + 1) = true := by
    simp [claimed, started, hran']
  have hnone : (nodes (.inner (k + 1))).isSome = false := by
    by_contra hsome
    have := (hs.inner (k + 1) (Bool.eq_true_of_not_eq_false hsome)).2
    rw [hbefore] at this
    cases this
  refine hs.changes (k + 1) (fun p hpk => ?_) (fun p hpk => ?_) (fun p hpk => ?_)
    (fun p _ => hpending p) (fun p _ => hreleased p) (fun p _ => isSome_same ha _) (fun _ _ => rfl)
    (fun hk => ?_) (fun hsome => ?_) ((hs.counted _).trans (by rw [hreleased]))
  · rw [hheld, if_neg, Nat.add_zero]
    by_cases hk : k < (lambdas stages).length
    · simpa [Frame.holder, lambdaOf_link hk] using Ne.symm hpk
    · simp [Frame.holder, lambdaOf_last (Nat.le_of_not_lt hk), Lambda.holder]
  · rw [hheld, if_neg, Nat.add_zero]
    by_cases hk : k < (lambdas stages).length
    · simp [Frame.holder, lambdaOf_link hk]
    · simp [Frame.holder, lambdaOf_last (Nat.le_of_not_lt hk), Lambda.holder]
  · cases p with
    | zero => rfl
    | succ j =>
      have hjk : Place.link j ≠ .link k := fun h => hpk (by cases h; rfl)
      rw [claimed, claimed, started_update, if_neg hjk]
  · have hcons := hs.conserved (k + 1) hk
    rw [hbefore] at hcons
    have hone := hheld (.stage (k + 1))
    have hzero := hheld (.forward (k + 1))
    simp only [Frame.holder, lambdaOf_link hk, Option.some.injEq, if_true, reduceCtorEq,
      if_false] at hone hzero
    rw [hpending, hreleased, hafter]
    simp only [Bool.toNat_false, Bool.toNat_true] at hcons ⊢
    omega
  · rw [isSome_same ha, hnone] at hsome
    cases hsome

/-- The task of a future that a continuation has returned is called. -/
theorem startsInner {stages : List (ChainStage E V X)}
    (hs : Promises (lambdas stages).length nodes threads released) {q : Nat} {m m' : Node E V X}
    (ha : nodes (.inner q) = some m) (hran : m.ran = []) (hran' : m'.ran = [0]) {val : Except X V}
    (hswap : Swapped [] [.call (lambdaOf stages (.inner q)) val] threads threads') :
    Promises (lambdas stages).length (Function.update nodes (.inner q) (some m')) threads'
      released := by
  have hheld := held_of_pushed hswap
  have hstage (p : Nat) : held threads' (.stage p) = held threads (.stage p) := by
    rw [hheld, if_neg (by simp [Frame.holder, lambdaOf, Lambda.holder]), Nat.add_zero]
  have hclaimed (p : Nat) : claimed (Function.update nodes (.inner q) (some m')) p =
      claimed nodes p := by
    cases p with
    | zero => rfl
    | succ k => simp [claimed, started]
  have hreleased (p : Nat) : releasedAt (Function.update nodes (.inner q) (some m')) p =
      releasedAt nodes p := by simp [releasedAt]
  refine hs.changes q (fun p _ => hstage p) (fun p hpq => ?_) (fun p _ => hclaimed p)
    (fun p hpq => ?_) (fun p _ => hreleased p) (fun p _ => isSome_same ha _) (fun _ _ => rfl)
    (fun hq => ?_) (fun _ => ?_) ((hs.counted q).trans (by rw [hreleased]))
  · rw [hheld, if_neg, Nat.add_zero]
    simpa [Frame.holder, lambdaOf, Lambda.holder] using Ne.symm hpq
  · rw [pending_update, if_neg (by simpa using hpq)]
  · have hcons := hs.conserved q hq
    have hone := hheld (.forward q)
    have hbefore : pending nodes q = true := by simp [pending, ha, hran]
    simp only [Frame.holder, lambdaOf, Lambda.holder, if_true] at hone
    rw [hstage, hone, hclaimed, hreleased, pending_update, if_pos rfl, hran']
    rw [hbefore] at hcons
    simp only [List.isEmpty_cons, Bool.toNat_false, Bool.toNat_true] at hcons ⊢
    omega
  · rw [hstage, hclaimed]
    exact hs.inner q (by simp [ha])

/-- A lambda that holds promise `q` sets it. -/
theorem releases (hs : Promises n nodes threads released) {q : Nat} (hq : q ≤ n) {m m' : Node E V X}
    (ha : nodes (.link q) = some m) (hran : m'.ran = m.ran)
    (hp : m.shared.producer.called = false) (hp' : m'.shared.producer.called = true)
    {f : Frame E V X} (hf : f.holder = some (.stage q) ∨ f.holder = some (.forward q))
    {pushed : List (Frame E V X)} (hpushed : ∀ f ∈ pushed, f.holder = none)
    (hswap : Swapped [f] pushed threads threads') :
    Promises n (Function.update nodes (.link q) (some m')) threads' (released ++ [q]) := by
  have hheld := held_of_popped hswap hpushed
  have hclaimed (p : Nat) : claimed (Function.update nodes (.link q) (some m')) p =
      claimed nodes p := by
    cases p with
    | zero => rfl
    | succ k =>
      rw [claimed, claimed, started_update, hran]
      split
      · rename_i h
        simp [started, h, ha]
      · rfl
  have hpending (p : Nat) : pending (Function.update nodes (.link q) (some m')) p =
      pending nodes p := by simp [pending_update]
  have hafter : releasedAt (Function.update nodes (.link q) (some m')) q = true := by
    simp [releasedAt, hp']
  have hbefore : releasedAt nodes q = false := by simp [releasedAt, ha, hp]
  refine hs.changes q (fun p hpq => ?_) (fun p hpq => ?_) (fun p _ => hclaimed p)
    (fun p _ => hpending p) (fun p hpq => ?_) (fun p _ => isSome_same ha _) (fun p hpq => ?_)
    (fun _ => ?_) (fun hsome => ?_) ?_
  · rw [← hheld, if_neg, Nat.add_zero]
    rcases hf with hf | hf <;> simp [hf, Ne.symm hpq]
  · rw [← hheld, if_neg, Nat.add_zero]
    rcases hf with hf | hf <;> simp [hf, Ne.symm hpq]
  · rw [releasedAt_update, if_neg (by simpa using hpq)]
  · rw [List.count_append, List.count_singleton, if_neg (by simpa using Ne.symm hpq), Nat.add_zero]
  · have hcons := hs.conserved q hq
    have hstage := hheld (.stage q)
    have hforward := hheld (.forward q)
    rw [hbefore] at hcons
    rw [hpending, hclaimed, hafter]
    simp only [Bool.toNat_false, Bool.toNat_true] at hcons ⊢
    rcases hf with hf | hf <;>
      simp only [hf, Option.some.injEq, reduceCtorEq, if_true, if_false] at hstage hforward <;> omega
  · obtain ⟨hzero, hclaim⟩ := hs.inner q (by rwa [isSome_same ha] at hsome)
    have hstage := hheld (.stage q)
    exact ⟨by omega, (hclaimed q).trans hclaim⟩
  · rw [List.count_append, hs.counted q, hbefore, hafter]
    simp

/-- A lambda that holds promise `q` subscribes another one to a future. -/
theorem subscribes (hs : Promises n nodes threads released) {q : Nat} (hq : q ≤ n)
    {m' : Node E V X} (hran : m'.ran = []) {f : Frame E V X} (hf : f.holder = some (.stage q))
    {pushed : List (Frame E V X)} (hpushed : ∀ f ∈ pushed, f.holder = none)
    (hswap : Swapped [f] pushed threads threads') :
    Promises n (Function.update nodes (.inner q) (some m')) threads' released := by
  have hheld := held_of_popped hswap hpushed
  have hclaimed (p : Nat) : claimed (Function.update nodes (.inner q) (some m')) p =
      claimed nodes p := by
    cases p with
    | zero => rfl
    | succ k => simp [claimed, started]
  have hreleased (p : Nat) : releasedAt (Function.update nodes (.inner q) (some m')) p =
      releasedAt nodes p := by simp [releasedAt]
  have hstage := hheld (.stage q)
  rw [hf, if_pos rfl] at hstage
  have hcons := hs.conserved q hq
  have hnone : pending nodes q = false := by
    cases hinner : nodes (.inner q) with
    | none => simp [pending, hinner]
    | some m =>
      have := (hs.inner q (by simp [hinner])).1
      omega
  refine hs.changes q (fun p hpq => ?_) (fun p hpq => ?_) (fun p _ => hclaimed p)
    (fun p hpq => ?_) (fun p _ => hreleased p) (fun p hpq => ?_) (fun _ _ => rfl) (fun _ => ?_)
    (fun _ => ?_) ((hs.counted q).trans (by rw [hreleased]))
  · rw [← hheld, if_neg, Nat.add_zero]
    simpa [hf] using Ne.symm hpq
  · rw [← hheld, if_neg, Nat.add_zero]
    simp [hf]
  · rw [pending_update, if_neg (by simpa using hpq)]
  · rw [Function.update_of_ne (by simpa using hpq)]
  · have hforward := hheld (.forward q)
    rw [hf, if_neg (by simp), Nat.add_zero] at hforward
    rw [hclaimed, hreleased, hforward, pending_update, if_pos rfl, hran]
    rw [hnone] at hcons
    simp only [List.isEmpty_nil, Bool.toNat_false, Bool.toNat_true] at hcons ⊢
    omega
  · rw [hclaimed]
    cases hclaim : claimed nodes q with
    | true =>
      rw [hclaim, hnone] at hcons
      simp only [Bool.toNat_false, Bool.toNat_true] at hcons
      exact ⟨by omega, rfl⟩
    | false =>
      rw [hclaim] at hcons
      simp only [Bool.toNat_false] at hcons
      omega

end Promises

end

end ConcurrentProgramming.Futures
