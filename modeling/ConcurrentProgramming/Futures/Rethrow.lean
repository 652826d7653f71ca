import ConcurrentProgramming.Futures.Promises
import ConcurrentProgramming.Interleaving.Tally

/-!
Every promise of a chain is released once, in every run in which no exception
reaches a `catch` that sets a promise again. What is on the stacks is followed from
step to step: a call that has been made returns, unless an exception has left it.
-/

set_option autoImplicit false

namespace ConcurrentProgramming.Futures
open Interleaving

universe u

/-! What steps do to a shared state. -/

def SetResult.underway {R C : Type u} : SetResult R C → Bool
  | .notCalled | .returned => false
  | _ => true

def SetCallback.underway {R C : Type u} : SetCallback R C → Bool
  | .notCalled | .returned => false
  | _ => true

/-- The two calls go on, or stay where they are. -/
structure Moved {E R C : Type u} (c : C) (v v' : Rendezvous E R C) : Prop where
  inv : ∀ r, v.Inv r c → v'.Inv r c
  submitted : v.submitted <+: v'.submitted
  producer : v'.producer.called = v.producer.called
  consumer : v'.consumer.called = v.consumer.called
  setResult : v'.producer.underway = true → v.producer.underway = true
  setCallback : v'.consumer.underway = true → v.consumer.underway = true
  remaining : v'.producer.remaining + v'.consumer.remaining ≤
    v.producer.remaining + v.consumer.remaining

theorem Moved.refl {E R C : Type u} (c : C) (v : Rendezvous E R C) : Moved c v v :=
  ⟨fun _ => id, List.prefix_rfl, rfl, rfl, id, id, Nat.le_refl _⟩

theorem Moved.of_setResult {E R C : Type u} {c : C} {v v' : Rendezvous E R C}
    (h : v.setResult = some v') : Moved c v v' := by
  obtain ⟨hlt, hnew, hold, hconsumer⟩ := Rendezvous.setResult_remaining h
  refine ⟨fun r hr => Rendezvous.setResult_inv hr h, Rendezvous.setResult_submitted h, ?_,
    by rw [hconsumer], fun _ => ?_, fun hq => by rwa [← hconsumer], by rw [hconsumer]; omega⟩
  · cases hp : v'.producer <;> cases hq : v.producer <;> simp_all [SetResult.called]
  · cases hp : v.producer with
    | notCalled => exact absurd hp hold
    | returned => simp [Rendezvous.setResult, hp] at h
    | _ => rfl

theorem Moved.of_setCallback {E R C : Type u} {c : C} {v v' : Rendezvous E R C}
    (h : v.setCallback = some v') : Moved c v v' := by
  obtain ⟨hlt, hnew, hold, hproducer⟩ := Rendezvous.setCallback_remaining h
  refine ⟨fun r hr => Rendezvous.setCallback_inv hr h, Rendezvous.setCallback_submitted h,
    by rw [hproducer], ?_, fun hq => by rwa [← hproducer], fun _ => ?_, by rw [hproducer]; omega⟩
  · cases hp : v'.consumer <;> cases hq : v.consumer <;> simp_all [SetCallback.called]
  · cases hp : v.consumer with
    | notCalled => exact absurd hp hold
    | returned => simp [Rendezvous.setCallback, hp] at h
    | _ => rfl

section
variable {E V X : Type u}

/-- Nothing that has been done to the shared state is undone. -/
structure Node.Grown (m m' : Node E V X) : Prop where
  producer : m.shared.producer.called = true → m'.shared.producer.called = true
  consumer : m.shared.consumer.called = true → m'.shared.consumer.called = true
  ran : m.ran ≠ [] → m'.ran ≠ []

def Grown (nodes nodes' : Place → Option (Node E V X)) : Prop :=
  ∀ a m, nodes a = some m → ∃ m', nodes' a = some m' ∧ m.Grown m'

theorem Grown.refl (nodes : Place → Option (Node E V X)) : Grown nodes nodes :=
  fun _ m ha => ⟨m, ha, id, id, id⟩

theorem Grown.update {nodes : Place → Option (Node E V X)} {a : Place} {m : Node E V X}
    (h : ∀ n, nodes a = some n → n.Grown m) : Grown nodes (Function.update nodes a (some m)) := by
  intro b n hb
  rcases eq_or_ne b a with rfl | hba
  · exact ⟨m, by simp, h n hb⟩
  · exact ⟨n, by simpa [hba] using hb, id, id, id⟩

theorem Grown.trans {nodes nodes' nodes'' : Place → Option (Node E V X)} (h : Grown nodes nodes')
    (h' : Grown nodes' nodes'') : Grown nodes nodes'' := by
  intro a m ha
  obtain ⟨m', ha', hm⟩ := h a m ha
  obtain ⟨m'', ha'', hm'⟩ := h' a m' ha'
  exact ⟨m'', ha'', fun hp => hm'.producer (hm.producer hp), fun hq => hm'.consumer (hm.consumer hq),
    fun hr => hm'.ran (hm.ran hr)⟩

theorem Grown.started {nodes nodes' : Place → Option (Node E V X)} (h : Grown nodes nodes')
    {a : Place} (ha : started nodes a = true) : started nodes' a = true := by
  obtain ⟨m, hm, hran⟩ := (Option.any_eq_true _ _).mp ha
  obtain ⟨m', hm', hgrown⟩ := h a m hm
  have := hgrown.ran (by simpa using hran)
  simpa [Futures.started, hm'] using this

/-! The calls on the stacks. -/

def PromiseHolder.promise : PromiseHolder → Nat
  | .stage p | .forward p => p

/-- The promise of a lambda on a stack is one of the chain's, and the final callback
is called when the last link has its result. -/
def Frame.Ok (n : Nat) (nodes : Place → Option (Node E V X)) : Frame E V X → Prop
  | .origin | .waiting _ => True
  | .call lambda _ =>
    match lambda.holder with
    | some h => h.promise ≤ n
    | none => started nodes (.link n) = true
  | .setResult a => ∃ m, nodes a = some m ∧ m.shared.producer.called = true
  | .setCallback a => ∃ m, nodes a = some m ∧ m.shared.consumer.called = true

theorem Frame.Ok.mono {n : Nat} {nodes nodes' : Place → Option (Node E V X)} {f : Frame E V X}
    (h : Grown nodes nodes') (hf : f.Ok n nodes) : f.Ok n nodes' := by
  cases f with
  | origin | waiting => trivial
  | call lambda val =>
    simp only [Frame.Ok] at hf ⊢
    split
    · rename_i holder hholder
      simpa [hholder] using hf
    · rename_i hholder
      exact h.started (by simpa [hholder] using hf)
  | setResult a =>
    obtain ⟨m, ha, hp⟩ := hf
    obtain ⟨m', ha', hm⟩ := h a m ha
    exact ⟨m', ha', hm.producer hp⟩
  | setCallback a =>
    obtain ⟨m, ha, hq⟩ := hf
    obtain ⟨m', ha', hm⟩ := h a m ha
    exact ⟨m', ha', hm.consumer hq⟩

def Node.underway (m : Node E V X) : Party → Bool
  | .producer => m.shared.producer.underway
  | .consumer => m.shared.consumer.underway

/-- A call on a shared state has been made and has not returned. -/
def underway (nodes : Place → Option (Node E V X)) (call : Party × Place) : Bool :=
  (nodes call.2).any fun m => m.underway call.1

theorem underway_update (nodes : Place → Option (Node E V X)) (a : Place) (m : Node E V X)
    (call : Party × Place) : underway (Function.update nodes a (some m)) call =
      if call.2 = a then m.underway call.1 else underway nodes call := by
  by_cases h : call.2 = a
  · simp [underway, h]
  · simp [underway, h]

/-- No call begins on `a`. -/
theorem underway_of_update {nodes : Place → Option (Node E V X)} {a : Place} {m : Node E V X}
    {call : Party × Place} (hcall : underway (Function.update nodes a (some m)) call = true)
    (h : call.2 = a → m.underway call.1 = true →
      ∃ n, nodes a = some n ∧ n.underway call.1 = true) : underway nodes call = true := by
  rw [underway_update] at hcall
  split at hcall
  · rename_i ha
    obtain ⟨n, hn, hcall⟩ := h ha hcall
    simp [underway, ha, hn, hcall]
  · exact hcall

theorem Moved.underway {c : Lambda E V X} {m : Node E V X}
    {shared : Rendezvous E (Except X V) (Lambda E V X)} (h : Moved c m.shared shared)
    {ran : List Nat} {party : Party} (hcall : Node.underway ⟨shared, ran⟩ party = true) :
    m.underway party = true := by
  cases party with
  | producer => exact h.setResult hcall
  | consumer => exact h.setCallback hcall

structure Calls (n : Nat) (nodes : Place → Option (Node E V X))
    (threads : List (List (Frame E V X))) (thrown : Bool) : Prop where
  frames : ∀ f, OnStack f threads → f.Ok n nodes
  driven : thrown = false → ∀ call, underway nodes call = true →
    0 < frameCount Frame.drives call threads
  thrown : thrown = true → started nodes (.link n) = true

/-- A call that is under way after the step was so before, and has not been popped,
or it has just been pushed. -/
theorem Calls.swap {n : Nat} {nodes nodes' : Place → Option (Node E V X)}
    {threads threads' : List (List (Frame E V X))} {thrown : Bool}
    (hs : Calls n nodes threads thrown) (hgrown : Grown nodes nodes')
    {popped pushed : List (Frame E V X)} (hswap : Swapped popped pushed threads threads')
    (hpushed : ∀ f ∈ pushed, f.Ok n nodes')
    (hcalls : ∀ call, underway nodes' call = true → (∀ f ∈ popped, f.drives ≠ some call) ∧
      (underway nodes call = true ∨ ∃ f ∈ pushed, f.drives = some call)) :
    Calls n nodes' threads' thrown := by
  refine ⟨fun f hf => ?_, fun hquiet call hcall => ?_, fun h => hgrown.started (hs.thrown h)⟩
  · rcases hswap.mem f hf with hf | hf
    · exact (hs.frames f hf).mono hgrown
    · exact hpushed f hf
  · obtain ⟨hkept, hcall⟩ := hcalls call hcall
    rcases hcall with hcall | ⟨f, hf, hdrives⟩
    · rw [hswap.frameCount_add hkept]
      exact Nat.add_pos_left (hs.driven hquiet call hcall) _
    · exact hswap.frameCount_pos hkept hf hdrives

structure ThrowingChain.Inv (inline : E → Bool) (stages : List (ChainStage E V X))
    (s : ThrowingChain E V X) : Prop where
  built : Built inline stages s.attach s.nodes
  promises : Promises (lambdas stages).length s.nodes s.threads s.released
  calls : Calls (lambdas stages).length s.nodes s.threads s.thrown
  unviolated : s.violated = false
  builder : s.threads ≠ []

namespace ThrowingChain

variable {inline : E → Bool} {stages : List (ChainStage E V X)} {s : ThrowingChain E V X}

theorem set_ne_nil {α : Type u} {l : List α} (h : l ≠ []) (i : Nat) (a : α) : l.set i a ≠ [] := by
  simpa using h

/-- A call on a shared state goes on, and no task is called on top of it. -/
theorem Inv.move (hs : s.Inv inline stages) {a : Place} {m : Node E V X} (ha : s.nodes a = some m)
    {shared : Rendezvous E (Except X V) (Lambda E V X)}
    (hmoved : Moved (lambdaOf stages a) m.shared shared)
    (hquiet : ∀ t, shared.submitted[m.shared.submitted.length]? = some t →
      inline t.executor = false) : (s.setNode a { m with shared := shared }).Inv inline stages := by
  refine ⟨?_, hs.promises.moves ha rfl hmoved.producer rfl, ?_, hs.unviolated, hs.builder⟩
  · exact hs.built.move ha ((hs.built.ok a m ha).moves hmoved.inv hmoved.submitted hquiet)
      (fun hp => hmoved.producer.trans hp) hmoved.consumer
  · refine hs.calls.swap (.update fun n hn => ?_) .rfl nofun fun call hcall => ⟨nofun, .inl ?_⟩
    · obtain rfl : m = n := Option.some.inj (ha.symm.trans hn)
      exact ⟨fun hp => hmoved.producer.trans hp, fun hq => hmoved.consumer.trans hq, id⟩
    · exact underway_of_update hcall fun _ hcall => ⟨m, ha, hmoved.underway hcall⟩

/-- The task of a shared state is called. -/
theorem Inv.start (hs : s.Inv inline stages) {a : Place} {m : Node E V X} (ha : s.nodes a = some m)
    {shared : Rendezvous E (Except X V) (Lambda E V X)}
    (hmoved : Moved (lambdaOf stages a) m.shared shared) (hran : m.ran = [])
    (hok : NodeOk inline (lambdaOf stages a) ⟨shared, [0]⟩) {val : Except X V}
    {threads : List (List (Frame E V X))}
    (hswap : Swapped [] [.call (lambdaOf stages a) val] s.threads threads) (hne : threads ≠ []) :
    ({ s.setNode a ⟨shared, [0]⟩ with threads := threads } : ThrowingChain E V X).Inv
      inline stages := by
  refine ⟨?_, ?_, ?_, hs.unviolated, hne⟩
  · exact hs.built.move ha hok (fun hp => hmoved.producer.trans hp) hmoved.consumer
  · cases a with
    | link k => exact hs.promises.startsLink ha hran rfl hmoved.producer hswap
    | inner p => exact hs.promises.startsInner ha hran rfl hswap
  · refine hs.calls.swap (.update fun n hn => ?_) hswap (fun f hf => ?_)
      fun call hcall => ⟨nofun, .inl ?_⟩
    · obtain rfl : m = n := Option.some.inj (ha.symm.trans hn)
      exact ⟨fun hp => hmoved.producer.trans hp, fun hq => hmoved.consumer.trans hq,
        fun _ => List.cons_ne_nil 0 []⟩
    · obtain rfl := List.mem_singleton.mp hf
      cases a with
      | link k =>
        rcases Nat.lt_or_ge k (lambdas stages).length with hk | hk
        · simpa [Frame.Ok, lambdaOf_link hk, PromiseHolder.promise, Nat.succ_le_iff] using hk
        · obtain rfl : k = (lambdas stages).length :=
            Nat.le_antisymm ((hs.built.made k).mp (by simp [ha])).1 hk
          simp [Frame.Ok, lambdaOf_last hk, Lambda.holder, started, setNode]
      | inner p =>
        simpa [Frame.Ok, lambdaOf, Lambda.holder, PromiseHolder.promise] using (hs.built.inner p m ha).1
    · exact underway_of_update hcall fun _ hcall => ⟨m, ha, hmoved.underway hcall⟩

/-- A call that has returned, or that is no call on a shared state, is popped. -/
theorem Inv.pop (hs : s.Inv inline stages) {i : Nat} {f : Frame E V X} {stack : List (Frame E V X)}
    (hi : s.threads[i]? = some (f :: stack)) (hholder : f.holder = none)
    (hreturned : ∀ call, f.drives = some call → underway s.nodes call = false) :
    (s.setThread i stack).Inv inline stages := by
  have hswap : Swapped [f] [] s.threads (s.threads.set i stack) := Swapped.top hi []
  refine ⟨hs.built, ?_, ?_, hs.unviolated, set_ne_nil hs.builder _ _⟩
  · exact hs.promises.of_views (held_of_swapped hswap (by simpa using hholder) nofun)
      (fun _ => rfl) (fun _ => rfl) (fun _ => rfl) fun _ => rfl
  · refine hs.calls.swap (.refl _) hswap nofun fun call hcall => ⟨fun g hg hdrives => ?_, .inl hcall⟩
    rw [List.mem_singleton.mp hg] at hdrives
    cases hcall.symm.trans (hreturned call hdrives)

/-- A lambda is on a stack, so its promise still has its state. -/
theorem Inv.unreleased (hs : s.Inv inline stages) {f : Frame E V X} (hf : OnStack f s.threads)
    {p : Nat} (hp : f.holder = some (.stage p) ∨ f.holder = some (.forward p)) :
    p ≤ (lambdas stages).length ∧
      ∃ m, s.nodes (.link p) = some m ∧ m.shared.producer = .notCalled := by
  have hle : p ≤ (lambdas stages).length := by
    have hok := hs.calls.frames f hf
    cases f with
    | origin =>
      obtain rfl : 0 = p := by simpa [Frame.holder] using hp
      exact Nat.zero_le _
    | call lambda val =>
      simp only [Frame.holder] at hp
      rcases hp with hp | hp <;> simpa [Frame.Ok, hp, PromiseHolder.promise] using hok
    | waiting | setResult | setCallback => simp [Frame.holder] at hp
  have hheld : 0 < held s.threads (.stage p) + held s.threads (.forward p) := by
    rcases hp with hp | hp
    · exact Nat.add_pos_left (frameCount_pos hf hp) _
    · exact Nat.add_pos_right _ (frameCount_pos hf hp)
  have hcons := hs.promises.conserved p hle
  have hclaim := Bool.toNat_le (claimed s.nodes p)
  have hclaimed : claimed s.nodes p = true := by
    cases h : claimed s.nodes p with
    | true => rfl
    | false =>
      rw [h, Bool.toNat_false] at hcons
      omega
  have hmade : (s.nodes (.link p)).isSome := by
    refine (hs.built.made p).mpr ⟨hle, ?_⟩
    cases p with
    | zero => exact Nat.zero_le _
    | succ k =>
      obtain ⟨m, hm, hran⟩ := (Option.any_eq_true _ _).mp hclaimed
      exact (hs.built.attached k m hm).mp
        ((hs.built.ok _ m hm).called (by simpa using hran)).2
  obtain ⟨m, hm⟩ := Option.isSome_iff_exists.mp hmade
  refine ⟨hle, m, hm, ?_⟩
  cases hproducer : m.shared.producer with
  | notCalled => rfl
  | _ =>
    have : releasedAt s.nodes p = true := by simp [releasedAt, hm, hproducer, SetResult.called]
    rw [this, Bool.toNat_true] at hcons
    omega

theorem onStack_top {i : Nat} {f : Frame E V X} {stack : List (Frame E V X)}
    (hi : s.threads[i]? = some (f :: stack)) : OnStack f s.threads :=
  ⟨_, List.mem_of_getElem? hi, List.mem_cons_self⟩

theorem drives_of_holder {f : Frame E V X} {h : PromiseHolder} (hf : f.holder = some h) :
    f.drives = none := by
  cases f <;> simp_all [Frame.holder, Frame.drives]

theorem Inv.set (hs : s.Inv inline stages) {i : Nat} {f : Frame E V X} {stack : List (Frame E V X)}
    (hi : s.threads[i]? = some (f :: stack)) {p : Nat}
    (hp : f.holder = some (.stage p) ∨ f.holder = some (.forward p)) (r : Except X V)
    (tried : Bool) :
    ((s.release p r).setThread i (.setResult (.link p) :: .waiting tried :: stack)).Inv
      inline stages := by
  obtain ⟨hle, m, hm, hproducer⟩ := hs.unreleased (onStack_top hi) hp
  have hswap : Swapped [f] [.setResult (.link p), .waiting tried] s.threads
      (s.threads.set i (.setResult (.link p) :: .waiting tried :: stack)) := Swapped.top hi _
  have hdrives : f.drives = none := hp.elim drives_of_holder drives_of_holder
  have hfalse : m.shared.producer.called = false := by simp [hproducer, SetResult.called]
  simp only [release, hm, hproducer]
  refine ⟨?_, ?_, ?_, hs.unviolated, set_ne_nil hs.builder _ _⟩
  · exact hs.built.move hm ((hs.built.ok _ m hm).resolves hproducer r) (fun _ => rfl) rfl
  · exact hs.promises.releases hle hm rfl hfalse rfl hp (by simp [Frame.holder]) hswap
  · refine hs.calls.swap (.update fun n hn => ?_) hswap (fun g hg => ?_) fun call hcall => ⟨?_, ?_⟩
    · obtain rfl : m = n := Option.some.inj (hm.symm.trans hn)
      exact ⟨fun _ => rfl, id, id⟩
    · rcases List.mem_cons.mp hg with rfl | hg
      · exact ⟨_, Function.update_self .., rfl⟩
      · obtain rfl := List.mem_singleton.mp hg
        trivial
    · simp [hdrives]
    · obtain ⟨party, b⟩ := call
      by_cases hthis : party = .producer ∧ b = .link p
      · obtain ⟨rfl, rfl⟩ := hthis
        exact .inr ⟨_, List.mem_cons_self, rfl⟩
      · refine .inl (underway_of_update hcall fun hb hcall => ⟨m, hm, ?_⟩)
        cases party with
        | producer => exact absurd ⟨rfl, hb⟩ hthis
        | consumer => exact hcall

theorem Inv.inner_none (hs : s.Inv inline stages) {f : Frame E V X} (hf : OnStack f s.threads)
    {p : Nat} (hp : f.holder = some (.stage p)) : s.nodes (.inner p) = none := by
  by_contra hsome
  have hzero := (hs.promises.inner p (Option.isSome_iff_ne_none.mpr hsome)).1
  exact absurd hzero (Nat.ne_of_gt (frameCount_pos hf hp))

/-- A continuation has returned the future `d`. -/
theorem Inv.subscribe (hs : s.Inv inline stages) {i : Nat} {f : Frame E V X}
    {stack : List (Frame E V X)} (hi : s.threads[i]? = some (f :: stack)) {p : Nat}
    (hp : f.holder = some (.stage p)) (d : Deferred E V X) :
    ({ s.setNode (.inner p) ⟨⟨makeSharedState d.executor, .writeResult d.result,
        .writeCallback (.forward p), []⟩, []⟩ with
      threads := s.threads.set i (.setCallback (.inner p) :: .waiting true :: stack) ++
        [[.setResult (.inner p), .waiting d.tried]] } : ThrowingChain E V X).Inv inline stages := by
  obtain ⟨hle, -⟩ := hs.unreleased (onStack_top hi) (.inl hp)
  have htop : Swapped [f] [.setCallback (.inner p), .waiting true] s.threads
      (s.threads.set i (.setCallback (.inner p) :: .waiting true :: stack)) := Swapped.top hi _
  have hswap := htop.trans (Swapped.spawn _ [.setResult (.inner p), .waiting d.tried])
  have hnone := hs.inner_none (onStack_top hi) hp
  have hok : NodeOk inline (.forward p) (⟨⟨makeSharedState d.executor, .writeResult d.result,
      .writeCallback (.forward p), []⟩, []⟩ : Node E V X) :=
    ((NodeOk.new inline (.forward p) d.executor d.result).resolves rfl d.result).callback rfl
  refine ⟨?_, ?_, ?_, hs.unviolated, by simp⟩
  · exact hs.built.subscribe hle hok rfl rfl
  · exact hs.promises.subscribes hle rfl hp (by simp [Frame.holder]) hswap
  · refine hs.calls.swap (.update fun n hn => ?_) hswap (fun g hg => ?_) fun call hcall => ⟨?_, ?_⟩
    · simp [hnone] at hn
    · simp only [List.cons_append, List.nil_append, List.mem_cons, List.not_mem_nil, or_false] at hg
      rcases hg with rfl | rfl | rfl | rfl
      · exact ⟨_, Function.update_self .., rfl⟩
      · trivial
      · exact ⟨_, Function.update_self .., rfl⟩
      · trivial
    · simp [drives_of_holder hp]
    · obtain ⟨party, b⟩ := call
      by_cases hb : b = .inner p
      · subst hb
        cases party with
        | producer => exact .inr ⟨.setResult (.inner p), by simp, rfl⟩
        | consumer => exact .inr ⟨.setCallback (.inner p), by simp, rfl⟩
      · exact .inl (underway_of_update hcall fun h => absurd h hb)

theorem Inv.claimed_of_started (hs : s.Inv inline stages) {j : Nat}
    (hj : j ≤ (lambdas stages).length) (h : started s.nodes (.link j) = true) :
    releasedAt s.nodes j = true ∧ claimed s.nodes j = true := by
  obtain ⟨m, hm, hran⟩ := (Option.any_eq_true _ _).mp h
  have hreleased : releasedAt s.nodes j = true := by
    simpa [releasedAt, hm] using ((hs.built.ok _ m hm).called (by simpa using hran)).1
  refine ⟨hreleased, ?_⟩
  have hcons := hs.promises.conserved j hj
  rw [hreleased, Bool.toNat_true] at hcons
  cases hclaimed : claimed s.nodes j with
  | true => rfl
  | false =>
    rw [hclaimed, Bool.toNat_false] at hcons
    omega

/-- The task of link `j` has been called, so that the promises up to `j` have been
set: backwards from `j`, a lambda that has been called came from a released state. -/
theorem Inv.released_of_started (hs : s.Inv inline stages) {j k : Nat}
    (hj : j ≤ (lambdas stages).length) (h : started s.nodes (.link j) = true) (hk : k ≤ j) :
    releasedAt s.nodes k = true := by
  induction j with
  | zero =>
    obtain rfl := Nat.le_zero.mp hk
    exact (hs.claimed_of_started hj h).1
  | succ j ih =>
    obtain ⟨hreleased, hclaimed⟩ := hs.claimed_of_started hj h
    rcases Nat.le_succ_iff.mp hk with hk | rfl
    · exact ih (Nat.le_of_succ_le hj) hclaimed hk
    · exact hreleased

/-- Nothing that holds a promise is left on the stacks. -/
theorem Inv.holder_of_started (hs : s.Inv inline stages)
    (h : started s.nodes (.link (lambdas stages).length) = true) {f : Frame E V X}
    (hf : OnStack f s.threads) : f.holder = none := by
  cases hholder : f.holder with
  | none => rfl
  | some holder =>
    cases holder with
    | stage p | forward p =>
      obtain ⟨hle, m, hm, hproducer⟩ := hs.unreleased (p := p) hf (by simp [hholder])
      have := hs.released_of_started (Nat.le_refl _) h hle
      simp [releasedAt, hm, hproducer, SetResult.called] at this

/-- The final callback throws, and no call that is unwound would catch it. -/
theorem Inv.throw (hs : s.Inv inline stages) {i : Nat} {val : Except X V}
    {stack : List (Frame E V X)} (hi : s.threads[i]? = some (.call .final val :: stack))
    (hquiet : stack.any Frame.tried = false) :
    ({ s.setThread i [] with thrown := true, violated := s.violated || stack.any Frame.tried } :
      ThrowingChain E V X).Inv inline stages := by
  have hstarted : started s.nodes (.link (lambdas stages).length) = true := by
    simpa [Frame.Ok, Lambda.holder] using hs.calls.frames _ (onStack_top hi)
  have hswap : Swapped (.call .final val :: stack) [] s.threads (s.threads.set i []) :=
    Swapped.top (by simpa using hi) []
  refine ⟨hs.built, ?_, ⟨fun f hf => ?_, by simp, fun _ => hstarted⟩, ?_, set_ne_nil hs.builder _ _⟩
  · refine hs.promises.of_views (held_of_swapped hswap (fun f hf => ?_) (by simp)) (fun _ => rfl)
      (fun _ => rfl) (fun _ => rfl) fun _ => rfl
    exact hs.holder_of_started hstarted ⟨_, List.mem_of_getElem? hi, hf⟩
  · exact hs.calls.frames f ((hswap.mem f hf).resolve_right List.not_mem_nil)
  · simp [hs.unviolated, hquiet]

/-- The building thread calls `SetCallback` on link `k`. -/
theorem Inv.attach (hs : s.Inv inline stages) (h0 : s.threads[0]? = some []) {k : Nat}
    {attach : Attaching E V X} {nodes : Place → Option (Node E V X)}
    (hbuilt : Built inline stages attach nodes)
    (hpromises : Promises (lambdas stages).length nodes s.threads s.released)
    (hgrown : Grown s.nodes nodes)
    (hcalled : ∃ m, nodes (.link k) = some m ∧ m.shared.consumer.called = true)
    (hcalls : ∀ call, underway nodes call = true →
      call = (.consumer, .link k) ∨ underway s.nodes call = true) :
    (({ s with attach := attach, nodes := nodes } : ThrowingChain E V X).setThread 0
      [.setCallback (.link k)]).Inv inline stages := by
  have hswap : Swapped [] [.setCallback (.link k)] s.threads
      (s.threads.set 0 [.setCallback (.link k)]) := Swapped.top h0 _
  refine ⟨hbuilt, ?_, ?_, hs.unviolated, set_ne_nil hs.builder _ _⟩
  · exact hpromises.of_views (held_of_swapped hswap (by simp) (by simp [Frame.holder])) (fun _ => rfl)
      (fun _ => rfl) (fun _ => rfl) fun _ => rfl
  · refine hs.calls.swap hgrown hswap (fun f hf => ?_) fun call hcall => ⟨by simp, ?_⟩
    · obtain rfl := List.mem_singleton.mp hf
      exact hcalled
    · rcases hcalls call hcall with rfl | hcall
      · exact .inr ⟨_, List.mem_cons_self, rfl⟩
      · exact .inl hcall

theorem callback_grown (m : Node E V X) (lambda : Lambda E V X) : m.Grown (m.callback lambda) :=
  ⟨id, fun _ => rfl, id⟩

theorem underway_callback {nodes : Place → Option (Node E V X)} {k : Nat} {m : Node E V X}
    (hm : nodes (.link k) = some m) {lambda : Lambda E V X} {call : Party × Place}
    (hcall : underway (Function.update nodes (.link k) (some (m.callback lambda))) call = true) :
    call = (.consumer, .link k) ∨ underway nodes call = true := by
  obtain ⟨party, b⟩ := call
  by_cases hthis : party = .consumer ∧ b = .link k
  · exact .inl (by rw [hthis.1, hthis.2])
  · refine .inr (underway_of_update hcall fun hb hcall => ⟨m, hm, ?_⟩)
    cases party with
    | producer => exact hcall
    | consumer => exact absurd ⟨rfl, hb⟩ hthis

theorem Inv.via (hs : s.Inv inline stages) {e : E} {rest : List (ChainStage E V X)} {k : Nat}
    (hattach : s.attach = .stages (.via e :: rest) k) {m : Node E V X}
    (hm : s.nodes (.link k) = some m) :
    ({ s.setNode (.link k)
        { m with shared := { m.shared with state := m.shared.state.setExecutor e } } with
      attach := .stages rest k } : ThrowingChain E V X).Inv inline stages := by
  have hbuilt := hs.built
  rw [hattach] at hbuilt
  refine ⟨hbuilt.via hm, hs.promises.moves hm rfl rfl rfl, ?_, hs.unviolated, hs.builder⟩
  refine hs.calls.swap (.update fun n hn => ?_) .rfl nofun fun call hcall => ⟨nofun, .inl ?_⟩
  · obtain rfl : m = n := Option.some.inj (hm.symm.trans hn)
    exact ⟨id, id, id⟩
  · refine underway_of_update hcall fun _ hcall => ⟨m, hm, ?_⟩
    revert hcall
    cases call.1 <;> exact id

theorem Inv.attachLambda (hs : s.Inv inline stages) {stage : ChainStage E V X}
    {rest : List (ChainStage E V X)} {k : Nat} (hattach : s.attach = .stages (stage :: rest) k)
    {lambda : Nat → Lambda E V X} (hlambda : lambdas (stage :: rest) = lambda :: lambdas rest)
    (h0 : s.threads[0]? = some []) {m : Node E V X} (hm : s.nodes (.link k) = some m) :
    ({ ((s.setNode (.link k) (m.callback (lambda (k + 1)))).setNode (.link (k + 1))
        (.new m.shared.state.getExecutor)).setThread 0 [.setCallback (.link k)] with
      attach := .stages rest (k + 1) } : ThrowingChain E V X).Inv inline stages := by
  have hbuilt := hs.built
  rw [hattach] at hbuilt
  obtain ⟨-, hahead⟩ := hbuilt.ahead _ _ rfl
  rw [hlambda] at hahead
  have hk : (lambdas stages)[k]? = some lambda := by
    have := congrArg (·[0]?) hahead
    simpa [eq_comm] using this
  have hlt : k < (lambdas stages).length := (List.getElem?_eq_some_iff.mp hk).1
  have hrest : lambdas rest = (lambdas stages).drop (k + 1) := by
    have := congrArg List.tail hahead
    simpa using this
  have hnone := hbuilt.next
  have hlambdaOf : lambdaOf stages (.link k) = lambda (k + 1) := by simp [lambdaOf, hk]
  have hne : Place.link (k + 1) ≠ .link k := by simp
  refine hs.attach h0 ?_ ?_ ?_ ⟨m.callback (lambda (k + 1)), ?_, rfl⟩ fun call hcall => ?_
  · refine hbuilt.call hm (fun rest' j h => ?_) rfl (fun a ha => ?_) (fun m' hm' => ?_) ?_
    · cases h
      exact ⟨hlt, hrest⟩
    · rw [hlambdaOf]
      exact Function.update_of_ne ha ..
    · obtain rfl : Node.new m.shared.state.getExecutor = m' := by
        simpa [setNode, setThread] using hm'
      obtain ⟨r, -⟩ := (hbuilt.ok _ m hm).shared
      exact ⟨rfl, .new _ _ _ r⟩
    · simpa [setNode, setThread, Nat.succ_le_iff] using hlt
  · have hmoves : Promises (lambdas stages).length (Function.update s.nodes (.link k)
        (some (m.callback (lambda (k + 1))))) s.threads s.released :=
      hs.promises.moves hm rfl rfl rfl
    exact hmoves.made (by rw [Function.update_of_ne hne, hnone]) _
  · refine (Grown.update fun n hn => ?_).trans (.update fun n hn => ?_)
    · obtain rfl : m = n := Option.some.inj (hm.symm.trans hn)
      exact callback_grown m _
    · rw [Function.update_of_ne hne, hnone] at hn
      cases hn
  · simp [setNode, setThread]
  · refine underway_callback hm (underway_of_update hcall fun _ hcall => ?_)
    revert hcall
    cases call.1 <;> rintro ⟨⟩

theorem Inv.attachFinal (hs : s.Inv inline stages) {k : Nat} (hattach : s.attach = .stages [] k)
    (h0 : s.threads[0]? = some []) {m : Node E V X} (hm : s.nodes (.link k) = some m) :
    ({ (s.setNode (.link k) (m.callback .final)).setThread 0 [.setCallback (.link k)] with
      attach := .subscribed } : ThrowingChain E V X).Inv inline stages := by
  have hbuilt := hs.built
  rw [hattach] at hbuilt
  obtain ⟨hle, hahead⟩ := hbuilt.ahead _ _ rfl
  have hk : k = (lambdas stages).length :=
    Nat.le_antisymm hle (List.drop_eq_nil_iff.mp hahead.symm)
  have hnone := hbuilt.next
  refine hs.attach h0 ?_ (hs.promises.moves hm rfl rfl rfl) (.update fun n hn => ?_)
    ⟨m.callback .final, by simp [setNode, setThread], rfl⟩ fun call hcall => underway_callback hm hcall
  · refine hbuilt.call hm nofun (by simp [Attaching.attached, hk]) (fun a _ => ?_)
      (fun m' hm' => ?_) ?_
    · rw [lambdaOf_last hk.ge]
      rfl
    · simp [setNode, setThread, hnone] at hm'
    · simpa [setNode, setThread, hnone, Nat.lt_succ_iff] using hk.ge
  · obtain rfl : m = n := Option.some.inj (hm.symm.trans hn)
    exact callback_grown m _

end ThrowingChain

/-! What a step does. -/

/-- A step of a run in which no exception is caught. -/
inductive ThrowingChain.Steps (inline : E → Bool) (stages : List (ChainStage E V X))
    (s : ThrowingChain E V X) : ThrowingChain E V X → Prop
  | move {a : Place} {m : Node E V X} {shared : Rendezvous E (Except X V) (Lambda E V X)}
      (ha : s.nodes a = some m) (hmoved : Moved (lambdaOf stages a) m.shared shared)
      (hlt : shared.producer.remaining + shared.consumer.remaining <
        m.shared.producer.remaining + m.shared.consumer.remaining)
      (hquiet : ∀ t, shared.submitted[m.shared.submitted.length]? = some t →
        inline t.executor = false) : Steps inline stages s (s.setNode a { m with shared := shared })
  | start {a : Place} {m : Node E V X} {shared : Rendezvous E (Except X V) (Lambda E V X)}
      {val : Except X V} {threads : List (List (Frame E V X))} (ha : s.nodes a = some m)
      (hmoved : Moved (lambdaOf stages a) m.shared shared) (hran : m.ran = [])
      (hok : NodeOk inline (lambdaOf stages a) ⟨shared, [0]⟩)
      (hswap : Swapped [] [.call (lambdaOf stages a) val] s.threads threads)
      (hne : threads ≠ []) :
      Steps inline stages s { s.setNode a ⟨shared, [0]⟩ with threads := threads }
  | pop {i : Nat} {f : Frame E V X} {stack : List (Frame E V X)}
      (hi : s.threads[i]? = some (f :: stack)) (hholder : f.holder = none)
      (hreturned : ∀ call, f.drives = some call → underway s.nodes call = false) :
      Steps inline stages s (s.setThread i stack)
  | set {i : Nat} {f : Frame E V X} {stack : List (Frame E V X)}
      (hi : s.threads[i]? = some (f :: stack)) {p : Nat}
      (hp : f.holder = some (.stage p) ∨ f.holder = some (.forward p)) (r : Except X V)
      (tried : Bool) : Steps inline stages s
        ((s.release p r).setThread i (.setResult (.link p) :: .waiting tried :: stack))
  | subscribe {i : Nat} {f : Frame E V X} {stack : List (Frame E V X)}
      (hi : s.threads[i]? = some (f :: stack)) {p : Nat} (hp : f.holder = some (.stage p))
      (d : Deferred E V X) : Steps inline stages s
        { s.setNode (.inner p) ⟨⟨makeSharedState d.executor, .writeResult d.result,
            .writeCallback (.forward p), []⟩, []⟩ with
          threads := s.threads.set i (.setCallback (.inner p) :: .waiting true :: stack) ++
            [[.setResult (.inner p), .waiting d.tried]] }
  | throw {i : Nat} {val : Except X V} {stack : List (Frame E V X)}
      (hi : s.threads[i]? = some (.call .final val :: stack))
      (hquiet : stack.any Frame.tried = false) : Steps inline stages s
        { s.setThread i [] with thrown := true, violated := s.violated || stack.any Frame.tried }
  | via {e : E} {rest : List (ChainStage E V X)} {k : Nat} {m : Node E V X}
      (hattach : s.attach = .stages (.via e :: rest) k) (hm : s.nodes (.link k) = some m) :
      Steps inline stages s
        { s.setNode (.link k)
            { m with shared := { m.shared with state := m.shared.state.setExecutor e } } with
          attach := .stages rest k }
  | lambda {stage : ChainStage E V X} {rest : List (ChainStage E V X)} {k : Nat} {m : Node E V X}
      {lambda : Nat → Lambda E V X} (hattach : s.attach = .stages (stage :: rest) k)
      (hlambda : lambdas (stage :: rest) = lambda :: lambdas rest) (h0 : s.threads[0]? = some [])
      (hm : s.nodes (.link k) = some m) : Steps inline stages s
        { ((s.setNode (.link k) (m.callback (lambda (k + 1)))).setNode (.link (k + 1))
            (.new m.shared.state.getExecutor)).setThread 0 [.setCallback (.link k)] with
          attach := .stages rest (k + 1) }
  | final {k : Nat} {m : Node E V X} (hattach : s.attach = .stages [] k)
      (h0 : s.threads[0]? = some []) (hm : s.nodes (.link k) = some m) : Steps inline stages s
        { (s.setNode (.link k) (m.callback .final)).setThread 0 [.setCallback (.link k)] with
          attach := .subscribed }

/-- A lambda sets the promise that it holds, or hands it on to the future of its
continuation. -/
theorem Lambda.call_cases (lib : ResultLibrary V X) (finalThrows : Except X V → Bool)
    (lambda : Lambda E V X) (val : Except X V) :
    (∃ p r tried, lambda.call lib finalThrows val = .set p r tried ∧
      (lambda.holder = some (.stage p) ∨ lambda.holder = some (.forward p))) ∨
    (∃ p d, lambda.call lib finalThrows val = .subscribe p d ∧ lambda.holder = some (.stage p)) ∨
    lambda.call lib finalThrows val = .finish ∧ lambda.holder = none ∨
    lambda.call lib finalThrows val = .throw := by
  cases lambda with
  | forward p => exact .inl ⟨p, val, false, rfl, .inr rfl⟩
  | final =>
    cases h : finalThrows val with
    | true => exact .inr (.inr (.inr (by simp [Lambda.call, h])))
    | false => exact .inr (.inr (.inl (by simp [Lambda.call, h, Lambda.holder])))
  | recover handler p =>
    cases h : recoverLambda lib handler val with
    | none => exact .inr (.inr (.inr (by simp [Lambda.call, h])))
    | some r => exact .inl ⟨p, r, r.toBool, by simp [Lambda.call, h], .inl rfl⟩
  | then_ c p =>
    cases c with
    | sync f => exact .inl ⟨p, val.bind f, _, rfl, .inl rfl⟩
    | async g =>
      cases h : val.bind g with
      | error e => exact .inl ⟨p, .error e, false, by simp [Lambda.call, h], .inl rfl⟩
      | ok d => exact .inr (.inl ⟨p, d, by simp [Lambda.call, h], rfl⟩)

namespace ThrowingChain

variable {inline : E → Bool} {stages : List (ChainStage E V X)} {s t : ThrowingChain E V X}
  {lib : ResultLibrary V X} {finalThrows : Except X V → Bool} {origin : Origin E V X}

theorem attachStep_cases (ht : s.attachStep = some t) : s.Steps inline stages t := by
  unfold ThrowingChain.attachStep at ht
  split at ht
  · rename_i h0
    cases hattach : s.attach with
    | subscribed => simp [hattach] at ht
    | stages rest k =>
      cases rest with
      | nil =>
        simp only [hattach, Option.map_eq_some_iff] at ht
        obtain ⟨m, hm, rfl⟩ := ht
        exact .final hattach h0 hm
      | cons stage rest =>
        cases stage with
        | via e =>
          simp only [hattach, Option.map_eq_some_iff] at ht
          obtain ⟨m, hm, rfl⟩ := ht
          exact .via hattach hm
        | then_ c | recover handler =>
          simp only [hattach, attachLambda, Option.map_eq_some_iff] at ht
          obtain ⟨m, hm, rfl⟩ := ht
          exact .lambda hattach rfl h0 hm
  · cases ht

theorem call_cases {i : Nat} {lambda : Lambda E V X} {val : Except X V}
    {stack : List (Frame E V X)} (hi : s.threads[i]? = some (.call lambda val :: stack))
    (hquiet : s.quiet lib finalThrows (.thread i) = true) :
    s.Steps inline stages (s.act i stack (lambda.call lib finalThrows val)) := by
  rcases lambda.call_cases lib finalThrows val with
    ⟨p, r, tried, hcall, hp⟩ | ⟨p, d, hcall, hp⟩ | ⟨hcall, hholder⟩ | hcall
  · rw [hcall]
    exact .set hi hp r tried
  · rw [hcall]
    exact .subscribe hi hp d
  · rw [hcall]
    exact .pop hi hholder nofun
  · rw [hcall]
    simp only [quiet, hi, hcall] at hquiet
    cases lambda with
    | final => exact .throw hi (by simpa using hquiet)
    | _ => simp at hquiet

/-- A call on a shared state takes a step, and its task, if it submits one to an inline
executor, is called on top of it. -/
theorem Inv.advance_cases (hs : s.Inv inline stages) {i : Nat} {f : Frame E V X}
    {stack : List (Frame E V X)} (hi : s.threads[i]? = some (f :: stack)) {a : Place}
    {m : Node E V X} (ha : s.nodes a = some m)
    {shared : Rendezvous E (Except X V) (Lambda E V X)}
    (hmoved : Moved (lambdaOf stages a) m.shared shared)
    (hlt : shared.producer.remaining + shared.consumer.remaining <
      m.shared.producer.remaining + m.shared.consumer.remaining) :
    s.Steps inline stages (s.advance inline i f stack a m shared) := by
  unfold ThrowingChain.advance
  split
  · rename_i hnone
    exact .move ha hmoved hlt (by simp [hnone])
  · rename_i t ht
    split
    · obtain ⟨hzero, hran, hcallback, ⟨val, hval⟩, hok⟩ :=
        (hs.built.ok a m ha).starts hmoved.inv ht (.inl rfl)
      simp only [hcallback, hval, hzero, hran]
      exact .start ha hmoved hran hok
        (Swapped.push hi [.call (lambdaOf stages a) val]) (set_ne_nil hs.builder _ _)
    · rename_i hinline
      exact .move ha hmoved hlt (by simpa [ht] using hinline)

theorem Inv.step_cases (hs : s.Inv inline stages) {l : ThrowingLabel}
    (hquiet : s.quiet lib finalThrows l = true)
    (ht : s.step lib finalThrows inline origin l = some t) : s.Steps inline stages t := by
  cases l with
  | attach => exact attachStep_cases ht
  | thread i =>
    simp only [ThrowingChain.step] at ht
    split at ht
    · rename_i f stack hi
      cases f with
      | origin =>
        obtain rfl := Option.some.inj ht
        cases origin <;> exact .set hi (.inl rfl) _ _
      | call lambda val =>
        obtain rfl := Option.some.inj ht
        exact call_cases hi hquiet
      | waiting tried =>
        obtain rfl := Option.some.inj ht
        exact .pop hi rfl nofun
      | setResult a =>
        obtain ⟨m, ha, ht⟩ := Option.bind_eq_some_iff.mp ht
        split at ht
        · rename_i hreturned
          obtain rfl := Option.some.inj ht
          refine .pop hi rfl fun call hcall => ?_
          obtain rfl := Option.some.inj hcall
          simp [underway, ha, Node.underway, hreturned, SetResult.underway]
        · obtain ⟨shared, hshared, rfl⟩ := Option.map_eq_some_iff.mp ht
          obtain ⟨hlt, -, -, hconsumer⟩ := Rendezvous.setResult_remaining hshared
          exact hs.advance_cases hi ha (.of_setResult hshared) (by rw [hconsumer]; omega)
      | setCallback a =>
        obtain ⟨m, ha, ht⟩ := Option.bind_eq_some_iff.mp ht
        split at ht
        · rename_i hreturned
          obtain rfl := Option.some.inj ht
          refine .pop hi rfl fun call hcall => ?_
          obtain rfl := Option.some.inj hcall
          simp [underway, ha, Node.underway, hreturned, SetCallback.underway]
        · obtain ⟨shared, hshared, rfl⟩ := Option.map_eq_some_iff.mp ht
          obtain ⟨hlt, -, -, hproducer⟩ := Rendezvous.setCallback_remaining hshared
          exact hs.advance_cases hi ha (.of_setCallback hshared) (by rw [hproducer]; omega)
    · cases ht
  | run a task =>
    obtain ⟨m, ha, ht⟩ := Option.bind_eq_some_iff.mp ht
    obtain ⟨hmem, ht⟩ := Option.ite_none_left_eq_some.mp ht
    obtain ⟨submission, hsub, ht⟩ := Option.bind_eq_some_iff.mp ht
    obtain ⟨-, ht⟩ := Option.ite_none_left_eq_some.mp ht
    obtain ⟨rfl, hran, hcallback, ⟨val, hval⟩, hok⟩ :=
      (hs.built.ok a m ha).starts (fun _ => id) hsub (.inr hmem)
    simp only [hcallback, hval, hran, Option.some.injEq] at ht
    subst ht
    exact .start ha (.refl _ _) hran hok (Swapped.spawn _ _) (by simp)

theorem Inv.steps (hs : s.Inv inline stages) (h : s.Steps inline stages t) :
    t.Inv inline stages := by
  cases h with
  | move ha hmoved _ hquiet => exact hs.move ha hmoved hquiet
  | start ha hmoved hran hok hswap hne => exact hs.start ha hmoved hran hok hswap hne
  | pop hi hholder hreturned => exact hs.pop hi hholder hreturned
  | set hi hp r tried => exact hs.set hi hp r tried
  | subscribe hi hp d => exact hs.subscribe hi hp d
  | throw hi hquiet => exact hs.throw hi hquiet
  | via hattach hm => exact hs.via hattach hm
  | lambda hattach hlambda h0 hm => exact hs.attachLambda hattach hlambda h0 hm
  | final hattach h0 hm => exact hs.attachFinal hattach h0 hm

theorem Inv.init (lib : ResultLibrary V X) (finalThrows : Except X V → Bool) (inline : E → Bool)
    (origin : Origin E V X) (stages : List (ChainStage E V X)) :
    (throwingChain lib finalThrows inline origin stages).init.Inv inline stages := by
  have hswap : Swapped [] [Frame.origin] [[]] (throwingChain lib finalThrows inline origin
      stages).init.threads := by
    simp only [throwingChain]
    split
    · exact Swapped.push (i := 0) rfl [Frame.origin]
    · exact Swapped.spawn [[]] [Frame.origin]
  refine ⟨.init inline stages _ origin.result, .init _ _ hswap, ⟨fun f hf => ?_, fun _ call h => ?_,
    nofun⟩, rfl, ?_⟩
  · rcases hswap.mem f hf with ⟨stack, hstack, hf⟩ | hf
    · rw [List.mem_singleton.mp hstack] at hf
      cases hf
    · obtain rfl := List.mem_singleton.mp hf
      trivial
  · have hnone := underway_of_update h fun _ hnew => by
      obtain ⟨party, a⟩ := call
      cases party <;> cases hnew
    cases hnone
  · simp only [throwingChain]
    split <;> simp

end ThrowingChain

/-! Runs end. -/

/-- The links of a chain of `n` stages, and the futures of its continuations. -/
def places (n : Nat) : Finset Place :=
  (Finset.range (n + 1)).image .link ∪ (Finset.range (n + 1)).image .inner

/-- A task that is still to be called counts more than the call. -/
def Node.remaining (m : Node E V X) : Nat :=
  m.shared.producer.remaining + m.shared.consumer.remaining + 6 * (1 - m.ran.length)

def nodeSlot : Option (Node E V X) → Nat
  | none => 24
  | some m => m.remaining

def Frame.weight : Frame E V X → Nat
  | .origin | .call _ _ => 5
  | .waiting _ | .setResult _ | .setCallback _ => 1

def Attaching.remaining : Attaching E V X → Nat
  | .stages rest _ => 2 * rest.length + 2
  | .subscribed => 0

def ThrowingChain.remaining (n : Nat) (s : ThrowingChain E V X) : Nat :=
  s.attach.remaining + tally (places n) nodeSlot s.nodes + load Frame.weight s.threads

theorem Frame.weight_of_holder {f : Frame E V X} {h : PromiseHolder} (hf : f.holder = some h) :
    f.weight = 5 := by
  cases f <;> simp_all [Frame.holder, Frame.weight]

theorem Frame.weight_pos (f : Frame E V X) : 0 < f.weight := by
  cases f <;> simp [Frame.weight]

namespace ThrowingChain

variable {inline : E → Bool} {stages : List (ChainStage E V X)} {s t : ThrowingChain E V X}

theorem Inv.mem_places (hs : s.Inv inline stages) {a : Place} {m : Node E V X}
    (ha : s.nodes a = some m) : a ∈ places (lambdas stages).length := by
  cases a with
  | link k =>
    have := ((hs.built.made k).mp (by simp [ha])).1
    simpa [places, Nat.lt_succ_iff] using this
  | inner p =>
    have := (hs.built.inner p m ha).1
    simpa [places, Nat.lt_succ_iff] using this

theorem Inv.remaining_lt (hs : s.Inv inline stages) (h : s.Steps inline stages t) :
    t.remaining (lambdas stages).length < s.remaining (lambdas stages).length := by
  have hle (nodes : Place → Option (Node E V X)) (a : Place) (m : Node E V X)
      (h : m.remaining ≤ nodeSlot (nodes a)) :=
    tally_update_le (s := places (lambdas stages).length) nodeSlot nodes (a := some m) h
  cases h with
  | @move a m shared ha hmoved hlt hquiet =>
    have htally := tally_update_lt nodeSlot s.nodes (a := some { m with shared := shared })
      (hs.mem_places ha) (by simpa [ha, nodeSlot, Node.remaining] using hlt)
    simp only [remaining, setNode]
    omega
  | @start a m shared val threads ha hmoved hran hok hswap hne =>
    have htally := tally_update nodeSlot s.nodes (hs.mem_places ha) (some ⟨shared, [0]⟩)
    have hload := hswap.load Frame.weight
    have hmoves := hmoved.remaining
    simp only [ha, nodeSlot, Node.remaining, hran, List.length_nil, List.length_cons, stackLoad_nil,
      stackLoad_cons, Frame.weight] at htally hload
    simp only [remaining, setNode]
    omega
  | @pop i f stack hi hholder hreturned =>
    have hload := load_set Frame.weight hi stack
    have hpos := f.weight_pos
    simp only [stackLoad_cons] at hload
    simp only [remaining, setThread]
    omega
  | @set i f stack hi p hp r tried =>
    obtain ⟨-, m, hm, hproducer⟩ := hs.unreleased (onStack_top hi) hp
    have htally := hle s.nodes (.link p)
      { m with shared := { m.shared with producer := .writeResult r } } (by
        simp [hm, nodeSlot, Node.remaining, hproducer, SetResult.remaining])
    have hload := load_set Frame.weight hi (.setResult (.link p) :: .waiting tried :: stack)
    have hfive : f.weight = 5 := hp.elim Frame.weight_of_holder Frame.weight_of_holder
    rw [stackLoad_cons, hfive] at hload
    simp only [stackLoad_cons, Frame.weight] at hload
    dsimp only at htally
    simp only [remaining, release, hm, hproducer, setThread, setNode]
    omega
  | @subscribe i f stack hi p hp d =>
    have hnone := hs.inner_none (onStack_top hi) hp
    have htally := hle s.nodes (.inner p) ⟨⟨makeSharedState d.executor, .writeResult d.result,
      .writeCallback (.forward p), []⟩, []⟩ (by
        simp [hnone, nodeSlot, Node.remaining, SetResult.remaining, SetCallback.remaining])
    have hload := load_set Frame.weight hi (.setCallback (.inner p) :: .waiting true :: stack)
    rw [stackLoad_cons, Frame.weight_of_holder hp] at hload
    simp only [stackLoad_cons, Frame.weight] at hload
    simp only [remaining, setNode, load_spawn, stackLoad_cons, stackLoad_nil, Frame.weight]
    omega
  | throw hi hquiet =>
    have hload := load_set Frame.weight hi []
    simp only [stackLoad_cons, stackLoad_nil, Frame.weight] at hload
    simp only [remaining, setThread]
    omega
  | @via e rest k m hattach hm =>
    have htally := hle s.nodes (.link k)
      { m with shared := { m.shared with state := m.shared.state.setExecutor e } } (by
        simp [hm, nodeSlot, Node.remaining])
    dsimp only at htally
    simp only [remaining, setNode, hattach, Attaching.remaining, List.length_cons]
    omega
  | @lambda stage rest k m lambda hattach hlambda h0 hm =>
    have hbuilt := hs.built
    rw [hattach] at hbuilt
    have htally := hle s.nodes (.link k) (m.callback (lambda (k + 1))) (by
      simp [hm, nodeSlot, Node.remaining, Node.callback, hbuilt.notCalled hm, SetCallback.remaining])
    have htally' := hle (Function.update s.nodes (.link k) (some (m.callback (lambda (k + 1)))))
      (.link (k + 1)) (.new m.shared.state.getExecutor) (by
        simp [hbuilt.next, nodeSlot, Node.remaining, Node.new, SetResult.remaining,
          SetCallback.remaining])
    have hload := load_set Frame.weight h0 [.setCallback (.link k)]
    simp only [stackLoad_cons, stackLoad_nil, Frame.weight] at hload
    simp only [remaining, setNode, setThread, hattach, Attaching.remaining, List.length_cons]
    omega
  | @final k m hattach h0 hm =>
    have hbuilt := hs.built
    rw [hattach] at hbuilt
    have htally := hle s.nodes (.link k) (m.callback .final) (by
      simp [hm, nodeSlot, Node.remaining, Node.callback, hbuilt.notCalled hm, SetCallback.remaining])
    have hload := load_set Frame.weight h0 [.setCallback (.link k)]
    simp only [stackLoad_cons, stackLoad_nil, Frame.weight] at hload
    simp only [remaining, setNode, setThread, hattach, Attaching.remaining, List.length_nil]
    omega

variable {lib : ResultLibrary V X} {finalThrows : Except X V → Bool} {origin : Origin E V X}

/-! Runs that cannot go on. -/

/-- A call at the top of a stack that has not thrown takes a step. -/
theorem frameStep_isSome (lib : ResultLibrary V X) (finalThrows : Except X V → Bool)
    (origin : Origin E V X) (hs : s.Inv inline stages) {i : Nat} {f : Frame E V X}
    {stack : List (Frame E V X)} (hi : s.threads[i]? = some (f :: stack)) :
    (s.frameStep lib finalThrows inline origin i stack f).isSome := by
  cases f with
  | origin | call | waiting => rfl
  | setResult a =>
    obtain ⟨m, ha, hcalled⟩ := hs.calls.frames _ (onStack_top hi)
    simp only [frameStep, ha, Option.bind_some]
    split
    · rfl
    · rename_i hne
      rw [Option.isSome_map]
      exact Rendezvous.setResult_isSome (fun h => by simp [h, SetResult.called] at hcalled) hne
  | setCallback a =>
    obtain ⟨m, ha, hcalled⟩ := hs.calls.frames _ (onStack_top hi)
    simp only [frameStep, ha, Option.bind_some]
    split
    · rfl
    · rename_i hne
      rw [Option.isSome_map]
      exact Rendezvous.setCallback_isSome (fun h => by simp [h, SetCallback.called] at hcalled) hne

theorem Inv.stacks_of_ended (hs : s.Inv inline stages)
    (hend : ∀ l, s.step lib finalThrows inline origin l = none) (f : Frame E V X) :
    ¬ OnStack f s.threads := by
  rintro ⟨stack, hstack, hf⟩
  obtain ⟨i, hi⟩ := List.mem_iff_getElem?.mp hstack
  cases stack with
  | nil => cases hf
  | cons top rest =>
    have hsome := frameStep_isSome lib finalThrows origin hs hi
    have hnone := hend (.thread i)
    simp only [ThrowingChain.step, hi] at hnone
    simp [hnone] at hsome

theorem Inv.attach_of_ended (hs : s.Inv inline stages)
    (hend : ∀ l, s.step lib finalThrows inline origin l = none) : s.attach = .subscribed := by
  have h0 : s.threads[0]? = some [] := by
    cases hthreads : s.threads with
    | nil => exact absurd hthreads hs.builder
    | cons stack threads =>
      cases stack with
      | nil => rfl
      | cons f stack =>
        have hf : s.threads[0]? = some (f :: stack) := by simp [hthreads]
        exact absurd (onStack_top hf) (hs.stacks_of_ended hend f)
  have hnone : s.attachStep = none := hend .attach
  cases hattach : s.attach with
  | subscribed => rfl
  | stages rest k =>
    have hbuilt := hs.built
    rw [hattach] at hbuilt
    obtain ⟨m, hm⟩ := hbuilt.node
    simp only [ThrowingChain.attachStep, h0, hattach] at hnone
    cases rest with
    | nil => simp [hm] at hnone
    | cons stage rest => cases stage <;> simp [hm, ThrowingChain.attachLambda] at hnone

theorem Inv.underway_of_ended (hs : s.Inv inline stages) (hthrown : s.thrown = false)
    (hend : ∀ l, s.step lib finalThrows inline origin l = none) (call : Party × Place) :
    underway s.nodes call = false := by
  by_contra hcall
  have hpos := hs.calls.driven hthrown call (Bool.eq_true_of_not_eq_false hcall)
  have hzero : frameCount Frame.drives call s.threads = 0 :=
    frameCount_eq_zero fun f hf => absurd hf (hs.stacks_of_ended hend f)
  omega

/-- Both calls have returned, so that the task was submitted, and it has been called. -/
theorem Inv.ran_of_ended (hs : s.Inv inline stages) (hthrown : s.thrown = false)
    (hend : ∀ l, s.step lib finalThrows inline origin l = none) {a : Place} {m : Node E V X}
    (ha : s.nodes a = some m) (hp : m.shared.producer.called = true)
    (hq : m.shared.consumer.called = true) : m.ran ≠ [] := by
  have hok := hs.built.ok a m ha
  obtain ⟨r, hr⟩ := hok.shared
  have hproducer : m.shared.producer = .returned := by
    have := hs.underway_of_ended hthrown hend (.producer, a)
    cases h : m.shared.producer <;>
      simp_all [underway, Node.underway, SetResult.underway, SetResult.called]
  have hconsumer : m.shared.consumer = .returned := by
    have := hs.underway_of_ended hthrown hend (.consumer, a)
    cases h : m.shared.consumer <;>
      simp_all [underway, Node.underway, SetCallback.underway, SetCallback.called]
  have hsub := hr.returned hproducer hconsumer
  intro hnil
  have hinline : inline m.shared.state.executor = false := by
    by_contra hinline
    have := hok.inline _ (by rw [hsub]; exact List.mem_cons_self)
      (Bool.eq_true_of_not_eq_false hinline)
    simp [hnil] at this
  have hnone := hend (.run a 0)
  simp [ThrowingChain.step, ha, hnil, hsub, hinline] at hnone

/-- Forwards along the chain: a released state has its task called, and the lambda
has handed its promise on until that is released too. -/
theorem Inv.released_of_ended (hs : s.Inv inline stages) (hthrown : s.thrown = false)
    (hend : ∀ l, s.step lib finalThrows inline origin l = none) {k : Nat}
    (hk : k ≤ (lambdas stages).length) : releasedAt s.nodes k = true := by
  have released_of_claimed {k : Nat} (hk : k ≤ (lambdas stages).length)
      (hclaimed : claimed s.nodes k = true) : releasedAt s.nodes k = true := by
    have hheld (h : PromiseHolder) : held s.threads h = 0 :=
      frameCount_eq_zero fun f hf => absurd hf (hs.stacks_of_ended hend f)
    have hpending : pending s.nodes k = false := by
      cases hinner : s.nodes (.inner k) with
      | none => simp [pending, hinner]
      | some m =>
        obtain ⟨-, hp, hq⟩ := hs.built.inner k m hinner
        simpa [pending, hinner] using hs.ran_of_ended hthrown hend hinner hp hq
    have hcons := hs.promises.conserved k hk
    rw [hheld, hheld, hpending, hclaimed] at hcons
    cases h : releasedAt s.nodes k with
    | true => rfl
    | false => simp [h] at hcons
  induction k with
  | zero => exact released_of_claimed hk rfl
  | succ k ih =>
    refine released_of_claimed hk ?_
    obtain ⟨m, hm, hp⟩ := (Option.any_eq_true _ _).mp (ih (Nat.le_of_succ_le hk))
    have hq : m.shared.consumer.called = true := by
      rw [hs.built.attached k m hm, hs.attach_of_ended hend]
      simp only [Attaching.attached]
      omega
    simpa [claimed, started, hm] using hs.ran_of_ended hthrown hend hm hp hq

theorem inv {s : ThrowingChain E V X} (h : ((throwingChain lib finalThrows inline origin stages).guard
    (quiet lib finalThrows)).Reachable s) : s.Inv inline stages :=
  h.invariant (.init lib finalThrows inline origin stages) fun _ _ _ _ hs ht =>
    hs.steps (hs.step_cases (Machine.guard_step.mp ht).1 (Machine.guard_step.mp ht).2)

theorem Inv.released_all (hs : s.Inv inline stages)
    (hend : ∀ l, s.step lib finalThrows inline origin l = none) {p : Nat}
    (hp : p ≤ (lambdas stages).length) : releasedAt s.nodes p = true := by
  cases hthrown : s.thrown with
  | true => exact hs.released_of_started (Nat.le_refl _) (hs.calls.thrown hthrown) hp
  | false => exact hs.released_of_ended hthrown hend hp

end ThrowingChain

end

/-- A continuation returns a future of `futures::Execute`, whose lambda calls the final
callback inside of its `try`. -/
example : ∃ s, (throwingChain ⟨fun _ => none, id⟩ (fun _ => true) id (.contract true (.ok 1))
      [.then_ (.async fun v => .ok ⟨true, .ok (v + 1), true⟩)] :
        Machine (ThrowingChain Bool Nat Nat) ThrowingLabel).Reachable s ∧ s.violated = true :=
  Machine.exists_reachable_of_exec (p := fun s : ThrowingChain Bool Nat Nat => s.violated)
    (List.flatten [.attach :: List.replicate 4 (.thread 0), .attach :: List.replicate 4 (.thread 0),
      List.replicate 17 (.thread 1), List.replicate 14 (.thread 2)]) (by decide +kernel)

end ConcurrentProgramming.Futures
