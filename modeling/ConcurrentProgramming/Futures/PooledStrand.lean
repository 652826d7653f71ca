import ConcurrentProgramming.Futures.Strand

/-!
`Strand` over a pool that catches what `Run` throws, and that is stopped: in either
case the pool calls `Discard` on the strand, which does nothing, and after `Stop` it
rejects what it is given.
-/

set_option autoImplicit false

namespace ConcurrentProgramming.Futures
open Interleaving

universe u v w x

/-- `threw` lists the tasks whose `Run` threw, `discarded` the tasks whose `Discard`
was called. `dropped` says that the pool has discarded or rejected the strand. -/
structure PooledStrand (A : Type u) (T : Type v) (F : Type w) (R : Type x) where
  strand : Strand A T F R
  stopped : Bool
  threw : List T
  discarded : List T
  dropped : Bool

/-- `throw` is the end of a task's `Run` by an exception, which leaves the strand's
`Run` as well; `discard` is the call that `Stop` makes for a submission. -/
inductive PooledLabel (A : Type u) (T : Type v) (F : Type w) (R : Type x) where
  | strand (l : StrandLabel A T F R)
  | throw (r : R)
  | stop
  | discard

namespace Strand

/-- `Strand::Discard`, with the tasks that it discards. -/
def discard {A : Type u} {T : Type v} {F : Type w} {R : Type x} (s : Strand A T F R) :
    Strand A T F R × List T := (s, [])

/-- The step is the call of `slave_.Execute(this)`. -/
def submits {A : Type u} {T : Type v} {F : Type w} {R : Type x} (s : Strand A T F R) :
    StrandLabel A T F R → Bool
  | .stepExecute f => match s.executes f with
    | .schedule => true
    | _ => false
  | .stepRun r => match s.runs r with
    | .schedule => true
    | _ => false
  | _ => false

/-- The step is a compare-exchange that succeeds. -/
def accepts {A : Type u} {T : Type v} {F : Type w} {R : Type x} [DecidableEq A]
    (s : Strand A T F R) : StrandLabel A T F R → Bool
  | .stepExecute f => match s.executes f with
    | .compareExchange _ expected => s.tasks = expected
    | _ => false
  | _ => false

/-- Everything has returned. -/
structure AtRest {A : Type u} {T : Type v} {F : Type w} {R : Type x} (s : Strand A T F R) :
    Prop where
  pending : s.pending = 0
  runs : ∀ r, s.runs r = .idle
  executes : ∀ f, s.executes f = .idle

end Strand

namespace PooledStrand

def step {A : Type u} {T : Type v} {F : Type w} {R : Type x} [DecidableEq A] [DecidableEq F]
    [DecidableEq R] (s : PooledStrand A T F R) :
    PooledLabel A T F R → Option (PooledStrand A T F R)
  | .strand l =>
    (s.strand.step l).map fun t =>
      if s.stopped && s.strand.submits l then
        -- `Put` returns false
        { s with strand := { t with pending := s.strand.pending }, dropped := true }
      else { s with strand := t }
  | .throw r =>
    match s.strand.runs r with
    | .running a =>
      (s.strand.heap a).map fun n =>
        let (t, tasks) := (s.strand.gotoRun r .idle).discard
        { s with strand := t, threw := s.threw ++ [n.task], discarded := s.discarded ++ tasks }
    | _ => none
  | .stop => if s.stopped then none else some { s with stopped := true }
  | .discard =>
    if s.stopped ∧ 0 < s.strand.pending then
      let (t, tasks) := s.strand.discard
      some { s with
        strand := { t with pending := t.pending - 1 }
        discarded := s.discarded ++ tasks
        dropped := true }
    else none

/-- Nothing is left behind when the strand is dropped, and nothing comes after it. -/
def inOrder {A : Type u} {T : Type v} {F : Type w} {R : Type x} [DecidableEq A]
    (s : PooledStrand A T F R) : PooledLabel A T F R → Bool
  | .strand l =>
    !(s.dropped && s.strand.accepts l) &&
      !(s.stopped && s.strand.submits l && s.strand.tasks.isSome)
  | .discard => s.strand.tasks.isNone
  | _ => true

end PooledStrand

def PooledLabel.throws {A : Type u} {T : Type v} {F : Type w} {R : Type x} :
    PooledLabel A T F R → Bool
  | .throw _ => true
  | _ => false

def PooledLabel.stops {A : Type u} {T : Type v} {F : Type w} {R : Type x} :
    PooledLabel A T F R → Bool
  | .stop => true
  | _ => false

def pooledStrand (A : Type u) (T : Type v) (F : Type w) (R : Type x) [DecidableEq A]
    [DecidableEq F] [DecidableEq R] : Machine (PooledStrand A T F R) (PooledLabel A T F R) where
  init := ⟨(strand A T F R).init, false, [], [], false⟩
  step := PooledStrand.step

/-- Tasks throw; the pool is not stopped. -/
def throwingStrand (A : Type u) (T : Type v) (F : Type w) (R : Type x) [DecidableEq A]
    [DecidableEq F] [DecidableEq R] : Machine (PooledStrand A T F R) (PooledLabel A T F R) :=
  (pooledStrand A T F R).guard fun _ l => !l.stops

/-- The pool is stopped at some time; tasks do not throw. -/
def stoppedStrand (A : Type u) (T : Type v) (F : Type w) (R : Type x) [DecidableEq A]
    [DecidableEq F] [DecidableEq R] : Machine (PooledStrand A T F R) (PooledLabel A T F R) :=
  (pooledStrand A T F R).guard fun _ l => !l.throws

/-- The flag is taken, and nobody will give it back. -/
structure Strand.Dead {A : Type u} {T : Type v} {F : Type w} {R : Type x} (s : Strand A T F R) :
    Prop where
  taken : s.reschedule = false
  pending : s.pending = 0
  executes : ∀ f, s.executes f ≠ .schedule
  runs : ∀ r, (s.runs r).holding = false

namespace Strand

theorem Dead.gotoExecute {A : Type u} {T : Type v} {F : Type w} {R : Type x} [DecidableEq F]
    {s : Strand A T F R} (hs : s.Dead) (f : F) (pc : Execute A) (hpc : pc ≠ .schedule) :
    (s.gotoExecute f pc).Dead := by
  refine ⟨hs.taken, hs.pending, fun g => ?_, hs.runs⟩
  by_cases hg : g = f
  · subst hg
    simpa [Strand.gotoExecute] using hpc
  · simpa [Strand.gotoExecute, hg] using hs.executes g

theorem Dead.gotoRun {A : Type u} {T : Type v} {F : Type w} {R : Type x} [DecidableEq R]
    {s : Strand A T F R} (hs : s.Dead) (r : R) (pc : Run A) (hpc : pc.holding = false) :
    (s.gotoRun r pc).Dead := by
  refine ⟨hs.taken, hs.pending, hs.executes, fun q => ?_⟩
  by_cases hq : q = r
  · subst hq
    simpa [Strand.gotoRun] using hpc
  · simpa [Strand.gotoRun, hq] using hs.runs q

theorem Dead.executeStep {A : Type u} {T : Type v} {F : Type w} {R : Type x} [DecidableEq A]
    [DecidableEq F] {s t : Strand A T F R} (hs : s.Dead) {f : F}
    (ht : s.executeStep f = some t) : t.Dead ∧ t.ran = s.ran ∧
      ∃ tasks, t.accepted = s.accepted ++ tasks ∧
        (s.accepts (.stepExecute f : StrandLabel A T F R) = !tasks.isEmpty) := by
  unfold Strand.executeStep at ht
  cases hpc : s.executes f with
  | idle => simp [hpc] at ht
  | loadTasks created =>
    simp only [hpc, Option.map_eq_some_iff] at ht
    obtain ⟨n, -, rfl⟩ := ht
    have hstore : (s.store created (some { n with prev := s.tasks })).Dead :=
      ⟨hs.taken, hs.pending, hs.executes, hs.runs⟩
    exact ⟨hstore.gotoExecute f _ (by simp), rfl, [], by simp [Strand.gotoExecute, Strand.store],
      by simp [accepts, hpc]⟩
  | compareExchange created expected =>
    simp only [hpc] at ht
    split at ht
    · rename_i hsame
      obtain ⟨n, -, rfl⟩ := Option.map_eq_some_iff.mp ht
      have hgoto := hs.gotoExecute f .exchange (by simp)
      exact ⟨⟨hgoto.taken, hgoto.pending, hgoto.executes, hgoto.runs⟩, rfl, [n.task], rfl,
        by simp [accepts, hpc, hsame]⟩
    · rename_i hother
      obtain rfl := Option.some.inj ht
      exact ⟨hs.gotoExecute f _ (by simp), rfl, [], by simp [Strand.gotoExecute],
        by simp [accepts, hpc, hother]⟩
  | exchange =>
    simp only [hpc, hs.taken, Bool.false_eq_true, if_false, Option.some.injEq] at ht
    subst ht
    have hgoto := hs.gotoExecute f .idle (by simp)
    exact ⟨⟨rfl, hgoto.pending, hgoto.executes, hgoto.runs⟩, rfl, [],
      by simp [Strand.gotoExecute], by simp [accepts, hpc]⟩
  | schedule => exact absurd hpc (hs.executes f)

theorem Dead.runStep {A : Type u} {T : Type v} {F : Type w} {R : Type x} [DecidableEq A]
    [DecidableEq R] {s t : Strand A T F R} (hs : s.Dead) {r : R} (ht : s.runStep r = some t) :
    t.Dead ∧ t.ran = s.ran ∧ t.accepted = s.accepted := by
  have hfree := hs.runs r
  unfold Strand.runStep at ht
  cases hpc : s.runs r with
  | idle => simp [hpc] at ht
  | loadTasks =>
    simp only [hpc, Option.some.injEq] at ht
    subst ht
    refine ⟨hs.gotoRun r _ ?_, rfl, rfl⟩
    split
    · rfl
    · rfl
  | exchangeReschedule =>
    simp only [hpc, hs.taken, Bool.false_eq_true, if_false, Option.some.injEq] at ht
    subst ht
    have hgoto := hs.gotoRun r .idle rfl
    exact ⟨⟨rfl, hgoto.pending, hgoto.executes, hgoto.runs⟩, rfl, rfl⟩
  | _ =>
    rw [hpc] at hfree
    cases hfree

/-- A dead strand goes on accepting tasks and runs none. -/
theorem Dead.step {A : Type u} {T : Type v} {F : Type w} {R : Type x} [DecidableEq A]
    [DecidableEq F] [DecidableEq R] {s t : Strand A T F R} (hs : s.Dead)
    {l : StrandLabel A T F R} (ht : s.step l = some t) : t.Dead ∧ t.ran = s.ran ∧
      ∃ tasks, t.accepted = s.accepted ++ tasks ∧ s.accepts l = !tasks.isEmpty := by
  cases l with
  | execute f task created =>
    simp only [Strand.step, Option.ite_none_right_eq_some, Option.some.injEq] at ht
    obtain ⟨-, rfl⟩ := ht
    have hstore : (s.store created (some ⟨none, task⟩)).Dead :=
      ⟨hs.taken, hs.pending, hs.executes, hs.runs⟩
    exact ⟨hstore.gotoExecute f _ (by simp), rfl, [], by simp [Strand.gotoExecute, Strand.store], rfl⟩
  | stepExecute f => exact hs.executeStep ht
  | start r =>
    simp only [Strand.step, hs.pending, Nat.lt_irrefl, and_false, if_false, reduceCtorEq] at ht
  | stepRun r =>
    obtain ⟨hdead, hran, haccepted⟩ := hs.runStep ht
    exact ⟨hdead, hran, [], by simp [haccepted], rfl⟩

theorem Dead.submits {A : Type u} {T : Type v} {F : Type w} {R : Type x} {s : Strand A T F R}
    (hs : s.Dead) (l : StrandLabel A T F R) : s.submits l = false := by
  cases l with
  | stepExecute f =>
    simp only [Strand.submits]
    split
    · rename_i hpc
      exact absurd hpc (hs.executes f)
    · rfl
  | stepRun r =>
    simp only [Strand.submits]
    split
    · rename_i hpc
      have hfree := hs.runs r
      rw [hpc] at hfree
      cases hfree
    · rfl
  | _ => rfl

/-- With the token gone the strand is dead. -/
theorem Inv.dead {A : Type u} {T : Type v} {F : Type w} {R : Type x} {s t : Strand A T F R}
    {h : Holder F R} {stack held : List (A × T)} {rest : List T} (hs : s.Inv h stack held rest)
    (hh : h ≠ .free) (htaken : t.reschedule = s.reschedule) (hpending : t.pending = 0)
    (hexecutes : ∀ f, h ≠ .execute f → t.executes f = s.executes f)
    (hruns : ∀ r, h ≠ .run r → t.runs r = s.runs r)
    (hexecute : ∀ f, h = .execute f → t.executes f ≠ .schedule)
    (hrun : ∀ r, h = .run r → (t.runs r).holding = false) : t.Dead := by
  refine ⟨?_, hpending, fun f => ?_, fun r => ?_⟩
  · rw [htaken, ← Bool.not_eq_true]
    exact fun hfree => hh (hs.token.free.mp hfree)
  · by_cases hf : h = .execute f
    · exact hexecute f hf
    · rw [hexecutes f hf]
      exact fun hpc => hf ((hs.token.execute f).mp hpc)
  · by_cases hr : h = .run r
    · exact hrun r hr
    · rw [hruns r hr, ← Bool.not_eq_true]
      exact fun hpc => hr ((hs.token.run r).mp hpc)

/-- Between batches the tasks that have not run are those behind `tasks_`. -/
theorem Inv.unserved {A : Type u} {T : Type v} {F : Type w} {R : Type x} {s : Strand A T F R}
    {h : Holder F R} {stack held : List (A × T)} {rest : List T} (hs : s.Inv h stack held rest)
    (hbatch : ∀ r, h = .run r → s.runs r = .schedule) :
    ∃ tasks, s.accepted = s.ran ++ tasks ∧ (tasks = [] ↔ s.tasks = none) := by
  have hrest : rest = [] := by
    by_cases hh : ∃ r, h = .run r
    · obtain ⟨r, hr⟩ := hh
      have hr' := hs.contents.batch r hr
      rw [hbatch r hr] at hr'
      exact hr'.2
    · exact (hs.contents.unheld fun r hr => hh ⟨r, hr⟩).2
  refine ⟨(Interleaving.contents stack).reverse, by rw [hs.contents.log, hrest, List.append_nil], ?_⟩
  have hnodes := hs.contents.nodes
  rw [List.reverse_eq_nil_iff]
  cases htasks : s.tasks with
  | none =>
    rw [htasks] at hnodes
    simp [chain_none.mp hnodes]
  | some a =>
    rw [htasks] at hnodes
    obtain ⟨n, rest, -, rfl, -⟩ := chain_some.mp hnodes
    simp

end Strand

namespace PooledStrand

/-- The pool has run every submission so far, and no task has thrown. -/
structure Working {A : Type u} {T : Type v} {F : Type w} {R : Type x} [DecidableEq A]
    [DecidableEq F] [DecidableEq R] (s : PooledStrand A T F R) : Prop where
  threw : s.threw = []
  discarded : s.discarded = []
  dropped : s.dropped = false
  reachable : (Futures.strand A T F R).Reachable s.strand

/-- The strand has been dropped, and `tasks` are left behind. -/
structure Over {A : Type u} {T : Type v} {F : Type w} {R : Type x} (s : PooledStrand A T F R)
    (tasks : List T) : Prop where
  discarded : s.discarded = []
  dropped : s.dropped = true
  dead : s.strand.Dead
  accepted : s.strand.accepted = s.strand.ran ++ tasks

theorem working_init {A : Type u} {T : Type v} {F : Type w} {R : Type x} [DecidableEq A]
    [DecidableEq F] [DecidableEq R] : (pooledStrand A T F R).init.Working :=
  ⟨rfl, rfl, rfl, .init⟩

theorem Over.step {A : Type u} {T : Type v} {F : Type w} {R : Type x} [DecidableEq A]
    [DecidableEq F] [DecidableEq R] {s t : PooledStrand A T F R} {tasks : List T}
    (hs : s.Over tasks) {l : PooledLabel A T F R} (hl : l.throws = false)
    (ht : s.step l = some t) : ∃ more, t.Over (tasks ++ more) ∧ s.inOrder l = more.isEmpty := by
  cases l with
  | strand l =>
    obtain ⟨u, hu, rfl⟩ := Option.map_eq_some_iff.mp ht
    obtain ⟨hdead, hran, more, haccepted, haccepts⟩ := hs.dead.step hu
    have hsubmits := hs.dead.submits l
    refine ⟨more, ?_, by simp [inOrder, hs.dropped, hsubmits, haccepts]⟩
    simp only [hsubmits, Bool.and_false, Bool.false_eq_true, if_false]
    exact ⟨hs.discarded, hs.dropped, hdead, by
      rw [haccepted, hran, hs.accepted, List.append_assoc]⟩
  | throw r => cases hl
  | stop =>
    simp only [PooledStrand.step, Option.ite_none_left_eq_some, Option.some.injEq] at ht
    obtain ⟨-, rfl⟩ := ht
    exact ⟨[], by rw [List.append_nil]; exact ⟨hs.discarded, hs.dropped, hs.dead, hs.accepted⟩, rfl⟩
  | discard =>
    simp [PooledStrand.step, hs.dead.pending] at ht

/-- A rejected submission. -/
theorem Working.rejected {A : Type u} {T : Type v} {F : Type w} {R : Type x} [DecidableEq A]
    [DecidableEq F] [DecidableEq R] {s : PooledStrand A T F R} (hs : s.Working)
    {l : StrandLabel A T F R} {t : Strand A T F R} (hsubmits : s.strand.submits l = true)
    (ht : s.strand.step l = some t) :
    ({ t with pending := s.strand.pending } : Strand A T F R).Dead ∧
      ∃ tasks, t.accepted = t.ran ++ tasks ∧ (tasks = [] ↔ s.strand.tasks = none) := by
  obtain ⟨h, stack, held, rest, hinv⟩ := Strand.inv hs.reachable
  cases l with
  | stepExecute f =>
    have hpc : s.strand.executes f = .schedule := by
      simp only [Strand.submits] at hsubmits
      split at hsubmits
      · assumption
      · cases hsubmits
    obtain rfl := (hinv.token.execute f).mp hpc
    simp only [Strand.step, Strand.executeStep, hpc, Option.some.injEq] at ht
    subst ht
    refine ⟨hinv.dead (by simp) rfl (hinv.token.zero (by simp)) ?_ (fun _ _ => rfl) ?_ (by simp), ?_⟩
    · intro g hg
      have hne : g ≠ f := by
        rintro rfl
        exact hg rfl
      simp [Strand.submit, Strand.gotoExecute, hne]
    · intro g hg
      obtain rfl := Holder.execute.inj hg
      simp [Strand.submit, Strand.gotoExecute]
    · exact hinv.unserved (by simp)
  | stepRun r =>
    have hpc : s.strand.runs r = .schedule := by
      simp only [Strand.submits] at hsubmits
      split at hsubmits
      · assumption
      · cases hsubmits
    obtain rfl := hinv.token.holder_eq hpc rfl
    simp only [Strand.step, Strand.runStep, hpc, Option.some.injEq] at ht
    subst ht
    refine ⟨hinv.dead (by simp) rfl (hinv.token.zero (by simp)) (fun _ _ => rfl) ?_ (by simp) ?_, ?_⟩
    · intro q hq
      have hne : q ≠ r := by
        rintro rfl
        exact hq rfl
      simp [Strand.submit, Strand.gotoRun, hne]
    · intro q hq
      obtain rfl := Holder.run.inj hq
      simp [Strand.submit, Strand.gotoRun, Run.holding]
    · exact hinv.unserved fun q hq => by
        obtain rfl := Holder.run.inj hq
        exact hpc
  | _ => cases hsubmits

theorem Working.step {A : Type u} {T : Type v} {F : Type w} {R : Type x} [DecidableEq A]
    [DecidableEq F] [DecidableEq R] {s t : PooledStrand A T F R} (hs : s.Working)
    {l : PooledLabel A T F R} (hl : l.throws = false) (ht : s.step l = some t) :
    (t.Working ∧ s.inOrder l = true) ∨ ∃ tasks, t.Over tasks ∧ s.inOrder l = tasks.isEmpty := by
  cases l with
  | strand l =>
    obtain ⟨u, hu, rfl⟩ := Option.map_eq_some_iff.mp ht
    cases hrejected : s.stopped && s.strand.submits l with
    | false =>
      left
      simp only [Bool.false_eq_true, if_false]
      refine ⟨⟨hs.threw, hs.discarded, hs.dropped, hs.reachable.step hu⟩, ?_⟩
      simp [inOrder, hs.dropped, hrejected]
    | true =>
      right
      simp only [if_true]
      simp only [Bool.and_eq_true] at hrejected
      obtain ⟨hdead, tasks, haccepted, htasks⟩ := hs.rejected hrejected.2 hu
      refine ⟨tasks, ⟨hs.discarded, rfl, hdead, haccepted⟩, ?_⟩
      have hiff : tasks.isEmpty = s.strand.tasks.isNone := by
        rw [Bool.eq_iff_iff, List.isEmpty_iff, Option.isNone_iff_eq_none]
        exact htasks
      simp [inOrder, hs.dropped, hrejected, hiff]
  | throw r => cases hl
  | stop =>
    simp only [PooledStrand.step, Option.ite_none_left_eq_some, Option.some.injEq] at ht
    obtain ⟨-, rfl⟩ := ht
    exact .inl ⟨⟨hs.threw, hs.discarded, hs.dropped, hs.reachable⟩, rfl⟩
  | discard =>
    simp only [PooledStrand.step, Strand.discard, Option.ite_none_right_eq_some,
      Option.some.injEq] at ht
    obtain ⟨⟨-, hpending⟩, rfl⟩ := ht
    right
    obtain ⟨h, stack, held, rest, hinv⟩ := Strand.inv hs.reachable
    have hh : h = .pending := by
      by_contra hne
      have := hinv.token.zero hne
      omega
    subst hh
    obtain ⟨tasks, haccepted, htasks⟩ := hinv.unserved (by simp)
    have hone := hinv.token.one rfl
    refine ⟨tasks, ⟨by simp [hs.discarded], rfl, ?_, haccepted⟩, ?_⟩
    · exact hinv.dead (by simp) rfl (by simp [hone]) (fun _ _ => rfl) (fun _ _ => rfl) (by simp) (by simp)
    · rw [inOrder, Bool.eq_iff_iff, Option.isNone_iff_eq_none, List.isEmpty_iff]
      exact htasks.symm

theorem throws_of_stopped {A : Type u} {T : Type v} {F : Type w} {R : Type x} [DecidableEq A]
    [DecidableEq F] [DecidableEq R] {s t : PooledStrand A T F R} {l : PooledLabel A T F R}
    (ht : (stoppedStrand A T F R).step s l = some t) : l.throws = false ∧ s.step l = some t := by
  obtain ⟨hl, hstep⟩ := Machine.guard_step.mp ht
  exact ⟨by simpa using hl, hstep⟩

theorem Over.exec {A : Type u} {T : Type v} {F : Type w} {R : Type x} [DecidableEq A]
    [DecidableEq F] [DecidableEq R] {s t : PooledStrand A T F R} {tasks : List T}
    (hs : s.Over tasks) {ls : List (PooledLabel A T F R)}
    (h : (stoppedStrand A T F R).exec s ls = some t) : ∃ more, t.Over (tasks ++ more) ∧
      ((stoppedStrand A T F R).guard inOrder).exec s ls = if more.isEmpty then some t else none := by
  induction ls generalizing s tasks with
  | nil =>
    obtain rfl := Option.some.inj h
    exact ⟨[], by rwa [List.append_nil], rfl⟩
  | cons l ls ih =>
    obtain ⟨u, hu, h⟩ := Option.bind_eq_some_iff.mp h
    obtain ⟨hl, hstep⟩ := throws_of_stopped hu
    obtain ⟨first, hover, horder⟩ := hs.step hl hstep
    obtain ⟨more, ht, hexec⟩ := ih hover h
    refine ⟨first ++ more, by rwa [← List.append_assoc], ?_⟩
    cases first with
    | nil => rwa [Machine.guard_exec_cons horder hu]
    | cons task first => rw [Machine.guard_exec_refused _ horder]; rfl

theorem Working.exec {A : Type u} {T : Type v} {F : Type w} {R : Type x} [DecidableEq A]
    [DecidableEq F] [DecidableEq R] {s t : PooledStrand A T F R} (hs : s.Working)
    {ls : List (PooledLabel A T F R)} (h : (stoppedStrand A T F R).exec s ls = some t) :
    (t.Working ∧ ((stoppedStrand A T F R).guard inOrder).exec s ls = some t) ∨
      ∃ tasks, t.Over tasks ∧
        ((stoppedStrand A T F R).guard inOrder).exec s ls =
          if tasks.isEmpty then some t else none := by
  induction ls generalizing s with
  | nil =>
    obtain rfl := Option.some.inj h
    exact .inl ⟨hs, rfl⟩
  | cons l ls ih =>
    obtain ⟨u, hu, h⟩ := Option.bind_eq_some_iff.mp h
    obtain ⟨hl, hstep⟩ := throws_of_stopped hu
    rcases hs.step hl hstep with ⟨hworking, horder⟩ | ⟨tasks, hover, horder⟩
    · rw [Machine.guard_exec_cons horder hu]
      exact ih hworking h
    · right
      obtain ⟨more, ht, hexec⟩ := hover.exec h
      refine ⟨tasks ++ more, ht, ?_⟩
      cases tasks with
      | nil => rwa [Machine.guard_exec_cons horder hu]
      | cons task tasks => rw [Machine.guard_exec_refused _ horder]; rfl

/-- What the strand owes to the tasks it has accepted. -/
def Consumed {A : Type u} {T : Type v} {F : Type w} {R : Type x} (s : PooledStrand A T F R) :
    Prop := (s.strand.ran ++ s.discarded).Perm s.strand.accepted

theorem Over.consumed_iff {A : Type u} {T : Type v} {F : Type w} {R : Type x}
    {s : PooledStrand A T F R} {tasks : List T} (hs : s.Over tasks) :
    s.Consumed ↔ tasks = [] := by
  rw [Consumed, hs.discarded, hs.accepted, List.append_nil]
  constructor
  · intro hperm
    have hlength := hperm.length_eq
    rw [List.length_append] at hlength
    exact List.length_eq_zero_iff.mp (by omega)
  · rintro rfl
    rw [List.append_nil]

end PooledStrand

/-- At rest every accepted task has been run or discarded exactly once if and only if
no task was left behind when the pool dropped the strand, and none came after. -/
theorem stoppedStrand_consumes_iff {A : Type u} {T : Type v} {F : Type w} {R : Type x}
    [DecidableEq A] [DecidableEq F] [DecidableEq R] {s : PooledStrand A T F R}
    {ls : List (PooledLabel A T F R)}
    (h : (stoppedStrand A T F R).exec (stoppedStrand A T F R).init ls = some s)
    (hrest : s.strand.AtRest) :
    s.Consumed ↔ ((stoppedStrand A T F R).guard PooledStrand.inOrder).exec
      (stoppedStrand A T F R).init ls = some s := by
  rcases PooledStrand.working_init.exec h with ⟨hs, horder⟩ | ⟨tasks, hs, horder⟩
  · obtain ⟨holder, stack, held, rest, hinv⟩ := Strand.inv hs.reachable
    obtain ⟨-, -, hran⟩ := hinv.settled hrest.pending hrest.runs hrest.executes
    refine ⟨fun _ => horder, fun _ => ?_⟩
    rw [PooledStrand.Consumed, hs.discarded, hran, List.append_nil]
  · rw [hs.consumed_iff]
    refine Iff.trans ?_ (Eq.congr_left horder).symm
    cases tasks <;> simp

/-- `Stop` comes when the strand has been submitted once more, to find nothing. -/
theorem stoppedStrand_consumes_iff_idle :
    ∃ s, (stoppedStrand (Fin 2) Nat (Fin 1) (Fin 1)).Reachable s ∧ s.dropped = true ∧
      s.strand.accepted = [7] ∧ s.Consumed := by
  obtain ⟨s, horder, hs⟩ := Machine.exists_exec
    (M := (stoppedStrand (Fin 2) Nat (Fin 1) (Fin 1)).guard PooledStrand.inOrder)
    (s := (stoppedStrand (Fin 2) Nat (Fin 1) (Fin 1)).init)
    (.strand (.execute 0 7 0) :: List.replicate 4 (.strand (.stepExecute 0)) ++
      .strand (.start 0) :: List.replicate 7 (.strand (.stepRun 0)) ++ [.stop, .discard])
    (p := fun s => decide (s.dropped = true ∧ s.strand.accepted = [7] ∧ s.strand.pending = 0 ∧
      (∀ r, s.strand.runs r = .idle) ∧ ∀ f, s.strand.executes f = .idle)) (by decide +kernel)
  obtain ⟨hdropped, haccepted, hpending, hruns, hexecutes⟩ := of_decide_eq_true hs
  have h := Machine.exec_of_guard horder
  exact ⟨s, Machine.reachable_of_exec _ h, hdropped, haccepted,
    (stoppedStrand_consumes_iff h ⟨hpending, hruns, hexecutes⟩).mpr horder⟩

/-- Task 7 has been accepted when `Stop` discards the strand, task 8 comes later. -/
theorem stoppedStrand_loses_pending :
    ∃ s, (stoppedStrand (Fin 2) Nat (Fin 1) (Fin 1)).Reachable s ∧ s.strand.AtRest ∧
      s.strand.accepted = [7, 8] ∧ ¬ s.Consumed := by
  have h : (stoppedStrand (Fin 2) Nat (Fin 1) (Fin 1)).Reachable _ := Machine.reachable_of_exec
    (.strand (.execute 0 7 0) :: List.replicate 4 (.strand (.stepExecute 0)) ++ [.stop, .discard] ++
      .strand (.execute 0 8 1) :: List.replicate 3 (.strand (.stepExecute 0))) rfl
  refine ⟨_, h, ⟨rfl, by decide, by decide⟩, rfl, fun hconsumed => ?_⟩
  exact absurd hconsumed.length_eq (by decide)

namespace PooledStrand

/-- A task has thrown, and the strand has stayed behind. -/
structure Thrown {A : Type u} {T : Type v} {F : Type w} {R : Type x} (s : PooledStrand A T F R) :
    Prop where
  threw : s.threw ≠ []
  dead : s.strand.Dead
  fifo : s.strand.ran <+: s.strand.accepted

theorem Working.fifo {A : Type u} {T : Type v} {F : Type w} {R : Type x} [DecidableEq A]
    [DecidableEq F] [DecidableEq R] {s : PooledStrand A T F R} (hs : s.Working) :
    s.strand.ran <+: s.strand.accepted :=
  SerialExecutor.ran_prefix ((strandRefinement A T F R).reachable hs.reachable)

/-- The exception takes the token with it. -/
theorem Working.throw {A : Type u} {T : Type v} {F : Type w} {R : Type x} [DecidableEq A]
    [DecidableEq F] [DecidableEq R] {s t : PooledStrand A T F R} (hs : s.Working) {r : R}
    (ht : s.step (.throw r) = some t) : t.Thrown := by
  have hfifo := hs.fifo
  obtain ⟨h, stack, held, rest, hinv⟩ := Strand.inv hs.reachable
  simp only [PooledStrand.step] at ht
  split at ht
  · rename_i a hpc
    obtain rfl := hinv.token.holder_eq hpc rfl
    obtain ⟨n, -, rfl⟩ := Option.map_eq_some_iff.mp ht
    refine ⟨by simp, ?_, hfifo⟩
    refine hinv.dead (by simp) rfl (hinv.token.zero (by simp)) (fun _ _ => rfl) ?_ (by simp) ?_
    · intro q hq
      have hne : q ≠ r := by
        rintro rfl
        exact hq rfl
      simp [Strand.discard, Strand.gotoRun, hne]
    · intro q hq
      obtain rfl := Holder.run.inj hq
      simp [Strand.discard, Strand.gotoRun, Run.holding]
  · cases ht

theorem Thrown.step {A : Type u} {T : Type v} {F : Type w} {R : Type x} [DecidableEq A]
    [DecidableEq F] [DecidableEq R] {s t : PooledStrand A T F R} (hs : s.Thrown)
    (hstopped : s.stopped = false) {l : PooledLabel A T F R} (hl : l.stops = false)
    (ht : s.step l = some t) : t.Thrown ∧ t.stopped = false ∧ t.strand.ran = s.strand.ran := by
  cases l with
  | strand l =>
    obtain ⟨u, hu, rfl⟩ := Option.map_eq_some_iff.mp ht
    obtain ⟨hdead, hran, more, haccepted, -⟩ := hs.dead.step hu
    rw [if_neg (by simp [hstopped])]
    refine ⟨⟨hs.threw, hdead, ?_⟩, hstopped, hran⟩
    rw [hran, haccepted]
    exact hs.fifo.trans (List.prefix_append _ _)
  | throw r =>
    have hfree := hs.dead.runs r
    simp only [PooledStrand.step] at ht
    split at ht
    · rename_i a hpc
      rw [hpc] at hfree
      cases hfree
    · cases ht
  | stop => cases hl
  | discard => simp [PooledStrand.step, hstopped] at ht

theorem stops_of_throwing {A : Type u} {T : Type v} {F : Type w} {R : Type x} [DecidableEq A]
    [DecidableEq F] [DecidableEq R] {s t : PooledStrand A T F R} {l : PooledLabel A T F R}
    (ht : (throwingStrand A T F R).step s l = some t) : l.stops = false ∧ s.step l = some t := by
  obtain ⟨hl, hstep⟩ := Machine.guard_step.mp ht
  exact ⟨by simpa using hl, hstep⟩

theorem throwing_inv {A : Type u} {T : Type v} {F : Type w} {R : Type x} [DecidableEq A]
    [DecidableEq F] [DecidableEq R] {s : PooledStrand A T F R}
    (h : (throwingStrand A T F R).Reachable s) : s.stopped = false ∧ (s.Working ∨ s.Thrown) := by
  apply h.invariant (I := fun s => s.stopped = false ∧ (s.Working ∨ s.Thrown))
  · exact ⟨rfl, .inl working_init⟩
  · intro s l t _ ⟨hstopped, hs⟩ ht
    obtain ⟨hl, hstep⟩ := stops_of_throwing ht
    rcases hs with hs | hs
    · cases l with
      | strand l =>
        obtain ⟨u, hu, rfl⟩ := Option.map_eq_some_iff.mp hstep
        rw [if_neg (by simp [hstopped])]
        exact ⟨hstopped, .inl ⟨hs.threw, hs.discarded, hs.dropped, hs.reachable.step hu⟩⟩
      | throw r =>
        refine ⟨?_, .inr (hs.throw hstep)⟩
        simp only [PooledStrand.step] at hstep
        split at hstep
        · obtain ⟨n, -, rfl⟩ := Option.map_eq_some_iff.mp hstep
          exact hstopped
        · cases hstep
      | stop => cases hl
      | discard => simp [PooledStrand.step, hstopped] at hstep
    · obtain ⟨ht, hstopped, -⟩ := hs.step hstopped hl hstep
      exact ⟨hstopped, .inr ht⟩

end PooledStrand

/-- Tasks run in the order of acceptance, each once; all of them have run and the
strand can be scheduled again, at rest, if and only if none has thrown. After a throw
no task is run any more. -/
theorem throwingStrand_serves_iff {A : Type u} {T : Type v} {F : Type w} {R : Type x}
    [DecidableEq A] [DecidableEq F] [DecidableEq R] {s : PooledStrand A T F R}
    (h : (throwingStrand A T F R).Reachable s) :
    s.strand.ran <+: s.strand.accepted ∧
    (s.strand.AtRest →
      (s.strand.ran = s.strand.accepted ∧ s.strand.reschedule = true ↔ s.threw = [])) ∧
    (s.threw ≠ [] → ∀ ls t, (throwingStrand A T F R).exec s ls = some t →
      t.strand.ran = s.strand.ran) := by
  obtain ⟨hstopped, hs | hs⟩ := PooledStrand.throwing_inv h
  · refine ⟨hs.fifo, fun hrest => ⟨fun _ => hs.threw, fun _ => ?_⟩, fun hthrew => ?_⟩
    · obtain ⟨holder, stack, held, rest, hinv⟩ := Strand.inv hs.reachable
      obtain ⟨hfree, -, hran⟩ := hinv.settled hrest.pending hrest.runs hrest.executes
      exact ⟨hran, hfree⟩
    · exact absurd hs.threw hthrew
  · refine ⟨hs.fifo, fun _ => ⟨fun ⟨_, hfree⟩ => ?_, fun hthrew => absurd hthrew hs.threw⟩,
      fun _ ls t ht => ?_⟩
    · rw [hs.dead.taken] at hfree
      cases hfree
    · have hany : ∀ l ∈ ls, True := fun _ _ => trivial
      refine (Machine.exec_invariant (I := fun t => (t.Thrown ∧ t.stopped = false) ∧
        t.strand.ran = s.strand.ran) ?_ hany ⟨⟨hs, hstopped⟩, rfl⟩ ht).2
      intro u l v _ ⟨⟨hu, hstopped⟩, hran⟩ hv
      obtain ⟨hl, hstep⟩ := PooledStrand.stops_of_throwing hv
      obtain ⟨hv, hstopped, hsame⟩ := hu.step hstopped hl hstep
      exact ⟨⟨hv, hstopped⟩, hsame.trans hran⟩

/-- Two tasks on a strand of which none throws. -/
theorem throwingStrand_serves_iff_quiet :
    ∃ s, (throwingStrand (Fin 2) Nat (Fin 1) (Fin 1)).Reachable s ∧
      s.strand.accepted = [7, 8] ∧ s.strand.ran = s.strand.accepted := by
  have h : (throwingStrand (Fin 2) Nat (Fin 1) (Fin 1)).Reachable _ := Machine.reachable_of_exec
    (.strand (.execute 0 7 0) :: List.replicate 4 (.strand (.stepExecute 0)) ++
      .strand (.execute 0 8 1) :: List.replicate 3 (.strand (.stepExecute 0)) ++
      .strand (.start 0) :: List.replicate 10 (.strand (.stepRun 0)) ++
      .strand (.start 0) :: List.replicate 3 (.strand (.stepRun 0))) rfl
  exact ⟨_, h, rfl,
    (((throwingStrand_serves_iff h).2.1 ⟨rfl, by decide, by decide⟩).mpr rfl).1⟩

/-- Task 7 throws; task 8 of the same batch and task 9, which comes later, never run. -/
theorem throwingStrand_loses_batch :
    ∃ s, (throwingStrand (Fin 3) Nat (Fin 1) (Fin 1)).Reachable s ∧ s.strand.AtRest ∧
      s.threw = [7] ∧ s.strand.accepted = [7, 8, 9] ∧ s.strand.ran = [7] ∧
      s.strand.reschedule = false := by
  have h : (throwingStrand (Fin 3) Nat (Fin 1) (Fin 1)).Reachable _ := Machine.reachable_of_exec
    (.strand (.execute 0 7 0) :: List.replicate 4 (.strand (.stepExecute 0)) ++
      .strand (.execute 0 8 1) :: List.replicate 3 (.strand (.stepExecute 0)) ++
      .strand (.start 0) :: List.replicate 5 (.strand (.stepRun 0)) ++
      .throw 0 :: .strand (.execute 0 9 2) :: List.replicate 3 (.strand (.stepExecute 0))) rfl
  exact ⟨_, h, ⟨rfl, by decide, by decide⟩, rfl, rfl, rfl, rfl⟩

end ConcurrentProgramming.Futures
