import ConcurrentProgramming.Interleaving.Resumption

/-!
Standalone coroutines on one thread: the static `current`, the `rollback` on the
stack of the resumer, two execution contexts for every coroutine. The thread goes
on wherever the context that it switches to was saved.
-/

set_option autoImplicit false

namespace ConcurrentProgramming.Coroutine
open Interleaving

inductive CoroutineImpl.State where
  | running
  | waiting
  | terminated
  | exceptionCaught
  deriving DecidableEq, Repr

/-- Where a saved context goes on: in `Run`, or after the `SwitchTo` of `Suspend`, or
after that of `Resume`, below which is a `Coroutine::Resume` that will roll back. -/
inductive ResumePoint (X M : Type) where
  | run (routine : Program X M)
  | suspend (rest : Program X M)
  | resume (this : Nat) (prev : Option Nat) (onReturn : Program X M)
      (onThrow : X → Program X M)

/-- The stack of a coroutine, or of the thread itself. -/
structure ExecutionContext (X M : Type) where
  stack : Option Nat
  point : ResumePoint X M

structure CoroutineImpl (X M : Type) where
  returnPoint : Option (ExecutionContext X M)
  runningPoint : ExecutionContext X M
  state : CoroutineImpl.State
  caught : Option X

def CoroutineImpl.new {X M : Type} (this : Nat) (routine : Program X M) : CoroutineImpl X M :=
  ⟨none, ⟨some this, .run routine⟩, .waiting, none⟩

def CoroutineImpl.isCompleted {X M : Type} (impl : CoroutineImpl X M) : Bool :=
  impl.state = .terminated

structure Standalone (X M : Type) where
  coroutines : List (CoroutineImpl X M)
  current : Option Nat
  stack : Option Nat
  program : Program X M
  memory : M
  trace : List (CoroutineEvent X M)

namespace Standalone

def put {X M : Type} (s : Standalone X M) (this : Nat) (impl : CoroutineImpl X M) :
    Standalone X M := { s with coroutines := s.coroutines.set this impl }

def log {X M : Type} (s : Standalone X M) (event : CoroutineEvent X M) : Standalone X M :=
  { s with trace := s.trace ++ [event] }

/-- The end of both `Resume`: `caught_` is thrown again, and `rollback` runs either way. -/
def afterResume {X M : Type} (s : Standalone X M) (this : Nat) (prev : Option Nat)
    (onReturn : Program X M) (onThrow : X → Program X M) : Standalone X M :=
  match s.coroutines[this]?.bind CoroutineImpl.caught with
  | some e => { s.log (.caught s.stack this e) with current := prev, program := onThrow e }
  | none => { s.log (.back s.stack this) with current := prev, program := onReturn }

/-- The thread goes on in a saved context. -/
def switchTo {X M : Type} (s : Standalone X M) (target : ExecutionContext X M) :
    Standalone X M :=
  let s := { s with stack := target.stack }
  match target.point with
  | .run routine => { s with program := routine }
  | .suspend rest => { s with program := rest }
  | .resume this prev onReturn onThrow => s.afterResume this prev onReturn onThrow

/-- `none` stands for a coroutine that is not there to be resumed. -/
def resume {X M : Type} (s : Standalone X M) (this : Nat) (onReturn : Program X M)
    (onThrow : X → Program X M) : Option (Standalone X M) :=
  match s.coroutines[this]? with
  | none => none
  | some impl =>
    if impl.state = .waiting then
      let prev := s.current
      let s := { s.log (.resumed s.stack this) with current := some this }
      let saved := ⟨s.stack, .resume this prev onReturn onThrow⟩
      some ((s.put this { impl with state := .running, returnPoint := some saved }).switchTo
        impl.runningPoint)
    else none

/-- `none` is the failed `WHEELS_VERIFY`. -/
def suspend {X M : Type} (s : Standalone X M) (rest : Program X M) : Option (Standalone X M) :=
  s.current.bind fun this => s.coroutines[this]?.bind fun impl =>
    impl.returnPoint.map fun target =>
      ((s.log (.suspended s.stack)).put this
        { impl with state := .waiting, runningPoint := ⟨s.stack, .suspend rest⟩ }).switchTo target

/-- The end of `Run`, which is at the bottom of the stack. -/
def exit {X M : Type} (s : Standalone X M) (caught : Option X) : Option (Standalone X M) :=
  s.stack.bind fun this => s.coroutines[this]?.bind fun impl =>
    let impl :=
      match caught with
      | some e => { impl with caught := some e, state := .exceptionCaught }
      | none => impl
    let event :=
      match caught with
      | some e => .threw s.stack e
      | none => .returned s.stack
    impl.returnPoint.map fun target =>
      ((s.log event).put this { impl with state := .terminated }).switchTo target

def step {X M : Type} (s : Standalone X M) : Option (Standalone X M) :=
  match s.program with
  | .return_ => s.exit none
  | .throw e => s.exit (some e)
  | .suspend rest => s.suspend rest
  | .compute f next =>
    some { s.log (.computed s.stack (f s.memory)) with
      memory := f s.memory, program := next (f s.memory) }
  | .create body next =>
    some { s.log (.created s.stack s.coroutines.length) with
      coroutines := s.coroutines ++ [.new s.coroutines.length body]
      program := next s.coroutines.length }
  | .isCompleted c next =>
    s.coroutines[c]?.map fun impl =>
      { s.log (.asked s.stack c impl.isCompleted) with program := next impl.isCompleted }
  | .resume c onReturn onThrow => s.resume c onReturn onThrow

end Standalone

def standalone {X M : Type} (p : Program X M) (memory : M) : Machine (Standalone X M) Unit where
  init := ⟨[], none, none, p, memory, []⟩
  step s _ := s.step

namespace Standalone

def CoroutineImpl.Represents {X M : Type} (c : Nat) (impl : CoroutineImpl X M) :
    CoroutinePhase X M → Prop
  | .suspended rest => impl.state = .waiting ∧ impl.caught = none ∧
      (impl.runningPoint = ⟨some c, .run rest⟩ ∨ impl.runningPoint = ⟨some c, .suspend rest⟩)
  | .running => impl.state = .running ∧ impl.caught = none
  | .completed => impl.state = .terminated

theorem CoroutineImpl.Represents.isCompleted_eq {X M : Type} {c : Nat} {impl : CoroutineImpl X M}
    {phase : CoroutinePhase X M} (h : CoroutineImpl.Represents c impl phase) :
    impl.isCompleted = phase.isCompleted := by
  cases phase with
  | suspended rest | running => simp [CoroutineImpl.isCompleted, CoroutinePhase.isCompleted, h.1]
  | completed =>
    have hstate : impl.state = .terminated := h
    simp [CoroutineImpl.isCompleted, CoroutinePhase.isCompleted, hstate]

/-- Every active coroutine will return to the one around it. -/
def Returns {X M : Type} (coroutines : List (CoroutineImpl X M)) : List (Resumer X M) → Prop
  | [] => True
  | r :: active => (∃ impl, coroutines[r.coroutine]? = some impl ∧ impl.returnPoint =
      some ⟨innermost active, .resume r.coroutine (innermost active) r.onReturn r.onThrow⟩) ∧
      Returns coroutines active

/-- `current` and the stack are those of the innermost coroutine. -/
structure Represents {X M : Type} (s : Standalone X M) (a : Direct X M) : Prop where
  program : s.program = a.program
  memory : s.memory = a.world.memory
  trace : s.trace = a.world.trace
  stack : s.stack = innermost a.active
  current : s.current = innermost a.active
  length : s.coroutines.length = a.world.coroutines.length
  objects : ∀ c impl phase, s.coroutines[c]? = some impl → a.world.coroutines[c]? = some phase →
    CoroutineImpl.Represents c impl phase
  returns : Returns s.coroutines a.active

theorem Returns.set {X M : Type} {cs : List (CoroutineImpl X M)} {active : List (Resumer X M)}
    (h : Returns cs active) {c : Nat} (hc : c ∉ active.map Resumer.coroutine)
    (impl : CoroutineImpl X M) : Returns (cs.set c impl) active := by
  induction active with
  | nil => trivial
  | cons r active ih =>
    rw [List.map_cons, List.mem_cons, not_or] at hc
    obtain ⟨⟨old, hold, hpoint⟩, hrest⟩ := h
    exact ⟨⟨old, (List.getElem?_set_ne hc.1).trans hold, hpoint⟩, ih hrest hc.2⟩

theorem Returns.append {X M : Type} {cs : List (CoroutineImpl X M)}
    {active : List (Resumer X M)} (h : Returns cs active) (more : List (CoroutineImpl X M)) :
    Returns (cs ++ more) active := by
  induction active with
  | nil => trivial
  | cons r active ih =>
    obtain ⟨⟨old, hold, hpoint⟩, hrest⟩ := h
    have hlt := (List.getElem?_eq_some_iff.mp hold).1
    exact ⟨⟨old, (List.getElem?_append_left hlt).trans hold, hpoint⟩, ih hrest⟩

theorem Represents.object {X M : Type} {s : Standalone X M} {a : Direct X M}
    (hs : s.Represents a) {c : Nat} {phase : CoroutinePhase X M}
    (hc : a.world.coroutines[c]? = some phase) :
    ∃ impl, s.coroutines[c]? = some impl ∧ CoroutineImpl.Represents c impl phase := by
  have hlt : c < s.coroutines.length := hs.length ▸ (List.getElem?_eq_some_iff.mp hc).1
  exact ⟨_, List.getElem?_eq_getElem hlt, hs.objects c _ phase (List.getElem?_eq_getElem hlt) hc⟩

theorem Represents.objects_set {X M : Type} {s : Standalone X M} {a : Direct X M}
    (hs : s.Represents a) {c : Nat} {impl : CoroutineImpl X M} {phase : CoroutinePhase X M}
    (hc : CoroutineImpl.Represents c impl phase) {d : Nat} {other : CoroutineImpl X M}
    {its : CoroutinePhase X M} (hother : (s.coroutines.set c impl)[d]? = some other)
    (hits : (a.world.coroutines.set c phase)[d]? = some its) :
    CoroutineImpl.Represents d other its := by
  rw [List.getElem?_set] at hother hits
  by_cases hd : c = d
  · subst hd
    simp only [if_true, Option.ite_none_right_eq_some, Option.some.injEq] at hother hits
    exact hother.2 ▸ hits.2 ▸ hc
  · rw [if_neg hd] at hother hits
    exact hs.objects d other its hother hits

/-- The innermost coroutine gives up control, and its resumer goes on. -/
theorem Represents.leave {X M : Type} {s : Standalone X M} {w : World X M} {r : Resumer X M}
    {active : List (Resumer X M)} {p : Program X M} (hs : s.Represents ⟨w, r :: active, p⟩)
    (ha : (⟨w, r :: active, p⟩ : Direct X M).Nested) {o : Leaving X M} {impl : CoroutineImpl X M}
    (himpl : CoroutineImpl.Represents r.coroutine impl o.phase)
    (hcaught : impl.caught = match o with
      | .threw e => some e
      | .suspended _ | .returned => none)
    {event : CoroutineEvent X M} (hevent : event :: (o.events (innermost active) r.coroutine).tail =
      o.events (innermost active) r.coroutine) :
    (((s.log event).put r.coroutine impl).switchTo ⟨innermost active,
      .resume r.coroutine (innermost active) r.onReturn r.onThrow⟩).Represents
      ⟨w.leave (innermost active) r.coroutine o, active, o.resumer r.onReturn r.onThrow⟩ := by
  obtain ⟨⟨old, hold, -⟩, hrest⟩ := hs.returns
  have hlt := (List.getElem?_eq_some_iff.mp hold).1
  have hnodup := ha.nodup
  rw [List.map_cons, List.nodup_cons] at hnodup
  have hfound : (s.coroutines.set r.coroutine impl)[r.coroutine]? = some impl :=
    List.getElem?_set_self hlt
  have hlength : (s.coroutines.set r.coroutine impl).length =
      (w.coroutines.set r.coroutine o.phase).length := by
    rw [List.length_set, List.length_set]
    exact hs.length
  cases o with
  | suspended rest | returned =>
    simp only [Leaving.events, List.tail_cons, List.cons.injEq, and_true] at hevent hcaught
    subst hevent
    simp only [switchTo, afterResume, put, log, hfound, Option.bind_some, hcaught]
    exact ⟨rfl, hs.memory, by simp [World.leave, Leaving.events, hs.trace], rfl, rfl, hlength,
      fun d other its => hs.objects_set himpl, hrest.set hnodup.1 impl⟩
  | threw e =>
    simp only [Leaving.events, List.tail_cons, List.cons.injEq, and_true] at hevent hcaught
    subst hevent
    simp only [switchTo, afterResume, put, log, hfound, Option.bind_some, hcaught]
    exact ⟨rfl, hs.memory, by simp [World.leave, Leaving.events, hs.trace], rfl, rfl, hlength,
      fun d other its => hs.objects_set himpl, hrest.set hnodup.1 impl⟩

/-- Into a coroutine that has not started, or has suspended itself. -/
theorem switchTo_suspended {X M : Type} (s : Standalone X M) {target : ExecutionContext X M}
    {c : Nat} {rest : Program X M}
    (h : target = ⟨some c, .run rest⟩ ∨ target = ⟨some c, .suspend rest⟩) :
    s.switchTo target = { s with stack := some c, program := rest } := by
  rcases h with rfl | rfl <;> rfl

/-- What the innermost coroutine looks like. -/
theorem Represents.top {X M : Type} {s : Standalone X M} {w : World X M} {r : Resumer X M}
    {active : List (Resumer X M)} {p : Program X M} (hs : s.Represents ⟨w, r :: active, p⟩)
    (ha : (⟨w, r :: active, p⟩ : Direct X M).Nested) :
    s.stack = some r.coroutine ∧ s.current = some r.coroutine ∧
      ∃ impl, s.coroutines[r.coroutine]? = some impl ∧ impl.caught = none ∧ impl.returnPoint =
        some ⟨innermost active, .resume r.coroutine (innermost active) r.onReturn r.onThrow⟩ := by
  obtain ⟨⟨impl, himpl, hpoint⟩, -⟩ := hs.returns
  have hrunning := hs.objects r.coroutine impl .running himpl (ha.running r (by simp))
  exact ⟨hs.stack, hs.current, impl, himpl, hrunning.2, hpoint⟩

theorem Represents.exit {X M : Type} {s : Standalone X M} {a : Direct X M} (hs : s.Represents a)
    (ha : a.Nested) : Option.Rel Represents (s.exit none) (a.leave .returned) ∧
      ∀ e, Option.Rel Represents (s.exit (some e)) (a.leave (.threw e)) := by
  obtain ⟨w, active, p⟩ := a
  cases active with
  | nil =>
    have hstack : s.stack = none := hs.stack
    simp only [Standalone.exit, hstack, Option.bind_none, Direct.leave]
    exact ⟨.none, fun _ => .none⟩
  | cons r active =>
    obtain ⟨hstack, -, impl, himpl, hcaught, hpoint⟩ := hs.top ha
    simp only [Standalone.exit, hstack, Option.bind_some, himpl, hpoint, Option.map_some,
      Direct.leave]
    refine ⟨.some (hs.leave ha (o := .returned) ?_ ?_ rfl),
      fun e => .some (hs.leave ha (o := .threw e) ?_ ?_ rfl)⟩
    · rfl
    · exact hcaught
    · rfl
    · rfl

theorem Represents.suspend {X M : Type} {s : Standalone X M} {a : Direct X M}
    (hs : s.Represents a) (ha : a.Nested) (rest : Program X M) :
    Option.Rel Represents (s.suspend rest) (a.leave (.suspended rest)) := by
  obtain ⟨w, active, p⟩ := a
  cases active with
  | nil =>
    have hcurrent : s.current = none := hs.current
    simp only [Standalone.suspend, hcurrent, Option.bind_none, Direct.leave]
    exact .none
  | cons r active =>
    obtain ⟨hstack, hcurrent, impl, himpl, hcaught, hpoint⟩ := hs.top ha
    simp only [Standalone.suspend, hcurrent, Option.bind_some, himpl, hpoint, Option.map_some,
      Direct.leave, hstack]
    refine .some (hs.leave ha (o := .suspended rest) ?_ ?_ rfl)
    · exact ⟨rfl, hcaught, .inr rfl⟩
    · exact hcaught

theorem Represents.resume {X M : Type} {s : Standalone X M} {w : World X M}
    {active : List (Resumer X M)} {c : Nat} {onReturn : Program X M} {onThrow : X → Program X M}
    (hs : s.Represents ⟨w, active, .resume c onReturn onThrow⟩)
    (ha : (⟨w, active, .resume c onReturn onThrow⟩ : Direct X M).Nested) :
    Option.Rel Represents (s.resume c onReturn onThrow)
      (⟨w, active, .resume c onReturn onThrow⟩ : Direct X M).step := by
  unfold Standalone.resume Direct.step
  cases hc : w.coroutines[c]? with
  | none =>
    have hge : s.coroutines.length ≤ c := hs.length ▸ List.getElem?_eq_none_iff.mp hc
    rw [List.getElem?_eq_none hge]
    simp only [hc]
    exact .none
  | some phase =>
    obtain ⟨impl, himpl, hphase⟩ := hs.object hc
    simp only [himpl, hc]
    cases phase with
    | running =>
      rw [if_neg (by simp [hphase.1])]
      exact .none
    | completed =>
      have hstate : impl.state = .terminated := hphase
      rw [if_neg (by simp [hstate])]
      exact .none
    | suspended rest =>
      obtain ⟨hstate, hcaught, hpoint⟩ := hphase
      have hlt : c < s.coroutines.length := (List.getElem?_eq_some_iff.mp himpl).1
      have hfresh : c ∉ active.map Resumer.coroutine := by
        intro hmem
        obtain ⟨r, hr, rfl⟩ := List.mem_map.mp hmem
        have hrunning := ha.running r hr
        rw [hc] at hrunning
        cases hrunning
      rw [if_pos hstate]
      rw [switchTo_suspended _ hpoint]
      refine .some ⟨rfl, hs.memory, ?_, rfl, rfl, ?_, fun d other its => hs.objects_set ?_,
        ⟨_, List.getElem?_set_self hlt, ?_⟩, hs.returns.set hfresh _⟩
      · simp [put, log, World.enter, hs.trace, hs.stack]
      · simpa [put, log, World.enter] using hs.length
      · exact ⟨rfl, hcaught⟩
      · simp [log, hs.stack, hs.current]

/-- One step of the coroutines against one of direct resumption. -/
theorem Represents.step {X M : Type} {s : Standalone X M} {a : Direct X M} (hs : s.Represents a)
    (ha : a.Nested) : Option.Rel Represents s.step a.step := by
  obtain ⟨w, active, p⟩ := a
  have hprogram : s.program = p := hs.program
  unfold Standalone.step Direct.step
  rw [hprogram]
  cases p with
  | return_ => exact (hs.exit ha).1
  | throw e => exact (hs.exit ha).2 e
  | suspend rest => exact hs.suspend ha rest
  | compute f next =>
    have hmemory : s.memory = w.memory := hs.memory
    refine .some ⟨by simp [hmemory], by simp [World.compute, hmemory], ?_, hs.stack, hs.current,
      hs.length, hs.objects, hs.returns⟩
    simp [log, World.compute, hs.trace, hs.stack, hmemory]
  | create body next =>
    have hlength : s.coroutines.length = w.coroutines.length := hs.length
    refine .some ⟨by simp [hlength], hs.memory, ?_, hs.stack, hs.current, ?_, ?_,
      hs.returns.append _⟩
    · simp [log, World.create, hs.trace, hs.stack, hlength]
    · simp [World.create, hlength]
    · intro c impl phase himpl hphase
      simp only [World.create, List.getElem?_append] at himpl hphase
      split at himpl
      · rename_i hlt
        rw [if_pos (hlength ▸ hlt)] at hphase
        exact hs.objects c impl phase himpl hphase
      · rename_i hge
        rw [if_neg (hlength ▸ hge)] at hphase
        obtain rfl := List.mem_singleton.mp (List.mem_of_getElem? himpl)
        obtain rfl := List.mem_singleton.mp (List.mem_of_getElem? hphase)
        have hlast : c = s.coroutines.length := by
          have hlt := (List.getElem?_eq_some_iff.mp himpl).1
          simp only [List.length_singleton] at hlt
          omega
        exact ⟨rfl, rfl, .inl (by rw [CoroutineImpl.new, hlast])⟩
  | isCompleted c next =>
    cases hc : w.coroutines[c]? with
    | none =>
      have hge : s.coroutines.length ≤ c := hs.length ▸ List.getElem?_eq_none_iff.mp hc
      simp only [List.getElem?_eq_none hge, hc, Option.map_none]
      exact .none
    | some phase =>
      obtain ⟨impl, himpl, hphase⟩ := hs.object hc
      have hanswer := hphase.isCompleted_eq
      simp only [himpl, hc, Option.map_some, hanswer]
      refine .some ⟨rfl, hs.memory, ?_, hs.stack, hs.current, hs.length, hs.objects, hs.returns⟩
      simp [log, World.ask, hs.trace, hs.stack]
  | resume c onReturn onThrow => exact hs.resume ha

theorem Represents.forth {X M : Type} {s : Standalone X M} {a b : Direct X M}
    (hs : s.Represents a) (ha : a.Nested) (h : a.step = some b) :
    ∃ t, s.step = some t ∧ t.Represents b := by
  have hrel := hs.step ha
  cases ht : s.step with
  | none => simp [h, ht] at hrel
  | some t => exact ⟨t, rfl, by simpa [h, ht] using hrel⟩

theorem Represents.back {X M : Type} {s t : Standalone X M} {a : Direct X M}
    (hs : s.Represents a) (ha : a.Nested) (h : s.step = some t) :
    ∃ b, a.step = some b ∧ t.Represents b := by
  have hrel := hs.step ha
  cases hb : a.step with
  | none => simp [h, hb] at hrel
  | some b => exact ⟨b, rfl, by simpa [h, hb] using hrel⟩

end Standalone

/-- A run of direct resumption, done with coroutines. -/
theorem Standalone.Represents.exec {X M : Type} {p : Program X M} {m : M} {s : Standalone X M}
    {a b : Direct X M} (hs : s.Represents a) (ha : a.Nested) {ls : List Unit}
    (h : (direct p m).exec a ls = some b) :
    ∃ t, (standalone p m).exec s ls = some t ∧ t.Represents b := by
  induction ls generalizing s a with
  | nil =>
    simp only [Machine.exec_nil, Option.some.injEq] at h
    exact ⟨s, rfl, h ▸ hs⟩
  | cons l ls ih =>
    obtain ⟨c, hc, h⟩ := Option.bind_eq_some_iff.mp h
    obtain ⟨u, hu, hrep⟩ := hs.forth ha hc
    obtain ⟨t, ht, hend⟩ := ih hrep (ha.step hc) h
    have hstep : (standalone p m).step s l = some u := hu
    exact ⟨t, by rw [Machine.exec_cons, hstep]; exact ht, hend⟩

theorem represents_init {X M : Type} (p : Program X M) (m : M) :
    (standalone p m).init.Represents (direct p m).init :=
  ⟨rfl, rfl, rfl, rfl, rfl, rfl, nofun, trivial⟩

theorem direct_represented {X M : Type} {p : Program X M} {m : M} {a : Direct X M}
    (h : (direct p m).Reachable a) : ∃ s, (standalone p m).Reachable s ∧ s.Represents a := by
  obtain ⟨ls, hls⟩ := h.exists_run
  obtain ⟨s, hs, hrep⟩ := (represents_init p m).exec (direct_nested .init) hls
  exact ⟨s, Machine.reachable_of_exec ls hs, hrep⟩

theorem standalone_represents {X M : Type} {p : Program X M} {m : M} {s : Standalone X M}
    (h : (standalone p m).Reachable s) : ∃ a, (direct p m).Reachable a ∧ s.Represents a := by
  induction h with
  | init => exact ⟨_, .init, represents_init p m⟩
  | @step s t l _ hstep ih =>
    obtain ⟨a, ha, hs⟩ := ih
    obtain ⟨b, hb, hrep⟩ := hs.back (direct_nested ha) hstep
    exact ⟨b, .step (l := ()) ha hb, hrep⟩

/-- What holds in every state: who is innermost, who has ended, and that a `Resume`
comes back, by return or by exception, to where it was called. -/
structure Standalone.Bracketed {X M : Type} (p : Program X M) (m : M) (s : Standalone X M) :
    Prop where
  current : s.current = s.stack
  completed : ∀ c impl, s.coroutines[c]? = some impl → (impl.isCompleted = true ↔
    .returned (some c) ∈ s.trace ∨ ∃ e, .threw (some c) e ∈ s.trace)
  direct : ∃ a, (direct p m).Reachable a ∧ s.Represents a
  resumed : ∀ a, s.Represents a → a.Nested → ∀ c onReturn onThrow body u o,
    a.program = .resume c onReturn onThrow → a.world.coroutines[c]? = some (.suspended body) →
    Exec (some c) (a.world.enter s.stack c) body u o →
    ∃ ls t, (standalone p m).exec s ls = some t ∧ t.current = s.current ∧ t.stack = s.stack ∧
      t.program = o.resumer onReturn onThrow ∧ t.trace = (u.leave s.stack c o).trace

theorem standalone_bracketed {X M : Type} {p : Program X M} {m : M} {s : Standalone X M}
    (h : (standalone p m).Reachable s) : s.Bracketed p m := by
  obtain ⟨a, ha, hs⟩ := standalone_represents h
  have hnested := direct_nested ha
  refine ⟨hs.current.trans hs.stack.symm, fun c impl himpl => ?_, ⟨a, ha, hs⟩, ?_⟩
  · have hlt : c < a.world.coroutines.length :=
      hs.length ▸ (List.getElem?_eq_some_iff.mp himpl).1
    have hphase := List.getElem?_eq_getElem hlt
    have hcompleted := hnested.completed c
    rw [(hs.objects c impl _ himpl hphase).isCompleted_eq, hs.trace]
    simpa [World.Completed, World.Ended, hphase] using hcompleted
  · intro a hs hnested c onReturn onThrow body u o hprogram hc hexec
    obtain ⟨w, active, q⟩ := a
    obtain rfl : q = .resume c onReturn onThrow := hprogram
    rw [hs.stack] at hexec ⊢
    obtain ⟨ls, hls⟩ := hexec.run p m (⟨c, onReturn, onThrow⟩ :: active) rfl
    obtain ⟨t, ht, hend⟩ := hs.exec hnested (direct_resume p m hc hls)
    exact ⟨_, t, ht, hend.current.trans hs.current.symm, hend.stack, hend.program, hend.trace⟩

/-- The states are those of direct resumption, and the thread leaves its program with
the trace that the recursion gives, if at all. -/
theorem standalone_resumes_directly {X M : Type} (p : Program X M) (m : M) :
    (∀ s, (standalone p m).Reachable s → s.Bracketed p m) ∧
    (∀ a, (direct p m).Reachable a → ∃ s, (standalone p m).Reachable s ∧ s.Represents a) ∧
    ∀ (o : Leaving X M) (memory : M) (trace : List (CoroutineEvent X M)),
      (∃ s, (standalone p m).Reachable s ∧ s.stack = none ∧ s.program = o.program ∧
        s.memory = memory ∧ s.trace = trace) ↔
      ∃ v, Exec none ⟨[], m, []⟩ p v o ∧ v.memory = memory ∧ v.trace = trace := by
  refine ⟨fun s hs => standalone_bracketed hs, fun a ha => direct_represented ha,
    fun o memory trace => ?_⟩
  constructor
  · rintro ⟨s, hs, hstack, hprogram, rfl, rfl⟩
    obtain ⟨⟨v, active, q⟩, ha, hrep⟩ := standalone_represents hs
    obtain rfl : q = o.program := hrep.program.symm.trans hprogram
    cases active with
    | nil => exact ⟨v, direct_ends_iff.mp ha, hrep.memory.symm, hrep.trace.symm⟩
    | cons r active =>
      have hsome := hrep.stack.symm.trans hstack
      cases hsome
  · rintro ⟨v, hexec, rfl, rfl⟩
    obtain ⟨s, hs, hrep⟩ := direct_represented (direct_ends_iff.mpr hexec)
    exact ⟨s, hs, hrep.stack, hrep.program, hrep.memory, hrep.trace⟩

end ConcurrentProgramming.Coroutine
