import ConcurrentProgramming.Interleaving.Machine

/-!
Asymmetric coroutines, by direct resumption: to resume a coroutine is to run what
is left of its program until it suspends itself or ends, and then to go on. The
relation `Exec` says so by recursion, the machine `direct` with a stack of resumers.
-/

set_option autoImplicit false

namespace Interleaving

/-- What a coroutine, or the thread outside of all of them, has still to do. The
coroutines share a memory; a new one is known by its number. -/
inductive Program (X M : Type) where
  | return_
  | throw (e : X)
  | compute (f : M → M) (next : M → Program X M)
  | suspend (rest : Program X M)
  | create (body : Program X M) (next : Nat → Program X M)
  | resume (c : Nat) (onReturn : Program X M) (onThrow : X → Program X M)
  | isCompleted (c : Nat) (next : Bool → Program X M)

inductive CoroutinePhase (X M : Type) where
  | suspended (rest : Program X M)
  | running
  | completed

def CoroutinePhase.isCompleted {X M : Type} : CoroutinePhase X M → Bool
  | .completed => true
  | .suspended _ | .running => false

/-- What happens, and on whose stack: `none` is outside of all coroutines. -/
inductive CoroutineEvent (X M : Type) where
  | computed (who : Option Nat) (memory : M)
  | created (who : Option Nat) (c : Nat)
  | resumed (who : Option Nat) (c : Nat)
  | asked (who : Option Nat) (c : Nat) (answer : Bool)
  | suspended (who : Option Nat)
  | returned (who : Option Nat)
  | threw (who : Option Nat) (e : X)
  | back (who : Option Nat) (c : Nat)
  | caught (who : Option Nat) (c : Nat) (e : X)

/-- How a program gives up control. -/
inductive Leaving (X M : Type) where
  | suspended (rest : Program X M)
  | returned
  | threw (e : X)

namespace Leaving

def program {X M : Type} : Leaving X M → Program X M
  | .suspended rest => .suspend rest
  | .returned => .return_
  | .threw e => .throw e

def phase {X M : Type} : Leaving X M → CoroutinePhase X M
  | .suspended rest => .suspended rest
  | .returned | .threw _ => .completed

/-- What its resumer does next. -/
def resumer {X M : Type} (onReturn : Program X M) (onThrow : X → Program X M) :
    Leaving X M → Program X M
  | .suspended _ | .returned => onReturn
  | .threw e => onThrow e

def events {X M : Type} (who : Option Nat) (c : Nat) : Leaving X M → List (CoroutineEvent X M)
  | .suspended _ => [.suspended (some c), .back who c]
  | .returned => [.returned (some c), .back who c]
  | .threw e => [.threw (some c) e, .caught who c e]

theorem program_injective {X M : Type} {o p : Leaving X M} (h : o.program = p.program) :
    o = p := by
  cases o <;> cases p <;> simp_all [program]

end Leaving

structure World (X M : Type) where
  coroutines : List (CoroutinePhase X M)
  memory : M
  trace : List (CoroutineEvent X M)

namespace World

def compute {X M : Type} (w : World X M) (who : Option Nat) (f : M → M) : World X M :=
  { w with memory := f w.memory, trace := w.trace ++ [.computed who (f w.memory)] }

def create {X M : Type} (w : World X M) (who : Option Nat) (body : Program X M) : World X M :=
  { w with
    coroutines := w.coroutines ++ [.suspended body]
    trace := w.trace ++ [.created who w.coroutines.length] }

def ask {X M : Type} (w : World X M) (who : Option Nat) (c : Nat) (answer : Bool) : World X M :=
  { w with trace := w.trace ++ [.asked who c answer] }

def enter {X M : Type} (w : World X M) (who : Option Nat) (c : Nat) : World X M :=
  { w with coroutines := w.coroutines.set c .running, trace := w.trace ++ [.resumed who c] }

def leave {X M : Type} (w : World X M) (who : Option Nat) (c : Nat) (o : Leaving X M) :
    World X M :=
  { w with coroutines := w.coroutines.set c o.phase, trace := w.trace ++ o.events who c }

end World

/-- `who` runs a program until it gives up control. -/
inductive Exec {X M : Type} :
    Option Nat → World X M → Program X M → World X M → Leaving X M → Prop where
  | leave {who : Option Nat} {w : World X M} (o : Leaving X M) : Exec who w o.program w o
  | compute {who : Option Nat} {w v : World X M} {f : M → M} {next : M → Program X M}
      {o : Leaving X M} : Exec who (w.compute who f) (next (f w.memory)) v o →
      Exec who w (.compute f next) v o
  | create {who : Option Nat} {w v : World X M} {body : Program X M} {next : Nat → Program X M}
      {o : Leaving X M} : Exec who (w.create who body) (next w.coroutines.length) v o →
      Exec who w (.create body next) v o
  | isCompleted {who : Option Nat} {w v : World X M} {c : Nat} {next : Bool → Program X M}
      {phase : CoroutinePhase X M} {o : Leaving X M} : w.coroutines[c]? = some phase →
      Exec who (w.ask who c phase.isCompleted) (next phase.isCompleted) v o →
      Exec who w (.isCompleted c next) v o
  | resume {who : Option Nat} {w u v : World X M} {c : Nat} {body onReturn : Program X M}
      {onThrow : X → Program X M} {o p : Leaving X M} :
      w.coroutines[c]? = some (.suspended body) → Exec (some c) (w.enter who c) body u o →
      Exec who (u.leave who c o) (o.resumer onReturn onThrow) v p →
      Exec who w (.resume c onReturn onThrow) v p

/-- A coroutine that is running, and what its resumer waits to do. -/
structure Resumer (X M : Type) where
  coroutine : Nat
  onReturn : Program X M
  onThrow : X → Program X M

/-- The innermost coroutine comes first in `active`. -/
structure Direct (X M : Type) where
  world : World X M
  active : List (Resumer X M)
  program : Program X M

/-- The innermost running coroutine. -/
def innermost {X M : Type} (active : List (Resumer X M)) : Option Nat :=
  active.head?.map Resumer.coroutine

namespace Direct

def leave {X M : Type} (a : Direct X M) (o : Leaving X M) : Option (Direct X M) :=
  match a.active with
  | [] => none
  | r :: active =>
    some ⟨a.world.leave (innermost active) r.coroutine o, active,
      o.resumer r.onReturn r.onThrow⟩

def step {X M : Type} (a : Direct X M) : Option (Direct X M) :=
  match a.program with
  | .return_ => a.leave .returned
  | .throw e => a.leave (.threw e)
  | .suspend rest => a.leave (.suspended rest)
  | .compute f next =>
    some { a with world := a.world.compute (innermost a.active) f, program := next (f a.world.memory) }
  | .create body next =>
    some { a with
      world := a.world.create (innermost a.active) body
      program := next a.world.coroutines.length }
  | .isCompleted c next =>
    a.world.coroutines[c]?.map fun phase =>
      { a with
        world := a.world.ask (innermost a.active) c phase.isCompleted
        program := next phase.isCompleted }
  | .resume c onReturn onThrow =>
    match a.world.coroutines[c]? with
    | some (.suspended body) =>
      some ⟨a.world.enter (innermost a.active) c, ⟨c, onReturn, onThrow⟩ :: a.active, body⟩
    | _ => none

theorem step_resume {X M : Type} {w : World X M} {active : List (Resumer X M)} {c : Nat}
    {onReturn : Program X M} {onThrow : X → Program X M} {b : Direct X M} :
    (⟨w, active, .resume c onReturn onThrow⟩ : Direct X M).step = some b ↔
      ∃ body, w.coroutines[c]? = some (.suspended body) ∧
        b = ⟨w.enter (innermost active) c, ⟨c, onReturn, onThrow⟩ :: active, body⟩ := by
  simp only [step]
  split
  · rename_i body hc
    simp [hc, eq_comm]
  · rename_i hnone
    simp only [reduceCtorEq, false_iff, not_exists, not_and]
    exact fun body hc => (hnone body hc).elim

theorem step_leaving {X M : Type} (w : World X M) (active : List (Resumer X M))
    (o : Leaving X M) : (⟨w, active, o.program⟩ : Direct X M).step =
      (⟨w, active, o.program⟩ : Direct X M).leave o := by
  cases o <;> rfl

end Direct

/-- The thread starts outside of all coroutines. -/
def direct {X M : Type} (p : Program X M) (memory : M) : Machine (Direct X M) Unit where
  init := ⟨⟨[], memory, []⟩, [], p⟩
  step a _ := a.step

/-! Recursion and stack agree. -/

theorem direct_leave {X M : Type} (q : Program X M) (m : M) (w : World X M) (r : Resumer X M)
    (active : List (Resumer X M)) (o : Leaving X M) :
    (direct q m).step ⟨w, r :: active, o.program⟩ () =
      some ⟨w.leave (innermost active) r.coroutine o, active,
        o.resumer r.onReturn r.onThrow⟩ :=
  Direct.step_leaving w (r :: active) o

/-- A `resume` with the run of the coroutine inside of it. -/
theorem direct_resume {X M : Type} (q : Program X M) (m : M) {w u : World X M}
    {active : List (Resumer X M)} {c : Nat} {body onReturn : Program X M}
    {onThrow : X → Program X M} {o : Leaving X M} {ls : List Unit}
    (hc : w.coroutines[c]? = some (.suspended body))
    (h : (direct q m).exec ⟨w.enter (innermost active) c, ⟨c, onReturn, onThrow⟩ :: active, body⟩
      ls = some ⟨u, ⟨c, onReturn, onThrow⟩ :: active, o.program⟩) :
    (direct q m).exec ⟨w, active, .resume c onReturn onThrow⟩ (() :: (ls ++ [()])) =
      some ⟨u.leave (innermost active) c o, active, o.resumer onReturn onThrow⟩ := by
  have hstart : (direct q m).step ⟨w, active, .resume c onReturn onThrow⟩ () =
      some ⟨w.enter (innermost active) c, ⟨c, onReturn, onThrow⟩ :: active, body⟩ :=
    Direct.step_resume.mpr ⟨body, hc, rfl⟩
  rw [Machine.exec_cons, hstart, Option.bind_some, Machine.exec_append, h, Option.bind_some,
    Machine.exec_cons, direct_leave]
  rfl

theorem Exec.run {X M : Type} {who : Option Nat} {w v : World X M} {p : Program X M}
    {o : Leaving X M} (h : Exec who w p v o) (q : Program X M) (m : M)
    (active : List (Resumer X M)) (hwho : innermost active = who) :
    ∃ ls, (direct q m).exec ⟨w, active, p⟩ ls = some ⟨v, active, o.program⟩ := by
  induction h generalizing active with
  | leave o => exact ⟨[], rfl⟩
  | compute h ih | create h ih =>
    subst hwho
    obtain ⟨ls, hls⟩ := ih active rfl
    exact ⟨() :: ls, hls⟩
  | isCompleted hc h ih =>
    subst hwho
    obtain ⟨ls, hls⟩ := ih active rfl
    exact ⟨() :: ls, by simpa [direct, Direct.step, hc] using hls⟩
  | @resume who w u v c body onReturn onThrow o p hc hbody hrest ihbody ihrest =>
    subst hwho
    obtain ⟨ls, hls⟩ := ihbody (⟨c, onReturn, onThrow⟩ :: active) rfl
    obtain ⟨ms, hms⟩ := ihrest active rfl
    refine ⟨() :: (ls ++ [()]) ++ ms, ?_⟩
    rw [Machine.exec_append, direct_resume q m hc hls, Option.bind_some]
    exact hms

/-- A run that comes to an end outside of all coroutines has left every program it
was running on the way: the one it starts with first. -/
theorem exec_of_run {X M : Type} (q : Program X M) (m : M) {ls : List Unit} {w v : World X M}
    {active : List (Resumer X M)} {p : Program X M} {end_ : Leaving X M}
    (h : (direct q m).exec ⟨w, active, p⟩ ls = some ⟨v, [], end_.program⟩) :
    ∃ u o ms, ms.length ≤ ls.length ∧ Exec (innermost active) w p u o ∧
      (direct q m).exec ⟨u, active, o.program⟩ ms = some ⟨v, [], end_.program⟩ := by
  induction hn : ls.length using Nat.strongRecOn generalizing ls w active p with
  | ind n ih =>
    subst hn
    by_cases hleave : ∃ o : Leaving X M, p = o.program
    · obtain ⟨o, rfl⟩ := hleave
      exact ⟨w, o, ls, Nat.le_refl _, .leave o, h⟩
    have hne : ls ≠ [] := by
      rintro rfl
      simp only [Machine.exec_nil, Option.some.injEq, Direct.mk.injEq] at h
      exact hleave ⟨end_, h.2.2⟩
    obtain ⟨l, ls, rfl⟩ := List.exists_cons_of_ne_nil hne
    obtain ⟨b, hb, hrest⟩ := Option.bind_eq_some_iff.mp h
    have hshort : ls.length < (l :: ls).length := by simp
    cases p with
    | return_ => exact (hleave ⟨.returned, rfl⟩).elim
    | throw e => exact (hleave ⟨.threw e, rfl⟩).elim
    | suspend rest => exact (hleave ⟨.suspended rest, rfl⟩).elim
    | compute f next =>
      obtain rfl := Option.some.inj hb
      obtain ⟨u, o, ms, hms, hexec, hrun⟩ := ih _ hshort hrest rfl
      exact ⟨u, o, ms, by omega, .compute hexec, hrun⟩
    | create body next =>
      obtain rfl := Option.some.inj hb
      obtain ⟨u, o, ms, hms, hexec, hrun⟩ := ih _ hshort hrest rfl
      exact ⟨u, o, ms, by omega, .create hexec, hrun⟩
    | isCompleted c next =>
      obtain ⟨phase, hphase, rfl⟩ := Option.map_eq_some_iff.mp hb
      obtain ⟨u, o, ms, hms, hexec, hrun⟩ := ih _ hshort hrest rfl
      exact ⟨u, o, ms, by omega, .isCompleted hphase hexec, hrun⟩
    | resume c onReturn onThrow =>
      obtain ⟨body, hc, rfl⟩ := Direct.step_resume.mp hb
      obtain ⟨u, o, ms, hms, hbody, hrun⟩ := ih _ hshort hrest rfl
      -- the coroutine leaves, and its resumer goes on
      have hne : ms ≠ [] := by
        rintro rfl
        simp at hrun
      obtain ⟨l', ms, rfl⟩ := List.exists_cons_of_ne_nil hne
      obtain ⟨b, hb, hrun⟩ := Option.bind_eq_some_iff.mp hrun
      rw [show l' = () from rfl, direct_leave] at hb
      obtain rfl := Option.some.inj hb
      rw [List.length_cons] at hms
      obtain ⟨u', o', ms', hms', hrest, hrun⟩ := ih ms.length (by omega) hrun rfl
      exact ⟨u', o', ms', by omega, .resume hc hbody hrest, hrun⟩

/-- The direct machine comes to an end exactly where the recursion does. -/
theorem direct_ends_iff {X M : Type} {p : Program X M} {m : M} {v : World X M}
    {o : Leaving X M} :
    (direct p m).Reachable ⟨v, [], o.program⟩ ↔ Exec none ⟨[], m, []⟩ p v o := by
  constructor
  · intro h
    obtain ⟨ls, hls⟩ := Machine.Reachable.exists_run h
    obtain ⟨u, o', ms, -, hexec, hrun⟩ := exec_of_run p m (w := ⟨[], m, []⟩) hls
    cases ms with
    | nil =>
      simp only [Machine.exec_nil, Option.some.injEq, Direct.mk.injEq] at hrun
      obtain ⟨rfl, -, hprogram⟩ := hrun
      exact Leaving.program_injective hprogram ▸ hexec
    | cons l ms =>
      obtain ⟨b, hb, -⟩ := Option.bind_eq_some_iff.mp hrun
      rw [show (direct p m).step ⟨u, [], o'.program⟩ l = none from Direct.step_leaving u [] o'] at hb
      cases hb
  · intro h
    obtain ⟨ls, hls⟩ := h.run p m [] rfl
    exact Machine.reachable_of_exec ls hls

/-! Which coroutines are running, and which have ended. -/

def World.Ended {X M : Type} (w : World X M) (c : Nat) : Prop :=
  .returned (some c) ∈ w.trace ∨ ∃ e, .threw (some c) e ∈ w.trace

def World.Completed {X M : Type} (w : World X M) (c : Nat) : Prop :=
  ∃ phase, w.coroutines[c]? = some phase ∧ phase.isCompleted = true

structure Direct.Nested {X M : Type} (a : Direct X M) : Prop where
  nodup : (a.active.map Resumer.coroutine).Nodup
  running : ∀ r ∈ a.active, a.world.coroutines[r.coroutine]? = some .running
  completed : ∀ c, a.world.Completed c ↔ a.world.Ended c

/-- A step that ends no coroutine, and changes none but those that are not active. -/
theorem Direct.Nested.keep {X M : Type} {a b : Direct X M} (ha : a.Nested)
    (hactive : b.active = a.active)
    (hrunning : ∀ c : Nat, a.world.coroutines[c]? = some .running →
      b.world.coroutines[c]? = some .running)
    (hcompleted : ∀ c, b.world.Completed c ↔ a.world.Completed c)
    (hended : ∀ c, b.world.Ended c ↔ a.world.Ended c) : b.Nested := by
  refine ⟨hactive ▸ ha.nodup, fun r hr => hrunning _ (ha.running r (hactive ▸ hr)), fun c => ?_⟩
  rw [hcompleted, hended]
  exact ha.completed c

theorem Direct.Nested.leave {X M : Type} {a b : Direct X M} (ha : a.Nested) {o : Leaving X M}
    (h : a.leave o = some b) : b.Nested := by
  unfold Direct.leave at h
  cases hactive : a.active with
  | nil => simp [hactive] at h
  | cons r active =>
    simp only [hactive, Option.some.injEq] at h
    subst h
    have hnodup := ha.nodup
    rw [hactive, List.map_cons, List.nodup_cons] at hnodup
    have hrunning := ha.running r (by simp [hactive])
    have hlt : r.coroutine < a.world.coroutines.length :=
      (List.getElem?_eq_some_iff.mp hrunning).1
    refine ⟨hnodup.2, fun s hs => ?_, fun c => ?_⟩
    · have hne : r.coroutine ≠ s.coroutine := fun he =>
        hnodup.1 (he ▸ List.mem_map_of_mem hs)
      simpa [World.leave, hne] using ha.running s (by simp [hactive, hs])
    · by_cases hc : c = r.coroutine
      · subst hc
        -- it was running, so that it had not ended before
        have hnot : ¬ a.world.Ended r.coroutine := by
          intro hended
          obtain ⟨phase, hphase, hcompleted⟩ := (ha.completed _).mpr hended
          obtain rfl := Option.some.inj (hphase.symm.trans hrunning)
          cases hcompleted
        simp only [World.Ended, not_or, not_exists] at hnot
        cases o <;>
          simp [World.Completed, World.Ended, World.leave, Leaving.phase, Leaving.events, hlt,
            CoroutinePhase.isCompleted, hnot]
      · have hsame : (a.world.leave (innermost active) r.coroutine o).Completed c ↔
            a.world.Completed c := by
          simp [World.Completed, World.leave, Ne.symm hc]
        have hended : (a.world.leave (innermost active) r.coroutine o).Ended c ↔
            a.world.Ended c := by
          cases o <;> simp [World.Ended, World.leave, Leaving.events, hc]
        rw [hsame, hended]
        exact ha.completed c

theorem Direct.Nested.step {X M : Type} {a b : Direct X M} (ha : a.Nested)
    (h : a.step = some b) : b.Nested := by
  obtain ⟨w, active, p⟩ := a
  cases p with
  | return_ | throw e | suspend rest => exact ha.leave h
  | compute f next =>
    obtain rfl := Option.some.inj h
    exact ha.keep rfl (fun _ hc => hc) (fun _ => Iff.rfl)
      (fun c => by simp [World.Ended, World.compute])
  | create body next =>
    obtain rfl := Option.some.inj h
    refine ha.keep rfl (fun c hc => ?_) (fun c => ?_) fun c => by simp [World.Ended, World.create]
    · exact (List.getElem?_append_left (List.getElem?_eq_some_iff.mp hc).1).trans hc
    · simp only [World.Completed, World.create, List.getElem?_append]
      split
      · rfl
      · rename_i hge
        rw [List.getElem?_eq_none (Nat.le_of_not_lt hge)]
        refine iff_of_false ?_ (by simp)
        rintro ⟨phase, hphase, hcompleted⟩
        obtain rfl := List.mem_singleton.mp (List.mem_of_getElem? hphase)
        cases hcompleted
  | isCompleted c next =>
    obtain ⟨phase, -, rfl⟩ := Option.map_eq_some_iff.mp h
    exact ha.keep rfl (fun _ hc => hc) (fun _ => Iff.rfl)
      (fun c => by simp [World.Ended, World.ask])
  | resume c onReturn onThrow =>
    obtain ⟨body, hc, rfl⟩ := Direct.step_resume.mp h
    have hlt : c < w.coroutines.length := (List.getElem?_eq_some_iff.mp hc).1
    have hne : ∀ r ∈ active, c ≠ r.coroutine := by
      rintro r hr rfl
      have hrunning := ha.running r hr
      rw [hc] at hrunning
      cases hrunning
    refine ⟨?_, fun r hr => ?_, fun i => ?_⟩
    · rw [List.map_cons, List.nodup_cons]
      refine ⟨fun hmem => ?_, ha.nodup⟩
      obtain ⟨r, hr, he⟩ := List.mem_map.mp hmem
      exact hne r hr he.symm
    · rcases List.mem_cons.mp hr with rfl | hr
      · simp [World.enter, hlt]
      · simpa [World.enter, hne r hr] using ha.running r hr
    · have hsame : (w.enter (innermost active) c).Completed i ↔ w.Completed i := by
        by_cases hi : i = c
        · subst hi
          have hget : w.coroutines[i] = .suspended body := (List.getElem?_eq_some_iff.mp hc).2
          simp [World.Completed, World.enter, hlt, hget, CoroutinePhase.isCompleted]
        · simp [World.Completed, World.enter, Ne.symm hi]
      rw [hsame, ha.completed i]
      simp [World.Ended, World.enter]

theorem direct_nested {X M : Type} {p : Program X M} {m : M} {a : Direct X M}
    (h : (direct p m).Reachable a) : a.Nested := by
  refine h.invariant ?_ fun _ _ _ _ ha hstep => ha.step hstep
  exact ⟨List.nodup_nil, nofun, fun c => by simp [World.Completed, World.Ended, direct]⟩

end Interleaving
