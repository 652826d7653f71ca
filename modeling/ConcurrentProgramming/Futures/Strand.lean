import ConcurrentProgramming.Interleaving.Machine
import ConcurrentProgramming.Interleaving.Chain
import ConcurrentProgramming.Interleaving.SerialExecutor

/-!
`Strand`: a lock-free stack of tasks and one flag, over an executor that runs
every submission of the strand exactly once, at any later time, on any thread.
Every load, store, exchange and compare-exchange of `Execute` and `Run` is a
step of its own. A node that has been deleted may be allocated again.
-/

set_option autoImplicit false

namespace ConcurrentProgramming.Futures
open Interleaving

universe u v w x

structure TaskNode (A : Type u) (T : Type v) where
  prev : Option A
  task : T
  deriving DecidableEq, Repr

/-- A call of `Strand::Execute` that has allocated its node. -/
inductive Execute (A : Type u) where
  | idle
  | loadTasks (created : A)
  | compareExchange (created : A) (expected : Option A)
  | exchange
  | schedule
  deriving DecidableEq, Repr

/-- A call of `Strand::Run`, made by the underlying executor. `running` is the
call of the task's own `Run`. -/
inductive Run (A : Type u) where
  | idle
  | exchangeTasks
  | storeReschedule
  | loadTasks
  | exchangeReschedule
  | reverse (cur prev : Option A)
  | loop (stolen : Option A)
  | running (stolen : A)
  | schedule
  deriving DecidableEq, Repr

/-- `pending` counts the submissions to the underlying executor that it has not
started. `accepted` lists the tasks in the order of their compare-exchange,
`ran` in the order in which their `Run` was called. -/
structure Strand (A : Type u) (T : Type v) (F : Type w) (R : Type x) where
  tasks : Option A
  reschedule : Bool
  heap : A → Option (TaskNode A T)
  pending : Nat
  executes : F → Execute A
  runs : R → Run A
  accepted : List T
  ran : List T

/-- `execute` calls `Execute` with a task and the address `new` returns, `start`
lets the underlying executor run one pending submission; a task that is running
may itself be the caller. -/
inductive StrandLabel (A : Type u) (T : Type v) (F : Type w) (R : Type x) where
  | execute (f : F) (task : T) (created : A)
  | stepExecute (f : F)
  | start (r : R)
  | stepRun (r : R)

namespace Strand

def gotoExecute {A : Type u} {T : Type v} {F : Type w} {R : Type x} [DecidableEq F]
    (s : Strand A T F R) (f : F) (pc : Execute A) : Strand A T F R :=
  { s with executes := Function.update s.executes f pc }

def gotoRun {A : Type u} {T : Type v} {F : Type w} {R : Type x} [DecidableEq R]
    (s : Strand A T F R) (r : R) (pc : Run A) : Strand A T F R :=
  { s with runs := Function.update s.runs r pc }

def store {A : Type u} {T : Type v} {F : Type w} {R : Type x} [DecidableEq A]
    (s : Strand A T F R) (a : A) (cell : Option (TaskNode A T)) : Strand A T F R :=
  { s with heap := Function.update s.heap a cell }

/-- `slave_.Execute(this)`. -/
def submit {A : Type u} {T : Type v} {F : Type w} {R : Type x} (s : Strand A T F R) :
    Strand A T F R := { s with pending := s.pending + 1 }

def executeStep {A : Type u} {T : Type v} {F : Type w} {R : Type x} [DecidableEq A]
    [DecidableEq F] (s : Strand A T F R) (f : F) : Option (Strand A T F R) :=
  match s.executes f with
  | .idle => none
  | .loadTasks created =>
    (s.heap created).map fun n =>
      (s.store created (some { n with prev := s.tasks })).gotoExecute f
        (.compareExchange created s.tasks)
  | .compareExchange created expected =>
    if s.tasks = expected then
      (s.heap created).map fun n =>
        { s.gotoExecute f .exchange with
          tasks := some created, accepted := s.accepted ++ [n.task] }
    else some (s.gotoExecute f (.loadTasks created))
  | .exchange =>
    some { s.gotoExecute f (if s.reschedule then .schedule else .idle) with reschedule := false }
  | .schedule => some (s.submit.gotoExecute f .idle)

def runStep {A : Type u} {T : Type v} {F : Type w} {R : Type x} [DecidableEq A] [DecidableEq R]
    (s : Strand A T F R) (r : R) : Option (Strand A T F R) :=
  match s.runs r with
  | .idle => none
  | .exchangeTasks =>
    some { s.gotoRun r (if s.tasks = none then .storeReschedule else .reverse none s.tasks) with
      tasks := none }
  | .storeReschedule => some { s.gotoRun r .loadTasks with reschedule := true }
  | .loadTasks => some (s.gotoRun r (if s.tasks = none then .idle else .exchangeReschedule))
  | .exchangeReschedule =>
    some { s.gotoRun r (if s.reschedule then .schedule else .idle) with reschedule := false }
  | .reverse cur none => some (s.gotoRun r (.loop cur))
  | .reverse cur (some a) =>
    (s.heap a).map fun n =>
      (s.store a (some { n with prev := cur })).gotoRun r (.reverse (some a) n.prev)
  | .loop none => some (s.gotoRun r .schedule)
  | .loop (some a) =>
    (s.heap a).map fun n => { s.gotoRun r (.running a) with ran := s.ran ++ [n.task] }
  | .running a => (s.heap a).map fun n => (s.store a none).gotoRun r (.loop n.prev)
  | .schedule => some (s.submit.gotoRun r .idle)

def step {A : Type u} {T : Type v} {F : Type w} {R : Type x} [DecidableEq A] [DecidableEq F]
    [DecidableEq R] (s : Strand A T F R) : StrandLabel A T F R → Option (Strand A T F R)
  | .execute f task created =>
    if s.executes f = .idle ∧ (s.heap created).isNone then
      some ((s.store created (some ⟨none, task⟩)).gotoExecute f (.loadTasks created))
    else none
  | .stepExecute f => s.executeStep f
  | .start r =>
    if s.runs r = .idle ∧ 0 < s.pending then
      some { s.gotoRun r .exchangeTasks with pending := s.pending - 1 }
    else none
  | .stepRun r => s.runStep r

end Strand

def strand (A : Type u) (T : Type v) (F : Type w) (R : Type x) [DecidableEq A] [DecidableEq F]
    [DecidableEq R] : Machine (Strand A T F R) (StrandLabel A T F R) where
  init := ⟨none, true, fun _ => none, 0, fun _ => .idle, fun _ => .idle, [], []⟩
  step := Strand.step

/-- The right to submit the strand: with the flag, with the underlying executor,
or with one call. -/
inductive Holder (F : Type w) (R : Type x) where
  | free
  | pending
  | execute (f : F)
  | run (r : R)

def Run.holding {A : Type u} : Run A → Bool
  | .idle | .loadTasks | .exchangeReschedule => false
  | .exchangeTasks | .storeReschedule | .reverse _ _ | .loop _ | .running _ | .schedule => true

/-- The strand is executing tasks from the steal of a batch to its end. -/
def Run.executing {A : Type u} : Run A → Bool
  | .reverse _ _ | .loop _ | .running _ => true
  | _ => false

structure Token {A : Type u} {F : Type w} {R : Type x} (reschedule : Bool) (pending : Nat)
    (executes : F → Execute A) (runs : R → Run A) (h : Holder F R) : Prop where
  free : reschedule = true ↔ h = .free
  one : h = .pending → pending = 1
  zero : h ≠ .pending → pending = 0
  execute : ∀ f, executes f = .schedule ↔ h = .execute f
  run : ∀ r, (runs r).holding = true ↔ h = .run r

namespace Token

theorem execute_quiet {A : Type u} {F : Type w} {R : Type x} [DecidableEq F] {b : Bool} {p : Nat}
    {executes : F → Execute A} {runs : R → Run A} {h : Holder F R}
    (ht : Token b p executes runs h) {f : F} {pc : Execute A} (hf : executes f ≠ .schedule)
    (hpc : pc ≠ .schedule) : Token b p (Function.update executes f pc) runs h := by
  refine ⟨ht.free, ht.one, ht.zero, fun g => ?_, ht.run⟩
  by_cases hg : g = f
  · subst hg
    simp [hpc, ← ht.execute g, hf]
  · simp [hg, ht.execute g]

theorem run_quiet {A : Type u} {F : Type w} {R : Type x} [DecidableEq R] {b : Bool} {p : Nat}
    {executes : F → Execute A} {runs : R → Run A} {h : Holder F R}
    (ht : Token b p executes runs h) {r : R} {pc : Run A} (hpc : pc.holding = (runs r).holding) :
    Token b p executes (Function.update runs r pc) h := by
  refine ⟨ht.free, ht.one, ht.zero, ht.execute, fun q => ?_⟩
  by_cases hq : q = r
  · subst hq
    simp [hpc, ht.run q]
  · simp [hq, ht.run q]

theorem execute_takes {A : Type u} {F : Type w} {R : Type x} [DecidableEq F] {p : Nat}
    {executes : F → Execute A} {runs : R → Run A} {h : Holder F R}
    (ht : Token true p executes runs h) (f : F) :
    Token false p (Function.update executes f .schedule) runs (.execute f) := by
  have hfree : h = .free := ht.free.mp rfl
  subst hfree
  refine ⟨by simp, by simp, fun _ => ht.zero (by simp), fun g => ?_, fun r => ?_⟩
  · by_cases hg : g = f
    · simp [hg]
    · simpa [hg, Ne.symm hg] using ht.execute g
  · simpa using ht.run r

theorem execute_submits {A : Type u} {F : Type w} {R : Type x} [DecidableEq F] {b : Bool}
    {p : Nat} {executes : F → Execute A} {runs : R → Run A} {h : Holder F R}
    (ht : Token b p executes runs h) {f : F} (hf : executes f = .schedule) :
    Token b (p + 1) (Function.update executes f .idle) runs .pending := by
  have hh : h = .execute f := (ht.execute f).mp hf
  subst hh
  have hp : p = 0 := ht.zero (by simp)
  refine ⟨by simpa using ht.free, fun _ => by omega, by simp, fun g => ?_, fun r => ?_⟩
  · by_cases hg : g = f
    · simp [hg]
    · simpa [hg, Ne.symm hg] using ht.execute g
  · simpa using ht.run r

theorem start {A : Type u} {F : Type w} {R : Type x} [DecidableEq R] {b : Bool} {p : Nat}
    {executes : F → Execute A} {runs : R → Run A} {h : Holder F R}
    (ht : Token b p executes runs h) (hp : 0 < p) (r : R) :
    Token b (p - 1) executes (Function.update runs r .exchangeTasks) (.run r) ∧ h = .pending := by
  have hh : h = .pending := by
    by_contra hne
    have := ht.zero hne
    omega
  subst hh
  have hone : p = 1 := ht.one rfl
  refine ⟨⟨by simpa using ht.free, by simp, fun _ => by omega, by simpa using ht.execute,
    fun q => ?_⟩, rfl⟩
  by_cases hq : q = r
  · simp [hq, Run.holding]
  · simpa [hq, Ne.symm hq] using ht.run q

theorem run_submits {A : Type u} {F : Type w} {R : Type x} [DecidableEq R] {b : Bool} {p : Nat}
    {executes : F → Execute A} {runs : R → Run A} {r : R}
    (ht : Token b p executes runs (.run r)) :
    Token b (p + 1) executes (Function.update runs r .idle) .pending := by
  have hp : p = 0 := ht.zero (by simp)
  refine ⟨by simpa using ht.free, fun _ => by omega, by simp, by simpa using ht.execute,
    fun q => ?_⟩
  by_cases hq : q = r
  · simp [hq, Run.holding]
  · simpa [hq, Ne.symm hq] using ht.run q

theorem run_releases {A : Type u} {F : Type w} {R : Type x} [DecidableEq R] {b : Bool} {p : Nat}
    {executes : F → Execute A} {runs : R → Run A} {r : R}
    (ht : Token b p executes runs (.run r)) :
    Token true p executes (Function.update runs r .loadTasks) .free := by
  refine ⟨by simp, by simp, fun _ => ht.zero (by simp), by simpa using ht.execute, fun q => ?_⟩
  by_cases hq : q = r
  · simp [hq, Run.holding]
  · simpa [hq, Ne.symm hq] using ht.run q

theorem run_takes {A : Type u} {F : Type w} {R : Type x} [DecidableEq R] {p : Nat}
    {executes : F → Execute A} {runs : R → Run A} {h : Holder F R}
    (ht : Token true p executes runs h) (r : R) :
    Token false p executes (Function.update runs r .schedule) (.run r) ∧ h = .free := by
  have hfree : h = .free := ht.free.mp rfl
  subst hfree
  refine ⟨⟨by simp, by simp, fun _ => ht.zero (by simp), by simpa using ht.execute, fun q => ?_⟩,
    rfl⟩
  by_cases hq : q = r
  · simp [hq, Run.holding]
  · simpa [hq, Ne.symm hq] using ht.run q

theorem holder_eq {A : Type u} {F : Type w} {R : Type x} {b : Bool} {p : Nat}
    {executes : F → Execute A} {runs : R → Run A} {h : Holder F R}
    (ht : Token b p executes runs h) {r : R} {pc : Run A} (hr : runs r = pc)
    (hpc : pc.holding = true) : h = .run r := by
  rw [← ht.run r, hr, hpc]

theorem holder_ne {A : Type u} {F : Type w} {R : Type x} {b : Bool} {p : Nat}
    {executes : F → Execute A} {runs : R → Run A} {h : Holder F R}
    (ht : Token b p executes runs h) {r : R} {pc : Run A} (hr : runs r = pc)
    (hpc : pc.holding = false) : h ≠ .run r := by
  rw [ne_eq, ← ht.run r, hr, hpc]
  simp

end Token

abbrev Nodes {A : Type u} {T : Type v} (heap : A → Option (TaskNode A T)) (p : Option A)
    (xs : List (A × T)) : Prop := Chain TaskNode.prev TaskNode.task heap p xs

/-- The nodes a run holds and the tasks it has not started, in running order. -/
def Run.Batch {A : Type u} {T : Type v} (heap : A → Option (TaskNode A T)) :
    Run A → List (A × T) → List T → Prop
  | .reverse cur prev, held, rest => rest = contents held ∧ ∃ done todo,
      Nodes heap cur done ∧ Nodes heap prev todo ∧ held = todo.reverse ++ done
  | .loop stolen, held, rest => rest = contents held ∧ Nodes heap stolen held
  | .running stolen, held, rest => Nodes heap (some stolen) held ∧ rest = (contents held).tail
  | _, held, rest => held = [] ∧ rest = []

/-- The node of a call that has not linked it yet. -/
def Execute.created {A : Type u} : Execute A → Option A
  | .loadTasks created | .compareExchange created _ => some created
  | _ => none

def Execute.Node {A : Type u} {T : Type v} (heap : A → Option (TaskNode A T)) :
    Execute A → Prop
  | .loadTasks created => ∃ n, heap created = some n
  | .compareExchange created expected => ∃ t, heap created = some ⟨expected, t⟩
  | _ => True

/-- `stack` lies behind `tasks_` and `held` with the run that holds the strand;
all other nodes belong to the calls that created them. -/
structure Contents {A : Type u} {T : Type v} {F : Type w} {R : Type x} (tasks : Option A)
    (heap : A → Option (TaskNode A T)) (executes : F → Execute A) (runs : R → Run A)
    (accepted ran : List T) (h : Holder F R) (stack held : List (A × T)) (rest : List T) :
    Prop where
  nodes : Nodes heap tasks stack
  batch : ∀ r, h = .run r → (runs r).Batch heap held rest
  unheld : (∀ r, h ≠ .run r) → held = [] ∧ rest = []
  nodup : (addresses held ++ addresses stack).Nodup
  node : ∀ f, (executes f).Node heap
  fresh : ∀ f a, (executes f).created = some a → a ∉ addresses held ++ addresses stack
  apart : ∀ f g a, (executes f).created = some a → (executes g).created = some a → f = g
  log : accepted = ran ++ rest ++ (contents stack).reverse

theorem Run.Batch.frame {A : Type u} {T : Type v} [DecidableEq A]
    {heap : A → Option (TaskNode A T)} {pc : Run A} {held : List (A × T)} {rest : List T}
    (hb : pc.Batch heap held rest) {a : A} (ha : a ∉ addresses held)
    (cell : Option (TaskNode A T)) : pc.Batch (Function.update heap a cell) held rest := by
  cases pc with
  | reverse cur prev =>
    obtain ⟨hrest, done, todo, hcur, hprev, rfl⟩ := hb
    simp only [addresses_append, addresses_reverse, List.mem_append, List.mem_reverse,
      not_or] at ha
    exact ⟨hrest, done, todo, hcur.frame ha.2 _, hprev.frame ha.1 _, rfl⟩
  | loop stolen => exact ⟨hb.1, hb.2.frame ha _⟩
  | running stolen => exact ⟨hb.1.frame ha _, hb.2⟩
  | _ => exact hb

theorem Execute.Node.frame {A : Type u} {T : Type v} [DecidableEq A]
    {heap : A → Option (TaskNode A T)} {pc : Execute A} (hn : pc.Node heap) {a : A}
    (ha : pc.created ≠ some a) (cell : Option (TaskNode A T)) :
    pc.Node (Function.update heap a cell) := by
  cases pc with
  | loadTasks created =>
    have hne : created ≠ a := by simpa [Execute.created] using ha
    simpa [Execute.Node, hne] using hn
  | compareExchange created expected =>
    have hne : created ≠ a := by simpa [Execute.created] using ha
    simpa [Execute.Node, hne] using hn
  | _ => trivial

theorem Execute.Node.alive {A : Type u} {T : Type v} {heap : A → Option (TaskNode A T)}
    {pc : Execute A} (hn : pc.Node heap) {a : A} (ha : pc.created = some a) :
    heap a ≠ none := by
  cases pc with
  | loadTasks created =>
    obtain ⟨n, hn⟩ := hn
    obtain rfl : created = a := by simpa [Execute.created] using ha
    simp [hn]
  | compareExchange created expected =>
    obtain ⟨t, ht⟩ := hn
    obtain rfl : created = a := by simpa [Execute.created] using ha
    simp [ht]
  | _ => simp [Execute.created] at ha

theorem Run.Batch.alive {A : Type u} {T : Type v} {heap : A → Option (TaskNode A T)}
    {pc : Run A} {held : List (A × T)} {rest : List T} (hb : pc.Batch heap held rest) {a : A}
    (ha : a ∈ addresses held) : heap a ≠ none := by
  cases pc with
  | reverse cur prev =>
    obtain ⟨-, done, todo, hcur, hprev, rfl⟩ := hb
    simp only [addresses_append, addresses_reverse, List.mem_append, List.mem_reverse] at ha
    rcases ha with ha | ha
    · exact hprev.alive ha
    · exact hcur.alive ha
  | loop stolen => exact hb.2.alive ha
  | running stolen => exact hb.1.alive ha
  | _ => simp [hb.1] at ha

namespace Contents

theorem alive {A : Type u} {T : Type v} {F : Type w} {R : Type x} {tasks : Option A}
    {heap : A → Option (TaskNode A T)} {executes : F → Execute A} {runs : R → Run A}
    {accepted ran : List T} {h : Holder F R} {stack held : List (A × T)} {rest : List T}
    (hc : Contents tasks heap executes runs accepted ran h stack held rest) {a : A}
    (ha : a ∈ addresses held ++ addresses stack) : heap a ≠ none := by
  rcases List.mem_append.mp ha with ha | ha
  · cases h with
    | run r => exact (hc.batch r rfl).alive ha
    | _ => simp [(hc.unheld (by simp)).1] at ha
  · exact hc.nodes.alive ha

/-- A call that keeps, creates or gives up no node in any chain. -/
theorem execute_own {A : Type u} {T : Type v} {F : Type w} {R : Type x} [DecidableEq A]
    [DecidableEq F] {tasks : Option A} {heap : A → Option (TaskNode A T)}
    {executes : F → Execute A} {runs : R → Run A} {accepted ran : List T} {h : Holder F R}
    {stack held : List (A × T)} {rest : List T}
    (hc : Contents tasks heap executes runs accepted ran h stack held rest) {f : F} {a : A}
    (pc : Execute A) (hpc : pc.created = some a) (ha : a ∉ addresses held ++ addresses stack)
    (hother : ∀ g, g ≠ f → (executes g).created ≠ some a) (cell : Option (TaskNode A T))
    (hnode : pc.Node (Function.update heap a cell)) :
    Contents tasks (Function.update heap a cell) (Function.update executes f pc) runs accepted
      ran h stack held rest := by
  have hout := ha
  simp only [List.mem_append, not_or] at hout
  refine ⟨hc.nodes.frame hout.2 _, fun r hr => (hc.batch r hr).frame hout.1 _, hc.unheld,
    hc.nodup, fun g => ?_, fun g b hb => ?_, fun g k b hg hk => ?_, hc.log⟩
  · by_cases hg : g = f
    · subst hg
      simpa using hnode
    · simpa [hg] using (hc.node g).frame (hother g hg) cell
  · by_cases hg : g = f
    · subst hg
      obtain rfl : a = b := by simpa [hpc] using hb
      exact ha
    · exact hc.fresh g b (by simpa [hg] using hb)
  · by_cases hgf : g = f
    · by_cases hkf : k = f
      · rw [hgf, hkf]
      · subst hgf
        obtain rfl : a = b := by simpa [hpc] using hg
        exact absurd (by simpa [hkf] using hk) (hother k hkf)
    · by_cases hkf : k = f
      · subst hkf
        obtain rfl : a = b := by simpa [hpc] using hk
        exact absurd (by simpa [hgf] using hg) (hother g hgf)
      · exact hc.apart g k b (by simpa [hgf] using hg) (by simpa [hkf] using hk)

/-- A call that moves on without a node. -/
theorem execute_bare {A : Type u} {T : Type v} {F : Type w} {R : Type x} [DecidableEq F]
    {tasks : Option A} {heap : A → Option (TaskNode A T)} {executes : F → Execute A}
    {runs : R → Run A} {accepted ran : List T} {h : Holder F R} {stack held : List (A × T)}
    {rest : List T} (hc : Contents tasks heap executes runs accepted ran h stack held rest)
    (f : F) (pc : Execute A) (hpc : pc.created = none) (hnode : pc.Node heap) :
    Contents tasks heap (Function.update executes f pc) runs accepted ran h stack held rest := by
  refine ⟨hc.nodes, hc.batch, hc.unheld, hc.nodup, fun g => ?_, fun g b hb => ?_,
    fun g k b hg hk => ?_, hc.log⟩
  · by_cases hg : g = f
    · subst hg
      simpa using hnode
    · simpa [hg] using hc.node g
  · by_cases hg : g = f
    · subst hg
      simp [hpc] at hb
    · exact hc.fresh g b (by simpa [hg] using hb)
  · by_cases hgf : g = f
    · subst hgf
      simp [hpc] at hg
    · by_cases hkf : k = f
      · subst hkf
        simp [hpc] at hk
      · exact hc.apart g k b (by simpa [hgf] using hg) (by simpa [hkf] using hk)

/-- The compare-exchange hands the node of `f` over to the stack. -/
theorem execute_links {A : Type u} {T : Type v} {F : Type w} {R : Type x} [DecidableEq F]
    {tasks : Option A} {heap : A → Option (TaskNode A T)} {executes : F → Execute A}
    {runs : R → Run A} {accepted ran : List T} {h : Holder F R} {stack held : List (A × T)}
    {rest : List T} (hc : Contents tasks heap executes runs accepted ran h stack held rest)
    {f : F} {a : A} {t : T} (hf : executes f = .compareExchange a tasks)
    (hn : heap a = some ⟨tasks, t⟩) :
    Contents (some a) heap (Function.update executes f .exchange) runs (accepted ++ [t]) ran h
      ((a, t) :: stack) held rest := by
  have hcreated : (executes f).created = some a := by rw [hf]; rfl
  have ha := hc.fresh f a hcreated
  have hne (g : F) (hg : g ≠ f) : (executes g).created ≠ some a :=
    fun h => hg (hc.apart g f a h hcreated)
  have hbare := hc.execute_bare f .exchange rfl trivial
  refine ⟨⟨rfl, _, hn, rfl, hc.nodes⟩, hc.batch, hc.unheld, ?_, hbare.node, fun g b hb => ?_,
    hbare.apart, ?_⟩
  · rw [addresses_cons, List.nodup_middle]
    exact List.nodup_cons.mpr ⟨ha, hc.nodup⟩
  · have hmem := hbare.fresh g b hb
    have hba : b ≠ a := by
      rintro rfl
      by_cases hg : g = f
      · subst hg
        simp [Execute.created] at hb
      · exact hne g hg (by simpa [hg] using hb)
    simp only [addresses_cons, List.mem_append, List.mem_cons, not_or] at hmem ⊢
    exact ⟨hmem.1, hba, hmem.2⟩
  · simp [hc.log]

theorem run_other {A : Type u} {T : Type v} {F : Type w} {R : Type x} [DecidableEq R]
    {tasks : Option A} {heap : A → Option (TaskNode A T)} {executes : F → Execute A}
    {runs : R → Run A} {accepted ran : List T} {h : Holder F R} {stack held : List (A × T)}
    {rest : List T} (hc : Contents tasks heap executes runs accepted ran h stack held rest)
    {r : R} (hr : h ≠ .run r) (pc : Run A) :
    Contents tasks heap executes (Function.update runs r pc) accepted ran h stack held rest := by
  refine { hc with batch := fun q hq => ?_ }
  have hne : q ≠ r := by
    rintro rfl
    exact hr hq
  simpa [hne] using hc.batch q hq

/-- The strand changes hands while nobody holds nodes. -/
theorem pass {A : Type u} {T : Type v} {F : Type w} {R : Type x} {tasks : Option A}
    {heap : A → Option (TaskNode A T)} {executes : F → Execute A} {runs runs' : R → Run A}
    {accepted ran : List T} {h h' : Holder F R} {stack : List (A × T)}
    (hc : Contents tasks heap executes runs accepted ran h stack [] [])
    (hbatch : ∀ r, h' = .run r → (runs' r).Batch heap [] []) :
    Contents tasks heap executes runs' accepted ran h' stack [] [] :=
  { hc with batch := hbatch, unheld := fun _ => ⟨rfl, rfl⟩ }

/-- The run that holds the strand may change the cells of its own nodes, and
give up some of them. -/
theorem run_moves {A : Type u} {T : Type v} {F : Type w} {R : Type x} [DecidableEq R]
    {tasks : Option A} {heap heap' : A → Option (TaskNode A T)} {executes : F → Execute A}
    {runs : R → Run A} {accepted ran ran' : List T} {r : R} {stack held held' : List (A × T)}
    {rest rest' : List T} {pc : Run A}
    (hc : Contents tasks heap executes runs accepted ran (.run r) stack held rest)
    (hheap : ∀ a, a ∉ addresses held → heap' a = heap a)
    (hsub : (addresses held').Sublist (addresses held)) (hbatch : pc.Batch heap' held' rest')
    (hlog : ran' ++ rest' = ran ++ rest) :
    Contents tasks heap' executes (Function.update runs r pc) accepted ran' (.run r) stack held'
      rest' := by
  have hstack (a : A) (ha : a ∈ addresses stack) : heap' a = heap a :=
    hheap a fun hheld => (List.nodup_append.mp hc.nodup).2.2 a hheld a ha rfl
  have hcell (f : F) (a : A) (ha : (executes f).created = some a) : heap' a = heap a :=
    hheap a fun hheld => hc.fresh f a ha (List.mem_append_left _ hheld)
  refine ⟨hc.nodes.congr hstack, fun q hq => ?_, fun hne => absurd rfl (hne r),
    hc.nodup.sublist (hsub.append_right _), fun f => ?_, fun f a ha hmem => ?_, hc.apart, ?_⟩
  · obtain rfl : r = q := by simpa using hq
    simpa using hbatch
  · have hnode := hc.node f
    have heq := hcell f
    cases hpc : executes f <;> simp_all [Execute.Node, Execute.created]
  · exact hc.fresh f a ha ((hsub.append_right _).subset hmem)
  · rw [hc.log, hlog]

/-- `tasks_.exchange(nullptr)` hands the whole stack over to the run. -/
theorem run_steals {A : Type u} {T : Type v} {F : Type w} {R : Type x} [DecidableEq R]
    {tasks : Option A} {heap : A → Option (TaskNode A T)} {executes : F → Execute A}
    {runs : R → Run A} {accepted ran : List T} {r : R} {stack : List (A × T)}
    (hc : Contents tasks heap executes runs accepted ran (.run r) stack [] []) :
    Contents none heap executes (Function.update runs r (.reverse none tasks)) accepted ran
      (.run r) [] stack.reverse (contents stack.reverse) := by
  refine ⟨by simp, fun q hq => ?_, fun hne => absurd rfl (hne r), ?_, hc.node,
    fun f a ha => ?_, hc.apart, ?_⟩
  · obtain rfl : r = q := by simpa using hq
    simp only [Function.update_self]
    exact ⟨rfl, [], stack, by simp, hc.nodes, by simp⟩
  · simpa using hc.nodup
  · simpa using hc.fresh f a ha
  · simpa using hc.log

end Contents

/-- Somebody will look at `tasks_` again: the holder, or a call that is about to
exchange the flag. -/
def Watched {A : Type u} {F : Type w} {R : Type x} (executes : F → Execute A) (runs : R → Run A)
    (h : Holder F R) : Prop :=
  h ≠ .free ∨ (∃ f, executes f = .exchange) ∨
    ∃ r, runs r = .loadTasks ∨ runs r = .exchangeReschedule

theorem Watched.execute {A : Type u} {F : Type w} {R : Type x} [DecidableEq F]
    {executes : F → Execute A} {runs : R → Run A} {h : Holder F R}
    (hw : Watched executes runs h) {f : F} (hf : executes f ≠ .exchange) (pc : Execute A) :
    Watched (Function.update executes f pc) runs h := by
  rcases hw with hw | ⟨g, hg⟩ | hw
  · exact .inl hw
  · have hne : g ≠ f := by
      rintro rfl
      exact hf hg
    exact .inr (.inl ⟨g, by simpa [hne] using hg⟩)
  · exact .inr (.inr hw)

structure Strand.Inv {A : Type u} {T : Type v} {F : Type w} {R : Type x} (s : Strand A T F R)
    (h : Holder F R) (stack held : List (A × T)) (rest : List T) : Prop where
  token : Token s.reschedule s.pending s.executes s.runs h
  contents : Contents s.tasks s.heap s.executes s.runs s.accepted s.ran h stack held rest
  watched : s.tasks ≠ none → Watched s.executes s.runs h

namespace Strand

theorem Inv.execute {A : Type u} {T : Type v} {F : Type w} {R : Type x} [DecidableEq A]
    [DecidableEq F] {s t : Strand A T F R} {h : Holder F R} {stack held : List (A × T)}
    {rest : List T} (hs : s.Inv h stack held rest) {f : F}
    (ht : s.executeStep f = some t) : ∃ h' stack', t.Inv h' stack' held rest := by
  unfold executeStep at ht
  cases hf : s.executes f with
  | idle => simp [hf] at ht
  | loadTasks created =>
    have hnode := hs.contents.node f
    rw [hf] at hnode
    obtain ⟨n, hn⟩ := hnode
    simp only [hf, hn, Option.map_some, Option.some.injEq] at ht
    subst ht
    have hown : (s.executes f).created = some created := by rw [hf]; rfl
    have hother (g : F) (hg : g ≠ f) : (s.executes g).created ≠ some created :=
      fun h => hg (hs.contents.apart g f created h hown)
    exact ⟨h, stack, hs.token.execute_quiet (by simp [hf]) (by simp),
      hs.contents.execute_own _ rfl (hs.contents.fresh f created hown) hother _
        ⟨n.task, by simp⟩,
      fun hne => (hs.watched hne).execute (by simp [hf]) _⟩
  | compareExchange created expected =>
    have hnode := hs.contents.node f
    rw [hf] at hnode
    obtain ⟨task, hn⟩ := hnode
    by_cases htasks : s.tasks = expected
    · subst htasks
      simp only [hf, hn, if_true, Option.map_some, Option.some.injEq] at ht
      subst ht
      exact ⟨h, (created, task) :: stack, hs.token.execute_quiet (by simp [hf]) (by simp),
        hs.contents.execute_links hf hn, fun _ => .inr (.inl ⟨f, by simp [gotoExecute]⟩)⟩
    · simp only [hf, htasks, if_false, Option.some.injEq] at ht
      subst ht
      have hown : (s.executes f).created = some created := by rw [hf]; rfl
      have hother (g : F) (hg : g ≠ f) : (s.executes g).created ≠ some created :=
        fun h => hg (hs.contents.apart g f created h hown)
      have hcell : Function.update s.heap created (s.heap created) = s.heap :=
        Function.update_eq_self _ _
      have hc := hs.contents.execute_own (.loadTasks created) rfl
        (hs.contents.fresh f created hown) hother (s.heap created) ⟨_, by simpa using hn⟩
      rw [hcell] at hc
      exact ⟨h, stack, hs.token.execute_quiet (by simp [hf]) (by simp), hc,
        fun hne => (hs.watched hne).execute (by simp [hf]) _⟩
  | exchange =>
    simp only [hf, Option.some.injEq] at ht
    subst ht
    cases hb : s.reschedule with
    | true =>
      have htoken := hs.token
      rw [hb] at htoken
      have hfree : h = .free := htoken.free.mp rfl
      obtain ⟨rfl, rfl⟩ := hs.contents.unheld (by simp [hfree])
      exact ⟨.execute f, stack, htoken.execute_takes f,
        (hs.contents.execute_bare f .schedule rfl trivial).pass (by simp), fun _ => .inl (by simp)⟩
    | false =>
      have htoken := hs.token
      rw [hb] at htoken
      have hheld : h ≠ .free := fun hfree => by simpa using htoken.free.mpr hfree
      exact ⟨h, stack, htoken.execute_quiet (by simp [hf]) (by simp),
        hs.contents.execute_bare f .idle rfl trivial, fun _ => .inl hheld⟩
  | schedule =>
    simp only [hf, Option.some.injEq] at ht
    subst ht
    have hh : h = .execute f := (hs.token.execute f).mp hf
    obtain ⟨rfl, rfl⟩ := hs.contents.unheld (by simp [hh])
    exact ⟨.pending, stack, hs.token.execute_submits hf,
      (hs.contents.execute_bare f .idle rfl trivial).pass (by simp), fun _ => .inl (by simp)⟩

/-- A run that does not hold the strand moves on, or takes the flag. -/
theorem Inv.run_waiting {A : Type u} {T : Type v} {F : Type w} {R : Type x} [DecidableEq A]
    [DecidableEq R] {s t : Strand A T F R} {h : Holder F R} {stack held : List (A × T)}
    {rest : List T} (hs : s.Inv h stack held rest) {r : R}
    (hr : (s.runs r).holding = false) (ht : s.runStep r = some t) :
    ∃ h', t.Inv h' stack held rest := by
  unfold runStep at ht
  cases hpc : s.runs r with
  | loadTasks =>
    have hne := hs.token.holder_ne hpc rfl
    simp only [hpc, Option.some.injEq] at ht
    subst ht
    by_cases htasks : s.tasks = none
    · simp only [htasks, if_true]
      exact ⟨h, hs.token.run_quiet (by simp [hpc, Run.holding]), hs.contents.run_other hne _,
        fun hsome => absurd htasks hsome⟩
    · simp only [htasks, if_false]
      exact ⟨h, hs.token.run_quiet (by simp [hpc, Run.holding]), hs.contents.run_other hne _,
        fun _ => .inr (.inr ⟨r, .inr (by simp [gotoRun])⟩)⟩
  | exchangeReschedule =>
    have hne := hs.token.holder_ne hpc rfl
    have htoken := hs.token
    simp only [hpc, Option.some.injEq] at ht
    subst ht
    cases hb : s.reschedule with
    | true =>
      rw [hb] at htoken
      obtain ⟨htoken, hfree⟩ := htoken.run_takes r
      obtain ⟨rfl, rfl⟩ := hs.contents.unheld (by simp [hfree])
      refine ⟨.run r, htoken, hs.contents.pass fun q hq => ?_, fun _ => .inl (by simp)⟩
      obtain rfl : r = q := by simpa using hq
      simp [gotoRun, Run.Batch]
    | false =>
      rw [hb] at htoken
      have hheld : h ≠ .free := fun hfree => by simpa using htoken.free.mpr hfree
      exact ⟨h, htoken.run_quiet (by simp [hpc, Run.holding]), hs.contents.run_other hne _,
        fun _ => .inl hheld⟩
  | idle => simp [hpc] at ht
  | _ => simp [hpc, Run.holding] at hr

/-- The run that holds the strand goes through its batch, or gives the strand
up. -/
theorem Inv.run_holding {A : Type u} {T : Type v} {F : Type w} {R : Type x} [DecidableEq A]
    [DecidableEq R] {s t : Strand A T F R} {r : R} {stack held : List (A × T)}
    {rest : List T} (hs : s.Inv (.run r) stack held rest) (ht : s.runStep r = some t) :
    ∃ h' stack' held' rest', t.Inv h' stack' held' rest' := by
  have hbatch := hs.contents.batch r rfl
  have hheld : (s.runs r).holding = true := (hs.token.run r).mpr rfl
  have watched {ex : F → Execute A} {ru : R → Run A} : Watched ex ru (.run r) :=
    .inl (by simp)
  unfold runStep at ht
  cases hpc : s.runs r with
  | exchangeTasks =>
    rw [hpc] at hbatch
    obtain ⟨rfl, rfl⟩ := hbatch
    simp only [hpc, Option.some.injEq] at ht
    subst ht
    by_cases htasks : s.tasks = none
    · simp only [htasks, if_true]
      have hc : Contents s.tasks s.heap s.executes (Function.update s.runs r .storeReschedule)
          s.accepted s.ran (.run r) stack [] [] :=
        hs.contents.run_moves (fun _ _ => rfl) (List.Sublist.refl _) ⟨rfl, rfl⟩ rfl
      rw [htasks] at hc
      exact ⟨_, _, _, _, hs.token.run_quiet (by simp [hpc, Run.holding]), hc, fun _ => watched⟩
    · simp only [htasks, if_false]
      exact ⟨_, _, _, _, hs.token.run_quiet (by simp [hpc, Run.holding]), hs.contents.run_steals,
        fun _ => watched⟩
  | storeReschedule =>
    rw [hpc] at hbatch
    obtain ⟨rfl, rfl⟩ := hbatch
    simp only [hpc, Option.some.injEq] at ht
    subst ht
    exact ⟨.free, stack, [], [], hs.token.run_releases, hs.contents.pass (by simp),
      fun _ => .inr (.inr ⟨r, .inl (by simp [gotoRun])⟩)⟩
  | reverse cur prev =>
    rw [hpc] at hbatch
    obtain ⟨rfl, done, todo, hcur, hprev, rfl⟩ := hbatch
    cases prev with
    | none =>
      simp only [hpc, Option.some.injEq] at ht
      subst ht
      obtain rfl := chain_none.mp hprev
      exact ⟨_, _, _, _, hs.token.run_quiet (by simp [hpc, Run.holding]),
        hs.contents.run_moves (fun _ _ => rfl) (List.Sublist.refl _) ⟨rfl, hcur⟩ rfl,
        fun _ => watched⟩
    | some a =>
      obtain ⟨n, todo, hn, rfl, htodo⟩ := chain_some.mp hprev
      simp only [hpc, hn, Option.map_some, Option.some.injEq] at ht
      subst ht
      have hnodup := (List.nodup_append.mp hs.contents.nodup).1
      simp only [List.reverse_cons, List.append_assoc, List.singleton_append, addresses_append,
        addresses_reverse, addresses_cons] at hnodup
      rw [List.nodup_middle, List.nodup_cons, List.mem_append, List.mem_reverse, not_or]
        at hnodup
      obtain ⟨hdone, hrest⟩ := hcur.relink (a := a) (m := { n with prev := cur }) htodo rfl rfl
        hnodup.1.2 hnodup.1.1
      refine ⟨_, _, _, _, hs.token.run_quiet (by simp [hpc, Run.holding]),
        hs.contents.run_moves (fun b hb => ?_) (List.Sublist.refl _)
          ⟨rfl, (a, n.task) :: done, todo, hdone, hrest, by simp⟩ rfl, fun _ => watched⟩
      have hba : b ≠ a := by
        rintro rfl
        simp at hb
      simp [store, gotoRun, hba]
  | loop stolen =>
    rw [hpc] at hbatch
    obtain ⟨rfl, hchain⟩ := hbatch
    cases stolen with
    | none =>
      simp only [hpc, Option.some.injEq] at ht
      subst ht
      obtain rfl := chain_none.mp hchain
      exact ⟨_, _, _, _, hs.token.run_quiet (by simp [hpc, Run.holding]),
        hs.contents.run_moves (fun _ _ => rfl) (List.Sublist.refl _) ⟨rfl, rfl⟩ rfl,
        fun _ => watched⟩
    | some a =>
      obtain ⟨n, tail, hn, rfl, -⟩ := chain_some.mp hchain
      simp only [hpc, hn, Option.map_some, Option.some.injEq] at ht
      subst ht
      exact ⟨_, _, _, _, hs.token.run_quiet (by simp [hpc, Run.holding]),
        hs.contents.run_moves (fun _ _ => rfl) (List.Sublist.refl _) ⟨hchain, rfl⟩ (by simp),
        fun _ => watched⟩
  | running a =>
    rw [hpc] at hbatch
    obtain ⟨hchain, rfl⟩ := hbatch
    obtain ⟨n, tail, hn, rfl, htail⟩ := chain_some.mp hchain
    simp only [hpc, hn, Option.map_some, Option.some.injEq] at ht
    subst ht
    have hnodup := (List.nodup_append.mp hs.contents.nodup).1
    rw [addresses_cons, List.nodup_cons] at hnodup
    refine ⟨_, _, _, _, hs.token.run_quiet (by simp [hpc, Run.holding]),
      hs.contents.run_moves (fun b hb => ?_) (List.sublist_cons_self _ _)
        ⟨rfl, htail.frame hnodup.1 _⟩ (by simp [store, gotoRun]), fun _ => watched⟩
    have hba : b ≠ a := by
      rintro rfl
      simp at hb
    simp [store, gotoRun, hba]
  | schedule =>
    rw [hpc] at hbatch
    obtain ⟨rfl, rfl⟩ := hbatch
    simp only [hpc, Option.some.injEq] at ht
    subst ht
    exact ⟨.pending, stack, [], [], hs.token.run_submits, hs.contents.pass (by simp),
      fun _ => .inl (by simp)⟩
  | _ => simp [hpc, Run.holding] at hheld

theorem Inv.step {A : Type u} {T : Type v} {F : Type w} {R : Type x} [DecidableEq A]
    [DecidableEq F] [DecidableEq R] {s t : Strand A T F R} {h : Holder F R}
    {stack held : List (A × T)} {rest : List T} (hs : s.Inv h stack held rest)
    {l : StrandLabel A T F R} (ht : s.step l = some t) :
    ∃ h' stack' held' rest', t.Inv h' stack' held' rest' := by
  cases l with
  | execute f task created =>
    simp only [Strand.step] at ht
    by_cases hnew : s.executes f = .idle ∧ (s.heap created).isNone
    · simp only [hnew, and_self, if_true, Option.some.injEq] at ht
      subst ht
      obtain ⟨hf, hfree⟩ := hnew
      rw [Option.isNone_iff_eq_none] at hfree
      refine ⟨h, stack, held, rest, hs.token.execute_quiet (by simp [hf]) (by simp),
        hs.contents.execute_own _ rfl (fun hmem => hs.contents.alive hmem hfree)
          (fun g _ hg => (hs.contents.node g).alive hg hfree) _ ⟨⟨none, task⟩, by simp⟩,
        fun hne => (hs.watched hne).execute (by simp [hf]) _⟩
    · rw [if_neg hnew] at ht
      simp at ht
  | stepExecute f =>
    obtain ⟨h', stack', ht⟩ := hs.execute ht
    exact ⟨h', stack', held, rest, ht⟩
  | start r =>
    simp only [Strand.step] at ht
    by_cases hidle : s.runs r = .idle ∧ 0 < s.pending
    · simp only [hidle, and_self, if_true, Option.some.injEq] at ht
      subst ht
      obtain ⟨htoken, hpending⟩ := hs.token.start hidle.2 r
      obtain ⟨rfl, rfl⟩ := hs.contents.unheld (by simp [hpending])
      refine ⟨.run r, stack, [], [], htoken, hs.contents.pass fun q hq => ?_,
        fun _ => .inl (by simp)⟩
      obtain rfl : r = q := by simpa using hq
      simp [gotoRun, Run.Batch]
    · rw [if_neg hidle] at ht
      simp at ht
  | stepRun r =>
    cases hr : (s.runs r).holding with
    | false =>
      obtain ⟨h', ht⟩ := hs.run_waiting hr ht
      exact ⟨h', stack, held, rest, ht⟩
    | true =>
      have hh : h = .run r := (hs.token.run r).mp hr
      subst hh
      exact hs.run_holding ht

theorem inv {A : Type u} {T : Type v} {F : Type w} {R : Type x} [DecidableEq A]
    [DecidableEq F] [DecidableEq R] {s : Strand A T F R} (h : (strand A T F R).Reachable s) :
    ∃ h stack held rest, s.Inv h stack held rest := by
  apply h.invariant (I := fun s => ∃ h stack held rest, Inv s h stack held rest)
  · exact ⟨.free, [], [], [], ⟨by simp [strand], by simp, by simp [strand], by simp [strand],
      by simp [strand, Run.holding]⟩,
      ⟨by simp [strand], by simp, by simp, by simp, fun _ => trivial,
        by simp [strand, Execute.created], by simp [strand, Execute.created], rfl⟩,
      by simp [strand]⟩
  · intro s l t _ hs ht
    obtain ⟨h, stack, held, rest, hs⟩ := hs
    exact hs.step ht

/-- The node of a call that has not linked it is its own: the next step exists. -/
theorem Inv.execute_enabled {A : Type u} {T : Type v} {F : Type w} {R : Type x} [DecidableEq A]
    [DecidableEq F] {s : Strand A T F R} {h : Holder F R} {stack held : List (A × T)}
    {rest : List T} (hs : s.Inv h stack held rest) {f : F} (hf : s.executes f ≠ .idle) :
    (s.executeStep f).isSome := by
  have hnode := hs.contents.node f
  unfold executeStep
  cases hpc : s.executes f with
  | idle => exact absurd hpc hf
  | loadTasks created =>
    rw [hpc] at hnode
    obtain ⟨n, hn⟩ := hnode
    simp [hn]
  | compareExchange created expected =>
    rw [hpc] at hnode
    obtain ⟨task, hn⟩ := hnode
    by_cases heq : s.tasks = expected <;> simp [heq, hn]
  | _ => rfl

/-- No run ever reads a node that is null or deleted: its next step exists. -/
theorem Inv.run_enabled {A : Type u} {T : Type v} {F : Type w} {R : Type x} [DecidableEq A]
    [DecidableEq R] {s : Strand A T F R} {h : Holder F R} {stack held : List (A × T)}
    {rest : List T} (hs : s.Inv h stack held rest) {r : R} (hr : s.runs r ≠ .idle) :
    (s.runStep r).isSome := by
  have hbatch (hh : (s.runs r).holding = true) := hs.contents.batch r ((hs.token.run r).mp hh)
  unfold runStep
  cases hpc : s.runs r with
  | idle => exact absurd hpc hr
  | reverse cur prev =>
    cases prev with
    | none => rfl
    | some a =>
      rw [hpc] at hbatch
      obtain ⟨-, done, todo, -, hprev, -⟩ := hbatch rfl
      obtain ⟨n, -, hn, -, -⟩ := chain_some.mp hprev
      simp [hn]
  | loop stolen =>
    cases stolen with
    | none => rfl
    | some a =>
      rw [hpc] at hbatch
      obtain ⟨-, hchain⟩ := hbatch rfl
      obtain ⟨n, -, hn, -, -⟩ := chain_some.mp hchain
      simp [hn]
  | running a =>
    rw [hpc] at hbatch
    obtain ⟨hchain, -⟩ := hbatch rfl
    obtain ⟨n, -, hn, -, -⟩ := chain_some.mp hchain
    simp [hn]
  | _ => rfl

end Strand

def Run.busy {A : Type u} : Run A → Bool
  | .running _ => true
  | _ => false

theorem Run.holding_of_executing {A : Type u} {pc : Run A} (h : pc.executing = true) :
    pc.holding = true := by
  cases pc <;> simp_all [Run.executing, Run.holding]

theorem Run.holding_of_busy {A : Type u} {pc : Run A} (h : pc.busy = true) :
    pc.holding = true := by
  cases pc <;> simp_all [Run.busy, Run.holding]

theorem Token.busy_iff {A : Type u} {F : Type w} {R : Type x} [DecidableEq R] {b : Bool} {p : Nat}
    {executes : F → Execute A} {runs : R → Run A} {r : R}
    (ht : Token b p executes runs (.run r)) (pc : Run A) :
    (∃ q, (Function.update runs r pc q).busy = true) ↔ pc.busy = true := by
  constructor
  · rintro ⟨q, hq⟩
    by_cases hqr : q = r
    · simpa [hqr] using hq
    · rw [Function.update_of_ne hqr] at hq
      have := (ht.run q).mp (Run.holding_of_busy hq)
      simp_all
  · intro hpc
    exact ⟨r, by simpa using hpc⟩

theorem busy_update_iff {A : Type u} {R : Type x} [DecidableEq R] {runs : R → Run A} {r : R}
    {pc : Run A} (hr : (runs r).busy = false) (hpc : pc.busy = false) :
    (∃ q, (Function.update runs r pc q).busy = true) ↔ ∃ q, (runs q).busy = true := by
  constructor
  · rintro ⟨q, hq⟩
    by_cases hqr : q = r
    · subst hqr
      simp [hpc] at hq
    · exact ⟨q, by simpa [hqr] using hq⟩
  · rintro ⟨q, hq⟩
    have hqr : q ≠ r := by
      rintro rfl
      simp [hr] at hq
    exact ⟨q, by simpa [hqr] using hq⟩

namespace Strand

open Classical in
/-- The serial executor that the strand implements. -/
noncomputable def serial {A : Type u} {T : Type v} {F : Type w} {R : Type x}
    (s : Strand A T F R) : SerialExecutor T :=
  ⟨s.accepted, s.ran, decide (∃ r, (s.runs r).busy = true)⟩

/-- A task is accepted by the compare-exchange that links its node. -/
def serialAct {A : Type u} {T : Type v} {F : Type w} {R : Type x} [DecidableEq A]
    (s : Strand A T F R) : StrandLabel A T F R → List (SerialLabel T)
  | .stepExecute f =>
    match s.executes f with
    | .compareExchange created expected =>
      if s.tasks = expected then (s.heap created).toList.map fun n => .accept n.task else []
    | _ => []
  | .stepRun r =>
    match s.runs r with
    | .loop (some _) => [.start]
    | .running _ => [.finish]
    | _ => []
  | _ => []

theorem serial_eq {A : Type u} {T : Type v} {F : Type w} {R : Type x} {s t : Strand A T F R}
    (haccepted : t.accepted = s.accepted) (hran : t.ran = s.ran)
    (hbusy : (∃ r, (t.runs r).busy = true) ↔ ∃ r, (s.runs r).busy = true) :
    t.serial = s.serial := by
  simp [serial, haccepted, hran, hbusy]

theorem serial_quiet {A : Type u} {T : Type v} {F : Type w} {R : Type x} [DecidableEq A]
    {s t : Strand A T F R} {l : StrandLabel A T F R} (hact : s.serialAct l = [])
    (ht : t.serial = s.serial) :
    (serialExecutor T).exec s.serial (s.serialAct l) = some t.serial := by
  rw [hact, ht]
  rfl

theorem serial_execute {A : Type u} {T : Type v} {F : Type w} {R : Type x} [DecidableEq A]
    [DecidableEq F] {s t : Strand A T F R} {f : F} (ht : s.executeStep f = some t) :
    (serialExecutor T).exec s.serial (s.serialAct (.stepExecute f)) = some t.serial := by
  unfold executeStep at ht
  cases hf : s.executes f with
  | idle => simp [hf] at ht
  | loadTasks created =>
    simp only [hf, Option.map_eq_some_iff] at ht
    obtain ⟨n, -, rfl⟩ := ht
    exact serial_quiet (by simp [serialAct, hf]) rfl
  | compareExchange created expected =>
    by_cases htasks : s.tasks = expected
    · simp only [hf, htasks, if_true, Option.map_eq_some_iff] at ht
      obtain ⟨n, hn, rfl⟩ := ht
      have hact : s.serialAct (.stepExecute f) = [.accept n.task] := by
        simp [serialAct, hf, htasks, hn]
      rw [hact]
      rfl
    · simp only [hf, htasks, if_false, Option.some.injEq] at ht
      subst ht
      exact serial_quiet (by simp [serialAct, hf, htasks]) rfl
  | exchange =>
    simp only [hf, Option.some.injEq] at ht
    subst ht
    exact serial_quiet (by simp [serialAct, hf]) rfl
  | schedule =>
    simp only [hf, Option.some.injEq] at ht
    subst ht
    exact serial_quiet (by simp [serialAct, hf]) rfl

theorem Inv.serial_waiting {A : Type u} {T : Type v} {F : Type w} {R : Type x} [DecidableEq A]
    [DecidableEq R] {s t : Strand A T F R} {r : R} (hr : (s.runs r).holding = false)
    (ht : s.runStep r = some t) :
    (serialExecutor T).exec s.serial (s.serialAct (.stepRun r)) = some t.serial := by
  unfold runStep at ht
  cases hpc : s.runs r with
  | loadTasks =>
    simp only [hpc, Option.some.injEq] at ht
    subst ht
    have hbusy : (s.runs r).busy = false := by rw [hpc]; rfl
    apply serial_quiet (by simp [serialAct, hpc])
    refine serial_eq rfl rfl ?_
    exact busy_update_iff hbusy (by split <;> rfl)
  | exchangeReschedule =>
    simp only [hpc, Option.some.injEq] at ht
    subst ht
    have hbusy : (s.runs r).busy = false := by rw [hpc]; rfl
    apply serial_quiet (by simp [serialAct, hpc])
    refine serial_eq rfl rfl ?_
    exact busy_update_iff hbusy (by split <;> rfl)
  | idle => simp [hpc] at ht
  | _ => simp [hpc, Run.holding] at hr

/-- The running `Run` stays inside a task, or outside. -/
theorem Inv.serial_stays {A : Type u} {T : Type v} {F : Type w} {R : Type x} [DecidableEq A]
    [DecidableEq R] {s t : Strand A T F R} {r : R} {stack held : List (A × T)} {rest : List T}
    (hs : s.Inv (.run r) stack held rest) {pc : Run A} (hact : s.serialAct (.stepRun r) = [])
    (haccepted : t.accepted = s.accepted) (hran : t.ran = s.ran)
    (hruns : t.runs = Function.update s.runs r pc) (hbusy : pc.busy = (s.runs r).busy) :
    (serialExecutor T).exec s.serial (s.serialAct (.stepRun r)) = some t.serial := by
  have hbefore : (∃ q, (s.runs q).busy = true) ↔ (s.runs r).busy = true := by
    simpa using hs.token.busy_iff (s.runs r)
  apply serial_quiet hact
  refine serial_eq haccepted hran ?_
  rw [hruns, hbefore, ← hbusy]
  exact hs.token.busy_iff _

theorem Inv.serial_holding {A : Type u} {T : Type v} {F : Type w} {R : Type x} [DecidableEq A]
    [DecidableEq R] {s t : Strand A T F R} {r : R} {stack held : List (A × T)} {rest : List T}
    (hs : s.Inv (.run r) stack held rest) (ht : s.runStep r = some t) :
    (serialExecutor T).exec s.serial (s.serialAct (.stepRun r)) = some t.serial := by
  have hbatch := hs.contents.batch r rfl
  have hheld : (s.runs r).holding = true := (hs.token.run r).mpr rfl
  have hbusy : (∃ q, (s.runs q).busy = true) ↔ (s.runs r).busy = true := by
    simpa using hs.token.busy_iff (s.runs r)
  unfold runStep at ht
  cases hpc : s.runs r with
  | loop stolen =>
    rw [hpc] at hbatch hbusy
    obtain ⟨rfl, hchain⟩ := hbatch
    cases stolen with
    | none =>
      simp only [hpc, Option.some.injEq] at ht
      subst ht
      exact hs.serial_stays (by simp [serialAct, hpc]) rfl rfl rfl (by rw [hpc]; rfl)
    | some a =>
      obtain ⟨n, tail, hn, rfl, -⟩ := chain_some.mp hchain
      simp only [hpc, hn, Option.map_some, Option.some.injEq] at ht
      subst ht
      have hidle : ¬ ∃ q, (s.runs q).busy = true := by
        rw [hbusy]
        simp [Run.busy]
      have hnow : ∃ q, (Function.update s.runs r (.running a) q).busy = true :=
        (hs.token.busy_iff _).mpr rfl
      have hdrop : s.accepted.drop s.ran.length =
          n.task :: (Interleaving.contents tail ++ (Interleaving.contents stack).reverse) := by
        rw [hs.contents.log, List.append_assoc, List.drop_left]
        rfl
      have hact : s.serialAct (.stepRun r) = [.start] := by simp [serialAct, hpc]
      rw [hact]
      simp [serialExecutor, SerialExecutor.step, serial, hidle, hdrop, gotoRun, hnow]
  | running a =>
    rw [hpc] at hbatch hbusy
    obtain ⟨hchain, rfl⟩ := hbatch
    obtain ⟨n, tail, hn, rfl, -⟩ := chain_some.mp hchain
    simp only [hpc, hn, Option.map_some, Option.some.injEq] at ht
    subst ht
    have hnow : ∃ q, (s.runs q).busy = true := hbusy.mpr rfl
    have hidle : ¬ ∃ q, (Function.update s.runs r (.loop n.prev) q).busy = true := by
      rw [hs.token.busy_iff]
      simp [Run.busy]
    have hact : s.serialAct (.stepRun r) = [.finish] := by simp [serialAct, hpc]
    rw [hact]
    simp [serialExecutor, SerialExecutor.step, serial, hnow, hidle, gotoRun, store]
  | exchangeTasks =>
    simp only [hpc, Option.some.injEq] at ht
    subst ht
    exact hs.serial_stays (by simp [serialAct, hpc]) rfl rfl rfl (by rw [hpc]; split <;> rfl)
  | storeReschedule =>
    simp only [hpc, Option.some.injEq] at ht
    subst ht
    exact hs.serial_stays (by simp [serialAct, hpc]) rfl rfl rfl (by rw [hpc]; rfl)
  | reverse cur prev =>
    cases prev with
    | none =>
      simp only [hpc, Option.some.injEq] at ht
      subst ht
      exact hs.serial_stays (by simp [serialAct, hpc]) rfl rfl rfl (by rw [hpc]; rfl)
    | some a =>
      simp only [hpc, Option.map_eq_some_iff] at ht
      obtain ⟨n, -, rfl⟩ := ht
      exact hs.serial_stays (by simp [serialAct, hpc]) rfl rfl rfl (by rw [hpc]; rfl)
  | schedule =>
    simp only [hpc, Option.some.injEq] at ht
    subst ht
    exact hs.serial_stays (by simp [serialAct, hpc]) rfl rfl rfl (by rw [hpc]; rfl)
  | _ => simp [hpc, Run.holding] at hheld

end Strand

/-- The strand implements the serial executor: tasks start one at a time, in the
order of their compare-exchange. -/
noncomputable def strandRefinement (A : Type u) (T : Type v) (F : Type w) (R : Type x)
    [DecidableEq A] [DecidableEq F] [DecidableEq R] :
    (strand A T F R).Refinement (serialExecutor T) where
  f := Strand.serial
  act := Strand.serialAct
  init := by simp [Strand.serial, strand, serialExecutor, Run.busy]
  step s l t hs ht := by
    obtain ⟨h, stack, held, rest, hs⟩ := Strand.inv hs
    cases l with
    | execute f task created =>
      simp only [strand, Strand.step] at ht
      by_cases hnew : s.executes f = .idle ∧ (s.heap created).isNone
      · rw [if_pos hnew, Option.some.injEq] at ht
        subst ht
        rfl
      · rw [if_neg hnew] at ht
        simp at ht
    | stepExecute f => exact Strand.serial_execute ht
    | start r =>
      simp only [strand, Strand.step] at ht
      by_cases hidle : s.runs r = .idle ∧ 0 < s.pending
      · rw [if_pos hidle, Option.some.injEq] at ht
        subst ht
        have hr : (s.runs r).busy = false := by rw [hidle.1]; rfl
        apply Strand.serial_quiet rfl
        refine Strand.serial_eq rfl rfl ?_
        exact busy_update_iff hr rfl
      · rw [if_neg hidle] at ht
        simp at ht
    | stepRun r =>
      cases hr : (s.runs r).holding with
      | false => exact Strand.Inv.serial_waiting hr ht
      | true =>
        have hh : h = .run r := (hs.token.run r).mp hr
        subst hh
        exact hs.serial_holding ht

/-- Once everything has returned, the flag is free and nothing is left. -/
theorem Strand.Inv.settled {A : Type u} {T : Type v} {F : Type w} {R : Type x}
    {s : Strand A T F R} {h : Holder F R} {stack held : List (A × T)} {rest : List T}
    (hs : s.Inv h stack held rest) (hpending : s.pending = 0) (hruns : ∀ r, s.runs r = .idle)
    (hexecutes : ∀ f, s.executes f = .idle) :
    s.reschedule = true ∧ s.tasks = none ∧ s.ran = s.accepted := by
  have hfree : h = .free := by
    cases h with
    | free => rfl
    | pending =>
      have := hs.token.one rfl
      omega
    | execute f =>
      have := (hs.token.execute f).mpr rfl
      simp [hexecutes] at this
    | run r =>
      have := (hs.token.run r).mpr rfl
      simp [hruns, Run.holding] at this
  subst hfree
  have htasks : s.tasks = none := by
    by_contra hne
    rcases hs.watched hne with hw | ⟨f, hf⟩ | ⟨r, hr⟩
    · exact hw rfl
    · simp [hexecutes] at hf
    · simp [hruns] at hr
  have hnodes := hs.contents.nodes
  rw [htasks] at hnodes
  obtain rfl : stack = [] := chain_none.mp hnodes
  obtain ⟨rfl, rfl⟩ := hs.contents.unheld (by simp)
  refine ⟨hs.token.free.mpr rfl, htasks, ?_⟩
  rw [hs.contents.log]
  simp

/-- (a) At most one run is executing tasks, and a submission is made only when
none is pending; (b) tasks run once each, in the order of their compare-exchange;
(c) once everything has returned, nothing is stranded; until then no call and no
run is stuck, since neither reads a node that is null or deleted. -/
theorem strand_serial_fifo {A : Type u} {T : Type v} {F : Type w} {R : Type x} [DecidableEq A]
    [DecidableEq F] [DecidableEq R] {s : Strand A T F R} (h : (strand A T F R).Reachable s) :
    ((∀ q r, (s.runs q).executing = true → (s.runs r).executing = true → q = r) ∧
      s.pending ≤ 1 ∧ (∀ f, s.executes f = .schedule → s.pending = 0) ∧
      ∀ r, s.runs r = .schedule → s.pending = 0) ∧
    s.ran <+: s.accepted ∧
    (s.pending = 0 → (∀ r, s.runs r = .idle) → (∀ f, s.executes f = .idle) →
      s.tasks = none ∧ s.ran = s.accepted) ∧
    (∀ f, s.executes f ≠ .idle → ((strand A T F R).step s (.stepExecute f)).isSome) ∧
    ∀ r, s.runs r ≠ .idle → ((strand A T F R).step s (.stepRun r)).isSome := by
  have hfifo : s.ran <+: s.accepted :=
    SerialExecutor.ran_prefix ((strandRefinement A T F R).reachable h)
  obtain ⟨holder, stack, held, rest, hs⟩ := Strand.inv h
  refine ⟨⟨fun q r hq hr => ?_, ?_, fun f hf => ?_, fun r hr => ?_⟩, hfifo,
    fun hpending hruns hexecutes => ?_, fun _ hf => hs.execute_enabled hf,
    fun _ hr => hs.run_enabled hr⟩
  · have hq := (hs.token.run q).mp (Run.holding_of_executing hq)
    have hr := (hs.token.run r).mp (Run.holding_of_executing hr)
    simpa [hq] using hr
  · by_cases hh : holder = .pending
    · have := hs.token.one hh
      omega
    · have := hs.token.zero hh
      omega
  · have hh := (hs.token.execute f).mp hf
    exact hs.token.zero (by simp [hh])
  · have hh := hs.token.holder_eq hr rfl
    exact hs.token.zero (by simp [hh])
  · obtain ⟨-, htasks, hran⟩ := hs.settled hpending hruns hexecutes
    exact ⟨htasks, hran⟩

/-- Between its load and its compare-exchange of `tasks_` the node that call 1 has
read is run and deleted, and another task gets its address. The second batch is
submitted by the run that found the flag. -/
theorem strand_serial_fifo_reuse : ∃ s t u, (strand (Fin 2) Nat (Fin 2) (Fin 1)).Reachable s ∧
    s.executes 1 = .compareExchange 1 (some 0) ∧ s.accepted = [7] ∧ s.ran = [] ∧
    (∃ ls, (strand (Fin 2) Nat (Fin 2) (Fin 1)).exec s ls = some t) ∧
    t.executes 1 = .compareExchange 1 (some 0) ∧ t.accepted = [7, 8] ∧ t.ran = [7] ∧
    t.runs 0 = .schedule ∧
    (∃ ls, (strand (Fin 2) Nat (Fin 2) (Fin 1)).exec t ls = some u) ∧
    u.accepted = [7, 8, 9] ∧ u.ran = u.accepted := by
  have hs : (strand (Fin 2) Nat (Fin 2) (Fin 1)).Reachable _ := Machine.reachable_of_exec
    (.execute 0 7 0 :: List.replicate 4 (.stepExecute 0) ++ [.execute 1 9 1, .stepExecute 1]) rfl
  let ls : List (StrandLabel (Fin 2) Nat (Fin 2) (Fin 1)) := List.flatten
    [.start 0 :: List.replicate 7 (.stepRun 0), .start 0 :: List.replicate 2 (.stepRun 0),
      .execute 0 8 0 :: List.replicate 2 (.stepExecute 0), List.replicate 2 (.stepRun 0)]
  let ms : List (StrandLabel (Fin 2) Nat (Fin 2) (Fin 1)) := List.flatten
    [List.replicate 2 (.stepExecute 1), [.stepExecute 0, .stepRun 0],
      .start 0 :: List.replicate 10 (.stepRun 0), .start 0 :: List.replicate 3 (.stepRun 0)]
  have ht := hs.exec (show (strand (Fin 2) Nat (Fin 2) (Fin 1)).exec _ ls = some _ from rfl)
  have hu := ht.exec (show (strand (Fin 2) Nat (Fin 2) (Fin 1)).exec _ ms = some _ from rfl)
  exact ⟨_, _, _, hs, rfl, rfl, rfl, ⟨ls, rfl⟩, rfl, rfl, rfl, rfl, ⟨ms, rfl⟩, rfl,
    ((strand_serial_fifo hu).2.2.1 rfl (by decide) (by decide)).2⟩

end ConcurrentProgramming.Futures
