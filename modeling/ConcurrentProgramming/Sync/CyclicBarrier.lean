import ConcurrentProgramming.Interleaving.ConditionVariable
import ConcurrentProgramming.Interleaving.History
import ConcurrentProgramming.Interleaving.Machine
import Mathlib.Algebra.Group.Nat.Defs
import Mathlib.Logic.Function.Basic

/-!
The cyclic barrier. A section under `mutex_` runs from the start of `Arrive`, or
from the return of a `wait`, to the next `wait` or to the end.
-/

set_option autoImplicit false

namespace ConcurrentProgramming.Sync
open Interleaving

/-- `draining` is inside the `wait` of the first loop, `filling` inside that of the
second one, after its arrival number `call`. -/
inductive ArriveCall where
  | idle
  | draining
  | filling (call : Nat)
  deriving DecidableEq, Repr

/-- Arrivals are numbered from zero. `arrived` comes with what `++waiting_` left,
`departed` with what `--waiting_` found. -/
inductive BarrierEvent where
  | arrived (call waiting : Nat)
  | departed (call waiting : Nat)
  | returned (call : Nat)
  deriving DecidableEq, Repr

/-- `waiting` is a 64-bit word; `arrivals` and `history` record the run. -/
structure CyclicBarrier (T : Type) where
  waiting : Nat
  firstFilter : Bool
  locker : ConditionVariable T
  calls : T → ArriveCall
  arrivals : Nat
  history : List BarrierEvent

inductive BarrierLabel (T : Type) where
  | arrive (t : T)
  | resume (t : T)
  | wake (t : T)
  deriving DecidableEq, Repr

namespace CyclicBarrier

def wait {T : Type} [DecidableEq T] (s : CyclicBarrier T) (t : T) (call : ArriveCall) :
    CyclicBarrier T :=
  { s with locker := s.locker.wait t, calls := Function.update s.calls t call }

/-- `--waiting_`. -/
def decrement {T : Type} [DecidableEq T] (s : CyclicBarrier T) (t : T) (call : Nat) :
    CyclicBarrier T :=
  { s with
    waiting := (s.waiting + (2 ^ 64 - 1)) % 2 ^ 64
    calls := Function.update s.calls t .idle
    history := s.history ++ [.departed call s.waiting, .returned call] }

/-- From `--waiting_` to the end. -/
def depart {T : Type} [DecidableEq T] (s : CyclicBarrier T) (t : T) (call : Nat) :
    CyclicBarrier T :=
  if (s.decrement t call).waiting = 0 then
    { s.decrement t call with locker := s.locker.notifyAll, firstFilter := false }
  else s.decrement t call

def secondLoop {T : Type} [DecidableEq T] (s : CyclicBarrier T) (t : T) (call : Nat) :
    CyclicBarrier T :=
  if s.firstFilter then s.depart t call else s.wait t (.filling call)

/-- `++waiting_`. -/
def increment {T : Type} (s : CyclicBarrier T) : CyclicBarrier T :=
  { s with
    waiting := (s.waiting + 1) % 2 ^ 64
    arrivals := s.arrivals + 1
    history := s.history ++ [.arrived s.arrivals ((s.waiting + 1) % 2 ^ 64)] }

def firstLoop {T : Type} [DecidableEq T] (participants : Nat) (s : CyclicBarrier T) (t : T) :
    CyclicBarrier T :=
  if s.firstFilter then s.wait t .draining
  else if s.increment.waiting = participants then
    { s.increment with firstFilter := true, locker := s.locker.notifyAll }.depart t s.arrivals
  else s.increment.secondLoop t s.arrivals

def step {T : Type} [DecidableEq T] (participants : Nat) (s : CyclicBarrier T) :
    BarrierLabel T → Option (CyclicBarrier T)
  | .arrive t =>
    match s.calls t with
    | .idle => some (s.firstLoop participants t)
    | _ => none
  | .resume t => (s.locker.resume t).bind fun locker =>
    match s.calls t with
    | .idle => none
    | .draining => some ({ s with locker := locker }.firstLoop participants t)
    | .filling call => some ({ s with locker := locker }.secondLoop t call)
  | .wake t => (s.locker.wake t).map fun locker => { s with locker := locker }

end CyclicBarrier

def cyclicBarrier (T : Type) [DecidableEq T] (participants : Nat) :
    Machine (CyclicBarrier T) (BarrierLabel T) where
  init := ⟨0, false, .new T, fun _ => .idle, 0, []⟩
  step := CyclicBarrier.step participants

def BarrierEvent.isArrival : BarrierEvent → Bool
  | .arrived _ _ => true
  | _ => false

/-- What must have happened before an event. -/
def BarrierEvent.Fits (n : Nat) (before : List BarrierEvent) : BarrierEvent → Prop
  | .arrived call waiting => call = before.countP BarrierEvent.isArrival ∧
      0 < waiting ∧ waiting ≤ n ∧ ∀ k, k / n + 1 = call / n → ∃ w, .departed k w ∈ before
  | .departed _ waiting => 0 < waiting ∧ waiting ≤ n
  | .returned call => ∀ k, k / n = call / n → ∃ w, .arrived k w ∈ before

abbrev Ordered (n : Nat) (history : List BarrierEvent) : Prop :=
  Lawful (BarrierEvent.Fits n) history

theorem ordered_departed {n : Nat} {history : List BarrierEvent} (h : Ordered n history)
    {call waiting : Nat} (hpos : 0 < waiting) (hle : waiting ≤ n)
    (harrived : ∀ k, k / n = call / n → ∃ w, .arrived k w ∈ history) :
    Ordered n (history ++ [.departed call waiting, .returned call]) := by
  have hdeparted : BarrierEvent.Fits n history (.departed call waiting) := ⟨hpos, hle⟩
  have hreturned : BarrierEvent.Fits n (history ++ [.departed call waiting]) (.returned call) := by
    intro k hk
    obtain ⟨w, hw⟩ := harrived k hk
    exact ⟨w, List.mem_append_left _ hw⟩
  simpa using (h.concat hdeparted).concat hreturned

/-- `pending` are the calls of generation `g` counted in `waiting_`; those of the
generations before it are over. -/
structure Round (n g : Nat) (pending : List Nat) (waiting : Nat) (firstFilter : Bool)
    (arrivals : Nat) (history : List BarrierEvent) : Prop where
  nodup : pending.Nodup
  waiting_eq : waiting = pending.length
  mem : ∀ k ∈ pending, g * n ≤ k ∧ k < arrivals
  departed : ∀ k, k < arrivals → k ∈ pending ∨ ∃ w, .departed k w ∈ history
  arrived : ∀ k, k < arrivals → ∃ w, .arrived k w ∈ history
  count : arrivals = history.countP BarrierEvent.isArrival
  arrivals_eq : arrivals = g * n + if firstFilter then n else waiting
  ordered : Ordered n history

theorem round_init (n : Nat) : Round n 0 [] 0 false 0 [] where
  nodup := List.nodup_nil
  waiting_eq := rfl
  mem := nofun
  departed := nofun
  arrived := nofun
  count := rfl
  arrivals_eq := by simp
  ordered := lawful_nil _

theorem Round.increment {n g waiting arrivals : Nat} {pending : List Nat}
    {history : List BarrierEvent} (h : Round n g pending waiting false arrivals history)
    (hn : waiting < n) :
    Round n g (arrivals :: pending) (waiting + 1) false (arrivals + 1)
      (history ++ [.arrived arrivals (waiting + 1)]) := by
  have harrivals : arrivals = g * n + waiting := by simpa using h.arrivals_eq
  have hgeneration : arrivals / n = g := by
    rw [harrivals, Nat.mul_comm, Nat.mul_add_div (by omega), Nat.div_eq_of_lt hn, Nat.add_zero]
  refine ⟨?_, ?_, fun k hk => ?_, fun k hk => ?_, fun k hk => ?_, ?_, ?_, ?_⟩
  · exact List.nodup_cons.mpr ⟨fun hmem => Nat.lt_irrefl _ (h.mem _ hmem).2, h.nodup⟩
  · simp [h.waiting_eq]
  · rcases List.mem_cons.mp hk with rfl | hk
    · omega
    · have := h.mem k hk
      omega
  · by_cases hlast : k = arrivals
    · exact .inl (by simp [hlast])
    · rcases h.departed k (by omega) with hk | ⟨w, hw⟩
      · exact .inl (List.mem_cons_of_mem _ hk)
      · exact .inr ⟨w, List.mem_append_left _ hw⟩
  · by_cases hlast : k = arrivals
    · exact ⟨waiting + 1, by simp [hlast]⟩
    · obtain ⟨w, hw⟩ := h.arrived k (by omega)
      exact ⟨w, List.mem_append_left _ hw⟩
  · simp [h.count.symm, BarrierEvent.isArrival]
  · simp only [Bool.false_eq_true, if_false]
    omega
  · refine h.ordered.concat ⟨h.count, Nat.succ_pos _, hn, fun k hk => ?_⟩
    -- an earlier generation has nothing left in `pending`
    have hlt : k < g * n := by
      rw [hgeneration] at hk
      exact (Nat.div_lt_iff_lt_mul (by omega)).mp (by omega)
    rcases h.departed k (by omega) with hpending | hdeparted
    · have := (h.mem k hpending).1
      omega
    · exact hdeparted

/-- The last arrival of a generation opens the second filter. -/
theorem Round.open {n g arrivals : Nat} {pending : List Nat} {history : List BarrierEvent}
    (h : Round n g pending n false arrivals history) :
    Round n g pending n true arrivals history :=
  ⟨h.nodup, h.waiting_eq, h.mem, h.departed, h.arrived, h.count, by simpa using h.arrivals_eq, h.ordered⟩

theorem Round.decrement {n g waiting arrivals : Nat} {pending : List Nat}
    {history : List BarrierEvent} (h : Round n g pending waiting true arrivals history)
    (hn : 0 < n) (hle : waiting ≤ n) {call : Nat} (hcall : call ∈ pending) :
    Round n g (pending.erase call) (waiting - 1) true arrivals
      (history ++ [.departed call waiting, .returned call]) := by
  have harrivals : arrivals = g * n + n := by simpa using h.arrivals_eq
  obtain ⟨hge, hlt⟩ := h.mem call hcall
  have hgeneration : call / n = g := by
    rw [Nat.div_eq_iff hn]
    constructor <;> omega
  refine ⟨h.nodup.erase _, ?_, fun k hk => h.mem k (List.mem_of_mem_erase hk), fun k hk => ?_,
    fun k hk => ?_, ?_, h.arrivals_eq, ?_⟩
  · rw [List.length_erase_of_mem hcall, h.waiting_eq]
  · by_cases hk' : k = call
    · exact .inr ⟨waiting, by simp [hk']⟩
    · rcases h.departed k hk with hp | ⟨w, hw⟩
      · exact .inl ((List.mem_erase_of_ne hk').mpr hp)
      · exact .inr ⟨w, List.mem_append_left _ hw⟩
  · obtain ⟨w, hw⟩ := h.arrived k hk
    exact ⟨w, List.mem_append_left _ hw⟩
  · simp [h.count.symm, BarrierEvent.isArrival]
  · refine ordered_departed h.ordered (h.waiting_eq ▸ List.length_pos_of_mem hcall) hle fun k hk => ?_
    apply h.arrived
    rw [harrivals, ← Nat.succ_mul]
    exact (Nat.div_lt_iff_lt_mul hn).mp (by omega)

/-- The last departure of a generation. -/
theorem Round.reset {n g arrivals : Nat} {history : List BarrierEvent}
    (h : Round n g [] 0 true arrivals history) : Round n (g + 1) [] 0 false arrivals history := by
  refine ⟨h.nodup, h.waiting_eq, nofun, h.departed, h.arrived, h.count, ?_, h.ordered⟩
  have harrivals := h.arrivals_eq
  simp only [if_true, Bool.false_eq_true, if_false] at harrivals ⊢
  rw [harrivals, Nat.succ_mul, Nat.add_zero]

/-- The loop that the call waits in goes on. -/
def ArriveCall.blocked (firstFilter : Bool) : ArriveCall → Bool
  | .idle => false
  | .draining => firstFilter
  | .filling _ => !firstFilter

/-- One call for each number in `pending`. -/
structure Calls {T : Type} (calls : T → ArriveCall) (pending : List Nat) : Prop where
  mem : ∀ k, k ∈ pending ↔ ∃ t, calls t = .filling k
  apart : ∀ t u k, calls t = .filling k → calls u = .filling k → t = u

/-- The same without the thread `t`, which is running a section. -/
structure Others {T : Type} (calls : T → ArriveCall) (t : T) (rest : List Nat) : Prop where
  mem : ∀ k, k ∈ rest ↔ ∃ u, u ≠ t ∧ calls u = .filling k
  apart : ∀ t u k, calls t = .filling k → calls u = .filling k → t = u

theorem Calls.others {T : Type} {calls : T → ArriveCall} {pending : List Nat}
    (h : Calls calls pending) {t : T} (ht : ∀ k, calls t ≠ .filling k) :
    Others calls t pending := by
  refine ⟨fun k => (h.mem k).trans ⟨?_, ?_⟩, h.apart⟩
  · rintro ⟨u, hu⟩
    exact ⟨u, fun he => ht k (he ▸ hu), hu⟩
  · rintro ⟨u, -, hu⟩
    exact ⟨u, hu⟩

theorem Calls.others_erase {T : Type} {calls : T → ArriveCall} {pending : List Nat}
    (h : Calls calls pending) (hnodup : pending.Nodup) {t : T} {call : Nat}
    (ht : calls t = .filling call) : Others calls t (pending.erase call) := by
  refine ⟨fun k => ?_, h.apart⟩
  rw [hnodup.mem_erase_iff, h.mem]
  constructor
  · rintro ⟨hk, u, hu⟩
    refine ⟨u, fun he => ?_, hu⟩
    rw [he, ht, ArriveCall.filling.injEq] at hu
    exact hk hu.symm
  · rintro ⟨u, hne, hu⟩
    exact ⟨fun hk => hne (h.apart u t call (hk ▸ hu) ht), u, hu⟩

theorem Others.leave {T : Type} [DecidableEq T] {calls : T → ArriveCall} {t : T}
    {rest : List Nat} (h : Others calls t rest) {call : ArriveCall}
    (hcall : ∀ k, call ≠ .filling k) : Calls (Function.update calls t call) rest := by
  have back (u : T) (k : Nat) (hu : Function.update calls t call u = .filling k) :
      u ≠ t ∧ calls u = .filling k := by
    by_cases he : u = t
    · rw [he, Function.update_self] at hu
      exact (hcall k hu).elim
    · rw [Function.update_of_ne he] at hu
      exact ⟨he, hu⟩
  refine ⟨fun k => (h.mem k).trans ⟨?_, ?_⟩, fun u v k hu hv => ?_⟩
  · rintro ⟨u, hne, hu⟩
    exact ⟨u, by rw [Function.update_of_ne hne, hu]⟩
  · rintro ⟨u, hu⟩
    exact ⟨u, back u k hu⟩
  · exact h.apart u v k (back u k hu).2 (back v k hv).2

theorem Others.join {T : Type} [DecidableEq T] {calls : T → ArriveCall} {t : T}
    {rest : List Nat} (h : Others calls t rest) {call : Nat} (hcall : call ∉ rest) :
    Calls (Function.update calls t (.filling call)) (call :: rest) := by
  have back (u : T) (k : Nat) (hu : Function.update calls t (.filling call) u = .filling k) :
      u = t ∧ k = call ∨ u ≠ t ∧ calls u = .filling k := by
    by_cases he : u = t
    · rw [he, Function.update_self, ArriveCall.filling.injEq] at hu
      exact .inl ⟨he, hu.symm⟩
    · rw [Function.update_of_ne he] at hu
      exact .inr ⟨he, hu⟩
  have fresh (u : T) (hne : u ≠ t) (hu : calls u = .filling call) : False :=
    hcall ((h.mem call).mpr ⟨u, hne, hu⟩)
  refine ⟨fun k => ⟨fun hk => ?_, ?_⟩, fun u v k hu hv => ?_⟩
  · rcases List.mem_cons.mp hk with rfl | hk
    · exact ⟨t, Function.update_self ..⟩
    · obtain ⟨u, hne, hu⟩ := (h.mem k).mp hk
      exact ⟨u, by rw [Function.update_of_ne hne, hu]⟩
  · rintro ⟨u, hu⟩
    rcases back u k hu with ⟨-, rfl⟩ | hu
    · exact List.mem_cons_self
    · exact List.mem_cons_of_mem _ ((h.mem k).mpr ⟨u, hu⟩)
  · rcases back u k hu with ⟨hut, huk⟩ | ⟨hut, huk⟩ <;>
      rcases back v k hv with ⟨hvt, hvk⟩ | ⟨hvt, hvk⟩
    · rw [hut, hvt]
    · exact (fresh v hvt (huk ▸ hvk)).elim
    · exact (fresh u hut (hvk ▸ huk)).elim
    · exact h.apart u v k huk hvk

namespace CyclicBarrier

structure Inv {T : Type} (n : Nat) (s : CyclicBarrier T) : Prop where
  tracks : s.locker.Tracks fun t => s.calls t ≠ .idle
  asleep : ∀ t ∈ s.locker.asleep, (s.calls t).blocked s.firstFilter = true
  waiting_lt : s.waiting < n
  draining : s.firstFilter = true → 0 < s.waiting
  round : ∃ g pending, Round n g pending s.waiting s.firstFilter s.arrivals s.history ∧
    Calls s.calls pending

/-- While `t` runs a section it is not inside `wait`. -/
structure Section {T : Type} (s : CyclicBarrier T) (t : T) : Prop where
  tracks : s.locker.Tracks fun u => u ≠ t ∧ s.calls u ≠ .idle
  asleep : ∀ u ∈ s.locker.asleep, (s.calls u).blocked s.firstFilter = true

theorem Section.ne {T : Type} {s : CyclicBarrier T} {t u : T} (h : s.Section t)
    (hu : u ∈ s.locker.asleep) : u ≠ t := (h.tracks.waiting_of_asleep hu).1

theorem Section.wait {T : Type} [DecidableEq T] {s : CyclicBarrier T} {t : T}
    (h : s.Section t) (call : ArriveCall) (hcall : call.blocked s.firstFilter = true) :
    ((s.wait t call).locker.Tracks fun u => (s.wait t call).calls u ≠ .idle) ∧
      ∀ u ∈ (s.wait t call).locker.asleep, ((s.wait t call).calls u).blocked s.firstFilter = true := by
  refine ⟨(h.tracks.wait (i := t) fun hw => hw.1 rfl).congr fun u => ?_, fun u hu => ?_⟩
  · by_cases he : u = t
    · subst he
      have hidle : call ≠ .idle := by
        rintro rfl
        cases hcall
      simp [CyclicBarrier.wait, hidle]
    · simp [CyclicBarrier.wait, he]
  · rcases List.mem_append.mp hu with hu | hu
    · have hne := h.ne hu
      simpa [CyclicBarrier.wait, hne] using h.asleep u hu
    · simpa [CyclicBarrier.wait, List.mem_singleton.mp hu] using hcall

theorem Section.tracks_idle {T : Type} [DecidableEq T] {s : CyclicBarrier T} {t : T}
    {c : ConditionVariable T} (h : c.Tracks fun u => u ≠ t ∧ s.calls u ≠ .idle) :
    c.Tracks fun u => Function.update s.calls t .idle u ≠ .idle := by
  refine h.congr fun u => ?_
  by_cases he : u = t
  · simp [he]
  · simp [he]

theorem increment_eq {T : Type} {s : CyclicBarrier T} (h : s.waiting + 1 < 2 ^ 64) :
    s.increment = { s with
      waiting := s.waiting + 1
      arrivals := s.arrivals + 1
      history := s.history ++ [.arrived s.arrivals (s.waiting + 1)] } := by
  unfold CyclicBarrier.increment
  rw [Nat.mod_eq_of_lt h]

theorem decrement_eq {T : Type} [DecidableEq T] {s : CyclicBarrier T} {t : T} {call : Nat}
    (hpos : 0 < s.waiting) (h : s.waiting < 2 ^ 64) :
    s.decrement t call = { s with
      waiting := s.waiting - 1
      calls := Function.update s.calls t .idle
      history := s.history ++ [.departed call s.waiting, .returned call] } := by
  unfold CyclicBarrier.decrement
  have hwaiting : (s.waiting + (2 ^ 64 - 1)) % 2 ^ 64 = s.waiting - 1 := by omega
  rw [hwaiting]

/-- The call of `t` is still in `pending` and leaves. -/
theorem Section.depart {T : Type} [DecidableEq T] {s : CyclicBarrier T} {t : T} {n g call : Nat}
    {pending : List Nat} (h : s.Section t) (hn : 0 < n) (hsize : n < 2 ^ 64)
    (hflag : s.firstFilter = true)
    (hround : Round n g pending s.waiting true s.arrivals s.history) (hle : s.waiting ≤ n)
    (hcall : call ∈ pending) (hothers : Others s.calls t (pending.erase call)) :
    (s.depart t call).Inv n := by
  have hpos : 0 < s.waiting := hround.waiting_eq ▸ List.length_pos_of_mem hcall
  have hafter := hround.decrement hn hle hcall
  have hcalls : Calls (Function.update s.calls t .idle) (pending.erase call) := hothers.leave nofun
  unfold CyclicBarrier.depart
  rw [decrement_eq hpos (Nat.lt_of_le_of_lt hle hsize)]
  by_cases hlast : s.waiting - 1 = 0
  · have hempty : pending.erase call = [] :=
      List.eq_nil_of_length_eq_zero (hafter.waiting_eq.symm.trans hlast)
    rw [hempty, hlast] at hafter
    rw [hempty] at hcalls
    simp only [hlast, if_true]
    exact ⟨tracks_idle h.tracks.notifyAll, nofun, hn, nofun, g + 1, [], hafter.reset, hcalls⟩
  · simp only [hlast, if_false]
    rw [← hflag] at hafter
    refine ⟨tracks_idle h.tracks, fun u hu => ?_, by show s.waiting - 1 < n; omega,
      fun _ => Nat.pos_of_ne_zero hlast, g, pending.erase call, hafter, hcalls⟩
    have hne := h.ne hu
    simpa [hne] using h.asleep u hu

theorem Inv.firstLoop {T : Type} [DecidableEq T] {s : CyclicBarrier T} {t : T} {n : Nat}
    (hs : s.Section t) (hn : 0 < n) (hsize : n < 2 ^ 64) (hlt : s.waiting < n)
    (hdraining : s.firstFilter = true → 0 < s.waiting) {g : Nat} {pending : List Nat}
    (hround : Round n g pending s.waiting s.firstFilter s.arrivals s.history)
    (hothers : Others s.calls t pending) : (s.firstLoop n t).Inv n := by
  unfold CyclicBarrier.firstLoop
  cases hflag : s.firstFilter with
  | true =>
    rw [if_pos rfl]
    obtain ⟨htracks, hasleep⟩ := hs.wait .draining hflag
    exact ⟨htracks, hasleep, hlt, hdraining, g, pending, hround, hothers.leave nofun⟩
  | false =>
    rw [hflag] at hround
    have hafter := hround.increment hlt
    have hfresh : s.arrivals ∉ pending := fun hmem => Nat.lt_irrefl _ (hround.mem _ hmem).2
    rw [if_neg nofun, increment_eq (Nat.lt_of_le_of_lt hlt hsize)]
    by_cases hfull : s.waiting + 1 = n
    · rw [hfull] at hafter
      simp only [hfull, if_true]
      have hnotified : Section { s with
          waiting := n
          arrivals := s.arrivals + 1
          history := s.history ++ [.arrived s.arrivals n]
          firstFilter := true
          locker := s.locker.notifyAll } t := ⟨hs.tracks.notifyAll, nofun⟩
      exact hnotified.depart hn hsize rfl hafter.open (Nat.le_refl _) List.mem_cons_self
        (by simpa using hothers)
    · simp only [hfull, if_false]
      unfold CyclicBarrier.secondLoop
      rw [if_neg (by simp [hflag])]
      obtain ⟨htracks, hasleep⟩ := hs.wait (.filling s.arrivals)
        (by simp [hflag, ArriveCall.blocked])
      rw [← hflag] at hafter
      exact ⟨htracks, hasleep, Nat.lt_of_le_of_ne hlt hfull, fun _ => Nat.succ_pos _, g,
        s.arrivals :: pending, hafter, hothers.join hfresh⟩

theorem Inv.secondLoop {T : Type} [DecidableEq T] {s : CyclicBarrier T} {t : T} {n call : Nat}
    (hs : s.Section t) (hn : 0 < n) (hsize : n < 2 ^ 64) (hlt : s.waiting < n)
    (hdraining : s.firstFilter = true → 0 < s.waiting) {g : Nat} {pending : List Nat}
    (hround : Round n g pending s.waiting s.firstFilter s.arrivals s.history)
    (hcalls : Calls s.calls pending) (ht : s.calls t = .filling call) :
    (s.secondLoop t call).Inv n := by
  have hcall : call ∈ pending := (hcalls.mem call).mpr ⟨t, ht⟩
  have hothers := hcalls.others_erase hround.nodup ht
  unfold CyclicBarrier.secondLoop
  cases hflag : s.firstFilter with
  | true =>
    rw [hflag] at hround
    rw [if_pos rfl]
    exact hs.depart hn hsize hflag hround (Nat.le_of_lt hlt) hcall hothers
  | false =>
    rw [if_neg nofun]
    obtain ⟨htracks, hasleep⟩ := hs.wait (.filling call) (by rw [hflag]; rfl)
    have hsame : Function.update s.calls t (.filling call) = s.calls := by
      rw [← ht, Function.update_eq_self]
    refine ⟨htracks, hasleep, hlt, hdraining, g, pending, hround, ?_⟩
    show Calls (Function.update s.calls t (.filling call)) pending
    rwa [hsame]

theorem Inv.step {T : Type} [DecidableEq T] {n : Nat} (hn : 0 < n) (hsize : n < 2 ^ 64)
    {s u : CyclicBarrier T} (hs : s.Inv n) {l : BarrierLabel T} (h : s.step n l = some u) :
    u.Inv n := by
  obtain ⟨g, pending, hround, hcalls⟩ := hs.round
  cases l with
  | arrive t =>
    cases ht : s.calls t with
    | draining | filling call => simp [CyclicBarrier.step, ht] at h
    | idle =>
      simp only [CyclicBarrier.step, ht, Option.some.injEq] at h
      subst h
      have hsection : s.Section t := by
        refine ⟨hs.tracks.congr fun v => ⟨fun hv => ⟨fun he => hv (he ▸ ht), hv⟩, And.right⟩,
          hs.asleep⟩
      exact Inv.firstLoop hsection hn hsize hs.waiting_lt hs.draining hround
        (hcalls.others (by simp [ht]))
  | resume t =>
    simp only [CyclicBarrier.step, Option.bind_eq_some_iff] at h
    obtain ⟨locker, hlocker, h⟩ := h
    have hsection : Section { s with locker := locker } t :=
      ⟨hs.tracks.resume hlocker, fun v hv =>
        hs.asleep v ((ConditionVariable.resume_eq hlocker).2.1 ▸ hv)⟩
    cases ht : s.calls t with
    | idle => simp [ht] at h
    | draining =>
      simp only [ht, Option.some.injEq] at h
      subst h
      exact Inv.firstLoop hsection hn hsize hs.waiting_lt hs.draining hround
        (hcalls.others (by simp [ht]))
    | filling call =>
      simp only [ht, Option.some.injEq] at h
      subst h
      exact Inv.secondLoop hsection hn hsize hs.waiting_lt hs.draining hround hcalls ht
  | wake t =>
    obtain ⟨locker, hlocker, rfl⟩ := Option.map_eq_some_iff.mp h
    refine ⟨hs.tracks.wake hlocker, fun v hv => ?_, hs.waiting_lt, hs.draining, g, pending,
      hround, hcalls⟩
    obtain ⟨-, hasleep, -⟩ := ConditionVariable.wake_eq hlocker
    exact hs.asleep v (List.mem_of_mem_erase (hasleep ▸ hv))

theorem inv_init (T : Type) [DecidableEq T] {n : Nat} (hn : 0 < n) :
    (cyclicBarrier T n).init.Inv n where
  tracks := ConditionVariable.tracks_new fun _ h => h rfl
  asleep := nofun
  waiting_lt := hn
  draining := nofun
  round := ⟨0, [], round_init n, fun _ => ⟨nofun, nofun⟩, nofun⟩

theorem depart_history {T : Type} [DecidableEq T] (s : CyclicBarrier T) (t : T) (call : Nat) :
    (s.depart t call).history = s.history ++ [.departed call s.waiting, .returned call] := by
  unfold CyclicBarrier.depart
  split <;> rfl

theorem secondLoop_returns {T : Type} [DecidableEq T] {s : CyclicBarrier T} {t : T} {call : Nat}
    (h : (s.secondLoop t call).calls t = .idle) :
    (s.secondLoop t call).history = s.history ++ [.departed call s.waiting, .returned call] := by
  unfold CyclicBarrier.secondLoop at h ⊢
  split at h
  · rename_i hflag
    rw [if_pos hflag, depart_history]
  · simp [CyclicBarrier.wait] at h

theorem firstLoop_returns {T : Type} [DecidableEq T] {s : CyclicBarrier T} {t : T} {n : Nat}
    (h : (s.firstLoop n t).calls t = .idle) : ∃ w v, (s.firstLoop n t).history =
      s.history ++ [.arrived s.arrivals w, .departed s.arrivals v, .returned s.arrivals] := by
  refine ⟨s.increment.waiting, s.increment.waiting, ?_⟩
  have harrived : s.increment.history =
      s.history ++ [.arrived s.arrivals s.increment.waiting] := rfl
  unfold CyclicBarrier.firstLoop at h ⊢
  split at h
  · simp [CyclicBarrier.wait] at h
  · rename_i hflag
    rw [if_neg hflag]
    split at h
    · rename_i hfull
      rw [if_pos hfull, depart_history]
      simp [harrived]
    · rename_i hfull
      rw [if_neg hfull, secondLoop_returns h, harrived]
      simp

/-- A call returns with its own number: with that of the arrival it has waited for, or
with that of the arrival it has just made. -/
theorem returns {T : Type} [DecidableEq T] {n : Nat} {s u : CyclicBarrier T} {t : T}
    {l : BarrierLabel T} (hl : l = .arrive t ∨ l = .resume t) (h : s.step n l = some u)
    (hu : u.calls t = .idle) : ∃ call v,
      (s.calls t = .filling call ∧
        u.history = s.history ++ [.departed call v, .returned call]) ∨
      call = s.arrivals ∧ ∃ w,
        u.history = s.history ++ [.arrived call w, .departed call v, .returned call] := by
  rcases hl with rfl | rfl
  · cases ht : s.calls t with
    | draining | filling call => simp [CyclicBarrier.step, ht] at h
    | idle =>
      simp only [CyclicBarrier.step, ht, Option.some.injEq] at h
      subst h
      obtain ⟨w, v, hhistory⟩ := firstLoop_returns hu
      exact ⟨s.arrivals, v, .inr ⟨rfl, w, hhistory⟩⟩
  · simp only [CyclicBarrier.step, Option.bind_eq_some_iff] at h
    obtain ⟨locker, -, h⟩ := h
    cases ht : s.calls t with
    | idle => simp [ht] at h
    | draining =>
      simp only [ht, Option.some.injEq] at h
      subst h
      obtain ⟨w, v, hhistory⟩ := firstLoop_returns hu
      exact ⟨s.arrivals, v, .inr ⟨rfl, w, hhistory⟩⟩
    | filling call =>
      simp only [ht, Option.some.injEq] at h
      subst h
      exact ⟨call, s.waiting, .inl ⟨rfl, secondLoop_returns hu⟩⟩

/-- Generations do not overlap, whoever sleeps has to, and while the second filter
is open somebody has been woken to leave through it. -/
structure Sound {T : Type} (n : Nat) (s : CyclicBarrier T) : Prop where
  ordered : Ordered n s.history
  waiting_le : s.waiting ≤ n
  asleep : ∀ t ∈ s.locker.asleep, (s.calls t).blocked s.firstFilter = true
  drains : s.firstFilter = true → ∃ t ∈ s.locker.notified, ∃ call, s.calls t = .filling call

theorem Inv.sound {T : Type} {n : Nat} {s : CyclicBarrier T} (hs : s.Inv n) : s.Sound n := by
  obtain ⟨g, pending, hround, hcalls⟩ := hs.round
  refine ⟨hround.ordered, Nat.le_of_lt hs.waiting_lt, hs.asleep, fun hflag => ?_⟩
  have hpos := hs.draining hflag
  cases hpending : pending with
  | nil =>
    have hzero := hround.waiting_eq
    rw [hpending] at hzero
    exact (Nat.ne_of_gt hpos hzero).elim
  | cons call rest =>
    obtain ⟨t, ht⟩ := (hcalls.mem call).mp (by simp [hpending])
    refine ⟨t, ?_, call, ht⟩
    rcases List.mem_append.mp ((hs.tracks.mem t).mpr (by simp [ht])) with hmem | hmem
    · have hblocked := hs.asleep t hmem
      simp [ht, hflag, ArriveCall.blocked] at hblocked
    · exact hmem

end CyclicBarrier

theorem cyclicBarrier_sound {T : Type} [DecidableEq T] {n : Nat} (hn : 1 ≤ n) (hsize : n < 2 ^ 64)
    {s : CyclicBarrier T} (h : (cyclicBarrier T n).Reachable s) :
    s.Sound n ∧ ∀ t l u, (l = .arrive t ∨ l = .resume t) →
      (cyclicBarrier T n).step s l = some u → u.calls t = .idle → ∃ call v,
        (s.calls t = .filling call ∧
          u.history = s.history ++ [.departed call v, .returned call]) ∨
        call = s.arrivals ∧ ∃ w,
          u.history = s.history ++ [.arrived call w, .departed call v, .returned call] := by
  have hs : s.Inv n := h.invariant (CyclicBarrier.inv_init T hn) fun _ _ _ _ hs hstep =>
    hs.step hn hsize hstep
  exact ⟨hs.sound, fun _ _ _ hl hstep hu => CyclicBarrier.returns hl hstep hu⟩

/-- A thread of the first generation is back for the second one while the other is
still on its way out. -/
theorem cyclicBarrier_sound_overtaken : ∃ s : CyclicBarrier (Fin 2),
    (cyclicBarrier (Fin 2) 2).Reachable s ∧ s.Sound 2 ∧ .returned 1 ∈ s.history ∧
      s.calls 0 = .filling 0 ∧ s.calls 1 = .draining ∧ s.locker.asleep = [1] := by
  have h : (cyclicBarrier (Fin 2) 2).Reachable _ :=
    Machine.reachable_of_exec [.arrive 0, .arrive 1, .arrive 1] rfl
  exact ⟨_, h, (cyclicBarrier_sound (by decide) (by decide) h).1, by decide, rfl, rfl, rfl⟩

/-! When nobody inside `Arrive` can go on. -/

/-- Where all that wait are asleep, every generation that is complete has left, and they
are calls of the one that is not. -/
theorem cyclicBarrier_serves {T : Type} [DecidableEq T] {n : Nat} (hn : 1 ≤ n) (hsize : n < 2 ^ 64)
    {s : CyclicBarrier T} (h : (cyclicBarrier T n).Reachable s) (hrest : s.locker.notified = []) :
    (∀ k, k / n < s.arrivals / n → ∃ w, .departed k w ∈ s.history) ∧
      (∀ t, s.calls t ≠ .idle → ∃ k, s.calls t = .filling k ∧ k / n = s.arrivals / n) ∧
      s.waiting = s.arrivals % n := by
  have hs : s.Inv n := h.invariant (CyclicBarrier.inv_init T hn) fun _ _ _ _ hs hstep =>
    hs.step hn hsize hstep
  have hclosed : s.firstFilter = false := by
    by_contra hopen
    obtain ⟨t, ht, -⟩ := hs.sound.drains (by simpa using hopen)
    rw [hrest] at ht
    cases ht
  obtain ⟨g, pending, hround, hcalls⟩ := hs.round
  have hlt := hs.waiting_lt
  have harrivals : s.arrivals = n * g + s.waiting := by
    rw [hround.arrivals_eq, hclosed, Nat.mul_comm]
    rfl
  have hgeneration : s.arrivals / n = g := by
    rw [harrivals, Nat.mul_add_div hn, Nat.div_eq_of_lt hlt, Nat.add_zero]
  refine ⟨fun k hk => ?_, fun t ht => ?_, ?_⟩
  · rw [hgeneration] at hk
    have hkn : k < g * n := (Nat.div_lt_iff_lt_mul hn).mp hk
    rcases hround.departed k (by rw [harrivals, Nat.mul_comm]; omega) with hmem | hdeparted
    · have hlow := (hround.mem k hmem).1
      omega
    · exact hdeparted
  · have hmem := (hs.tracks.mem t).mpr ht
    rw [hrest, List.append_nil] at hmem
    have hblocked := hs.asleep t hmem
    cases hcall : s.calls t with
    | idle => exact (ht hcall).elim
    | draining => simp [hcall, hclosed, ArriveCall.blocked] at hblocked
    | filling k =>
      obtain ⟨hlow, hhigh⟩ := hround.mem k ((hcalls.mem k).mpr ⟨t, hcall⟩)
      refine ⟨k, rfl, ?_⟩
      rw [hgeneration, Nat.div_eq_iff (by omega)]
      rw [harrivals, Nat.mul_comm] at hhigh
      constructor
      · omega
      · omega
  · rw [harrivals, Nat.mul_add_mod, Nat.mod_eq_of_lt hlt]

/-- Three of two generations have come, and the third one is left. -/
theorem cyclicBarrier_serves_left : ∃ s : CyclicBarrier (Fin 3),
    (cyclicBarrier (Fin 3) 2).Reachable s ∧ s.locker.notified = [] ∧
      (∃ w, .departed 0 w ∈ s.history) ∧ s.waiting = 1 := by
  have h : (cyclicBarrier (Fin 3) 2).Reachable _ :=
    Machine.reachable_of_exec [.arrive 0, .arrive 1, .resume 0, .arrive 2] rfl
  obtain ⟨hleft, -, hwaiting⟩ := cyclicBarrier_serves (by decide) (by decide) h rfl
  exact ⟨_, h, rfl, hleft 0 (by decide), hwaiting⟩

namespace CyclicBarrier

/-- A section ends in `wait`, or it may have woken those inside. -/
def Leaves {T : Type} (s u : CyclicBarrier T) (t : T) : Prop :=
  u.locker = s.locker.wait t ∨ u.locker.inside = s.locker.inside

theorem decrement_locker {T : Type} [DecidableEq T] (s : CyclicBarrier T) (t : T) (call : Nat) :
    (s.decrement t call).locker = s.locker := by
  unfold decrement
  rfl

theorem depart_inside {T : Type} [DecidableEq T] (s : CyclicBarrier T) (t : T) (call : Nat) :
    (s.depart t call).locker.inside = s.locker.inside := by
  by_cases hlast : (s.decrement t call).waiting = 0
  · rw [depart, if_pos hlast]
    exact s.locker.inside_notifyAll
  · rw [depart, if_neg hlast, decrement_locker]

theorem secondLoop_leaves {T : Type} [DecidableEq T] (s : CyclicBarrier T) (t : T) (call : Nat) :
    s.Leaves (s.secondLoop t call) t := by
  unfold secondLoop
  split
  · exact .inr (s.depart_inside t call)
  · exact .inl rfl

theorem firstLoop_leaves {T : Type} [DecidableEq T] (n : Nat) (s : CyclicBarrier T) (t : T) :
    s.Leaves (s.firstLoop n t) t := by
  unfold firstLoop
  split
  · exact .inl rfl
  · split
    · right
      rw [depart_inside]
      exact s.locker.inside_notifyAll
    · exact s.increment.secondLoop_leaves t s.arrivals

/-- Who is on the way, and everybody inside `wait` for each of those who may leave. -/
def ahead {T : Type} [Fintype T] (s : CyclicBarrier T) : Nat :=
  s.locker.notified.length + s.locker.inside * (Fintype.card T + 1)

/-- Who falls asleep again is no more on the way; who leaves may wake the others. -/
theorem ahead_resume {T : Type} [Fintype T] [DecidableEq T] {n : Nat} {s u : CyclicBarrier T}
    (hs : s.Inv n) {t : T} (h : s.step n (.resume t) = some u) : u.ahead < s.ahead := by
  obtain ⟨locker, hlocker, h⟩ := Option.bind_eq_some_iff.mp h
  have hleaves : ({ s with locker := locker } : CyclicBarrier T).Leaves u t := by
    cases hcall : s.calls t with
    | idle => simp [hcall] at h
    | draining =>
      simp only [hcall, Option.some.injEq] at h
      exact h ▸ firstLoop_leaves n _ t
    | filling call =>
      simp only [hcall, Option.some.injEq] at h
      exact h ▸ secondLoop_leaves _ t call
  have hnotified := ConditionVariable.resume_notified_length hlocker
  have hinside := ConditionVariable.inside_resume hlocker
  have hcard := hs.tracks.inside_le
  unfold ahead
  rcases hleaves with hwait | hsame
  · have hback : u.locker.inside = s.locker.inside := by
      rw [hwait, ConditionVariable.inside_wait]
      exact hinside
    have hless : u.locker.notified.length < s.locker.notified.length := by
      rw [hwait]
      show locker.notified.length < _
      omega
    rw [hback]
    omega
  · have hgone : s.locker.inside = u.locker.inside + 1 := by
      rw [hsame]
      exact hinside.symm
    have hwoken : u.locker.notified.length ≤ u.locker.inside := Nat.le_add_left _ _
    rw [hgone, Nat.add_one_mul]
    omega

end CyclicBarrier

/-- Without new calls and spurious wake-ups the barrier comes to rest, after at most
`m * (m + 2)` returns from `wait` of its `m` threads. -/
theorem cyclicBarrier_halts {T : Type} [Fintype T] [DecidableEq T] {n : Nat} (hn : 1 ≤ n)
    (hsize : n < 2 ^ 64) {s u : CyclicBarrier T} (h : (cyclicBarrier T n).Reachable s)
    {ls : List (BarrierLabel T)} (hresumes : ∀ l ∈ ls, ∃ t, l = .resume t)
    (hrun : (cyclicBarrier T n).exec s ls = some u) :
    ls.length ≤ Fintype.card T * (Fintype.card T + 2) := by
  have hinv {s : CyclicBarrier T} (h : (cyclicBarrier T n).Reachable s) : s.Inv n :=
    h.invariant (CyclicBarrier.inv_init T hn) fun _ _ _ _ hs hstep => hs.step hn hsize hstep
  have hbound : ls.length + u.ahead ≤ s.ahead := by
    refine h.exec_length_le_of (fun v l w hv hl hstep => ?_) hresumes hrun
    obtain ⟨t, rfl⟩ := hl
    exact CyclicBarrier.ahead_resume (hinv hv) hstep
  have hinside := (hinv h).tracks.inside_le
  have hnotified : s.locker.notified.length ≤ s.locker.inside := Nat.le_add_left _ _
  have hmul := Nat.mul_le_mul_right (Fintype.card T + 1) hinside
  calc ls.length ≤ s.locker.notified.length + s.locker.inside * (Fintype.card T + 1) :=
        Nat.le_of_add_right_le hbound
    _ ≤ Fintype.card T + Fintype.card T * (Fintype.card T + 1) := by omega
    _ = Fintype.card T * (Fintype.card T + 2) := by
      rw [Nat.mul_succ _ (Fintype.card T + 1), Nat.add_comm]

/-- Thread 0 is the last to leave and wakes thread 1, which has come again. -/
theorem cyclicBarrier_halts_again : ∃ s u : CyclicBarrier (Fin 2),
    (cyclicBarrier (Fin 2) 2).Reachable s ∧ (cyclicBarrier (Fin 2) 2).exec s
      [.resume 0, .resume 1] = some u ∧ u.locker.asleep = [1] ∧ 2 ≤ 2 * 4 := by
  have hall : (cyclicBarrier (Fin 2) 2).exec (cyclicBarrier (Fin 2) 2).init
      ([.arrive 0, .arrive 1, .arrive 1] ++ [.resume 0, .resume 1]) = some _ := rfl
  rw [Machine.exec_append] at hall
  obtain ⟨s, hs, hrun⟩ := Option.bind_eq_some_iff.mp hall
  have hresumes : ∀ l ∈ [BarrierLabel.resume (0 : Fin 2), .resume 1], ∃ t, l = .resume t := by
    simp
  have hbound := cyclicBarrier_halts (by decide) (by decide) (Machine.reachable_of_exec _ hs)
    hresumes hrun
  exact ⟨s, _, Machine.reachable_of_exec _ hs, hrun, rfl, hbound⟩

end ConcurrentProgramming.Sync
