import ConcurrentProgramming.Fibers.SleepFor

/-!
What goes on with a fiber that sleeps or yields: as long as it is there, exactly one
of the posted handlers, the pending timers and the threads has it.
-/

set_option autoImplicit false

namespace ConcurrentProgramming.Fibers.SleepFor
open Interleaving Finset

/-- The fiber that a thread works on. -/
def Pc.fiber : Pc → Option Nat
  | .loop => none
  | .step this | .resume this | .resumed this | .expiresAfter this | .asyncWait this
  | .expired this | .schedule _ this | .post _ this | .delete _ this => some this
  | .routine stack _ | .sleepFor _ stack _ _ | .wake stack _ _ => some stack
  | .suspend _ context => some context.stack

@[simp] theorem Pc.fiber_loop : Pc.loop.fiber = none := rfl

def Thread.weight (f : Nat) (th : Thread) : Nat := if th.pc.fiber = some f then 1 else 0

@[simp] theorem Thread.weight_pos {f : Nat} {th : Thread} :
    th.weight f = 1 ↔ th.pc.fiber = some f := by
  simp [Thread.weight]

@[simp] theorem Thread.weight_eq_zero {f : Nat} {th : Thread} :
    th.weight f = 0 ↔ th.pc.fiber ≠ some f := by
  simp [Thread.weight]

/-- A fiber suspended in `SleepFor` has its timer there. -/
def ResumePoint.Owns (timers : Nat → Option Timer) (f : Nat) : ResumePoint → Prop
  | .routine _ => True
  | .sleepFor timer _ => ∃ x, timers timer = some x ∧ x.sleeper = f

namespace Fiber

/-- Suspended, on the stack of its own. -/
def Parked (timers : Nat → Option Timer) (f : Nat) (x : Fiber) : Prop :=
  ∃ p, x.coroutine = ⟨.waiting, ⟨f, p⟩⟩ ∧ p.Owns timers f

/-- Suspended by the `SleepFor` that made the timer. -/
def Asleep (timers : Nat → Option Timer) (f timer : Nat) (tm : Timer) (x : Fiber) : Prop :=
  x.state = .sleeping ∧ (∃ rest, x.coroutine = ⟨.waiting, ⟨f, .sleepFor timer rest⟩⟩) ∧
    timers timer = some tm ∧ tm.sleeper = f

def Executing (x : Fiber) : Prop := x.state = .running ∧ x.coroutine.state = .running

def Returned (x : Fiber) : Prop := x.state = .running ∧ x.coroutine.state = .terminated

theorem Asleep.parked {timers : Nat → Option Timer} {f timer : Nat} {tm : Timer} {x : Fiber}
    (h : x.Asleep timers f timer tm) : x.Parked timers f := by
  obtain ⟨-, ⟨rest, hrest⟩, htimer, hsleeper⟩ := h
  exact ⟨_, hrest, tm, htimer, hsleeper⟩

end Fiber

/-- The thread-locals lead to the timer of the fiber, and to its delay. -/
def Thread.Armable (timers : Nat → Option Timer) (f timer : Nat) (tm : Timer) (th : Thread) :
    Prop :=
  th.currTimer = some timer ∧ timers timer = some tm ∧ tm.sleeper = f ∧ tm.delay = th.currDelay

/-- What is known of a fiber where a thread works on it. -/
def Thread.Holds (timers : Nat → Option Timer) (f : Nat) (x : Fiber) (th : Thread) : Prop :=
  match th.pc with
  | .loop => True
  | .step _ => x.Parked timers f
  | .resume _ => th.currentFiber = some f ∧ x.state = .running ∧ x.Parked timers f
  | .routine _ _ => th.currentFiber = some f ∧ x.Executing
  | .sleepFor this _ _ _ =>
    this = f ∧ th.currentFiber = some f ∧ x.state = .sleeping ∧ x.coroutine.state = .running
  | .suspend this ⟨_, .routine _⟩ =>
    this = f ∧ th.currentFiber = some f ∧ x.state = .waiting ∧ x.coroutine.state = .running
  | .suspend this ⟨_, .sleepFor timer _⟩ =>
    this = f ∧ th.currentFiber = some f ∧ x.state = .sleeping ∧ x.coroutine.state = .running ∧
      ∃ tm, th.Armable timers f timer tm
  | .wake _ timer _ =>
    th.currentFiber = some f ∧ x.Executing ∧ ∃ tm, timers timer = some tm ∧ tm.sleeper = f
  | .resumed _ => x.Returned ∨ (x.state = .waiting ∧ x.Parked timers f) ∨
    ∃ timer tm, x.Asleep timers f timer tm ∧ th.Armable timers f timer tm
  | .expiresAfter _ => ∃ timer tm, x.Asleep timers f timer tm ∧ th.Armable timers f timer tm
  | .asyncWait _ => ∃ timer tm, x.Asleep timers f timer tm ∧ th.Armable timers f timer tm ∧
    tm.expiry = some tm.delay
  | .expired _ => x.Parked timers f
  | .schedule caller _ => (x.state = .waiting ∧ x.Parked timers f) ∨ (caller = .step ∧ x.Returned)
  | .post _ _ => x.Parked timers f
  | .delete caller _ => caller = .step ∧ x.Returned

namespace IoContext

/-- All that is known of one fiber. -/
structure FiberInv {ι : Type} [Fintype ι] (s : IoContext ι) (f : Nat) : Prop where
  tokens : s.posted.count f + s.waits.countP (·.this = f) + tally univ (Thread.weight f) s.threads =
    if (s.fibers f).isSome then 1 else 0
  deletions : s.deleted.countP (·.1 = f) + (if (s.fibers f).isSome then 1 else 0) =
    if f < s.newFiber then 1 else 0
  posted : f ∈ s.posted → ∃ x, s.fibers f = some x ∧ x.Parked s.timers f
  waits : ∀ w ∈ s.waits, w.this = f → ∃ x tm, s.fibers f = some x ∧
    x.Asleep s.timers f w.timer tm ∧ tm.expiry = some tm.delay ∧ w.expiry = some tm.delay
  threads : ∀ t, (s.threads t).pc.fiber = some f →
    ∃ x, s.fibers f = some x ∧ (s.threads t).Holds s.timers f x
  deleted : ∀ x, (f, x) ∈ s.deleted → x.coroutine.state = .terminated

structure Inv {ι : Type} [Fintype ι] (s : IoContext ι) : Prop where
  fibers : ∀ f, s.FiberInv f
  newTimer : ∀ k, s.newTimer ≤ k → s.timers k = none

/-- A step that works on `f` leaves all other fibers as they are. -/
structure Elsewhere {ι : Type} (f : Nat) (s s' : IoContext ι) : Prop where
  fibers : ∀ g, g ≠ f → s'.fibers g = s.fibers g
  newFiber : ∀ g, g ≠ f → (g < s'.newFiber ↔ g < s.newFiber)
  posted : ∀ g, g ≠ f → s'.posted.count g = s.posted.count g
  waits : ∀ g, g ≠ f → s'.waits.filter (·.this = g) = s.waits.filter (·.this = g)
  deleted : ∀ g, g ≠ f → s'.deleted.filter (·.1 = g) = s.deleted.filter (·.1 = g)
  timers : ∀ k tm, s.timers k = some tm → tm.sleeper ≠ f → s'.timers k = some tm
  threads : ∀ t, s'.threads t = s.threads t ∨
    ∀ g, g ≠ f → (s.threads t).pc.fiber ≠ some g ∧ (s'.threads t).pc.fiber ≠ some g

theorem FiberInv.not_posted {ι : Type} [Fintype ι] {s : IoContext ι} {f : Nat} (h : s.FiberInv f)
    {t : ι} (ht : (s.threads t).pc.fiber = some f) : f ∉ s.posted := by
  have hle := le_tally (Thread.weight f) s.threads (mem_univ t)
  have htokens := h.tokens
  rw [Thread.weight_pos.mpr ht] at hle
  intro hf
  have := List.count_pos_iff.mpr hf
  split at htokens <;> omega

theorem FiberInv.not_waiting {ι : Type} [Fintype ι] {s : IoContext ι} {f : Nat} (h : s.FiberInv f)
    {t : ι} (ht : (s.threads t).pc.fiber = some f) : ∀ w ∈ s.waits, w.this ≠ f := by
  have hle := le_tally (Thread.weight f) s.threads (mem_univ t)
  have htokens := h.tokens
  rw [Thread.weight_pos.mpr ht] at hle
  intro w hw hf
  have : 0 < s.waits.countP (·.this = f) := List.countP_pos_iff.mpr ⟨w, hw, by simpa using hf⟩
  split at htokens <;> omega

/-- No two threads work on one fiber. -/
theorem FiberInv.exclusive {ι : Type} [Fintype ι] [DecidableEq ι] {s : IoContext ι} {f : Nat}
    (h : s.FiberInv f) {t u : ι} (ht : (s.threads t).pc.fiber = some f)
    (hu : (s.threads u).pc.fiber = some f) : u = t := by
  by_contra hne
  have hmoved := tally_update (Thread.weight f) s.threads (mem_univ t) ⟨none, none, 0, .loop⟩
  have hle := le_tally (Thread.weight f)
    (Function.update s.threads t ⟨none, none, 0, .loop⟩) (mem_univ u)
  have htokens := h.tokens
  have hzero : Thread.weight f ⟨none, none, 0, .loop⟩ = 0 := rfl
  rw [Function.update_of_ne hne, Thread.weight_pos.mpr hu] at hle
  rw [Thread.weight_pos.mpr ht, hzero] at hmoved
  split at htokens <;> omega

end IoContext

section Timers

variable {timers timers' : Nat → Option Timer} {f : Nat}

theorem ResumePoint.Owns.mono {p : ResumePoint} (h : p.Owns timers f)
    (htimers : ∀ k tm, timers k = some tm → tm.sleeper = f → timers' k = some tm) :
    p.Owns timers' f := by
  cases p with
  | routine rest => trivial
  | sleepFor timer rest =>
    obtain ⟨tm, htm, hf⟩ := h
    exact ⟨tm, htimers timer tm htm hf, hf⟩

theorem Fiber.Parked.mono {x : Fiber} (h : x.Parked timers f)
    (htimers : ∀ k tm, timers k = some tm → tm.sleeper = f → timers' k = some tm) :
    x.Parked timers' f := by
  obtain ⟨p, hp, howns⟩ := h
  exact ⟨p, hp, howns.mono htimers⟩

theorem Fiber.Asleep.mono {x : Fiber} {timer : Nat} {tm : Timer} (h : x.Asleep timers f timer tm)
    (htimers : ∀ k tm, timers k = some tm → tm.sleeper = f → timers' k = some tm) :
    x.Asleep timers' f timer tm := by
  obtain ⟨hstate, hrest, htm, hf⟩ := h
  exact ⟨hstate, hrest, htimers timer tm htm hf, hf⟩

theorem Thread.Armable.mono {th : Thread} {timer : Nat} {tm : Timer}
    (h : th.Armable timers f timer tm)
    (htimers : ∀ k tm, timers k = some tm → tm.sleeper = f → timers' k = some tm) :
    th.Armable timers' f timer tm := by
  obtain ⟨hcurr, htm, hf, hdelay⟩ := h
  exact ⟨hcurr, htimers timer tm htm hf, hf, hdelay⟩

/-- One's own timer is not the timer of another fiber. -/
theorem update_timers {timer k : Nat} {tm tm' : Timer} (htm : timers timer = some tm)
    (hsleeper : tm.sleeper = f) (new : Option Timer) (hk : timers k = some tm')
    (hne : tm'.sleeper ≠ f) : Function.update timers timer new k = some tm' := by
  have : k ≠ timer := by
    rintro rfl
    exact hne (Option.some.inj (hk.symm.trans htm) ▸ hsleeper)
  rw [Function.update_of_ne this, hk]

/-- Nothing but the timers of the fiber itself matters. -/
theorem Thread.Holds.mono {x : Fiber} {th : Thread} (h : th.Holds timers f x)
    (htimers : ∀ k tm, timers k = some tm → tm.sleeper = f → timers' k = some tm) :
    th.Holds timers' f x := by
  unfold Thread.Holds at h ⊢
  split at h
  · trivial
  · exact h.mono htimers
  · exact ⟨h.1, h.2.1, h.2.2.mono htimers⟩
  · exact h
  · exact h
  · exact h
  · obtain ⟨hthis, hcurrent, hstate, hrunning, tm, harm⟩ := h
    exact ⟨hthis, hcurrent, hstate, hrunning, tm, harm.mono htimers⟩
  · obtain ⟨hcurrent, hexec, tm, htm, hf⟩ := h
    exact ⟨hcurrent, hexec, tm, htimers _ tm htm hf, hf⟩
  · obtain h | ⟨hstate, hparked⟩ | ⟨timer, tm, hasleep, harm⟩ := h
    · exact .inl h
    · exact .inr (.inl ⟨hstate, hparked.mono htimers⟩)
    · exact .inr (.inr ⟨timer, tm, hasleep.mono htimers, harm.mono htimers⟩)
  · obtain ⟨timer, tm, hasleep, harm⟩ := h
    exact ⟨timer, tm, hasleep.mono htimers, harm.mono htimers⟩
  · obtain ⟨timer, tm, hasleep, harm, hexpiry⟩ := h
    exact ⟨timer, tm, hasleep.mono htimers, harm.mono htimers, hexpiry⟩
  · exact h.mono htimers
  · exact h.imp (fun h => ⟨h.1, h.2.mono htimers⟩) id
  · exact h.mono htimers
  · exact h

end Timers

namespace IoContext

theorem FiberInv.frame {ι : Type} [Fintype ι] {s s' : IoContext ι} {f g : Nat}
    (h : s.FiberInv g) (he : Elsewhere f s s') (hg : g ≠ f) : s'.FiberInv g := by
  have hfibers := he.fibers g hg
  have hcount := congrArg List.length (he.waits g hg)
  have hdeleted := congrArg List.length (he.deleted g hg)
  have hweight (t : ι) : (s'.threads t).weight g = (s.threads t).weight g := by
    obtain hsame | hother := he.threads t
    · rw [hsame]
    · rw [Thread.weight_eq_zero.mpr (hother g hg).1, Thread.weight_eq_zero.mpr (hother g hg).2]
  have htally : tally univ (Thread.weight g) s'.threads = tally univ (Thread.weight g) s.threads :=
    sum_congr rfl fun t _ => hweight t
  have htimers (k : Nat) (tm : Timer) (hk : s.timers k = some tm) (hf : tm.sleeper = g) :
      s'.timers k = some tm := he.timers k tm hk (hf ▸ hg)
  rw [← List.countP_eq_length_filter, ← List.countP_eq_length_filter] at hcount hdeleted
  constructor
  · rw [he.posted g hg, hcount, htally, hfibers]
    exact h.tokens
  · rw [hdeleted, hfibers, h.deletions]
    simp only [he.newFiber g hg]
  · intro hmem
    rw [← List.count_pos_iff, he.posted g hg, List.count_pos_iff] at hmem
    obtain ⟨x, hx, hparked⟩ := h.posted hmem
    exact ⟨x, hfibers.trans hx, hparked.mono htimers⟩
  · intro w hw hwg
    have hmem : w ∈ s'.waits.filter (·.this = g) := by simp [hw, hwg]
    rw [he.waits g hg, List.mem_filter] at hmem
    obtain ⟨x, tm, hx, hasleep, hexpiry⟩ := h.waits w hmem.1 hwg
    exact ⟨x, tm, hfibers.trans hx, hasleep.mono htimers, hexpiry⟩
  · intro t ht
    have hsame : s'.threads t = s.threads t := (he.threads t).resolve_right fun hother =>
      (hother g hg).2 ht
    rw [hsame] at ht ⊢
    obtain ⟨x, hx, hholds⟩ := h.threads t ht
    exact ⟨x, hfibers.trans hx, hholds.mono htimers⟩
  · intro x hx
    have hmem : (g, x) ∈ s'.deleted.filter (·.1 = g) := by simp [hx]
    rw [he.deleted g hg, List.mem_filter] at hmem
    exact h.deleted x hmem.1

/-- The step lemma: what a step works on is seen to by itself. -/
theorem Inv.at {ι : Type} [Fintype ι] {s s' : IoContext ι} {f : Nat} (hs : s.Inv)
    (he : Elsewhere f s s') (hf : s'.FiberInv f)
    (hnew : ∀ k, s'.newTimer ≤ k → s'.timers k = none) : s'.Inv := by
  refine ⟨fun g => ?_, hnew⟩
  by_cases hg : g = f
  · exact hg ▸ hf
  · exact (hs.fibers g).frame he hg

/-- A thread goes on with the fiber that it has. -/
theorem Inv.move {ι : Type} [Fintype ι] [DecidableEq ι] {s : IoContext ι} (hs : s.Inv) {t : ι}
    {f n : Nat} {x x' : Fiber} {th : Thread} {timers : Nat → Option Timer}
    (ht : (s.threads t).pc.fiber = some f) (hx : s.fibers f = some x)
    (hth : th.pc.fiber = some f) (hholds : th.Holds timers f x')
    (htimers : ∀ k tm, s.timers k = some tm → tm.sleeper ≠ f → timers k = some tm)
    (hnew : ∀ k, n ≤ k → timers k = none) :
    Inv { s.put f x' with
      threads := Function.update s.threads t th, timers := timers, newTimer := n } := by
  have hf := hs.fibers f
  refine hs.at (f := f) ?_ ?_ hnew
  · refine ⟨fun g hg => Function.update_of_ne hg .., fun g hg => .rfl, fun g hg => rfl,
      fun g hg => rfl, fun g hg => rfl, htimers, fun u => ?_⟩
    by_cases hu : u = t
    · subst hu
      simp [ht, hth, eq_comm]
    · exact .inl (Function.update_of_ne hu ..)
  · have hweight : th.weight f = (s.threads t).weight f := by
      rw [Thread.weight_pos.mpr ht, Thread.weight_pos.mpr hth]
    have hlive : (if ((s.put f x').fibers f).isSome then 1 else 0) =
        if (s.fibers f).isSome then 1 else 0 := by simp [IoContext.put, hx]
    constructor
    · exact (congrArg _ (tally_update_of_eq (Thread.weight f) s.threads hweight)).trans
        (hf.tokens.trans hlive.symm)
    · exact (congrArg _ hlive).trans hf.deletions
    · exact fun hmem => absurd hmem (hf.not_posted ht)
    · exact fun w hw hwf => absurd hwf (hf.not_waiting ht w hw)
    · intro u hu
      by_cases hut : u = t
      · subst hut
        exact ⟨x', Function.update_self .., by simpa using hholds⟩
      · simp only [Function.update_of_ne hut] at hu
        exact absurd (hf.exclusive ht hu) hut
    · exact hf.deleted

theorem Inv.put {ι : Type} [Fintype ι] [DecidableEq ι] {s : IoContext ι} (hs : s.Inv) {t : ι}
    {f : Nat} {x x' : Fiber} {th : Thread} (ht : (s.threads t).pc.fiber = some f)
    (hx : s.fibers f = some x) (hth : th.pc.fiber = some f)
    (hholds : th.Holds s.timers f x') : ((s.put f x').setThread t th).Inv :=
  hs.move ht hx hth hholds (fun _ _ h _ => h) hs.newTimer

/-- The fiber stays as it is. -/
theorem Inv.retime {ι : Type} [Fintype ι] [DecidableEq ι] {s : IoContext ι} (hs : s.Inv) {t : ι}
    {f n : Nat} {x : Fiber} {th : Thread} {timers : Nat → Option Timer}
    (ht : (s.threads t).pc.fiber = some f) (hx : s.fibers f = some x)
    (hth : th.pc.fiber = some f) (hholds : th.Holds timers f x)
    (htimers : ∀ k tm, s.timers k = some tm → tm.sleeper ≠ f → timers k = some tm)
    (hnew : ∀ k, n ≤ k → timers k = none) :
    ({ s with timers := timers, newTimer := n }.setThread t th).Inv := by
  have hsame : Function.update s.fibers f (some x) = s.fibers := by
    rw [← hx, Function.update_eq_self]
  have hmove := hs.move ht hx hth hholds htimers hnew
  simp only [IoContext.put, hsame] at hmove
  exact hmove

theorem Inv.setThread {ι : Type} [Fintype ι] [DecidableEq ι] {s : IoContext ι} (hs : s.Inv) {t : ι}
    {f : Nat} {x : Fiber} {th : Thread} (ht : (s.threads t).pc.fiber = some f)
    (hx : s.fibers f = some x) (hth : th.pc.fiber = some f) (hholds : th.Holds s.timers f x) :
    (s.setThread t th).Inv :=
  hs.retime ht hx hth hholds (fun _ _ h _ => h) hs.newTimer

/-- A new fiber is posted. -/
theorem Inv.go {ι : Type} [Fintype ι] {s : IoContext ι} (hs : s.Inv) (routine : Routine) :
    (s.go routine).Inv := by
  have hf := hs.fibers s.newFiber
  have hnone : s.fibers s.newFiber = none := by
    have hdeletions := hf.deletions
    simp only [lt_irrefl, if_false] at hdeletions
    rw [← Option.not_isSome_iff_eq_none]
    intro hsome
    simp [hsome] at hdeletions
  have htokens := hf.tokens
  rw [hnone] at htokens
  simp only [Option.isSome_none, Bool.false_eq_true, if_false] at htokens
  have hthreads (t : ι) : (s.threads t).pc.fiber ≠ some s.newFiber := by
    have := tally_eq_zero.mp (by omega : tally univ (Thread.weight s.newFiber) s.threads = 0) t
      (mem_univ t)
    exact Thread.weight_eq_zero.mp this
  have hwaits : ∀ w ∈ s.waits, w.this ≠ s.newFiber := by
    have := List.countP_eq_zero.mp (by omega : s.waits.countP (·.this = s.newFiber) = 0)
    simpa using this
  refine hs.at (f := s.newFiber) ?_ ?_ hs.newTimer
  · refine ⟨fun g hg => Function.update_of_ne hg .., fun g hg => ?_, fun g hg => ?_,
      fun g hg => rfl, fun g hg => rfl, fun k tm h _ => h, fun u => .inl rfl⟩
    · change g < s.newFiber + 1 ↔ g < s.newFiber
      omega
    · change (s.posted ++ [s.newFiber]).count g = s.posted.count g
      simp [Ne.symm hg]
  · have hdeletions := hf.deletions
    rw [hnone] at hdeletions
    simp only [Option.isSome_none, Bool.false_eq_true, if_false, lt_irrefl, add_zero] at hdeletions
    have hfibers : (s.go routine).fibers s.newFiber = some (Fiber.new s.newFiber routine) :=
      Function.update_self ..
    constructor
    · have hposted : (s.go routine).posted.count s.newFiber = s.posted.count s.newFiber + 1 :=
        List.count_append.trans (by simp [IoContext.put])
      change (s.go routine).posted.count s.newFiber + s.waits.countP _ + tally univ _ s.threads = _
      rw [hposted, hfibers, Option.isSome_some, if_pos rfl]
      omega
    · rw [hfibers, Option.isSome_some, if_pos rfl]
      change s.deleted.countP _ + 1 = if s.newFiber < s.newFiber + 1 then 1 else 0
      rw [hdeletions, if_pos (Nat.lt_succ_self _)]
    · exact fun _ => ⟨_, hfibers, .routine routine, rfl, trivial⟩
    · exact fun w hw hwf => absurd hwf (hwaits w hw)
    · exact fun t ht => absurd ht (hthreads t)
    · exact hf.deleted

/-- A thread takes a fiber out of a bag, or puts it into one. -/
theorem Inv.exchange {ι : Type} [Fintype ι] [DecidableEq ι] {s : IoContext ι} (hs : s.Inv) {t : ι}
    {f : Nat} {th : Thread} {posted : List Nat} {waits : List Wait}
    (ht : ∀ g, g ≠ f → (s.threads t).pc.fiber ≠ some g ∧ th.pc.fiber ≠ some g)
    (hposted : ∀ g, g ≠ f → posted.count g = s.posted.count g)
    (hwaits : ∀ g, g ≠ f → waits.filter (·.this = g) = s.waits.filter (·.this = g))
    (hcount : posted.count f + waits.countP (·.this = f) + th.weight f =
      s.posted.count f + s.waits.countP (·.this = f) + (s.threads t).weight f)
    (hparked : f ∈ posted → ∃ x, s.fibers f = some x ∧ x.Parked s.timers f)
    (hasleep : ∀ w ∈ waits, w.this = f → ∃ x tm, s.fibers f = some x ∧
      x.Asleep s.timers f w.timer tm ∧ tm.expiry = some tm.delay ∧ w.expiry = some tm.delay)
    (hholds : th.pc.fiber = some f → ∃ x, s.fibers f = some x ∧ th.Holds s.timers f x) :
    ({ s with posted := posted, waits := waits }.setThread t th).Inv := by
  have hf := hs.fibers f
  refine hs.at (f := f) ?_ ?_ hs.newTimer
  · refine ⟨fun g hg => rfl, fun g hg => .rfl, hposted, hwaits, fun g hg => rfl,
      fun k tm h _ => h, fun u => ?_⟩
    by_cases hu : u = t
    · subst hu
      simpa [IoContext.setThread] using Or.inr ht
    · exact .inl (Function.update_of_ne hu ..)
  · have hmoved := tally_update (Thread.weight f) s.threads (mem_univ t) th
    have htokens := hf.tokens
    constructor
    · change posted.count f + waits.countP _ + tally univ _ (Function.update s.threads t th) =
        if (s.fibers f).isSome then 1 else 0
      omega
    · exact hf.deletions
    · exact hparked
    · exact hasleep
    · intro u hu
      by_cases hut : u = t
      · subst hut
        simp only [IoContext.setThread, Function.update_self] at hu ⊢
        exact hholds hu
      · simp only [IoContext.setThread, Function.update_of_ne hut] at hu ⊢
        exact hf.threads u hu
    · exact hf.deleted

theorem Inv.dispatch {ι : Type} [Fintype ι] [DecidableEq ι] {s : IoContext ι} (hs : s.Inv) {t : ι}
    {f : Nat} (ht : (s.threads t).pc = .loop) (hf : f ∈ s.posted) :
    ({ s with posted := s.posted.erase f }.goto t (.step f)).Inv := by
  obtain ⟨x, hx, hparked⟩ := (hs.fibers f).posted hf
  refine hs.exchange (f := f) ?_ ?_ (fun _ _ => rfl) ?_ ?_ (hs.fibers f).waits ?_
  · intro g hg
    simp [ht, Pc.fiber, Ne.symm hg]
  · intro g hg
    exact List.count_erase_of_ne hg
  · have := List.count_pos_iff.mpr hf
    simp only [List.count_erase_self, Thread.weight, ht, Pc.fiber, if_true, reduceCtorEq, if_false]
    omega
  · exact fun _ => ⟨x, hx, hparked⟩
  · exact fun _ => ⟨x, hx, hparked⟩

theorem Inv.expire {ι : Type} [Fintype ι] [DecidableEq ι] {s : IoContext ι} (hs : s.Inv) {t : ι}
    {w : Wait} (ht : (s.threads t).pc = .loop) (hw : w ∈ s.waits) :
    ({ s with waits := s.waits.erase w }.goto t (.expired w.this)).Inv := by
  obtain ⟨x, tm, hx, hasleep, -⟩ := (hs.fibers w.this).waits w hw rfl
  refine hs.exchange (f := w.this) ?_ (fun _ _ => rfl) ?_ ?_ (hs.fibers w.this).posted ?_ ?_
  · intro g hg
    simp [ht, Pc.fiber, Ne.symm hg]
  · intro g hg
    rw [← List.erase_filter, List.erase_of_not_mem]
    simp [Ne.symm hg]
  · have : 0 < s.waits.countP (·.this = w.this) := List.countP_pos_iff.mpr ⟨w, hw, by simp⟩
    simp only [List.countP_erase, hw, Thread.weight, ht, Pc.fiber, if_true, reduceCtorEq,
      decide_true, and_self, if_false]
    omega
  · exact fun v hv => (hs.fibers w.this).waits v (List.mem_of_mem_erase hv)
  · exact fun _ => ⟨x, hx, hasleep.parked⟩

theorem Inv.post {ι : Type} [Fintype ι] [DecidableEq ι] {s : IoContext ι} (hs : s.Inv) {t : ι}
    {f : Nat} {x : Fiber} (ht : (s.threads t).pc.fiber = some f) (hx : s.fibers f = some x)
    (hparked : x.Parked s.timers f) : ((s.post f).goto t .loop).Inv := by
  refine hs.exchange (f := f) ?_ ?_ (fun _ _ => rfl) ?_ ?_ (hs.fibers f).waits nofun
  · intro g hg
    simp [ht, Ne.symm hg]
  · intro g hg
    simp [Ne.symm hg]
  · rw [Thread.weight_pos.mpr ht, List.count_append, List.count_singleton_self]
    simp only [Thread.weight, Pc.fiber, reduceCtorEq, if_false]
    omega
  · exact fun _ => ⟨x, hx, hparked⟩

theorem Inv.asyncWait {ι : Type} [Fintype ι] [DecidableEq ι] {s : IoContext ι} (hs : s.Inv) {t : ι}
    {f timer : Nat} {x : Fiber} {tm : Timer} (ht : (s.threads t).pc.fiber = some f)
    (hx : s.fibers f = some x) (hasleep : x.Asleep s.timers f timer tm)
    (hexpiry : tm.expiry = some tm.delay) :
    ({ s with waits := s.waits ++ [Wait.mk timer f tm.expiry] }.goto t .loop).Inv := by
  have hf := hs.fibers f
  refine hs.exchange (f := f) ?_ (fun _ _ => rfl) ?_ ?_ hf.posted ?_ nofun
  · intro g hg
    simp [ht, Ne.symm hg]
  · intro g hg
    simp [Ne.symm hg]
  · rw [Thread.weight_pos.mpr ht, List.countP_append, List.countP_singleton]
    simp only [Thread.weight, Pc.fiber, reduceCtorEq, if_false, decide_true, if_true]
    omega
  · intro w hw hwf
    simp only [List.mem_append, List.mem_singleton] at hw
    obtain hw | rfl := hw
    · exact hf.waits w hw hwf
    · exact ⟨x, tm, hx, hasleep, hexpiry, hexpiry⟩

theorem Inv.delete {ι : Type} [Fintype ι] [DecidableEq ι] {s : IoContext ι} (hs : s.Inv) {t : ι}
    {f : Nat} {x : Fiber} (ht : (s.threads t).pc.fiber = some f) (hx : s.fibers f = some x)
    (hreturned : x.Returned) : ((s.delete f x).goto t .loop).Inv := by
  have hf := hs.fibers f
  have hnone : ((s.delete f x).goto t .loop).fibers f = none := Function.update_self ..
  have htokens := hf.tokens
  have hdeletions := hf.deletions
  have hmoved := tally_update (Thread.weight f) s.threads (mem_univ t)
    { s.threads t with pc := .loop }
  have hloop : Thread.weight f { s.threads t with pc := .loop } = 0 := rfl
  rw [hloop, Thread.weight_pos.mpr ht] at hmoved
  rw [hx, Option.isSome_some, if_pos rfl] at htokens hdeletions
  refine hs.at (f := f) ?_ ?_ hs.newTimer
  · refine ⟨fun g hg => Function.update_of_ne hg .., fun g hg => .rfl, fun g hg => rfl,
      fun g hg => rfl, fun g hg => ?_, fun k tm h _ => h, fun u => ?_⟩
    · simp [IoContext.delete, IoContext.goto, IoContext.setThread, Ne.symm hg]
    · by_cases hu : u = t
      · subst hu
        refine .inr fun g hg => ⟨?_, ?_⟩
        · simp [ht, Ne.symm hg]
        · simp [IoContext.goto, IoContext.setThread]
      · exact .inl (Function.update_of_ne hu ..)
  · constructor
    · rw [hnone]
      change s.posted.count f + s.waits.countP _ + tally univ _ (Function.update s.threads t
        { s.threads t with pc := .loop }) = 0
      omega
    · rw [hnone]
      change (s.deleted ++ [(f, x)]).countP _ + 0 = if f < s.newFiber then 1 else 0
      simpa [List.countP_append] using hdeletions
    · exact fun hmem => absurd hmem (hf.not_posted ht)
    · exact fun w hw hwf => absurd hwf (hf.not_waiting ht w hw)
    · intro u hu
      by_cases hut : u = t
      · subst hut
        simp [IoContext.goto, IoContext.setThread] at hu
      · simp only [IoContext.goto, IoContext.setThread, Function.update_of_ne hut] at hu
        exact absurd (hf.exclusive ht hu) hut
    · intro y hy
      simp only [IoContext.goto, IoContext.setThread, IoContext.delete, List.mem_append,
        List.mem_singleton, Prod.mk.injEq, true_and] at hy
      obtain hy | rfl := hy
      · exact hf.deleted y hy
      · exact hreturned.2

theorem Inv.held {ι : Type} [Fintype ι] {s : IoContext ι} (hs : s.Inv) {t : ι} {f : Nat}
    (ht : (s.threads t).pc.fiber = some f) :
    ∃ x, s.fibers f = some x ∧ (s.threads t).Holds s.timers f x :=
  (hs.fibers f).threads t ht

theorem setState_eq {ι : Type} {s : IoContext ι} {f : Nat} {x : Fiber} (hx : s.fibers f = some x)
    (state : Fiber.State) : s.setState f state = some (s.put f { x with state := state }) := by
  simp only [setState, hx, Option.map_some]

/-- The fiber that a routine finds in `current_fiber` is the one whose routine it is. -/
theorem Inv.routine {ι : Type} [Fintype ι] [DecidableEq ι] {s s' : IoContext ι} (hs : s.Inv)
    {t : ι} {f : Nat} {r : Routine} (hpc : (s.threads t).pc = .routine f r)
    (h : s.routine t f r = some s') : s'.Inv := by
  have ht : (s.threads t).pc.fiber = some f := by rw [hpc]; rfl
  obtain ⟨x, hx, hholds⟩ := hs.held ht
  simp only [Thread.Holds, hpc] at hholds
  obtain ⟨hcurrent, hstate, hrunning⟩ := hholds
  cases r with
  | return_ =>
    simp only [IoContext.routine, hx, Option.map_some, Option.some.injEq] at h
    subst h
    exact hs.put ht hx rfl (.inl ⟨hstate, rfl⟩)
  | compute rest =>
    simp only [IoContext.routine, Option.some.injEq] at h
    subst h
    exact hs.setThread ht hx rfl ⟨hcurrent, hstate, hrunning⟩
  | yield rest =>
    simp only [IoContext.routine, hcurrent, setState_eq hx, Option.bind_some, Option.map_some,
      Option.some.injEq] at h
    subst h
    exact hs.put ht hx rfl ⟨rfl, hcurrent, rfl, hrunning⟩
  | sleepFor delay rest =>
    simp only [IoContext.routine, hcurrent, setState_eq hx, Option.bind_some, Option.map_some,
      Option.some.injEq] at h
    subst h
    exact hs.put ht hx rfl ⟨rfl, hcurrent, rfl, hrunning⟩
  | go routine rest =>
    simp only [IoContext.routine, hcurrent, hx, Option.bind_some, Option.map_some,
      Option.some.injEq] at h
    subst h
    have hne : f ≠ s.newFiber := by
      rintro rfl
      have hdeletions := (hs.fibers s.newFiber).deletions
      simp [hx] at hdeletions
    have hx' : (s.go routine).fibers f = some x := (Function.update_of_ne hne ..).trans hx
    exact (hs.go routine).setThread (t := t) ht hx' rfl ⟨hcurrent, hstate, hrunning⟩

theorem Inv.resume {ι : Type} [Fintype ι] [DecidableEq ι] {s s' : IoContext ι} (hs : s.Inv)
    {t : ι} {this : Nat} (hpc : (s.threads t).pc = .resume this)
    (h : s.next t = some s') : s'.Inv := by
  have ht : (s.threads t).pc.fiber = some this := by rw [hpc]; rfl
  obtain ⟨x, hx, hholds⟩ := hs.held ht
  simp only [Thread.Holds, hpc] at hholds
  obtain ⟨hcurrent, hstate, p, hp, howns⟩ := hholds
  simp only [IoContext.next, hpc, hx, hp, Option.map_some, Option.some.injEq] at h
  subst h
  cases p with
  | routine rest => exact hs.put ht hx rfl ⟨hcurrent, hstate, rfl⟩
  | sleepFor timer rest => exact hs.put ht hx rfl ⟨hcurrent, ⟨hstate, rfl⟩, howns⟩

/-- The new timer and the delay are put where `Step` will look for them. -/
theorem Inv.sleepFor {ι : Type} [Fintype ι] [DecidableEq ι] {s s' : IoContext ι} (hs : s.Inv)
    {t : ι} {this stack : Nat} {delay : Millis} {rest : Routine}
    (hpc : (s.threads t).pc = .sleepFor this stack delay rest) (h : s.next t = some s') :
    s'.Inv := by
  have ht : (s.threads t).pc.fiber = some stack := by rw [hpc]; rfl
  obtain ⟨x, hx, hholds⟩ := hs.held ht
  simp only [Thread.Holds, hpc] at hholds
  obtain ⟨rfl, hcurrent, hstate, hrunning⟩ := hholds
  simp only [IoContext.next, hpc, Option.some.injEq] at h
  subst h
  refine hs.retime ht hx rfl ?_ ?_ ?_
  · exact ⟨rfl, hcurrent, hstate, hrunning, _, rfl, Function.update_self .., rfl, rfl⟩
  · intro k tm hk _
    have hne : k ≠ s.newTimer := by
      rintro rfl
      simp [hs.newTimer _ le_rfl] at hk
    rw [Function.update_of_ne hne, hk]
  · intro k hk
    rw [Function.update_of_ne (by omega), hs.newTimer k (by omega)]

theorem Inv.suspend {ι : Type} [Fintype ι] [DecidableEq ι] {s s' : IoContext ι} (hs : s.Inv)
    {t : ι} {this : Nat} {context : Context} (hpc : (s.threads t).pc = .suspend this context)
    (h : s.next t = some s') : s'.Inv := by
  have ht : (s.threads t).pc.fiber = some context.stack := by rw [hpc]; rfl
  obtain ⟨x, hx, hholds⟩ := hs.held ht
  obtain ⟨stack, p⟩ := context
  cases p with
  | routine rest =>
    simp only [Thread.Holds, hpc] at hholds
    obtain ⟨rfl, hcurrent, hstate, hrunning⟩ := hholds
    simp only [IoContext.next, hpc, hx, Option.map_some, Option.some.injEq] at h
    subst h
    exact hs.put ht hx rfl (.inr (.inl ⟨hstate, _, rfl, trivial⟩))
  | sleepFor timer rest =>
    simp only [Thread.Holds, hpc] at hholds
    obtain ⟨rfl, hcurrent, hstate, hrunning, tm, harm⟩ := hholds
    simp only [IoContext.next, hpc, hx, Option.map_some, Option.some.injEq] at h
    subst h
    refine hs.put ht hx rfl (.inr (.inr ⟨timer, tm, ?_, harm⟩))
    exact ⟨hstate, ⟨rest, rfl⟩, harm.2.1, harm.2.2.1⟩

theorem Inv.wake {ι : Type} [Fintype ι] [DecidableEq ι] {s s' : IoContext ι} (hs : s.Inv)
    {t : ι} {stack timer : Nat} {rest : Routine} (hpc : (s.threads t).pc = .wake stack timer rest)
    (h : s.next t = some s') : s'.Inv := by
  have ht : (s.threads t).pc.fiber = some stack := by rw [hpc]; rfl
  obtain ⟨x, hx, hholds⟩ := hs.held ht
  simp only [Thread.Holds, hpc] at hholds
  obtain ⟨hcurrent, hexec, tm, htm, hsleeper⟩ := hholds
  simp only [IoContext.next, hpc, htm, Option.map_some, Option.some.injEq] at h
  subst h
  refine hs.retime ht hx rfl ⟨hcurrent, hexec⟩ ?_ ?_
  · exact fun k tm' hk hne => update_timers htm hsleeper none hk hne
  · intro k hk
    by_cases hkt : k = timer
    · rw [hkt, Function.update_self]
    · rw [Function.update_of_ne hkt, hs.newTimer k hk]

/-- The state tells how the routine has left the thread. -/
theorem Inv.resumed {ι : Type} [Fintype ι] [DecidableEq ι] {s s' : IoContext ι} (hs : s.Inv)
    {t : ι} {this : Nat} (hpc : (s.threads t).pc = .resumed this)
    (h : s.next t = some s') : s'.Inv := by
  have ht : (s.threads t).pc.fiber = some this := by rw [hpc]; rfl
  obtain ⟨x, hx, hholds⟩ := hs.held ht
  simp only [Thread.Holds, hpc] at hholds
  simp only [IoContext.next, hpc, hx, Option.map_some, Option.some.injEq] at h
  subst h
  obtain hreturned | ⟨hstate, hparked⟩ | ⟨timer, tm, hasleep, harm⟩ := hholds
  · rw [if_neg (by simp [hreturned.1])]
    exact hs.setThread ht hx rfl (.inr ⟨rfl, hreturned⟩)
  · rw [if_neg (by simp [hstate])]
    exact hs.setThread ht hx rfl (.inl ⟨hstate, hparked⟩)
  · rw [if_pos hasleep.1]
    exact hs.setThread ht hx rfl ⟨timer, tm, hasleep, harm⟩

/-- What `Step` finds in the thread-locals is the timer of the fiber, and its delay. -/
theorem Inv.expiresAfter {ι : Type} [Fintype ι] [DecidableEq ι] {s s' : IoContext ι} (hs : s.Inv)
    {t : ι} {this : Nat} (hpc : (s.threads t).pc = .expiresAfter this)
    (h : s.next t = some s') : s'.Inv := by
  have ht : (s.threads t).pc.fiber = some this := by rw [hpc]; rfl
  obtain ⟨x, hx, hholds⟩ := hs.held ht
  simp only [Thread.Holds, hpc] at hholds
  obtain ⟨timer, tm, hasleep, hcurr, htm, hsleeper, hdelay⟩ := hholds
  simp only [IoContext.next, hpc, hcurr, htm, Option.bind_some, Option.map_some,
    Option.some.injEq] at h
  subst h
  refine hs.retime ht hx rfl ?_ ?_ ?_
  · refine ⟨timer, _, ⟨hasleep.1, hasleep.2.1, Function.update_self .., hsleeper⟩,
      ⟨hcurr, Function.update_self .., hsleeper, hdelay⟩, ?_⟩
    exact congrArg some hdelay.symm
  · exact fun k tm' hk hne => update_timers htm hsleeper _ hk hne
  · intro k hk
    have : k ≠ timer := by
      rintro rfl
      simp [hs.newTimer _ hk] at htm
    rw [Function.update_of_ne this, hs.newTimer k hk]

theorem Inv.schedule {ι : Type} [Fintype ι] [DecidableEq ι] {s s' : IoContext ι} (hs : s.Inv)
    {t : ι} {caller : Caller} {this : Nat} (hpc : (s.threads t).pc = .schedule caller this)
    (h : s.next t = some s') : s'.Inv := by
  have ht : (s.threads t).pc.fiber = some this := by rw [hpc]; rfl
  obtain ⟨x, hx, hholds⟩ := hs.held ht
  simp only [Thread.Holds, hpc] at hholds
  simp only [IoContext.next, hpc, hx, Option.map_some, Option.some.injEq] at h
  subst h
  obtain ⟨hstate, hparked⟩ | ⟨hcaller, hreturned⟩ := hholds
  · rw [if_pos (by simp [Fiber.posts, hstate])]
    exact hs.setThread ht hx rfl hparked
  · rw [if_neg (by simp [Fiber.posts, hreturned.1])]
    exact hs.setThread ht hx rfl ⟨hcaller, hreturned⟩

theorem Inv.next {ι : Type} [Fintype ι] [DecidableEq ι] {s s' : IoContext ι} (hs : s.Inv) {t : ι}
    (h : s.next t = some s') : s'.Inv := by
  cases hpc : (s.threads t).pc with
  | loop => simp [IoContext.next, hpc] at h
  | step this =>
    have ht : (s.threads t).pc.fiber = some this := by rw [hpc]; rfl
    obtain ⟨x, hx, hholds⟩ := hs.held ht
    simp only [Thread.Holds, hpc] at hholds
    simp only [IoContext.next, hpc, setState_eq hx, Option.map_some, Option.some.injEq] at h
    subst h
    exact hs.put ht hx rfl ⟨rfl, rfl, hholds⟩
  | resume this => exact hs.resume hpc h
  | routine stack rest => exact hs.routine hpc (by simpa only [IoContext.next, hpc] using h)
  | sleepFor this stack delay rest => exact hs.sleepFor hpc h
  | suspend this context => exact hs.suspend hpc h
  | wake stack timer rest => exact hs.wake hpc h
  | resumed this => exact hs.resumed hpc h
  | expiresAfter this => exact hs.expiresAfter hpc h
  | asyncWait this =>
    have ht : (s.threads t).pc.fiber = some this := by rw [hpc]; rfl
    obtain ⟨x, hx, hholds⟩ := hs.held ht
    simp only [Thread.Holds, hpc] at hholds
    obtain ⟨timer, tm, hasleep, ⟨hcurr, htm, -, -⟩, hexpiry⟩ := hholds
    simp only [IoContext.next, hpc, hcurr, htm, Option.bind_some, Option.map_some,
      Option.some.injEq] at h
    subst h
    exact hs.asyncWait ht hx hasleep hexpiry
  | expired this =>
    have ht : (s.threads t).pc.fiber = some this := by rw [hpc]; rfl
    obtain ⟨x, hx, hholds⟩ := hs.held ht
    simp only [Thread.Holds, hpc] at hholds
    simp only [IoContext.next, hpc, setState_eq hx, Option.map_some, Option.some.injEq] at h
    subst h
    exact hs.put ht hx rfl (.inl ⟨rfl, hholds⟩)
  | schedule caller this => exact hs.schedule hpc h
  | post caller this =>
    have ht : (s.threads t).pc.fiber = some this := by rw [hpc]; rfl
    obtain ⟨x, hx, hholds⟩ := hs.held ht
    simp only [Thread.Holds, hpc] at hholds
    simp only [IoContext.next, hpc, Option.some.injEq] at h
    subst h
    exact hs.post ht hx hholds
  | delete caller this =>
    have ht : (s.threads t).pc.fiber = some this := by rw [hpc]; rfl
    obtain ⟨x, hx, hholds⟩ := hs.held ht
    simp only [Thread.Holds, hpc] at hholds
    simp only [IoContext.next, hpc, hx, Option.map_some, Option.some.injEq] at h
    subst h
    exact hs.delete ht hx hholds.2

theorem Inv.step {ι : Type} [Fintype ι] [DecidableEq ι] {s s' : IoContext ι} (hs : s.Inv)
    {l : Label ι} (h : s.step l = some s') : s'.Inv := by
  cases l with
  | go t routine =>
    simp only [IoContext.step, Option.ite_none_right_eq_some, Option.some.injEq] at h
    obtain ⟨-, rfl⟩ := h
    exact hs.go routine
  | dispatch t this =>
    simp only [IoContext.step, Option.ite_none_right_eq_some, Option.some.injEq] at h
    obtain ⟨⟨ht, hmem⟩, rfl⟩ := h
    exact hs.dispatch ht hmem
  | expire t w =>
    simp only [IoContext.step, Option.ite_none_right_eq_some, Option.some.injEq] at h
    obtain ⟨⟨ht, hmem⟩, rfl⟩ := h
    exact hs.expire ht hmem
  | next t => exact hs.next h

theorem inv_init {ι : Type} [Fintype ι] : (init : IoContext ι).Inv := by
  refine ⟨fun f => ⟨?_, ?_, nofun, nofun, nofun, nofun⟩, fun k _ => rfl⟩
  · have hzero : tally univ (Thread.weight f) (init : IoContext ι).threads = 0 :=
      tally_eq_zero.mpr fun t _ => rfl
    simpa [init] using hzero
  · rfl

theorem inv_reachable {ι : Type} [Fintype ι] [DecidableEq ι] {s : IoContext ι}
    (h : (ioContext ι).Reachable s) : s.Inv :=
  h.invariant inv_init fun _ _ _ _ hs hstep => hs.step hstep

end IoContext

end ConcurrentProgramming.Fibers.SleepFor
