import ConcurrentProgramming.Fibers.Pending

/-!
Sleeping fibers have one pending continuation each: a posted `Step`, a running `Step`
or a timer. The timer that a `Step` arms is the one that the fiber sleeps on, and a
fiber is deleted once, by the `Step` in which its routine returned.
-/

set_option autoImplicit false

namespace ConcurrentProgramming.Fibers.SleepFor
open Interleaving Finset

/-- The handler of a timer, up to the end of its `Schedule`. -/
def Pc.handler : Pc → Bool
  | .expired _ | .schedule .timer _ | .post .timer _ | .delete .timer _ => true
  | _ => false

def Thread.stepWeight (f : Nat) (th : Thread) : Nat :=
  if th.pc.fiber = some f ∧ th.pc.handler = false then 1 else 0

def Thread.timerWeight (f : Nat) (th : Thread) : Nat :=
  if th.pc.fiber = some f ∧ th.pc.handler = true then 1 else 0

theorem Thread.weight_eq_add (f : Nat) (th : Thread) :
    th.weight f = th.stepWeight f + th.timerWeight f := by
  unfold weight stepWeight timerWeight
  cases th.pc.handler <;> simp

namespace IoContext

/-- The threads in a `Step` of the fiber. -/
def steps {ι : Type} [Fintype ι] (s : IoContext ι) (f : Nat) : Nat :=
  tally univ (Thread.stepWeight f) s.threads

/-- The armed timers of the fiber: those still pending, and those whose handler runs. -/
def armed {ι : Type} [Fintype ι] (s : IoContext ι) (f : Nat) : Nat :=
  s.waits.countP (·.this = f) + tally univ (Thread.timerWeight f) s.threads

/-- Suspended in the `SleepFor` that made the timer, whose delay is `tm.delay`. -/
structure SleepsOn {ι : Type} (s : IoContext ι) (f timer : Nat) (tm : Timer) : Prop where
  alive : s.timers timer = some tm
  sleeper : tm.sleeper = f
  suspended : ∃ x rest, s.fibers f = some x ∧ x.coroutine = ⟨.waiting, ⟨f, .sleepFor timer rest⟩⟩

/-- What holds at any time. -/
structure OnePending {ι : Type} [Fintype ι] [DecidableEq ι] (s : IoContext ι) : Prop where
  one : ∀ f, s.posted.count f + s.steps f + s.armed f = if (s.fibers f).isSome then 1 else 0
  exclusive : ∀ t u f, (s.threads t).pc.fiber = some f → (s.threads u).pc.fiber = some f → u = t
  resume : ∀ t f, (s.threads t).pc = .resume f →
    ∃ x, s.fibers f = some x ∧ x.coroutine.state = .waiting
  current : ∀ t f rest, (s.threads t).pc = .routine f rest → (s.threads t).currentFiber = some f
  arms : ∀ t f, (s.threads t).pc = .expiresAfter f → ∃ timer tm, s.SleepsOn f timer tm ∧
    (s.threads t).currTimer = some timer ∧ (s.threads t).currDelay = tm.delay
  waits : ∀ t f, (s.threads t).pc = .asyncWait f → ∃ timer tm, s.SleepsOn f timer tm ∧
    (s.threads t).currTimer = some timer ∧ tm.expiry = some tm.delay
  pending : ∀ w ∈ s.waits, ∃ tm, s.SleepsOn w.this w.timer tm ∧ w.expiry = some tm.delay
  once : ∀ f, s.deleted.countP (·.1 = f) = if f < s.newFiber ∧ s.fibers f = none then 1 else 0
  deleted : ∀ f x, (f, x) ∈ s.deleted → x.coroutine.state = .terminated
  returned : ∀ f x, s.fibers f = some x → x.coroutine.state = .terminated →
    ∃ t k s', k ≤ 3 ∧ (ioContext ι).exec s (List.replicate k (.next t)) = some s' ∧
      s'.deleted = s.deleted ++ [(f, x)]
  next : ∀ t, (s.threads t).pc ≠ .loop → (s.next t).isSome

theorem Inv.count {ι : Type} [Fintype ι] {s : IoContext ι} (hs : s.Inv) (f : Nat) :
    s.posted.count f + s.steps f + s.armed f = if (s.fibers f).isSome then 1 else 0 := by
  have hweights : tally univ (Thread.weight f) s.threads =
      s.steps f + tally univ (Thread.timerWeight f) s.threads := by
    simp only [tally, steps, Thread.weight_eq_add, sum_add_distrib]
  have htokens := (hs.fibers f).tokens
  rw [← htokens, hweights, armed]
  omega

theorem Inv.once {ι : Type} [Fintype ι] {s : IoContext ι} (hs : s.Inv) (f : Nat) :
    s.deleted.countP (·.1 = f) = if f < s.newFiber ∧ s.fibers f = none then 1 else 0 := by
  have hdeletions := (hs.fibers f).deletions
  cases hx : s.fibers f with
  | none => simpa [hx] using hdeletions
  | some x =>
    simp only [hx, Option.isSome_some, if_true] at hdeletions
    simp only [reduceCtorEq, and_false, if_false]
    split at hdeletions <;> omega

theorem sleepsOn {ι : Type} {s : IoContext ι} {f timer : Nat} {tm : Timer} {x : Fiber}
    (hx : s.fibers f = some x) (h : x.Asleep s.timers f timer tm) : s.SleepsOn f timer tm := by
  obtain ⟨-, ⟨rest, hrest⟩, htm, hsleeper⟩ := h
  exact ⟨htm, hsleeper, x, rest, hx, hrest⟩

/-- A routine runs and ends with `current_fiber` being its fiber. -/
theorem Inv.routine_isSome {ι : Type} [Fintype ι] [DecidableEq ι] {s : IoContext ι} (hs : s.Inv)
    {t : ι} {f : Nat} {r : Routine} (hpc : (s.threads t).pc = .routine f r) :
    (s.routine t f r).isSome := by
  obtain ⟨x, hx, hholds⟩ := hs.held (t := t) (f := f) (by rw [hpc]; rfl)
  simp only [Thread.Holds, hpc] at hholds
  cases r <;> simp [IoContext.routine, IoContext.setState, hx, hholds.1]

/-- Nothing is used that has been deleted or destroyed. -/
theorem Inv.next_isSome {ι : Type} [Fintype ι] [DecidableEq ι] {s : IoContext ι} (hs : s.Inv)
    {t : ι} (hloop : (s.threads t).pc ≠ .loop) : (s.next t).isSome := by
  have hheld (f : Nat) (ht : (s.threads t).pc.fiber = some f) := hs.held ht
  cases hpc : (s.threads t).pc with
  | loop => exact absurd hpc hloop
  | routine stack rest => simpa only [IoContext.next, hpc] using hs.routine_isSome hpc
  | sleepFor this stack delay rest => simp [IoContext.next, hpc]
  | post caller this => simp [IoContext.next, hpc]
  | suspend this context =>
    obtain ⟨x, hx, hholds⟩ := hheld context.stack (by rw [hpc]; rfl)
    obtain ⟨stack, p⟩ := context
    cases p with
    | routine rest =>
      simp only [Thread.Holds, hpc] at hholds
      simp [IoContext.next, hpc, hholds.1, hx]
    | sleepFor timer rest =>
      simp only [Thread.Holds, hpc] at hholds
      simp [IoContext.next, hpc, hholds.1, hx]
  | wake stack timer rest =>
    obtain ⟨x, hx, hholds⟩ := hheld stack (by rw [hpc]; rfl)
    simp only [Thread.Holds, hpc] at hholds
    obtain ⟨-, -, tm, htm, -⟩ := hholds
    simp [IoContext.next, hpc, htm]
  | expiresAfter this =>
    obtain ⟨x, hx, hholds⟩ := hheld this (by rw [hpc]; rfl)
    simp only [Thread.Holds, hpc] at hholds
    obtain ⟨timer, tm, -, hcurr, htm, -⟩ := hholds
    simp [IoContext.next, hpc, hcurr, htm]
  | asyncWait this =>
    obtain ⟨x, hx, hholds⟩ := hheld this (by rw [hpc]; rfl)
    simp only [Thread.Holds, hpc] at hholds
    obtain ⟨timer, tm, -, ⟨hcurr, htm, -⟩, -⟩ := hholds
    simp [IoContext.next, hpc, hcurr, htm]
  | step this | resume this | resumed this | expired this | schedule caller this
  | delete caller this =>
    obtain ⟨x, hx, -⟩ := hheld this (by rw [hpc]; rfl)
    simp [IoContext.next, IoContext.setState, hpc, hx]

/-- A fiber that is there is somewhere. -/
theorem Inv.exists_holder {ι : Type} [Fintype ι] {s : IoContext ι} (hs : s.Inv) {f : Nat}
    {x : Fiber} (hx : s.fibers f = some x) :
    f ∈ s.posted ∨ (∃ w ∈ s.waits, w.this = f) ∨ ∃ t, (s.threads t).pc.fiber = some f := by
  have htokens := (hs.fibers f).tokens
  rw [hx, Option.isSome_some, if_pos rfl] at htokens
  by_contra! hnone
  obtain ⟨hposted, hwaits, hthreads⟩ := hnone
  have hcount : s.posted.count f = 0 := List.count_eq_zero.mpr hposted
  have hcountP : s.waits.countP (·.this = f) = 0 := List.countP_eq_zero.mpr (by simpa using hwaits)
  have htally : tally univ (Thread.weight f) s.threads = 0 :=
    tally_eq_zero.mpr fun t _ => Thread.weight_eq_zero.mpr (hthreads t)
  omega

/-- A completed coroutine is in the hands of the `Step` in which it completed. -/
theorem Inv.exists_completing {ι : Type} [Fintype ι] {s : IoContext ι} (hs : s.Inv) {f : Nat}
    {x : Fiber} (hx : s.fibers f = some x) (hterminated : x.coroutine.state = .terminated) :
    x.state = .running ∧ ∃ t, (s.threads t).pc = .resumed f ∨
      (s.threads t).pc = .schedule .step f ∨ (s.threads t).pc = .delete .step f := by
  have hparked : ¬ x.Parked s.timers f := by
    rintro ⟨p, hp, -⟩
    simp [hp] at hterminated
  have hasleep (timer : Nat) (tm : Timer) : ¬ x.Asleep s.timers f timer tm := fun h =>
    hparked h.parked
  obtain hf | ⟨w, hw, rfl⟩ | ⟨t, ht⟩ := hs.exists_holder hx
  · obtain ⟨y, hy, h⟩ := (hs.fibers f).posted hf
    obtain rfl := Option.some.inj (hx.symm.trans hy)
    exact absurd h hparked
  · obtain ⟨y, tm, hy, h, -⟩ := (hs.fibers w.this).waits w hw rfl
    obtain rfl := Option.some.inj (hx.symm.trans hy)
    exact absurd h (hasleep _ _)
  · obtain ⟨y, hy, hholds⟩ := hs.held ht
    obtain rfl := Option.some.inj (hx.symm.trans hy)
    unfold Thread.Holds at hholds
    cases hpc : (s.threads t).pc with
    | resumed this =>
      obtain rfl : this = f := by simpa [hpc, Pc.fiber] using ht
      simp only [hpc, hparked, hasleep, and_false, false_and, exists_false, or_false] at hholds
      exact ⟨hholds.1, t, .inl hpc⟩
    | schedule caller this =>
      obtain rfl : this = f := by simpa [hpc, Pc.fiber] using ht
      simp only [hpc, hparked, and_false, false_or] at hholds
      exact ⟨hholds.2.1, t, .inr (.inl (hholds.1 ▸ hpc))⟩
    | delete caller this =>
      obtain rfl : this = f := by simpa [hpc, Pc.fiber] using ht
      simp only [hpc] at hholds
      exact ⟨hholds.2.1, t, .inr (.inr (hholds.1 ▸ hpc))⟩
    | suspend this context =>
      obtain ⟨stack, p⟩ := context
      cases p <;> simp [hpc, hterminated] at hholds
    | loop => simp [hpc] at ht
    | step | resume | routine | sleepFor | wake | expiresAfter | asyncWait | expired | post =>
      simp [hpc, hparked, hasleep, hterminated, Fiber.Executing] at hholds

theorem exec_delete {ι : Type} [DecidableEq ι] {s : IoContext ι} {t : ι} {f : Nat} {x : Fiber}
    {caller : Caller} (hx : s.fibers f = some x) (hpc : (s.threads t).pc = .delete caller f) :
    ∃ s', (ioContext ι).exec s (List.replicate 1 (.next t)) = some s' ∧
      s'.deleted = s.deleted ++ [(f, x)] :=
  ⟨_, by simp [ioContext, IoContext.step, IoContext.next, hpc, hx]; rfl, rfl⟩

theorem exec_next {ι : Type} [DecidableEq ι] {s s' : IoContext ι} {t : ι} {k : Nat}
    {e : List (Nat × Fiber)} (hnext : s.next t = some s') (hdeleted : s'.deleted = s.deleted)
    (h : ∃ u, (ioContext ι).exec s' (List.replicate k (.next t)) = some u ∧
      u.deleted = s'.deleted ++ e) :
    ∃ u, (ioContext ι).exec s (List.replicate (k + 1) (.next t)) = some u ∧
      u.deleted = s.deleted ++ e := by
  obtain ⟨u, hu, he⟩ := h
  have hstep : (ioContext ι).step s (.next t) = some s' := hnext
  exact ⟨u, by rw [List.replicate_succ, Machine.exec_cons, hstep, Option.bind_some, hu],
    hdeleted ▸ he⟩

theorem exec_schedule {ι : Type} [DecidableEq ι] {s : IoContext ι} {t : ι} {f : Nat} {x : Fiber}
    {caller : Caller} (hx : s.fibers f = some x) (hrunning : x.state = .running)
    (hpc : (s.threads t).pc = .schedule caller f) :
    ∃ s', (ioContext ι).exec s (List.replicate 2 (.next t)) = some s' ∧
      s'.deleted = s.deleted ++ [(f, x)] := by
  have hnext : s.next t = some (s.goto t (.delete caller f)) := by
    simp [IoContext.next, hpc, hx, Fiber.posts, hrunning]
  have hpc' : ((s.goto t (.delete caller f)).threads t).pc = .delete caller f := by
    simp [goto, setThread]
  exact exec_next hnext rfl (exec_delete hx hpc')

theorem exec_resumed {ι : Type} [DecidableEq ι] {s : IoContext ι} {t : ι} {f : Nat} {x : Fiber}
    (hx : s.fibers f = some x) (hrunning : x.state = .running)
    (hpc : (s.threads t).pc = .resumed f) :
    ∃ s', (ioContext ι).exec s (List.replicate 3 (.next t)) = some s' ∧
      s'.deleted = s.deleted ++ [(f, x)] := by
  have hnext : s.next t = some (s.goto t (.schedule .step f)) := by
    simp [IoContext.next, hpc, hx, hrunning]
  have hpc' : ((s.goto t (.schedule .step f)).threads t).pc = .schedule .step f := by
    simp [goto, setThread]
  exact exec_next hnext rfl (exec_schedule hx hrunning hpc')

/-- The `Step` in which the routine returned goes on to delete the fiber. -/
theorem Inv.returned {ι : Type} [Fintype ι] [DecidableEq ι] {s : IoContext ι} (hs : s.Inv)
    {f : Nat} {x : Fiber} (hx : s.fibers f = some x)
    (hterminated : x.coroutine.state = .terminated) :
    ∃ t k s', k ≤ 3 ∧ (ioContext ι).exec s (List.replicate k (.next t)) = some s' ∧
      s'.deleted = s.deleted ++ [(f, x)] := by
  obtain ⟨hrunning, t, hpc⟩ := hs.exists_completing hx hterminated
  obtain hpc | hpc | hpc := hpc
  · obtain ⟨s', hs'⟩ := exec_resumed hx hrunning hpc
    exact ⟨t, 3, s', le_rfl, hs'⟩
  · obtain ⟨s', hs'⟩ := exec_schedule hx hrunning hpc
    exact ⟨t, 2, s', by omega, hs'⟩
  · obtain ⟨s', hs'⟩ := exec_delete hx hpc
    exact ⟨t, 1, s', by omega, hs'⟩

theorem Inv.onePending {ι : Type} [Fintype ι] [DecidableEq ι] {s : IoContext ι} (hs : s.Inv) :
    s.OnePending where
  one := hs.count
  exclusive t u f ht hu := (hs.fibers f).exclusive ht hu
  resume t f hpc := by
    obtain ⟨x, hx, hholds⟩ := hs.held (t := t) (f := f) (by rw [hpc]; rfl)
    simp only [Thread.Holds, hpc] at hholds
    obtain ⟨-, -, p, hp, -⟩ := hholds
    exact ⟨x, hx, by rw [hp]⟩
  current t f rest hpc := by
    obtain ⟨x, hx, hholds⟩ := hs.held (t := t) (f := f) (by rw [hpc]; rfl)
    simp only [Thread.Holds, hpc] at hholds
    exact hholds.1
  arms t f hpc := by
    obtain ⟨x, hx, hholds⟩ := hs.held (t := t) (f := f) (by rw [hpc]; rfl)
    simp only [Thread.Holds, hpc] at hholds
    obtain ⟨timer, tm, hasleep, hcurr, -, -, hdelay⟩ := hholds
    exact ⟨timer, tm, sleepsOn hx hasleep, hcurr, hdelay.symm⟩
  waits t f hpc := by
    obtain ⟨x, hx, hholds⟩ := hs.held (t := t) (f := f) (by rw [hpc]; rfl)
    simp only [Thread.Holds, hpc] at hholds
    obtain ⟨timer, tm, hasleep, ⟨hcurr, -⟩, hexpiry⟩ := hholds
    exact ⟨timer, tm, sleepsOn hx hasleep, hcurr, hexpiry⟩
  pending w hw := by
    obtain ⟨x, tm, hx, hasleep, -, hexpiry⟩ := (hs.fibers w.this).waits w hw rfl
    exact ⟨tm, sleepsOn hx hasleep, hexpiry⟩
  once := hs.once
  deleted f x hx := (hs.fibers f).deleted x hx
  returned f x hx hterminated := hs.returned hx hterminated
  next t hloop := hs.next_isSome hloop

end IoContext

theorem sleepingFibers_onePending {ι : Type} [Fintype ι] [DecidableEq ι] {s : IoContext ι}
    (h : (ioContext ι).Reachable s) : s.OnePending :=
  (IoContext.inv_reachable h).onePending

/-- Thread 0 starts a fiber that starts another, on thread 1; both sleep, and the second
wakes on thread 0 and returns. -/
theorem sleepingFibers_onePending_woken : ∃ s : IoContext (Fin 2),
    (ioContext (Fin 2)).Reachable s ∧ s.OnePending ∧
      s.waits = [⟨1, 0, some 5⟩] ∧ s.deleted.map Prod.fst = [1] := by
  obtain ⟨s, hs, hp⟩ := Machine.exists_reachable_of_exec (M := ioContext (Fin 2))
    ([.go 0 (.go (.sleepFor 7 .return_) (.sleepFor 5 .return_)), .dispatch 0 0,
      .next 0, .next 0, .next 0, .dispatch 1 1] ++ List.replicate 8 (.next 1) ++
      List.replicate 6 (.next 0) ++ [.expire 0 ⟨0, 1, some 7⟩, .next 0, .next 0, .next 0,
      .dispatch 0 1] ++ List.replicate 7 (.next 0))
    (p := fun s => s.waits = [⟨1, 0, some 5⟩] ∧ s.deleted.map Prod.fst = [1]) (by decide)
  exact ⟨s, hs, sleepingFibers_onePending hs, of_decide_eq_true hp⟩

end ConcurrentProgramming.Fibers.SleepFor
