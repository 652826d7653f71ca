import ConcurrentProgramming.Fast.Drain
import ConcurrentProgramming.Fast.Interference
import Mathlib.Algebra.Order.Group.Multiset
import Mathlib.Tactic.Abel

/-!
One push into a worker's ring or LIFO slot, with thieves that come to the ring at
any point of it: what goes to the global queue when the ring is full.
-/

set_option autoImplicit false

namespace ConcurrentProgramming.Fast
open Interleaving

/-- Inside `TryStealTasks`. -/
def Work.stealing {n : Nat} {T : Type} : Work n T → Bool
  | .giveVictim _ | .lowSize _ _ | .steal _ _ _ | .pushStolen _ _ => true
  | _ => false

/-- While a task on worker `w` is inside `Execute`, that call goes on and the
other workers steal. -/
def Pool.duringPush {n : Nat} {O T : Type} (w : Fin n) (s : Pool n O T) : PoolLabel n O T → Bool
  | .worker v _ => v = w || (s.workers v).work.stealing
  | _ => false

/-- What a thief takes out of the ring of `w`. -/
def Pool.stolen {n : Nat} {O T : Type} (w : Fin n) (s : Pool n O T) :
    PoolLabel n O T → List (Option T)
  | .worker v _ =>
    match (s.workers v).work with
    | .steal _ victim limit => if victim = w then (s.workers w).localTasks.take limit else []
    | _ => []
  | _ => []

/-- The second component is what the thieves have got. -/
def pushCall (n : Nat) (O T : Type) [DecidableEq O] (w : Fin n) :
    Machine (Pool n O T × List (Option T)) (PoolLabel n O T) :=
  ((pool n O T).guard (Pool.duringPush w)).observe (Pool.stolen w)

/-- The ring of `w`, its slot, the global queue and the hands of the thieves. -/
def Pool.entries {n : Nat} {O T : Type} (s : Pool n O T) (w : Fin n) (hands : List (Option T)) :
    Multiset (Option T) :=
  (s.workers w).localTasks + ((s.workers w).lifoSlot.toList.map some : List (Option T)) +
    s.global.queue + hands

/-- The task that a call has in its hands. -/
def Execute.pushed {T : Type} : Execute T → Option T
  | .pushToLifoSlot task | .pushToLocalQueue task | .tryPush task => some task
  | _ => none

/-- A call that has found room, or may still find it, and has lost nothing. -/
def Work.Conserving {n : Nat} {T : Type} (running : T) (whole entries : Multiset (Option T)) :
    Work n T → Prop
  | .execute task e => task = running ∧ ∃ next, e.pushed = some next ∧ entries + {some next} = whole
  | .run task => task = running ∧ entries = whole
  | _ => False

/-- A call that has found the ring full: what it grabbed is gone with the new
task, and what is published instead is as long as the array was left unwritten. -/
def Work.Overflowed {n : Nat} {T : Type} (running : T) (whole entries : Multiset (Option T)) :
    Work n T → Prop
  | .execute task (.grab _) => task = running ∧ entries.card + 1 = whole.card
  | .execute task (.offload buffer) | .execute task (.offloadLocked buffer) =>
    task = running ∧ ∃ grabbed, entries.card + buffer.length + 2 * grabbed + 1 =
      whole.card + kLocalQueueCapacity / 2
  | .execute task .awakeOne | .run task =>
    task = running ∧ ∃ grabbed, entries.card + 2 * grabbed + 1 =
      whole.card + kLocalQueueCapacity / 2
  | _ => False

/-- Nothing has been stopped. -/
structure Pool.Open {n : Nat} {O T : Type} (w : Fin n) (s : Pool n O T) : Prop where
  running : (s.workers w).stopped = false
  unclosed : s.global.isClosed = false

theorem Worker.offloaded_length {n : Nat} {T : Type} (x : Worker n T) (overflow : T)
    (uninit : Nat → Option T) : (x.offloaded overflow uninit).length +
      (x.localTasks.take (kLocalQueueCapacity / 2)).length = kLocalQueueCapacity / 2 := by
  simp only [Worker.offloaded, List.length_drop, List.length_append, List.length_cons,
    List.length_map, List.length_range, List.length_take, kLocalQueueCapacity]
  omega

namespace Pool

theorem pushCall_step {n : Nat} {O T : Type} [DecidableEq O] {w : Fin n}
    {s t : Pool n O T × List (Option T)} {l : PoolLabel n O T}
    (h : (pushCall n O T w).step s l = some t) :
    ∃ v c, l = .worker v c ∧ (v = w ∨ v ≠ w ∧ (s.1.workers v).work.stealing = true) ∧
      s.1.workerStep v c = some t.1 ∧ t.2 = s.2 ++ s.1.stolen w l := by
  obtain ⟨hstep, hhands⟩ := Machine.observe_step h
  obtain ⟨hok, hstep⟩ := Machine.guard_step.mp hstep
  cases l with
  | worker v c =>
    refine ⟨v, c, rfl, ?_, hstep, hhands⟩
    by_cases hv : v = w
    · exact .inl hv
    · exact .inr ⟨hv, by simpa [duringPush, hv] using hok⟩
  | _ => simp [duringPush] at hok

/-- A thief leaves the call and the global queue alone; what is missing from the
ring is in its hands. -/
theorem workerStep_stealing {n : Nat} {O T : Type} {s t : Pool n O T} {v w : Fin n}
    {c : Choice n T} (hv : v ≠ w) (hstealing : (s.workers v).work.stealing = true)
    (h : s.workerStep v c = some t) :
    t.global = s.global ∧ ∃ k,
      t.workers w = { s.workers w with localTasks := (s.workers w).localTasks.drop k } ∧
      s.stolen w (.worker v c : PoolLabel n O T) = (s.workers w).localTasks.take k := by
  have apart (x : Worker n T) : (s.setWorker v x).workers w =
      { s.workers w with localTasks := (s.workers w).localTasks.drop 0 } := by
    rw [setWorker_ne s x hv.symm, List.drop_zero]
  cases hw : (s.workers v).work with
  | giveVictim remaining =>
    cases remaining with
    | zero =>
      simp [workerStep, Worker.localStep, globalStep, coordinatorStep, hw] at h
      subst h
      exact ⟨rfl, 0, apart _, by simp [stolen, hw]⟩
    | succ remaining =>
      simp [workerStep, Worker.localStep, globalStep, coordinatorStep, stealStep, hw] at h
      obtain ⟨victim, -, rfl⟩ := h
      exact ⟨rfl, 0, apart _, by simp [stolen, hw]⟩
  | lowSize remaining victim =>
    simp [workerStep, Worker.localStep, globalStep, coordinatorStep, stealStep, hw] at h
    subst h
    exact ⟨rfl, 0, apart _, by simp [stolen, hw]⟩
  | steal remaining victim limit =>
    simp [workerStep, Worker.localStep, globalStep, coordinatorStep, stealStep, hw] at h
    subst h
    refine ⟨rfl, if victim = w then limit else 0, ?_, ?_⟩
    · rw [goto_ne _ _ hv.symm]
      by_cases hvictim : victim = w
      · subst hvictim
        simp
      · rw [setWorker_ne s _ (Ne.symm hvictim)]
        simp [hvictim]
    · by_cases hvictim : victim = w
      · simp [stolen, hw, hvictim]
      · simp [stolen, hw, hvictim]
  | pushStolen first rest =>
    simp [workerStep, Worker.localStep, globalStep, coordinatorStep, stealStep, hw] at h
    obtain ⟨x, -, rfl⟩ := h
    exact ⟨rfl, 0, apart _, by simp [stolen, hw]⟩
  | _ => simp [Work.stealing, hw] at hstealing

theorem entries_setWorker {n : Nat} {O T : Type} (s : Pool n O T) (w : Fin n) (x : Worker n T)
    (hands : List (Option T)) :
    (s.setWorker w x).entries w hands =
      x.localTasks + (x.lifoSlot.toList.map some : List (Option T)) + s.global.queue + hands := by
  rw [entries, setWorker_self]
  rfl

theorem entries_steal {n : Nat} {O T : Type} {s t : Pool n O T} {w : Fin n} {k : Nat}
    (hglobal : t.global = s.global)
    (hw : t.workers w = { s.workers w with localTasks := (s.workers w).localTasks.drop k })
    (hands : List (Option T)) :
    t.entries w (hands ++ (s.workers w).localTasks.take k) = s.entries w hands := by
  have hring : ((s.workers w).localTasks : Multiset (Option T)) =
      (s.workers w).localTasks.take k + (s.workers w).localTasks.drop k := by
    rw [Multiset.coe_add, List.take_append_drop]
  simp only [entries, hglobal, hw]
  rw [hring, ← Multiset.coe_add]
  abel

theorem withoutOverflow_of_ne {n : Nat} {O T : Type} {s : Pool n O T} {w : Fin n} {c : Choice n T}
    (h : ∀ task next, (s.workers w).work ≠ .execute task (.tryPush next)) :
    s.withoutOverflow (.worker w c : PoolLabel n O T) = true := by
  unfold withoutOverflow
  cases hw : (s.workers w).work with
  | execute task e =>
    cases e with
    | tryPush next => exact absurd hw (h task next)
    | _ => simp only [hw]
  | _ => simp only [hw]

/-- A step of the call while it has not found the ring full. -/
theorem conserving_step {n : Nat} {O T : Type} {s t : Pool n O T} {w : Fin n} {c : Choice n T}
    {running : T} {whole : Multiset (Option T)} {hands : List (Option T)} (hs : s.Open w)
    (hwork : (s.workers w).work.Conserving running whole (s.entries w hands))
    (h : s.workerStep w c = some t) :
    t.Open w ∧
      if s.withoutOverflow (.worker w c : PoolLabel n O T) then
        (t.workers w).work.Conserving running whole (t.entries w hands)
      else (t.workers w).work.Overflowed running whole (t.entries w hands) := by
  obtain ⟨hrunning, hopen⟩ := hs
  have goes {x : Worker n T}
      (hx : (s.workers w).localStep (s.coordinator.impudence w) = some x)
      (hstopped : x.stopped = false) : t = s.setWorker w x ∧ t.Open w := by
    obtain rfl := workerStep_local h hx
    exact ⟨rfl, by simpa using hstopped, hopen⟩
  cases hw : (s.workers w).work with
  | run task => simp [workerStep, Worker.localStep, globalStep, coordinatorStep, stealStep, hw] at h
  | execute task e =>
    rw [hw] at hwork
    obtain ⟨rfl, next, hpushed, rfl⟩ := hwork
    cases e with
    | pushToLifoSlot new =>
      obtain rfl := Option.some.inj hpushed
      rw [if_pos (withoutOverflow_of_ne (by simp [hw]))]
      cases hslot : (s.workers w).lifoSlot with
      | none =>
        obtain ⟨rfl, ht⟩ := goes (x := { s.workers w with lifoSlot := some new, work := .run task })
          (by simp [Worker.localStep, hw, hrunning, hslot]) hrunning
        refine ⟨ht, ?_⟩
        rw [setWorker_self, entries_setWorker]
        refine ⟨rfl, ?_⟩
        simp only [entries, hslot, Option.toList_none, Option.toList_some, List.map,
          Multiset.coe_nil, Multiset.coe_singleton]
        abel
      | some old =>
        obtain ⟨rfl, ht⟩ := goes (x := { s.workers w with
            lifoSlot := some new, work := .execute task (.pushToLocalQueue old) })
          (by simp [Worker.localStep, hw, hrunning, hslot]) hrunning
        refine ⟨ht, ?_⟩
        rw [setWorker_self, entries_setWorker]
        refine ⟨rfl, old, rfl, ?_⟩
        simp only [entries, hslot, Option.toList_some, List.map, Multiset.coe_singleton]
        abel
    | pushToLocalQueue new =>
      obtain rfl := Option.some.inj hpushed
      rw [if_pos (withoutOverflow_of_ne (by simp [hw]))]
      obtain ⟨rfl, ht⟩ := goes (x := (s.workers w).goto (.execute task (.tryPush new)))
        (by simp [Worker.localStep, hw, hrunning]) hrunning
      refine ⟨ht, ?_⟩
      rw [setWorker_self, entries_setWorker]
      exact ⟨rfl, new, rfl, rfl⟩
    | tryPush new =>
      obtain rfl := Option.some.inj hpushed
      by_cases hroom : (s.workers w).localTasks.length < kLocalQueueCapacity
      · have hok : s.withoutOverflow (.worker w c : PoolLabel n O T) = true := by
          simpa [withoutOverflow, hw] using hroom
        rw [if_pos hok]
        obtain ⟨rfl, ht⟩ := goes (x := { s.workers w with
            localTasks := (s.workers w).localTasks ++ [some new], work := .run task })
          (by simp [Worker.localStep, hw, hroom]) hrunning
        refine ⟨ht, ?_⟩
        rw [setWorker_self, entries_setWorker]
        refine ⟨rfl, ?_⟩
        simp only [entries, ← Multiset.coe_add, Multiset.coe_singleton]
        abel
      · have hfull : s.withoutOverflow (.worker w c : PoolLabel n O T) = false := by
          simpa [withoutOverflow, hw] using hroom
        rw [hfull]
        obtain ⟨rfl, ht⟩ := goes (x := (s.workers w).goto (.execute task (.grab new)))
          (by simp [Worker.localStep, hw, hroom]) hrunning
        refine ⟨ht, ?_⟩
        rw [setWorker_self, entries_setWorker]
        refine ⟨rfl, ?_⟩
        simp only [entries, Multiset.card_add, Multiset.card_singleton]
        rfl
    | _ => cases hpushed
  | _ => simp [Work.Conserving, hw] at hwork

theorem workerStep_execute {n : Nat} {O T : Type} {s : Pool n O T} {w : Fin n} {c : Choice n T}
    {task : T} {e : Execute T} (hw : (s.workers w).work = .execute task e)
    (he : (∃ overflow, e = .grab overflow) ∨ (∃ buffer, e = .offload buffer) ∨
      (∃ buffer, e = .offloadLocked buffer) ∨ e = .awakeOne) :
    s.workerStep w c = (s.globalStep w <|> s.coordinatorStep w c <|> s.stealStep w c) := by
  rcases he with ⟨overflow, rfl⟩ | ⟨buffer, rfl⟩ | ⟨buffer, rfl⟩ | rfl
  all_goals simp [workerStep, Worker.localStep, hw]

theorem overflowed_step {n : Nat} {O T : Type} {s t : Pool n O T} {w : Fin n} {c : Choice n T}
    {running : T} {whole : Multiset (Option T)} {hands : List (Option T)} (hs : s.Open w)
    (hwork : (s.workers w).work.Overflowed running whole (s.entries w hands))
    (h : s.workerStep w c = some t) :
    t.Open w ∧ (t.workers w).work.Overflowed running whole (t.entries w hands) := by
  obtain ⟨hrunning, hopen⟩ := hs
  cases hw : (s.workers w).work with
  | run task => simp [workerStep, Worker.localStep, globalStep, coordinatorStep, stealStep, hw] at h
  | execute task e =>
    rw [hw] at hwork
    cases e with
    | grab overflow =>
      obtain ⟨rfl, hcard⟩ := hwork
      rw [workerStep_execute hw (.inl ⟨_, rfl⟩)] at h
      obtain rfl : s.setWorker w { s.workers w with
          localTasks := (s.workers w).localTasks.drop (kLocalQueueCapacity / 2)
          work := .execute task (.offload ((s.workers w).offloaded overflow c.uninit)) } = t := by
        simpa [globalStep, coordinatorStep, stealStep, hw] using h
      refine ⟨⟨by simpa using hrunning, hopen⟩, ?_⟩
      rw [setWorker_self, entries_setWorker]
      refine ⟨rfl, ((s.workers w).localTasks.take (kLocalQueueCapacity / 2)).length, ?_⟩
      have hbuffer := (s.workers w).offloaded_length overflow c.uninit
      have hring := congrArg List.length
        (List.take_append_drop (kLocalQueueCapacity / 2) (s.workers w).localTasks)
      rw [List.length_append] at hring
      simp only [entries, Multiset.card_add, Multiset.coe_card] at hcard ⊢
      omega
    | offload buffer =>
      obtain ⟨rfl, hcard⟩ := hwork
      rw [workerStep_execute hw (.inr (.inl ⟨_, rfl⟩))] at h
      obtain rfl : s.goto w (.execute task (.offloadLocked buffer)) = t := by
        simpa [globalStep, hw, hopen] using h
      refine ⟨⟨by simpa [Worker.goto] using hrunning, hopen⟩, ?_⟩
      rw [goto_self]
      refine ⟨rfl, ?_⟩
      simp only [entries, goto_self]
      exact hcard
    | offloadLocked buffer =>
      obtain ⟨rfl, grabbed, hcard⟩ := hwork
      rw [workerStep_execute hw (.inr (.inr (.inl ⟨_, rfl⟩)))] at h
      obtain rfl : { s.goto w (.execute task .awakeOne) with
          global := s.global.offload buffer } = t := by
        simpa [globalStep, hw] using h
      refine ⟨⟨by simpa [Worker.goto] using hrunning, hopen⟩, ?_⟩
      simp only [goto_self]
      refine ⟨rfl, grabbed, ?_⟩
      simp only [entries, goto_self, Multiset.card_add, Multiset.coe_card,
        GlobalQueue.offload_queue, List.length_append, Worker.goto] at hcard ⊢
      omega
    | awakeOne =>
      obtain ⟨rfl, grabbed, hcard⟩ := hwork
      rw [workerStep_execute hw (.inr (.inr (.inr rfl)))] at h
      obtain ⟨u, hu, rfl⟩ : ∃ u, s.notifyOne c.woken = some u ∧ u.goto w (.run task) = t := by
        simpa [globalStep, coordinatorStep, stealStep, hw] using h
      have hsame : u.workers w = s.workers w ∧ u.global = s.global := by
        rcases notifyOne_cases hu with ⟨v, hv, rfl⟩ | ⟨-, rfl⟩
        · have hvw : w ≠ v := by
            rintro rfl
            simp [hw] at hv
          exact ⟨goto_ne s _ hvw, rfl⟩
        · exact ⟨rfl, rfl⟩
      refine ⟨⟨by simpa [Worker.goto, hsame.1] using hrunning, ?_⟩, ?_⟩
      · exact hsame.2 ▸ hopen
      · rw [goto_self]
        refine ⟨rfl, grabbed, ?_⟩
        simp only [entries, goto_self, hsame.1]
        rw [show (u.goto w _).global = s.global from hsame.2]
        exact hcard
    | _ => exact hwork.elim
  | _ => simp [Work.Overflowed, hw] at hwork

/-- A call with thieves, seen from its worker. -/
theorem pushCall_cases {n : Nat} {O T : Type} [DecidableEq O] {w : Fin n}
    {s t : Pool n O T × List (Option T)} {l : PoolLabel n O T} (hs : s.1.Open w)
    (hcall : ∀ limit remaining victim, (s.1.workers w).work ≠ .steal remaining victim limit)
    (h : (pushCall n O T w).step s l = some t) :
    (∃ c, l = .worker w c ∧ s.1.workerStep w c = some t.1 ∧ t.2 = s.2) ∨
      s.1.withoutOverflow l = true ∧ t.1.Open w ∧
        (t.1.workers w).work = (s.1.workers w).work ∧ t.1.entries w t.2 = s.1.entries w s.2 := by
  obtain ⟨v, c, rfl, hv, hstep, hhands⟩ := pushCall_step h
  rcases hv with rfl | ⟨hv, hstealing⟩
  · refine .inl ⟨c, rfl, hstep, ?_⟩
    have hnone : s.1.stolen v (.worker v c : PoolLabel n O T) = [] := by
      cases hw : (s.1.workers v).work with
      | steal remaining victim limit => exact absurd hw (hcall limit remaining victim)
      | _ => simp only [stolen, hw]
    rw [hhands, hnone, List.append_nil]
  · obtain ⟨hglobal, k, hw, hstolen⟩ := workerStep_stealing hv hstealing hstep
    refine .inr ⟨?_, ⟨?_, ?_⟩, ?_, ?_⟩
    · have hpush : ∀ task next, (s.1.workers v).work ≠ .execute task (.tryPush next) := by
        intro task next hwork
        simp [hwork, Work.stealing] at hstealing
      exact withoutOverflow_of_ne hpush
    · rw [hw]
      exact hs.running
    · rw [hglobal]
      exact hs.unclosed
    · rw [hw]
    · rw [hhands, hstolen, entries_steal hglobal hw]

/-- A call that has not found the ring full so far. -/
structure Conserving {n : Nat} {O T : Type} (w : Fin n) (running : T)
    (whole : Multiset (Option T)) (s : Pool n O T × List (Option T)) : Prop where
  open_ : s.1.Open w
  work : (s.1.workers w).work.Conserving running whole (s.1.entries w s.2)

structure Overflowed {n : Nat} {O T : Type} (w : Fin n) (running : T)
    (whole : Multiset (Option T)) (s : Pool n O T × List (Option T)) : Prop where
  open_ : s.1.Open w
  work : (s.1.workers w).work.Overflowed running whole (s.1.entries w s.2)

theorem Conserving.step {n : Nat} {O T : Type} [DecidableEq O] {w : Fin n} {running : T}
    {whole : Multiset (Option T)} {s t : Pool n O T × List (Option T)} {l : PoolLabel n O T}
    (hs : Conserving w running whole s) (h : (pushCall n O T w).step s l = some t) :
    if s.1.withoutOverflow l then Conserving w running whole t else Overflowed w running whole t := by
  have hwork := hs.work
  have hcall : ∀ limit remaining victim, (s.1.workers w).work ≠ .steal remaining victim limit := by
    intro limit remaining victim hw
    simp [hw, Work.Conserving] at hwork
  rcases pushCall_cases hs.open_ hcall h with ⟨c, rfl, hstep, hhands⟩ | ⟨hok, hopen, hw, hentries⟩
  · obtain ⟨hopen, hnext⟩ := conserving_step hs.open_ hwork hstep
    rw [← hhands] at hnext
    split at hnext
    · rename_i hok
      rw [if_pos hok]
      exact ⟨hopen, hnext⟩
    · rename_i hok
      rw [if_neg hok]
      exact ⟨hopen, hnext⟩
  · rw [if_pos hok]
    exact ⟨hopen, by rwa [hw, hentries]⟩

theorem Overflowed.step {n : Nat} {O T : Type} [DecidableEq O] {w : Fin n} {running : T}
    {whole : Multiset (Option T)} {s t : Pool n O T × List (Option T)} {l : PoolLabel n O T}
    (hs : Overflowed w running whole s) (h : (pushCall n O T w).step s l = some t) :
    Overflowed w running whole t := by
  have hwork := hs.work
  have hcall : ∀ limit remaining victim, (s.1.workers w).work ≠ .steal remaining victim limit := by
    intro limit remaining victim hw
    simp [hw, Work.Overflowed] at hwork
  rcases pushCall_cases hs.open_ hcall h with ⟨c, -, hstep, hhands⟩ | ⟨-, hopen, hw, hentries⟩
  · obtain ⟨hopen, hnext⟩ := overflowed_step hs.open_ hwork hstep
    rw [← hhands] at hnext
    exact ⟨hopen, hnext⟩
  · exact ⟨hopen, by rwa [hw, hentries]⟩

/-- The numbers of entries before and after differ by one in parity. -/
theorem Overflowed.lost {n : Nat} {O T : Type} {w : Fin n} {running task : T}
    {whole : Multiset (Option T)} {s : Pool n O T × List (Option T)}
    (hs : Overflowed w running whole s) (hw : (s.1.workers w).work = .run task) :
    s.1.entries w s.2 ≠ whole := by
  have hwork := hs.work
  rw [hw] at hwork
  obtain ⟨-, grabbed, hcard⟩ := hwork
  intro heq
  simp only [heq, kLocalQueueCapacity] at hcard
  omega

/-- A run of the call either keeps within the ring or has overflowed it. -/
theorem Conserving.exec {n : Nat} {O T : Type} [DecidableEq O] {w : Fin n} {running : T}
    {whole : Multiset (Option T)} {s t : Pool n O T × List (Option T)}
    {ls : List (PoolLabel n O T)} (hs : Conserving w running whole s)
    (h : (pushCall n O T w).exec s ls = some t) :
    Conserving w running whole t ∧
        ((pushCall n O T w).guard fun s l => s.1.withoutOverflow l).exec s ls = some t ∨
      Overflowed w running whole t ∧
        ((pushCall n O T w).guard fun s l => s.1.withoutOverflow l).exec s ls = none := by
  induction ls generalizing s with
  | nil =>
    obtain rfl := Option.some.inj h
    exact .inl ⟨hs, rfl⟩
  | cons l ls ih =>
    obtain ⟨u, hu, h⟩ := Option.bind_eq_some_iff.mp h
    have hnext := hs.step hu
    split at hnext
    · rename_i hok
      have hguard : ((pushCall n O T w).guard fun s l => s.1.withoutOverflow l).step s l = some u :=
        Machine.guard_step.mpr ⟨hok, hu⟩
      simpa only [Machine.exec_cons, hguard, Option.bind_some] using ih hnext h
    · rename_i hfull
      refine .inr ⟨?_, by simp [Machine.guard, hfull]⟩
      have hany : ∀ l ∈ ls, True := fun _ _ => trivial
      exact Machine.exec_invariant (fun _ _ _ _ hs ht => Overflowed.step hs ht) hany hnext h

end Pool

/-- Whatever is stolen meanwhile, a push conserves the tasks if and only if no
`TryPush` of it finds the ring full. -/
theorem push_conserves_iff {n : Nat} {O T : Type} [DecidableEq O] {w : Fin n}
    {s t : Pool n O T} {running task : T} {e : Execute T} {hands : List (Option T)}
    {ls : List (PoolLabel n O T)} (hw : (s.workers w).work = .execute running e)
    (he : e = .pushToLocalQueue task ∨ e = .pushToLifoSlot task)
    (hrunning : (s.workers w).stopped = false) (hopen : s.global.isClosed = false)
    (hrun : (pushCall n O T w).exec (s, []) ls = some (t, hands))
    (hreturned : (t.workers w).work = .run running) :
    t.entries w hands = s.entries w [] + {some task} ↔
      ((pushCall n O T w).guard fun s l => s.1.withoutOverflow l).exec (s, []) ls =
        some (t, hands) := by
  have hstart : Pool.Conserving w running (s.entries w [] + {some task}) (s, []) := by
    refine ⟨⟨hrunning, hopen⟩, ?_⟩
    simp only [hw]
    rcases he with rfl | rfl
    · exact ⟨rfl, task, rfl, rfl⟩
    · exact ⟨rfl, task, rfl, rfl⟩
  rcases hstart.exec hrun with ⟨ht, hguard⟩ | ⟨ht, hguard⟩
  · have hwork := ht.work
    simp only [hreturned] at hwork
    exact ⟨fun _ => hguard, fun _ => hwork.2⟩
  · have hlost := ht.lost hreturned
    simp only [hguard, reduceCtorEq, iff_false]
    exact hlost

/-- A thief makes room in a full ring just in time. -/
theorem push_conserves_iff_stolen : ∃ s t hands ls,
    (s.workers 0).localTasks.length = kLocalQueueCapacity ∧ (s.workers 0).lifoSlot = some 900 ∧
      (pushCall 2 (Fin 1) Nat 0).exec (s, []) ls = some (t, hands) ∧ hands.length = 1 ∧
      t.entries 0 hands = s.entries 0 [] + {some 901} := by
  let s : Pool 2 (Fin 1) Nat := { (pool 2 (Fin 1) Nat).init with workers := fun v =>
    if v = 0 then ⟨.execute 7 (.pushToLifoSlot 901), (List.range 256).map some, some 900, 0, 0, false⟩
    else ⟨.steal 0 0 1, [], none, 0, 0, false⟩ }
  let c : Choice 2 Nat := ⟨none, 0, fun _ => none⟩
  obtain ⟨⟨t, hands⟩, h, ht⟩ := Machine.exists_exec
    (M := (pushCall 2 (Fin 1) Nat 0).guard fun s l => s.1.withoutOverflow l) (s := (s, []))
    [.worker 0 c, .worker 0 c, .worker 1 c, .worker 0 c]
    (p := fun t => decide ((t.1.workers 0).work = .run 7 ∧ t.2.length = 1)) (by decide +kernel)
  obtain ⟨hreturned, hhands⟩ := of_decide_eq_true ht
  have hrun := Machine.exec_of_guard h
  exact ⟨s, t, hands, _, by simp [s, kLocalQueueCapacity], rfl, hrun, hhands,
    (push_conserves_iff rfl (.inr rfl) rfl rfl hrun hreturned).mpr h⟩

/-- A ring of 256 tasks and no thief: of the 257 tasks the ring keeps 128, and the
others are gone. -/
theorem push_loses_overflow : ∃ s t hands ls,
    (s.workers 0).work = .execute 7 (.pushToLocalQueue 901) ∧
      (s.workers 0).localTasks = (List.range 256).map some ∧ (s.workers 0).stopped = false ∧
      s.global.isClosed = false ∧
      (pushCall 1 (Fin 1) Nat 0).exec (s, []) ls = some (t, hands) ∧
      (t.workers 0).work = .run 7 ∧ t.entries 0 hands ≠ s.entries 0 [] + {some 901} := by
  let s : Pool 1 (Fin 1) Nat := { (pool 1 (Fin 1) Nat).init with workers := fun _ =>
    ⟨.execute 7 (.pushToLocalQueue 901), (List.range 256).map some, none, 0, 0, false⟩ }
  let c : Choice 1 Nat := ⟨none, 0, fun _ => none⟩
  obtain ⟨⟨t, hands⟩, h, ht⟩ := Machine.exists_exec (M := pushCall 1 (Fin 1) Nat 0) (s := (s, []))
    (List.replicate 6 (.worker 0 c))
    (p := fun t => decide ((t.1.workers 0).work = .run 7 ∧
      (t.1.workers 0).localTasks.length = 128 ∧ (t.1.workers 0).lifoSlot = none ∧
      t.1.global.queue = [] ∧ t.2 = [])) (by decide +kernel)
  obtain ⟨hreturned, hring, hslot, hqueue, hhands⟩ := of_decide_eq_true ht
  refine ⟨s, t, hands, _, rfl, rfl, rfl, rfl, h, hreturned, fun heq => ?_⟩
  have hcard := congrArg Multiset.card heq
  simp only at hhands hring hslot hqueue
  simp [Pool.entries, hring, hslot, hqueue, hhands, s, pool, GlobalQueue.new] at hcard

end ConcurrentProgramming.Fast
