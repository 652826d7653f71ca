import ConcurrentProgramming.Interleaving.ConditionVariable
import ConcurrentProgramming.Interleaving.Machine
import ConcurrentProgramming.Fast.Coordinator
import Mathlib.Data.Fintype.Card

/-!
The books of the coordinator over whole runs: the constructor links the workers one
after the other, they park, come back and leave for good, and any thread changes the
permission. One step is one section of `balance_changes_`.
-/

set_option autoImplicit false

namespace ConcurrentProgramming.Fast
open Interleaving

/-- `parked` lasts as long as the wait in `TryParkMe`. -/
inductive WorkerLife where
  | unbuilt
  | running
  | parked
  | released
  deriving DecidableEq, Repr

structure Coordination (n : Nat) where
  coordinator : Coordinator (Fin n)
  sleeper : ConditionVariable (Fin n)
  life : Fin n → WorkerLife

/-- `woken` is whom a `notify_one` reaches. -/
inductive CoordinationLabel (n : Nat) where
  | construct (w : Fin n)
  | tryParkMe (w : Fin n)
  | spurious (w : Fin n)
  | reacquire (w : Fin n)
  | release (w : Fin n)
  | giveVictim (w : Fin n) (seed : Nat)
  | prohibitParking (woken : Option (Fin n))
  | allowParking
  | awakeOne (woken : Option (Fin n))
  | awakeEveryone
  | awakeEveryoneForever
  deriving DecidableEq, Repr

namespace Coordination

def goto {n : Nat} (s : Coordination n) (w : Fin n) (life : WorkerLife) : Coordination n :=
  { s with life := Function.update s.life w life }

/-- The pool starts its workers once all of them are constructed. -/
def started {n : Nat} (s : Coordination n) (w : Fin n) : Bool :=
  s.life w = .running ∧ ∀ v, s.life v ≠ .unbuilt

def construct {n : Nat} (s : Coordination n) (w : Fin n) : Option (Coordination n) :=
  if s.life w = .unbuilt ∧ ∀ v < w, s.life v ≠ .unbuilt then
    some { s.goto w .running with coordinator := s.coordinator.acquireUnsafe w }
  else none

/-- `TryParkMe` up to the wait. -/
def tryParkMe {n : Nat} (s : Coordination n) (w : Fin n) : Option (Coordination n) :=
  if s.coordinator.permission = .allowed then
    (s.coordinator.unlink w).map fun coordinator =>
      { s.goto w .parked with coordinator := coordinator, sleeper := s.sleeper.wait w }
  else some s

/-- `TryParkMe` from the wait on. -/
def reacquire {n : Nat} (s : Coordination n) (w : Fin n) : Option (Coordination n) :=
  (s.sleeper.resume w).map fun sleeper =>
    { s.goto w .running with
      coordinator := s.coordinator.acquireUnsafe w, sleeper := sleeper }

def release {n : Nat} (s : Coordination n) (w : Fin n) : Option (Coordination n) :=
  (s.coordinator.release w).map fun coordinator =>
    { s.goto w .released with coordinator := coordinator }

def notifyOne {n : Nat} (s : Coordination n) (woken : Option (Fin n)) :
    Option (Coordination n) :=
  (s.sleeper.notifyOne woken).map fun sleeper => { s with sleeper := sleeper }

def step {n : Nat} (s : Coordination n) : CoordinationLabel n → Option (Coordination n)
  | .construct w => s.construct w
  | .tryParkMe w => if s.started w then s.tryParkMe w else none
  | .spurious w => (s.sleeper.wake w).map fun sleeper => { s with sleeper := sleeper }
  | .reacquire w => s.reacquire w
  | .release w => if s.started w then s.release w else none
  | .giveVictim w seed =>
    if s.started w then (s.coordinator.giveVictim seed).map fun _ => s else none
  | .prohibitParking woken =>
    ({ s with coordinator := s.coordinator.prohibitParking } : Coordination n).notifyOne woken
  | .allowParking => some { s with coordinator := s.coordinator.allowParking }
  | .awakeOne woken => s.notifyOne woken
  | .awakeEveryone => some { s with sleeper := s.sleeper.notifyAll }
  | .awakeEveryoneForever =>
    some { s with
      coordinator := s.coordinator.awakeEveryoneForever, sleeper := s.sleeper.notifyAll }

end Coordination

def coordination (n : Nat) : Machine (Coordination n) (CoordinationLabel n) where
  init := ⟨⟨[], [], fun _ => .active, ⟨0⟩, .allowed⟩, .new _, fun _ => .unbuilt⟩
  step := Coordination.step

/-! What the loops of `RebalanceUnsafe` do. -/

theorem shift_length {W : Type} [DecidableEq W] (mark : Stealing) (from_ other : List W)
    (impudence : W → Stealing) :
    (shift mark from_ other impudence).1.length ≤ (shift mark from_ other impudence).2.1.length ∧
      (other.length < from_.length → (shift mark from_ other impudence).2.1.length ≤
        (shift mark from_ other impudence).1.length + 1) ∧
      (from_.length ≤ other.length →
        shift mark from_ other impudence = (from_, other, impudence)) := by
  induction from_ generalizing other impudence with
  | nil => simp [shift]
  | cons node from_ ih =>
    by_cases hlonger : (node :: from_).length > other.length
    · have hrest := ih (node :: other) (Function.update impudence node mark)
      simp only [shift, hlonger, if_true]
      simp only [List.length_cons] at hlonger hrest ⊢
      by_cases hstops : from_.length ≤ other.length + 1
      · rw [hrest.2.2 hstops]
        simp only [List.length_cons]
        omega
      · have hclose := hrest.2.1 (by omega)
        omega
    · unfold shift
      rw [if_neg hlonger]
      exact ⟨Nat.le_of_not_lt hlonger, fun h => (hlonger h).elim, fun _ => rfl⟩

theorem shift_marks {W : Type} [DecidableEq W] {mark k : Stealing} {from_ other : List W}
    {impudence : W → Stealing} (hnodup : (from_ ++ other).Nodup)
    (hfrom : ∀ w ∈ from_, impudence w = k) (hother : ∀ w ∈ other, impudence w = mark) :
    (∀ w ∈ (shift mark from_ other impudence).1,
        (shift mark from_ other impudence).2.2 w = k) ∧
      ∀ w ∈ (shift mark from_ other impudence).2.1,
        (shift mark from_ other impudence).2.2 w = mark := by
  induction from_ generalizing other impudence with
  | nil => exact ⟨hfrom, hother⟩
  | cons node from_ ih =>
    unfold shift
    split
    · rw [List.cons_append, List.nodup_cons, List.mem_append, not_or] at hnodup
      obtain ⟨hnode, hrest⟩ := hnodup
      have hfresh {w : W} (hw : w ≠ node) : Function.update impudence node mark w = impudence w :=
        Function.update_of_ne hw _ _
      apply ih (List.perm_middle.nodup_iff.mpr (List.nodup_cons.mpr ⟨by simp [hnode], hrest⟩))
      · intro w hw
        rw [hfresh fun he => hnode.1 (he ▸ hw)]
        exact hfrom w (List.mem_cons_of_mem _ hw)
      · intro w hw
        rcases List.mem_cons.mp hw with rfl | hw
        · exact Function.update_self _ _ _
        · rw [hfresh fun he => hnode.2 (he ▸ hw)]
          exact hother w hw
    · exact ⟨hfrom, hother⟩

namespace Coordinator

/-- Half of the linked workers are allowed to steal. -/
def Balanced {W : Type} (c : Coordinator W) : Prop :=
  c.passive.length ≤ c.active.length ∧ c.active.length ≤ c.passive.length + 1

/-- `impudence_` says which list a worker is linked in. -/
structure Flagged {W : Type} (c : Coordinator W) : Prop where
  active : ∀ w ∈ c.active, c.impudence w = .active
  passive : ∀ w ∈ c.passive, c.impudence w = .passive

theorem rebalanceUnsafe_balanced {W : Type} [DecidableEq W] (c : Coordinator W) :
    c.rebalanceUnsafe.Balanced := by
  have hdemoted := shift_length .passive c.active.reverse c.passive c.impudence
  unfold rebalanceUnsafe Balanced
  simp only
  generalize shift .passive c.active.reverse c.passive c.impudence = demoted at hdemoted ⊢
  have hpromoted := shift_length .active demoted.2.1.reverse demoted.1.reverse demoted.2.2
  simp only [List.length_reverse] at hdemoted hpromoted ⊢
  obtain ⟨hle, -, -⟩ := hdemoted
  by_cases hlonger : demoted.1.length < demoted.2.1.length
  · exact ⟨hpromoted.1, hpromoted.2.1 hlonger⟩
  · rw [hpromoted.2.2 (by omega)]
    simp only [List.length_reverse]
    omega

theorem rebalanceUnsafe_flagged {W : Type} [DecidableEq W] {c : Coordinator W}
    (hnodup : c.linked.Nodup) (h : c.Flagged) : c.rebalanceUnsafe.Flagged := by
  have hactive : (c.active.reverse ++ c.passive).Nodup :=
    (List.Perm.append_right _ (List.reverse_perm _)).nodup_iff.mpr hnodup
  have hmarks := shift_marks (k := .active) hactive
    (fun w hw => h.active w (List.mem_reverse.mp hw)) h.passive
  have hperm := shift_perm .passive c.active.reverse c.passive c.impudence
  unfold rebalanceUnsafe
  simp only
  generalize shift .passive c.active.reverse c.passive c.impudence = demoted at hmarks hperm ⊢
  have hboth : (demoted.2.1.reverse ++ demoted.1.reverse).Nodup := by
    have hdemoted := hperm.nodup_iff.mpr hactive
    have hswap := (List.Perm.append (List.reverse_perm demoted.2.1)
      (List.reverse_perm demoted.1)).trans List.perm_append_comm
    exact hswap.nodup_iff.mpr hdemoted
  have hback := shift_marks (k := .passive) hboth
    (fun w hw => hmarks.2 w (List.mem_reverse.mp hw))
    (fun w hw => hmarks.1 w (List.mem_reverse.mp hw))
  exact ⟨hback.2, fun w hw => hback.1 w (List.mem_reverse.mp hw)⟩

theorem Flagged.acquireUnsafe {W : Type} [DecidableEq W] {c : Coordinator W} (h : c.Flagged)
    (hnodup : c.linked.Nodup) {w : W} (hw : w ∉ c.linked) : (c.acquireUnsafe w).Flagged := by
  have hne {v : W} (hv : v ∈ c.linked) : v ≠ w := fun he => hw (he ▸ hv)
  apply rebalanceUnsafe_flagged
  · exact List.nodup_cons.mpr ⟨hw, hnodup⟩
  · constructor
    · intro v hv
      rcases List.mem_cons.mp hv with rfl | hv
      · exact Function.update_self _ _ _
      · exact (Function.update_of_ne (hne (List.mem_append_left _ hv)) _ _).trans (h.active v hv)
    · intro v hv
      exact (Function.update_of_ne (hne (List.mem_append_right _ hv)) _ _).trans (h.passive v hv)

theorem Flagged.unlink {W : Type} [DecidableEq W] {c c' : Coordinator W} (h : c.Flagged) {w : W}
    (hc : c.unlink w = some c') : c'.Flagged := by
  obtain ⟨waiter, -, rfl⟩ := Option.map_eq_some_iff.mp hc
  exact ⟨fun v hv => h.active v (List.mem_of_mem_erase hv),
    fun v hv => h.passive v (List.mem_of_mem_erase hv)⟩

end Coordinator

namespace Coordination

/-- What the books say while `balance_changes_` is free. The counter is a `uint32_t`
and has room for as many workers as `bounded` says. -/
structure Consistent {n : Nat} (s : Coordination n) : Prop where
  nodup : (s.coordinator.active ++ s.coordinator.passive).Nodup
  linked : ∀ w, w ∈ s.coordinator.active ++ s.coordinator.passive ↔ s.life w = .running
  impudence : ∀ w ∈ s.coordinator.active ++ s.coordinator.passive,
    s.coordinator.impudence w = .active ↔ w ∈ s.coordinator.active
  counter : s.coordinator.waiter.counter =
    s.coordinator.active.length + s.coordinator.passive.length
  bounded : s.coordinator.waiter.counter ≤ n
  asserted : ∀ w, s.started w = true →
    (s.tryParkMe w).isSome = true ∧ (s.release w).isSome = true
  victim : ∀ w, s.started w = true → ∀ seed, 0 < s.coordinator.active.length +
    s.coordinator.passive.length ∧ ∃ v, s.coordinator.giveVictim seed = some v ∧
      v ∈ s.coordinator.active ++ s.coordinator.passive

structure Inv {n : Nat} (s : Coordination n) : Prop where
  linked : s.coordinator.Linked fun w => s.life w = .running
  flagged : s.coordinator.Flagged
  sleeping : s.sleeper.Tracks fun w => s.life w = .parked

theorem goto_life {n : Nat} {s : Coordination n} {w v : Fin n} {a b : WorkerLife} :
    (s.goto w a).life v = b ↔ v = w ∧ a = b ∨ v ≠ w ∧ s.life v = b := by
  by_cases hv : v = w
  · subst hv
    simp [goto]
  · simp [goto, hv]

theorem life_ne {n : Nat} {s : Coordination n} {w : Fin n} {b : WorkerLife} (hw : s.life w ≠ b)
    (v : Fin n) : s.life v = b ↔ v ≠ w ∧ s.life v = b := by
  constructor
  · intro hv
    exact ⟨fun he => hw (he ▸ hv), hv⟩
  · exact And.right

/-- Worker `w` goes on, with the lists and the sleepers that this leaves. -/
theorem Inv.goto {n : Nat} {s : Coordination n} {w : Fin n} {life : WorkerLife}
    {coordinator : Coordinator (Fin n)} {sleeper : ConditionVariable (Fin n)}
    (hlinked : coordinator.Linked fun v =>
      v = w ∧ life = .running ∨ v ≠ w ∧ s.life v = .running)
    (hflagged : coordinator.Flagged)
    (hsleeping : sleeper.Tracks fun v => v = w ∧ life = .parked ∨ v ≠ w ∧ s.life v = .parked) :
    Inv { s.goto w life with coordinator := coordinator, sleeper := sleeper } :=
  ⟨hlinked.congr fun _ => goto_life, hflagged, hsleeping.congr fun _ => goto_life.symm⟩

theorem Inv.not_linked {n : Nat} {s : Coordination n} (hs : s.Inv) {w : Fin n}
    (hw : s.life w ≠ .running) : w ∉ s.coordinator.linked := by
  rw [hs.linked.mem]
  exact hw

theorem Inv.construct {n : Nat} {s t : Coordination n} (hs : s.Inv) {w : Fin n}
    (h : s.construct w = some t) : t.Inv := by
  simp only [Coordination.construct, Option.ite_none_right_eq_some, Option.some.injEq] at h
  obtain ⟨⟨hw, -⟩, rfl⟩ := h
  have hout : s.life w ≠ .running := by simp [hw]
  apply Inv.goto
  · apply (hs.linked.acquireUnsafe hout).congr
    intro v
    rw [life_ne hout v]
    tauto
  · exact hs.flagged.acquireUnsafe hs.linked.nodup (hs.not_linked hout)
  · apply hs.sleeping.congr
    intro v
    rw [life_ne (b := .parked) (by simp [hw] : s.life w ≠ .parked) v]
    simp

theorem Inv.tryParkMe {n : Nat} {s t : Coordination n} (hs : s.Inv) {w : Fin n}
    (hw : s.life w = .running) (h : s.tryParkMe w = some t) : t.Inv := by
  unfold Coordination.tryParkMe at h
  split at h
  · obtain ⟨c, hc, rfl⟩ := Option.map_eq_some_iff.mp h
    have hout : s.life w ≠ .parked := by simp [hw]
    apply Inv.goto
    · apply (hs.linked.unlink hw hc).2.congr
      simp
    · exact hs.flagged.unlink hc
    · apply (hs.sleeping.wait hout).congr
      intro v
      rw [life_ne hout v]
      tauto
  · exact Option.some.inj h ▸ hs

theorem Inv.reacquire {n : Nat} {s t : Coordination n} (hs : s.Inv) {w : Fin n}
    (h : s.reacquire w = some t) : t.Inv := by
  obtain ⟨sleeper, hsleeper, rfl⟩ := Option.map_eq_some_iff.mp h
  have hparked : s.life w = .parked :=
    (hs.sleeping.mem w).mp (List.mem_append_right _ (ConditionVariable.resume_eq hsleeper).1)
  have hout : s.life w ≠ .running := by simp [hparked]
  apply Inv.goto
  · apply (hs.linked.acquireUnsafe hout).congr
    intro v
    rw [life_ne hout v]
    tauto
  · exact hs.flagged.acquireUnsafe hs.linked.nodup (hs.not_linked hout)
  · apply (hs.sleeping.resume hsleeper).congr
    simp

theorem Inv.release {n : Nat} {s t : Coordination n} (hs : s.Inv) {w : Fin n}
    (hw : s.life w = .running) (h : s.release w = some t) : t.Inv := by
  obtain ⟨c, hc, rfl⟩ := Option.map_eq_some_iff.mp h
  apply Inv.goto
  · apply (hs.linked.release hw hc).2.congr
    simp
  · obtain ⟨d, hd, rfl⟩ := Option.map_eq_some_iff.mp hc
    exact Coordinator.rebalanceUnsafe_flagged (hs.linked.unlink hw hd).2.nodup
      (hs.flagged.unlink hd)
  · apply hs.sleeping.congr
    intro v
    rw [life_ne (b := .parked) (by simp [hw] : s.life w ≠ .parked) v]
    simp

/-- The permission has no part in the books. -/
theorem Inv.permission {n : Nat} {s : Coordination n} (hs : s.Inv) (permission : SleepingState) :
    Inv { s with coordinator := { s.coordinator with permission := permission } } :=
  ⟨⟨hs.linked.nodup, hs.linked.mem, hs.linked.counter⟩, ⟨hs.flagged.active, hs.flagged.passive⟩,
    hs.sleeping⟩

theorem Inv.notifyOne {n : Nat} {s t : Coordination n} (hs : s.Inv) {woken : Option (Fin n)}
    (h : s.notifyOne woken = some t) : t.Inv := by
  obtain ⟨sleeper, hsleeper, rfl⟩ := Option.map_eq_some_iff.mp h
  exact ⟨hs.linked, hs.flagged, hs.sleeping.notifyOne hsleeper⟩

theorem Inv.prohibitParking {n : Nat} {s : Coordination n} (hs : s.Inv) :
    Inv { s with coordinator := s.coordinator.prohibitParking } := by
  unfold Coordinator.prohibitParking
  split
  · exact hs.permission _
  · exact hs

theorem Inv.allowParking {n : Nat} {s : Coordination n} (hs : s.Inv) :
    Inv { s with coordinator := s.coordinator.allowParking } := by
  unfold Coordinator.allowParking
  split
  · exact hs.permission _
  · exact hs

theorem started_running {n : Nat} {s : Coordination n} {w : Fin n} (h : s.started w = true) :
    s.life w = .running := by
  simp only [started, Bool.decide_and, Bool.and_eq_true, decide_eq_true_eq] at h
  exact h.1

theorem Inv.step {n : Nat} {s t : Coordination n} {l : CoordinationLabel n} (hs : s.Inv)
    (h : s.step l = some t) : t.Inv := by
  cases l with
  | construct w => exact hs.construct h
  | tryParkMe w =>
    simp only [Coordination.step, Option.ite_none_right_eq_some] at h
    exact hs.tryParkMe (started_running h.1) h.2
  | spurious w =>
    obtain ⟨sleeper, hsleeper, rfl⟩ := Option.map_eq_some_iff.mp h
    exact ⟨hs.linked, hs.flagged, hs.sleeping.wake hsleeper⟩
  | reacquire w => exact hs.reacquire h
  | release w =>
    simp only [Coordination.step, Option.ite_none_right_eq_some] at h
    exact hs.release (started_running h.1) h.2
  | giveVictim w seed =>
    simp only [Coordination.step, Option.ite_none_right_eq_some] at h
    obtain ⟨v, -, rfl⟩ := Option.map_eq_some_iff.mp h.2
    exact hs
  | prohibitParking woken => exact hs.prohibitParking.notifyOne h
  | allowParking => exact Option.some.inj h ▸ hs.allowParking
  | awakeOne woken => exact hs.notifyOne h
  | awakeEveryone =>
    obtain rfl := Option.some.inj h
    exact ⟨hs.linked, hs.flagged, hs.sleeping.notifyAll⟩
  | awakeEveryoneForever =>
    obtain rfl := Option.some.inj h
    have hforever := hs.permission .permanentlyProhibited
    exact ⟨hforever.linked, hforever.flagged, hs.sleeping.notifyAll⟩

theorem inv_init (n : Nat) : (coordination n).init.Inv :=
  ⟨⟨List.nodup_nil, by simp [coordination, Coordinator.linked], rfl⟩, ⟨nofun, nofun⟩,
    ConditionVariable.tracks_new (by simp [coordination])⟩

end Coordination

theorem coordination_inv {n : Nat} {s : Coordination n} (h : (coordination n).Reachable s) :
    s.Inv :=
  h.invariant (Coordination.inv_init n) fun _ _ _ _ hs hl => hs.step hl

/-! The assertion of `DecrementValue` and the division of `GiveVictim`. -/

theorem Coordinator.Linked.exists_unlink {W : Type} [DecidableEq W] {c : Coordinator W}
    {linked : W → Prop} (h : c.Linked linked) {w : W} (hw : linked w) :
    ∃ d, c.unlink w = some d := by
  have hcounter : c.waiter.counter ≠ 0 := fun hzero => h.none_of_counter hzero w hw
  have hwaiter : c.waiter.decrementValue = some ⟨c.waiter.counter - 1⟩ := if_neg hcounter
  exact ⟨_, by rw [Coordinator.unlink, hwaiter, Option.map_some]⟩

theorem Coordinator.giveVictim_linked {W : Type} (c : Coordinator W)
    (h : 0 < c.active.length + c.passive.length) (seed : Nat) :
    ∃ v, c.giveVictim seed = some v ∧ v ∈ c.active ++ c.passive := by
  have hplace := Nat.mod_lt seed h
  unfold giveVictim
  rw [if_neg (by omega)]
  simp only
  split
  · rename_i hactive
    exact ⟨_, List.getElem?_eq_getElem hactive, by simp⟩
  · exact ⟨_, List.getElem?_eq_getElem (by omega), by simp⟩

theorem Coordination.Inv.consistent {n : Nat} {s : Coordination n} (hs : s.Inv) :
    s.Consistent := by
  refine ⟨hs.linked.nodup, hs.linked.mem, fun w hw => ⟨fun hflag => ?_, hs.flagged.active w⟩, ?_,
    ?_, fun w hw => ?_, fun w hw seed => ?_⟩
  · rcases List.mem_append.mp hw with hw | hw
    · exact hw
    · cases hflag.symm.trans (hs.flagged.passive w hw)
  · rw [hs.linked.counter, Coordinator.linked, List.length_append]
  · exact hs.linked.counter_le
  · obtain ⟨d, hd⟩ := hs.linked.exists_unlink (started_running hw)
    refine ⟨?_, by simp [Coordination.release, Coordinator.release, hd]⟩
    unfold Coordination.tryParkMe
    split <;> simp [hd]
  · have hmem := (hs.linked.mem w).mpr (started_running hw)
    have hpos := List.length_pos_of_mem hmem
    rw [Coordinator.linked, List.length_append] at hpos
    exact ⟨hpos, s.coordinator.giveVictim_linked hpos seed⟩

/-- The books of the coordinator are right whenever `balance_changes_` is free. -/
theorem coordinator_consistent {n : Nat} {s : Coordination n} (h : (coordination n).Reachable s) :
    s.Consistent :=
  (coordination_inv h).consistent

/-- Three workers; one of them has parked and been woken for no reason. -/
theorem coordinator_consistent_spurious :
    ∃ s, (coordination 3).Reachable s ∧ s.life 1 = .running ∧ s.coordinator.active.length = 2 ∧
      s.Consistent := by
  have h : (coordination 3).Reachable _ := Machine.reachable_of_exec
    [.construct 0, .construct 1, .construct 2, .tryParkMe 1, .spurious 1, .giveVictim 2 7,
      .reacquire 1] rfl
  exact ⟨_, h, rfl, rfl, coordinator_consistent h⟩

/-- As many workers steal as not, up to one, and never none of those that run. -/
structure Coordination.HalfThieves {n : Nat} (s : Coordination n) : Prop where
  balanced : s.coordinator.Balanced
  thief : (∃ w, s.life w = .running) →
    ∃ w, s.life w = .running ∧ s.coordinator.impudence w = .active

/-- A worker parks only out of the list that can spare it. -/
def Coordination.sparesParked {n : Nat} (s : Coordination n) : CoordinationLabel n → Bool
  | .tryParkMe w => s.coordinator.permission ≠ .allowed ∨
    (w ∈ s.coordinator.active ↔ s.coordinator.passive.length < s.coordinator.active.length)
  | _ => true

theorem Coordination.Inv.thief {n : Nat} {s : Coordination n} (hs : s.Inv)
    (h : s.coordinator.Balanced) : s.HalfThieves := by
  refine ⟨h, fun ⟨w, hw⟩ => ?_⟩
  have hlinked := List.length_pos_of_mem ((hs.linked.mem w).mpr hw)
  rw [Coordinator.linked, List.length_append] at hlinked
  have hpos : 0 < s.coordinator.active.length := by
    have := h.1
    omega
  obtain ⟨v, hv⟩ := List.exists_mem_of_length_pos hpos
  exact ⟨v, (hs.linked.mem v).mp (List.mem_append_left _ hv), hs.flagged.active v hv⟩

theorem Coordinator.unlink_length {W : Type} [DecidableEq W] {c d : Coordinator W} {w : W}
    (hnodup : c.linked.Nodup) (hw : w ∈ c.linked) (h : c.unlink w = some d) :
    w ∈ c.active ∧ d.active.length + 1 = c.active.length ∧ d.passive.length = c.passive.length ∨
      w ∉ c.active ∧ d.active.length = c.active.length ∧
        d.passive.length + 1 = c.passive.length := by
  obtain ⟨waiter, -, rfl⟩ := Option.map_eq_some_iff.mp h
  have hdisjoint := List.disjoint_of_nodup_append hnodup
  by_cases hactive : w ∈ c.active
  · have hpassive : w ∉ c.passive := fun hpassive => hdisjoint hactive hpassive
    have hlength := List.length_pos_of_mem hactive
    refine .inl ⟨hactive, ?_, by simp [List.erase_of_not_mem hpassive]⟩
    simp only [List.length_erase_of_mem hactive]
    omega
  · have hpassive : w ∈ c.passive := (List.mem_append.mp hw).resolve_left hactive
    have hlength := List.length_pos_of_mem hpassive
    refine .inr ⟨hactive, by simp [List.erase_of_not_mem hactive], ?_⟩
    simp only [List.length_erase_of_mem hpassive]
    omega

/-- Every way into the lists and out of them balances them, but for parking. -/
theorem Coordination.Inv.balanced_iff {n : Nat} {s t : Coordination n} {l : CoordinationLabel n}
    (hs : s.Inv) (hbalanced : s.coordinator.Balanced) (h : s.step l = some t) :
    t.coordinator.Balanced ↔ s.sparesParked l = true := by
  cases l with
  | construct w =>
    simp only [Coordination.step, Coordination.construct, Option.ite_none_right_eq_some, Option.some.injEq] at h
    obtain ⟨-, rfl⟩ := h
    exact iff_of_true (Coordinator.rebalanceUnsafe_balanced _) rfl
  | tryParkMe w =>
    simp only [Coordination.step, Option.ite_none_right_eq_some] at h
    obtain ⟨hw, h⟩ := h
    unfold Coordination.tryParkMe at h
    split at h
    · rename_i hallowed
      obtain ⟨d, hd, rfl⟩ := Option.map_eq_some_iff.mp h
      have hmem := (hs.linked.mem w).mpr (started_running hw)
      have hlength := Coordinator.unlink_length hs.linked.nodup hmem hd
      simp only [sparesParked, hallowed, ne_eq, not_true_eq_false, false_or, decide_eq_true_eq]
      unfold Coordinator.Balanced at hbalanced ⊢
      rcases hlength with ⟨hactive, hlengths⟩ | ⟨hactive, hlengths⟩
      · simp only [hactive, true_iff]
        omega
      · simp only [hactive, false_iff]
        omega
    · rename_i hforbidden
      obtain rfl := Option.some.inj h
      exact iff_of_true hbalanced (by simp [sparesParked, hforbidden])
  | spurious w | awakeOne w =>
    obtain ⟨sleeper, -, rfl⟩ := Option.map_eq_some_iff.mp h
    exact iff_of_true hbalanced rfl
  | reacquire w =>
    obtain ⟨sleeper, -, rfl⟩ := Option.map_eq_some_iff.mp h
    exact iff_of_true (Coordinator.rebalanceUnsafe_balanced _) rfl
  | release w =>
    simp only [Coordination.step, Option.ite_none_right_eq_some] at h
    obtain ⟨c, hc, rfl⟩ := Option.map_eq_some_iff.mp h.2
    obtain ⟨d, -, rfl⟩ := Option.map_eq_some_iff.mp hc
    exact iff_of_true (Coordinator.rebalanceUnsafe_balanced _) rfl
  | giveVictim w seed =>
    simp only [Coordination.step, Option.ite_none_right_eq_some] at h
    obtain ⟨v, -, rfl⟩ := Option.map_eq_some_iff.mp h.2
    exact iff_of_true hbalanced rfl
  | prohibitParking woken =>
    obtain ⟨sleeper, -, rfl⟩ := Option.map_eq_some_iff.mp h
    refine iff_of_true ?_ rfl
    unfold Coordinator.prohibitParking
    split <;> exact hbalanced
  | allowParking =>
    obtain rfl := Option.some.inj h
    refine iff_of_true ?_ rfl
    unfold Coordinator.allowParking
    split <;> exact hbalanced
  | awakeEveryone | awakeEveryoneForever =>
    obtain rfl := Option.some.inj h
    exact iff_of_true hbalanced rfl

/-- `RebalanceUnsafe` balances any two lists; a run keeps half of its workers
thieves exactly if each worker that parks does so out of the longer list. -/
theorem halfThieves_iff_spared {W : Type} [DecidableEq W] {n : Nat}
    {ls : List (CoordinationLabel n)} {t : Coordination n}
    (h : (coordination n).exec (coordination n).init ls = some t) :
    (∀ c : Coordinator W, c.rebalanceUnsafe.linked.Perm c.linked ∧ c.rebalanceUnsafe.Balanced) ∧
      ((∀ k s, (coordination n).exec (coordination n).init (ls.take k) = some s → s.HalfThieves) ↔
        ((coordination n).guard Coordination.sparesParked).exec (coordination n).init ls =
          some t) := by
  refine ⟨fun c => ⟨c.rebalanceUnsafe_linked, c.rebalanceUnsafe_balanced⟩, ?_⟩
  refine Machine.Reachable.guard_exec_iff (I := fun s => s.coordinator.Balanced)
    (fun s hs hbalanced => (coordination_inv hs).thief hbalanced) ?_ ?_ .init
    ⟨Nat.le_refl _, Nat.zero_le _⟩ h
  · intro s l u hs hbalanced hl hok
    exact ((coordination_inv hs).balanced_iff hbalanced hl).mpr hok
  · intro s l u hs hbalanced hl hnot hu
    have hok := ((coordination_inv hs).balanced_iff hbalanced hl).mp hu.balanced
    exact Bool.false_ne_true (hnot.symm.trans hok)

/-- Two workers, and the passive one parks: the active one is left. -/
theorem halfThieves_iff_spared_passive :
    ∃ ls t, (coordination 2).exec (coordination 2).init ls = some t ∧ t.life 0 = .parked ∧
      ∀ k s, (coordination 2).exec (coordination 2).init (ls.take k) = some s → s.HalfThieves := by
  have h : (coordination 2).exec (coordination 2).init
      [.construct 0, .construct 1, .tryParkMe 0] = some _ := rfl
  exact ⟨_, _, h, rfl, (halfThieves_iff_spared (W := Nat) h).2.mpr rfl⟩

/-- Two workers, and the active one parks: the only worker that runs is passive. -/
theorem halfThieves_lost :
    ∃ s, (coordination 2).Reachable s ∧ s.life 0 = .running ∧ s.life 1 = .parked ∧
      s.coordinator.impudence 0 = .passive ∧ ¬ s.HalfThieves := by
  have h : (coordination 2).Reachable _ := Machine.reachable_of_exec
    [.construct 0, .construct 1, .tryParkMe 1] rfl
  refine ⟨_, h, rfl, rfl, rfl, fun hs => ?_⟩
  have hle := hs.balanced.1
  revert hle
  decide

end ConcurrentProgramming.Fast
