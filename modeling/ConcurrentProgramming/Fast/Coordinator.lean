import ConcurrentProgramming.Fast.GlobalQueue
import Mathlib.Data.Fintype.Card
import Mathlib.Data.List.Nodup
import Mathlib.Data.List.Perm.Basic
import Mathlib.Logic.Function.Basic

/-!
The coordinator of the fast pool: the lists of linked workers and the parking
permission. Each definition is one section of `balance_changes_`; who sleeps in
`sleeper_` is part of the pool.
-/

set_option autoImplicit false

namespace ConcurrentProgramming.Fast

/-- `Worker::Stealing`. -/
inductive Stealing where
  | active
  | passive
  deriving DecidableEq, Repr

inductive SleepingState where
  | allowed
  | temporaryProhibited
  | permanentlyProhibited
  deriving DecidableEq, Repr

/-- `impudence` collects the field of each worker, which is written only here. -/
structure Coordinator (W : Type) where
  active : List W
  passive : List W
  impudence : W → Stealing
  waiter : ZeroWaiter
  permission : SleepingState

/-- One loop of `RebalanceUnsafe`: while `from_` is longer, its last node goes to
the front of the other list. `from_` is given back first. -/
def shift {W : Type} [DecidableEq W] (mark : Stealing) :
    List W → List W → (W → Stealing) → List W × List W × (W → Stealing)
  | [], other, impudence => ([], other, impudence)
  | node :: from_, other, impudence =>
    if (node :: from_).length > other.length then
      shift mark from_ (node :: other) (Function.update impudence node mark)
    else (node :: from_, other, impudence)

namespace Coordinator

def rebalanceUnsafe {W : Type} [DecidableEq W] (c : Coordinator W) : Coordinator W :=
  let demoted := shift .passive c.active.reverse c.passive c.impudence
  let promoted := shift .active demoted.2.1.reverse demoted.1.reverse demoted.2.2
  { c with
    active := promoted.2.1
    passive := promoted.1.reverse
    impudence := promoted.2.2 }

def acquireUnsafe {W : Type} [DecidableEq W] (c : Coordinator W) (w : W) : Coordinator W :=
  rebalanceUnsafe { c with
    waiter := c.waiter.incrementValue
    active := w :: c.active
    impudence := Function.update c.impudence w .active }

/-- `worker.Unlink()` and the decrement that follows it. -/
def unlink {W : Type} [DecidableEq W] (c : Coordinator W) (w : W) : Option (Coordinator W) :=
  c.waiter.decrementValue.map fun waiter =>
    { c with active := c.active.erase w, passive := c.passive.erase w, waiter := waiter }

def release {W : Type} [DecidableEq W] (c : Coordinator W) (w : W) : Option (Coordinator W) :=
  (c.unlink w).map rebalanceUnsafe

def prohibitParking {W : Type} (c : Coordinator W) : Coordinator W :=
  if c.permission ≠ .permanentlyProhibited then { c with permission := .temporaryProhibited }
  else c

def allowParking {W : Type} (c : Coordinator W) : Coordinator W :=
  if c.permission ≠ .permanentlyProhibited then { c with permission := .allowed } else c

def awakeEveryoneForever {W : Type} (c : Coordinator W) : Coordinator W :=
  { c with permission := .permanentlyProhibited }

/-- `none` is the division by zero. -/
def giveVictim {W : Type} (c : Coordinator W) (seed : Nat) : Option W :=
  if c.active.length + c.passive.length = 0 then none
  else
    let place := seed % (c.active.length + c.passive.length)
    if place < c.active.length then c.active[place]? else c.passive[place - c.active.length]?

/-- What the constructors of the workers leave. -/
def new {W : Type} [DecidableEq W] (workers : List W) : Coordinator W :=
  workers.foldl acquireUnsafe ⟨[], [], fun _ => .active, ⟨0⟩, .allowed⟩

def linked {W : Type} (c : Coordinator W) : List W := c.active ++ c.passive

end Coordinator

theorem shift_perm {W : Type} [DecidableEq W] (mark : Stealing) (from_ other : List W)
    (impudence : W → Stealing) :
    ((shift mark from_ other impudence).1 ++ (shift mark from_ other impudence).2.1).Perm
      (from_ ++ other) := by
  induction from_ generalizing other impudence with
  | nil => exact List.Perm.refl _
  | cons node from_ ih =>
    unfold shift
    split
    · have hmove := ih (node :: other) (Function.update impudence node mark)
      exact hmove.trans List.perm_middle
    · exact List.Perm.refl _

namespace Coordinator

@[simp] theorem rebalanceUnsafe_waiter {W : Type} [DecidableEq W] (c : Coordinator W) :
    c.rebalanceUnsafe.waiter = c.waiter := rfl

theorem rebalanceUnsafe_linked {W : Type} [DecidableEq W] (c : Coordinator W) :
    c.rebalanceUnsafe.linked.Perm c.linked := by
  have hdemoted := shift_perm .passive c.active.reverse c.passive c.impudence
  unfold rebalanceUnsafe linked
  simp only
  generalize shift .passive c.active.reverse c.passive c.impudence = demoted at hdemoted ⊢
  have hpromoted := shift_perm .active demoted.2.1.reverse demoted.1.reverse demoted.2.2
  generalize shift .active demoted.2.1.reverse demoted.1.reverse demoted.2.2 = promoted
    at hpromoted ⊢
  calc List.Perm (promoted.2.1 ++ promoted.1.reverse) (promoted.2.1 ++ promoted.1) :=
        List.Perm.append_left _ (List.reverse_perm _)
    List.Perm _ (promoted.1 ++ promoted.2.1) := List.perm_append_comm
    List.Perm _ (demoted.2.1.reverse ++ demoted.1.reverse) := hpromoted
    List.Perm _ (demoted.2.1 ++ demoted.1) :=
        List.Perm.append (List.reverse_perm _) (List.reverse_perm _)
    List.Perm _ (demoted.1 ++ demoted.2.1) := List.perm_append_comm
    List.Perm _ (c.active.reverse ++ c.passive) := hdemoted
    List.Perm _ (c.active ++ c.passive) := List.Perm.append_right _ (List.reverse_perm _)

/-- What the books of the coordinator say about who is linked. -/
structure Linked {W : Type} (c : Coordinator W) (linked : W → Prop) : Prop where
  nodup : c.linked.Nodup
  mem : ∀ w, w ∈ c.linked ↔ linked w
  counter : c.waiter.counter = c.linked.length

theorem Linked.counter_le {n : Nat} {c : Coordinator (Fin n)} {linked : Fin n → Prop}
    (h : c.Linked linked) : c.waiter.counter ≤ n := by
  rw [h.counter]
  simpa using List.Nodup.length_le_card h.nodup

theorem Linked.acquireUnsafe {W : Type} [DecidableEq W] {c : Coordinator W} {linked : W → Prop}
    (h : c.Linked linked) {w : W} (hw : ¬ linked w) :
    (c.acquireUnsafe w).Linked fun v => v = w ∨ linked v := by
  have hperm : (c.acquireUnsafe w).linked.Perm (w :: c.linked) := rebalanceUnsafe_linked _
  constructor
  · rw [hperm.nodup_iff, List.nodup_cons, h.mem]
    exact ⟨hw, h.nodup⟩
  · intro v
    rw [hperm.mem_iff, List.mem_cons, h.mem]
  · rw [hperm.length_eq]
    simp [Coordinator.acquireUnsafe, ZeroWaiter.incrementValue, h.counter]

theorem Linked.unlink {W : Type} [DecidableEq W] {c c' : Coordinator W} {linked : W → Prop}
    (h : c.Linked linked) {w : W} (hw : linked w) (hc : c.unlink w = some c') :
    c'.permission = c.permission ∧ c'.Linked fun v => v ≠ w ∧ linked v := by
  obtain ⟨waiter, hwaiter, rfl⟩ := Option.map_eq_some_iff.mp hc
  have hnodup := h.nodup
  have hmem := h.mem
  have hin := (hmem w).mpr hw
  unfold Coordinator.linked at hnodup hmem hin
  have hdisjoint := List.disjoint_of_nodup_append hnodup
  have hactive := hnodup.of_append_left
  have hpassive := hnodup.of_append_right
  have hcounter := h.counter
  unfold Coordinator.linked at hcounter
  rw [List.length_append] at hcounter
  refine ⟨rfl, ?_, ?_, ?_⟩
  · unfold Coordinator.linked
    apply (hactive.erase w).append (hpassive.erase w)
    intro v hv hv'
    exact hdisjoint (List.mem_of_mem_erase hv) (List.mem_of_mem_erase hv')
  · intro v
    have hv := hmem v
    unfold Coordinator.linked
    rw [List.mem_append] at hv ⊢
    rw [hactive.mem_erase_iff, hpassive.mem_erase_iff, ← hv]
    tauto
  · unfold Coordinator.linked
    rw [List.length_append]
    unfold ZeroWaiter.decrementValue at hwaiter
    split at hwaiter
    · cases hwaiter
    · obtain rfl := Option.some.inj hwaiter
      simp only
      rcases List.mem_append.mp hin with hin | hin
      · have hout : w ∉ c.passive := fun hout => hdisjoint hin hout
        rw [List.erase_of_not_mem hout, List.length_erase_of_mem hin]
        have := List.length_pos_of_mem hin
        omega
      · have hout : w ∉ c.active := fun hout => hdisjoint hout hin
        rw [List.erase_of_not_mem hout, List.length_erase_of_mem hin]
        have := List.length_pos_of_mem hin
        omega

theorem Linked.release {W : Type} [DecidableEq W] {c c' : Coordinator W} {linked : W → Prop}
    (h : c.Linked linked) {w : W} (hw : linked w) (hc : c.release w = some c') :
    c'.permission = c.permission ∧ c'.Linked fun v => v ≠ w ∧ linked v := by
  obtain ⟨d, hd, rfl⟩ := Option.map_eq_some_iff.mp hc
  obtain ⟨hpermission, hlinked⟩ := h.unlink hw hd
  have hperm := rebalanceUnsafe_linked d
  refine ⟨hpermission, hperm.nodup_iff.mpr hlinked.nodup, fun v => ?_, ?_⟩
  · rw [hperm.mem_iff, hlinked.mem]
  · rw [hperm.length_eq]
    exact hlinked.counter

theorem Linked.congr {W : Type} {c : Coordinator W} {linked linked' : W → Prop}
    (h : c.Linked linked) (heq : ∀ w, linked' w ↔ linked w) : c.Linked linked' :=
  ⟨h.nodup, fun w => (h.mem w).trans (heq w).symm, h.counter⟩

theorem Linked.none_of_counter {W : Type} {c : Coordinator W} {linked : W → Prop}
    (h : c.Linked linked) (hcounter : c.waiter.counter = 0) (w : W) : ¬ linked w := by
  intro hw
  have hnil : c.linked = [] := List.length_eq_zero_iff.mp (h.counter.symm.trans hcounter)
  have hw := (h.mem w).mpr hw
  simp [hnil] at hw

theorem new_linked {W : Type} [DecidableEq W] {workers : List W} (h : workers.Nodup) :
    (new workers).Linked (· ∈ workers) := by
  have hfold (workers : List W) (c : Coordinator W) (linked : W → Prop) (hc : c.Linked linked)
      (hnodup : workers.Nodup) (hout : ∀ w ∈ workers, ¬ linked w) :
      (workers.foldl acquireUnsafe c).Linked fun v => v ∈ workers ∨ linked v := by
    induction workers generalizing c linked with
    | nil => exact hc.congr (by simp)
    | cons w workers ih =>
      have hw := hc.acquireUnsafe (hout w (by simp))
      rw [List.nodup_cons] at hnodup
      have hrest := ih _ _ hw hnodup.2 fun v hv => by
        rintro (rfl | hlinked)
        · exact hnodup.1 hv
        · exact hout v (by simp [hv]) hlinked
      apply hrest.congr
      intro v
      simp only [List.mem_cons]
      tauto
  have hempty : Linked (⟨[], [], fun _ => .active, ⟨0⟩, .allowed⟩ : Coordinator W)
      fun _ => False := ⟨List.nodup_nil, by simp [Coordinator.linked], rfl⟩
  apply (hfold workers _ _ hempty h (by simp)).congr
  simp

end Coordinator

end ConcurrentProgramming.Fast
