import ConcurrentProgramming.Interleaving.Custody
import ConcurrentProgramming.Interleaving.LockOrder
import ConcurrentProgramming.Interleaving.Machine
import Mathlib.Algebra.GroupWithZero.Nat
import Mathlib.Data.Fin.Basic

/-!
The dining philosophers. Who sits on an even seat takes the left fork first, who
sits on an odd seat the right one; the table itself is a parameter.
-/

set_option autoImplicit false

namespace ConcurrentProgramming.Sync
open Interleaving

/-- Forks and plates are numbered like the seats. -/
structure Table (n : Nat) where
  leftFork : Fin n → Fin n
  rightFork : Fin n → Fin n
  toRight : Fin n → Fin n

namespace Table

/-- Every fork lies between two neighbours, the last one between the last and the
first of them. -/
structure Round {n : Nat} (table : Table n) : Prop where
  leftFork : ∀ seat, table.leftFork seat = seat
  rightFork : ∀ seat, (table.rightFork seat).val = (seat.val + 1) % n

def forks {n : Nat} (table : Table n) (seat : Fin n) : List (Fin n) :=
  [table.leftFork seat, table.rightFork seat]

/-- The table whose forks and plates are numbered from left to right. -/
def circular (n : Nat) [NeZero n] : Table n where
  leftFork seat := seat
  rightFork seat := seat + 1
  toRight seat := seat + 1

theorem circular_round (n : Nat) [NeZero n] : (circular n).Round where
  leftFork _ := rfl
  rightFork seat := by rw [circular, Fin.val_add, Fin.val_one', Nat.add_mod_mod]

/-- The forks in the order in which they are locked. -/
def acquireForks {n : Nat} (table : Table n) (seat : Fin n) : Fin n × Fin n :=
  if seat.val % 2 = 0 then (table.leftFork seat, table.rightFork seat)
  else (table.rightFork seat, table.leftFork seat)

/-- The forks in the order in which they are unlocked. -/
def releaseForks {n : Nat} (table : Table n) (seat : Fin n) : Fin n × Fin n :=
  if seat.val % 2 = 0 then (table.leftFork seat, table.rightFork seat)
  else (table.rightFork seat, table.leftFork seat)

end Table

/-- `Eat` from the first `lock` to the last `unlock`. -/
inductive PhilosopherPc where
  | think
  | lockFirst
  | lockSecond
  | accessPlate
  | accessRightPlate
  | countMeal
  | unlockFirst
  | unlockSecond
  deriving DecidableEq, Repr

/-- `forks` says who has locked which fork. -/
structure Dining (n : Nat) where
  forks : Fin n → Option (Fin n)
  meals : Fin n → Nat
  pc : Fin n → PhilosopherPc

namespace Dining

def goto {n : Nat} (s : Dining n) (seat : Fin n) (pc : PhilosopherPc) : Dining n :=
  { s with pc := Function.update s.pc seat pc }

def lock {n : Nat} (s : Dining n) (seat fork : Fin n) (pc : PhilosopherPc) : Option (Dining n) :=
  if s.forks fork = none then
    some { s.goto seat pc with forks := Function.update s.forks fork (some seat) }
  else none

/-- To unlock a fork that somebody else has, or nobody, is undefined. -/
def unlock {n : Nat} (s : Dining n) (seat fork : Fin n) (pc : PhilosopherPc) :
    Option (Dining n) :=
  if s.forks fork = some seat then
    some { s.goto seat pc with forks := Function.update s.forks fork none }
  else none

def step {n : Nat} (table : Table n) (s : Dining n) (seat : Fin n) : Option (Dining n) :=
  match s.pc seat with
  | .think => some (s.goto seat .lockFirst)
  | .lockFirst => s.lock seat (table.acquireForks seat).1 .lockSecond
  | .lockSecond => s.lock seat (table.acquireForks seat).2 .accessPlate
  | .accessPlate => some (s.goto seat .accessRightPlate)
  | .accessRightPlate => some (s.goto seat .countMeal)
  | .countMeal =>
    some { s.goto seat .unlockFirst with
      meals := Function.update s.meals seat (s.meals seat + 1) }
  | .unlockFirst => s.unlock seat (table.releaseForks seat).1 .unlockSecond
  | .unlockSecond => s.unlock seat (table.releaseForks seat).2 .think

end Dining

/-- A label is the seat whose philosopher takes its next step. -/
def dining {n : Nat} (table : Table n) : Machine (Dining n) (Fin n) where
  init := ⟨fun _ => none, fun _ => 0, fun _ => .think⟩
  step := Dining.step table

namespace PhilosopherPc

/-- Inside `EatWithForks`. -/
def eating : PhilosopherPc → Bool
  | .accessPlate | .accessRightPlate | .countMeal => true
  | _ => false

/-- The plate that is accessed. -/
def plate {n : Nat} (table : Table n) (seat : Fin n) : PhilosopherPc → Option (Fin n)
  | .accessPlate => some seat
  | .accessRightPlate => some (table.toRight seat)
  | _ => none

/-- The fork that a philosopher is about to lock. -/
def wanted {n : Nat} (table : Table n) (seat : Fin n) : PhilosopherPc → Option (Fin n)
  | .lockFirst => some (table.acquireForks seat).1
  | .lockSecond => some (table.acquireForks seat).2
  | _ => none

/-- The forks that it has locked. -/
def held {n : Nat} (table : Table n) (seat : Fin n) : PhilosopherPc → List (Fin n)
  | .think | .lockFirst => []
  | .lockSecond => [(table.acquireForks seat).1]
  | .accessPlate | .accessRightPlate | .countMeal | .unlockFirst =>
    [(table.acquireForks seat).1, (table.acquireForks seat).2]
  | .unlockSecond => [(table.releaseForks seat).2]

end PhilosopherPc

namespace Table

@[simp] theorem releaseForks_eq {n : Nat} (table : Table n) (seat : Fin n) :
    table.releaseForks seat = table.acquireForks seat := rfl

theorem mem_forks_iff {n : Nat} {table : Table n} {seat fork : Fin n} :
    fork ∈ table.forks seat ↔
      fork = (table.acquireForks seat).1 ∨ fork = (table.acquireForks seat).2 := by
  unfold forks acquireForks
  split
  · simp
  · simp [or_comm]

end Table

/-- Forks are taken from higher to lower ranks. Odd forks are taken second by both
neighbours; fork 0 ranks below the other even ones, since in an odd table the last
seat takes it second. -/
def forkRank {n : Nat} (fork : Fin n) : Nat :=
  if fork.val % 2 = 1 then 0 else if fork.val = 0 then 1 else 2

theorem forkRank_odd {n : Nat} {fork : Fin n} (h : fork.val % 2 = 1) : forkRank fork = 0 :=
  if_pos h

theorem forkRank_even {n : Nat} {fork : Fin n} (h : fork.val % 2 = 0) : 0 < forkRank fork := by
  unfold forkRank
  rw [if_neg (by omega)]
  split <;> decide

namespace Table

theorem Round.rightFork_cases {n : Nat} {table : Table n} (hround : table.Round) (seat : Fin n) :
    (table.rightFork seat).val = seat.val + 1 ∨
      (table.rightFork seat).val = 0 ∧ seat.val + 1 = n := by
  have hright := hround.rightFork seat
  have hseat := seat.isLt
  by_cases hlast : seat.val + 1 = n
  · exact .inr ⟨by simpa [hlast] using hright, hlast⟩
  · rw [Nat.mod_eq_of_lt (by omega)] at hright
    exact .inl hright

theorem Round.forkRank_lt {n : Nat} {table : Table n} (hround : table.Round) (hn : 2 ≤ n)
    (seat : Fin n) :
    forkRank (table.acquireForks seat).2 < forkRank (table.acquireForks seat).1 := by
  have hright := hround.rightFork_cases seat
  unfold acquireForks
  split
  · rename_i heven
    rw [hround.leftFork]
    rcases hright with hnext | ⟨hzero, hlast⟩
    · have hodd : forkRank (table.rightFork seat) = 0 := forkRank_odd (by omega)
      rw [hodd]
      exact forkRank_even heven
    · have hseat : forkRank seat = 2 := by
        unfold forkRank
        rw [if_neg (by omega), if_neg (by omega)]
      have hfork : forkRank (table.rightFork seat) = 1 := by simp [forkRank, hzero]
      rw [hseat, hfork]
      decide
  · have hodd : forkRank seat = 0 := forkRank_odd (by omega)
    have heven : (table.rightFork seat).val % 2 = 0 := by omega
    rw [hround.leftFork, hodd]
    exact forkRank_even heven

theorem Round.acquireForks_ne {n : Nat} {table : Table n} (hround : table.Round) (hn : 2 ≤ n)
    (seat : Fin n) : (table.acquireForks seat).1 ≠ (table.acquireForks seat).2 :=
  fun h => (hround.forkRank_lt hn seat).ne' (congrArg forkRank h)

end Table

namespace Dining

/-- A fork is locked by exactly who has locked and not yet unlocked it. -/
def Inv {n : Nat} (table : Table n) (s : Dining n) : Prop :=
  Custody (fun seat fork => fork ∈ (s.pc seat).held table seat) s.forks

theorem held_goto_of_ne {n : Nat} (table : Table n) (s : Dining n) {seat other : Fin n}
    (pc : PhilosopherPc) (h : other ≠ seat) :
    ((s.goto seat pc).pc other).held table other = (s.pc other).held table other :=
  congrArg (PhilosopherPc.held table other) (Function.update_of_ne h ..)

theorem Inv.goto {n : Nat} {table : Table n} {s : Dining n} (hs : s.Inv table) {seat : Fin n}
    {pc : PhilosopherPc} (hheld : pc.held table seat = (s.pc seat).held table seat) :
    (s.goto seat pc).Inv table := by
  intro other fork
  have hsame : ((s.goto seat pc).pc other).held table other = (s.pc other).held table other := by
    by_cases he : other = seat
    · subst he
      simpa [Dining.goto] using hheld
    · exact held_goto_of_ne table s pc he
  simp only [hsame]
  exact hs other fork

theorem Inv.lock {n : Nat} {table : Table n} {s u : Dining n} (hs : s.Inv table)
    {seat fork : Fin n} {pc : PhilosopherPc} (h : s.lock seat fork pc = some u)
    (hheld : pc.held table seat = (s.pc seat).held table seat ++ [fork]) : u.Inv table := by
  simp only [Dining.lock, Option.ite_none_right_eq_some, Option.some.injEq] at h
  obtain ⟨hfree, rfl⟩ := h
  refine hs.arrive hfree (fun other => ?_) fun other hother =>
    funext fun _ => congrArg (_ ∈ ·) (held_goto_of_ne table s pc hother)
  simp [Dining.goto, hheld]

theorem Inv.unlock {n : Nat} {table : Table n} {s u : Dining n} (hs : s.Inv table)
    {seat fork : Fin n} {pc : PhilosopherPc} (h : s.unlock seat fork pc = some u)
    (hheld : (s.pc seat).held table seat = fork :: pc.held table seat)
    (hfork : fork ∉ pc.held table seat) : u.Inv table := by
  simp only [Dining.unlock, Option.ite_none_right_eq_some, Option.some.injEq] at h
  obtain ⟨hlocked, rfl⟩ := h
  refine hs.depart hlocked (fun other => ?_) fun other hother =>
    funext fun _ => congrArg (_ ∈ ·) (held_goto_of_ne table s pc hother)
  simp only [Dining.goto, Function.update_self, hheld, List.mem_cons]
  constructor
  · intro hmem
    exact ⟨.inr hmem, fun he => hfork (he ▸ hmem)⟩
  · rintro ⟨he | hmem, hne⟩
    · exact (hne he).elim
    · exact hmem

theorem Inv.step {n : Nat} {table : Table n} (hround : table.Round) (hn : 2 ≤ n)
    {s u : Dining n} (hs : s.Inv table) {seat : Fin n} (h : s.step table seat = some u) :
    u.Inv table := by
  have hne := hround.acquireForks_ne hn seat
  unfold Dining.step at h
  cases hpc : s.pc seat with
  | think | accessPlate | accessRightPlate =>
    simp only [hpc, Option.some.injEq] at h
    subst h
    exact hs.goto (by rw [hpc]; rfl)
  | countMeal =>
    simp only [hpc, Option.some.injEq] at h
    subst h
    have hgoto : (s.goto seat .unlockFirst).Inv table := hs.goto (by rw [hpc]; rfl)
    exact hgoto
  | lockFirst | lockSecond =>
    simp only [hpc] at h
    exact hs.lock h (by rw [hpc]; rfl)
  | unlockFirst =>
    simp only [hpc] at h
    exact hs.unlock h (by rw [hpc]; rfl) (by simpa [PhilosopherPc.held] using hne)
  | unlockSecond =>
    simp only [hpc] at h
    exact hs.unlock h (by rw [hpc]; rfl) List.not_mem_nil

/-- Waiting for a fork is being about to lock it; whoever finds it free waits for
nobody. -/
def Waits {n : Nat} (table : Table n) (s : Dining n) (seat fork : Fin n) : Prop :=
  (s.pc seat).wanted table seat = some fork

def Holds {n : Nat} (s : Dining n) (seat fork : Fin n) : Prop :=
  s.forks fork = some seat

theorem Inv.ranked {n : Nat} {table : Table n} (hround : table.Round) (hn : 2 ≤ n)
    {s : Dining n} (hs : s.Inv table) : Ranked forkRank (s.Waits table) s.Holds := by
  intro seat fork held hwaits hholds
  have hheld := (hs seat held).mpr hholds
  unfold Waits at hwaits
  cases hpc : s.pc seat with
  | lockSecond =>
    simp only [hpc, PhilosopherPc.wanted, Option.some.injEq] at hwaits
    simp only [hpc, PhilosopherPc.held, List.mem_singleton] at hheld
    rw [hheld, ← hwaits]
    exact hround.forkRank_lt hn seat
  | lockFirst => simp [hpc, PhilosopherPc.held] at hheld
  | think | accessPlate | accessRightPlate | countMeal | unlockFirst | unlockSecond =>
    simp [hpc, PhilosopherPc.wanted] at hwaits

theorem Inv.eating {n : Nat} {table : Table n} {s : Dining n} (hs : s.Inv table)
    {seat fork : Fin n} (h : (s.pc seat).eating = true) (hfork : fork ∈ table.forks seat) :
    s.Holds seat fork := by
  refine (hs seat fork).mp ?_
  rw [Table.mem_forks_iff] at hfork
  cases hpc : s.pc seat with
  | accessPlate | accessRightPlate | countMeal => simpa [hpc, PhilosopherPc.held] using hfork
  | think | lockFirst | lockSecond | unlockFirst | unlockSecond =>
    simp [hpc, PhilosopherPc.eating] at h

theorem Inv.eating_unique {n : Nat} {table : Table n} {s : Dining n} (hs : s.Inv table)
    {i j fork : Fin n} (hi : (s.pc i).eating = true) (hj : (s.pc j).eating = true)
    (hfork : fork ∈ table.forks i) (hshared : fork ∈ table.forks j) : i = j := by
  have howner := hs.eating hi hfork
  have howner' := hs.eating hj hshared
  exact Option.some.inj (howner.symm.trans howner')

end Dining

theorem dining_inv {n : Nat} {table : Table n} (hround : table.Round) (hn : 2 ≤ n)
    {s : Dining n} (h : (dining table).Reachable s) : s.Inv table := by
  apply h.invariant
  · intro seat fork
    simp [dining, PhilosopherPc.held]
  · intro s seat u _ hs hu
    exact hs.step hround hn hu

/-- No circle of philosophers waits for forks, and no two eat with the same fork. -/
theorem philosophers_never_deadlock {n : Nat} (hn : 2 ≤ n) {table : Table n}
    (hround : table.Round) {s : Dining n} (h : (dining table).Reachable s) :
    (∀ S : Set (Fin n), ¬ CircularWait (s.Waits table) s.Holds S) ∧
      ∀ i j, i ≠ j → (s.pc i).eating = true → (s.pc j).eating = true →
        ∀ fork ∈ table.forks i, fork ∉ table.forks j := by
  have hs := dining_inv hround hn h
  refine ⟨fun S => (hs.ranked hround hn).not_circularWait S, ?_⟩
  intro i j hne hi hj fork hfork hshared
  exact hne (hs.eating_unique hi hj hfork hshared)

/-- Five seats, so that neighbours on seats 4 and 0 both take their left fork first. -/
theorem philosophers_never_deadlock_five : ∃ s, (dining (.circular 5)).Reachable s ∧
    (s.pc 0).eating = true ∧ (s.pc 2).eating = true ∧ (s.pc 4).wanted (.circular 5) 4 = some 0 ∧
      (∀ S : Set (Fin 5), ¬ CircularWait (s.Waits (.circular 5)) s.Holds S) ∧
      ∀ fork ∈ (Table.circular 5).forks 0, fork ∉ (Table.circular 5).forks 2 := by
  obtain ⟨s, hreach, hs⟩ := (dining (.circular 5)).exists_reachable_of_exec
    [0, 0, 0, 2, 2, 2, 4, 4] (p := fun s => (s.pc 0).eating = true ∧ (s.pc 2).eating = true ∧
      (s.pc 4).wanted (.circular 5) 4 = some 0) (by decide)
  obtain ⟨hzero, htwo, hfour⟩ := of_decide_eq_true hs
  obtain ⟨hfree, hshare⟩ :=
    philosophers_never_deadlock (by decide) (Table.circular_round 5) hreach
  exact ⟨s, hreach, hzero, htwo, hfour, hfree, hshare 0 2 (by decide) hzero htwo⟩

namespace Dining

theorem holds_of_lock_eq_none {n : Nat} {s : Dining n} {seat fork : Fin n} {pc : PhilosopherPc}
    (h : s.lock seat fork pc = none) : ∃ holder, s.Holds holder fork := by
  simp only [lock, ite_eq_right_iff, reduceCtorEq, imp_false] at h
  exact Option.ne_none_iff_exists'.mp h

theorem Inv.not_held_of_unlock_eq_none {n : Nat} {table : Table n} {s : Dining n}
    (hs : s.Inv table) {seat fork : Fin n} {pc : PhilosopherPc}
    (h : s.unlock seat fork pc = none) : fork ∉ (s.pc seat).held table seat := by
  intro hheld
  have hlocked := (hs seat fork).mp hheld
  simp [Dining.unlock, hlocked] at h

/-- Only a fork that somebody holds stops a philosopher. -/
theorem Inv.blocked {n : Nat} {table : Table n} {s : Dining n} (hs : s.Inv table) {seat : Fin n}
    (h : s.step table seat = none) :
    ∃ fork, s.Waits table seat fork ∧ ∃ holder, s.Holds holder fork := by
  unfold Dining.step at h
  unfold Waits
  cases hpc : s.pc seat with
  | think | accessPlate | accessRightPlate | countMeal => simp [hpc] at h
  | lockFirst | lockSecond =>
    simp only [hpc] at h
    exact ⟨_, rfl, holds_of_lock_eq_none h⟩
  | unlockFirst | unlockSecond =>
    simp only [hpc] at h
    have hheld := hs.not_held_of_unlock_eq_none h
    simp [hpc, PhilosopherPc.held] at hheld

end Dining

/-- Somebody can always go on. -/
theorem dining_progress {n : Nat} (hn : 2 ≤ n) {table : Table n} (hround : table.Round)
    {s : Dining n} (h : (dining table).Reachable s) : ∃ seat u, s.step table seat = some u := by
  have hs := dining_inv hround hn h
  by_contra hstuck
  have hblocked (seat : Fin n) : s.step table seat = none :=
    Option.eq_none_iff_forall_ne_some.mpr fun u hu => hstuck ⟨seat, u, hu⟩
  apply (hs.ranked hround hn).not_circularWait Set.univ
  refine ⟨⟨⟨0, by omega⟩, trivial⟩, fun seat _ => ?_⟩
  obtain ⟨fork, hwaits, holder, hholds⟩ := hs.blocked (hblocked seat)
  exact ⟨fork, hwaits, holder, trivial, hholds⟩

theorem PhilosopherPc.plate_mem_forks {n : Nat} {table : Table n} (hround : table.Round)
    (hright : ∀ seat, table.toRight seat = table.rightFork seat) {pc : PhilosopherPc}
    {seat plate : Fin n} (h : pc.plate table seat = some plate) :
    pc.eating = true ∧ plate ∈ table.forks seat := by
  cases pc with
  | accessPlate =>
    obtain rfl := Option.some.inj h
    exact ⟨rfl, by simp [Table.forks, hround.leftFork]⟩
  | accessRightPlate =>
    obtain rfl := Option.some.inj h
    exact ⟨rfl, by simp [Table.forks, hright]⟩
  | think | lockFirst | lockSecond | countMeal | unlockFirst | unlockSecond => cases h

/-- The race for a plate that `EatWithForks` tries to provoke does not happen. -/
theorem dining_plate_exclusive {n : Nat} (hn : 2 ≤ n) {table : Table n} (hround : table.Round)
    (hright : ∀ seat, table.toRight seat = table.rightFork seat) {s : Dining n}
    (h : (dining table).Reachable s) {i j plate : Fin n}
    (hi : (s.pc i).plate table i = some plate) (hj : (s.pc j).plate table j = some plate) :
    i = j := by
  have hs := dining_inv hround hn h
  obtain ⟨heating, hfork⟩ := PhilosopherPc.plate_mem_forks hround hright hi
  obtain ⟨heating', hfork'⟩ := PhilosopherPc.plate_mem_forks hround hright hj
  exact hs.eating_unique heating heating' hfork hfork'

end ConcurrentProgramming.Sync
