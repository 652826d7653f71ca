import ConcurrentProgramming.Interleaving.Machine
import ConcurrentProgramming.Interleaving.Tally

/-!
`TrickyLock`, for cooperative fibers. A step is what one contender does between two
calls of `Yield`, and the label says whom the scheduler resumes.
-/

set_option autoImplicit false

namespace ConcurrentProgramming.Sync
open Interleaving

/-- A contender that has not begun, is in the `Yield` of the loop of `Lock`, in the
`Yield` behind that loop, or at its end; with the number of the iteration. -/
inductive Contender where
  | start
  | waits (iteration : Nat)
  | acquired (iteration : Nat)
  | returned
  deriving DecidableEq, Repr

structure TrickyLock (F : Type) where
  threadCount : BitVec 64
  csCount : Nat
  contenders : F → Contender

namespace TrickyLock

/-- The test of the loop of `Lock`. -/
def test {F : Type} [DecidableEq F] (s : TrickyLock F) (f : F) (iteration : Nat) : TrickyLock F :=
  { s with
    threadCount := s.threadCount + 1
    contenders := Function.update s.contenders f
      (if s.threadCount = 0 then .acquired iteration else .waits iteration) }

def unlock {F : Type} (s : TrickyLock F) : TrickyLock F :=
  { s with threadCount := s.threadCount - 1 }

/-- The loop over the iterations, at its head. -/
def iterate {F : Type} [DecidableEq F] (kIterations : Nat) (s : TrickyLock F) (f : F)
    (iteration : Nat) : TrickyLock F :=
  if iteration < kIterations then s.test f iteration
  else { s with contenders := Function.update s.contenders f .returned }

def step {F : Type} [DecidableEq F] (kIterations : Nat) (s : TrickyLock F) (f : F) :
    Option (TrickyLock F) :=
  match s.contenders f with
  | .start => some (s.iterate kIterations f 0)
  | .waits iteration => some (s.unlock.test f iteration)
  | .acquired iteration =>
    -- a failed assertion ends the program
    if s.csCount + 1 < 3 then
      some ({ s with csCount := s.csCount + 1 }.unlock.iterate kIterations f (iteration + 1))
    else none
  | .returned => none

end TrickyLock

def trickyLock (F : Type) [DecidableEq F] (kIterations : Nat) : Machine (TrickyLock F) F where
  init := ⟨0, 0, fun _ => .start⟩
  step := TrickyLock.step kIterations

/-- Whether `thread_count` counts the contender. -/
def Contender.counted : Contender → Nat
  | .start | .returned => 0
  | .waits _ | .acquired _ => 1

def Contender.isAcquired : Contender → Bool
  | .acquired _ => true
  | _ => false

namespace TrickyLock
variable {F : Type} [Fintype F] [DecidableEq F]

def count (contenders : F → Contender) : Nat :=
  tally Finset.univ Contender.counted contenders

/-- `thread_count` is the number of those it counts, and the lock is given to one of
them at most. -/
structure Inv (s : TrickyLock F) : Prop where
  counts : s.threadCount = BitVec.ofNat 64 (count s.contenders)
  exclusive : ∀ f g, (s.contenders f).isAcquired = true →
    (s.contenders g).isAcquired = true → f = g

/-- While `f` runs it is not counted. -/
structure Apart (s : TrickyLock F) (f : F) : Prop where
  counts : s.threadCount = BitVec.ofNat 64 (count (Function.update s.contenders f .returned))
  exclusive : ∀ g h, g ≠ f → h ≠ f → (s.contenders g).isAcquired = true →
    (s.contenders h).isAcquired = true → g = h

theorem count_update (contenders : F → Contender) (f : F) (pc : Contender) :
    count (Function.update contenders f pc) + (contenders f).counted =
      count contenders + pc.counted :=
  tally_update Contender.counted contenders (Finset.mem_univ f) pc

omit [DecidableEq F] in
theorem counted_le_count (contenders : F → Contender) (f : F) :
    (contenders f).counted ≤ count contenders :=
  le_tally Contender.counted contenders (Finset.mem_univ f)

omit [DecidableEq F] in
theorem count_le (contenders : F → Contender) : count contenders ≤ Fintype.card F := by
  have hone (f : F) (_ : f ∈ Finset.univ) : (contenders f).counted ≤ 1 := by
    cases contenders f <;> simp [Contender.counted]
  calc count contenders ≤ ∑ _f : F, 1 := Finset.sum_le_sum hone
    _ = Fintype.card F := by simp

theorem counted_of_isAcquired {pc : Contender} (h : pc.isAcquired = true) : pc.counted = 1 := by
  cases pc with
  | acquired iteration => rfl
  | start | waits _ | returned => cases h

/-- A counter that is zero counts nobody but the one that runs. -/
theorem Apart.alone {s : TrickyLock F} {f g : F} (hsize : Fintype.card F < 2 ^ 64)
    (hs : s.Apart f) (hgf : g ≠ f) (hzero : s.threadCount = 0) : (s.contenders g).counted = 0 := by
  have hle := count_le (Function.update s.contenders f .returned)
  have hcount : count (Function.update s.contenders f .returned) = 0 := by
    have hnat := congrArg BitVec.toNat (hs.counts.symm.trans hzero)
    rw [BitVec.toNat_ofNat, Nat.mod_eq_of_lt (by omega)] at hnat
    exact hnat
  have hg := counted_le_count (Function.update s.contenders f .returned) g
  rw [Function.update_of_ne hgf] at hg
  omega

/-- The test brings `f` back, with the lock only if nobody else is counted. -/
theorem Apart.test {s : TrickyLock F} {f : F} (hsize : Fintype.card F < 2 ^ 64) (hs : s.Apart f)
    (iteration : Nat) : (s.test f iteration).Inv := by
  have hfirst (g : F) (hgf : g ≠ f)
      (hf : ((s.test f iteration).contenders f).isAcquired = true) :
      (s.contenders g).isAcquired ≠ true := by
    intro hg
    have hzero : s.threadCount = 0 := by
      by_contra hne
      simp only [TrickyLock.test, Function.update_self, if_neg hne, Contender.isAcquired,
        Bool.false_eq_true] at hf
    have halone := hs.alone hsize hgf hzero
    rw [counted_of_isAcquired hg] at halone
    cases halone
  have hother {g : F} (hgf : g ≠ f) : (s.test f iteration).contenders g = s.contenders g :=
    Function.update_of_ne hgf _ _
  refine ⟨?_, fun g h hg hh => ?_⟩
  · have hcount := count_update (Function.update s.contenders f .returned) f
      (if s.threadCount = 0 then .acquired iteration else .waits iteration)
    have hone : (if s.threadCount = 0 then Contender.acquired iteration
        else .waits iteration).counted = 1 := by
      split <;> rfl
    rw [Function.update_idem, Function.update_self, hone] at hcount
    have hplus : count (s.test f iteration).contenders =
        count (Function.update s.contenders f .returned) + 1 := hcount
    show s.threadCount + 1 = _
    rw [hplus, BitVec.ofNat_add, hs.counts]
    rfl
  · by_cases hgf : g = f
    · by_cases hhf : h = f
      · rw [hgf, hhf]
      · rw [hother hhf] at hh
        exact (hfirst h hhf (hgf ▸ hg) hh).elim
    · rw [hother hgf] at hg
      by_cases hhf : h = f
      · exact (hfirst g hgf (hhf ▸ hh) hg).elim
      · rw [hother hhf] at hh
        exact hs.exclusive g h hgf hhf hg hh

theorem Apart.iterate {s : TrickyLock F} {f : F} (hsize : Fintype.card F < 2 ^ 64)
    (hs : s.Apart f) (kIterations iteration : Nat) : (s.iterate kIterations f iteration).Inv := by
  unfold TrickyLock.iterate
  split
  · exact hs.test hsize iteration
  · refine ⟨hs.counts, fun g h hg hh => ?_⟩
    have hkept {g : F} (hg : (Function.update s.contenders f .returned g).isAcquired = true) :
        g ≠ f ∧ (s.contenders g).isAcquired = true := by
      by_cases hgf : g = f
      · rw [hgf, Function.update_self] at hg
        cases hg
      · rw [Function.update_of_ne hgf] at hg
        exact ⟨hgf, hg⟩
    obtain ⟨hgf, hg⟩ := hkept hg
    obtain ⟨hhf, hh⟩ := hkept hh
    exact hs.exclusive g h hgf hhf hg hh

theorem Inv.apart {s : TrickyLock F} (hs : s.Inv) {f : F} (hf : (s.contenders f).counted = 0) :
    s.Apart f := by
  have hcount := count_update s.contenders f .returned
  rw [hf] at hcount
  refine ⟨?_, fun g h _ _ hg hh => hs.exclusive g h hg hh⟩
  rw [hs.counts]
  exact congrArg _ hcount.symm

theorem Inv.unlock {s : TrickyLock F} (hs : s.Inv) {f : F} (hf : (s.contenders f).counted = 1) :
    s.unlock.Apart f := by
  have hcount := count_update s.contenders f .returned
  rw [hf] at hcount
  have hminus : count s.contenders =
      count (Function.update s.contenders f .returned) + 1 := hcount.symm
  refine ⟨?_, fun g h _ _ hg hh => hs.exclusive g h hg hh⟩
  show s.threadCount - 1 = _
  rw [hs.counts, hminus, BitVec.ofNat_add]
  exact BitVec.add_sub_cancel _ _

omit [DecidableEq F] in
/-- The critical section is about nothing else. -/
theorem Inv.section_ {s : TrickyLock F} (hs : s.Inv) :
    ({ s with csCount := s.csCount + 1 } : TrickyLock F).Inv := ⟨hs.counts, hs.exclusive⟩

theorem Inv.step {kIterations : Nat} {s t : TrickyLock F} {f : F}
    (hsize : Fintype.card F < 2 ^ 64) (hs : s.Inv) (h : s.step kIterations f = some t) : t.Inv := by
  unfold TrickyLock.step at h
  cases hf : s.contenders f with
  | start =>
    simp only [hf, Option.some.injEq] at h
    subst h
    exact (hs.apart (by rw [hf]; rfl)).iterate hsize kIterations 0
  | waits iteration =>
    simp only [hf, Option.some.injEq] at h
    subst h
    exact (hs.unlock (by rw [hf]; rfl)).test hsize iteration
  | acquired iteration =>
    simp only [hf, Option.ite_none_right_eq_some, Option.some.injEq] at h
    obtain ⟨-, rfl⟩ := h
    have hone : (s.contenders f).counted = 1 := by
      rw [hf]
      rfl
    exact (hs.section_.unlock hone).iterate hsize kIterations (iteration + 1)
  | returned => simp [hf] at h

end TrickyLock

theorem trickyLock_inv {F : Type} [Fintype F] [DecidableEq F] {kIterations : Nat}
    (hsize : Fintype.card F < 2 ^ 64) {s : TrickyLock F}
    (h : (trickyLock F kIterations).Reachable s) : s.Inv := by
  apply h.invariant
  · have hzero : TrickyLock.count (fun _ : F => Contender.start) = 0 :=
      tally_eq_zero.mpr fun _ _ => rfl
    refine ⟨?_, fun f g hf => ?_⟩
    · show (0 : BitVec 64) = BitVec.ofNat 64 (TrickyLock.count fun _ : F => Contender.start)
      rw [hzero]
      rfl
    · cases hf
  · intro s l t _ hs hl
    exact hs.step hsize hl

/-- At most one contender has the lock, and `thread_count` is the number of those that
have it or are inside `Lock`, whomever the scheduler resumes. -/
theorem trickyLock_exclusive {F : Type} [Fintype F] [DecidableEq F] {kIterations : Nat}
    (hsize : Fintype.card F < 2 ^ 64) {s : TrickyLock F}
    (h : (trickyLock F kIterations).Reachable s) :
    s.threadCount.toNat = ∑ f : F, (s.contenders f).counted ∧
      ∀ f g, (s.contenders f).isAcquired = true → (s.contenders g).isAcquired = true → f = g := by
  have hs := trickyLock_inv hsize h
  have hle := TrickyLock.count_le s.contenders
  refine ⟨?_, hs.exclusive⟩
  rw [hs.counts, BitVec.toNat_ofNat, Nat.mod_eq_of_lt (by omega)]
  rfl

/-- Contender 0 has the lock, contender 1 waits. -/
theorem trickyLock_exclusive_two : ∃ s, (trickyLock (Fin 2) 100).Reachable s ∧
    (s.contenders 0).isAcquired = true ∧ ¬ (s.contenders 1).isAcquired = true := by
  have h : (trickyLock (Fin 2) 100).Reachable _ := Machine.reachable_of_exec [0, 1] rfl
  refine ⟨_, h, rfl, fun hone => ?_⟩
  have hsame := (trickyLock_exclusive (by decide) h).2 0 1 rfl hone
  cases hsame

namespace TrickyLock
variable {F : Type} [Fintype F] [DecidableEq F]

def Crowded (s : TrickyLock F) : Prop :=
  ∃ f g i j, f ≠ g ∧ s.contenders f = .waits i ∧ s.contenders g = .waits j

omit [Fintype F] [DecidableEq F] in
theorem Crowded.exists_other {s : TrickyLock F} (h : s.Crowded) (d : F) :
    ∃ e, e ≠ d ∧ (s.contenders e).counted = 1 := by
  obtain ⟨f, g, i, j, hfg, hf, hg⟩ := h
  by_cases hfd : f = d
  · exact ⟨g, fun hgd => hfg (hfd.trans hgd.symm), by rw [hg]; rfl⟩
  · exact ⟨f, hfd, by rw [hf]; rfl⟩

omit [Fintype F] [DecidableEq F] in
theorem Crowded.mono {s t : TrickyLock F} (h : s.Crowded)
    (hwaits : ∀ e n, s.contenders e = .waits n → t.contenders e = .waits n) : t.Crowded := by
  obtain ⟨f, g, i, j, hfg, hf, hg⟩ := h
  exact ⟨f, g, i, j, hfg, hwaits f i hf, hwaits g j hg⟩

/-- Who tests while somebody else is counted has to wait. -/
theorem Apart.test_waits {s : TrickyLock F} {d e : F} (hsize : Fintype.card F < 2 ^ 64)
    (hs : s.Apart d) (hed : e ≠ d) (he : (s.contenders e).counted = 1) (iteration : Nat) :
    (s.test d iteration).contenders = Function.update s.contenders d (.waits iteration) := by
  have hne : s.threadCount ≠ 0 := by
    intro hzero
    have halone := hs.alone hsize hed hzero
    rw [he] at halone
    cases halone
  simp only [TrickyLock.test, if_neg hne]

/-- Where two contenders wait, a third that waits finds everything as it was. -/
theorem Inv.waits_step {kIterations : Nat} {s : TrickyLock F} {d : F} {iteration : Nat}
    (hsize : Fintype.card F < 2 ^ 64) (hs : s.Inv) (hcrowd : s.Crowded)
    (hd : s.contenders d = .waits iteration) : s.step kIterations d = some s := by
  obtain ⟨e, hed, he⟩ := hcrowd.exists_other d
  have hsame := (hs.unlock (by rw [hd]; rfl)).test_waits hsize hed he iteration
  have hcontenders : (s.unlock.test d iteration).contenders = s.contenders := by
    rw [hsame, ← hd]
    exact Function.update_eq_self d s.contenders
  have hcount : (s.unlock.test d iteration).threadCount = s.threadCount :=
    BitVec.sub_add_cancel _ _
  simp only [TrickyLock.step, hd, Option.some.injEq]
  calc s.unlock.test d iteration
      = ⟨(s.unlock.test d iteration).threadCount, s.csCount,
          (s.unlock.test d iteration).contenders⟩ := rfl
    _ = s := by rw [hcontenders, hcount]

/-- Who comes to the loop over the iterations then waits or returns. -/
theorem Apart.iterate_crowded {s : TrickyLock F} {d e : F} (hsize : Fintype.card F < 2 ^ 64)
    (hs : s.Apart d) (hed : e ≠ d) (he : (s.contenders e).counted = 1)
    (kIterations iteration : Nat) : ∃ pc : Contender, pc.isAcquired = false ∧
      (s.iterate kIterations d iteration).contenders = Function.update s.contenders d pc := by
  unfold TrickyLock.iterate
  split
  · exact ⟨_, rfl, hs.test_waits hsize hed he iteration⟩
  · exact ⟨_, rfl, rfl⟩

omit [Fintype F] in
theorem iterate_csCount (kIterations : Nat) (s : TrickyLock F) (f : F) (iteration : Nat) :
    (s.iterate kIterations f iteration).csCount = s.csCount := by
  unfold TrickyLock.iterate
  split <;> rfl

/-- `base` critical sections have ended, and one more if the lock is free. -/
def Entered (base : Nat) (s : TrickyLock F) : Prop :=
  s.csCount = base ∨ s.csCount = base + 1 ∧ ∀ e, (s.contenders e).isAcquired = false

/-- Where two contenders wait, nobody gets the lock. -/
theorem Inv.crowded_step {kIterations : Nat} {s t : TrickyLock F} {d : F}
    (hsize : Fintype.card F < 2 ^ 64) (hs : s.Inv) (hcrowd : s.Crowded)
    (h : s.step kIterations d = some t) :
    (∀ e n, s.contenders e = .waits n → t.contenders e = .waits n) ∧
      (∀ e n, t.contenders e = .acquired n → s.contenders e = .acquired n) ∧
      ∀ base, s.Entered base → t.Entered base := by
  obtain ⟨e, hed, he⟩ := hcrowd.exists_other d
  have hkeeps {pc : Contender} (hd : ∀ n, s.contenders d ≠ .waits n)
      (ht : t.contenders = Function.update s.contenders d pc) (c : F) (n : Nat)
      (hc : s.contenders c = .waits n) : t.contenders c = .waits n := by
    have hcd : c ≠ d := by
      rintro rfl
      exact hd n hc
    rw [ht, Function.update_of_ne hcd]
    exact hc
  have hlock {pc : Contender} (hpc : pc.isAcquired = false)
      (ht : t.contenders = Function.update s.contenders d pc) (c : F) (n : Nat)
      (hc : t.contenders c = .acquired n) : s.contenders c = .acquired n := by
    rw [ht] at hc
    by_cases hcd : c = d
    · rw [hcd, Function.update_self] at hc
      rw [hc] at hpc
      cases hpc
    · rwa [Function.update_of_ne hcd] at hc
  have hfree {pc : Contender} (hpc : pc.isAcquired = false)
      (ht : t.contenders = Function.update s.contenders d pc)
      (hothers : ∀ c, c ≠ d → (s.contenders c).isAcquired = false) (c : F) :
      (t.contenders c).isAcquired = false := by
    rw [ht]
    by_cases hcd : c = d
    · rw [hcd, Function.update_self]
      exact hpc
    · rw [Function.update_of_ne hcd]
      exact hothers c hcd
  cases hd : s.contenders d with
  | waits iteration =>
    rw [hs.waits_step hsize hcrowd hd, Option.some.injEq] at h
    subst h
    exact ⟨fun c n hc => hc, fun c n hc => hc, fun base hbase => hbase⟩
  | start =>
    simp only [TrickyLock.step, hd, Option.some.injEq] at h
    have hcount : t.csCount = s.csCount := h ▸ iterate_csCount kIterations s d 0
    obtain ⟨pc, hpc, ht⟩ :=
      (hs.apart (by rw [hd]; rfl)).iterate_crowded hsize hed he kIterations 0
    rw [h] at ht
    refine ⟨hkeeps (by simp [hd]) ht, hlock hpc ht, fun base hbase => ?_⟩
    rcases hbase with hbase | ⟨hbase, hnobody⟩
    · exact .inl (hcount.trans hbase)
    · exact .inr ⟨hcount.trans hbase, hfree hpc ht fun c _ => hnobody c⟩
  | acquired iteration =>
    simp only [TrickyLock.step, hd, Option.ite_none_right_eq_some, Option.some.injEq] at h
    have hcount : t.csCount = s.csCount + 1 := h.2 ▸ iterate_csCount kIterations _ d _
    have hone : (s.contenders d).counted = 1 := by
      rw [hd]
      rfl
    obtain ⟨pc, hpc, ht⟩ :=
      (hs.section_.unlock hone).iterate_crowded hsize hed he kIterations (iteration + 1)
    rw [h.2] at ht
    refine ⟨hkeeps (by simp [hd]) ht, hlock hpc ht, fun base hbase => ?_⟩
    have hholds : (s.contenders d).isAcquired = true := by
      rw [hd]
      rfl
    rcases hbase with hbase | ⟨-, hnobody⟩
    · refine .inr ⟨by omega, hfree hpc ht fun c hcd => ?_⟩
      by_contra hc
      exact hcd (hs.exclusive c d (by simpa using hc) hholds)
    · rw [hnobody d] at hholds
      cases hholds
  | returned => simp [TrickyLock.step, hd] at h

/-- Waiting together is for ever. -/
theorem Inv.crowded_exec {kIterations : Nat} {s t : TrickyLock F} {ls : List F}
    (hsize : Fintype.card F < 2 ^ 64) (hs : s.Inv) (hcrowd : s.Crowded)
    (h : (trickyLock F kIterations).exec s ls = some t) :
    t.Inv ∧ (∀ e n, s.contenders e = .waits n → t.contenders e = .waits n) ∧
      (∀ e n, t.contenders e = .acquired n → s.contenders e = .acquired n) ∧
      ∀ base, s.Entered base → t.Entered base := by
  refine Machine.exec_invariant (I := fun u : TrickyLock F => u.Inv ∧
      (∀ e n, s.contenders e = .waits n → u.contenders e = .waits n) ∧
      (∀ e n, u.contenders e = .acquired n → s.contenders e = .acquired n) ∧
      ∀ base, s.Entered base → u.Entered base) (fun u d v (_ : True) hu hv => ?_)
    (fun _ _ => trivial) ⟨hs, fun e n he => he, fun e n he => he, fun base hb => hb⟩ h
  obtain ⟨hinv, hwaits, hheld, hentered⟩ := hu
  obtain ⟨hstays, hlock, hbase⟩ := hinv.crowded_step hsize (hcrowd.mono hwaits) hv
  exact ⟨hinv.step hsize hv, fun e n he => hstays e n (hwaits e n he),
    fun e n he => hheld e n (hlock e n he), fun base hb => hbase base (hentered base hb)⟩

end TrickyLock

/-- The livelock: once two contenders wait at the same time, whoever waits does so for
ever, whomever the scheduler resumes. It is resumed and changes nothing. Nobody gets
the lock any more, so there is at most one more critical section, of the contender
that has it. -/
theorem trickyLock_livelocks {F : Type} [Fintype F] [DecidableEq F] {kIterations : Nat}
    (hsize : Fintype.card F < 2 ^ 64) {s : TrickyLock F}
    (h : (trickyLock F kIterations).Reachable s) (hcrowd : s.Crowded) {ls : List F}
    {t : TrickyLock F} (hrun : (trickyLock F kIterations).exec s ls = some t) :
    (∀ f n, s.contenders f = .waits n →
        t.contenders f = .waits n ∧ (trickyLock F kIterations).step t f = some t) ∧
      (∀ f n, t.contenders f = .acquired n → s.contenders f = .acquired n) ∧
      t.csCount ≤ s.csCount + 1 := by
  obtain ⟨hinv, hwaits, hheld, hentered⟩ :=
    (trickyLock_inv hsize h).crowded_exec hsize hcrowd hrun
  refine ⟨fun f n hf => ⟨hwaits f n hf, ?_⟩, hheld, ?_⟩
  · exact hinv.waits_step hsize (hcrowd.mono hwaits) (hwaits f n hf)
  · rcases hentered s.csCount (.inl rfl) with hsame | ⟨hone, -⟩
    · omega
    · omega

/-- Contender 0 has the lock for the only critical section, and waits behind it. -/
theorem trickyLock_livelocks_two : ∃ s t, (trickyLock (Fin 3) 100).Reachable s ∧ s.Crowded ∧
    s.contenders 0 = .acquired 0 ∧ (trickyLock (Fin 3) 100).exec s [1, 0, 2] = some t ∧
      t.contenders 0 = .waits 1 ∧ (trickyLock (Fin 3) 100).step t 1 = some t ∧
      t.csCount ≤ s.csCount + 1 := by
  let s := ((trickyLock (Fin 3) 100).exec (trickyLock (Fin 3) 100).init [0, 1, 2]).get rfl
  have h : (trickyLock (Fin 3) 100).Reachable s := Machine.reachable_of_exec [0, 1, 2] rfl
  have hcrowd : s.Crowded := ⟨1, 2, 0, 0, by decide, rfl, rfl⟩
  have hrun : (trickyLock (Fin 3) 100).exec s [1, 0, 2] = some _ := rfl
  obtain ⟨hwaits, -, hentered⟩ := trickyLock_livelocks (by decide) h hcrowd hrun
  exact ⟨s, _, h, hcrowd, rfl, hrun, by decide, (hwaits 1 0 rfl).2, hentered⟩

namespace TrickyLock
variable {F : Type} [Fintype F] [DecidableEq F]

/-- The only critical section is over. -/
structure Queued (s : TrickyLock F) : Prop where
  crowded : s.Crowded
  csCount : s.csCount = 1
  places : ∀ e, s.contenders e = .start ∨ ∃ n, s.contenders e = .waits n

theorem Queued.step {kIterations : Nat} {s t : TrickyLock F} {d : F}
    (hsize : Fintype.card F < 2 ^ 64) (hpos : 0 < kIterations) (hs : s.Inv) (hq : s.Queued)
    (h : s.step kIterations d = some t) : t.Queued := by
  have hstays := (hs.crowded_step hsize hq.crowded h).1
  have hcrowded : t.Crowded := hq.crowded.mono hstays
  rcases hq.places d with hd | ⟨n, hd⟩
  · simp only [TrickyLock.step, hd, Option.some.injEq] at h
    subst h
    obtain ⟨e, hed, he⟩ := hq.crowded.exists_other d
    have htest := (hs.apart (by rw [hd]; rfl)).test_waits hsize hed he 0
    have hiterate : s.iterate kIterations d 0 = s.test d 0 := if_pos hpos
    rw [hiterate] at hcrowded ⊢
    refine ⟨hcrowded, hq.csCount, fun c => ?_⟩
    rw [htest]
    by_cases hcd : c = d
    · exact .inr ⟨0, by rw [hcd, Function.update_self]⟩
    · rw [Function.update_of_ne hcd]
      exact hq.places c
  · rw [hs.waits_step hsize hq.crowded hd, Option.some.injEq] at h
    exact h ▸ hq

omit [Fintype F] in
/-- `f` takes the lock, `g` finds it taken, `f` comes back for it. -/
theorem queued_of_overlap {kIterations : Nat} (htwice : 2 ≤ kIterations) {f g : F} (hfg : f ≠ g) :
    ∃ s, (trickyLock F kIterations).exec (trickyLock F kIterations).init [f, g, f] = some s ∧
      s.Queued := by
  have hone : 0 < kIterations := by omega
  have htwo : 0 + 1 < kIterations := by omega
  let s : TrickyLock F := ⟨0, 0, fun _ => .start⟩
  let t : TrickyLock F := ⟨1, 0, Function.update s.contenders f (.acquired 0)⟩
  let u : TrickyLock F := ⟨2, 0, Function.update t.contenders g (.waits 0)⟩
  let v : TrickyLock F := ⟨2, 1, Function.update u.contenders f (.waits 1)⟩
  have hfirst : s.step kIterations f = some t := by
    simp [s, t, TrickyLock.step, TrickyLock.iterate, TrickyLock.test, hone]
  have hsecond : t.step kIterations g = some u := by
    simp [s, t, u, TrickyLock.step, TrickyLock.iterate, TrickyLock.test, hone, hfg.symm]
  have hthird : u.step kIterations f = some v := by
    simp [s, t, u, v, TrickyLock.step, TrickyLock.iterate, TrickyLock.test, TrickyLock.unlock,
      htwo, hfg]
  refine ⟨v, ?_, ⟨f, g, 1, 0, hfg, ?_, ?_⟩, rfl, fun e => ?_⟩
  · show (s.step kIterations f).bind (fun t => (t.step kIterations g).bind fun u =>
      (u.step kIterations f).bind some) = some v
    rw [hfirst, Option.bind_some, hsecond, Option.bind_some, hthird, Option.bind_some]
  · simp [v]
  · simp [v, u, hfg.symm]
  · by_cases hef : e = f
    · exact .inr ⟨1, by simp [v, hef]⟩
    · by_cases heg : e = g
      · exact .inr ⟨0, by simp [v, u, heg, hfg.symm]⟩
      · exact .inl (by simp [v, u, t, s, hef, heg])

end TrickyLock

/-- The simulation: where one of the contenders comes to its second iteration while
another one waits, there is one critical section, and all contenders can go on. -/
theorem trickyLock_simulation {F : Type} [Fintype F] [DecidableEq F] {kIterations : Nat}
    (hsize : Fintype.card F < 2 ^ 64) (htwice : 2 ≤ kIterations) {f g : F} (hfg : f ≠ g)
    {ls : List F} {s : TrickyLock F}
    (hrun : (trickyLock F kIterations).exec (trickyLock F kIterations).init
      (f :: g :: f :: ls) = some s) :
    s.csCount = 1 ∧ ∀ d, ((trickyLock F kIterations).step s d).isSome := by
  have hpos : 0 < kIterations := by omega
  obtain ⟨u, hu, hqueued⟩ := TrickyLock.queued_of_overlap htwice hfg
  have hrest : (trickyLock F kIterations).exec u ls = some s := by
    rw [show f :: g :: f :: ls = [f, g, f] ++ ls from rfl, Machine.exec_append, hu,
      Option.bind_some] at hrun
    exact hrun
  have hinv := trickyLock_inv hsize (Machine.reachable_of_exec _ hu)
  obtain ⟨hs, hq⟩ := Machine.exec_invariant (I := fun u : TrickyLock F => u.Inv ∧ u.Queued)
    (fun u d v (_ : True) hu hv => ⟨hu.1.step hsize hv, hu.2.step hsize hpos hu.1 hv⟩)
    (fun _ _ => trivial) ⟨hinv, hqueued⟩ hrest
  refine ⟨hq.csCount, fun d => ?_⟩
  rcases hq.places d with hd | ⟨n, hd⟩
  · simp [trickyLock, TrickyLock.step, hd]
  · simp [trickyLock, TrickyLock.step, hd]

/-- Two contenders that take turns. -/
theorem trickyLock_simulation_two : ∃ s, (trickyLock (Fin 2) 100).exec
    (trickyLock (Fin 2) 100).init (0 :: 1 :: 0 :: [1, 0, 1, 0]) = some s ∧ s.csCount = 1 ∧
      ((trickyLock (Fin 2) 100).step s 0).isSome := by
  have hrun : (trickyLock (Fin 2) 100).exec (trickyLock (Fin 2) 100).init
      (0 :: 1 :: 0 :: [1, 0, 1, 0]) = some _ := rfl
  obtain ⟨hcount, hgoes⟩ := trickyLock_simulation (by decide) (by decide) (by decide) hrun
  exact ⟨_, hrun, hcount, hgoes 0⟩

end ConcurrentProgramming.Sync
