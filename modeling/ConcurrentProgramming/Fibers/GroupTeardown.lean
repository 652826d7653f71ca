import ConcurrentProgramming.Fibers.SharedGroup

/-!
What `Wait` promises when it returns: `n` has been added, `n` calls of `Done` and one
of `Wait` run in any order, and after `Wait` nobody touches the group any more.
-/

set_option autoImplicit false

namespace ConcurrentProgramming.Fibers
open Interleaving

def SharedGroupLabel.added {ι : Type} : SharedGroupLabel ι → Nat
  | .add _ count => count
  | _ => 0

/-- Labels of a run in which `Add` alone is called. -/
def SharedGroupLabel.ofAdds {ι : Type} : SharedGroupLabel ι → Bool
  | .add _ _ | .step _ => true
  | _ => false

/-- Labels of a run in which `Add` is not called any more. -/
def SharedGroupLabel.ofDones {ι : Type} : SharedGroupLabel ι → Bool
  | .add _ _ => false
  | _ => true

def SharedGroupLabel.isDone {ι : Type} : SharedGroupLabel ι → Bool
  | .done _ => true
  | _ => false

/-- What an `Add` has still to add. -/
def GroupCall.pending : GroupCall → Nat
  | .add _ .useEnd => 0
  | .add count _ => count
  | _ => 0

def DonePc.outstanding : DonePc → Nat
  | .useBegin | .assert | .fetchSub => 1
  | .storeDone | .lock | .pop | .awake | .unlock | .useEnd => 0

def GroupCall.outstanding : GroupCall → Nat
  | .done pc => pc.outstanding
  | .idle | .add _ _ => 0

def GroupCall.active : GroupCall → Nat
  | .idle => 0
  | .add _ _ | .done _ => 1

/-- The `Done` that has brought the count to zero. -/
def DonePc.closing : DonePc → Bool
  | .storeDone | .lock | .pop | .awake | .unlock => true
  | .useBegin | .assert | .fetchSub | .useEnd => false

def GroupCall.closing : GroupCall → Bool
  | .done pc => pc.closing
  | .idle | .add _ _ => false

def DonePc.holds : DonePc → Bool
  | .pop | .awake | .unlock => true
  | .useBegin | .assert | .fetchSub | .storeDone | .lock | .useEnd => false

def GroupCall.holds : GroupCall → Bool
  | .done pc => pc.holds
  | .idle | .add _ _ => false

def Waiter.holds : Waiter → Bool
  | .setAwaiter | .unlock | .leave => true
  | _ => false

def Suspender.holds : Suspender → Bool
  | .push | .compare | .unlink | .schedule | .unlock => true
  | .idle | .lock => false

/-- How many steps the fiber is from its return, if the flag stays up. -/
def Waiter.rank : Waiter → Nat
  | .notCalled | .returned => 0
  | .spin => 1
  | .load => 2
  | .leave => 3
  | .relock => 4
  | .scheduled => 5
  | .suspended => 6
  | .suspend => 13
  | .unlock => 14
  | .setAwaiter => 15
  | .lock => 16

def Suspender.rank : Suspender → Nat
  | .idle => 0
  | .unlock => 1
  | .schedule => 2
  | .unlink => 3
  | .compare => 4
  | .push => 5
  | .lock => 6

namespace SharedGroup

def rank {ι : Type} (s : SharedGroup ι) : Nat := s.waiter.rank + s.suspender.rank

def holds {ι : Type} (s : SharedGroup ι) : LockOwner ι → Bool
  | .caller i => (s.calls i).holds
  | .waiter => s.waiter.holds
  | .suspender => s.suspender.holds

/-- While only `Add` is called; `m` is the total of the calls. -/
structure AddInv {ι : Type} [Fintype ι] (m : Nat) (s : SharedGroup ι) : Prop where
  count : s.tasks + tally Finset.univ GroupCall.pending s.calls = m
  nonneg : 0 ≤ s.tasks
  noDone : ∀ i pc, s.calls i ≠ .done pc
  fresh : s.isDone = false ∧ s.queue = [] ∧ s.lock = none ∧ s.waiter = .notCalled ∧
    s.suspender = .idle

/-- What the `k` calls of `Done` so far have made of the count `n`. -/
structure CountInv {ι : Type} [Fintype ι] (n k : Nat) (s : SharedGroup ι) : Prop where
  count : s.tasks + k = n + tally Finset.univ GroupCall.outstanding s.calls
  active : tally Finset.univ GroupCall.active s.calls ≤ k
  le : k ≤ n
  noAdd : ∀ i count pc, s.calls i ≠ .add count pc
  closing : ∀ i, (s.calls i).closing = true → s.tasks = 0
  unique : ∀ i j, (s.calls i).closing = true → (s.calls j).closing = true → i = j
  flag : s.isDone = true ↔ s.tasks = 0 ∧ ∀ i, s.calls i ≠ .done .storeDone

def LockInv {ι : Type} (s : SharedGroup ι) : Prop :=
  ∀ owner, s.lock = some owner ↔ s.holds owner = true

/-- Where the fiber and its awaiter are, seen from the thread in `AwaitSuspend`. -/
def Settled {ι : Type} (s : SharedGroup ι) : Prop :=
  match s.suspender with
  | .lock | .push | .schedule => s.waiter = .suspended ∧ s.queue = []
  | .compare | .unlink => s.waiter = .suspended ∧ s.queue = [()]
  | .unlock => s.waiter = .suspended ∧ s.queue = [()] ∨
    (s.waiter = .scheduled ∨ s.waiter = .relock) ∧ s.queue = []
  | .idle => s.waiter = .suspended ∧ (s.queue = [()] ∨ s.queue = [] ∧
    ∃ i, s.calls i = .done .awake) ∨ s.waiter ≠ .suspended ∧ s.queue = []

structure ParkInv {ι : Type} (s : SharedGroup ι) : Prop where
  settled : s.Settled
  awake : ∀ i, s.calls i = .done .awake →
    s.waiter = .suspended ∧ s.suspender = .idle ∧ s.queue = []
  signalled : s.queue = [()] → s.suspender = .idle ∨ s.suspender = .unlock →
    s.isDone = false ∨ ∃ i, s.calls i = .done .lock ∨ s.calls i = .done .pop
  waited : s.waiter = .spin ∨ s.waiter = .returned → s.isDone = true

structure TearInv {ι : Type} [Fintype ι] (n k : Nat) (s : SharedGroup ι) : Prop where
  counts : s.CountInv n k
  locks : s.LockInv
  parks : s.ParkInv
  returned : s.waiter = .returned → k = n ∧ s.Quiet

/-- The claim, after `k` of the `n` calls of `Done` have started. -/
structure TornDown {ι : Type} [DecidableEq ι] (n k : Nat) (s : SharedGroup ι) : Prop where
  asserted : ∀ i, s.calls i = .done .assert → (s.callStep i).isSome = true
  returned : s.waiter = .returned → k = n ∧ s.Quiet ∧ s.queue = [] ∧ s.lock = none ∧
    s.suspender = .idle
  parked : k = n → s.Quiet → s.waiter = .suspended → s.suspender ≠ .idle
  progress : k = n → s.Quiet → s.waiter ≠ .notCalled → s.waiter ≠ .returned →
    ∃ t, s.waitStep = some t ∨ s.suspendStep = some t
  finite : k = n → s.Quiet → ∀ ls t, (∀ l ∈ ls, l = .wait ∨ l = .suspend) →
    (sharedGroup ι).exec s ls = some t → ls.length ≤ s.rank

/-! The calls of `Add`. -/

theorem AddInv.step {ι : Type} [Fintype ι] [DecidableEq ι] {m : Nat} {s t : SharedGroup ι}
    (hs : s.AddInv m) {l : SharedGroupLabel ι} (hl : l.ofAdds = true) (hm : m + l.added < 2 ^ 63)
    (h : s.step l = some t) : t.AddInv (m + l.added) := by
  have hcount := hs.count
  have hnonneg := hs.nonneg
  have hother {i : ι} {c : GroupCall} (hc : ∀ pc, c ≠ .done pc) :
      ∀ j pc, Function.update s.calls i c j ≠ .done pc := by
    intro j pc
    by_cases hj : j = i
    · simpa [hj] using hc pc
    · simpa [hj] using hs.noDone j pc
  cases l with
  | done _ | callWait | wait | suspend => cases hl
  | add i count =>
    simp only [SharedGroup.step, Option.ite_none_right_eq_some, Option.some.injEq] at h
    obtain ⟨⟨hi, -⟩, rfl⟩ := h
    have htally := tally_update GroupCall.pending s.calls (Finset.mem_univ i) (.add count .useBegin)
    rw [hi] at htally
    simp only [GroupCall.pending, SharedGroupLabel.added] at htally ⊢
    exact ⟨by simp only [goto]; omega, hnonneg, hother (by simp), hs.fresh⟩
  | step i =>
    simp only [SharedGroup.step, callStep] at h
    cases hi : s.calls i with
    | idle => simp [hi] at h
    | done pc => exact (hs.noDone i pc hi).elim
    | add count pc =>
      simp only [hi, Option.some.injEq] at h
      subst h
      have hsame {c : GroupCall} (hc : c.pending = (s.calls i).pending) :
          s.tasks + tally Finset.univ GroupCall.pending (Function.update s.calls i c) = m := by
        rw [tally_update_of_eq _ _ hc]
        exact hcount
      cases pc with
      | useBegin => exact ⟨hsame (by rw [hi]; rfl), hnonneg, hother (by simp), hs.fresh⟩
      | load =>
        refine ⟨hsame ?_, hnonneg, hother (by simp), hs.fresh⟩
        rw [hi]
        split <;> rfl
      | clear prev =>
        exact ⟨hsame (by rw [hi]; rfl), hnonneg, hother (by simp), rfl, hs.fresh.2⟩
      | fetchAdd prev =>
        have htally := tally_update GroupCall.pending s.calls (Finset.mem_univ i)
          (.add count .useEnd)
        rw [hi] at htally
        simp only [GroupCall.pending, SharedGroupLabel.added] at htally hm
        refine ⟨?_, ?_, hother (by simp), hs.fresh⟩
        · simp only [addStep, goto, int64, SharedGroupLabel.added]
          omega
        · simp only [addStep, int64]
          omega
      | useEnd => exact ⟨hsame (by rw [hi]; rfl), hnonneg, hother (by simp), hs.fresh⟩

theorem AddInv.exec {ι : Type} [Fintype ι] [DecidableEq ι] {m : Nat} {s t : SharedGroup ι}
    (hs : s.AddInv m) {ls : List (SharedGroupLabel ι)} (hls : ∀ l ∈ ls, l.ofAdds = true)
    (hm : m + (ls.map SharedGroupLabel.added).sum < 2 ^ 63)
    (h : (sharedGroup ι).exec s ls = some t) :
    t.AddInv (m + (ls.map SharedGroupLabel.added).sum) := by
  induction ls generalizing m s with
  | nil =>
    simp only [Machine.exec_nil, Option.some.injEq] at h
    exact h ▸ hs
  | cons l ls ih =>
    obtain ⟨u, hu, h⟩ := Option.bind_eq_some_iff.mp h
    simp only [List.map_cons, List.sum_cons, ← Nat.add_assoc] at hm ⊢
    have hl := hs.step (hls l (by simp)) (by omega) hu
    exact ih hl (fun k hk => hls k (by simp [hk])) hm h

theorem addInv_init (ι : Type) [Fintype ι] [DecidableEq ι] : (sharedGroup ι).init.AddInv 0 :=
  ⟨by simp [sharedGroup, tally, GroupCall.pending], Int.le_refl _, nofun, rfl, rfl, rfl, rfl, rfl⟩

/-- When all calls of `Add` have returned. -/
theorem AddInv.tearInv {ι : Type} [Fintype ι] {n : Nat} {s : SharedGroup ι} (hs : s.AddInv n)
    (hn : 1 ≤ n) (hquiet : s.Quiet) : s.TearInv n 0 := by
  obtain ⟨hdone, hqueue, hlock, hwaiter, hsuspender⟩ := hs.fresh
  have hzero (weight : GroupCall → Nat) (hidle : weight .idle = 0) :
      tally Finset.univ weight s.calls = 0 :=
    tally_eq_zero.mpr fun i _ => by rw [hquiet i, hidle]
  have hcount := hs.count
  rw [hzero GroupCall.pending rfl] at hcount
  refine ⟨⟨?_, ?_, Nat.zero_le _, ?_, ?_, ?_, ?_⟩, ?_, ⟨?_, ?_, ?_, ?_⟩, ?_⟩
  · rw [hzero GroupCall.outstanding rfl]
    omega
  · rw [hzero GroupCall.active rfl]
  · simp [hquiet _]
  · simp [hquiet _, GroupCall.closing]
  · simp [hquiet _, GroupCall.closing]
  · simp only [hdone, Bool.false_eq_true, false_iff, not_and]
    omega
  · intro owner
    cases owner <;> simp [hlock, holds, hquiet _, hwaiter, hsuspender, GroupCall.holds,
      Waiter.holds, Suspender.holds]
  · simp [Settled, hsuspender, hwaiter, hqueue]
  · simp [hquiet _]
  · simp [hqueue]
  · simp [hwaiter]
  · simp [hwaiter]

/-! The count. -/

theorem outstanding_le_active (c : GroupCall) : c.outstanding ≤ c.active := by
  cases c with
  | idle | add _ _ => exact Nat.zero_le _
  | done pc => cases pc <;> decide

theorem uses_le_active (c : GroupCall) : c.uses ≤ c.active := by
  cases c with
  | idle => exact Nat.le_refl _
  | add _ pc | done pc =>
    cases pc <;> simp [GroupCall.uses, GroupCall.active, Add.uses, DonePc.uses]

theorem CountInv.bounds {ι : Type} [Fintype ι] {n k : Nat} {s : SharedGroup ι}
    (hs : s.CountInv n k) : (n - k : Nat) ≤ s.tasks ∧ s.tasks ≤ n := by
  have hle : tally Finset.univ GroupCall.outstanding s.calls ≤
      tally Finset.univ GroupCall.active s.calls :=
    Finset.sum_le_sum fun i _ => outstanding_le_active (s.calls i)
  have hcount := hs.count
  have hactive := hs.active
  have hk := hs.le
  omega

/-- A `Done` before its `fetch_sub` keeps the count above zero. -/
theorem CountInv.tasks_pos {ι : Type} [Fintype ι] {n k : Nat} {s : SharedGroup ι}
    (hs : s.CountInv n k) {i : ι} (hi : (s.calls i).outstanding = 1) : 0 < s.tasks := by
  have hle := le_tally GroupCall.outstanding s.calls (Finset.mem_univ i)
  have hcount := hs.count
  have hk := hs.le
  omega

/-- At zero every `Done` has been called and has subtracted. -/
theorem CountInv.ended {ι : Type} [Fintype ι] {n k : Nat} {s : SharedGroup ι}
    (hs : s.CountInv n k) (hzero : s.tasks = 0) :
    k = n ∧ ∀ i, (s.calls i).outstanding = 0 := by
  have hcount := hs.count
  have hk := hs.le
  refine ⟨by omega, fun i => ?_⟩
  have hle := le_tally GroupCall.outstanding s.calls (Finset.mem_univ i)
  omega

theorem CountInv.counters {ι : Type} [Fintype ι] {n k : Nat} {s t : SharedGroup ι}
    (hs : s.CountInv n k) (h : s.Counters t) : t.CountInv n k := by
  obtain ⟨htasks, hdone, -, hcalls⟩ := h
  obtain ⟨hcount, hactive, hk, hadd, hclosing, hunique, hflag⟩ := hs
  exact ⟨htasks ▸ hcalls ▸ hcount, hcalls ▸ hactive, hk, hcalls ▸ hadd,
    htasks ▸ hcalls ▸ hclosing, hcalls ▸ hunique, htasks ▸ hdone ▸ hcalls ▸ hflag⟩

/-- A call goes on without touching the count or the flag. -/
theorem CountInv.move {ι : Type} [Fintype ι] [DecidableEq ι] {n k : Nat} {s t : SharedGroup ι}
    (hs : s.CountInv n k) {i : ι} {c : GroupCall} (hcalls : t.calls = Function.update s.calls i c)
    (htasks : t.tasks = s.tasks) (hdone : t.isDone = s.isDone)
    (hout : c.outstanding = (s.calls i).outstanding) (hactive : c.active ≤ (s.calls i).active)
    (hadd : ∀ count pc, c ≠ .add count pc)
    (hclosing : c.closing = true → (s.calls i).closing = true)
    (hstore : c ≠ .done .storeDone) (hwas : s.calls i ≠ .done .storeDone) : t.CountInv n k := by
  have hself : t.calls i = c := by simp [hcalls]
  have hother {j : ι} (hj : j ≠ i) : t.calls j = s.calls j := by simp [hcalls, hj]
  have hcloses {j : ι} (hj : (t.calls j).closing = true) : (s.calls j).closing = true := by
    by_cases he : j = i
    · subst he
      exact hclosing (hself ▸ hj)
    · exact hother he ▸ hj
  refine ⟨?_, ?_, hs.le, fun j count pc => ?_, fun j hj => ?_, fun j m hj hm => ?_, ?_⟩
  · rw [htasks, hcalls, tally_update_of_eq _ _ hout]
    exact hs.count
  · rw [hcalls]
    exact Nat.le_trans (tally_update_le _ _ hactive) hs.active
  · by_cases he : j = i
    · rw [he, hself]
      exact hadd count pc
    · rw [hother he]
      exact hs.noAdd j count pc
  · exact htasks.trans (hs.closing j (hcloses hj))
  · exact hs.unique j m (hcloses hj) (hcloses hm)
  · rw [hdone, htasks, hs.flag]
    apply and_congr_right
    intro _
    constructor
    · intro hall j
      by_cases he : j = i
      · rw [he, hself]
        exact hstore
      · rw [hother he]
        exact hall j
    · intro hall j
      by_cases he : j = i
      · rw [he]
        exact hwas
      · rw [← hother he]
        exact hall j

/-- A `Done` between its `fetch_sub` and its end. -/
theorem CountInv.done {ι : Type} [Fintype ι] [DecidableEq ι] {n k : Nat} {s t : SharedGroup ι}
    (hs : s.CountInv n k) {i : ι} {pc pc' : DonePc} (hi : s.calls i = .done pc)
    (hcalls : t.calls = Function.update s.calls i (.done pc')) (htasks : t.tasks = s.tasks)
    (hdone : t.isDone = s.isDone) (hout : pc'.outstanding = pc.outstanding)
    (hclosing : pc'.closing = true → pc.closing = true) (hstore : pc' ≠ .storeDone)
    (hwas : pc ≠ .storeDone) : t.CountInv n k := by
  refine hs.move hcalls htasks hdone ?_ ?_ nofun ?_ ?_ ?_
  · rw [hi]
    exact hout
  · rw [hi]
    exact Nat.le_refl _
  · rw [hi]
    exact hclosing
  · exact fun h => hstore (GroupCall.done.inj h)
  · rw [hi]
    exact fun h => hwas (GroupCall.done.inj h)

theorem CountInv.start {ι : Type} [Fintype ι] [DecidableEq ι] {n k : Nat} {s : SharedGroup ι}
    (hs : s.CountInv n k) {i : ι} (hi : s.calls i = .idle) (hk : k < n) :
    (s.goto i (.done .useBegin)).CountInv n (k + 1) := by
  have hself : (s.goto i (.done .useBegin)).calls i = .done .useBegin := by simp [goto]
  have hother {j : ι} (hj : j ≠ i) : (s.goto i (.done .useBegin)).calls j = s.calls j := by
    simp [goto, hj]
  have hpos : s.tasks ≠ 0 := by
    have hbounds := hs.bounds
    omega
  have hout := tally_update GroupCall.outstanding s.calls (Finset.mem_univ i) (.done .useBegin)
  have hactive := tally_update GroupCall.active s.calls (Finset.mem_univ i) (.done .useBegin)
  have hcount := hs.count
  have hbound := hs.active
  rw [hi] at hout hactive
  simp only [GroupCall.outstanding, DonePc.outstanding, GroupCall.active] at hout hactive
  have hnone (j : ι) : ((s.goto i (.done .useBegin)).calls j).closing = false := by
    by_cases he : j = i
    · rw [he, hself]
      rfl
    · rw [hother he]
      exact Bool.eq_false_iff.mpr fun hj => hpos (hs.closing j hj)
  refine ⟨by simp only [goto]; omega, by simp only [goto]; omega, hk, fun j count pc => ?_,
    fun j hj => ?_, fun j m hj => ?_, ?_⟩
  · by_cases he : j = i
    · rw [he, hself]
      simp
    · rw [hother he]
      exact hs.noAdd j count pc
  · exact (Bool.false_ne_true ((hnone j).symm.trans hj)).elim
  · exact (Bool.false_ne_true ((hnone j).symm.trans hj)).elim
  · have hflag := hs.flag
    simp only [hpos, false_and, iff_false] at hflag
    exact iff_of_false hflag fun h => hpos h.1

theorem CountInv.fetchSub {ι : Type} [Fintype ι] [DecidableEq ι] {n k : Nat} {s : SharedGroup ι}
    (hs : s.CountInv n k) (hn : n < 2 ^ 63) {i : ι} (hi : s.calls i = .done .fetchSub) :
    CountInv n k { s.goto i (.done (if s.tasks = 1 then .storeDone else .useEnd)) with
      tasks := int64 (s.tasks - 1) } := by
  have hpos := hs.tasks_pos (i := i) (by rw [hi]; rfl)
  have hbounds := hs.bounds
  have hint : int64 (s.tasks - 1) = s.tasks - 1 := by
    unfold int64
    omega
  have hopen (j : ι) : (s.calls j).closing = false :=
    Bool.eq_false_iff.mpr fun hj => (ne_of_gt hpos) (hs.closing j hj)
  have hcount := hs.count
  have hbound := hs.active
  have hflag : s.isDone = false :=
    Bool.eq_false_iff.mpr fun hdone => (ne_of_gt hpos) (hs.flag.mp hdone).1
  generalize hc : (.done (if s.tasks = 1 then .storeDone else .useEnd) : GroupCall) = c
  have hout := tally_update GroupCall.outstanding s.calls (Finset.mem_univ i) c
  have hactive : c.active ≤ (s.calls i).active := by rw [hi, ← hc]; rfl
  have hzero : c.outstanding = 0 := by
    rw [← hc]
    split <;> rfl
  have hself : (s.goto i c).calls i = c := by simp [goto]
  have hother {j : ι} (hj : j ≠ i) : (s.goto i c).calls j = s.calls j := by simp [goto, hj]
  have hcloses {j : ι} (hj : ((s.goto i c).calls j).closing = true) : j = i := by
    by_contra he
    rw [hother he, hopen j] at hj
    cases hj
  have hwas : (s.calls i).outstanding = 1 := by rw [hi]; rfl
  rw [hwas, hzero] at hout
  refine ⟨?_, Nat.le_trans (tally_update_le _ _ hactive) hs.active, hs.le, fun j count pc => ?_,
    fun j hj => ?_, fun j m hj hm => (hcloses hj).trans (hcloses hm).symm, ?_⟩
  · simp only [goto, hint]
    omega
  · by_cases he : j = i
    · rw [he]
      simp [goto, ← hc]
    · simpa [goto, he] using hs.noAdd j count pc
  · obtain rfl := hcloses hj
    have hclosing : c.closing = true := by simpa [goto] using hj
    simp only [hint]
    by_cases hone : s.tasks = 1
    · omega
    · rw [← hc, if_neg hone] at hclosing
      cases hclosing
  · simp only [hint]
    refine iff_of_false (by simp [goto, hflag]) fun h => ?_
    have hone : s.tasks = 1 := by omega
    exact h.2 i (by simp [goto, ← hc, hone])

theorem CountInv.storeDone {ι : Type} [Fintype ι] [DecidableEq ι] {n k : Nat} {s : SharedGroup ι}
    (hs : s.CountInv n k) {i : ι} (hi : s.calls i = .done .storeDone) :
    CountInv n k { s.goto i (.done .lock) with isDone := true } := by
  have hself : (s.goto i (.done .lock)).calls i = .done .lock := by simp [goto]
  have hother {j : ι} (hj : j ≠ i) : (s.goto i (.done .lock)).calls j = s.calls j := by
    simp [goto, hj]
  have hwas : (s.calls i).closing = true := by rw [hi]; rfl
  have hcloses {j : ι} (hj : ((s.goto i (.done .lock)).calls j).closing = true) :
      (s.calls j).closing = true := by
    by_cases he : j = i
    · exact he ▸ hwas
    · exact hother he ▸ hj
  refine ⟨?_, ?_, hs.le, fun j count pc => ?_, fun j hj => hs.closing j (hcloses hj),
    fun j m hj hm => hs.unique j m (hcloses hj) (hcloses hm), ?_⟩
  · have hsame : (GroupCall.done .lock).outstanding = (s.calls i).outstanding := by rw [hi]; rfl
    simp only [goto, tally_update_of_eq _ _ hsame]
    exact hs.count
  · exact Nat.le_trans (tally_update_le _ _ (by rw [hi]; exact Nat.le_refl _)) hs.active
  · by_cases he : j = i
    · simp [he, goto]
    · simpa [goto, he] using hs.noAdd j count pc
  · refine iff_of_true rfl ⟨hs.closing i hwas, fun j hj => ?_⟩
    by_cases he : j = i
    · simp [he, goto] at hj
    · have hj' : s.calls j = .done .storeDone := by simpa [goto, he] using hj
      exact he (hs.unique j i (by rw [hj']; rfl) hwas)

/-! The lock. -/

theorem LockInv.move {ι : Type} {s t : SharedGroup ι} (hs : s.LockInv) {owner : LockOwner ι}
    (hothers : ∀ p, p ≠ owner → t.holds p = s.holds p)
    (hlock : t.lock = s.lock ∧ t.holds owner = s.holds owner ∨
      s.lock = none ∧ t.lock = some owner ∧ t.holds owner = true ∨
      s.holds owner = true ∧ t.lock = none ∧ t.holds owner = false) : t.LockInv := by
  intro p
  by_cases hp : p = owner
  · subst hp
    rcases hlock with ⟨hlock, hholds⟩ | ⟨-, hlock, hholds⟩ | ⟨-, hlock, hholds⟩
    · rw [hlock, hholds]
      exact hs p
    · simp [hlock, hholds]
    · simp [hlock, hholds]
  · rw [hothers p hp, ← hs p]
    rcases hlock with ⟨hlock, -⟩ | ⟨hfree, hlock, -⟩ | ⟨hheld, hlock, -⟩
    · rw [hlock]
    · simp [hfree, hlock, Ne.symm hp]
    · simp [(hs owner).mpr hheld, hlock, Ne.symm hp]

theorem LockInv.alone {ι : Type} {s : SharedGroup ι} (hs : s.LockInv) {p q : LockOwner ι}
    (hp : s.holds p = true) (hq : s.holds q = true) : p = q :=
  Option.some.inj (((hs p).mpr hp).symm.trans ((hs q).mpr hq))

theorem holds_call {ι : Type} [DecidableEq ι] {s t : SharedGroup ι} {i : ι} {c : GroupCall}
    (hcalls : t.calls = Function.update s.calls i c) (hwaiter : t.waiter.holds = s.waiter.holds)
    (hsuspender : t.suspender = s.suspender) :
    ∀ p, p ≠ .caller i → t.holds p = s.holds p := by
  intro p hp
  cases p with
  | caller j =>
    have hj : j ≠ i := fun he => hp (he ▸ rfl)
    simp [holds, hcalls, hj]
  | waiter => exact hwaiter
  | suspender => simp [holds, hsuspender]

/-- A call goes on and does not touch the lock. -/
theorem LockInv.call {ι : Type} [DecidableEq ι] {s t : SharedGroup ι} (hs : s.LockInv) {i : ι}
    {c : GroupCall} (hcalls : t.calls = Function.update s.calls i c) (hlock : t.lock = s.lock)
    (hwaiter : t.waiter.holds = s.waiter.holds) (hsuspender : t.suspender = s.suspender)
    (hc : c.holds = (s.calls i).holds) : t.LockInv :=
  hs.move (holds_call hcalls hwaiter hsuspender) (.inl ⟨hlock, by simp [holds, hcalls, hc]⟩)

theorem holds_wait {ι : Type} {s t : SharedGroup ι} (hcalls : t.calls = s.calls)
    (hsuspender : t.suspender.holds = s.suspender.holds) :
    ∀ p, p ≠ .waiter → t.holds p = s.holds p := by
  intro p hp
  cases p with
  | caller j => simp [holds, hcalls]
  | waiter => exact (hp rfl).elim
  | suspender => exact hsuspender

theorem holds_suspend {ι : Type} {s t : SharedGroup ι} (hcalls : t.calls = s.calls)
    (hwaiter : t.waiter.holds = s.waiter.holds) :
    ∀ p, p ≠ .suspender → t.holds p = s.holds p := by
  intro p hp
  cases p with
  | caller j => simp [holds, hcalls]
  | waiter => exact hwaiter
  | suspender => exact (hp rfl).elim

/-! The fiber and its awaiter. -/

/-- A fiber that is not suspended has no awaiter in the queue. -/
theorem ParkInv.apart {ι : Type} {s : SharedGroup ι} (hs : s.ParkInv)
    (hw : s.waiter ≠ .suspended) : s.queue = [] ∧ (s.suspender = .idle ∨
      s.suspender = .unlock ∧ (s.waiter = .scheduled ∨ s.waiter = .relock)) := by
  have hsettled := hs.settled
  unfold Settled at hsettled
  cases hsuspender : s.suspender <;> simp_all

theorem ParkInv.idle {ι : Type} {s : SharedGroup ι} (hs : s.ParkInv)
    (hw : s.waiter ≠ .suspended ∧ s.waiter ≠ .scheduled ∧ s.waiter ≠ .relock) :
    s.queue = [] ∧ s.suspender = .idle := by
  obtain ⟨hqueue, hidle | ⟨-, hlate⟩⟩ := hs.apart hw.1
  · exact ⟨hqueue, hidle⟩
  · simp [hw] at hlate

/-- A call goes on outside the wake-up itself; it may raise the flag. -/
theorem ParkInv.call {ι : Type} [DecidableEq ι] {s t : SharedGroup ι} (hs : s.ParkInv) {i : ι}
    {c : GroupCall} (hcalls : t.calls = Function.update s.calls i c)
    (hwaiter : t.waiter = s.waiter) (hsuspender : t.suspender = s.suspender)
    (hqueue : t.queue = s.queue)
    (hdone : t.isDone = s.isDone ∨ t.isDone = true ∧ c = .done .lock)
    (hwas : s.calls i ≠ .done .awake) (his : c ≠ .done .awake)
    (hsignal : s.queue = [()] → s.calls i = .done .lock ∨ s.calls i = .done .pop →
      c = .done .lock ∨ c = .done .pop) : t.ParkInv := by
  have hself : t.calls i = c := by simp [hcalls]
  have hother {j : ι} (hj : j ≠ i) : t.calls j = s.calls j := by simp [hcalls, hj]
  have hawake (j : ι) : t.calls j = .done .awake ↔ s.calls j = .done .awake := by
    by_cases he : j = i
    · rw [he, hself]
      exact iff_of_false his hwas
    · rw [hother he]
  refine ⟨?_, fun j hj => ?_, fun hq hplace => ?_, fun hw => ?_⟩
  · have hsettled := hs.settled
    unfold Settled at hsettled ⊢
    simpa only [hwaiter, hsuspender, hqueue, hawake] using hsettled
  · rw [hwaiter, hsuspender, hqueue]
    exact hs.awake j ((hawake j).mp hj)
  · rw [hqueue] at hq
    rw [hsuspender] at hplace
    rcases hdone with hdone | ⟨-, hc⟩
    · rcases hs.signalled hq hplace with hclear | ⟨j, hj⟩
      · exact .inl (hdone.trans hclear)
      · by_cases he : j = i
        · exact .inr ⟨i, hself ▸ hsignal hq (he ▸ hj)⟩
        · exact .inr ⟨j, hother he ▸ hj⟩
    · exact .inr ⟨i, .inl (hself.trans hc)⟩
  · rw [hwaiter] at hw
    rcases hdone with hdone | ⟨hdone, -⟩
    · exact hdone.trans (hs.waited hw)
    · exact hdone

/-- The fiber goes on by itself. -/
theorem ParkInv.wait {ι : Type} {s t : SharedGroup ι} (hs : s.ParkInv)
    (hwas : s.waiter ≠ .suspended) (his : t.waiter ≠ .suspended) (hqueue : t.queue = [])
    (hsuspender : t.suspender = s.suspender) (hcalls : t.calls = s.calls)
    (hunlock : s.suspender = .unlock → t.waiter = .scheduled ∨ t.waiter = .relock)
    (hwaited : t.waiter = .spin ∨ t.waiter = .returned → t.isDone = true) : t.ParkInv := by
  refine ⟨?_, fun i hi => ?_, fun hq => ?_, hwaited⟩
  · unfold Settled
    rcases (hs.apart hwas).2 with hidle | ⟨hlast, -⟩
    · rw [hsuspender, hidle]
      exact .inr ⟨his, hqueue⟩
    · rw [hsuspender, hlast]
      exact .inr ⟨hunlock hlast, hqueue⟩
  · rw [hcalls] at hi
    exact (hwas (hs.awake i hi).1).elim
  · simp [hqueue] at hq

/-! One step of `Done`. -/

theorem holds_eq_false {c : GroupCall} (hc : c.closing = false) : c.holds = false := by
  cases c with
  | idle | add _ _ => rfl
  | done pc => cases pc <;> first | rfl | cases hc

theorem TearInv.returned_of_busy {ι : Type} [Fintype ι] {n k : Nat} {s t : SharedGroup ι}
    (hs : s.TearInv n k) {i : ι} (hi : s.calls i ≠ .idle) (hwaiter : t.waiter = s.waiter) :
    t.waiter = .returned → k = n ∧ t.Quiet := by
  intro hw
  rw [hwaiter] at hw
  exact (hi ((hs.returned hw).2 i)).elim

/-- The steps that touch neither the count, the flag, the queue nor the lock. -/
theorem TearInv.pass {ι : Type} [Fintype ι] [DecidableEq ι] {n k : Nat} {s t : SharedGroup ι}
    (hs : s.TearInv n k) {i : ι} {pc : DonePc} {c : GroupCall} (hi : s.calls i = .done pc)
    (ht : t = { s with calls := Function.update s.calls i c, using_ := t.using_ })
    (hadd : ∀ count pc, c ≠ .add count pc)
    (hout : c.outstanding = pc.outstanding) (hclosing : c.closing = false)
    (hwas : pc.closing = false) : t.TearInv n k := by
  have hactive : c.active ≤ 1 := by cases c <;> simp [GroupCall.active]
  have hne {q : DonePc} (hq : q.closing = true) : s.calls i ≠ .done q := by
    rw [hi]
    rintro h
    cases h
    rw [hwas] at hq
    cases hq
  have hnc {q : DonePc} (hq : q.closing = true) : c ≠ .done q := by
    rintro rfl
    rw [GroupCall.closing, hq] at hclosing
    cases hclosing
  have hholds : c.holds = (s.calls i).holds := by
    rw [hi, holds_eq_false hclosing, holds_eq_false (c := .done pc) hwas]
  rw [ht]
  refine ⟨hs.counts.move rfl rfl rfl (by rw [hi]; exact hout) (by rw [hi]; exact hactive) hadd
    (by simp [hclosing]) (hnc rfl) (hne rfl), hs.locks.call rfl rfl rfl rfl hholds,
    hs.parks.call rfl rfl rfl rfl (.inl rfl) (hne rfl) (hnc rfl) ?_,
    hs.returned_of_busy (by rw [hi]; nofun) rfl⟩
  rintro - (h | h)
  · exact (hne rfl h).elim
  · exact (hne rfl h).elim

/-- The holder of the lock finds the fiber and its thread elsewhere. -/
theorem TearInv.pop {ι : Type} [Fintype ι] [DecidableEq ι] {n k : Nat} {s : SharedGroup ι}
    (hs : s.TearInv n k) {i : ι} (hi : s.calls i = .done .pop) {rest : List Unit}
    (hqueue : s.queue = () :: rest) :
    TearInv n k { s.goto i (.done .awake) with queue := rest } := by
  have hmine : s.holds (.caller i) = true := by simp [holds, hi, GroupCall.holds, DonePc.holds]
  have hfree : s.suspender.holds = false := by
    refine Bool.eq_false_iff.mpr fun hheld => ?_
    cases hs.locks.alone (q := .suspender) hmine hheld
  have hplace : s.waiter = .suspended ∧ s.suspender = .idle ∧ rest = [] := by
    have hsettled := hs.parks.settled
    unfold Settled at hsettled
    cases hsuspender : s.suspender <;> simp_all [Suspender.holds]
  obtain ⟨hwaiter, hsuspender, rfl⟩ := hplace
  refine ⟨hs.counts.done hi rfl rfl rfl rfl id nofun nofun,
    hs.locks.call rfl rfl rfl rfl (by rw [hi]; rfl), ⟨?_, fun j _ => ?_, nofun, ?_⟩,
    hs.returned_of_busy (by rw [hi]; nofun) rfl⟩
  · simp only [Settled, goto, hsuspender]
    exact .inl ⟨hwaiter, .inr ⟨trivial, i, by simp⟩⟩
  · exact ⟨hwaiter, hsuspender, rfl⟩
  · simp [goto, hwaiter]

theorem TearInv.awake {ι : Type} [Fintype ι] [DecidableEq ι] {n k : Nat} {s : SharedGroup ι}
    (hs : s.TearInv n k) {i : ι} (hi : s.calls i = .done .awake) :
    (s.schedule.goto i (.done .pop)).TearInv n k := by
  obtain ⟨hwaiter, hsuspender, hqueue⟩ := hs.parks.awake i hi
  have hmine : s.holds (.caller i) = true := by simp [holds, hi, GroupCall.holds, DonePc.holds]
  refine ⟨hs.counts.done hi rfl rfl rfl rfl id (by simp) (by simp),
    hs.locks.call rfl rfl (by rw [hwaiter]; rfl) rfl (by rw [hi]; rfl),
    ⟨?_, fun j hj => ?_, fun hq => ?_, by simp [goto, schedule]⟩, by simp [goto, schedule]⟩
  · simp only [Settled, goto, schedule, hsuspender]
    exact .inr ⟨by simp, hqueue⟩
  · by_cases he : j = i
    · simp [he, goto] at hj
    · have hj' : s.calls j = .done .awake := by simpa [goto, schedule, he] using hj
      have htheirs : s.holds (.caller j) = true := by
        simp [holds, hj', GroupCall.holds, DonePc.holds]
      cases hs.locks.alone hmine htheirs
      exact (he rfl).elim
  · rw [show (s.schedule.goto i (.done .pop)).queue = s.queue from rfl, hqueue] at hq
    cases hq

theorem TearInv.doneStep {ι : Type} [Fintype ι] [DecidableEq ι] {n k : Nat}
    {s t : SharedGroup ι} (hs : s.TearInv n k) (hn : n < 2 ^ 63) {i : ι} {pc : DonePc}
    (hi : s.calls i = .done pc) (h : s.doneStep i pc = some t) : t.TearInv n k := by
  have hbusy : s.calls i ≠ .idle := by simp [hi]
  unfold SharedGroup.doneStep at h
  cases pc with
  | useBegin =>
    obtain rfl := Option.some.inj h
    exact hs.pass hi rfl (by simp) rfl rfl rfl
  | assert =>
    simp only [Option.ite_none_right_eq_some, Option.some.injEq] at h
    obtain ⟨-, rfl⟩ := h
    exact hs.pass hi rfl (by simp) rfl rfl rfl
  | fetchSub =>
    obtain rfl := Option.some.inj h
    have hcount := hs.counts.fetchSub hn hi
    generalize hc : (.done (if s.tasks = 1 then .storeDone else .useEnd) : GroupCall) = c
      at hcount ⊢
    have hplain : c.holds = false ∧ c ≠ .done .awake := by
      rw [← hc]
      split <;> exact ⟨rfl, by simp⟩
    refine ⟨hcount, hs.locks.call rfl rfl rfl rfl (by rw [hi]; exact hplain.1),
      hs.parks.call rfl rfl rfl rfl (.inl rfl) (by simp [hi]) hplain.2 (by simp [hi]),
      hs.returned_of_busy hbusy rfl⟩
  | storeDone =>
    obtain rfl := Option.some.inj h
    exact ⟨hs.counts.storeDone hi, hs.locks.call rfl rfl rfl rfl (by rw [hi]; rfl),
      hs.parks.call rfl rfl rfl rfl (.inr ⟨rfl, rfl⟩) (by simp [hi]) (by simp)
        (by simp [hi]), hs.returned_of_busy hbusy rfl⟩
  | lock =>
    obtain ⟨u, hu, rfl⟩ := Option.map_eq_some_iff.mp h
    obtain ⟨hfree, rfl⟩ := acquire_eq hu
    refine ⟨hs.counts.done hi rfl rfl rfl rfl id (by simp) (by simp), ?_,
      hs.parks.call rfl rfl rfl rfl (.inl rfl) (by simp [hi]) (by simp) fun _ _ => .inr rfl,
      hs.returned_of_busy hbusy rfl⟩
    refine hs.locks.move (holds_call rfl rfl rfl) (.inr (.inl ⟨hfree, rfl, ?_⟩))
    simp [holds, goto, GroupCall.holds, DonePc.holds]
  | pop =>
    obtain rfl := Option.some.inj h
    split
    · rename_i hqueue
      refine ⟨hs.counts.done hi rfl rfl rfl rfl id (by simp) (by simp),
        hs.locks.call rfl rfl rfl rfl (by rw [hi]; rfl),
        hs.parks.call rfl rfl rfl rfl (.inl rfl) (by simp [hi]) (by simp) (by simp [hqueue]),
        hs.returned_of_busy hbusy rfl⟩
    · rename_i hqueue
      exact hs.pop hi hqueue
  | awake =>
    obtain rfl := Option.some.inj h
    exact hs.awake hi
  | unlock =>
    obtain rfl := Option.some.inj h
    refine ⟨hs.counts.done hi rfl rfl rfl rfl (by rintro ⟨⟩) (by simp) (by simp), ?_,
      hs.parks.call rfl rfl rfl rfl (.inl rfl) (by simp [hi]) (by simp) (by simp [hi]),
      hs.returned_of_busy hbusy rfl⟩
    refine hs.locks.move (holds_call rfl rfl rfl) (.inr (.inr ⟨?_, rfl, ?_⟩))
    · simp [holds, hi, GroupCall.holds, DonePc.holds]
    · simp [holds, goto, GroupCall.holds, DonePc.holds]
  | useEnd =>
    obtain rfl := Option.some.inj h
    exact hs.pass hi rfl (by simp) rfl rfl rfl

/-! One step of the fiber in `Wait` and of its thread. -/

/-- With the count at zero and nobody counted in `using_`, all calls have returned. -/
theorem CountInv.quiet {ι : Type} [Fintype ι] {n k : Nat} {s : SharedGroup ι}
    (hs : s.CountInv n k) (hn : n < 2 ^ 63) (hu : s.Uses) (hdone : s.isDone = true)
    (husing : s.using_ = 0) : k = n ∧ s.Quiet := by
  obtain ⟨hk, hout⟩ := hs.ended (hs.flag.mp hdone).1
  refine ⟨hk, fun i => ?_⟩
  have hsum : tally Finset.univ GroupCall.uses s.calls ≤
      tally Finset.univ GroupCall.active s.calls :=
    Finset.sum_le_sum fun i _ => uses_le_active (s.calls i)
  have hle := le_tally GroupCall.uses s.calls (Finset.mem_univ i)
  have hactive := hs.active
  have hnone : (s.calls i).uses = 0 := by
    unfold Uses at hu
    omega
  have hsub := hout i
  cases hi : s.calls i with
  | idle => rfl
  | add count pc => exact (hs.noAdd i count pc hi).elim
  | done pc =>
    rw [hi] at hnone hsub
    cases pc with
    | useBegin => cases hsub
    | _ => cases hnone

theorem TearInv.waitStep {ι : Type} [Fintype ι] {n k : Nat} {s t : SharedGroup ι}
    (hs : s.TearInv n k) (hn : n < 2 ^ 63) (hu : s.Uses) (h : s.waitStep = some t) :
    t.TearInv n k := by
  have hcounts := hs.counts.counters (waitStep_counters h)
  unfold SharedGroup.waitStep at h
  cases hw : s.waiter with
  | notCalled | suspended | returned => simp [hw] at h
  | load =>
    simp only [hw, Option.some.injEq] at h
    subst h
    obtain ⟨hqueue, hidle⟩ := hs.parks.idle (by simp [hw])
    have hplain : (if s.isDone then Waiter.spin else .lock).holds = s.waiter.holds := by
      rw [hw]
      split <;> rfl
    refine ⟨hcounts, hs.locks.move (holds_wait rfl rfl) (.inl ⟨rfl, hplain⟩),
      hs.parks.wait (by simp [hw]) ?_ hqueue rfl rfl (by simp [hidle]) ?_, ?_⟩
    · simp only
      split <;> nofun
    · simp only
      split
      · exact fun _ => ‹_›
      · nofun
    · simp only
      split <;> nofun
  | lock =>
    simp only [hw] at h
    obtain ⟨u, hacquire, rfl⟩ := Option.map_eq_some_iff.mp h
    obtain ⟨hfree, rfl⟩ := acquire_eq hacquire
    obtain ⟨hqueue, hidle⟩ := hs.parks.idle (by simp [hw])
    exact ⟨hcounts, hs.locks.move (holds_wait rfl rfl) (.inr (.inl ⟨hfree, rfl, rfl⟩)),
      hs.parks.wait (by simp [hw]) nofun hqueue rfl rfl (by simp [hidle]) nofun, nofun⟩
  | setAwaiter =>
    simp only [hw, Option.some.injEq] at h
    subst h
    obtain ⟨hqueue, hidle⟩ := hs.parks.idle (by simp [hw])
    have hmine : s.waiter.holds = true := by simp [hw, Waiter.holds]
    exact ⟨hcounts, hs.locks.move (holds_wait rfl rfl) (.inl ⟨rfl, hmine.symm⟩),
      hs.parks.wait (by simp [hw]) nofun hqueue rfl rfl (by simp [hidle]) nofun, nofun⟩
  | unlock =>
    simp only [hw, Option.some.injEq] at h
    subst h
    obtain ⟨hqueue, hidle⟩ := hs.parks.idle (by simp [hw])
    have hmine : s.holds .waiter = true := by simp [holds, hw, Waiter.holds]
    exact ⟨hcounts, hs.locks.move (holds_wait rfl rfl) (.inr (.inr ⟨hmine, rfl, rfl⟩)),
      hs.parks.wait (by simp [hw]) nofun hqueue rfl rfl (by simp [hidle]) nofun, nofun⟩
  | suspend =>
    simp only [hw, Option.some.injEq] at h
    subst h
    obtain ⟨hqueue, hidle⟩ := hs.parks.idle (by simp [hw])
    refine ⟨hcounts, hs.locks.move (holds_wait rfl (by simp [hidle, Suspender.holds]))
      (.inl ⟨rfl, by simp [holds, hw, Waiter.holds]⟩), ⟨⟨rfl, hqueue⟩, fun i hi => ?_, ?_, nofun⟩,
      nofun⟩
    · have hearlier := (hs.parks.awake i hi).1
      rw [hw] at hearlier
      cases hearlier
    · simp [hqueue]
  | scheduled =>
    simp only [hw, Option.some.injEq] at h
    subst h
    have hplain : s.waiter.holds = false := by simp [hw, Waiter.holds]
    exact ⟨hcounts, hs.locks.move (holds_wait rfl rfl) (.inl ⟨rfl, hplain.symm⟩),
      hs.parks.wait (by simp [hw]) nofun (hs.parks.apart (by simp [hw])).1 rfl rfl
        (fun _ => .inr rfl) nofun, nofun⟩
  | relock =>
    simp only [hw] at h
    obtain ⟨u, hacquire, rfl⟩ := Option.map_eq_some_iff.mp h
    obtain ⟨hfree, rfl⟩ := acquire_eq hacquire
    obtain ⟨hqueue, hplace⟩ := hs.parks.apart (by simp [hw])
    have hlast : s.suspender ≠ .unlock := by
      -- its thread would still hold the lock
      intro hlast
      have hheld := (hs.locks .suspender).mpr (by simp [holds, hlast, Suspender.holds])
      rw [hfree] at hheld
      cases hheld
    exact ⟨hcounts, hs.locks.move (holds_wait rfl rfl) (.inr (.inl ⟨hfree, rfl, rfl⟩)),
      hs.parks.wait (by simp [hw]) nofun hqueue rfl rfl (fun h => (hlast h).elim) nofun, nofun⟩
  | leave =>
    simp only [hw, Option.some.injEq] at h
    subst h
    obtain ⟨hqueue, hidle⟩ := hs.parks.idle (by simp [hw])
    have hmine : s.holds .waiter = true := by simp [holds, hw, Waiter.holds]
    exact ⟨hcounts, hs.locks.move (holds_wait rfl rfl) (.inr (.inr ⟨hmine, rfl, rfl⟩)),
      hs.parks.wait (by simp [hw]) nofun (by simp [hqueue]) rfl rfl (by simp [hidle]) nofun, nofun⟩
  | spin =>
    simp only [hw, Option.some.injEq] at h
    subst h
    obtain ⟨hqueue, hidle⟩ := hs.parks.idle (by simp [hw])
    have hdone := hs.parks.waited (.inl hw)
    have hplain : (if s.using_ = 0 then Waiter.returned else .spin).holds = s.waiter.holds := by
      rw [hw]
      split <;> rfl
    refine ⟨hcounts, hs.locks.move (holds_wait rfl rfl) (.inl ⟨rfl, hplain⟩),
      hs.parks.wait (by simp [hw]) ?_ hqueue rfl rfl (by simp [hidle]) fun _ => hdone, ?_⟩
    · simp only
      split <;> nofun
    · simp only
      split
      · rename_i husing
        exact fun _ => hs.counts.quiet hn hu hdone husing
      · nofun

theorem TearInv.suspendStep {ι : Type} [Fintype ι] {n k : Nat} {s t : SharedGroup ι}
    (hs : s.TearInv n k) (h : s.suspendStep = some t) : t.TearInv n k := by
  have hcounts := hs.counts.counters (suspendStep_counters h)
  have hsettled := hs.parks.settled
  unfold Settled at hsettled
  unfold SharedGroup.suspendStep at h
  have hnone (hbusy : s.suspender ≠ .idle) (i : ι) : s.calls i ≠ .done .awake :=
    fun hi => hbusy (hs.parks.awake i hi).2.1
  cases hp : s.suspender with
  | idle => simp [hp] at h
  | lock =>
    simp only [hp] at h hsettled
    obtain ⟨u, hacquire, rfl⟩ := Option.map_eq_some_iff.mp h
    obtain ⟨hfree, rfl⟩ := acquire_eq hacquire
    have hw : s.waiter ≠ .returned := by simp [hsettled.1]
    refine ⟨hcounts, hs.locks.move (holds_suspend rfl rfl) (.inr (.inl ⟨hfree, rfl, rfl⟩)),
      ⟨hsettled, fun i hi => (hnone (by simp [hp]) i hi).elim, ?_, hs.parks.waited⟩,
      fun h => (hw h).elim⟩
    simp
  | push | unlink =>
    simp only [hp, Option.some.injEq] at h hsettled
    subst h
    have hw : s.waiter ≠ .returned := by simp [hsettled.1]
    have hmine : s.suspender.holds = true := by simp [hp, Suspender.holds]
    refine ⟨hcounts, hs.locks.move (holds_suspend rfl rfl) (.inl ⟨rfl, hmine.symm⟩),
      ⟨⟨hsettled.1, by simp [hsettled.2]⟩, fun i hi => (hnone (by simp [hp]) i hi).elim, ?_,
        hs.parks.waited⟩, fun h => (hw h).elim⟩
    simp
  | compare =>
    simp only [hp, Option.some.injEq] at h hsettled
    subst h
    have hw : s.waiter ≠ .returned := by simp [hsettled.1]
    have hmine : s.suspender.holds = true := by simp [hp, Suspender.holds]
    have hplain : (if s.isDone ≠ false then Suspender.unlink else .unlock).holds = true := by
      split <;> rfl
    refine ⟨hcounts, hs.locks.move (holds_suspend rfl rfl) (.inl ⟨rfl, hplain.trans hmine.symm⟩),
      ⟨?_, fun i hi => (hnone (by simp [hp]) i hi).elim, ?_, hs.parks.waited⟩,
      fun h => (hw h).elim⟩
    · cases hdone : s.isDone with
      | false => simpa [Settled] using Or.inl hsettled
      | true => simpa [Settled] using hsettled
    · cases hdone : s.isDone <;> simp
  | schedule =>
    simp only [hp, Option.some.injEq] at h hsettled
    subst h
    have hmine : s.suspender.holds = true := by simp [hp, Suspender.holds]
    have hplain : Waiter.scheduled.holds = s.waiter.holds := by simp [hsettled.1, Waiter.holds]
    refine ⟨hcounts, hs.locks.move (holds_suspend rfl hplain) (.inl ⟨rfl, hmine.symm⟩),
      ⟨.inr ⟨.inl rfl, hsettled.2⟩, fun i hi => (hnone (by simp [hp]) i hi).elim, ?_, nofun⟩,
      nofun⟩
    simp [SharedGroup.schedule, hsettled.2]
  | unlock =>
    simp only [hp, Option.some.injEq] at h hsettled
    subst h
    have hw : s.waiter ≠ .returned := by
      rcases hsettled with ⟨hw, -⟩ | ⟨hw | hw, -⟩ <;> simp [hw]
    have hmine : s.suspender.holds = true := by simp [hp, Suspender.holds]
    refine ⟨hcounts, hs.locks.move (holds_suspend rfl rfl) (.inr (.inr ⟨hmine, rfl, rfl⟩)),
      ⟨?_, fun i hi => (hnone (by simp [hp]) i hi).elim,
        fun hq _ => hs.parks.signalled hq (.inr hp), hs.parks.waited⟩, fun h => (hw h).elim⟩
    rcases hsettled with ⟨hw, hqueue⟩ | ⟨hw, hqueue⟩
    · exact .inl ⟨hw, .inl hqueue⟩
    · refine .inr ⟨?_, hqueue⟩
      rcases hw with hw | hw <;> simp [SharedGroup.release, hw]

/-! The run. -/

theorem TearInv.step {ι : Type} [Fintype ι] [DecidableEq ι] {n k : Nat} {s t : SharedGroup ι}
    (hs : s.TearInv n k) (hn : n < 2 ^ 63) (hu : s.Uses) {l : SharedGroupLabel ι}
    (hl : l.ofDones = true) (hk : k + (if l.isDone then 1 else 0) ≤ n) (h : s.step l = some t) :
    t.TearInv n (k + if l.isDone then 1 else 0) := by
  cases l with
  | add i count => cases hl
  | done i =>
    simp only [SharedGroup.step, Option.ite_none_right_eq_some, Option.some.injEq] at h
    obtain ⟨hi, rfl⟩ := h
    refine ⟨hs.counts.start hi hk, hs.locks.call rfl rfl rfl rfl (by rw [hi]; rfl),
      hs.parks.call rfl rfl rfl rfl (.inl rfl) (by simp [hi]) (by simp) (by simp [hi]),
      fun hw => ?_⟩
    have hall := (hs.returned hw).1
    simp only [SharedGroupLabel.isDone, if_true] at hk
    omega
  | step i =>
    simp only [SharedGroup.step, callStep] at h
    cases hi : s.calls i with
    | idle => simp [hi] at h
    | add count pc => exact (hs.counts.noAdd i count pc hi).elim
    | done pc =>
      simp only [hi] at h
      exact hs.doneStep hn hi h
  | callWait =>
    obtain ⟨hw, rfl⟩ := callWait_eq h
    obtain ⟨hqueue, hidle⟩ := hs.parks.idle (by simp [hw])
    have hplain : s.waiter.holds = false := by simp [hw, Waiter.holds]
    exact ⟨hs.counts.counters ⟨rfl, rfl, rfl, rfl⟩,
      hs.locks.move (holds_wait rfl rfl) (.inl ⟨rfl, hplain.symm⟩),
      hs.parks.wait (by simp [hw]) (by simp) hqueue rfl rfl (by simp [hidle]) (by simp), by simp⟩
  | wait => exact hs.waitStep hn hu h
  | suspend => exact hs.suspendStep h

theorem TearInv.exec {ι : Type} [Fintype ι] [DecidableEq ι] {n k : Nat} {s t : SharedGroup ι}
    (hs : s.TearInv n k) (hn : n < 2 ^ 63) (hu : s.Uses) {ls : List (SharedGroupLabel ι)}
    (hls : ∀ l ∈ ls, l.ofDones = true) (hk : k + ls.countP SharedGroupLabel.isDone ≤ n)
    (h : (sharedGroup ι).exec s ls = some t) :
    t.TearInv n (k + ls.countP SharedGroupLabel.isDone) := by
  induction ls generalizing k s with
  | nil =>
    simp only [Machine.exec_nil, Option.some.injEq] at h
    exact h ▸ hs
  | cons l ls ih =>
    obtain ⟨u, hu', h⟩ := Option.bind_eq_some_iff.mp h
    have hcount : k + (l :: ls).countP SharedGroupLabel.isDone =
        k + (if l.isDone then 1 else 0) + ls.countP SharedGroupLabel.isDone := by
      rw [List.countP_cons]
      omega
    rw [hcount] at hk ⊢
    exact ih (hs.step hn hu (hls l (by simp)) (by omega) hu') (hu.step hu')
      (fun m hm => hls m (by simp [hm])) hk h

/-- Once all calls of `Done` have returned. -/
theorem TearInv.over {ι : Type} [Fintype ι] {n : Nat} {s : SharedGroup ι} (hs : s.TearInv n n)
    (hu : s.Uses) (hquiet : s.Quiet) : s.isDone = true ∧ s.using_ = 0 := by
  have hout : tally Finset.univ GroupCall.outstanding s.calls = 0 :=
    tally_eq_zero.mpr fun i _ => by rw [hquiet i]; rfl
  have hcount := hs.counts.count
  refine ⟨hs.counts.flag.mpr ⟨by omega, fun i => ?_⟩, hu.quiet hquiet⟩
  rw [hquiet i]
  nofun

theorem TearInv.not_parked {ι : Type} [Fintype ι] {n : Nat} {s : SharedGroup ι}
    (hs : s.TearInv n n) (hu : s.Uses) (hquiet : s.Quiet) (hw : s.waiter = .suspended) :
    s.suspender ≠ .idle := by
  intro hidle
  have hsettled := hs.parks.settled
  simp only [Settled, hidle, hw, ne_eq, not_true_eq_false, false_and, or_false, true_and]
    at hsettled
  rcases hsettled with hqueue | ⟨-, i, hi⟩
  · rcases hs.parks.signalled hqueue (.inl hidle) with hclear | ⟨i, hi⟩
    · rw [(hs.over hu hquiet).1] at hclear
      cases hclear
    · simp [hquiet i] at hi
  · simp [hquiet i] at hi

theorem acquire_isSome {ι : Type} {s : SharedGroup ι} (owner : LockOwner ι)
    (hfree : s.lock = none) : s.acquire owner = some { s with lock := some owner } := by
  simp [acquire, hfree]

/-- The lock is only ever kept from the fiber by its own thread. -/
theorem TearInv.lock_free {ι : Type} [Fintype ι] {n k : Nat} {s : SharedGroup ι}
    (hs : s.TearInv n k) (hquiet : s.Quiet) (hw : s.waiter.holds = false)
    (hp : s.suspender.holds = false) : s.lock = none := by
  cases hlock : s.lock with
  | none => rfl
  | some owner =>
    have hheld := (hs.locks owner).mp hlock
    cases owner with
    | caller i => simp [holds, hquiet i, GroupCall.holds] at hheld
    | waiter => exact (Bool.false_ne_true (hw.symm.trans hheld)).elim
    | suspender => exact (Bool.false_ne_true (hp.symm.trans hheld)).elim

theorem TearInv.progress {ι : Type} [Fintype ι] {n : Nat} {s : SharedGroup ι}
    (hs : s.TearInv n n) (hu : s.Uses) (hquiet : s.Quiet) (hcalled : s.waiter ≠ .notCalled)
    (hwaits : s.waiter ≠ .returned) : ∃ t, s.waitStep = some t ∨ s.suspendStep = some t := by
  by_cases hp : s.suspender = .idle
  · have hsuspended : s.waiter ≠ .suspended := fun hw => hs.not_parked hu hquiet hw hp
    have hfree (hw : s.waiter.holds = false) : s.lock = none :=
      hs.lock_free hquiet hw (by rw [hp]; rfl)
    cases hw : s.waiter with
    | notCalled => exact (hcalled hw).elim
    | returned => exact (hwaits hw).elim
    | suspended => exact (hsuspended hw).elim
    | lock | relock =>
      have hacquire := acquire_isSome .waiter (hfree (by rw [hw]; rfl))
      exact ⟨_, .inl (by simp only [SharedGroup.waitStep, hw, hacquire, Option.map_some]; rfl)⟩
    | _ => exact ⟨_, .inl (by simp only [SharedGroup.waitStep, hw]; rfl)⟩
  · cases hq : s.suspender with
    | idle => exact (hp hq).elim
    | lock =>
      have hsettled := hs.parks.settled
      simp only [Settled, hq] at hsettled
      have hfree := hs.lock_free hquiet (by rw [hsettled.1]; rfl) (by rw [hq]; rfl)
      exact ⟨_, .inr (by simp only [SharedGroup.suspendStep, hq, acquire_isSome _ hfree,
        Option.map_some]; rfl)⟩
    | _ => exact ⟨_, .inr (by simp only [SharedGroup.suspendStep, hq]; rfl)⟩

theorem TearInv.rank_lt {ι : Type} [Fintype ι] {n k : Nat} {s t : SharedGroup ι}
    (hs : s.TearInv n k) (hdone : s.isDone = true) (husing : s.using_ = 0)
    (h : s.waitStep = some t ∨ s.suspendStep = some t) : t.rank < s.rank := by
  have hsettled := hs.parks.settled
  unfold Settled at hsettled
  rcases h with h | h
  · unfold SharedGroup.waitStep at h
    cases hw : s.waiter with
    | notCalled | suspended | returned => simp [hw] at h
    | lock | relock =>
      simp only [hw] at h
      obtain ⟨u, hacquire, rfl⟩ := Option.map_eq_some_iff.mp h
      obtain ⟨-, rfl⟩ := acquire_eq hacquire
      simp [rank, hw, Waiter.rank]
    | suspend =>
      simp only [hw, Option.some.injEq] at h
      subst h
      simp only [rank, hw, Waiter.rank, Suspender.rank]
      omega
    | _ =>
      simp only [hw, Option.some.injEq] at h
      subst h
      simp [rank, hw, Waiter.rank, hdone, husing, release]
  · unfold SharedGroup.suspendStep at h
    cases hp : s.suspender with
    | idle => simp [hp] at h
    | lock =>
      simp only [hp] at h
      obtain ⟨u, hacquire, rfl⟩ := Option.map_eq_some_iff.mp h
      obtain ⟨-, rfl⟩ := acquire_eq hacquire
      simp [rank, hp, Suspender.rank]
    | schedule =>
      simp only [hp, Option.some.injEq] at h hsettled
      subst h
      simp [rank, hp, Suspender.rank, schedule, hsettled.1, Waiter.rank]
    | _ =>
      simp only [hp, Option.some.injEq] at h
      subst h
      simp [rank, hp, Suspender.rank, hdone, release]

theorem TearInv.finite {ι : Type} [Fintype ι] [DecidableEq ι] {n : Nat} (hn : n < 2 ^ 63)
    {s t : SharedGroup ι} (hs : s.TearInv n n) (hu : s.Uses) (hdone : s.isDone = true)
    (husing : s.using_ = 0) {ls : List (SharedGroupLabel ι)}
    (hls : ∀ l ∈ ls, l = .wait ∨ l = .suspend) (h : (sharedGroup ι).exec s ls = some t) :
    ls.length ≤ s.rank := by
  induction ls generalizing s with
  | nil => exact Nat.zero_le _
  | cons l ls ih =>
    obtain ⟨u, hl, h⟩ := Option.bind_eq_some_iff.mp h
    have hside : s.waitStep = some u ∨ s.suspendStep = some u := by
      rcases hls l (by simp) with rfl | rfl
      · exact .inl hl
      · exact .inr hl
    have hsame : s.Counters u := hside.elim waitStep_counters suspendStep_counters
    have hkeep : u.TearInv n n := hside.elim (hs.waitStep hn hu) hs.suspendStep
    have hrest := ih hkeep (hu.counters hsame) (hsame.isDone.trans hdone)
      (hsame.using_.trans husing) (fun m hm => hls m (by simp [hm])) h
    have hlt := hs.rank_lt hdone husing hside
    rw [List.length_cons]
    omega

theorem TearInv.tornDown {ι : Type} [Fintype ι] [DecidableEq ι] {n k : Nat} (hn : n < 2 ^ 63)
    {s : SharedGroup ι} (hs : s.TearInv n k) (hu : s.Uses) : s.TornDown n k := by
  refine ⟨fun i hi => ?_, fun hw => ?_, ?_, ?_, ?_⟩
  · have hpos := hs.counts.tasks_pos (i := i) (by rw [hi]; rfl)
    simp [SharedGroup.callStep, hi, SharedGroup.doneStep, hpos]
  · obtain ⟨hk, hquiet⟩ := hs.returned hw
    obtain ⟨hqueue, hidle⟩ := hs.parks.idle (by simp [hw])
    exact ⟨hk, hquiet, hqueue, hs.lock_free hquiet (by rw [hw]; rfl) (by rw [hidle]; rfl), hidle⟩
  · rintro rfl hquiet hw
    exact hs.not_parked hu hquiet hw
  · rintro rfl hquiet hcalled hwaits
    exact hs.progress hu hquiet hcalled hwaits
  · rintro rfl hquiet ls t hls h
    obtain ⟨hdone, husing⟩ := hs.over hu hquiet
    exact hs.finite hn hu hdone husing hls h

end SharedGroup

/-- After `Wait` nobody touches the group, no assertion of `Done` fails, and the fiber
is not left parked, whenever what has been added fits in `tasks_`. -/
theorem waitGroup_tears_down {ι : Type} [Fintype ι] [DecidableEq ι] {n : Nat} (hpos : 1 ≤ n)
    (hbound : n < 2 ^ 63) {before after : List (SharedGroupLabel ι)} {s t : SharedGroup ι}
    (hbefore : ∀ l ∈ before, l.ofAdds = true)
    (hadded : (before.map SharedGroupLabel.added).sum = n)
    (hs : (sharedGroup ι).exec (sharedGroup ι).init before = some s) (hquiet : s.Quiet)
    (hafter : ∀ l ∈ after, l.ofDones = true)
    (hdones : after.countP SharedGroupLabel.isDone ≤ n)
    (ht : (sharedGroup ι).exec s after = some t) :
    t.TornDown n (after.countP SharedGroupLabel.isDone) := by
  have hadds := (SharedGroup.addInv_init ι).exec hbefore (by omega) hs
  rw [hadded, Nat.zero_add] at hadds
  have hreached := Machine.reachable_of_exec before hs
  have hend := (hadds.tearInv hpos hquiet).exec hbound (sharedGroup_uses hreached) hafter
    (by omega) ht
  rw [Nat.zero_add] at hend
  exact hend.tornDown hbound (sharedGroup_uses (hreached.exec ht))

/-- The fiber parks, two calls of `Done` overlap, and the later one wakes it. -/
theorem waitGroup_tears_down_parked :
    ∃ before after s t, (sharedGroup (Fin 2)).exec (sharedGroup (Fin 2)).init before = some s ∧
      (sharedGroup (Fin 2)).exec s after = some t ∧ s.tasks = 2 ∧ t.waiter = .returned ∧
      t.TornDown 2 (after.countP SharedGroupLabel.isDone) := by
  have hs : (sharedGroup (Fin 2)).exec (sharedGroup (Fin 2)).init [.add 0 2, .step 0, .step 0,
    .step 0, .step 0, .step 0] = some _ := rfl
  refine ⟨_, [.callWait, .wait, .wait, .wait, .wait, .wait, .suspend, .suspend, .suspend, .suspend,
    .done 0, .done 1, .step 0, .step 1, .step 0, .step 1, .step 0, .step 1, .step 1, .step 1,
    .step 1, .step 1, .step 1, .step 1, .step 1, .step 0, .wait, .wait, .wait, .wait, .wait],
    _, _, hs, rfl, rfl, rfl, ?_⟩
  refine waitGroup_tears_down (by decide) (by decide) (by decide) rfl hs ?_ (by decide)
    (by decide) rfl
  unfold SharedGroup.Quiet
  decide

/-- At `2 ^ 63` the count goes negative, and the first `Done` fails its assertion. -/
theorem waitGroup_count_overflows :
    ∃ s t, (sharedGroup (Fin 1)).exec (sharedGroup (Fin 1)).init [.add 0 (2 ^ 63), .step 0,
      .step 0, .step 0, .step 0, .step 0] = some s ∧ s.Quiet ∧
      (sharedGroup (Fin 1)).exec s [.done 0, .step 0] = some t ∧
      t.calls 0 = .done .assert ∧ t.callStep 0 = none ∧ ¬ t.TornDown (2 ^ 63) 1 := by
  refine ⟨_, _, rfl, by unfold SharedGroup.Quiet; decide, rfl, rfl, rfl, fun htorn => ?_⟩
  exact Bool.false_ne_true (htorn.asserted 0 rfl)

end ConcurrentProgramming.Fibers
