import ConcurrentProgramming.Fibers.SharedGroup

/-!
`is_done_` as a copy of "nothing is outstanding", over any interleaving of `Add`,
`Done` and `Wait`.
-/

set_option autoImplicit false

namespace ConcurrentProgramming.Fibers
open Interleaving

/-- Calls that a group which was never added to can be in. -/
def GroupCall.early : GroupCall → Bool
  | .idle | .done .useBegin | .done .assert => true
  | .add count _ => count = 0
  | _ => false

/-- Calls that still lead to a count above zero or to a raised flag. -/
def GroupCall.raising : GroupCall → Bool
  | .done .storeDone => true
  | .add count pc => count ≠ 0 ∧ pc ≠ .useEnd
  | _ => false

def SharedGroupLabel.adds {ι : Type} : SharedGroupLabel ι → Bool
  | .add _ count => 0 < count
  | _ => false

namespace SharedGroup

/-- An `Add` of something does not bring the count to zero. -/
def addsUp {ι : Type} (s : SharedGroup ι) : SharedGroupLabel ι → Bool
  | .step i =>
    match s.calls i with
    | .add count (.fetchAdd _) => count = 0 ∨ int64 (s.tasks + count) ≠ 0
    | _ => true
  | _ => true

/-- `p`: something has been added. -/
structure FlagInv {ι : Type} (p : Prop) (s : SharedGroup ι) : Prop where
  range : -2 ^ 63 ≤ s.tasks ∧ s.tasks < 2 ^ 63
  clears : ∀ i count prev, s.calls i = .add count (.clear prev) → count ≠ 0
  never : ¬ p → s.isDone = false ∧ s.tasks = 0 ∧ ∀ i, (s.calls i).early = true
  flag : p → s.tasks = 0 → s.isDone = true ∨ ∃ i, (s.calls i).raising = true

/-- A call moves on. What it raises may go only with the count or into the flag. -/
theorem FlagInv.move {ι : Type} [DecidableEq ι] {p : Prop} {s t : SharedGroup ι}
    (hs : s.FlagInv p) {i : ι} {c : GroupCall}
    (hcalls : t.calls = Function.update s.calls i c)
    (hrange : -2 ^ 63 ≤ t.tasks ∧ t.tasks < 2 ^ 63)
    (hclears : ∀ count prev, c = .add count (.clear prev) → count ≠ 0)
    (hnever : ¬ p → s.tasks = 0 → s.isDone = false → (s.calls i).early = true →
      t.isDone = false ∧ t.tasks = 0 ∧ c.early = true)
    (hflag : t.tasks = 0 → t.isDone = true ∨ c.raising = true ∨
      s.tasks = 0 ∧ t.isDone = s.isDone ∧ (s.calls i).raising = false) : t.FlagInv p := by
  have hself : t.calls i = c := by simp [hcalls]
  have hother {j : ι} (hj : j ≠ i) : t.calls j = s.calls j := by simp [hcalls, hj]
  refine ⟨hrange, fun j count prev hj => ?_, fun hp => ?_, fun hp hzero => ?_⟩
  · by_cases he : j = i
    · exact hclears count prev (by rw [← hself, ← he, hj])
    · exact hs.clears j count prev (by rw [← hother he, hj])
  · obtain ⟨hdone, hzero, hearly⟩ := hs.never hp
    obtain ⟨hdone', hzero', hc⟩ := hnever hp hzero hdone (hearly i)
    refine ⟨hdone', hzero', fun j => ?_⟩
    by_cases he : j = i
    · rw [he, hself]
      exact hc
    · rw [hother he]
      exact hearly j
  · rcases hflag hzero with hdone | hraises | ⟨hwas, hdone, hquiet⟩
    · exact .inl hdone
    · exact .inr ⟨i, hself ▸ hraises⟩
    · rcases hs.flag hp hwas with hdone' | ⟨j, hj⟩
      · exact .inl (hdone.trans hdone')
      · have he : j ≠ i := by
          rintro rfl
          exact Bool.false_ne_true (hquiet.symm.trans hj)
        exact .inr ⟨j, hother he ▸ hj⟩

theorem FlagInv.frame {ι : Type} {p : Prop} {s t : SharedGroup ι}
    (hs : s.FlagInv p) (h : s.Counters t) : t.FlagInv p := by
  obtain ⟨htasks, hdone, -, hcalls⟩ := h
  obtain ⟨hrange, hclears, hnever, hflag⟩ := hs
  exact ⟨htasks ▸ hrange, hcalls ▸ hclears, htasks ▸ hdone ▸ hcalls ▸ hnever,
    htasks ▸ hdone ▸ hcalls ▸ hflag⟩

theorem FlagInv.addStep {ι : Type} [DecidableEq ι] {p : Prop} {s : SharedGroup ι}
    (hs : s.FlagInv p) {i : ι} {count : Nat} {pc : Add} (hi : s.calls i = .add count pc)
    (hok : s.addsUp (.step i) = true) : (s.addStep i count pc).FlagInv p := by
  have hrange := hs.range
  cases pc with
  | useBegin =>
    refine hs.move (c := .add count .load) rfl hrange ?_ ?_ ?_
    · simp
    · intro _ hzero hdone hearly
      exact ⟨hdone, hzero, by simpa [hi, GroupCall.early] using hearly⟩
    · intro hzero
      by_cases hcount : count = 0
      · exact .inr (.inr ⟨hzero, rfl, by simp [hi, GroupCall.raising, hcount]⟩)
      · exact .inr (.inl (by simp [GroupCall.raising, hcount]))
  | load =>
    refine hs.move (c := .add count (if s.tasks = 0 ∧ count ≠ 0 then .clear s.tasks
      else .fetchAdd s.tasks)) rfl hrange ?_ ?_ ?_
    · intro k prev h
      split at h
      · rename_i hclear
        simp only [GroupCall.add.injEq] at h
        exact h.1 ▸ hclear.2
      · simp at h
    · intro _ hzero hdone hearly
      exact ⟨hdone, hzero, by simpa [hi, GroupCall.early] using hearly⟩
    · intro hzero
      by_cases hcount : count = 0
      · exact .inr (.inr ⟨hzero, rfl, by simp [hi, GroupCall.raising, hcount]⟩)
      · refine .inr (.inl ?_)
        split <;> simp [GroupCall.raising, hcount]
  | clear prev =>
    have hcount := hs.clears i count prev hi
    refine hs.move (c := .add count (.fetchAdd prev)) rfl hrange ?_ ?_ ?_
    · simp
    · intro _ hzero _ hearly
      exact ⟨rfl, hzero, by simpa [hi, GroupCall.early] using hearly⟩
    · exact fun _ => .inr (.inl (by simp [GroupCall.raising, hcount]))
  | fetchAdd prev =>
    simp only [addsUp, hi, Bool.decide_or, Bool.or_eq_true, decide_eq_true_eq] at hok
    refine hs.move (c := .add count .useEnd) rfl (int64_range _) ?_ ?_ ?_
    · simp
    · intro _ hzero hdone hearly
      have hcount : count = 0 := by simpa [hi, GroupCall.early] using hearly
      refine ⟨hdone, ?_, by simp [GroupCall.early, hcount]⟩
      simp [SharedGroup.addStep, hzero, hcount, int64]
    · intro hzero
      simp only [SharedGroup.addStep] at hzero
      have hcount : count = 0 := hok.resolve_right fun hne => hne hzero
      refine .inr (.inr ⟨?_, rfl, by simp [hi, GroupCall.raising, hcount]⟩)
      rw [hcount, Int.natCast_zero, Int.add_zero, int64_of_range hrange] at hzero
      exact hzero
  | useEnd =>
    refine hs.move (c := .idle) rfl hrange ?_ ?_ ?_
    · simp
    · exact fun _ hzero hdone _ => ⟨hdone, hzero, rfl⟩
    · exact fun hzero => .inr (.inr ⟨hzero, rfl, by simp [hi, GroupCall.raising]⟩)

/-- A call of `Done` goes on and keeps the count. -/
theorem FlagInv.done {ι : Type} [DecidableEq ι] {p : Prop} {s t : SharedGroup ι}
    (hs : s.FlagInv p) {i : ι} {c : GroupCall} (hcalls : t.calls = Function.update s.calls i c)
    (htasks : t.tasks = s.tasks) (hdone : t.isDone = s.isDone)
    (hc : ∀ count pc, c ≠ .add count pc) (hearly : (s.calls i).early = true → c.early = true ∨
      s.tasks ≠ 0) (hquiet : (s.calls i).raising = false) : t.FlagInv p := by
  refine hs.move hcalls (htasks ▸ hs.range) ?_ ?_ ?_
  · exact fun count prev h => (hc count _ h).elim
  · intro _ hzero hclear hi
    exact ⟨hdone.trans hclear, htasks.trans hzero, (hearly hi).resolve_right fun h => h hzero⟩
  · exact fun hzero => .inr (.inr ⟨htasks ▸ hzero, hdone, hquiet⟩)

theorem FlagInv.doneStep {ι : Type} [DecidableEq ι] {p : Prop}
    {s t : SharedGroup ι} (hs : s.FlagInv p) {i : ι} {pc : DonePc} (hi : s.calls i = .done pc)
    (h : s.doneStep i pc = some t) : t.FlagInv p := by
  unfold SharedGroup.doneStep at h
  cases pc with
  | useBegin =>
    obtain rfl := Option.some.inj h
    exact hs.done (c := .done .assert) rfl rfl rfl (by simp)
      (fun _ => .inl rfl) (by simp [hi, GroupCall.raising])
  | assert =>
    simp only [Option.ite_none_right_eq_some, Option.some.injEq] at h
    obtain ⟨hpos, rfl⟩ := h
    exact hs.done (c := .done .fetchSub) rfl rfl rfl (by simp)
      (fun _ => .inr (by omega)) (by simp [hi, GroupCall.raising])
  | fetchSub =>
    obtain rfl := Option.some.inj h
    have hrange := hs.range
    refine hs.move rfl (int64_range _) (by simp) ?_ ?_
    · intro _ _ _ hearly
      simp [hi, GroupCall.early] at hearly
    · intro hzero
      have hone : s.tasks = 1 := by
        simp only [int64] at hzero
        omega
      simp [hone, GroupCall.raising]
  | storeDone =>
    obtain rfl := Option.some.inj h
    refine hs.move (c := .done .lock) rfl hs.range (by simp) ?_ ?_
    · intro _ _ _ hearly
      simp [hi, GroupCall.early] at hearly
    · exact fun _ => .inl rfl
  | lock =>
    obtain ⟨u, hu, rfl⟩ := Option.map_eq_some_iff.mp h
    obtain ⟨-, rfl⟩ := acquire_eq hu
    exact hs.done (c := .done .pop) rfl rfl rfl (by simp)
      (by simp [hi, GroupCall.early]) (by simp [hi, GroupCall.raising])
  | pop =>
    obtain rfl := Option.some.inj h
    split
    · exact hs.done (c := .done .unlock) rfl rfl rfl (by simp)
        (by simp [hi, GroupCall.early]) (by simp [hi, GroupCall.raising])
    · exact hs.done (c := .done .awake) rfl rfl rfl (by simp)
        (by simp [hi, GroupCall.early]) (by simp [hi, GroupCall.raising])
  | awake =>
    obtain rfl := Option.some.inj h
    exact hs.done (c := .done .pop) rfl rfl rfl (by simp)
      (by simp [hi, GroupCall.early]) (by simp [hi, GroupCall.raising])
  | unlock =>
    obtain rfl := Option.some.inj h
    exact hs.done (c := .done .useEnd) rfl rfl rfl (by simp)
      (by simp [hi, GroupCall.early]) (by simp [hi, GroupCall.raising])
  | useEnd =>
    obtain rfl := Option.some.inj h
    exact hs.done (c := .idle) rfl rfl rfl (by simp)
      (fun _ => .inl rfl) (by simp [hi, GroupCall.raising])

theorem FlagInv.startDone {ι : Type} [DecidableEq ι] {p : Prop} {s : SharedGroup ι}
    (hs : s.FlagInv p) {i : ι} (hi : s.calls i = .idle) :
    (s.goto i (.done .useBegin)).FlagInv p :=
  hs.done rfl rfl rfl nofun (fun _ => .inl rfl) (by simp [hi, GroupCall.raising])

/-- An `Add` of something makes `p` true. -/
theorem FlagInv.startAdd {ι : Type} [DecidableEq ι] {p : Prop} {s : SharedGroup ι}
    (hs : s.FlagInv p) {i : ι} (hi : s.calls i = .idle) (count : Nat) :
    (s.goto i (.add count .useBegin)).FlagInv (p ∨ 0 < count) := by
  by_cases hcount : count = 0
  · have hp : (p ∨ 0 < count) = p := by simp [hcount]
    rw [hp]
    refine hs.move rfl hs.range (by simp) ?_ ?_
    · exact fun _ hzero hdone _ => ⟨hdone, hzero, by simp [GroupCall.early, hcount]⟩
    · exact fun hzero => .inr (.inr ⟨hzero, rfl, by simp [hi, GroupCall.raising]⟩)
  · refine ⟨hs.range, fun j k prev hj => ?_, fun hp => ?_, fun _ _ => .inr ⟨i, ?_⟩⟩
    · by_cases he : j = i
      · simp [goto, he] at hj
      · exact hs.clears j k prev (by simpa [goto, he] using hj)
    · exact (hp (.inr (Nat.pos_of_ne_zero hcount))).elim
    · simp [goto, GroupCall.raising, hcount]

theorem FlagInv.step {ι : Type} [DecidableEq ι] {p : Prop} {s t : SharedGroup ι}
    (hs : s.FlagInv p) {l : SharedGroupLabel ι} (hok : s.addsUp l = true)
    (h : s.step l = some t) : t.FlagInv (p ∨ l.adds = true) := by
  cases l with
  | add i count =>
    simp only [SharedGroup.step, Option.ite_none_right_eq_some, Option.some.injEq] at h
    obtain ⟨⟨hi, -⟩, rfl⟩ := h
    simpa [SharedGroupLabel.adds] using hs.startAdd hi count
  | done i =>
    simp only [SharedGroup.step, Option.ite_none_right_eq_some, Option.some.injEq] at h
    obtain ⟨hi, rfl⟩ := h
    simpa [SharedGroupLabel.adds] using hs.startDone hi
  | step i =>
    suffices t.FlagInv p by simpa [SharedGroupLabel.adds] using this
    simp only [SharedGroup.step, callStep] at h
    cases hi : s.calls i with
    | idle => simp [hi] at h
    | add count pc =>
      simp only [hi, Option.some.injEq] at h
      exact h ▸ hs.addStep hi hok
    | done pc =>
      simp only [hi] at h
      exact hs.doneStep hi h
  | callWait =>
    suffices t.FlagInv p by simpa [SharedGroupLabel.adds] using this
    obtain ⟨-, rfl⟩ := callWait_eq h
    exact hs.frame ⟨rfl, rfl, rfl, rfl⟩
  | wait => simpa [SharedGroupLabel.adds] using hs.frame (waitStep_counters h)
  | suspend => simpa [SharedGroupLabel.adds] using hs.frame (suspendStep_counters h)

theorem FlagInv.exec {ι : Type} [DecidableEq ι] {p : Prop} {s t : SharedGroup ι}
    (hs : s.FlagInv p) {ls : List (SharedGroupLabel ι)}
    (h : ((sharedGroup ι).guard addsUp).exec s ls = some t) :
    t.FlagInv (p ∨ ∃ l ∈ ls, l.adds = true) := by
  induction ls generalizing p s with
  | nil =>
    simp only [Machine.exec_nil, Option.some.injEq] at h
    simpa [← h] using hs
  | cons l ls ih =>
    obtain ⟨u, hu, h⟩ := Option.bind_eq_some_iff.mp h
    obtain ⟨hok, hl⟩ := Machine.guard_step.mp hu
    have hu := ih (hs.step hok hl) h
    simpa [or_assoc] using hu

theorem flagInv_init (ι : Type) [DecidableEq ι] : (sharedGroup ι).init.FlagInv False :=
  ⟨by simp [sharedGroup], nofun, fun _ => ⟨rfl, rfl, fun _ => rfl⟩, False.elim⟩

/-- A `Wait` that starts now returns without parking. -/
def Unblocked {ι : Type} [DecidableEq ι] (s : SharedGroup ι) : Prop :=
  s.isDone = true ∧
    ∃ t, (sharedGroup ι).exec s [.callWait, .wait, .wait] = some t ∧ t.waiter = .returned

end SharedGroup

/-- A group at zero with no call in progress lets `Wait` through exactly if
something has ever been added to it, in every run in which no `Add` of something
brings the count to zero. -/
theorem waitGroup_unblocked_iff {ι : Type} [Fintype ι] [DecidableEq ι]
    {ls : List (SharedGroupLabel ι)} {s : SharedGroup ι}
    (h : ((sharedGroup ι).guard SharedGroup.addsUp).exec (sharedGroup ι).init ls = some s)
    (hquiet : s.Quiet) (hzero : s.tasks = 0) (hwaiter : s.waiter = .notCalled) :
    s.Unblocked ↔ ∃ l ∈ ls, l.adds = true := by
  have huses := sharedGroup_uses (Machine.reachable_of_exec _ (Machine.exec_of_guard h))
  have hs := (SharedGroup.flagInv_init ι).exec h
  simp only [false_or] at hs
  constructor
  · intro hfree
    by_contra hnone
    exact Bool.false_ne_true ((hs.never hnone).1.symm.trans hfree.1)
  · intro hadded
    have hdone : s.isDone = true := by
      rcases hs.flag hadded hzero with hdone | ⟨i, hi⟩
      · exact hdone
      · simp [hquiet i, GroupCall.raising] at hi
    refine ⟨hdone, { s with waiter := .returned }, ?_, rfl⟩
    simp [sharedGroup, SharedGroup.step, SharedGroup.waitStep, hwaiter, hdone,
      huses.quiet hquiet]

/-- `Add(2)` and two overlapping calls of `Done`. -/
theorem waitGroup_unblocked_iff_reused :
    ∃ ls s, ((sharedGroup (Fin 2)).guard SharedGroup.addsUp).exec (sharedGroup (Fin 2)).init ls =
      some s ∧ SharedGroupLabel.add 0 2 ∈ ls ∧ s.Unblocked := by
  have h : ((sharedGroup (Fin 2)).guard SharedGroup.addsUp).exec (sharedGroup (Fin 2)).init
      ([.add 0 2, .step 0, .step 0, .step 0, .step 0, .step 0, .done 0, .done 1, .step 0, .step 1,
        .step 0, .step 1, .step 0, .step 1, .step 0, .step 1, .step 1, .step 1, .step 1,
        .step 1]) = some _ := rfl
  exact ⟨_, _, h, by decide, (waitGroup_unblocked_iff h (by unfold SharedGroup.Quiet; decide) rfl rfl).mpr
    ⟨.add 0 2, by decide, rfl⟩⟩

/-- The fresh group: `Wait` parks, and no call is in progress that could wake it. -/
theorem waitGroup_blocks_fresh :
    ∃ s, (sharedGroup (Fin 1)).Reachable s ∧ s.Quiet ∧ s.tasks = 0 ∧ s.waiter = .notCalled ∧
      ¬ s.Unblocked ∧ ∃ t, (sharedGroup (Fin 1)).exec s [.callWait, .wait, .wait, .wait, .wait,
        .wait, .suspend, .suspend, .suspend, .suspend] = some t ∧ t.waiter = .suspended ∧
        t.suspender = .idle ∧ t.Quiet := by
  refine ⟨_, .init, by unfold SharedGroup.Quiet; decide, rfl, rfl, fun hfree => ?_, _, rfl, rfl, rfl,
    by unfold SharedGroup.Quiet; decide⟩
  exact Bool.false_ne_true hfree.1

end ConcurrentProgramming.Fibers
