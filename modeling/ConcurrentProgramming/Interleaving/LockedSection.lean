import ConcurrentProgramming.Interleaving.Machine
import Mathlib.Logic.Function.Basic

/-!
Data behind a lock. A section makes its accesses one by one while it has the lock;
the refinement says that it might as well make all of them at once, at the moment
at which it gets the lock, and so somewhere between its call and its return.
-/

set_option autoImplicit false

namespace Interleaving

universe u

/-- What a party does with the data: one access after the other, each chosen by what
it has read before. -/
inductive Section (D R : Type u) where
  | return_ (result : R)
  | access (write : D → D) (next : D → Section D R)

/-- All accesses at once. -/
def Section.run {D R : Type u} : Section D R → D → D × R
  | .return_ result, data => (data, result)
  | .access write next, data => (next data).run (write data)

inductive SectionPc (D R : Type u) where
  | outside
  | lock (call : Section D R)
  | inside (rest : Section D R)
  | returned (result : R)

structure LockedData (P D R : Type u) where
  data : D
  owner : Option P
  pc : P → SectionPc D R

inductive SectionLabel (P D R : Type u) where
  | call (p : P) (call : Section D R)
  | step (p : P)
  | return_ (p : P)

namespace LockedData

def goto {P D R : Type u} [DecidableEq P] (s : LockedData P D R) (p : P) (pc : SectionPc D R) :
    LockedData P D R := { s with pc := Function.update s.pc p pc }

def step {P D R : Type u} [DecidableEq P] (s : LockedData P D R) :
    SectionLabel P D R → Option (LockedData P D R)
  | .call p call =>
    match s.pc p with
    | .outside => some (s.goto p (.lock call))
    | _ => none
  | .step p =>
    match s.pc p with
    | .lock call =>
      match s.owner with
      | none => some { s.goto p (.inside call) with owner := some p }
      | some _ => none
    | .inside (.access write next) =>
      some { s.goto p (.inside (next s.data)) with data := write s.data }
    | .inside (.return_ result) => some { s.goto p (.returned result) with owner := none }
    | .outside | .returned _ => none
  | .return_ p =>
    match s.pc p with
    | .returned _ => some (s.goto p .outside)
    | _ => none

end LockedData

def lockedData {P D R : Type u} [DecidableEq P] (data : D) :
    Machine (LockedData P D R) (SectionLabel P D R) where
  init := ⟨data, none, fun _ => .outside⟩
  step := LockedData.step

/-- Between its call and its return a call takes effect once. -/
inductive AtomicPc (D R : Type u) where
  | outside
  | called (call : Section D R)
  | returned (result : R)

@[ext]
structure AtomicData (P D R : Type u) where
  data : D
  pc : P → AtomicPc D R

inductive AtomicLabel (P D R : Type u) where
  | call (p : P) (call : Section D R)
  | commit (p : P)
  | return_ (p : P)

namespace AtomicData

def goto {P D R : Type u} [DecidableEq P] (s : AtomicData P D R) (p : P) (pc : AtomicPc D R) :
    AtomicData P D R := { s with pc := Function.update s.pc p pc }

def step {P D R : Type u} [DecidableEq P] (s : AtomicData P D R) :
    AtomicLabel P D R → Option (AtomicData P D R)
  | .call p call =>
    match s.pc p with
    | .outside => some (s.goto p (.called call))
    | _ => none
  | .commit p =>
    match s.pc p with
    | .called call =>
      some { s.goto p (.returned (call.run s.data).2) with data := (call.run s.data).1 }
    | _ => none
  | .return_ p =>
    match s.pc p with
    | .returned _ => some (s.goto p .outside)
    | _ => none

end AtomicData

def atomicData {P D R : Type u} [DecidableEq P] (data : D) :
    Machine (AtomicData P D R) (AtomicLabel P D R) where
  init := ⟨data, fun _ => .outside⟩
  step := AtomicData.step

/-- What is left of a section, once its party has the lock. -/
def SectionPc.rest {D R : Type u} : SectionPc D R → Option (Section D R)
  | .inside rest => some rest
  | _ => none

/-- With `data` as the section finds it, a party inside is as good as through. -/
def SectionPc.abstract {D R : Type u} (data : D) : SectionPc D R → AtomicPc D R
  | .outside => .outside
  | .lock call => .called call
  | .inside rest => .returned (rest.run data).2
  | .returned result => .returned result

namespace LockedData

/-- What the owner of the lock has still to do. -/
def pending {P D R : Type u} (s : LockedData P D R) : Option (Section D R) :=
  s.owner.bind fun p => (s.pc p).rest

def abstract {P D R : Type u} (s : LockedData P D R) : AtomicData P D R where
  data := s.pending.elim s.data fun rest => (rest.run s.data).1
  pc p := (s.pc p).abstract s.data

def act {P D R : Type u} (s : LockedData P D R) :
    SectionLabel P D R → List (AtomicLabel P D R)
  | .call p call => [.call p call]
  | .step p =>
    match s.pc p with
    | .lock _ => [.commit p]
    | _ => []
  | .return_ p => [.return_ p]

/-- Whoever is inside has the lock. -/
def Owned {P D R : Type u} (s : LockedData P D R) : Prop :=
  ∀ p, s.owner = some p ↔ (s.pc p).rest.isSome = true

theorem Owned.pending_eq {P D R : Type u} {s : LockedData P D R} (hs : s.Owned) {p : P}
    {rest : Section D R} (hp : s.pc p = .inside rest) : s.pending = some rest := by
  have howner : s.owner = some p := (hs p).mpr (by rw [hp]; rfl)
  simp [pending, howner, hp, SectionPc.rest]

/-- A party that neither gets the lock nor has it. -/
theorem Owned.goto {P D R : Type u} [DecidableEq P] {s : LockedData P D R} (hs : s.Owned) {p : P}
    {pc : SectionPc D R} (hp : (s.pc p).rest = none) (hpc : pc.rest = none) :
    (s.goto p pc).Owned ∧ (s.goto p pc).pending = s.pending := by
  have hne (q : P) (hq : s.owner = some q) : q ≠ p := by
    rintro rfl
    simpa [hp] using (hs q).mp hq
  refine ⟨fun q => ?_, ?_⟩
  · by_cases hq : q = p
    · subst hq
      simpa [LockedData.goto, hpc, hp] using hs q
    · simpa [LockedData.goto, hq] using hs q
  · cases howner : s.owner with
    | none => simp [pending, LockedData.goto, howner]
    | some q => simp [pending, LockedData.goto, howner, hne q howner]

theorem Owned.acquire {P D R : Type u} [DecidableEq P] {s : LockedData P D R} (hs : s.Owned)
    (hfree : s.owner = none) (p : P) (call : Section D R) :
    ({ s.goto p (.inside call) with owner := some p } : LockedData P D R).Owned := by
  intro q
  by_cases hq : q = p
  · subst hq
    simp [LockedData.goto, SectionPc.rest]
  · have hout := (hs q).not.mp (by simp [hfree])
    simp only [LockedData.goto, Function.update_of_ne hq, Option.some.injEq]
    exact ⟨fun he => (hq he.symm).elim, fun hin => (hout hin).elim⟩

/-- Nobody but the owner is inside, so that nobody else sees what it writes. -/
theorem Owned.others {P D R : Type u} {s : LockedData P D R} (hs : s.Owned) {p q : P}
    (howner : s.owner = some p) (hq : q ≠ p) (data : D) :
    (s.pc q).abstract data = (s.pc q).abstract s.data := by
  have hout := (hs q).not.mp fun he => hq (Option.some.inj (he.symm.trans howner))
  cases hpc : s.pc q with
  | inside rest => simp [hpc, SectionPc.rest] at hout
  | outside | lock call | returned result => rfl

theorem Owned.access {P D R : Type u} [DecidableEq P] {s : LockedData P D R} (hs : s.Owned) {p : P}
    (howner : s.owner = some p) (rest : Section D R) (data : D) :
    ({ s.goto p (.inside rest) with data := data } : LockedData P D R).Owned := by
  intro q
  by_cases hq : q = p
  · subst hq
    simp [LockedData.goto, SectionPc.rest, howner]
  · simpa [LockedData.goto, hq] using hs q

theorem Owned.release {P D R : Type u} [DecidableEq P] {s : LockedData P D R} (hs : s.Owned) {p : P}
    (howner : s.owner = some p) (result : R) :
    ({ s.goto p (.returned result) with owner := none } : LockedData P D R).Owned := by
  intro q
  by_cases hq : q = p
  · subst hq
    simp [LockedData.goto, SectionPc.rest]
  · have hout := (hs q).not.mp fun he => hq (Option.some.inj (he.symm.trans howner))
    simpa [LockedData.goto, hq] using hout

theorem abstract_data {P D R : Type u} {s : LockedData P D R} {pending : Option (Section D R)}
    (h : s.pending = pending) :
    s.abstract.data = pending.elim s.data fun rest => (rest.run s.data).1 := by
  rw [LockedData.abstract, h]

theorem abstract_pc {P D R : Type u} [DecidableEq P] {s : LockedData P D R} {p : P}
    {pc : SectionPc D R} {data : D} {x : AtomicPc D R} (hpc : pc.abstract data = x)
    (hothers : ∀ q, q ≠ p → (s.pc q).abstract data = (s.pc q).abstract s.data) :
    (fun q => (Function.update s.pc p pc q).abstract data) =
      Function.update s.abstract.pc p x := by
  funext q
  by_cases hq : q = p
  · subst hq
    simp [hpc]
  · simpa [hq, LockedData.abstract] using hothers q hq

/-- A party moves on outside the lock, in both. -/
theorem Owned.abstract_goto {P D R : Type u} [DecidableEq P] {s : LockedData P D R} (hs : s.Owned)
    {p : P} {pc : SectionPc D R} (hp : (s.pc p).rest = none) (hpc : pc.rest = none) :
    (s.goto p pc).abstract = s.abstract.goto p (pc.abstract s.data) := by
  have hpending := (hs.goto hp hpc).2
  refine AtomicData.ext ?_ (abstract_pc rfl fun _ _ => rfl)
  rw [abstract_data hpending]
  rfl

theorem Owned.step {P D R : Type u} [DecidableEq P] {s t : LockedData P D R} (hs : s.Owned)
    {l : SectionLabel P D R} (h : s.step l = some t) :
    t.Owned ∧ ∀ data : D, (atomicData data).exec s.abstract (s.act l) = some t.abstract := by
  cases l with
  | call p call =>
    cases hp : s.pc p <;> simp only [LockedData.step, hp, reduceCtorEq, Option.some.injEq] at h
    subst h
    have hrest : (s.pc p).rest = none := by rw [hp]; rfl
    refine ⟨(hs.goto hrest rfl).1, fun data => ?_⟩
    have hcalled : s.abstract.pc p = .outside := by simp [LockedData.abstract, hp, SectionPc.abstract]
    rw [hs.abstract_goto hrest (rfl : (SectionPc.lock call : SectionPc D R).rest = none)]
    simp [act, atomicData, AtomicData.step, hcalled, SectionPc.abstract]
  | return_ p =>
    cases hp : s.pc p <;> simp only [LockedData.step, hp, reduceCtorEq, Option.some.injEq] at h
    rename_i result
    subst h
    have hrest : (s.pc p).rest = none := by rw [hp]; rfl
    refine ⟨(hs.goto hrest rfl).1, fun data => ?_⟩
    have hreturned : s.abstract.pc p = .returned result := by
      simp [LockedData.abstract, hp, SectionPc.abstract]
    rw [hs.abstract_goto hrest (rfl : (SectionPc.outside : SectionPc D R).rest = none)]
    simp [act, atomicData, AtomicData.step, hreturned, SectionPc.abstract]
  | step p =>
    cases hp : s.pc p with
    | outside | returned result => simp [LockedData.step, hp] at h
    | lock call =>
      cases howner : s.owner <;>
        simp only [LockedData.step, hp, howner, reduceCtorEq, Option.some.injEq] at h
      subst h
      have hacquired := hs.acquire howner p call
      refine ⟨hacquired, fun data => ?_⟩
      have hcalled : s.abstract.pc p = .called call := by
        simp [LockedData.abstract, hp, SectionPc.abstract]
      have hnone : s.pending = none := by simp [pending, howner]
      have hfree : s.abstract.data = s.data := abstract_data hnone
      simp only [act, hp, atomicData, Machine.exec_cons, AtomicData.step, hcalled, hfree,
        Option.bind_some, Machine.exec_nil]
      refine congrArg some (AtomicData.ext ?_ ?_)
      · exact (abstract_data (hacquired.pending_eq (p := p)
          (show _ = SectionPc.inside call by simp [LockedData.goto]))).symm
      · exact (abstract_pc (p := p) (rfl : (SectionPc.inside call).abstract _ = _)
          fun _ _ => rfl).symm
    | inside rest =>
      have howner : s.owner = some p := (hs p).mpr (by rw [hp]; rfl)
      have hpending := hs.pending_eq hp
      cases rest with
      | return_ result =>
        simp only [LockedData.step, hp, Option.some.injEq] at h
        subst h
        refine ⟨hs.release howner result, fun data => ?_⟩
        have hsame : s.abstract.pc p = .returned result := by
          simp [LockedData.abstract, hp, SectionPc.abstract, Section.run]
        simp only [act, hp, Machine.exec_nil]
        refine congrArg some (AtomicData.ext ?_ ?_)
        · rw [abstract_data hpending]
          rfl
        · rw [← Function.update_eq_self p s.abstract.pc, hsame]
          exact (abstract_pc (p := p) (rfl : (SectionPc.returned result).abstract _ = _)
            fun _ _ => rfl).symm
      | access write next =>
        simp only [LockedData.step, hp, Option.some.injEq] at h
        subst h
        have haccessed := hs.access howner (next s.data) (write s.data)
        refine ⟨haccessed, fun data => ?_⟩
        have hsame : s.abstract.pc p =
            (SectionPc.inside (next s.data)).abstract (write s.data) := by
          simp [LockedData.abstract, hp, SectionPc.abstract, Section.run]
        simp only [act, hp, Machine.exec_nil]
        refine congrArg some (AtomicData.ext ?_ ?_)
        · rw [abstract_data hpending]
          exact (abstract_data (haccessed.pending_eq (p := p)
            (show _ = SectionPc.inside (next s.data) by simp [LockedData.goto]))).symm
        · rw [← Function.update_eq_self p s.abstract.pc, hsame]
          exact (abstract_pc (p := p) (rfl : (SectionPc.inside (next s.data)).abstract _ = _)
            fun q hq => hs.others howner hq _).symm

end LockedData

theorem lockedData_owned {P D R : Type u} [DecidableEq P] {data : D} {s : LockedData P D R}
    (h : (lockedData (P := P) (R := R) data).Reachable s) : s.Owned := by
  apply h.invariant
  · intro p
    simp [lockedData, SectionPc.rest]
  · intro s l t _ hs ht
    exact (LockedData.Owned.step hs ht).1

/-- Sections under a lock are atomic. -/
def lockedData_refines {P D R : Type u} [DecidableEq P] (data : D) :
    Machine.Refinement (lockedData (P := P) (R := R) data) (atomicData (P := P) (R := R) data) where
  f := LockedData.abstract
  act := LockedData.act
  init := rfl
  step _ _ _ hs ht := ((lockedData_owned hs).step ht).2 data

/-! The order in which the calls take effect. -/

def replay {P D R : Type u} (start : D) (log : List (P × Section D R)) : D :=
  log.foldl (fun data e => (e.2.run data).1) start

/-- The data and all results are those of the calls made one after the other. -/
structure AtomicData.Serial {P D R : Type u} (s : AtomicData P D R) (start : D)
    (log : List (P × Section D R)) : Prop where
  data : s.data = replay start log
  returned : ∀ p result, s.pc p = .returned result → ∃ before call after,
    log = before ++ (p, call) :: after ∧ result = (call.run (replay start before)).2

/-- A party moves on without an effect. -/
theorem AtomicData.Serial.goto {P D R : Type u} [DecidableEq P] {s : AtomicData P D R} {data : D}
    {log : List (P × Section D R)} (hs : s.Serial data log) {p : P} {pc : AtomicPc D R}
    (hpc : ∀ result, pc ≠ .returned result) : (s.goto p pc).Serial data log := by
  refine ⟨hs.data, fun q result hq => ?_⟩
  by_cases he : q = p
  · subst he
    exact (hpc result (by simpa [AtomicData.goto] using hq)).elim
  · exact hs.returned q result (by simpa [AtomicData.goto, he] using hq)

theorem AtomicData.Serial.commit {P D R : Type u} [DecidableEq P] {s : AtomicData P D R} {data : D}
    {log : List (P × Section D R)} (hs : s.Serial data log) (p : P) (call : Section D R) :
    ({ s.goto p (.returned (call.run s.data).2) with data := (call.run s.data).1 } :
      AtomicData P D R).Serial data (log ++ [(p, call)]) := by
  refine ⟨by simp [replay, hs.data], fun q result hq => ?_⟩
  by_cases he : q = p
  · subst he
    refine ⟨log, call, [], rfl, ?_⟩
    simp only [AtomicData.goto, Function.update_self, AtomicPc.returned.injEq] at hq
    rw [← hq, hs.data]
  · obtain ⟨before, call', after, rfl, hresult⟩ :=
      hs.returned q result (by simpa [AtomicData.goto, he] using hq)
    exact ⟨before, call', after ++ [(p, call)], by simp, hresult⟩

/-- A call takes effect when it gets the lock. -/
def LockedData.events {P D R : Type u} (s : LockedData P D R) :
    SectionLabel P D R → List (P × Section D R)
  | .step p =>
    match s.pc p with
    | .lock call => [(p, call)]
    | _ => []
  | _ => []

def observedData {P D R : Type u} [DecidableEq P] (data : D) :
    Machine (LockedData P D R × List (P × Section D R)) (SectionLabel P D R) :=
  (lockedData data).observe LockedData.events

theorem LockedData.serial_step {P D R : Type u} [DecidableEq P] {s t : LockedData P D R}
    {data : D} {log : List (P × Section D R)} (howned : s.Owned)
    (hs : s.abstract.Serial data log) {l : SectionLabel P D R} (h : s.step l = some t) :
    t.abstract.Serial data (log ++ s.events l) := by
  have hexec := (howned.step h).2 data
  cases l with
  | call p call =>
    cases hp : s.abstract.pc p <;>
      simp only [act, atomicData, Machine.exec_cons, Machine.exec_nil, AtomicData.step, hp,
        Option.bind_some, Option.bind_none, reduceCtorEq, Option.some.injEq] at hexec
    rw [← hexec]
    simpa [events] using hs.goto (p := p) (by simp)
  | return_ p =>
    cases hp : s.abstract.pc p <;>
      simp only [act, atomicData, Machine.exec_cons, Machine.exec_nil, AtomicData.step, hp,
        Option.bind_some, Option.bind_none, reduceCtorEq, Option.some.injEq] at hexec
    rw [← hexec]
    simpa [events] using hs.goto (p := p) (by simp)
  | step p =>
    cases hp : s.pc p with
    | outside | returned result => simp [LockedData.step, hp] at h
    | inside rest =>
      simp only [act, hp, Machine.exec_nil, Option.some.injEq] at hexec
      rw [← hexec]
      simpa [events, hp] using hs
    | lock call =>
      have hcalled : s.abstract.pc p = .called call := by
        simp [LockedData.abstract, hp, SectionPc.abstract]
      simp only [act, hp, atomicData, Machine.exec_cons, Machine.exec_nil, AtomicData.step, hcalled,
        Option.bind_some, Option.some.injEq] at hexec
      rw [← hexec]
      simpa [events, hp] using hs.commit p call

theorem observedData_serial {P D R : Type u} [DecidableEq P] {data : D}
    {s : LockedData P D R × List (P × Section D R)}
    (h : (observedData (P := P) (R := R) data).Reachable s) :
    s.1.Owned ∧ s.1.abstract.Serial data s.2 := by
  apply h.invariant (I := fun s => s.1.Owned ∧ s.1.abstract.Serial data s.2)
  · refine ⟨lockedData_owned .init, rfl, fun p result hp => ?_⟩
    simp [observedData, Machine.observe, lockedData, LockedData.abstract, SectionPc.abstract] at hp
  · intro s l t _ hs ht
    obtain ⟨hstep, hlog⟩ := Machine.observe_step ht
    rw [hlog]
    exact ⟨(hs.1.step hstep).1, LockedData.serial_step hs.1 hs.2 hstep⟩

end Interleaving
