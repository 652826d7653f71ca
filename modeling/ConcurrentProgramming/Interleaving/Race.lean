import Mathlib.Data.Fintype.Card
import Mathlib.Data.List.Basic

/-!
A race with one winner. Every party acts once: it stops the race, or it counts.
The first to stop wins, and if nobody stops, the last to count does. Who loses
walks away, so a result that only the winner publishes is published once.
-/

set_option autoImplicit false

namespace Interleaving

universe u v w

/-- Who has stopped the race and who has counted, in this order. -/
structure Turns (ι : Type u) where
  stopped : List ι
  counted : List ι
  deriving DecidableEq, Repr

namespace Turns

def stop {ι : Type u} (t : Turns ι) (i : ι) : Turns ι := { t with stopped := t.stopped ++ [i] }

def count {ι : Type u} (t : Turns ι) (i : ι) : Turns ι := { t with counted := t.counted ++ [i] }

def winner {ι : Type u} [Fintype ι] (t : Turns ι) : Option ι :=
  t.stopped.head?.or (if t.counted.length = Fintype.card ι then t.counted.getLast? else none)

/-- `stops` tells which of the two a party does. -/
structure Valid {ι : Type u} (stops : ι → Bool) (t : Turns ι) : Prop where
  stopped : ∀ i ∈ t.stopped, stops i = true
  counted : ∀ i ∈ t.counted, stops i = false
  once : t.counted.Nodup

theorem Valid.init {ι : Type u} (stops : ι → Bool) : Valid stops ⟨[], []⟩ :=
  ⟨nofun, nofun, List.nodup_nil⟩

theorem Valid.stop {ι : Type u} {stops : ι → Bool} {t : Turns ι} (ht : t.Valid stops) {i : ι}
    (hi : stops i = true) : (t.stop i).Valid stops := by
  refine ⟨fun j hj => ?_, ht.counted, ht.once⟩
  rcases List.mem_append.mp hj with hj | hj
  · exact ht.stopped j hj
  · rwa [List.mem_singleton.mp hj]

theorem Valid.count {ι : Type u} {stops : ι → Bool} {t : Turns ι} (ht : t.Valid stops) {i : ι}
    (hi : stops i = false) (hnew : i ∉ t.counted) : (t.count i).Valid stops := by
  refine ⟨ht.stopped, fun j hj => ?_, ?_⟩
  · rcases List.mem_append.mp hj with hj | hj
    · exact ht.counted j hj
    · rwa [List.mem_singleton.mp hj]
  · refine List.nodup_append.mpr ⟨ht.once, List.nodup_singleton i, fun j hj k hk => ?_⟩
    rw [List.mem_singleton.mp hk]
    exact fun h => hnew (h ▸ hj)

theorem Valid.length_le {ι : Type u} [Fintype ι] {stops : ι → Bool} {t : Turns ι}
    (ht : t.Valid stops) : t.counted.length ≤ Fintype.card ι := ht.once.length_le_card

/-- Once everyone has counted, nobody is left to stop. -/
theorem Valid.mem_counted {ι : Type u} [Fintype ι] {stops : ι → Bool} {t : Turns ι}
    (ht : t.Valid stops) (h : t.counted.length = Fintype.card ι) (i : ι) : i ∈ t.counted := by
  by_contra hi
  have hnodup : (i :: t.counted).Nodup := List.nodup_cons.mpr ⟨hi, ht.once⟩
  have := hnodup.length_le_card
  simp only [List.length_cons] at this
  omega

theorem Valid.not_stopped {ι : Type u} [Fintype ι] {stops : ι → Bool} {t : Turns ι}
    (ht : t.Valid stops) (h : t.counted.length = Fintype.card ι) : t.stopped = [] := by
  refine List.eq_nil_iff_forall_not_mem.mpr fun i hi => ?_
  have hcounts := ht.counted i (ht.mem_counted h i)
  rw [ht.stopped i hi] at hcounts
  cases hcounts

/-! What one turn does to the winner. -/

theorem Valid.stop_first {ι : Type u} [Fintype ι] {stops : ι → Bool} {t : Turns ι}
    (ht : t.Valid stops) {i : ι} (hi : stops i = true) (hnone : t.stopped = []) :
    t.winner = none ∧ (t.stop i).winner = some i := by
  refine ⟨?_, by simp [winner, Turns.stop, hnone]⟩
  rw [winner, hnone, List.head?_nil, Option.none_or, if_neg]
  intro hall
  have := ht.counted i (ht.mem_counted hall i)
  rw [hi] at this
  cases this

theorem stop_later {ι : Type u} [Fintype ι] {t : Turns ι} {i : ι} (hsome : t.stopped ≠ []) :
    (t.stop i).winner = t.winner := by
  obtain ⟨j, js, hj⟩ := List.exists_cons_of_ne_nil hsome
  simp [winner, Turns.stop, hj]

theorem Valid.count_last {ι : Type u} [Fintype ι] {stops : ι → Bool} {t : Turns ι}
    (ht : t.Valid stops) {i : ι} (hi : stops i = false) (hnew : i ∉ t.counted)
    (hlast : t.counted.length + 1 = Fintype.card ι) :
    t.winner = none ∧ (t.count i).winner = some i := by
  have hall : (t.count i).counted.length = Fintype.card ι := by simp [Turns.count, hlast]
  have hnone : t.stopped = [] := (ht.count hi hnew).not_stopped hall
  constructor
  · rw [winner, hnone, List.head?_nil, Option.none_or, if_neg (by omega)]
  · rw [winner, if_pos hall]
    simp [Turns.count, hnone]

theorem count_earlier {ι : Type u} [Fintype ι] {t : Turns ι} {i : ι}
    (hless : t.counted.length + 1 < Fintype.card ι) : (t.count i).winner = t.winner := by
  rw [winner, winner, if_neg, if_neg]
  · rfl
  · omega
  · simp only [Turns.count, List.length_append, List.length_singleton]
    omega

theorem stop_winner {ι : Type u} [Fintype ι] (t : Turns ι) (i : ι) : (t.stop i).winner ≠ none := by
  simp [winner, Turns.stop]

theorem Valid.winner_of_count {ι : Type u} [Fintype ι] {stops : ι → Bool} {t : Turns ι}
    (ht : t.Valid stops) {i : ι} (hi : stops i = false) (hnew : i ∉ t.counted)
    (h : (t.count i).winner = none) : t.winner = none := by
  have hle := (ht.count hi hnew).length_le
  simp only [Turns.count, List.length_append, List.length_singleton] at hle
  by_cases hlast : t.counted.length + 1 = Fintype.card ι
  · exact (ht.count_last hi hnew hlast).1
  · rwa [count_earlier (by omega)] at h

/-- A winner that has counted is the last of all. -/
theorem Valid.last_of_winner {ι : Type u} [Fintype ι] {stops : ι → Bool} {t : Turns ι}
    (ht : t.Valid stops) {i : ι} (hi : stops i = false) (h : t.winner = some i) :
    t.counted.length = Fintype.card ι ∧ t.counted.getLast? = some i := by
  rw [winner, Option.or_eq_some_iff] at h
  rcases h with h | ⟨-, h⟩
  · have := ht.stopped i (List.mem_of_head? h)
    rw [hi] at this
    cases this
  · rwa [Option.ite_none_right_eq_some] at h

theorem Valid.counted_of_winner {ι : Type u} [Fintype ι] {stops : ι → Bool} {t : Turns ι}
    (ht : t.Valid stops) {i : ι} (hi : stops i = false) (h : t.winner = some i) (j : ι) :
    j ∈ t.counted := ht.mem_counted (ht.last_of_winner hi h).1 j

theorem mem_of_winner {ι : Type u} [Fintype ι] {t : Turns ι} {i : ι} (h : t.winner = some i) :
    i ∈ t.stopped ∨ i ∈ t.counted := by
  rw [winner, Option.or_eq_some_iff] at h
  rcases h with h | ⟨-, h⟩
  · exact .inl (List.mem_of_head? h)
  · rw [Option.ite_none_right_eq_some] at h
    exact .inr (List.mem_of_getLast? h.2)

theorem Valid.stopped_of_winner {ι : Type u} [Fintype ι] {stops : ι → Bool} {t : Turns ι}
    (ht : t.Valid stops) {i : ι} (hi : stops i = true) (h : t.winner = some i) :
    t.stopped.head? = some i := by
  rw [winner, Option.or_eq_some_iff] at h
  rcases h with h | ⟨-, h⟩
  · exact h
  · rw [Option.ite_none_right_eq_some] at h
    have := ht.counted i (List.mem_of_getLast? h.2)
    rw [hi] at this
    cases this

/-- Who wins when everyone has had their turn. -/
theorem Valid.winner_of_all {ι : Type u} [Fintype ι] {stops : ι → Bool} {t : Turns ι}
    (ht : t.Valid stops) (hall : ∀ i, i ∈ t.stopped ∨ i ∈ t.counted) :
    (∀ i, stops i = true → t.stopped ≠ [] ∧ t.winner = t.stopped.head?) ∧
      ((∀ i, stops i = false) → t.winner = t.counted.getLast?) := by
  constructor
  · intro i hi
    have hne : t.stopped ≠ [] := by
      rcases hall i with h | h
      · exact List.ne_nil_of_mem h
      · rw [ht.counted i h] at hi
        cases hi
    obtain ⟨j, js, hj⟩ := List.exists_cons_of_ne_nil hne
    exact ⟨hne, by simp [winner, hj]⟩
  · intro hcounts
    have hnone : t.stopped = [] := List.eq_nil_iff_forall_not_mem.mpr fun i hi => by
      have := ht.stopped i hi
      rw [hcounts i] at this
      cases this
    have hlen : Fintype.card ι ≤ t.counted.length := by
      classical
      rw [← List.toFinset_card_of_nodup ht.once, ← Finset.card_univ]
      refine Finset.card_le_card fun i _ => List.mem_toFinset.mpr ?_
      simpa [hnone] using hall i
    rw [winner, hnone, List.head?_nil, Option.none_or,
      if_pos (Nat.le_antisymm ht.length_le hlen)]

end Turns

/-- Before somebody has won, while the winner is publishing, and after that. -/
inductive Settles {ι : Type u} {β : Type v} (out : ι → β) (winner : Option ι)
    (committing : ι → Bool) (published : List β) : Prop
  | open : winner = none → (∀ i, committing i = false) → published = [] →
      Settles out winner committing published
  | committing (i : ι) : winner = some i → (∀ j, committing j = true ↔ j = i) → published = [] →
      Settles out winner committing published
  | settled (i : ι) : winner = some i → (∀ j, committing j = false) → published = [out i] →
      Settles out winner committing published

/-- `acted` are the parties that have had their turn, `committing` those that
believe to have won, `published` what has been published. -/
structure Race {ι : Type u} {β : Type v} [Fintype ι] (stops : ι → Bool) (out : ι → β)
    (acted committing : ι → Bool) (t : Turns ι) (published : List β) : Prop where
  valid : t.Valid stops
  acted : ∀ i, (i ∈ t.stopped ∨ i ∈ t.counted) ↔ acted i = true
  settles : Settles out t.winner committing published

namespace Race

section
variable {ι : Type u} {β : Type v} [Fintype ι] {stops : ι → Bool} {out : ι → β}
  {acted committing : ι → Bool} {t : Turns ι} {published : List β}

theorem init [Nonempty ι] : Race stops out (fun _ => false) (fun _ => false) ⟨[], []⟩ [] := by
  refine ⟨.init stops, by simp, .open ?_ (fun _ => rfl) rfl⟩
  rw [Turns.winner, if_neg]
  · rfl
  · simpa using (Fintype.card_pos (α := ι)).ne

theorem not_mem (h : Race stops out acted committing t published) {i : ι}
    (hi : acted i = false) : i ∉ t.stopped ∧ i ∉ t.counted := by
  rw [← not_or, h.acted i, hi]
  exact Bool.false_ne_true

/-- Who stops goes on to publish exactly if nobody has stopped before. -/
theorem stop [DecidableEq ι] (h : Race stops out acted committing t published) {i : ι}
    (hi : stops i = true) (hnew : committing i = false) :
    Race stops out (Function.update acted i true)
      (Function.update committing i t.stopped.isEmpty) (t.stop i) published := by
  refine ⟨h.valid.stop hi, fun j => ?_, ?_⟩
  · by_cases hj : j = i
    · simp [hj, Turns.stop]
    · simpa [hj, Turns.stop] using h.acted j
  · by_cases hnone : t.stopped = []
    · obtain ⟨hbefore, hafter⟩ := h.valid.stop_first hi hnone
      cases h.settles with
      | «open» _ hidle hpub =>
        refine .committing i hafter (fun j => ?_) hpub
        by_cases hj : j = i
        · simp [hj, hnone]
        · simp [hj, hidle j]
      | committing j hj | settled j hj => simp [hbefore] at hj
    · have hsame : Function.update committing i t.stopped.isEmpty = committing := by
        rw [List.isEmpty_eq_false_iff.mpr hnone, ← hnew, Function.update_eq_self]
      rw [hsame, Turns.stop_later hnone]
      exact h.settles

/-- Who counts goes on to publish exactly if it is the last to count. -/
theorem count [DecidableEq ι] (h : Race stops out acted committing t published) {i : ι}
    (hi : stops i = false) (hturn : acted i = false) (hnew : committing i = false) :
    Race stops out (Function.update acted i true)
      (Function.update committing i (decide (t.counted.length + 1 = Fintype.card ι)))
      (t.count i) published := by
  have hmem := (h.not_mem hturn).2
  have hle := (h.valid.count hi hmem).length_le
  simp only [Turns.count, List.length_append, List.length_singleton] at hle
  refine ⟨h.valid.count hi hmem, fun j => ?_, ?_⟩
  · by_cases hj : j = i
    · simp [hj, Turns.count]
    · simpa [hj, Turns.count] using h.acted j
  · by_cases hlast : t.counted.length + 1 = Fintype.card ι
    · obtain ⟨hbefore, hafter⟩ := h.valid.count_last hi hmem hlast
      cases h.settles with
      | «open» _ hidle hpub =>
        refine .committing i hafter (fun j => ?_) hpub
        by_cases hj : j = i
        · simp [hj, hlast]
        · simp [hj, hidle j]
      | committing j hj | settled j hj => simp [hbefore] at hj
    · have hsame : Function.update committing i
          (decide (t.counted.length + 1 = Fintype.card ι)) = committing := by
        rw [decide_eq_false hlast, ← hnew, Function.update_eq_self]
      rw [hsame, Turns.count_earlier (by omega)]
      exact h.settles

theorem publish [DecidableEq ι] (h : Race stops out acted committing t published) {i : ι}
    (hi : committing i = true) :
    Race stops out acted (Function.update committing i false) t (published ++ [out i]) := by
  refine ⟨h.valid, h.acted, ?_⟩
  cases h.settles with
  | «open» _ hidle | settled _ _ hidle => simp [hidle i] at hi
  | committing j hj honly hpub =>
    obtain rfl := (honly i).mp hi
    refine .settled i hj (fun k => ?_) (by rw [hpub, List.nil_append])
    by_cases hk : k = i
    · simp [hk]
    · simpa [hk] using (honly k).not.mpr hk

theorem winner_of_committing (h : Race stops out acted committing t published) {i : ι}
    (hi : committing i = true) :
    t.winner = some i ∧ (∀ j, committing j = true → j = i) ∧ published = [] := by
  cases h.settles with
  | «open» _ hidle | settled _ _ hidle => simp [hidle i] at hi
  | committing j hj honly hpub =>
    obtain rfl := (honly i).mp hi
    exact ⟨hj, fun k => (honly k).mp, hpub⟩

theorem published_winner (h : Race stops out acted committing t published) :
    published = [] ∨ ∃ i, t.winner = some i ∧ published = [out i] := by
  cases h.settles with
  | «open» _ _ hpub | committing _ _ _ hpub => exact .inl hpub
  | settled i hi _ hpub => exact .inr ⟨i, hi, hpub⟩

/-- When everyone is done, the winner has published. -/
theorem finished [Nonempty ι] (h : Race stops out acted committing t published)
    (hacted : ∀ i, acted i = true) (hidle : ∀ i, committing i = false) :
    ∃ i, published = [out i] ∧ ((∃ j, stops j = true) → t.stopped.head? = some i) ∧
      ((∀ j, stops j = false) → t.counted.getLast? = some i) := by
  obtain ⟨hstop, hcount⟩ := h.valid.winner_of_all fun i => (h.acted i).mpr (hacted i)
  cases h.settles with
  | committing i _ honly => simpa [hidle i] using honly i
  | settled i hi _ hpub =>
    exact ⟨i, hpub, fun ⟨j, hj⟩ => (hstop j hj).2.symm.trans hi, fun hj => (hcount hj).symm.trans hi⟩
  | «open» hnone =>
    exfalso
    by_cases hex : ∃ j, stops j = true
    · obtain ⟨j, hj⟩ := hex
      obtain ⟨hne, hwin⟩ := hstop j hj
      rw [hnone, eq_comm, List.head?_eq_none_iff] at hwin
      exact hne hwin
    · have hj (j : ι) : stops j = false := by simpa using fun h => hex ⟨j, h⟩
      have hwin := hcount hj
      rw [hnone, eq_comm, List.getLast?_eq_none_iff] at hwin
      obtain ⟨i⟩ := (inferInstance : Nonempty ι)
      rcases (h.acted i).mpr (hacted i) with hi | hi
      · have := h.valid.stopped i hi
        rw [hj i] at this
        cases this
      · simp [hwin] at hi

end

end Race

/-! Parties that are at some point of a call, or have not started it. -/

theorem forall_update {ι : Type u} {P : Type w} [DecidableEq ι] {calls : ι → Option P}
    {At : ι → P → Prop} (hcalls : ∀ j q, calls j = some q → At j q) {i : ι} {p : P} (hp : At i p)
    (j : ι) (q : P) (hq : Function.update calls i (some p) j = some q) : At j q := by
  rcases eq_or_ne j i with rfl | hj
  · obtain rfl : p = q := by simpa using hq
    exact hp
  · exact hcalls j q (by simpa [hj] using hq)

theorem any_update {ι : Type u} {P : Type w} [DecidableEq ι] (calls : ι → Option P) (i : ι) (p : P)
    (f : P → Bool) : (fun j => (Function.update calls i (some p) j).any f) =
      Function.update (fun j => (calls j).any f) i (f p) := by
  funext j
  rcases eq_or_ne j i with rfl | hj
  · simp
  · simp [hj]

theorem any_update_same {ι : Type u} {P : Type w} [DecidableEq ι] {calls : ι → Option P} {i : ι}
    {p : P} {f : P → Bool} (h : f p = (calls i).any f) :
    (fun j => (Function.update calls i (some p) j).any f) = fun j => (calls j).any f := by
  rw [any_update, h, Function.update_eq_self i fun j => (calls j).any f]

section
variable {ι : Type u} {β : Type v} {P : Type w} [Fintype ι]

/-- A race whose parties act and publish in the course of a call. -/
def CallRace (stops : ι → Bool) (out : ι → β) (acted committing : P → Bool)
    (calls : ι → Option P) (t : Turns ι) (published : List β) : Prop :=
  Race stops out (fun i => (calls i).any acted) (fun i => (calls i).any committing) t published

namespace CallRace

variable [DecidableEq ι] {stops : ι → Bool} {out : ι → β} {acted committing : P → Bool}
  {calls : ι → Option P} {t : Turns ι} {published : List β} {i : ι} {p : P}

/-- A step that is neither a turn nor publishes. -/
theorem move (h : CallRace stops out acted committing calls t published)
    (hacted : acted p = (calls i).any acted) (hcommitting : committing p = (calls i).any committing) :
    CallRace stops out acted committing (Function.update calls i (some p)) t published := by
  rw [CallRace, any_update_same hacted, any_update_same hcommitting]
  exact h

theorem stop (h : CallRace stops out acted committing calls t published) (hi : stops i = true)
    (hnew : (calls i).any committing = false) (hacted : acted p = true)
    (hcommitting : committing p = t.stopped.isEmpty) :
    CallRace stops out acted committing (Function.update calls i (some p)) (t.stop i) published := by
  rw [CallRace, any_update, any_update, hacted, hcommitting]
  exact Race.stop h hi hnew

theorem count (h : CallRace stops out acted committing calls t published) (hi : stops i = false)
    (hturn : (calls i).any acted = false) (hnew : (calls i).any committing = false)
    (hacted : acted p = true)
    (hcommitting : committing p = decide (t.counted.length + 1 = Fintype.card ι)) :
    CallRace stops out acted committing (Function.update calls i (some p)) (t.count i)
      published := by
  rw [CallRace, any_update, any_update, hacted, hcommitting]
  exact Race.count h hi hturn hnew

theorem publish (h : CallRace stops out acted committing calls t published)
    (hi : (calls i).any committing = true) (hacted : acted p = true)
    (hcommitting : committing p = false) :
    CallRace stops out acted committing (Function.update calls i (some p)) t
      (published ++ [out i]) := by
  have hmem := Turns.mem_of_winner (Race.winner_of_committing h hi).1
  rw [CallRace, any_update_same (hacted.trans ((Race.acted h i).mp hmem).symm), any_update,
    hcommitting]
  exact Race.publish h hi

omit [DecidableEq ι] in
/-- Once all calls are past their turn and publish nothing more, something is published. -/
theorem published_ne_nil [Nonempty ι] (h : CallRace stops out acted committing calls t published)
    (hdone : ∀ i, ∃ p, calls i = some p ∧ acted p = true ∧ committing p = false) :
    published ≠ [] := by
  have hacted (i : ι) : (calls i).any acted = true := by
    obtain ⟨p, hp, hacted, -⟩ := hdone i
    rw [hp]
    exact hacted
  have hidle (i : ι) : (calls i).any committing = false := by
    obtain ⟨p, hp, -, hidle⟩ := hdone i
    rw [hp]
    exact hidle
  obtain ⟨i, hpub, -⟩ := Race.finished h hacted hidle
  simp [hpub]

end CallRace

end

end Interleaving
