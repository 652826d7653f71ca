import Mathlib.Data.List.Basic

/-!
Histories: what the steps of a run have done, oldest first. A law says of one event
what must have come before it; `Since` cuts a history at the last event of a kind.
-/

set_option autoImplicit false

namespace Interleaving

universe u

def Lawful {ε : Type u} (law : List ε → ε → Prop) (history : List ε) : Prop :=
  ∀ before e after, history = before ++ e :: after → law before e

theorem lawful_nil {ε : Type u} (law : List ε → ε → Prop) : Lawful law [] :=
  fun _ _ _ h => by simp at h

theorem Lawful.concat {ε : Type u} {law : List ε → ε → Prop} {history : List ε} {e : ε}
    (h : Lawful law history) (he : law history e) : Lawful law (history ++ [e]) := by
  intro before x after heq
  rcases List.eq_nil_or_concat after with rfl | ⟨rest, last, rfl⟩
  · obtain ⟨rfl, hlast⟩ := List.append_inj' heq rfl
    exact (List.singleton_inj.mp hlast) ▸ he
  · have hsplit : history ++ [e] = (before ++ x :: rest) ++ [last] := by simpa using heq
    obtain ⟨rfl, -⟩ := List.append_inj' hsplit rfl
    exact h before x rest rfl

theorem Lawful.of_append {ε : Type u} {law : List ε → ε → Prop} {history later : List ε}
    (h : Lawful law (history ++ later)) : Lawful law history := by
  intro before e after heq
  exact h before e (after ++ later) (by simp [heq])

/-- `during` is what has happened since `mark` happened last. -/
def Since {ε : Type u} (mark : ε) (history during : List ε) : Prop :=
  ∃ before, history = before ++ mark :: during ∧ mark ∉ during

theorem since_concat {ε : Type u} (mark : ε) (history : List ε) :
    Since mark (history ++ [mark]) [] :=
  ⟨history, rfl, List.not_mem_nil⟩

theorem Since.append {ε : Type u} {mark : ε} {history during later : List ε}
    (h : Since mark history during) (hlater : mark ∉ later) :
    Since mark (history ++ later) (during ++ later) := by
  obtain ⟨before, rfl, hduring⟩ := h
  exact ⟨before, by simp, by simp [hduring, hlater]⟩

theorem eq_of_cons_eq_append {ε : Type u} {mark : ε} {during during' more : List ε}
    (h : mark :: during = more ++ mark :: during') (hduring : mark ∉ during) :
    during = during' := by
  cases more with
  | nil => exact (List.cons.inj h).2
  | cons e more =>
    have hmem : mark ∈ during := by simp [(List.cons.inj h).2]
    exact (hduring hmem).elim

theorem Since.unique {ε : Type u} {mark : ε} {history during during' : List ε}
    (h : Since mark history during) (h' : Since mark history during') : during = during' := by
  obtain ⟨before, rfl, hduring⟩ := h
  obtain ⟨before', heq, hduring'⟩ := h'
  rcases List.append_eq_append_iff.mp heq with ⟨more, -, hmore⟩ | ⟨more, -, hmore⟩
  · exact eq_of_cons_eq_append hmore hduring
  · exact (eq_of_cons_eq_append hmore hduring').symm

end Interleaving
