import ConcurrentProgramming.Interleaving.History
import Mathlib.Data.List.Induction

/-!
What happens again and again in a history: windows of consecutive entries, how long
the last entries have been of one kind, and the pieces into which marked entries cut
a history.
-/

set_option autoImplicit false

namespace Interleaving

universe u

/-- Among any `k` consecutive entries there is one with `p`. -/
def Recurs {ε : Type u} (p : ε → Prop) (k : Nat) (l : List ε) : Prop :=
  ∀ window, window <:+: l → window.length = k → ∃ e ∈ window, p e

/-- At most the last `k` entries lack `p`. -/
def Overdue {ε : Type u} (p : ε → Prop) (k : Nat) (l : List ε) : Prop :=
  ∀ window, window <:+ l → (∀ e ∈ window, ¬ p e) → window.length ≤ k

theorem overdue_nil {ε : Type u} (p : ε → Prop) (k : Nat) : Overdue p k [] := by
  intro window hwindow _
  simp [List.suffix_nil.mp hwindow]

theorem Overdue.mono {ε : Type u} {p : ε → Prop} {k k' : Nat} {l : List ε} (h : Overdue p k l)
    (hk : k ≤ k') : Overdue p k' l :=
  fun window hwindow hnone => Nat.le_trans (h window hwindow hnone) hk

theorem Overdue.concat {ε : Type u} {p : ε → Prop} {k : Nat} {l : List ε} (h : Overdue p k l)
    (e : ε) : Overdue p (k + 1) (l ++ [e]) := by
  intro window hwindow hnone
  rcases List.suffix_concat_iff.mp hwindow with rfl | ⟨before, rfl, hbefore⟩
  · simp
  · have hle := h before hbefore fun e he => hnone e (List.mem_append_left _ he)
    simp only [List.length_append, List.length_singleton]
    omega

theorem overdue_concat {ε : Type u} {p : ε → Prop} {e : ε} (he : p e) (l : List ε) :
    Overdue p 0 (l ++ [e]) := by
  intro window hwindow hnone
  rcases List.suffix_concat_iff.mp hwindow with rfl | ⟨before, rfl, -⟩
  · simp
  · exact absurd he (hnone e (by simp))

theorem recurs_nil {ε : Type u} (p : ε → Prop) (k : Nat) : Recurs p (k + 1) [] := by
  intro window hwindow hlength
  simp [List.infix_nil.mp hwindow] at hlength

theorem Recurs.of_within {ε : Type u} {p : ε → Prop} {k : Nat} {l m : List ε} (h : Recurs p k l)
    (hm : m <:+: l) : Recurs p k m :=
  fun window hwindow => h window (hwindow.trans hm)

theorem Recurs.concat {ε : Type u} {p : ε → Prop} {k : Nat} {l : List ε} {e : ε}
    (h : Recurs p (k + 1) l) (he : Overdue p k (l ++ [e])) : Recurs p (k + 1) (l ++ [e]) := by
  intro window hwindow hlength
  rcases List.infix_concat_iff.mp hwindow with hlast | hearlier
  · by_contra hnone
    have := he window hlast fun e he hp => hnone ⟨e, he, hp⟩
    omega
  · exact h window hearlier hlength

/-- A long stretch has many entries with `p`. -/
theorem Recurs.le_countP {ε : Type u} {p : ε → Bool} {k : Nat} {l : List ε}
    (h : Recurs (fun e => p e = true) k l) {m : Nat} (hm : k * m ≤ l.length) :
    m ≤ l.countP p := by
  induction m generalizing l with
  | zero => exact Nat.zero_le _
  | succ m ih =>
    rw [Nat.mul_succ] at hm
    have hfirst : 0 < (l.take k).countP p := by
      have hlength : (l.take k).length = k := List.length_take_of_le (by omega)
      exact List.countP_pos_iff.mpr (h _ ( List.take_prefix k l).isInfix hlength)
    have hrest : m ≤ (l.drop k).countP p := by
      apply ih (h.of_within ( List.drop_suffix k l).isInfix)
      rw [List.length_drop]
      omega
    have hsplit : l.countP p = (l.take k).countP p + (l.drop k).countP p := by
      rw [← List.countP_append, List.take_append_drop]
    omega

/-- The pieces that are complete, and the piece that has begun. -/
def segmentStep {ε : Type u} (ends : ε → Bool) (pieces : List (List ε) × List ε) (e : ε) :
    List (List ε) × List ε :=
  if ends e then (pieces.1 ++ [pieces.2 ++ [e]], []) else (pieces.1, pieces.2 ++ [e])

def segments {ε : Type u} (ends : ε → Bool) (history : List ε) : List (List ε) × List ε :=
  history.foldl (segmentStep ends) ([], [])

@[simp] theorem segments_nil {ε : Type u} (ends : ε → Bool) : segments ends [] = ([], []) := rfl

theorem segments_concat {ε : Type u} (ends : ε → Bool) (history : List ε) (e : ε) :
    segments ends (history ++ [e]) = segmentStep ends (segments ends history) e := by
  simp [segments]

theorem segments_flatten {ε : Type u} (ends : ε → Bool) (history : List ε) :
    (segments ends history).1.flatten ++ (segments ends history).2 = history := by
  induction history using List.reverseRecOn with
  | nil => rfl
  | append_singleton history e ih =>
    rw [segments_concat, segmentStep]
    split
    · simp only [List.flatten_append, List.flatten_singleton, List.append_nil]
      rw [← List.append_assoc, ih]
    · rw [← List.append_assoc, ih]

/-- After an entry that ends a piece, the rest is cut for itself. -/
theorem segments_append {ε : Type u} {ends : ε → Bool} {before : List ε}
    (h : (segments ends before).2 = []) (after : List ε) :
    segments ends (before ++ after) =
      ((segments ends before).1 ++ (segments ends after).1, (segments ends after).2) := by
  induction after using List.reverseRecOn with
  | nil => exact Prod.ext (by simp) (by simpa using h)
  | append_singleton after e ih =>
    rw [← List.append_assoc, segments_concat, ih, segments_concat, segmentStep, segmentStep]
    split
    · simp
    · rfl

theorem segments_ended {ε : Type u} {ends : ε → Bool} {e : ε} (he : ends e = true)
    (history : List ε) : (segments ends (history ++ [e])).2 = [] := by
  rw [segments_concat, segmentStep, if_pos he]

theorem segments_all {ε : Type u} {ends : ε → Bool} {history : List ε}
    (h : ∀ e ∈ history, ends e = true) :
    segments ends history = (history.map fun e => [e], []) := by
  induction history using List.reverseRecOn with
  | nil => rfl
  | append_singleton history e ih =>
    rw [segments_concat, ih fun x hx => h x (List.mem_append_left _ hx), segmentStep,
      if_pos (h e (by simp))]
    simp

theorem length_flatten_of_singletons {ε : Type u} {pieces : List (List ε)}
    (h : ∀ piece ∈ pieces, ∃ e, piece = [e]) : pieces.flatten.length = pieces.length := by
  induction pieces with
  | nil => rfl
  | cons piece rest ih =>
    obtain ⟨e, rfl⟩ := h piece (by simp)
    have hrest := ih fun piece hpiece => h piece (List.mem_cons_of_mem _ hpiece)
    simp only [List.flatten_cons, List.length_append, List.length_cons, List.length_nil]
    omega

end Interleaving
