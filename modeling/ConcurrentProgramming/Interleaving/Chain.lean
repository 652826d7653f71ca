import Mathlib.Data.List.Nodup
import Mathlib.Logic.Function.Basic

/-!
Null-terminated singly linked lists in a heap of cells. The heap is a partial
map from addresses, so a cell can be freed and its address used again; what a
chain says is about the cells that are there now.
-/

set_option autoImplicit false

namespace Interleaving

universe u v w

/-- Following `next` from `p` meets exactly the cells at the addresses of `xs`,
in that order and with those contents, and then null. -/
def Chain {A : Type u} {N : Type v} {D : Type w} (next : N → Option A) (data : N → D)
    (heap : A → Option N) : Option A → List (A × D) → Prop
  | p, [] => p = none
  | p, x :: xs => p = some x.1 ∧
      ∃ n, heap x.1 = some n ∧ data n = x.2 ∧ Chain next data heap (next n) xs

/-- The addresses a list of cells occupies. -/
def addresses {A : Type u} {D : Type w} (xs : List (A × D)) : List A := xs.map Prod.fst

/-- The contents of a list of cells. -/
def contents {A : Type u} {D : Type w} (xs : List (A × D)) : List D := xs.map Prod.snd

@[simp] theorem addresses_nil {A : Type u} {D : Type w} :
    addresses ([] : List (A × D)) = [] := rfl

@[simp] theorem addresses_cons {A : Type u} {D : Type w} (x : A × D) (xs : List (A × D)) :
    addresses (x :: xs) = x.1 :: addresses xs := rfl

@[simp] theorem addresses_append {A : Type u} {D : Type w} (xs ys : List (A × D)) :
    addresses (xs ++ ys) = addresses xs ++ addresses ys := by simp [addresses]

@[simp] theorem addresses_reverse {A : Type u} {D : Type w} (xs : List (A × D)) :
    addresses xs.reverse = (addresses xs).reverse := by simp [addresses]

@[simp] theorem contents_nil {A : Type u} {D : Type w} :
    contents ([] : List (A × D)) = [] := rfl

@[simp] theorem contents_cons {A : Type u} {D : Type w} (x : A × D) (xs : List (A × D)) :
    contents (x :: xs) = x.2 :: contents xs := rfl

@[simp] theorem contents_append {A : Type u} {D : Type w} (xs ys : List (A × D)) :
    contents (xs ++ ys) = contents xs ++ contents ys := by simp [contents]

@[simp] theorem contents_reverse {A : Type u} {D : Type w} (xs : List (A × D)) :
    contents xs.reverse = (contents xs).reverse := by simp [contents]

@[simp] theorem chain_none {A : Type u} {N : Type v} {D : Type w} {next : N → Option A}
    {data : N → D} {heap : A → Option N} {xs : List (A × D)} :
    Chain next data heap none xs ↔ xs = [] := by
  cases xs with
  | nil => simp [Chain]
  | cons x xs => simp [Chain]

theorem chain_some {A : Type u} {N : Type v} {D : Type w} {next : N → Option A} {data : N → D}
    {heap : A → Option N} {a : A} {xs : List (A × D)} :
    Chain next data heap (some a) xs ↔ ∃ n ys, heap a = some n ∧ xs = (a, data n) :: ys ∧
      Chain next data heap (next n) ys := by
  constructor
  · intro h
    cases xs with
    | nil => simp [Chain] at h
    | cons x xs =>
      obtain ⟨hx, n, hn, hd, hc⟩ := h
      obtain rfl : a = x.1 := by simpa using hx
      exact ⟨n, xs, hn, by rw [hd], hc⟩
  · rintro ⟨n, ys, hn, rfl, hc⟩
    exact ⟨rfl, n, hn, rfl, hc⟩

theorem Chain.congr {A : Type u} {N : Type v} {D : Type w} {next : N → Option A} {data : N → D}
    {heap heap' : A → Option N} {p : Option A} {xs : List (A × D)}
    (h : Chain next data heap p xs) (hheap : ∀ a ∈ addresses xs, heap' a = heap a) :
    Chain next data heap' p xs := by
  induction xs generalizing p with
  | nil => exact h
  | cons x xs ih =>
    obtain ⟨hp, n, hn, hd, hc⟩ := h
    refine ⟨hp, n, ?_, hd, ih hc fun a ha => hheap a (by simp [ha])⟩
    rw [hheap x.1 (by simp), hn]

/-- Cells outside the chain may be allocated, overwritten and freed. -/
theorem Chain.frame {A : Type u} {N : Type v} {D : Type w} [DecidableEq A]
    {next : N → Option A} {data : N → D} {heap : A → Option N} {p : Option A}
    {xs : List (A × D)} (h : Chain next data heap p xs) {a : A} (ha : a ∉ addresses xs)
    (cell : Option N) : Chain next data (Function.update heap a cell) p xs := by
  apply h.congr
  intro b hb
  have hba : b ≠ a := by
    rintro rfl
    exact ha hb
  rw [Function.update_of_ne hba]

theorem Chain.alive {A : Type u} {N : Type v} {D : Type w} {next : N → Option A}
    {data : N → D} {heap : A → Option N} {p : Option A} {xs : List (A × D)}
    (h : Chain next data heap p xs) {a : A} (ha : a ∈ addresses xs) : heap a ≠ none := by
  induction xs generalizing p with
  | nil => simp at ha
  | cons x xs ih =>
    obtain ⟨-, n, hn, -, hc⟩ := h
    rcases List.mem_cons.mp ha with rfl | ha
    · simp [hn]
    · exact ih hc ha

/-- One turn of an in-place reversal: the first cell of the rest is relinked to
the part already reversed. -/
theorem Chain.relink {A : Type u} {N : Type v} {D : Type w} [DecidableEq A]
    {next : N → Option A} {data : N → D} {heap : A → Option N} {cur : Option A} {a : A}
    {n m : N} {done rest : List (A × D)} (hcur : Chain next data heap cur done)
    (hrest : Chain next data heap (next n) rest) (hlink : next m = cur) (hdata : data m = data n)
    (hdone : a ∉ addresses done) (ha : a ∉ addresses rest) :
    Chain next data (Function.update heap a (some m)) (some a) ((a, data n) :: done) ∧
      Chain next data (Function.update heap a (some m)) (next n) rest := by
  constructor
  · refine ⟨rfl, m, by simp, hdata, ?_⟩
    rw [hlink]
    exact hcur.frame hdone _
  · exact hrest.frame ha _

end Interleaving
