import Mathlib.Data.List.Basic
import Mathlib.Data.List.Infix
import Mathlib.Data.List.Nodup
import Mathlib.Data.List.TakeWhile
import Mathlib.Order.Lattice
import Mathlib.Tactic.Common

/-! # Sweeping a list in batches

Each turn takes the next `size` elements of what is left, and deals with those that stand before the first
that is in the way. It comes to the end when the batch is all that is left and nothing of it is in the way.

* `left_of_cursor`: in a sorted list a cursor on the last element dealt with says what is left.
* `ends_of_fine`: where nothing is ever in the way, the end is reached.
* `stuck`: what is always in the way stays, and the end is never reached. -/

namespace Kmatrix.Lib.Sweep

variable {α : Type} {size : ℕ}

theorem takeWhile_congr {p q : α → Bool} {xs : List α} (h : ∀ x ∈ xs, p x = q x) :
    xs.takeWhile p = xs.takeWhile q := by
  induction xs with
  | nil => rfl
  | cons x xs ih =>
    obtain ⟨hx, hxs⟩ := List.forall_mem_cons.mp h
    rw [List.takeWhile_cons, List.takeWhile_cons, hx, ih hxs]

section Turn
variable {fine : α → Bool} {rest : List α}

/-- **What a turn deals with.** -/
def dealt (size : ℕ) (fine : α → Bool) (rest : List α) : List α := (rest.take size).takeWhile fine

/-- What it leaves. -/
def left (size : ℕ) (fine : α → Bool) (rest : List α) : List α :=
  rest.drop (dealt size fine rest).length

/-- **The end**: the batch is all there is, and nothing of it is in the way. -/
def Ends (size : ℕ) (fine : α → Bool) (rest : List α) : Prop :=
  rest.length ≤ size ∧ ∀ x ∈ rest.take size, fine x = true

theorem dealt_append_left : dealt size fine rest ++ left size fine rest = rest := by
  have hbegins : dealt size fine rest <+: rest :=
    (List.takeWhile_prefix fine).trans (List.take_prefix size rest)
  exact (List.prefix_append_drop hbegins).symm

theorem fine_of_mem_dealt {x : α} (h : x ∈ dealt size fine rest) : fine x = true :=
  List.mem_takeWhile_imp h

theorem mem_of_dealt {x : α} (h : x ∈ dealt size fine rest) : x ∈ rest := by
  rw [← @dealt_append_left α size fine rest]
  exact List.mem_append_left _ h

theorem mem_of_left {x : α} (h : x ∈ left size fine rest) : x ∈ rest := by
  rw [← @dealt_append_left α size fine rest]
  exact List.mem_append_right _ h

/-- At the end all is dealt with. -/
theorem Ends.dealt_eq (h : Ends size fine rest) : dealt size fine rest = rest := by
  obtain ⟨hlength, hfine⟩ := h
  have htake : rest.take size = rest := List.take_of_length_le hlength
  rw [htake] at hfine
  unfold dealt
  rw [htake, List.takeWhile_eq_self_iff]
  exact hfine

theorem Ends.left_eq (h : Ends size fine rest) : left size fine rest = [] := by
  unfold left
  rw [h.dealt_eq, List.drop_length]

/-- Where the next element is not in the way, less is left. -/
theorem length_left_lt (hsize : 0 < size) {x : α} {xs : List α} (hx : fine x = true) :
    (left size fine (x :: xs)).length < (x :: xs).length := by
  have hdealt : (dealt size fine (x :: xs)).length = (dealt (size - 1) fine xs).length + 1 := by
    obtain ⟨n, rfl⟩ : ∃ n, size = n + 1 := ⟨size - 1, by omega⟩
    unfold dealt
    rw [List.take_succ_cons, List.takeWhile_cons_of_pos hx]
    rfl
  unfold left
  rw [List.length_drop, hdealt, List.length_cons]
  omega

/-! ### The cursor -/

section Cursor
variable {κ : Type} [LinearOrder κ] {key : α → κ} {c : κ}

/-- The cursor after a turn that has dealt with `xs`. -/
def cursor (key : α → κ) (c : κ) (xs : List α) : κ := (xs.getLast?.map key).getD c

variable (hsorted : rest.Pairwise fun a b => key a < key b)
include hsorted

/-- The cursor is at or above what was dealt with. -/
theorem le_cursor {x : α} (hx : x ∈ dealt size fine rest) :
    key x ≤ cursor key c (dealt size fine rest) := by
  rw [← @dealt_append_left α size fine rest, List.pairwise_append] at hsorted
  unfold cursor
  rcases List.eq_nil_or_concat (dealt size fine rest) with hnil | ⟨before, last, hlast⟩
  · rw [hnil] at hx
    simp at hx
  · rw [hlast] at hx hsorted ⊢
    rw [List.concat_eq_append] at hx hsorted ⊢
    rw [List.getLast?_append, List.getLast?_singleton, Option.some_or, Option.map_some, Option.getD_some]
    rcases List.mem_append.mp hx with hx | hx
    · exact ((List.pairwise_append.mp hsorted.1).2.2 x hx last (by simp)).le
    · rw [List.mem_singleton.mp hx]

/-- What is left is above the cursor. -/
theorem cursor_lt (habove : ∀ x ∈ rest, c < key x) {x : α} (hx : x ∈ left size fine rest) :
    cursor key c (dealt size fine rest) < key x := by
  have hmem := mem_of_left hx
  rw [← @dealt_append_left α size fine rest, List.pairwise_append] at hsorted
  unfold cursor
  rcases hlast : (dealt size fine rest).getLast? with _ | last
  · exact habove x hmem
  · exact hsorted.2.2 last (List.mem_of_getLast? hlast) x hx

/-- **What is left** is what was there above the cursor. -/
theorem left_of_cursor (habove : ∀ x ∈ rest, c < key x) {x : α} :
    x ∈ left size fine rest ↔ x ∈ rest ∧ cursor key c (dealt size fine rest) < key x := by
  refine ⟨fun hx => ⟨mem_of_left hx, cursor_lt hsorted habove hx⟩, fun ⟨hx, hlt⟩ => ?_⟩
  rw [← @dealt_append_left α size fine rest] at hx
  rcases List.mem_append.mp hx with hx | hx
  · exact absurd hlt (le_cursor hsorted hx).not_gt
  · exact hx

omit hsorted in
theorem cursor_ge (habove : ∀ x ∈ rest, c < key x) : c ≤ cursor key c (dealt size fine rest) := by
  unfold cursor
  rcases hlast : (dealt size fine rest).getLast? with _ | last
  · exact le_rfl
  · exact (habove last (mem_of_dealt (List.mem_of_getLast? hlast))).le

end Cursor
end Turn

/-! ### Turn after turn -/

section Turns
variable {fine : ℕ → α → Bool} {rest : ℕ → List α}

/-- **Each turn leaves what the next one finds.** -/
def Turns (size : ℕ) (fine : ℕ → α → Bool) (rest : ℕ → List α) : Prop :=
  ∀ i, rest (i + 1) = left size (fine i) (rest i)

theorem Turns.left (h : Turns size fine rest) (i : ℕ) : rest (i + 1) = left size (fine i) (rest i) := h i

variable (hrest : Turns size fine rest)
include hrest

theorem mem_first {x : α} {i : ℕ} (hx : x ∈ rest i) : x ∈ rest 0 := by
  induction i with
  | zero => exact hx
  | succ i ih =>
    rw [hrest.left] at hx
    exact ih (mem_of_left hx)

/-- What is no longer left was dealt with. -/
theorem exists_dealt {x : α} (hx : x ∈ rest 0) {n : ℕ} (hn : x ∉ rest n) :
    ∃ i < n, x ∈ dealt size (fine i) (rest i) := by
  induction n with
  | zero => exact absurd hx hn
  | succ n ih =>
    by_cases hxn : x ∈ rest n
    · rw [hrest.left] at hn
      rw [← @dealt_append_left α size (fine n) (rest n)] at hxn
      exact ⟨n, by omega, (List.mem_append.mp hxn).resolve_right hn⟩
    · obtain ⟨i, hi, hdealt⟩ := ih hxn
      exact ⟨i, by omega, hdealt⟩

/-- **Where nothing is in the way, the end is reached.** The measure is what is left. -/
theorem ends_of_fine (hsize : 0 < size) (hfine : ∀ i, ∀ x ∈ rest i, fine i x = true) :
    ∃ n, Ends size (fine n) (rest n) := by
  have hlength : ∀ k i, (rest i).length ≤ k → ∃ n, Ends size (fine n) (rest n) := by
    intro k
    induction k with
    | zero =>
      intro i hi
      have hnil : rest i = [] := List.eq_nil_of_length_eq_zero (by omega)
      exact ⟨i, by simp [Ends, hnil]⟩
    | succ k ih =>
      intro i hi
      rcases hcase : rest i with _ | ⟨x, xs⟩
      · exact ⟨i, by simp [Ends, hcase]⟩
      · have hlt : (Sweep.left size (fine i) (x :: xs)).length < (x :: xs).length :=
          length_left_lt hsize (hfine i x (by simp [hcase]))
        rw [← hcase, ← hrest.left] at hlt
        exact ih (i + 1) (by omega)
  exact hlength _ 0 le_rfl

/-- **What is always in the way stays**, and the end is never reached. -/
theorem stuck {x : α} (hx : x ∈ rest 0) (hfine : ∀ i, x ∈ rest i → fine i x = false) (n : ℕ) :
    x ∈ rest n ∧ ¬ Ends size (fine n) (rest n) := by
  have hstays : x ∈ rest n := by
    induction n with
    | zero => exact hx
    | succ n ih =>
      rw [← @dealt_append_left α size (fine n) (rest n)] at ih
      rw [hrest.left]
      refine (List.mem_append.mp ih).resolve_left fun hdealt => ?_
      have htrue := fine_of_mem_dealt hdealt
      rw [hfine n (mem_of_dealt hdealt)] at htrue
      simp at htrue
  refine ⟨hstays, fun hends => ?_⟩
  rw [← hends.dealt_eq] at hstays
  have htrue := fine_of_mem_dealt hstays
  rw [hfine n (mem_of_dealt hstays)] at htrue
  simp at htrue

end Turns

end Kmatrix.Lib.Sweep
