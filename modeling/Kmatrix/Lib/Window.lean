import Mathlib.Data.List.Sort
import Mathlib.Data.List.TakeDrop
import Mathlib.Data.Nat.Find
import Mathlib.Tactic.Common

/-! # A window on a list

In each round the first `n` elements of a list are looked at, and those that do not stay are dropped. What
stays may fill the window: `settles_iff` says that all the others are dropped in the end exactly when fewer
than `n` that stay stand before each of them.

The list may be sorted: `filter_insertionSort` says that dropping elements and sorting commute. -/

namespace Kmatrix.Lib.Window

variable {α : Type} {n : ℕ} {stays : α → Bool} {xs : List α}

/-- **One round.** -/
def round (n : ℕ) (stays : α → Bool) (xs : List α) : List α := (xs.take n).filter stays ++ xs.drop n

/-- Fewer than `n` that stay stand before each of the others. -/
def Reachable (n : ℕ) (stays : α → Bool) (xs : List α) : Prop :=
  ∀ before x after, xs = before ++ x :: after → stays x = false → (before.filter stays).length < n

theorem round_sublist : (round n stays xs).Sublist xs := by
  conv_rhs => rw [← List.take_append_drop n xs]
  exact List.filter_sublist.append_right _

/-- What is dropped was in the window, and does not stay. -/
theorem dropped {x : α} (hx : x ∈ xs) (h : x ∉ round n stays xs) : x ∈ xs.take n ∧ stays x = false := by
  rw [← List.take_append_drop n xs] at hx
  unfold round at h
  rw [List.mem_append, not_or, List.mem_filter, not_and] at h
  rcases List.mem_append.mp hx with hx | hx
  · exact ⟨hx, by simpa using h.1 hx⟩
  · exact absurd hx h.2

/-- What was looked at and does not stay is gone. -/
theorem not_mem_round (hnodup : xs.Nodup) {x : α} (hx : x ∈ xs.take n) (hstays : stays x = false) :
    x ∉ round n stays xs := by
  unfold round
  rw [← List.take_append_drop n xs, List.nodup_append] at hnodup
  rw [List.mem_append, List.mem_filter]
  rintro (⟨-, h⟩ | h)
  · rw [hstays] at h
    cases h
  · exact hnodup.2.2 x hx x h rfl

/-- What is not filtered out stays in the window. -/
theorem mem_take_filter {p : α → Bool} {x : α} (hx : x ∈ xs.take n) (hp : p x = true) :
    x ∈ (xs.filter p).take n := by
  have hlen : ((xs.take n).filter p).length ≤ n :=
    (List.length_filter_le _ _).trans (List.length_take_le _ _)
  have hsplit : xs.filter p = (xs.take n).filter p ++ (xs.drop n).filter p := by
    rw [← List.filter_append, List.take_append_drop]
  rw [hsplit, List.take_append, List.take_of_length_le hlen]
  exact List.mem_append_left _ (List.mem_filter.mpr ⟨hx, hp⟩)

/-- Where one that does not stay is left, it was outside the window. -/
theorem round_eq_split {before after : List α} {x : α} (hround : round n stays xs = before ++ x :: after)
    (hx : stays x = false) : ∃ more, before = (xs.take n).filter stays ++ more ∧
      xs = (xs.take n ++ more) ++ x :: after := by
  unfold round at hround
  have hdrop : ∀ more, xs.drop n = more ++ x :: after → xs = (xs.take n ++ more) ++ x :: after := by
    intro more h
    rw [List.append_assoc, ← h, List.take_append_drop]
  rcases List.append_eq_append_iff.mp hround with ⟨more, hbefore, h⟩ | ⟨more, hwindow, h⟩
  · exact ⟨more, hbefore, hdrop more h⟩
  · rcases more with _ | ⟨y, more⟩
    · rw [List.append_nil] at hwindow
      exact ⟨[], by rw [List.append_nil, hwindow], hdrop [] h.symm⟩
    · -- in the window all stay
      obtain ⟨rfl, -⟩ := List.cons.inj h
      have hmem : x ∈ (xs.take n).filter stays := by
        rw [hwindow]
        simp
      rw [(List.mem_filter.mp hmem).2] at hx
      cases hx

theorem Reachable.round (h : Reachable n stays xs) : Reachable n stays (round n stays xs) := by
  intro before x after hround hx
  obtain ⟨more, rfl, hxs⟩ := round_eq_split hround hx
  have hlt := h _ x after hxs hx
  rw [List.filter_append] at hlt ⊢
  rw [List.filter_filter]
  simpa using hlt

/-- The first that does not stay. -/
theorem first_split (hx : ∃ x ∈ xs, stays x = false) : ∃ before x after, xs = before ++ x :: after ∧
    stays x = false ∧ ∀ y ∈ before, stays y = true := by
  induction xs with
  | nil => simp at hx
  | cons y ys ih =>
    rcases hy : stays y with _ | _
    · exact ⟨[], y, ys, rfl, hy, by simp⟩
    · have hrest : ∃ x ∈ ys, stays x = false := by
        obtain ⟨x, hmem, hstays⟩ := hx
        rcases List.mem_cons.mp hmem with rfl | hmem
        · rw [hy] at hstays
          cases hstays
        · exact ⟨x, hmem, hstays⟩
      obtain ⟨before, x, after, rfl, hstays, hall⟩ := ih hrest
      refine ⟨y :: before, x, after, rfl, hstays, fun z hz => ?_⟩
      rcases List.mem_cons.mp hz with rfl | hz
      · exact hy
      · exact hall z hz

/-- **A round drops one**, if there is one to drop. -/
theorem Reachable.drops (h : Reachable n stays xs) (hx : ∃ x ∈ xs, stays x = false) :
    ((Window.round n stays xs).filter fun x => !stays x).length < (xs.filter fun x => !stays x).length := by
  -- the first of them has only such before it as stay, so it is in the window
  have hfirst : ∃ x ∈ xs.take n, stays x = false := by
    obtain ⟨before, x, after, hxs, hstays, hall⟩ := first_split hx
    have hlt := h before x after hxs hstays
    rw [List.filter_eq_self.mpr hall] at hlt
    refine ⟨x, ?_, hstays⟩
    rw [hxs, List.take_append, List.mem_append]
    obtain ⟨m, hm⟩ := Nat.exists_eq_add_of_lt hlt
    rw [show n - before.length = m + 1 by omega, List.take_succ_cons]
    exact Or.inr List.mem_cons_self
  obtain ⟨x, hmem, hstays⟩ := hfirst
  unfold Window.round
  conv_rhs => rw [← List.take_append_drop n xs]
  rw [List.filter_append, List.filter_append, List.length_append, List.length_append, List.filter_filter]
  have hnone : ((xs.take n).filter fun a => !stays a && stays a) = [] := by
    rw [List.filter_eq_nil_iff]
    simp
  have hsome : 0 < ((xs.take n).filter fun x => !stays x).length :=
    List.length_pos_of_mem (List.mem_filter.mpr ⟨hmem, by simp [hstays]⟩)
  rw [hnone, List.length_nil]
  omega

/-- **One that stands behind `n` that stay is never dropped.** -/
theorem blocked {before after : List α} {x : α} (hblocked : n ≤ (before.filter stays).length) :
    ∃ before', round n stays (before ++ x :: after) = before' ++ x :: after ∧
      n ≤ (before'.filter stays).length := by
  have hlen : n ≤ before.length := hblocked.trans (List.length_filter_le _ _)
  refine ⟨(before.take n).filter stays ++ before.drop n, ?_, ?_⟩
  · unfold round
    rw [List.take_append_of_le_length hlen, List.drop_append_of_le_length hlen, List.append_assoc]
  · rw [List.filter_append, List.filter_filter]
    simp only [Bool.and_self]
    rw [← List.filter_append, List.take_append_drop]
    exact hblocked

/-! ### All rounds -/

theorem rounds_sublist {j k : ℕ} (h : j ≤ k) :
    ((round n stays)^[k] xs).Sublist ((round n stays)^[j] xs) := by
  induction k, h using Nat.le_induction with
  | base => exact List.Sublist.refl _
  | succ k _ ih =>
    rw [Function.iterate_succ_apply']
    exact round_sublist.trans ih

/-- What is gone was looked at. -/
theorem looked_at {x : α} (hx : x ∈ xs) {k : ℕ} (h : x ∉ (round n stays)^[k] xs) :
    ∃ j, x ∈ ((round n stays)^[j] xs).take n := by
  induction k with
  | zero => exact absurd hx h
  | succ k ih =>
    by_cases hk : x ∈ (round n stays)^[k] xs
    · rw [Function.iterate_succ_apply'] at h
      exact ⟨k, (dropped hk h).1⟩
    · exact ih hk

/-- **The list is settled in the end.** -/
theorem settles_iff :
    (∃ k, ∀ x ∈ (round n stays)^[k] xs, stays x = true) ↔ Reachable n stays xs := by
  constructor
  · rintro ⟨k, hk⟩ before x after hxs hx
    by_contra hblocked
    rw [not_lt] at hblocked
    have hkept : ∀ j, ∃ before', (round n stays)^[j] xs = before' ++ x :: after ∧
        n ≤ (before'.filter stays).length := by
      intro j
      induction j with
      | zero => exact ⟨before, hxs, hblocked⟩
      | succ j ih =>
        obtain ⟨before', hj, hlen⟩ := ih
        rw [Function.iterate_succ_apply', hj]
        exact blocked hlen
    obtain ⟨before', hj, -⟩ := hkept k
    have hstays := hk x (by rw [hj]; simp)
    rw [hx] at hstays
    cases hstays
  · intro h
    -- by induction on how many there are to drop
    induction hcount : (xs.filter fun x => !stays x).length using Nat.strong_induction_on generalizing xs with
    | _ count ih =>
      by_cases hx : ∃ x ∈ xs, stays x = false
      · obtain ⟨k, hk⟩ := ih _ (hcount ▸ h.drops hx) h.round rfl
        exact ⟨k + 1, by rwa [Function.iterate_succ_apply]⟩
      · refine ⟨0, fun x hmem => ?_⟩
        by_contra hno
        exact hx ⟨x, hmem, by simpa using hno⟩

/-- Once settled it does not change. -/
theorem settled {j k : ℕ} (h : j ≤ k) (hj : ∀ x ∈ (round n stays)^[j] xs, stays x = true) :
    ∀ x ∈ (round n stays)^[k] xs, stays x = true := fun x hx => hj x ((rounds_sublist h).subset hx)

/-! ### Sorted lists -/

section Sorted
variable (r : α → α → Prop) [DecidableRel r] [IsTrans α r] (p : α → Bool)

theorem filter_orderedInsert (a : α) {l : List α} (hl : l.Pairwise r) :
    (l.orderedInsert r a).filter p =
      if p a then (l.filter p).orderedInsert r a else l.filter p := by
  induction l with
  | nil => simp [List.filter_cons]
  | cons b l ih =>
    obtain ⟨hb, hl⟩ := List.pairwise_cons.mp hl
    rw [List.orderedInsert_cons]
    by_cases hab : r a b
    · -- all that is left comes after it
      have hafter : ∀ c ∈ (b :: l).filter p, r a c := by
        intro c hc
        rcases List.mem_cons.mp (List.mem_of_mem_filter hc) with rfl | hc
        · exact hab
        · exact IsTrans.trans a b c hab (hb c hc)
      rw [if_pos hab, List.filter_cons]
      split_ifs
      · rcases hrest : (b :: l).filter p with _ | ⟨c, cs⟩
        · rfl
        · rw [List.orderedInsert_cons, if_pos (hafter c (by rw [hrest]; exact List.mem_cons_self))]
      · rfl
    · rw [if_neg hab, List.filter_cons, ih hl, List.filter_cons]
      split_ifs
      · rw [List.orderedInsert_cons, if_neg hab]
      · rfl
      · rfl
      · rfl

theorem filter_insertionSort [Std.Total r] (l : List α) :
    (l.insertionSort r).filter p = (l.filter p).insertionSort r := by
  induction l with
  | nil => rfl
  | cons a l ih =>
    rw [List.insertionSort_cons, filter_orderedInsert r p a (List.pairwise_insertionSort r l), ih,
      List.filter_cons]
    split_ifs
    · rfl
    · rfl

end Sorted

end Kmatrix.Lib.Window
