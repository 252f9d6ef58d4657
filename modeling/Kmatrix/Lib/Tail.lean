import Mathlib.Data.List.DropRight
import Mathlib.Data.List.Sort
import Mathlib.Tactic.Common

/-! # The tail of a list in order

`tail r n l` is the last `n` elements of `l` once it is sorted by `r`. It does not depend on the order of
`l` (`tail_perm`), commutes with a map that keeps the order (`map_tail`), and is what sorting by the
reverse of `r`, cutting after `n` and turning round gives (`reverse_take_eq_tail`). No two elements of `l`
need to be apart in `r`: it is enough that those that come before each other are equal. -/

namespace Kmatrix.Lib.Tail

variable {α β : Type} (r : α → α → Prop) [DecidableRel r] (n : ℕ)

/-- **The tail.** -/
def tail (l : List α) : List α := (l.insertionSort r).rtake n

/-- Elements of the list that come before each other are equal. -/
def AntisymmOn (l : List α) : Prop := ∀ a ∈ l, ∀ b ∈ l, r a b → r b a → a = b

variable {r n} {l l' : List α}

theorem length_tail : (tail r n l).length = min n l.length := by
  unfold tail List.rtake
  rw [List.length_drop, List.length_insertionSort]
  omega

theorem tail_sublist : (tail r n l).Sublist (l.insertionSort r) := List.drop_sublist _ _

theorem of_mem_tail {a : α} (h : a ∈ tail r n l) : a ∈ l :=
  (List.mem_insertionSort r).mp (tail_sublist.subset h)

theorem tail_zero : tail r 0 l = [] := List.rtake_zero _

section Order
variable [Std.Total r] [IsTrans α r]

theorem pairwise_tail : (tail r n l).Pairwise r :=
  (List.pairwise_insertionSort r l).sublist tail_sublist

/-- What is not in the tail comes before all of it. -/
theorem before_tail {a b : α} (ha : a ∈ tail r n l) (hb : b ∈ l) (hb' : b ∉ tail r n l) : r b a := by
  have hsort := List.pairwise_insertionSort r l
  have hmem : b ∈ l.insertionSort r := (List.mem_insertionSort r).mpr hb
  rw [← List.take_append_drop ((l.insertionSort r).length - n) (l.insertionSort r)] at hsort hmem
  rcases List.mem_append.mp hmem with h | h
  · exact (List.pairwise_append.mp hsort).2.2 b h a ha
  · exact absurd h hb'

/-- An element of a list that has a tail comes before one of the tail. -/
theorem exists_tail_after (hn : n ≠ 0) {b : α} (hb : b ∈ l) : ∃ a ∈ tail r n l, r b a := by
  by_cases h : b ∈ tail r n l
  · exact ⟨b, h, (or_self_iff).mp (Std.Total.total (r := r) b b)⟩
  · have hpos : 0 < (tail r n l).length := by
      rw [length_tail]
      have := List.length_pos_of_mem hb
      omega
    obtain ⟨a, ha⟩ := List.exists_mem_of_length_pos hpos
    exact ⟨a, ha, before_tail ha hb h⟩

/-- Two sorted lists of the same elements. -/
theorem eq_insertionSort (h : AntisymmOn r l) {s : List α} (hs : s.Pairwise r) (hperm : s.Perm l) :
    s = l.insertionSort r := by
  refine List.Perm.eq_of_pairwise (fun a b ha hb => h a (hperm.mem_iff.mp ha) b ?_) hs
    (List.pairwise_insertionSort r l) (hperm.trans (List.perm_insertionSort r l).symm)
  exact (List.mem_insertionSort r).mp hb

/-- **The order of the list does not matter.** -/
theorem tail_perm (h : AntisymmOn r l) (hperm : l'.Perm l) : tail r n l' = tail r n l :=
  congrArg (fun s => s.rtake n) (eq_insertionSort h (List.pairwise_insertionSort r l')
    ((List.perm_insertionSort r l').trans hperm))

/-- **Sorted the other way, cut, and turned round.** -/
theorem reverse_take_eq_tail {q : α → α → Prop} [DecidableRel q] [Std.Total q] [IsTrans α q]
    (hq : ∀ a b, q a b ↔ r b a) (h : AntisymmOn r l) :
    ((l.insertionSort q).take n).reverse = tail r n l := by
  have hsorted : (l.insertionSort q).reverse.Pairwise r := by
    rw [List.pairwise_reverse]
    exact (List.pairwise_insertionSort q l).imp fun hab => (hq _ _).mp hab
  have hperm : (l.insertionSort q).reverse.Perm l :=
    (List.reverse_perm _).trans (List.perm_insertionSort q l)
  unfold tail
  rw [← eq_insertionSort h hsorted hperm, List.rtake_eq_reverse_take_reverse, List.reverse_reverse]

end Order

/-- **A map that keeps the order.** -/
theorem map_tail {q : β → β → Prop} [DecidableRel q] (f : α → β)
    (h : ∀ a ∈ l, ∀ b ∈ l, r a b ↔ q (f a) (f b)) : (tail r n l).map f = tail q n (l.map f) := by
  unfold tail List.rtake
  rw [List.map_drop, List.map_insertionSort (r := r) (s := q) f l h, List.length_insertionSort,
    List.length_insertionSort, List.length_map]

end Kmatrix.Lib.Tail
