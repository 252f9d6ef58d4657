import Mathlib.Data.List.Nodup
import Mathlib.Data.Set.Insert
import Mathlib.Tactic.Common

/-! # Counters that are never reused

Counters with ids made from fresh draws are held in several places at once (in memory, on disk), each
copy at a position of its own, and a position of a counter is given out at most once if every copy that
is left is past it. `Ledger` is the invariant that keeps this: `drawn` draws have been made, `H` are the
copies, each with the owner it is held for, and `used` the positions given out, in order.

`Ledger.create`, `Ledger.advance` and `Ledger.use` are what a program may do; copies may be dropped at
any time (`Ledger.mono`), and drawing more is harmless (`Ledger.draw`). -/

namespace Kmatrix.Lib.Positions

/-- A copy of a counter: its owner, its id, its position. -/
abbrev Copy (κ ι : Type) := κ × ι × ℕ

/-- **The ledger.** Ids come from the draws made, copies of one id have one owner, and every copy is
past the positions used. -/
structure Ledger {κ ι : Type} (fresh : ℕ → ι) (drawn : ℕ) (H : Set (Copy κ ι)) (used : List (ι × ℕ)) :
    Prop where
  of_copy : ∀ h ∈ H, ∃ n < drawn, h.2.1 = fresh n
  of_used : ∀ p ∈ used, ∃ n < drawn, p.1 = fresh n
  past : ∀ h ∈ H, ∀ i, (h.2.1, i) ∈ used → i < h.2.2
  own : ∀ h ∈ H, ∀ h' ∈ H, h.2.1 = h'.2.1 → h.1 = h'.1
  nodup : used.Nodup

namespace Ledger
variable {κ ι : Type} {fresh : ℕ → ι} {drawn : ℕ} {H H' : Set (Copy κ ι)} {used : List (ι × ℕ)}

/-- Copies may be dropped. -/
theorem mono (h : Ledger fresh drawn H used) (hsub : ∀ c ∈ H', c ∈ H) : Ledger fresh drawn H' used where
  of_copy c hc := h.of_copy c (hsub c hc)
  of_used := h.of_used
  past c hc := h.past c (hsub c hc)
  own c hc c' hc' := h.own c (hsub c hc) c' (hsub c' hc')
  nodup := h.nodup

/-- Drawing more is harmless. -/
theorem draw (h : Ledger fresh drawn H used) (more : ℕ) : Ledger fresh (drawn + more) H used where
  of_copy c hc := by
    obtain ⟨n, hn, heq⟩ := h.of_copy c hc
    exact ⟨n, by omega, heq⟩
  of_used p hp := by
    obtain ⟨n, hn, heq⟩ := h.of_used p hp
    exact ⟨n, by omega, heq⟩
  past := h.past
  own := h.own
  nodup := h.nodup

/-- **A new counter** from the next draw. -/
theorem create (hfresh : Function.Injective fresh) (h : Ledger fresh drawn H used) (k : κ) :
    Ledger fresh (drawn + 1) (insert (k, fresh drawn, 0) H) used := by
  have hnew : ∀ n < drawn, fresh drawn ≠ fresh n := by
    intro n hn heq
    have hnn := hfresh heq
    omega
  have hH : ∀ c ∈ H, c.2.1 ≠ fresh drawn := by
    intro c hc heq
    obtain ⟨n, hn, hcn⟩ := h.of_copy c hc
    exact hnew n hn (heq.symm.trans hcn)
  have hd := h.draw 1
  refine ⟨?_, hd.of_used, ?_, ?_, h.nodup⟩
  · rintro c (rfl | hc)
    · exact ⟨drawn, by omega, rfl⟩
    · exact hd.of_copy c hc
  · rintro c (rfl | hc) i hi
    · obtain ⟨n, hn, heq⟩ := h.of_used _ hi
      exact absurd heq (hnew n hn)
    · exact h.past c hc i hi
  · rintro c (rfl | hc) c' (rfl | hc') heq
    · rfl
    · exact absurd heq.symm (hH c' hc')
    · exact absurd heq (hH c hc)
    · exact h.own c hc c' hc' heq

/-- **A copy moves on.** -/
theorem advance (h : Ledger fresh drawn H used) {k : κ} {id : ι} {i j : ℕ} (hc : (k, id, i) ∈ H)
    (hij : i ≤ j) : Ledger fresh drawn (insert (k, id, j) H) used := by
  refine ⟨?_, h.of_used, ?_, ?_, h.nodup⟩
  · rintro c (rfl | hc')
    · exact h.of_copy (k, id, i) hc
    · exact h.of_copy c hc'
  · rintro c (rfl | hc') n hn
    · have hlt := h.past (k, id, i) hc n hn
      exact Nat.lt_of_lt_of_le hlt hij
    · exact h.past c hc' n hn
  · rintro c (rfl | hc') c' (rfl | hc'') heq
    · rfl
    · exact h.own (k, id, i) hc c' hc'' heq
    · exact h.own c hc' (k, id, i) hc heq
    · exact h.own c hc' c' hc'' heq

/-- **A position is given out**: some copy was at it, and every copy left is past it. -/
theorem use (h : Ledger fresh drawn H used) {k : κ} {id : ι} {i : ℕ} (hc : (k, id, i) ∈ H)
    (hsub : ∀ c ∈ H', c ∈ H) (hpast : ∀ c ∈ H', c.2.1 = id → i < c.2.2) :
    Ledger fresh drawn H' (used ++ [(id, i)]) := by
  have hm := h.mono hsub
  have hnew : (id, i) ∉ used := by
    intro hmem
    have hlt := h.past _ hc i hmem
    exact Nat.lt_irrefl _ hlt
  refine ⟨hm.of_copy, ?_, ?_, hm.own, ?_⟩
  · intro p hp
    rcases List.mem_append.mp hp with hp | hp
    · exact h.of_used p hp
    · rw [List.mem_singleton.mp hp]
      exact h.of_copy _ hc
  · intro c hc' n hn
    rcases List.mem_append.mp hn with hn | hn
    · exact hm.past c hc' n hn
    · obtain ⟨hid, rfl⟩ := Prod.mk.inj (List.mem_singleton.mp hn)
      exact hpast c hc' hid
  · refine List.nodup_append.mpr ⟨h.nodup, List.nodup_singleton _, ?_⟩
    intro p hp q hq heq
    rw [List.mem_singleton.mp hq] at heq
    exact hnew (heq ▸ hp)

end Ledger

end Kmatrix.Lib.Positions
