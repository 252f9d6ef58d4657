import Mathlib.Data.List.Nodup
import Mathlib.Order.Lattice
import Mathlib.Tactic.Common

/-! # Newest-wins registers

A register holds at most one value with its timestamp. `accept` takes an offered value unless what it
holds is newer; among equals the later offer wins. A register that was offered values with distinct
timestamps holds the newest of them, in whatever order they came (`offers_eq_newest`). -/

namespace Kmatrix.Lib.Newest

variable {τ β : Type} [LinearOrder τ]

/-- A register: the value it holds and its timestamp. -/
abbrev Register (τ β : Type) := Option (τ × β)

/-- **One offer.** -/
def accept (reg : Register τ β) (offer : τ × β) : Register τ β :=
  match reg with
  | some held => if held.1 ≤ offer.1 then some offer else some held
  | none => some offer

def offers (reg : Register τ β) (os : List (τ × β)) : Register τ β := os.foldl accept reg

/-- `p` is one of `os`, and none of them is newer. -/
def IsNewest (os : List (τ × β)) (p : τ × β) : Prop := p ∈ os ∧ ∀ o ∈ os, o.1 ≤ p.1

theorem accept_isSome (reg : Register τ β) (o : τ × β) : (accept reg o).isSome = true := by
  unfold accept
  split
  · split_ifs <;> rfl
  · rfl

/-- What a register holds after an offer: the offer, or what it held if that is newer. -/
theorem accept_spec {reg : Register τ β} {o p : τ × β} (h : accept reg o = some p) :
    o.1 ≤ p.1 ∧ (∀ held, reg = some held → held.1 ≤ p.1) ∧ (p = o ∨ (reg = some p ∧ o.1 < p.1)) := by
  unfold accept at h
  split at h
  · next held =>
    by_cases hle : held.1 ≤ o.1
    · rw [if_pos hle] at h
      cases h
      refine ⟨le_refl _, ?_, Or.inl rfl⟩
      rintro held' ⟨⟩
      exact hle
    · rw [if_neg hle] at h
      cases h
      refine ⟨(lt_of_not_ge hle).le, ?_, Or.inr ⟨rfl, lt_of_not_ge hle⟩⟩
      rintro held' ⟨⟩
      exact le_refl _
  · cases h
    refine ⟨le_refl _, ?_, Or.inl rfl⟩
    rintro held ⟨⟩

/-- **What a register holds after its offers**: one of them, none older than what it held, or what it
held if that is newer than all of them. -/
theorem offers_spec : ∀ (os : List (τ × β)) (reg : Register τ β) (p : τ × β),
    offers reg os = some p →
    (∀ o ∈ os, o.1 ≤ p.1) ∧ (∀ held, reg = some held → held.1 ≤ p.1) ∧
      (p ∈ os ∨ (reg = some p ∧ ∀ o ∈ os, o.1 < p.1))
  | [], reg, p, h => by
    refine ⟨by simp, fun held hh => ?_, Or.inr ⟨h, by simp⟩⟩
    rw [show reg = some p from h] at hh
    cases hh
    exact le_refl _
  | o :: os, reg, p, h => by
    obtain ⟨hall, hheld, hmem⟩ := offers_spec os (accept reg o) p h
    obtain ⟨held, hreg⟩ := Option.isSome_iff_exists.mp (accept_isSome reg o)
    obtain ⟨h1, h2, h3⟩ := accept_spec hreg
    have hp : held.1 ≤ p.1 := hheld held hreg
    refine ⟨?_, fun held' h' => le_trans (h2 held' h') hp, ?_⟩
    · intro o' ho'
      rcases List.mem_cons.mp ho' with rfl | ho'
      · exact le_trans h1 hp
      · exact hall o' ho'
    · rcases hmem with hmem | ⟨hmem, hlt⟩
      · exact Or.inl (List.mem_cons_of_mem _ hmem)
      · rw [hreg] at hmem
        cases hmem
        rcases h3 with rfl | ⟨h3, h4⟩
        · exact Or.inl (by simp)
        · refine Or.inr ⟨h3, fun o' ho' => ?_⟩
          rcases List.mem_cons.mp ho' with rfl | ho'
          · exact h4
          · exact hlt o' ho'

theorem offers_isSome : ∀ (os : List (τ × β)) (reg : Register τ β), reg.isSome = true ∨ os ≠ [] →
    (offers reg os).isSome = true
  | [], _, h => by
    rcases h with h | h
    · exact h
    · exact absurd rfl h
  | o :: os, reg, _ => offers_isSome os (accept reg o) (Or.inl (accept_isSome reg o))

/-- **The newest offer wins**, in whatever order the offers came. -/
theorem offers_eq_newest {os : List (τ × β)} (hd : (os.map Prod.fst).Nodup) {p : τ × β}
    (hp : IsNewest os p) : offers none os = some p := by
  have hne : os ≠ [] := List.ne_nil_of_mem hp.1
  obtain ⟨q, hq⟩ := Option.isSome_iff_exists.mp (offers_isSome os none (Or.inr hne))
  obtain ⟨hall, -, hmem⟩ := offers_spec os none q hq
  have hqmem : q ∈ os := by
    rcases hmem with h | h
    · exact h
    · cases h.1
  have hts : q.1 = p.1 := le_antisymm (hp.2 q hqmem) (hall p hp.1)
  rw [hq, List.inj_on_of_nodup_map hd hqmem hp.1 hts]

/-- No two offers with one timestamp differ. -/
def Distinct (os : List (τ × β)) : Prop := ∀ o ∈ os, ∀ o' ∈ os, o.1 = o'.1 → o = o'

/-- **Only the set of offers counts**: neither their order nor how often each was made. -/
theorem offers_congr {os os' : List (τ × β)} (hd : Distinct os) (h : ∀ o, o ∈ os ↔ o ∈ os')
    (reg : Register τ β) : offers reg os = offers reg os' := by
  by_cases hne : os = []
  · have hne' : os' = [] := List.eq_nil_iff_forall_not_mem.mpr fun o ho => by
      rw [← h, hne] at ho
      cases ho
    rw [hne, hne']
  · have hne' : os' ≠ [] := by
      rintro rfl
      exact hne (List.eq_nil_iff_forall_not_mem.mpr fun o ho => by rw [h] at ho; cases ho)
    obtain ⟨p, hp⟩ := Option.isSome_iff_exists.mp (offers_isSome os reg (Or.inr hne))
    obtain ⟨q, hq⟩ := Option.isSome_iff_exists.mp (offers_isSome os' reg (Or.inr hne'))
    obtain ⟨p1, p2, p3⟩ := offers_spec os reg p hp
    obtain ⟨q1, q2, q3⟩ := offers_spec os' reg q hq
    have hpq : p = q := by
      rcases p3 with hpm | ⟨hpr, hplt⟩ <;> rcases q3 with hqm | ⟨hqr, hqlt⟩
      · exact hd p hpm q ((h q).mpr hqm) (le_antisymm (q1 p ((h p).mp hpm)) (p1 q ((h q).mpr hqm)))
      · exact absurd (p2 q hqr) (not_le_of_gt (hqlt p ((h p).mp hpm)))
      · exact absurd (q2 p hpr) (not_le_of_gt (hplt q ((h q).mpr hqm)))
      · rw [hpr] at hqr
        exact Option.some.inj hqr
    rw [hp, hq, hpq]

end Kmatrix.Lib.Newest
