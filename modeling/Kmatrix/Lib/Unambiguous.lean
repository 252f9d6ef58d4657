import Mathlib.Data.List.Basic
import Mathlib.Tactic.Common

/-! # Texts that can be taken apart again

A text that is followed by more text is read back in one way only if it can be told where it ends. It ends
itself (`PrefixFree`), or at the first letter that cannot belong to it (`run_inj`), or at a closing letter
(`flatMap_inj`), and a list of such texts ends at its closing letter if the separator is another one
(`separated_inj`). `Cuts` is what these have in common. -/

namespace Kmatrix.Lib.Unambiguous

variable {α β : Type}

/-- **The text of `a` is cut off** the front of what is written, if what follows is in `P`, and the other text
one of a `good` thing. -/
def Cuts (P : List β → Prop) (good : α → Prop) (text : α → List β) (a : α) : Prop :=
  ∀ b r r', good b → P r → P r' → text a ++ r = text b ++ r' → a = b ∧ r = r'

/-- No text starts another. -/
def PrefixFree (text : α → List β) : Prop := ∀ a b, text a <+: text b → a = b

theorem PrefixFree.cuts {text : α → List β} (h : PrefixFree text) {a b : α} {r r' : List β}
    (heq : text a ++ r = text b ++ r') : a = b ∧ r = r' := by
  have hab : a = b := by
    rcases List.prefix_or_prefix_of_prefix (List.prefix_append (text a) r)
      (heq ▸ List.prefix_append (text b) r') with hpre | hpre
    · exact h a b hpre
    · exact (h b a hpre).symm
  subst hab
  exact ⟨rfl, List.append_cancel_left heq⟩

/-- Two runs of letters, each up to one that cannot belong to it. -/
theorem run_inj {p : β → Prop} {l l' r r' : List β} (hl : ∀ c ∈ l, p c) (hl' : ∀ c ∈ l', p c)
    (hr : ∀ c ∈ r.head?, ¬ p c) (hr' : ∀ c ∈ r'.head?, ¬ p c) (h : l ++ r = l' ++ r') : l = l' ∧ r = r' := by
  induction l generalizing l' with
  | nil =>
    rcases l' with _ | ⟨c, l'⟩
    · exact ⟨rfl, h⟩
    · have hc : c ∈ r.head? := by rw [List.nil_append] at h; rw [h]; rfl
      exact absurd (hl' c List.mem_cons_self) (hr c hc)
  | cons c l ih =>
    rcases l' with _ | ⟨c', l'⟩
    · have hc : c ∈ r'.head? := by rw [List.nil_append] at h; rw [← h]; rfl
      exact absurd (hl c List.mem_cons_self) (hr' c hc)
    · obtain ⟨rfl, hrest⟩ := List.cons.inj h
      obtain ⟨rfl, hr⟩ := ih (fun d hd => hl d (List.mem_cons_of_mem _ hd))
        (fun d hd => hl' d (List.mem_cons_of_mem _ hd)) hrest
      exact ⟨rfl, hr⟩

/-- Texts one after the other, up to a letter that starts none of them. -/
theorem flatMap_inj {text : α → List β} (htext : PrefixFree text) {close : β}
    (hclose : ∀ a, ∃ c cs, text a = c :: cs ∧ c ≠ close) {l l' : List α} {r r' : List β}
    (h : l.flatMap text ++ close :: r = l'.flatMap text ++ close :: r') : l = l' ∧ r = r' := by
  induction l generalizing l' with
  | nil =>
    rcases l' with _ | ⟨b, l'⟩
    · exact ⟨rfl, (List.cons.inj h).2⟩
    · obtain ⟨c, cs, hb, hc⟩ := hclose b
      rw [List.flatMap_cons, hb] at h
      exact absurd (List.cons.inj h).1.symm hc
  | cons a l ih =>
    rcases l' with _ | ⟨b, l'⟩
    · obtain ⟨c, cs, ha, hc⟩ := hclose a
      rw [List.flatMap_cons, ha] at h
      exact absurd (List.cons.inj h).1 hc
    · rw [List.flatMap_cons, List.flatMap_cons, List.append_assoc, List.append_assoc] at h
      obtain ⟨rfl, hrest⟩ := htext.cuts h
      obtain ⟨rfl, hr⟩ := ih hrest
      exact ⟨rfl, hr⟩

/-- Decimal digits tell the number. -/
theorem digits_inj {m n : ℕ} (h : Nat.toDigits 10 m = Nat.toDigits 10 n) : m = n := by
  rw [← @Nat.ofDigitChars_ten_toDigits m, h, Nat.ofDigitChars_ten_toDigits]

section Separated
variable {P : List β → Prop} {good : α → Prop} {text : α → List β} {sep close : β}

/-- What follows an entry of a list: the separator and the other entries, or the end. -/
def following (text : α → List β) (sep close : β) (r : List β) : List α → List β
  | [] => close :: r
  | a :: l => sep :: ([sep].intercalate ((a :: l).map text) ++ close :: r)

theorem intercalate_cons (a : α) (l : List α) (r : List β) :
    [sep].intercalate ((a :: l).map text) ++ close :: r = text a ++ following text sep close r l := by
  rcases l with _ | ⟨b, l⟩
  · simp [following]
  · simp [following, List.intercalate]

/-- **Lists**, with a separator between the entries and a letter at the end. -/
theorem separated_inj (hne : sep ≠ close) (hsep : ∀ r, P (sep :: r)) (hclose : ∀ r, P (close :: r))
    (hhead : ∀ a, good a → ∃ c cs, text a = c :: cs ∧ c ≠ close) {l l' : List α} {r r' : List β}
    (hl : ∀ a ∈ l, good a ∧ Cuts P good text a) (hl' : ∀ b ∈ l', good b)
    (h : [sep].intercalate (l.map text) ++ close :: r = [sep].intercalate (l'.map text) ++ close :: r') :
    l = l' ∧ r = r' := by
  have hfollowing : ∀ (r : List β) (l : List α), P (following text sep close r l) := by
    rintro r (_ | ⟨a, l⟩)
    · exact hclose r
    · exact hsep _
  induction l generalizing l' with
  | nil =>
    rcases l' with _ | ⟨b, l'⟩
    · exact ⟨rfl, (List.cons.inj h).2⟩
    · obtain ⟨c, cs, hb, hc⟩ := hhead b (hl' b List.mem_cons_self)
      rw [intercalate_cons, hb] at h
      exact absurd (List.cons.inj h).1.symm hc
  | cons a l ih =>
    obtain ⟨⟨hgood, hcuts⟩, hrest⟩ := List.forall_mem_cons.mp hl
    rcases l' with _ | ⟨b, l'⟩
    · obtain ⟨c, cs, ha, hc⟩ := hhead a hgood
      rw [intercalate_cons, ha] at h
      exact absurd (List.cons.inj h).1 hc
    · obtain ⟨hb, hrest'⟩ := List.forall_mem_cons.mp hl'
      rw [intercalate_cons, intercalate_cons] at h
      obtain ⟨rfl, hmore⟩ := hcuts b _ _ hb (hfollowing r l) (hfollowing r' l') h
      rcases l with _ | ⟨a', l⟩
      · rcases l' with _ | ⟨b', l'⟩
        · exact ⟨rfl, (List.cons.inj hmore).2⟩
        · exact absurd (List.cons.inj hmore).1.symm hne
      · rcases l' with _ | ⟨b', l'⟩
        · exact absurd (List.cons.inj hmore).1 hne
        · obtain ⟨heq, hr⟩ := ih hrest hrest' (List.cons.inj hmore).2
          exact ⟨by rw [heq], hr⟩

end Separated

end Kmatrix.Lib.Unambiguous
