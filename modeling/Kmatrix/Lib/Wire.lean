import Mathlib.Data.List.Infix
import Mathlib.Data.List.Nodup
import Mathlib.Tactic.Common

/-! # Messages on a wire

Several writers put the pieces of their messages onto one wire. Every item on the wire carries the
number of the message it belongs to; `text n` is what message `n` says in full. A wire is `Framed` if
it is whole messages one after the other, each once, and then a beginning of at most one more.

**A piece keeps the frame** (`Framed.push`) unless it is the first of its message and another message
has been left half written. **A half written message is the end of a framed wire** (`Framed.last`). -/

namespace Kmatrix.Lib.Wire

variable {β : Type}

/-- Items of message `n`. -/
def tag (n : ℕ) (bs : List β) : List (ℕ × β) := bs.map (n, ·)

/-- **What the wire has of message `n`.** -/
def wrote (w : List (ℕ × β)) (n : ℕ) : List β := (w.filter fun i => i.1 = n).map Prod.snd

variable (text : ℕ → List β)

/-- Messages in full. -/
def whole (ns : List ℕ) : List (ℕ × β) := ns.flatMap fun n => tag n (text n)

/-- **Whole messages, then a beginning of at most one more.** -/
def Framed (w : List (ℕ × β)) : Prop :=
  ∃ ns : List ℕ, ns.Nodup ∧ ∃ tail, w = whole text ns ++ tail ∧
    (tail = [] ∨ ∃ m part, m ∉ ns ∧ part <+: text m ∧ tail = tag m part)

/-- Begun and not complete. -/
def Half (w : List (ℕ × β)) (n : ℕ) : Prop := wrote w n ≠ [] ∧ wrote w n ≠ text n

/-! ### What is written -/

section Wrote
variable {text} {w w' : List (ℕ × β)} {n m : ℕ} {bs : List β} {ns : List ℕ}

@[simp] theorem wrote_nil : wrote ([] : List (ℕ × β)) n = [] := rfl

@[simp] theorem wrote_append : wrote (w ++ w') n = wrote w n ++ wrote w' n := by
  simp [wrote]

theorem wrote_tag : wrote (tag m bs) n = if n = m then bs else [] := by
  unfold wrote tag
  rw [List.filter_map]
  by_cases h : n = m
  · have hall : (fun b : β => decide (m = n)) = fun _ => true := by
      funext
      simp [h]
    rw [if_pos h]
    simp [Function.comp_def, hall]
  · rw [if_neg h]
    simp [Function.comp_def, Ne.symm h]

@[simp] theorem wrote_tag_self : wrote (tag n bs) n = bs := by
  rw [wrote_tag, if_pos rfl]

theorem wrote_tag_ne (h : n ≠ m) : wrote (tag m bs) n = [] := by
  rw [wrote_tag, if_neg h]

theorem wrote_whole_of_notMem (h : n ∉ ns) : wrote (whole text ns) n = [] := by
  induction ns with
  | nil => rfl
  | cons k ns ih =>
    rw [List.mem_cons, not_or] at h
    show wrote (tag k (text k) ++ whole text ns) n = []
    rw [wrote_append, wrote_tag_ne h.1, ih h.2]
    rfl

theorem wrote_whole_of_mem (hn : ns.Nodup) (h : n ∈ ns) : wrote (whole text ns) n = text n := by
  induction ns with
  | nil => cases h
  | cons k ns ih =>
    obtain ⟨hk, hns⟩ := List.nodup_cons.mp hn
    show wrote (tag k (text k) ++ whole text ns) n = text n
    rw [wrote_append]
    by_cases hnk : n = k
    · rw [hnk, wrote_tag_self, wrote_whole_of_notMem hk, List.append_nil]
    · rw [wrote_tag_ne hnk, ih hns ((List.mem_cons.mp h).resolve_left hnk), List.nil_append]

theorem tag_append (bs bs' : List β) : tag n (bs ++ bs') = tag n bs ++ tag n bs' := List.map_append

theorem whole_concat : whole text (ns ++ [n]) = whole text ns ++ tag n (text n) := by
  simp [whole]

end Wrote

/-! ### Frames -/

section Frames
variable {text} {w : List (ℕ × β)} {n : ℕ}

theorem framed_nil : Framed text [] := ⟨[], List.nodup_nil, [], rfl, Or.inl rfl⟩

/-- **A half written message is the tail.** -/
theorem Framed.tail_of_half (h : Framed text w) (hn : Half text w n) :
    ∃ ns : List ℕ, ns.Nodup ∧ n ∉ ns ∧ w = whole text ns ++ tag n (wrote w n) := by
  obtain ⟨ns, hnodup, tail, rfl, htail⟩ := h
  obtain ⟨hbegun, hmore⟩ := hn
  rw [wrote_append] at hbegun hmore
  rcases htail with rfl | ⟨m, part, hm, -, rfl⟩
  · -- without a tail every message is complete
    rw [wrote_nil, List.append_nil] at hbegun hmore
    by_cases hmem : n ∈ ns
    · exact absurd (wrote_whole_of_mem hnodup hmem) hmore
    · exact absurd (wrote_whole_of_notMem hmem) hbegun
  · by_cases hnm : n = m
    · subst hnm
      refine ⟨ns, hnodup, hm, ?_⟩
      rw [wrote_append, wrote_whole_of_notMem hm, wrote_tag_self, List.nil_append]
    · rw [wrote_tag_ne hnm, List.append_nil] at hbegun hmore
      by_cases hmem : n ∈ ns
      · exact absurd (wrote_whole_of_mem hnodup hmem) hmore
      · exact absurd (wrote_whole_of_notMem hmem) hbegun

/-- **Nothing follows a half written message.** -/
theorem Framed.last (h : Framed text w) (hn : Half text w n) {before : List (ℕ × β)} {i : ℕ × β}
    (hw : w = before ++ [i]) : i.1 = n := by
  obtain ⟨ns, -, -, heq⟩ := h.tail_of_half hn
  obtain ⟨bs, b, hb⟩ := List.eq_nil_or_concat (wrote w n) |>.resolve_left hn.1
  rw [hb, List.concat_eq_append, tag_append, ← List.append_assoc, hw] at heq
  have hlast := List.append_inj_right' heq rfl
  rw [List.cons.inj hlast |>.1]

/-- **A piece keeps the frame**: it continues its message, or begins it where no other message has been
left half written. -/
theorem Framed.push (h : Framed text w) {chunk : List β} (hchunk : chunk ≠ [])
    (hpre : wrote w n ++ chunk <+: text n)
    (hbegin : wrote w n = [] → ∀ m, ¬ Half text w m) : Framed text (w ++ tag n chunk) := by
  by_cases hnone : wrote w n = []
  · rw [hnone, List.nil_append] at hpre
    have hwhole : ∃ ns : List ℕ, ns.Nodup ∧ n ∉ ns ∧ w = whole text ns := by
      obtain ⟨ns, hnodup, tail, rfl, htail⟩ := h
      rw [wrote_append, List.append_eq_nil_iff] at hnone
      have hn : n ∉ ns := by
        intro hmem
        rw [wrote_whole_of_mem hnodup hmem] at hnone
        rw [hnone.1] at hpre
        exact hchunk (List.prefix_nil.mp hpre)
      rcases htail with rfl | ⟨m, part, hm, -, rfl⟩
      · exact ⟨ns, hnodup, hn, List.append_nil _⟩
      · have hpart : wrote (whole text ns ++ tag m part) m = part := by
          rw [wrote_append, wrote_whole_of_notMem hm, wrote_tag_self, List.nil_append]
        by_cases hempty : part = []
        · exact ⟨ns, hnodup, hn, by rw [hempty]; exact List.append_nil _⟩
        · -- the last message has been begun, so it is complete
          have hfull : part = text m := by
            by_contra hne
            exact hbegin (by rw [wrote_append, hnone.1, hnone.2]; rfl) m
              ⟨by rw [hpart]; exact hempty, by rw [hpart]; exact hne⟩
          have hnm : n ≠ m := by
            rintro rfl
            rw [wrote_tag_self] at hnone
            exact hempty hnone.2
          refine ⟨ns ++ [m], ?_, ?_, by rw [whole_concat, hfull]⟩
          · exact List.nodup_append.mpr ⟨hnodup, List.nodup_singleton m, fun a ha b hb => by
              rw [List.mem_singleton.mp hb]
              rintro rfl
              exact hm ha⟩
          · simp [hn, hnm]
    obtain ⟨ns, hnodup, hn, rfl⟩ := hwhole
    exact ⟨ns, hnodup, tag n chunk, rfl, Or.inr ⟨n, chunk, hn, hpre, rfl⟩⟩
  · have hhalf : Half text w n := by
      refine ⟨hnone, fun hfull => hchunk ?_⟩
      rw [hfull] at hpre
      have := hpre.length_le
      rw [List.length_append] at this
      exact List.length_eq_zero_iff.mp (by omega)
    obtain ⟨ns, hnodup, hn, heq⟩ := h.tail_of_half hhalf
    refine ⟨ns, hnodup, tag n (wrote w n ++ chunk), ?_, Or.inr ⟨n, _, hn, hpre, rfl⟩⟩
    conv_lhs => rw [heq]
    rw [List.append_assoc, ← tag_append]

/-- **A beginning after a half written message breaks the frame.** -/
theorem not_framed_push {m : ℕ} (hm : Half text w m) (hnm : n ≠ m) {chunk : List β}
    (hchunk : chunk ≠ []) : ¬ Framed text (w ++ tag n chunk) := by
  intro h
  have hkeep : wrote (w ++ tag n chunk) m = wrote w m := by
    rw [wrote_append, wrote_tag_ne (Ne.symm hnm), List.append_nil]
  have hhalf : Half text (w ++ tag n chunk) m := by
    unfold Half
    rw [hkeep]
    exact hm
  obtain ⟨bs, b, hb⟩ := (List.eq_nil_or_concat chunk).resolve_left hchunk
  rw [hb, List.concat_eq_append, tag_append, ← List.append_assoc] at h hhalf
  exact hnm (h.last hhalf rfl)

end Frames

end Kmatrix.Lib.Wire
