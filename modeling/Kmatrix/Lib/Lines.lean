import Mathlib.Data.List.Basic
import Mathlib.Tactic.Common

/-! # A stream cut at a separator

`Cut sep xs bodies rest`: the stream `xs` is the pieces `bodies`, each with a separator after it, and then
`rest`, which has none yet. There is one such cut (`Cut.splitOn_eq`), and it can be carried along: what
arrives without a separator goes to the rest (`Cut.more`), a separator ends it (`Cut.ends`). -/

namespace Kmatrix.Lib.Lines

variable {α : Type} {sep : α}

/-- **The stream is these pieces, and this rest.** -/
structure Cut (sep : α) (xs : List α) (bodies : List (List α)) (rest : List α) : Prop where
  stream : xs = (bodies.flatMap fun b => b ++ [sep]) ++ rest
  bodies : ∀ b ∈ bodies, sep ∉ b
  rest : sep ∉ rest

theorem cut_nil : Cut sep [] [] [] := ⟨rfl, by simp, by simp⟩

section Step
variable {xs rest part : List α} {bodies : List (List α)}

theorem Cut.more (h : Cut sep xs bodies rest) (hpart : sep ∉ part) :
    Cut sep (xs ++ part) bodies (rest ++ part) := by
  refine ⟨?_, h.bodies, ?_⟩
  · rw [h.stream, List.append_assoc]
  · rw [List.mem_append]
    exact fun hmem => hmem.elim h.rest hpart

theorem Cut.ends (h : Cut sep xs bodies rest) (hpart : sep ∉ part) :
    Cut sep (xs ++ (part ++ [sep])) (bodies ++ [rest ++ part]) [] := by
  have hmore := h.more hpart
  refine ⟨?_, ?_, by simp⟩
  · have hstream := hmore.stream
    rw [List.flatMap_append, List.append_nil, ← List.append_assoc, hstream]
    simp
  · intro b hb
    rcases List.mem_append.mp hb with hb | hb
    · exact h.bodies b hb
    · rw [List.mem_singleton.mp hb]
      exact hmore.rest

end Step

/-- **The cut is what splitting the stream gives.** -/
theorem Cut.splitOn_eq [BEq α] [LawfulBEq α] {xs rest : List α} {bodies : List (List α)}
    (h : Cut sep xs bodies rest) : xs.splitOn sep = bodies ++ [rest] := by
  obtain ⟨rfl, hbodies, hrest⟩ := h
  have hnone : ∀ b : List α, sep ∉ b → b.splitOn sep = [b] := by
    intro b hb
    refine List.splitOnP_eq_singleton fun x hx => ?_
    rw [beq_eq_false_iff_ne]
    rintro rfl
    exact hb hx
  induction bodies with
  | nil => exact hnone rest hrest
  | cons b bodies ih =>
    have hlater := ih fun b' hb' => hbodies b' (List.mem_cons_of_mem b hb')
    have hfirst := hnone b (hbodies b List.mem_cons_self)
    have hsplit := List.splitOnP_append_cons (p := (· == sep)) b
      ((bodies.flatMap fun b => b ++ [sep]) ++ rest) (beq_self_eq_true sep)
    unfold List.splitOn at hlater hfirst ⊢
    rw [hlater, hfirst] at hsplit
    rw [List.flatMap_cons, List.append_assoc, List.append_assoc, List.singleton_append, hsplit]
    rfl

end Kmatrix.Lib.Lines
