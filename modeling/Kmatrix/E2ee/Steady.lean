import Kmatrix.E2ee.Effects

/-! # A store that does not fail

`exec` where no store access fails. `run_steady` says that a run over outcomes without a fault is a run of
it, so that what is `Safe` here holds of those. -/

namespace Kmatrix.E2ee.Steady

open Kmatrix.Lib.Crash Kmatrix.E2ee.Effects Kmatrix.Storage Kmatrix.Storage.Seal Kmatrix.Storage.Schema
open Kmatrix.Storage.Write (StoreOp)

section Steady
variable {S : CipherSuite} {Q Ω N : Type} {R : Q → Type} (serve : N → Ω → (q : Q) → R q × Ω)

/-- An effect, with the salts it draws and what the network does. -/
def steady (o : Salts × N) : World S Ω → (e : Effect Q) → Answer S R e × World S Ω :=
  exec serve ⟨none, o.1, o.2⟩

/-- **A run without a fault.** -/
theorem run_steady {α : Type} (p : Prog (Effect Q) (Answer S R) α) (w : World S Ω) {os : List (Outcome N)}
    (hos : ∀ o ∈ os, o.fault = none) :
    run (exec serve) p w os = run (steady serve) p w (os.map fun o => (o.salts, o.net)) := by
  induction p generalizing w os with
  | ret a => rfl
  | act e next ih =>
    rcases os with _ | ⟨⟨fault, salts, net⟩, os⟩
    · rfl
    · obtain rfl : fault = none := hos _ List.mem_cons_self
      exact ih _ _ fun o ho => hos o (List.mem_cons_of_mem _ ho)

variable {serve} {σ α : Type} {D : World S Ω → Prop} {s : σ} {w : World S Ω}

/-- What is safe whatever fails is safe where nothing does. -/
theorem safe_steady {T : α → World S Ω → Prop} {p : Prog (Effect Q) (Answer S R) α}
    (h : Safe (exec serve) D T p w) : Safe (steady serve) D T p w := by
  induction p generalizing w with
  | ret a => exact h
  | act e next ih => exact ⟨h.1, fun o => ih _ (h.2 _)⟩

/-- The same of a program that is recorded: nothing on its record failed. -/
theorem safe_steady_recorded {T : α → World S Ω × List (Effect Q × Outcome N) → Prop}
    {p : Prog (Effect Q) (Answer S R) α} {tr : List (Effect Q × Outcome N)}
    (h : Safe (recording (exec serve)) (fun _ => True) T p (w, tr)) :
    Safe (steady serve) (fun _ => True)
      (fun a w' => ∃ more, (∀ y ∈ more, y.2.fault = none) ∧ T a (w', tr ++ more)) p w := by
  induction p generalizing w tr with
  | ret a =>
    refine ⟨[], by simp, ?_⟩
    rw [List.append_nil]
    exact h
  | act e next ih =>
    refine ⟨trivial, fun o => (ih _ (h.2 ⟨none, o.1, o.2⟩)).mono ?_⟩
    rintro a w' ⟨more, hmore, hT⟩
    refine ⟨(e, ⟨none, o.1, o.2⟩) :: more, fun y hy => ?_, ?_⟩
    · rcases List.mem_cons.mp hy with rfl | hy
      · rfl
      · exact hmore y hy
    · rw [List.append_assoc] at hT
      exact hT

theorem safe_put_steady {op : StoreOp} {T : Except String Unit × σ → World S Ω → Prop} (hD : D w)
    (h : ∀ rng, T (.ok (), s) { w with disk := op.exec rng w.disk }) :
    Safe (steady serve) D T ((put op : Code S R σ Unit).run s) w := ⟨hD, fun o => h o.1⟩

theorem safe_query_steady {read : Store S → Except String α} {T : Except String α × σ → World S Ω → Prop}
    (hD : D w) (h : T (read w.disk, s) w) :
    Safe (steady serve) D T ((query read : Code S R σ α).run s) w :=
  Act.safe_bind.mpr ⟨hD, fun _ => h⟩

theorem safe_draw_steady {count : ℕ} {T : Except String ℕ × σ → World S Ω → Prop} (hD : D w)
    (h : T (.ok w.drawn, s) { w with drawn := w.drawn + count }) :
    Safe (steady serve) D T ((draw count : Code S R σ ℕ).run s) w := ⟨hD, fun _ => h⟩

end Steady

end Kmatrix.E2ee.Steady
