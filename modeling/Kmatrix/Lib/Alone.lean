import Kmatrix.Lib.Threads

/-! # A procedure that runs alone

Nothing else happens while it runs, and all its writes succeed. `Ends` says where it ends, with the requests
it has made and their answers; `Ends.runs` that this is a run of a pool, and the other lemmas what the last
step of the procedure was. -/

namespace Kmatrix.Lib.Threads

variable {σ ω ι : Type} {ρ : ι → Type} {κ ο : Type}

/-- A request and its answer. -/
abbrev Exchange (ρ : ι → Type) := (q : ι) × ρ q

/-- **The procedure ends** in a state, with its exchanges; `answers` are those the server may give. -/
inductive Proc.Ends (exec : ο → σ → ω → σ) (note : (q : ι) → ρ q → σ → σ) (answers : (q : ι) → ρ q → Prop) :
    Proc σ ω ι ρ → σ → List (Exchange ρ) → σ → Prop
  | done {s : σ} : Ends exec note answers .done s [] s
  | locked {writes : σ → List ω} {next : σ → Bool → Proc σ ω ι ρ} {s s' : σ} {os : List ο}
      {tr : List (Exchange ρ)} (hos : (writes s).length ≤ os.length)
      (h : Ends exec note answers (next s true) (carry exec s (writes s) os) tr s') :
      Ends exec note answers (.locked writes next) s tr s'
  | ask {q : ι} {next : ρ q → Proc σ ω ι ρ} {s s' : σ} {r : ρ q} {tr : List (Exchange ρ)} (hr : answers q r)
      (h : Ends exec note answers (next r) (note q r s) tr s') :
      Ends exec note answers (.ask q next) s (⟨q, r⟩ :: tr) s'

namespace Proc
variable {exec : ο → σ → ω → σ} {note : (q : ι) → ρ q → σ → σ} {answers : (q : ι) → ρ q → Prop} {s s' : σ}
  {tr : List (Exchange ρ)}

theorem ends_done (h : Ends exec note answers .done s tr s') : tr = [] ∧ s' = s := by
  cases h
  exact ⟨rfl, rfl⟩

theorem ends_locked {writes : σ → List ω} {next : σ → Bool → Proc σ ω ι ρ}
    (h : Ends exec note answers (.locked writes next) s tr s') :
    ∃ os, (writes s).length ≤ os.length ∧
      Ends exec note answers (next s true) (carry exec s (writes s) os) tr s' := by
  cases h with
  | locked hos h => exact ⟨_, hos, h⟩

theorem ends_read {next : σ → Proc σ ω ι ρ} :
    Ends exec note answers (read next) s tr s' ↔ Ends exec note answers (next s) s tr s' := by
  constructor
  · intro h
    obtain ⟨os, -, h⟩ := ends_locked h
    exact h
  · intro h
    exact @Ends.locked _ _ _ _ _ exec note answers _ _ _ _ [] _ (Nat.le_refl 0) h

theorem ends_write {ops : List ω} {next : Proc σ ω ι ρ} :
    Ends exec note answers (write ops next) s tr s' ↔
      ∃ os, ops.length ≤ os.length ∧ Ends exec note answers next (carry exec s ops os) tr s' := by
  constructor
  · exact ends_locked
  · rintro ⟨os, hos, h⟩
    exact .locked hos h

theorem ends_ask {q : ι} {next : ρ q → Proc σ ω ι ρ} :
    Ends exec note answers (.ask q next) s tr s' ↔
      ∃ r tr₁, answers q r ∧ tr = ⟨q, r⟩ :: tr₁ ∧ Ends exec note answers (next r) (note q r s) tr₁ s' := by
  constructor
  · intro h
    cases h with
    | ask hr h => exact ⟨_, _, hr, rfl, h⟩
  · rintro ⟨r, tr₁, hr, rfl, h⟩
    exact .ask hr h

open Classical in
/-- **It is a run of a pool** in which nothing else is started. -/
theorem Ends.runs {p : Proc σ ω ι ρ} (h : Ends exec note answers p s tr s') (reply : (q : ι) → ρ q) (k : κ) :
    ∃ run, (⟨s, put [(k, p)] 0 k p⟩ : Pool σ ω ι ρ κ).runs exec note run = ⟨s', []⟩ := by
  have hput : ∀ x q : Proc σ ω ι ρ, put [(k, x)] 0 k q = put [(k, q)] 0 k q := by
    intro x q
    cases q <;> rfl
  induction h with
  | done => exact ⟨[], rfl⟩
  | @locked writes next s s' os tr hos h ih =>
    obtain ⟨run, hrun⟩ := ih
    refine ⟨.run 0 os :: run, ?_⟩
    have hstep : (⟨s, put [(k, .locked writes next)] 0 k (.locked writes next)⟩ : Pool σ ω ι ρ κ).step
        exec note (.run 0 os) = ⟨carry exec s (writes s) os, put [(k, next s true)] 0 k (next s true)⟩ := by
      rw [← hput (.locked writes next)]
      simp [Pool.step, put, hos]
    rw [Pool.runs, List.foldl_cons, hstep]
    exact hrun
  | @ask q next s s' r tr hr h ih =>
    obtain ⟨run, hrun⟩ := ih
    refine ⟨.answer 0 (Function.update reply q r) :: run, ?_⟩
    have hstep : (⟨s, put [(k, .ask q next)] 0 k (.ask q next)⟩ : Pool σ ω ι ρ κ).step exec note
        (.answer 0 (Function.update reply q r)) = ⟨note q r s, put [(k, next r)] 0 k (next r)⟩ := by
      rw [← hput (.ask q next)]
      simp [Pool.step, put]
    rw [Pool.runs, List.foldl_cons, hstep]
    exact hrun

end Proc
end Kmatrix.Lib.Threads
