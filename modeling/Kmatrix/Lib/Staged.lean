import Kmatrix.Lib.Crash
import Mathlib.Data.List.Perm.Basic

/-! # Threads in stages

Threads share a memory. Each is at a stage, and the code of a stage runs under a lock: the others see all
of it or nothing; between two stages any of them may go on, and new ones may be started. The process may
be killed inside a stage, and then all threads are gone with the memory.

`Pool.step` is one turn, `Pool.invariant` the induction over runs. -/

namespace Kmatrix.Lib.Staged

open Kmatrix.Lib.Crash

/-- **The threads**, each at its stage, over the world and the memory they share; and the stages that came
to their end, with what they led to. -/
structure Pool (ω μ τ : Type) where
  world : ω
  memory : Option μ
  threads : List τ
  past : List (τ × Except String τ)

/-- What happens next: a thread is started with its arguments, one carries out its stage, or the process
is (re)started. -/
inductive Turn (κ ο : Type) where
  | start (k : κ)
  | run (i : ℕ) (os : List ο)
  | boot (os : List ο)

/-- The threads after the stage of the `i`-th: an error ends it. -/
def after {τ : Type} (threads : List τ) (i : ℕ) : Except String τ → List τ
  | .ok t => threads.set i t
  | .error _ => threads.eraseIdx i

/-- Where the `i`-th thread went on, there is the new stage beside the others. -/
theorem after_ok_perm {τ : Type} {threads : List τ} {i : ℕ} {t : τ} (h : threads[i]? = some t) (t' : τ) :
    (after threads i (.ok t')).Perm (t' :: threads.eraseIdx i) := by
  obtain ⟨hi, -⟩ := List.getElem?_eq_some_iff.mp h
  exact List.set_perm_cons_eraseIdx hi t'

/-- The `i`-th thread beside the others. -/
theorem perm_cons_eraseIdx {τ : Type} {threads : List τ} {i : ℕ} {t : τ} (h : threads[i]? = some t) :
    threads.Perm (t :: threads.eraseIdx i) := by
  obtain ⟨hi, rfl⟩ := List.getElem?_eq_some_iff.mp h
  exact (List.getElem_cons_eraseIdx_perm hi).symm

namespace Pool
variable {ε : Type} {ρ : ε → Type} {ω ο μ τ κ : Type} (exec : ο → ω → (e : ε) → ρ e × ω)
  (boot : Prog ε ρ (Option μ)) (first : κ → τ) (code : τ → Act μ ε ρ τ)

/-- **One turn**; `first` is the stage that a thread starts at. -/
def step (p : Pool ω μ τ) : Turn κ ο → Pool ω μ τ
  | .start k => { p with threads := p.threads ++ [first k] }
  | .run i os =>
    match p.threads[i]?, p.memory with
    | some t, some m =>
      match run exec ((code t).run m) p.world os with
      | (some (r, m'), w) => ⟨w, some m', after p.threads i r, p.past ++ [(t, r)]⟩
      | (none, w) => ⟨w, none, [], p.past⟩
    | _, _ => p
  | .boot os =>
    match run exec boot p.world os with
    | (some m, w) => ⟨w, m, [], p.past⟩
    | (none, w) => ⟨w, none, [], p.past⟩

def runs (p : Pool ω μ τ) (turns : List (Turn κ ο)) : Pool ω μ τ :=
  turns.foldl (step exec boot first code) p

variable {exec boot first code}

/-- **The invariant of a run**: a new thread keeps it, and so does every stage, wherever it is killed, and
every start. -/
theorem invariant {I : Pool ω μ τ → Prop}
    (hstart : ∀ p k, I p → I { p with threads := p.threads ++ [first k] })
    (hrun : ∀ p i t m, I p → p.threads[i]? = some t → p.memory = some m →
      Safe exec (fun w => I ⟨w, none, [], p.past⟩)
        (fun r w => I ⟨w, some r.2, after p.threads i r.1, p.past ++ [(t, r.1)]⟩) ((code t).run m) p.world)
    (hboot : ∀ p, I p → Safe exec (fun w => I ⟨w, none, [], p.past⟩) (fun m w => I ⟨w, m, [], p.past⟩)
      boot p.world)
    {p : Pool ω μ τ} (h : I p) (turns : List (Turn κ ο)) : I (runs exec boot first code p turns) := by
  induction turns generalizing p with
  | nil => exact h
  | cons turn turns ih =>
    refine ih ?_
    rcases turn with k | ⟨i, os⟩ | os
    · exact hstart p k h
    · unfold step
      dsimp only
      split
      · next t m ht hm =>
        obtain ⟨hret, hkill⟩ := (hrun p i t m h ht hm).run os
        rcases hr : run exec ((code t).run m) p.world os with ⟨_ | ⟨r, m'⟩, w⟩
        · exact hkill w hr
        · exact hret (r, m') w hr
      · exact h
    · obtain ⟨hret, hkill⟩ := (hboot p h).run os
      unfold step
      dsimp only
      rcases hr : run exec boot p.world os with ⟨_ | m, w⟩
      · exact hkill w hr
      · exact hret m w hr

end Pool

end Kmatrix.Lib.Staged
