import Mathlib.Data.List.Basic
import Mathlib.Logic.Function.Iterate
import Mathlib.Tactic.Common

/-! # Traces of a deterministic machine

A machine takes an input to a new state and an output. `trace` lists, for a run of inputs, what each
step found, took and gave. A property of a run is a property of its trace, and is proved from an
invariant `I past s` that relates the state to what has happened so far: `invariant` carries it along a
run whose steps satisfy `C`, and `at_step` delivers it where a step is about to be taken. -/

namespace Kmatrix.Lib.Trace

variable {σ α β : Type} (step : σ → α → σ × β)

/-- **One step of a run**: the state it found, its input, its output. -/
structure Occ (σ α β : Type) where
  before : σ
  input : α
  output : β

/-- The state after a run. -/
def final (s : σ) (inputs : List α) : σ := inputs.foldl (fun s a => (step s a).1) s

/-- **What happened in a run**, step by step. -/
def trace : σ → List α → List (Occ σ α β)
  | _, [] => []
  | s, a :: inputs => ⟨s, a, (step s a).2⟩ :: trace (step s a).1 inputs

section Trace
variable {step}

variable (step) in
theorem trace_append (s : σ) (xs ys : List α) :
    trace step s (xs ++ ys) = trace step s xs ++ trace step (final step s xs) ys := by
  induction xs generalizing s with
  | nil => rfl
  | cons a xs ih =>
    show _ :: trace step (step s a).1 (xs ++ ys) = _
    rw [ih]
    rfl

theorem map_input_trace (s : σ) (xs : List α) : (trace step s xs).map Occ.input = xs := by
  induction xs generalizing s with
  | nil => rfl
  | cons a xs ih => exact congrArg (a :: ·) (ih (step s a).1)

/-- A step of a run cuts the run in two. -/
theorem split_trace {s : σ} {inputs : List α} {past future : List (Occ σ α β)} {o : Occ σ α β}
    (h : trace step s inputs = past ++ o :: future) :
    ∃ xs ys, inputs = xs ++ o.input :: ys ∧ past = trace step s xs ∧
      o = ⟨final step s xs, o.input, (step (final step s xs) o.input).2⟩ := by
  induction past generalizing s inputs with
  | nil =>
    cases inputs with
    | nil => cases h
    | cons a inputs =>
      obtain ⟨rfl, -⟩ := List.cons.inj h
      exact ⟨[], inputs, rfl, rfl, rfl⟩
  | cons o' past ih =>
    cases inputs with
    | nil => cases h
    | cons a inputs =>
      obtain ⟨rfl, hrest⟩ := List.cons.inj h
      obtain ⟨xs, ys, hin, hpast, ho⟩ := ih hrest
      exact ⟨a :: xs, ys, by rw [hin]; rfl, by rw [hpast]; rfl, ho⟩

variable {I : List (Occ σ α β) → σ → Prop} {C : σ → α → Prop}

/-- **An invariant of a run** whose steps satisfy `C`. -/
theorem invariant
    (hstep : ∀ past s a, I past s → C s a → I (past ++ [⟨s, a, (step s a).2⟩]) (step s a).1) :
    ∀ (inputs : List α) (past : List (Occ σ α β)) (s : σ), I past s →
      (∀ o ∈ trace step s inputs, C o.before o.input) →
      I (past ++ trace step s inputs) (final step s inputs)
  | [], past, s, h, _ => by
    rw [show trace step s [] = [] from rfl, List.append_nil]
    exact h
  | a :: inputs, past, s, h, hC => by
    have hnow := hstep past s a h (hC _ List.mem_cons_self)
    have ih := invariant hstep inputs _ _ hnow fun o ho => hC o (List.mem_cons_of_mem _ ho)
    rw [List.append_assoc] at ih
    exact ih

/-- **The invariant where a step is taken.** -/
theorem at_step {s₀ : σ} (h₀ : I [] s₀)
    (hstep : ∀ past s a, I past s → C s a → I (past ++ [⟨s, a, (step s a).2⟩]) (step s a).1)
    {inputs : List α} (hC : ∀ o ∈ trace step s₀ inputs, C o.before o.input)
    {past future : List (Occ σ α β)} {o : Occ σ α β}
    (h : trace step s₀ inputs = past ++ o :: future) :
    I past o.before ∧ C o.before o.input ∧ o.output = (step o.before o.input).2 := by
  have ho : o ∈ trace step s₀ inputs := by
    rw [h]
    exact List.mem_append_right _ List.mem_cons_self
  obtain ⟨xs, ys, -, rfl, heq⟩ := split_trace h
  have hpast : ∀ o' ∈ trace step s₀ xs, C o'.before o'.input := by
    intro o' ho'
    refine hC o' ?_
    rw [h]
    exact List.mem_append_left _ ho'
  have hI := invariant hstep xs [] s₀ h₀ hpast
  rw [List.nil_append] at hI
  have hbefore : o.before = final step s₀ xs := congrArg Occ.before heq
  refine ⟨?_, hC o ho, ?_⟩
  · rw [hbefore]
    exact hI
  · rw [hbefore]
    exact congrArg Occ.output heq

end Trace

/-! ### A machine that goes on by itself -/

section Iterate
variable {advance : σ → σ}

/-- **A machine that comes closer to its end with every step gets there.** -/
theorem iterate_done {weight : σ → ℕ} {Done : σ → Prop} (hmore : ∀ s, ¬ Done s → weight (advance s) < weight s)
    (hdone : ∀ s, Done s → Done (advance s)) : ∀ n s, weight s ≤ n → Done (advance^[n] s)
  | 0, s, hn => by
    by_contra hnot
    have hless := hmore s hnot
    omega
  | n + 1, s, hn => by
    rw [Function.iterate_succ_apply]
    by_cases h : Done s
    · exact Function.Iterate.rec Done (hdone s h) hdone n
    · have hless := hmore s h
      exact iterate_done hmore hdone n _ (by omega)

/-- An invariant of its steps, where each is taken under `C`. -/
theorem iterate_invariant {I C : σ → Prop} (hstep : ∀ s, I s → C s → I (advance s)) {s : σ} (h : I s) :
    ∀ n, (∀ k, k < n → C (advance^[k] s)) → I (advance^[n] s)
  | 0, _ => h
  | n + 1, hC => by
    rw [Function.iterate_succ_apply']
    exact hstep _ (iterate_invariant hstep h n fun k hk => hC k (by omega)) (hC n (by omega))

end Iterate

/-- **A property of every step** of a run, together with what happened before it. -/
def EveryStep (P : List (Occ σ α β) → Occ σ α β → Prop) (run : List (Occ σ α β)) : Prop :=
  ∀ past o future, run = past ++ o :: future → P past o

section EveryStep
variable {step} {P : List (Occ σ α β) → Occ σ α β → Prop} {run more : List (Occ σ α β)}

theorem EveryStep.left (h : EveryStep P (run ++ more)) : EveryStep P run := by
  intro past o future heq
  refine h past o (future ++ more) ?_
  rw [heq, List.append_assoc, List.cons_append]

theorem everyStep_nil : EveryStep P [] := fun _ _ _ heq => absurd heq (by simp)

theorem everyStep_cons {o : Occ σ α β} :
    EveryStep P (o :: run) ↔ P [] o ∧ EveryStep (fun past => P (o :: past)) run := by
  constructor
  · intro h
    exact ⟨h [] o run rfl, fun past o' future heq => h (o :: past) o' future (by rw [heq]; rfl)⟩
  · rintro ⟨hnow, hlater⟩ past o' future heq
    rcases past with _ | ⟨first, past⟩
    · obtain ⟨rfl, -⟩ := List.cons.inj heq
      exact hnow
    · obtain ⟨rfl, hrest⟩ := List.cons.inj heq
      exact hlater past o' future hrest

/-- **The invariant where a step is taken**, under a condition that looks at what happened before. -/
theorem at_everyStep {I : List (Occ σ α β) → σ → Prop} {s₀ : σ} (h₀ : I [] s₀)
    (hstep : ∀ past s a, I past s → P past ⟨s, a, (step s a).2⟩ →
      I (past ++ [⟨s, a, (step s a).2⟩]) (step s a).1)
    {inputs : List α} (hP : EveryStep P (trace step s₀ inputs))
    {past future : List (Occ σ α β)} {o : Occ σ α β}
    (h : trace step s₀ inputs = past ++ o :: future) :
    I past o.before ∧ P past o ∧ o.output = (step o.before o.input).2 := by
  obtain ⟨hI, -, hout⟩ := at_step (I := fun past s => EveryStep P past → I past s) (C := fun _ _ => True)
    (fun _ => h₀)
    (fun past s a hI _ hall => hstep past s a (hI hall.left) (hall past _ [] rfl)) (fun _ _ => trivial) h
  rw [h] at hP
  exact ⟨hI hP.left, hP past o future rfl, hout⟩

end EveryStep

/-! ### The latest occurrence -/

/-- **The latest step with a property**: `o` has it, and nothing after it in `past` does. -/
def Latest {γ : Type} (P : γ → Prop) (past : List γ) (o : γ) : Prop :=
  ∃ before after, past = before ++ o :: after ∧ P o ∧ ∀ o' ∈ after, ¬ P o'

section Latest
variable {γ : Type} {P : γ → Prop} {past : List γ} {o o' : γ}

theorem Latest.holds (h : Latest P past o) : P o := by
  obtain ⟨_, _, -, ho, -⟩ := h
  exact ho

/-- There is one latest step. -/
theorem Latest.unique (h : Latest P past o) (h' : Latest P past o') : o = o' := by
  obtain ⟨before, after, rfl, ho, hafter⟩ := h
  obtain ⟨before', after', heq, ho', hafter'⟩ := h'
  rcases List.append_eq_append_iff.mp heq with ⟨xs, -, hxs⟩ | ⟨xs, -, hxs⟩
  · rcases xs with _ | ⟨x, xs⟩
    · exact (List.cons.inj hxs).1
    · -- the other one is later
      have hmem : o' ∈ after := by
        rw [(List.cons.inj hxs).2]
        exact List.mem_append_right _ List.mem_cons_self
      exact absurd ho' (hafter o' hmem)
  · rcases xs with _ | ⟨x, xs⟩
    · exact (List.cons.inj hxs).1.symm
    · have hmem : o ∈ after' := by
        rw [(List.cons.inj hxs).2]
        exact List.mem_append_right _ List.mem_cons_self
      exact absurd ho (hafter' o hmem)

/-- A step with the property becomes the latest. -/
theorem latest_concat (h : P o) : Latest P (past ++ [o]) o :=
  ⟨past, [], rfl, h, fun _ h' => absurd h' List.not_mem_nil⟩

/-- A step without it leaves the latest where it is. -/
theorem Latest.concat (h : Latest P past o) (hn : ¬ P o') : Latest P (past ++ [o']) o := by
  obtain ⟨before, after, rfl, ho, hafter⟩ := h
  refine ⟨before, after ++ [o'], by rw [List.append_assoc, List.cons_append], ho, ?_⟩
  intro x hx
  rcases List.mem_append.mp hx with hx | hx
  · exact hafter x hx
  · rw [List.mem_singleton.mp hx]
    exact hn

end Latest

end Kmatrix.Lib.Trace
