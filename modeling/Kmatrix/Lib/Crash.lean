import Mathlib.Data.List.Basic
import Mathlib.Tactic.Common

/-! # Programs that can be killed

A program does effects one after the other and goes on with what each answers. What an effect does to
the world, and what it answers, depends on an outcome `o` (whether it fails, what the other side does):
`run` carries a program out over a list of outcomes, and the process is killed where the list ends.

* `Safe D Q p w`: whatever the outcomes, `D` holds of the world wherever `p` may be killed, and `Q`
  where it returns. `safe_bind` composes, `Safe.run` is adequacy.
* `Act`: programs with a memory and errors. An error keeps what the memory has become. `Keeps` is an
  invariant of memory and world; `run_padded` says which inputs of a loop leave no trace.
* `Process`: a world, the memory of the process while it runs, and what its calls have returned;
  `Holds.called` and `Holds.booted` are one event, `Holds.within` the induction over calls, kills and
  restarts. -/

namespace Kmatrix.Lib.Crash

/-- **A program**: returns, or does an effect. -/
inductive Prog (ε : Type) (ρ : ε → Type) (α : Type) : Type where
  | ret (a : α)
  | act (e : ε) (next : ρ e → Prog ε ρ α)

section Programs
variable {ε : Type} {ρ : ε → Type} {α β : Type}

namespace Prog

/-- One after the other. -/
def bind : Prog ε ρ α → (α → Prog ε ρ β) → Prog ε ρ β
  | ret a, f => f a
  | act e next, f => act e fun r => (next r).bind f

theorem bind_assoc {γ : Type} (p : Prog ε ρ α) (f : α → Prog ε ρ β) (g : β → Prog ε ρ γ) :
    (p.bind f).bind g = p.bind fun a => (f a).bind g := by
  induction p with
  | ret a => rfl
  | act e next ih => exact congrArg (act e) (funext ih)

end Prog

/-! ### Runs -/

section Runs
variable {ω ο : Type} (exec : ο → ω → (e : ε) → ρ e × ω)

/-- **A run** over the outcomes of its effects: killed where they end. -/
def run : Prog ε ρ α → ω → List ο → Option α × ω
  | .ret a, w, _ => (some a, w)
  | .act _ _, w, [] => (none, w)
  | .act e next, w, o :: os => run (next (exec o w e).1) (exec o w e).2 os

/-- What a run did: each effect with its outcome. -/
def trail : Prog ε ρ α → ω → List ο → List (ε × ο)
  | .ret _, _, _ => []
  | .act _ _, _, [] => []
  | .act e next, w, o :: os => (e, o) :: trail (next (exec o w e).1) (exec o w e).2 os

/-- A world that records what is done to it. -/
def recording (o : ο) (w : ω × List (ε × ο)) (e : ε) : ρ e × ω × List (ε × ο) :=
  ((exec o w.1 e).1, (exec o w.1 e).2, w.2 ++ [(e, o)])

/-- **The record of a run is its trail**, and recording changes nothing else. -/
theorem run_recording (p : Prog ε ρ α) (w : ω) (past : List (ε × ο)) (os : List ο) :
    run (recording exec) p (w, past) os =
      ((run exec p w os).1, (run exec p w os).2, past ++ trail exec p w os) := by
  induction p generalizing w past os with
  | ret a => simp [run, trail]
  | act e next ih =>
    rcases os with _ | ⟨o, os⟩
    · simp [run, trail]
    · have hih := ih (exec o w e).1 (exec o w e).2 (past ++ [(e, o)]) os
      rw [List.append_assoc] at hih
      exact hih

/-- **Safety**: `D` wherever the program may be killed, `Q` where it returns. -/
def Safe (D : ω → Prop) (Q : α → ω → Prop) : Prog ε ρ α → ω → Prop
  | .ret a, w => Q a w
  | .act e next, w => D w ∧ ∀ o, Safe D Q (next (exec o w e).1) (exec o w e).2

variable {exec} {D : ω → Prop} {Q Q' : α → ω → Prop} {R : β → ω → Prop}

@[simp] theorem safe_ret {a : α} {w : ω} : Safe exec D Q (.ret a) w ↔ Q a w := Iff.rfl

@[simp] theorem safe_act {e : ε} {next : ρ e → Prog ε ρ α} {w : ω} :
    Safe exec D Q (.act e next) w ↔
      D w ∧ ∀ o, Safe exec D Q (next (exec o w e).1) (exec o w e).2 := Iff.rfl

/-- **Composition.** -/
theorem safe_bind {p : Prog ε ρ α} {f : α → Prog ε ρ β} {w : ω} :
    Safe exec D R (p.bind f) w ↔ Safe exec D (fun a w' => Safe exec D R (f a) w') p w := by
  induction p generalizing w with
  | ret a => exact Iff.rfl
  | act e next ih => exact and_congr_right fun _ => forall_congr' fun o => ih _

/-- **A sequence** runs its first part, and then the second over the outcomes that are left. -/
theorem run_bind (p : Prog ε ρ α) (f : α → Prog ε ρ β) (w : ω) (os : List ο) :
    run exec (p.bind f) w os =
      match run exec p w os with
      | (some a, w') => run exec (f a) w' (os.drop (trail exec p w os).length)
      | (none, w') => (none, w') := by
  induction p generalizing w os with
  | ret a => rfl
  | act e next ih =>
    rcases os with _ | ⟨o, os⟩
    · rfl
    · exact ih _ _ os

theorem Safe.weaken {D' : ω → Prop} {p : Prog ε ρ α} {w : ω} (h : Safe exec D Q p w)
    (hD : ∀ w', D w' → D' w') (hQ : ∀ a w', Q a w' → Q' a w') : Safe exec D' Q' p w := by
  induction p generalizing w with
  | ret a => exact hQ a w h
  | act e next ih => exact ⟨hD w h.1, fun o => ih _ (h.2 o)⟩

theorem Safe.mono {p : Prog ε ρ α} {w : ω} (h : Safe exec D Q p w) (hQ : ∀ a w', Q a w' → Q' a w') :
    Safe exec D Q' p w := h.weaken (fun _ => id) hQ

/-- **Adequacy.** -/
theorem Safe.run {p : Prog ε ρ α} {w : ω} (h : Safe exec D Q p w) (os : List ο) :
    (∀ a w', run exec p w os = (some a, w') → Q a w') ∧
      (∀ w', run exec p w os = (none, w') → D w') := by
  induction p generalizing w os with
  | ret a =>
    refine ⟨fun b w' hr => ?_, fun w' hr => ?_⟩
    · obtain ⟨ha, rfl⟩ := Prod.mk.inj hr
      obtain rfl := Option.some.inj ha
      exact h
    · simp [Crash.run] at hr
  | act e next ih =>
    rcases os with _ | ⟨o, os⟩
    · refine ⟨fun b w' hr => by simp [Crash.run] at hr, fun w' hr => ?_⟩
      obtain ⟨-, rfl⟩ := Prod.mk.inj hr
      exact h.1
    · exact ih _ (h.2 o) os

/-- **A program that is not killed returns.** -/
theorem run_returns (p : Prog ε ρ α) (w : ω) (os : ℕ → ο) :
    ∃ k a w', Crash.run exec p w ((List.range k).map os) = (some a, w') := by
  induction p generalizing w os with
  | ret a => exact ⟨0, a, w, rfl⟩
  | act e next ih =>
    obtain ⟨k, a, w', hr⟩ := ih (exec (os 0) w e).1 (exec (os 0) w e).2 fun i => os (i + 1)
    refine ⟨k + 1, a, w', ?_⟩
    rw [List.range_succ_eq_map, List.map_cons, List.map_map]
    exact hr

/-- Nothing is asked of the program. -/
theorem Safe.of_forall {p : Prog ε ρ α} {w : ω} (hD : ∀ w', D w') (hQ : ∀ a w', Q a w') :
    Safe exec D Q p w := by
  induction p generalizing w with
  | ret a => exact hQ a w
  | act e next ih => exact ⟨hD w, fun o => ih _⟩

/-- What holds of every run is safe. -/
theorem Safe.of_run {p : Prog ε ρ α} {w : ω}
    (h : ∀ os, (∀ a w', Crash.run exec p w os = (some a, w') → Q a w') ∧
      (∀ w', Crash.run exec p w os = (none, w') → D w')) : Safe exec D Q p w := by
  induction p generalizing w with
  | ret a => exact (h []).1 a w rfl
  | act e next ih => exact ⟨(h []).2 w rfl, fun o => ih _ fun os => h (o :: os)⟩

/-- What is safe twice is safe at once. -/
theorem Safe.and {D' : ω → Prop} {p : Prog ε ρ α} {w : ω} (h : Safe exec D Q p w)
    (h' : Safe exec D' Q' p w) :
    Safe exec (fun w => D w ∧ D' w) (fun a w => Q a w ∧ Q' a w) p w := by
  induction p generalizing w with
  | ret a => exact ⟨h, h'⟩
  | act e next ih => exact ⟨⟨h.1, h'.1⟩, fun o => ih _ (h.2 o) (h'.2 o)⟩

/-- What a program returns, some run returns. -/
theorem Safe.returns {p : Prog ε ρ α} {w : ω} (h : Safe exec D Q p w) :
    Safe exec D (fun a w' => Q a w' ∧ ∃ os, Crash.run exec p w os = (some a, w')) p w := by
  induction p generalizing w with
  | ret a => exact ⟨h, [], rfl⟩
  | act e next ih =>
    refine ⟨h.1, fun o => (ih _ (h.2 o)).mono ?_⟩
    rintro a w' ⟨hQ, os, hr⟩
    exact ⟨hQ, o :: os, hr⟩

/-- The outcomes of a trail were given. -/
theorem mem_trail {p : Prog ε ρ α} {w : ω} {os : List ο} {y : ε × ο} (h : y ∈ trail exec p w os) :
    y.2 ∈ os := by
  induction p generalizing w os with
  | ret a => simp [trail] at h
  | act e next ih =>
    rcases os with _ | ⟨o, os⟩
    · simp [trail] at h
    · rcases List.mem_cons.mp h with rfl | h
      · exact List.mem_cons_self
      · exact List.mem_cons_of_mem _ (ih _ h)

/-- **What every effect keeps**, a run keeps. -/
theorem run_keeps {R : ω → ω → Prop} (hrefl : ∀ w, R w w) (htrans : ∀ {w w' w''}, R w w' → R w' w'' → R w w'')
    (hexec : ∀ o w e, R w (exec o w e).2) (p : Prog ε ρ α) (w : ω) (os : List ο) :
    R w (run exec p w os).2 := by
  induction p generalizing w os with
  | ret a => exact hrefl w
  | act e next ih =>
    rcases os with _ | ⟨o, os⟩
    · exact hrefl w
    · exact htrans (hexec o w e) (ih _ _ os)

/-- **Every effect the program can have** satisfies `P`. -/
def Only (P : ε → Prop) : Prog ε ρ α → Prop
  | .ret _ => True
  | .act e next => P e ∧ ∀ r, Only P (next r)

theorem only_bind {P : ε → Prop} {p : Prog ε ρ α} {f : α → Prog ε ρ β} (hp : Only P p)
    (hf : ∀ a, Only P (f a)) : Only P (p.bind f) := by
  induction p with
  | ret a => exact hf a
  | act e next ih => exact ⟨hp.1, fun r => ih r (hp.2 r)⟩

/-- Then so does what is recorded of it. -/
theorem Only.recorded {P : ε → Prop} {p : Prog ε ρ α} (h : Only P p) (w : ω)
    {past : List (ε × ο)} (hpast : ∀ y ∈ past, P y.1) :
    Safe (recording exec) (fun x => ∀ y ∈ x.2, P y.1) (fun _ x => ∀ y ∈ x.2, P y.1) p (w, past) := by
  induction p generalizing w past with
  | ret a => exact hpast
  | act e next ih =>
    refine ⟨hpast, fun o => ih _ (h.2 _) _ fun y hy => ?_⟩
    rcases List.mem_append.mp hy with hy | hy
    · exact hpast y hy
    · rw [List.mem_singleton.mp hy]
      exact h.1

/-- What is safe is safe while it is recorded; the record only grows. -/
theorem Safe.recorded {p : Prog ε ρ α} {w : ω} (h : Safe exec D Q p w) (past : List (ε × ο)) :
    Safe (recording exec) (fun x => D x.1 ∧ past <+: x.2) (fun a x => Q a x.1 ∧ past <+: x.2) p
      (w, past) := by
  suffices hgen : ∀ (now : List (ε × ο)), past <+: now →
      Safe (recording exec) (fun x => D x.1 ∧ past <+: x.2) (fun a x => Q a x.1 ∧ past <+: x.2) p
        (w, now) from hgen past (List.prefix_refl past)
  induction p generalizing w with
  | ret a => exact fun now hnow => ⟨h, hnow⟩
  | act e next ih =>
    refine fun now hnow => ⟨⟨h.1, hnow⟩, fun o => ?_⟩
    exact ih _ (h.2 o) _ (hnow.trans (List.prefix_append now [(e, o)]))

/-- Adequacy, with the trail of the run. -/
theorem Safe.run_trail {D : ω × List (ε × ο) → Prop} {Q : α → ω × List (ε × ο) → Prop}
    {p : Prog ε ρ α} {w : ω} (h : Safe (recording exec) D Q p (w, [])) (os : List ο) :
    (∀ a w', Crash.run exec p w os = (some a, w') → Q a (w', trail exec p w os)) ∧
      (∀ w', Crash.run exec p w os = (none, w') → D (w', trail exec p w os)) := by
  obtain ⟨hret, hkill⟩ := h.run os
  rw [run_recording] at hret hkill
  refine ⟨fun a w' hr => hret a _ ?_, fun w' hr => hkill _ ?_⟩
  · rw [hr]
    rfl
  · rw [hr]
    rfl

end Runs

/-! ### Memory and errors -/

/-- **A program with a memory** `σ`, which may fail. -/
structure Act (σ ε : Type) (ρ : ε → Type) (α : Type) : Type where
  run : σ → Prog ε ρ (Except String α × σ)

namespace Act
variable {σ τ : Type}

/-- The continuation is skipped after an error, and the memory kept. -/
def andThen (f : α → Act σ ε ρ β) : Except String α × σ → Prog ε ρ (Except String β × σ)
  | (.ok a, s) => (f a).run s
  | (.error e, s) => .ret (.error e, s)

instance : Monad (Act σ ε ρ) where
  pure a := ⟨fun s => .ret (.ok a, s)⟩
  bind m f := ⟨fun s => (m.run s).bind (andThen f)⟩

/-- `Err(e)`. -/
def fail (e : String) : Act σ ε ρ α := ⟨fun s => .ret (.error e, s)⟩

def get : Act σ ε ρ σ := ⟨fun s => .ret (.ok s, s)⟩

def modify (f : σ → σ) : Act σ ε ρ Unit := ⟨fun s => .ret (.ok (), f s)⟩

/-- `?` on a result already at hand. -/
def ofExcept (r : Except String α) : Act σ ε ρ α := ⟨fun s => .ret (r, s)⟩

/-- `match … { Ok(a) => …, Err(e) => … }`. -/
def attempt (m : Act σ ε ρ α) : Act σ ε ρ (Except String α) :=
  ⟨fun s => (m.run s).bind fun r => .ret (.ok r.1, r.2)⟩

/-- Code on a memory that may be missing, and then it does nothing. -/
def onSome (m : Act σ ε ρ α) : Act (Option σ) ε ρ (Option (Except String α)) :=
  ⟨fun s => match s with
    | none => .ret (.ok none, none)
    | some s => (m.run s).bind fun r => .ret (.ok (some r.1), some r.2)⟩

/-- `for x in xs { acc = f(acc, x)? }`. -/
def fold (f : α → β → Act σ ε ρ α) : α → List β → Act σ ε ρ α
  | acc, [] => pure acc
  | acc, x :: xs => do
    let acc ← f acc x
    fold f acc xs

/-- `for x in xs { acc.extend(f(x)?) }`. -/
def collect (f : β → Act σ ε ρ (List α)) : List β → Act σ ε ρ (List α)
  | [] => pure []
  | x :: xs => do
    let found ← f x
    let more ← collect f xs
    return found ++ more

theorem run_get_bind (f : σ → Act σ ε ρ β) (s : σ) : ((get >>= f).run s) = (f s).run s := rfl

theorem run_ofExcept_bind (r : Except String α) (f : α → Act σ ε ρ β) (s : σ) :
    ((ofExcept r >>= f).run s) = andThen f (r, s) := rfl

theorem bind_assoc {γ : Type} (m : Act σ ε ρ α) (f : α → Act σ ε ρ β) (g : β → Act σ ε ρ γ) :
    m >>= f >>= g = m >>= fun a => f a >>= g := by
  refine congrArg Act.mk (funext fun s => ?_)
  show ((m.run s).bind (andThen f)).bind (andThen g) = (m.run s).bind (andThen fun a => f a >>= g)
  rw [Prog.bind_assoc]
  refine congrArg ((m.run s).bind ·) (funext fun r => ?_)
  obtain ⟨e | a, s'⟩ := r
  · rfl
  · rfl

/-- The first part of a sequence returns without an effect. -/
theorem run_bind_ret {m : Act σ ε ρ α} {f : α → Act σ ε ρ β} {s : σ} {r : Except String α × σ}
    (h : m.run s = .ret r) : (m >>= f).run s = andThen f r := by
  show (m.run s).bind (andThen f) = _
  rw [h]
  rfl

theorem only_andThen {P : ε → Prop} {m : Act σ ε ρ α} {f : α → Act σ ε ρ β} {s : σ}
    (hm : Only P (m.run s)) (hf : ∀ a s, Only P ((f a).run s)) : Only P ((m >>= f).run s) := by
  refine only_bind hm ?_
  rintro ⟨e | a, s'⟩
  · trivial
  · exact hf a s'

theorem only_attempt {P : ε → Prop} {m : Act σ ε ρ α} {s : σ} (hm : Only P (m.run s)) :
    Only P ((attempt m).run s) := only_bind hm fun _ => trivial

theorem only_fold {P : ε → Prop} {f : α → β → Act σ ε ρ α} (hf : ∀ acc x s, Only P ((f acc x).run s))
    (xs : List β) (acc : α) (s : σ) : Only P ((fold f acc xs).run s) := by
  induction xs generalizing acc s with
  | nil => trivial
  | cons x xs ih => exact only_andThen (hf acc x s) fun acc s => ih acc s

section Rules
variable {ω ο : Type} {exec : ο → ω → (e : ε) → ρ e × ω} {D : ω → Prop}
  {Q : Except String α × σ → ω → Prop} {R : Except String β × σ → ω → Prop} {s : σ} {w : ω}

@[simp] theorem safe_pure {a : α} :
    Safe exec D Q ((pure a : Act σ ε ρ α).run s) w ↔ Q (.ok a, s) w := Iff.rfl

@[simp] theorem safe_fail {e : String} :
    Safe exec D Q ((fail e : Act σ ε ρ α).run s) w ↔ Q (.error e, s) w := Iff.rfl

@[simp] theorem safe_get {Q : Except String σ × σ → ω → Prop} :
    Safe exec D Q ((get : Act σ ε ρ σ).run s) w ↔ Q (.ok s, s) w := Iff.rfl

@[simp] theorem safe_modify {f : σ → σ} {Q : Except String Unit × σ → ω → Prop} :
    Safe exec D Q ((modify f : Act σ ε ρ Unit).run s) w ↔ Q (.ok (), f s) w := Iff.rfl

@[simp] theorem safe_ofExcept {r : Except String α} :
    Safe exec D Q ((ofExcept r : Act σ ε ρ α).run s) w ↔ Q (r, s) w := Iff.rfl

/-- What is asked of the first part of a sequence. -/
def Then (exec : ο → ω → (e : ε) → ρ e × ω) (D : ω → Prop) (R : Except String β × σ → ω → Prop)
    (f : α → Act σ ε ρ β) (r : Except String α × σ) (w : ω) : Prop :=
  match r with
  | (.ok a, s) => Safe exec D R ((f a).run s) w
  | (.error e, s) => R (.error e, s) w

@[simp] theorem then_ok {f : α → Act σ ε ρ β} {a : α} :
    Then exec D R f (.ok a, s) w ↔ Safe exec D R ((f a).run s) w := Iff.rfl

@[simp] theorem then_error {f : α → Act σ ε ρ β} {e : String} :
    Then exec D R f (.error e, s) w ↔ R (.error e, s) w := Iff.rfl

@[simp] theorem safe_bind {m : Act σ ε ρ α} {f : α → Act σ ε ρ β} :
    Safe exec D R ((m >>= f).run s) w ↔ Safe exec D (Then exec D R f) (m.run s) w := by
  refine Crash.safe_bind.trans (iff_of_eq (congrArg (fun P => Safe exec D P (m.run s) w) ?_))
  funext r w'
  obtain ⟨r | a, s'⟩ := r
  · rfl
  · rfl

@[simp] theorem safe_attempt {m : Act σ ε ρ α} {Q : Except String (Except String α) × σ → ω → Prop} :
    Safe exec D Q ((attempt m).run s) w ↔
      Safe exec D (fun r w' => Q (.ok r.1, r.2) w') (m.run s) w :=
  Crash.safe_bind

@[simp] theorem safe_onSome_none {m : Act σ ε ρ α}
    {Q : Except String (Option (Except String α)) × Option σ → ω → Prop} :
    Safe exec D Q ((onSome m).run none) w ↔ Q (.ok none, none) w := Iff.rfl

@[simp] theorem safe_onSome_some {m : Act σ ε ρ α}
    {Q : Except String (Option (Except String α)) × Option σ → ω → Prop} :
    Safe exec D Q ((onSome m).run (some s)) w ↔
      Safe exec D (fun r w' => Q (.ok (some r.1), some r.2) w') (m.run s) w :=
  Crash.safe_bind

/-- **The loop rule**: `I done` is kept by each round, and `J` holds where a round fails. -/
theorem safe_fold {I : List β → α → σ → ω → Prop} {J : String → σ → ω → Prop}
    {f : α → β → Act σ ε ρ α}
    (hround : ∀ done acc x s w, I done acc s w → Safe exec D (fun r w' => match r with
      | (.ok acc', s') => I (done ++ [x]) acc' s' w'
      | (.error e, s') => J e s' w') ((f acc x).run s) w)
    (xs : List β) (done : List β) (acc : α) (h : I done acc s w) :
    Safe exec D (fun r w' => match r with
      | (.ok acc', s') => I (done ++ xs) acc' s' w'
      | (.error e, s') => J e s' w') ((fold f acc xs).run s) w := by
  induction xs generalizing done acc s w with
  | nil =>
    rw [List.append_nil]
    exact h
  | cons x xs ih =>
    refine safe_bind.mpr ((hround done acc x s w h).mono ?_)
    rintro ⟨e | acc', s'⟩ w' h'
    · exact h'
    · have hih := ih (done ++ [x]) acc' h'
      rw [List.append_assoc, List.singleton_append] at hih
      exact hih

/-! #### Code that keeps an invariant -/

/-- **`I` is kept**, whether the code succeeds or fails. -/
def Keeps (exec : ο → ω → (e : ε) → ρ e × ω) (D : ω → Prop) (I : σ → ω → Prop) (m : Act σ ε ρ α) : Prop :=
  ∀ s w, I s w → Safe exec D (fun r w' => I r.2 w') (m.run s) w

section Keeps
variable {I : σ → ω → Prop} {m : Act σ ε ρ α} {f : α → Act σ ε ρ β}

theorem keeps_pure (a : α) : Keeps exec D I (pure a : Act σ ε ρ α) := fun _ _ h => h

theorem keeps_fail (e : String) : Keeps exec D I (fail e : Act σ ε ρ α) := fun _ _ h => h

theorem keeps_get : Keeps exec D I (get : Act σ ε ρ σ) := fun _ _ h => h

theorem keeps_ofExcept (r : Except String α) : Keeps exec D I (ofExcept r : Act σ ε ρ α) := fun _ _ h => h

theorem keeps_modify {g : σ → σ} (hg : ∀ s w, I s w → I (g s) w) :
    Keeps exec D I (modify g : Act σ ε ρ Unit) := fun s w h => hg s w h

theorem keeps_bind (hm : Keeps exec D I m) (hf : ∀ a, Keeps exec D I (f a)) : Keeps exec D I (m >>= f) := by
  intro s w h
  refine safe_bind.mpr ((hm s w h).mono ?_)
  rintro ⟨e | a, s'⟩ w' h'
  · exact h'
  · exact hf a s' w' h'

theorem keeps_attempt (hm : Keeps exec D I m) : Keeps exec D I (attempt m) :=
  fun s w h => safe_attempt.mpr (hm s w h)

theorem keeps_fold {g : α → β → Act σ ε ρ α} (hg : ∀ a b, Keeps exec D I (g a b)) (xs : List β) (a : α) :
    Keeps exec D I (fold g a xs) := by
  induction xs generalizing a with
  | nil => exact keeps_pure a
  | cons b xs ih => exact keeps_bind (hg a b) ih

theorem keeps_collect {g : β → Act σ ε ρ (List α)} (hg : ∀ b, Keeps exec D I (g b)) (xs : List β) :
    Keeps exec D I (collect g xs) := by
  induction xs with
  | nil => exact keeps_pure []
  | cons b xs ih => exact keeps_bind (hg b) fun _ => keeps_bind ih fun _ => keeps_pure _

end Keeps

end Rules

/-! #### Inputs that the code has no use for -/

section Padding
variable {ω ο : Type} (exec : ο → ω → (e : ε) → ρ e × ω) (idle : σ → β → Prop)
  (f : β → Act σ ε ρ (List α))

/-- **Inputs put in between**, marked by `true`: each is idle where the run comes to it. -/
def Padded : σ → ω → List ο → List (Bool × β) → Prop
  | _, _, _, [] => True
  | s, w, os, (true, x) :: xs => idle s x ∧ Padded s w os xs
  | s, w, os, (false, x) :: xs => match Crash.run exec ((f x).run s) w os with
    | (some (.ok _, s'), w') => Padded s' w' (os.drop (trail exec ((f x).run s) w os).length) xs
    | _ => True

instance decidablePadded [hidle : ∀ s x, Decidable (idle s x)] :
    ∀ s w os xs, Decidable (Padded exec idle f s w os xs)
  | _, _, _, [] => isTrue trivial
  | s, w, os, (true, x) :: xs =>
    have := decidablePadded s w os xs
    inferInstanceAs (Decidable (idle s x ∧ Padded exec idle f s w os xs))
  | s, w, os, (false, x) :: xs => by
    unfold Padded
    exact match Crash.run exec ((f x).run s) w os with
      | (some (.ok _, s'), w') =>
        decidablePadded s' w' (os.drop (trail exec ((f x).run s) w os).length) xs
      | (some (.error _, _), _) => isTrue trivial
      | (none, _) => isTrue trivial

/-- The inputs without those put in between. -/
def unpadded (xs : List (Bool × β)) : List β := (xs.filter fun p => !p.1).map Prod.snd

variable {exec idle f}

/-- What is made of the result changes nothing else. -/
theorem run_bind_pure (m : Act σ ε ρ α) (g : α → β) (s : σ) (w : ω) (os : List ο) :
    Crash.run exec ((m >>= fun a => pure (g a)).run s) w os =
      ((Crash.run exec (m.run s) w os).1.map fun r => (r.1.map g, r.2),
        (Crash.run exec (m.run s) w os).2) := by
  have hret : ∀ (p : Prog ε ρ (Except String α × σ)) (w : ω) (os : List ο),
      Crash.run exec (p.bind (andThen fun a => (pure (g a) : Act σ ε ρ β))) w os =
        ((Crash.run exec p w os).1.map fun r => (r.1.map g, r.2), (Crash.run exec p w os).2) := by
    intro p
    induction p with
    | ret r =>
      obtain ⟨e | a, s'⟩ := r
      · exact fun _ _ => rfl
      · exact fun _ _ => rfl
    | act e next ih =>
      intro w os
      rcases os with _ | ⟨o, os⟩
      · rfl
      · exact ih _ _ os
  exact hret (m.run s) w os

/-- **Idle inputs leave no trace** of a run, wherever they are put and whatever the outcomes. -/
theorem run_padded (hidle : ∀ s x, idle s x → (f x).run s = .ret (.ok [], s)) {xs : List (Bool × β)} {s : σ}
    {w : ω} {os : List ο} (h : Padded exec idle f s w os xs) :
    Crash.run exec ((collect f (xs.map Prod.snd)).run s) w os =
      Crash.run exec ((collect f (unpadded xs)).run s) w os := by
  induction xs generalizing s w os with
  | nil => rfl
  | cons p xs ih =>
    obtain ⟨_ | _, x⟩ := p
    · -- both runs do the same with `x`, and go on from where it left off
      have hstep : ∀ ys : List β, Crash.run exec ((collect f (x :: ys)).run s) w os =
          Crash.run exec (((f x).run s).bind (andThen fun found => collect f ys >>= fun more =>
            pure (found ++ more))) w os := fun _ => rfl
      have hwithout : unpadded ((false, x) :: xs) = x :: unpadded xs := rfl
      rw [List.map_cons, hwithout, hstep, hstep, run_bind, run_bind]
      unfold Padded at h
      rcases hrun : Crash.run exec ((f x).run s) w os with ⟨_ | ⟨e | found, s'⟩, w'⟩
      · rfl
      · rfl
      · rw [hrun] at h
        have hrest := ih h
        dsimp only
        exact (run_bind_pure _ _ s' w' _).trans (by rw [hrest]; exact (run_bind_pure _ _ s' w' _).symm)
    · have hwith : Crash.run exec ((collect f (x :: xs.map Prod.snd)).run s) w os =
          Crash.run exec ((collect f (xs.map Prod.snd) >>= fun more => pure ([] ++ more)).run s) w os := by
        show Crash.run exec (((f x).run s).bind _) w os = _
        rw [hidle s x h.1]
        rfl
      have hwithout : unpadded ((true, x) :: xs) = unpadded xs := rfl
      rw [List.map_cons, hwithout, hwith, run_bind_pure, ← ih h.2]
      rcases Crash.run exec ((collect f (xs.map Prod.snd)).run s) w os with ⟨_ | ⟨e | found, s'⟩, w'⟩
      · rfl
      · rfl
      · rfl

end Padding

end Act

end Programs

/-! ### Processes -/

/-- **A process**: the world, its memory while it runs, and what its calls have returned, in order. -/
structure Process (ω μ κ α : Type) where
  world : ω
  memory : Option μ
  returned : List (κ × α)

/-- What happens to a process: it is called, or (re)started; the outcomes say how far that gets. -/
inductive Event (κ ο : Type) where
  | call (c : κ) (os : List ο)
  | boot (os : List ο)

namespace Process
variable {ε : Type} {ρ : ε → Type} {ω ο μ κ α : Type} (exec : ο → ω → (e : ε) → ρ e × ω)
  (boot : Prog ε ρ (Option μ)) (code : κ → μ → Prog ε ρ (α × μ))

/-- **One event.** A killed call returns nothing, and only a restart brings a memory back. -/
def step (p : Process ω μ κ α) : Event κ ο → Process ω μ κ α
  | .call c os =>
    match p.memory with
    | none => p
    | some m =>
      match run exec (code c m) p.world os with
      | (some (a, m'), w) => ⟨w, some m', p.returned ++ [(c, a)]⟩
      | (none, w) => ⟨w, none, p.returned⟩
  | .boot os =>
    match run exec boot p.world os with
    | (some m, w) => ⟨w, m, p.returned⟩
    | (none, w) => ⟨w, none, p.returned⟩

/-- A run of the process. -/
def runs (p : Process ω μ κ α) (events : List (Event κ ο)) : Process ω μ κ α :=
  events.foldl (step exec boot code) p

/-- What one event does to the world. -/
def trailOf (p : Process ω μ κ α) : Event κ ο → List (ε × ο)
  | .call c os =>
    match p.memory with
    | some m => trail exec (code c m) p.world os
    | none => []
  | .boot os => trail exec boot p.world os

/-- **A condition on how the world answers**, event by event. -/
def Along (C : List (ε × ο) → Prop) : Process ω μ κ α → List (Event κ ο) → Prop
  | _, [] => True
  | p, event :: events => C (trailOf exec boot code p event) ∧
      Along C (step exec boot code p event) events

instance decidableAlong {C : List (ε × ο) → Prop} [hC : ∀ trail, Decidable (C trail)] :
    ∀ (p : Process ω μ κ α) (events : List (Event κ ο)), Decidable (Along exec boot code C p events)
  | _, [] => isTrue trivial
  | p, event :: events =>
    have := hC (trailOf exec boot code p event)
    have : Decidable (Along exec boot code C (step exec boot code p event) events) :=
      decidableAlong (step exec boot code p event) events
    instDecidableAnd

/-- **A condition on the calls**, each in the memory it finds. -/
def Meets (C : μ → κ → Prop) : Process ω μ κ α → List (Event κ ο) → Prop
  | _, [] => True
  | p, .call c os :: events => (∀ m ∈ p.memory, C m c) ∧
      Meets C (step exec boot code p (.call c os)) events
  | p, .boot os :: events => Meets C (step exec boot code p (.boot os)) events

instance decidableMeets {C : μ → κ → Prop} [hC : ∀ m c, Decidable (C m c)] :
    ∀ (p : Process ω μ κ α) (events : List (Event κ ο)), Decidable (Meets exec boot code C p events)
  | _, [] => isTrue trivial
  | p, .call c os :: events =>
    have : Decidable (∀ m ∈ p.memory, C m c) :=
      match p.memory with
      | none => isTrue fun m hm => by simp at hm
      | some m => match hC m c with
        | isTrue h => isTrue fun m' hm => by obtain rfl := Option.some.inj hm; exact h
        | isFalse h => isFalse fun hall => h (hall m rfl)
    have : Decidable (Meets exec boot code C (step exec boot code p (.call c os)) events) :=
      decidableMeets (step exec boot code p (.call c os)) events
    instDecidableAnd
  | p, .boot os :: events => decidableMeets (step exec boot code p (.boot os)) events

/-- `D` holds of the world, and `M` of the memory of a running process. -/
def Holds (D : List (κ × α) → ω → Prop) (M : List (κ × α) → ω → μ → Prop) (p : Process ω μ κ α) :
    Prop :=
  D p.returned p.world ∧ ∀ m, p.memory = some m → M p.returned p.world m

variable {exec boot code} {D : List (κ × α) → ω → Prop} {M : List (κ × α) → ω → μ → Prop}
  {C : List (ε × ο) → Prop}

/-- What every effect keeps, an event keeps, and so does a run. -/
theorem step_keeps {R : ω → ω → Prop} (hrefl : ∀ w, R w w)
    (htrans : ∀ {w w' w''}, R w w' → R w' w'' → R w w'') (hexec : ∀ o w e, R w (exec o w e).2)
    (p : Process ω μ κ α) (event : Event κ ο) : R p.world (step exec boot code p event).world := by
  rcases event with ⟨k, os⟩ | os
  · unfold step
    rcases p.memory with _ | m
    · exact hrefl p.world
    · have hrun := run_keeps hrefl htrans hexec (code k m) p.world os
      dsimp only
      rcases hr : run exec (code k m) p.world os with ⟨_ | ⟨a, m'⟩, w⟩
      · rw [hr] at hrun
        exact hrun
      · rw [hr] at hrun
        exact hrun
  · unfold step
    have hrun := run_keeps hrefl htrans hexec boot p.world os
    dsimp only
    rcases hr : run exec boot p.world os with ⟨_ | m, w⟩
    · rw [hr] at hrun
      exact hrun
    · rw [hr] at hrun
      exact hrun

theorem runs_keeps {R : ω → ω → Prop} (hrefl : ∀ w, R w w)
    (htrans : ∀ {w w' w''}, R w w' → R w' w'' → R w w'') (hexec : ∀ o w e, R w (exec o w e).2)
    (p : Process ω μ κ α) (events : List (Event κ ο)) : R p.world (runs exec boot code p events).world := by
  induction events generalizing p with
  | nil => exact hrefl p.world
  | cons event events ih => exact htrans (step_keeps hrefl htrans hexec p event) (ih _)

/-- **A call keeps the invariant**, if it is safe from the memory it finds, where the world answers as `C`
says. -/
theorem Holds.called (hdisk : ∀ past w m, M past w m → D past w) {p : Process ω μ κ α} (h : p.Holds D M)
    {c : κ} {os : List ο}
    (hcall : ∀ m, p.memory = some m → Safe (recording exec) (fun x => C x.2 → D p.returned x.1)
      (fun r x => C x.2 → M (p.returned ++ [(c, r.1)]) x.1 r.2) (code c m) (p.world, []))
    (hC : C (trailOf exec boot code p (.call c os))) :
    (step exec boot code p (.call c os)).Holds D M := by
  obtain ⟨world, memory, returned⟩ := p
  rcases memory with _ | m
  · exact h
  · obtain ⟨hret, hkill⟩ := (hcall m rfl).run_trail os
    have hstep : Process.step exec boot code ⟨world, some m, returned⟩ (.call c os) =
        match run exec (code c m) world os with
        | (some (a, m'), w) => ⟨w, some m', returned ++ [(c, a)]⟩
        | (none, w) => ⟨w, none, returned⟩ := rfl
    rw [hstep]
    rcases hr : run exec (code c m) world os with ⟨_ | ⟨a, m'⟩, w⟩
    · exact ⟨hkill w hr hC, fun m hm => by simp at hm⟩
    · have hM := hret (a, m') w hr hC
      refine ⟨hdisk _ _ _ hM, fun m'' h'' => ?_⟩
      obtain rfl := Option.some.inj h''
      exact hM

/-- **So does a start.** -/
theorem Holds.booted {p : Process ω μ κ α} {os : List ο}
    (hboot : Safe (recording exec) (fun x => C x.2 → D p.returned x.1)
      (fun m x => C x.2 → D p.returned x.1 ∧ ∀ m', m = some m' → M p.returned x.1 m') boot (p.world, []))
    (hC : C (trailOf exec boot code p (.boot os))) : (step exec boot code p (.boot os)).Holds D M := by
  obtain ⟨world, memory, returned⟩ := p
  obtain ⟨hret, hkill⟩ := hboot.run_trail os
  have hstep : Process.step exec boot code ⟨world, memory, returned⟩ (.boot os) =
      match run exec boot world os with
      | (some m, w) => ⟨w, m, returned⟩
      | (none, w) => ⟨w, none, returned⟩ := rfl
  rw [hstep]
  rcases hr : run exec boot world os with ⟨_ | m, w⟩
  · exact ⟨hkill w hr hC, fun m hm => by simp at hm⟩
  · exact hret m w hr hC

/-- **A condition on the events of a run**, each where it finds the process. -/
def Within (exec : ο → ω → (e : ε) → ρ e × ω) (boot : Prog ε ρ (Option μ))
    (code : κ → μ → Prog ε ρ (α × μ)) (C : Process ω μ κ α → Event κ ο → Prop) :
    Process ω μ κ α → List (Event κ ο) → Prop
  | _, [] => True
  | p, event :: events => C p event ∧ Within exec boot code C (step exec boot code p event) events

instance decidableWithin {C : Process ω μ κ α → Event κ ο → Prop} [hC : ∀ p event, Decidable (C p event)] :
    ∀ (p : Process ω μ κ α) (events : List (Event κ ο)), Decidable (Within exec boot code C p events)
  | _, [] => isTrue trivial
  | p, event :: events =>
    have := hC p event
    have : Decidable (Within exec boot code C (step exec boot code p event) events) :=
      decidableWithin (step exec boot code p event) events
    instDecidableAnd

/-- **The invariant of a run** whose events keep it where they meet the condition. -/
theorem Holds.within {C : Process ω μ κ α → Event κ ο → Prop}
    (hstep : ∀ p event, p.Holds D M → C p event → (step exec boot code p event).Holds D M)
    {p : Process ω μ κ α} (h : p.Holds D M) {events : List (Event κ ο)}
    (hC : Within exec boot code C p events) : (runs exec boot code p events).Holds D M := by
  induction events generalizing p with
  | nil => exact h
  | cons event events ih => exact ih (hstep p event h hC.1) hC.2

/-- **The invariant of a run** in which the world answers as `C` says. -/
theorem Holds.along (hdisk : ∀ past w m, M past w m → D past w)
    (hboot : ∀ past w, D past w →
      Safe (recording exec) (fun x => C x.2 → D past x.1)
        (fun m x => C x.2 → D past x.1 ∧ ∀ m', m = some m' → M past x.1 m') boot (w, []))
    (hcall : ∀ past w m c, M past w m →
      Safe (recording exec) (fun x => C x.2 → D past x.1)
        (fun r x => C x.2 → M (past ++ [(c, r.1)]) x.1 r.2) (code c m) (w, []))
    {p : Process ω μ κ α} (h : p.Holds D M) {events : List (Event κ ο)}
    (hC : Along exec boot code C p events) : (runs exec boot code p events).Holds D M := by
  induction events generalizing p with
  | nil => exact h
  | cons event events ih =>
    refine ih ?_ hC.2
    rcases event with ⟨c, os⟩ | os
    · exact h.called hdisk (fun m hm => hcall _ _ m c (h.2 m hm)) hC.1
    · exact Holds.booted (hboot _ _ h.1) hC.1

/-- **The invariant of a run**, whatever the world answers. -/
theorem Holds.runs (hdisk : ∀ past w m, M past w m → D past w)
    (hboot : ∀ past w, D past w →
      Safe exec (D past) (fun m w' => D past w' ∧ ∀ m', m = some m' → M past w' m') boot w)
    (hcall : ∀ past w m c, M past w m →
      Safe exec (D past) (fun r w' => M (past ++ [(c, r.1)]) w' r.2) (code c m) w)
    {p : Process ω μ κ α} (h : p.Holds D M) (events : List (Event κ ο)) :
    (runs exec boot code p events).Holds D M := by
  refine Holds.along (C := fun _ => True) hdisk ?_ ?_ h ?_
  · intro past w hw
    refine ((hboot past w hw).recorded []).weaken (fun x hx _ => hx.1) fun m x hx _ => hx.1
  · intro past w m c hm
    refine ((hcall past w m c hm).recorded []).weaken (fun x hx _ => hx.1) fun r x hx _ => hx.1
  · clear h
    induction events generalizing p with
    | nil => trivial
    | cons event events ih => exact ⟨trivial, ih⟩

/-- A run in two parts. -/
theorem runs_append (p : Process ω μ κ α) (events later : List (Event κ ο)) :
    Process.runs exec boot code p (events ++ later) =
      Process.runs exec boot code (Process.runs exec boot code p events) later :=
  List.foldl_append

theorem meets_append {C : μ → κ → Prop} {p : Process ω μ κ α} {events later : List (Event κ ο)} :
    Meets exec boot code C p (events ++ later) ↔ Meets exec boot code C p events ∧
      Meets exec boot code C (Process.runs exec boot code p events) later := by
  induction events generalizing p with
  | nil => exact ⟨fun h => ⟨trivial, h⟩, fun h => h.2⟩
  | cons event events ih =>
    rcases event with ⟨c, os⟩ | os
    · exact (and_congr_right fun _ => ih).trans and_assoc.symm
    · exact ih

/-- **The invariant of a run** whose calls meet the condition. -/
theorem Holds.meets {C : μ → κ → Prop} (hdisk : ∀ past w m, M past w m → D past w)
    (hboot : ∀ past w, D past w →
      Safe exec (D past) (fun m w' => D past w' ∧ ∀ m', m = some m' → M past w' m') boot w)
    (hcall : ∀ past w m c, M past w m → C m c →
      Safe exec (D past) (fun r w' => M (past ++ [(c, r.1)]) w' r.2) (code c m) w)
    {p : Process ω μ κ α} (h : p.Holds D M) {events : List (Event κ ο)}
    (hC : Meets exec boot code C p events) : (Process.runs exec boot code p events).Holds D M := by
  induction events generalizing p with
  | nil => exact h
  | cons event events ih =>
    rcases event with ⟨c, os⟩ | os
    · refine ih (h.called (C := fun _ => True) hdisk (fun m hm => ?_) trivial) hC.2
      have hsafe := hcall _ _ _ c (h.2 m hm) (hC.1 m hm)
      exact (hsafe.recorded []).weaken (fun x hx _ => hx.1) fun r x hx _ => hx.1
    · refine ih (Holds.booted (C := fun _ => True) ?_ trivial) hC
      exact ((hboot _ _ h.1).recorded []).weaken (fun x hx _ => hx.1) fun m x hx _ => hx.1

/-- **What every call returns** in a run whose calls meet the condition. -/
theorem returned_of_meets {C : μ → κ → Prop} {P : κ × α → Prop}
    (hcall : ∀ m w c, C m c → Safe exec (fun _ => True) (fun r _ => P (c, r.1)) (code c m) w)
    {p : Process ω μ κ α} (hp : ∀ y ∈ p.returned, P y) {events : List (Event κ ο)}
    (h : Meets exec boot code C p events) :
    ∀ y ∈ (Process.runs exec boot code p events).returned, P y := by
  induction events generalizing p with
  | nil => exact hp
  | cons event events ih =>
    rcases event with ⟨c, os⟩ | os
    · refine ih ?_ h.2
      obtain ⟨world, memory, returned⟩ := p
      rcases memory with _ | m
      · exact hp
      · have hret := ((hcall m world c (h.1 m rfl)).run os).1
        unfold Process.step
        dsimp only
        rcases hr : run exec (code c m) world os with ⟨_ | ⟨a, m'⟩, w⟩
        · exact hp
        · intro y hy
          rcases List.mem_append.mp hy with hy | hy
          · exact hp y hy
          · rw [List.mem_singleton.mp hy]
            exact hret _ _ hr
    · refine ih ?_ h
      obtain ⟨world, memory, returned⟩ := p
      unfold Process.step
      dsimp only
      rcases run exec boot world os with ⟨_ | m, w⟩
      · exact hp
      · exact hp

end Process

end Kmatrix.Lib.Crash
