import Kmatrix.Lib.Crash
import Mathlib.Logic.Function.Basic

/-! # Processes on one machine

Processes with numbers run programs against one world, such as a disk and what the kernel keeps. An
effect may depend on who has it. They take turns after every effect, start at any time, and die at any
time, when the kernel takes back what was theirs (`die`); a process whose program has returned dies too.

* `Fleet`: the world and the programs the processes still have to run. `Fleet.runs`: a run.
* `Outline`: the invariant of the world, what each process relies on, and what holds where an effect is
  about to be had. `Sound` is rely and guarantee for one program, from the state it finds.
* `Fleet.Good.runs`: the induction over runs. `Fleet.Good.pre`: what holds at an effect. -/

namespace Kmatrix.Lib.Processes

open Kmatrix.Lib.Crash

variable {ω ε : Type} {ρ : ε → Type} {α β ο : Type}

/-- **The world and the processes**, each with the rest of its program. -/
structure Fleet (ω ε : Type) (ρ : ε → Type) (α : Type) where
  world : ω
  procs : ℕ → Option (Prog ε ρ α)

inductive Event (ε : Type) (ρ : ε → Type) (α ο : Type) where
  | start (i : ℕ) (p : Prog ε ρ α)
  | step (i : ℕ) (o : ο)
  | die (i : ℕ)

section Runs
variable (exec : ℕ → ο → ω → (e : ε) → ρ e × ω) (die : ℕ → ω → ω)

/-- **One event.** A number that is in use is not given again. -/
def Fleet.step (f : Fleet ω ε ρ α) : Event ε ρ α ο → Fleet ω ε ρ α
  | .start i p =>
    match f.procs i with
    | none => ⟨f.world, Function.update f.procs i (some p)⟩
    | some _ => f
  | .step i o =>
    match f.procs i with
    | some (.act e next) =>
      ⟨(exec i o f.world e).2, Function.update f.procs i (some (next (exec i o f.world e).1))⟩
    | _ => f
  | .die i =>
    match f.procs i with
    | some _ => ⟨die i f.world, Function.update f.procs i none⟩
    | none => f

def Fleet.runs (f : Fleet ω ε ρ α) (events : List (Event ε ρ α ο)) : Fleet ω ε ρ α :=
  events.foldl (Fleet.step exec die) f

/-- No process runs yet. -/
def boot (w : ω) : Fleet ω ε ρ α := ⟨w, fun _ => none⟩

/-- The programs that are started satisfy `P`. -/
def Starts (P : Prog ε ρ α → Prop) (events : List (Event ε ρ α ο)) : Prop :=
  ∀ i p, Event.start i p ∈ events → P p

end Runs

/-- **A proof outline**: what holds of the world, what process `i` relies on when others move, and what
holds where it is about to have an effect. -/
structure Outline (ω ε : Type) where
  inv : ω → Prop
  rely : ℕ → ω → ω → Prop
  pre : ℕ → ε → ω → Prop
  refl : ∀ i w, rely i w w
  trans : ∀ {i w w' w''}, rely i w w' → rely i w' w'' → rely i w w''

/-- What process `i` may do to the world. -/
def Outline.Allows (outline : Outline ω ε) (i : ℕ) (w w' : ω) : Prop :=
  outline.inv w' ∧ ∀ j, j ≠ i → outline.rely j w w'

theorem Outline.Allows.trans {outline : Outline ω ε} {i : ℕ} {w w' w'' : ω} (h : outline.Allows i w w')
    (h' : outline.Allows i w' w'') : outline.Allows i w w'' :=
  ⟨h'.1, fun j hj => outline.trans (h.2 j hj) (h'.2 j hj)⟩

section Sound
variable (exec : ℕ → ο → ω → (e : ε) → ρ e × ω) (outline : Outline ω ε)

/-- **Soundness** of the program of process `i` from the world `w` on, with `Q` where it returns. -/
def Sound (i : ℕ) (Q : α → ω → Prop) : Prog ε ρ α → ω → Prop
  | .ret a, w => Q a w
  | .act e next, w => ∀ w', outline.rely i w w' → outline.inv w' → outline.pre i e w' ∧
      ∀ o, outline.Allows i w' (exec i o w' e).2 ∧
        Sound i Q (next (exec i o w' e).1) (exec i o w' e).2

variable {exec outline} {i : ℕ} {Q Q' : α → ω → Prop} {R : β → ω → Prop} {w : ω}

/-- **Composition.** -/
theorem sound_bind {p : Prog ε ρ α} {f : α → Prog ε ρ β} :
    Sound exec outline i R (p.bind f) w ↔
      Sound exec outline i (fun a w' => Sound exec outline i R (f a) w') p w := by
  induction p generalizing w with
  | ret a => exact Iff.rfl
  | act e next ih =>
    refine forall_congr' fun w' => forall_congr' fun _ => forall_congr' fun _ => ?_
    exact and_congr_right fun _ => forall_congr' fun o => and_congr_right fun _ => ih _

theorem Sound.mono {p : Prog ε ρ α} (h : Sound exec outline i Q p w) (hQ : ∀ a w', Q a w' → Q' a w') :
    Sound exec outline i Q' p w := by
  induction p generalizing w with
  | ret a => exact hQ a w h
  | act e next ih =>
    intro w' hw hinv
    obtain ⟨hpre, hstep⟩ := h w' hw hinv
    exact ⟨hpre, fun o => ⟨(hstep o).1, ih _ (hstep o).2⟩⟩

/-- **An effect**: from the world it finds, which is related to the one before by what others do. -/
theorem sound_act {e : ε} {next : ρ e → Prog ε ρ α} (I : ω → Prop)
    (hrely : ∀ w', outline.rely i w w' → outline.inv w' → I w')
    (h : ∀ w', outline.inv w' → I w' → outline.pre i e w' ∧
      ∀ o, outline.Allows i w' (exec i o w' e).2 ∧
        Sound exec outline i Q (next (exec i o w' e).1) (exec i o w' e).2) :
    Sound exec outline i Q (.act e next) w :=
  fun w' hw hinv => h w' hinv (hrely w' hw hinv)

/-- What the others do leaves a program sound, except where it has returned. -/
theorem Sound.rely {p : Prog ε ρ α} (hQ : ∀ a w w', Q a w → outline.rely i w w' → Q a w')
    {w' : ω} (h : Sound exec outline i Q p w) (hw : outline.rely i w w') :
    Sound exec outline i Q p w' := by
  rcases p with a | ⟨e, next⟩
  · exact hQ a w w' h hw
  · exact fun w'' hw' => h w'' (outline.trans hw hw')

/-! ### Programs with memory and errors -/

section Act
variable {σ : Type} {s : σ} {Q : Except String α × σ → ω → Prop} {R : Except String β × σ → ω → Prop}

/-- What is asked of the first part of a sequence. -/
def Then (exec : ℕ → ο → ω → (e : ε) → ρ e × ω) (outline : Outline ω ε) (i : ℕ)
    (R : Except String β × σ → ω → Prop) (f : α → Act σ ε ρ β) (r : Except String α × σ) (w : ω) :
    Prop :=
  match r with
  | (.ok a, s) => Sound exec outline i R ((f a).run s) w
  | (.error e, s) => R (.error e, s) w

@[simp] theorem sound_pure {a : α} :
    Sound exec outline i Q ((pure a : Act σ ε ρ α).run s) w ↔ Q (.ok a, s) w := Iff.rfl

@[simp] theorem sound_fail {e : String} :
    Sound exec outline i Q ((Act.fail e : Act σ ε ρ α).run s) w ↔ Q (.error e, s) w := Iff.rfl

theorem sound_act_bind {m : Act σ ε ρ α} {f : α → Act σ ε ρ β} :
    Sound exec outline i R ((m >>= f).run s) w ↔
      Sound exec outline i (Then exec outline i R f) (m.run s) w := by
  refine sound_bind.trans (iff_of_eq (congrArg (fun P => Sound exec outline i P (m.run s) w) ?_))
  funext r w'
  obtain ⟨r | a, s'⟩ := r
  · rfl
  · rfl

/-- What is asked where a program succeeds; where it fails it is over. -/
def Ok (I : α → σ → ω → Prop) (r : Except String α × σ) (w : ω) : Prop := ∀ a, r.1 = .ok a → I a r.2 w

theorem ok_error {I : α → σ → ω → Prop} (e : String) (s : σ) (w : ω) : Ok I (.error e, s) w := by
  rintro a ⟨⟩

theorem ok_ok {I : α → σ → ω → Prop} {a : α} {s : σ} {w : ω} (h : I a s w) : Ok I (.ok a, s) w := by
  rintro _ ⟨⟩
  exact h

/-- **A sequence** whose first part fails or leaves what the rest needs. -/
theorem sound_then {m : Act σ ε ρ α} {f : α → Act σ ε ρ β} {I : α → σ → ω → Prop}
    {J : β → σ → ω → Prop} (hm : Sound exec outline i (Ok I) (m.run s) w)
    (hf : ∀ a s' w', I a s' w' → Sound exec outline i (Ok J) ((f a).run s') w') :
    Sound exec outline i (Ok J) ((m >>= f).run s) w := by
  refine sound_act_bind.mpr (hm.mono ?_)
  rintro ⟨e | a, s'⟩ w' h
  · exact ok_error e s' w'
  · exact hf a s' w' (h a rfl)

end Act

end Sound

/-! ### Runs -/

section Adequacy
variable {exec : ℕ → ο → ω → (e : ε) → ρ e × ω} {die : ℕ → ω → ω} {outline : Outline ω ε}

/-- Every process is where its program is sound. -/
structure Fleet.Good (exec : ℕ → ο → ω → (e : ε) → ρ e × ω) (outline : Outline ω ε)
    (f : Fleet ω ε ρ α) : Prop where
  inv : outline.inv f.world
  sound : ∀ i p, f.procs i = some p → Sound exec outline i (fun _ _ => True) p f.world

/-- Process `i` moves, and everyone else stays sound. -/
theorem Fleet.Good.moved {f : Fleet ω ε ρ α} (h : f.Good exec outline) {i : ℕ} {w : ω}
    (hw : outline.Allows i f.world w) {q : Option (Prog ε ρ α)}
    (hq : ∀ p, q = some p → Sound exec outline i (fun _ _ => True) p w) :
    (Fleet.mk w (Function.update f.procs i q)).Good exec outline where
  inv := hw.1
  sound j p hp := by
    dsimp only at hp ⊢
    rw [Function.update_apply] at hp
    by_cases hj : j = i
    · rw [if_pos hj] at hp
      rw [hj]
      exact hq p hp
    · rw [if_neg hj] at hp
      exact (h.sound j p hp).rely (fun _ _ _ _ _ => trivial) (hw.2 j hj)

variable {P : Prog ε ρ α → Prop}

theorem Fleet.Good.step (hdie : ∀ i w, outline.inv w → outline.Allows i w (die i w))
    (hstart : ∀ i p w, P p → outline.inv w → Sound exec outline i (fun _ _ => True) p w)
    {f : Fleet ω ε ρ α} (h : f.Good exec outline) {event : Event ε ρ α ο}
    (hevent : ∀ i p, event = .start i p → P p) : (f.step exec die event).Good exec outline := by
  rcases event with ⟨i, p⟩ | ⟨i, o⟩ | i
  · rcases hi : f.procs i with _ | q
    · simp only [Fleet.step, hi]
      refine h.moved ⟨h.inv, fun j _ => outline.refl j f.world⟩ fun p' hp' => ?_
      rw [← Option.some.inj hp']
      exact hstart i p f.world (hevent i p rfl) h.inv
    · simp only [Fleet.step, hi]
      exact h
  · rcases hi : f.procs i with _ | _ | ⟨e, next⟩
    · simp only [Fleet.step, hi]
      exact h
    · simp only [Fleet.step, hi]
      exact h
    · simp only [Fleet.step, hi]
      obtain ⟨-, hstep⟩ := h.sound i _ hi f.world (outline.refl i f.world) h.inv
      refine h.moved (hstep o).1 fun p' hp' => ?_
      rw [← Option.some.inj hp']
      exact (hstep o).2
  · rcases hi : f.procs i with _ | q
    · simp only [Fleet.step, hi]
      exact h
    · simp only [Fleet.step, hi]
      exact h.moved (hdie i f.world h.inv) fun p' hp' => by cases hp'

/-- **The invariant of a run.** -/
theorem Fleet.Good.runs (hdie : ∀ i w, outline.inv w → outline.Allows i w (die i w))
    (hstart : ∀ i p w, P p → outline.inv w → Sound exec outline i (fun _ _ => True) p w)
    {f : Fleet ω ε ρ α} (h : f.Good exec outline) {events : List (Event ε ρ α ο)}
    (hevents : Starts P events) : (f.runs exec die events).Good exec outline := by
  induction events generalizing f with
  | nil => exact h
  | cons event events ih =>
    refine ih (h.step hdie hstart ?_) fun i p hp => hevents i p (List.mem_cons_of_mem _ hp)
    rintro i p rfl
    exact hevents i p List.mem_cons_self

/-- **What holds where an effect is about to be had.** -/
theorem Fleet.Good.pre {f : Fleet ω ε ρ α} (h : f.Good exec outline) {i : ℕ} {e : ε}
    {next : ρ e → Prog ε ρ α} (hi : f.procs i = some (.act e next)) : outline.pre i e f.world :=
  (h.sound i _ hi f.world (outline.refl i f.world) h.inv).1

end Adequacy

/-! ### What is held is held by somebody -/

section Held
variable {exec : ℕ → ο → ω → (e : ε) → ρ e × ω} {die : ℕ → ω → ω} {R : ω → ℕ → Prop}

/-- **What dies with its process** is held by a process that is there. -/
theorem runs_held (hexec : ∀ i o w e j, R (exec i o w e).2 j → R w j ∨ j = i)
    (hdie : ∀ i w j, R (die i w) j → R w j ∧ j ≠ i) {f : Fleet ω ε ρ α}
    (h : ∀ j, R f.world j → f.procs j ≠ none) (events : List (Event ε ρ α ο)) (j : ℕ)
    (hj : R (f.runs exec die events).world j) : (f.runs exec die events).procs j ≠ none := by
  induction events generalizing f with
  | nil => exact h j hj
  | cons event events ih =>
    refine ih (fun j hj => ?_) hj
    rcases event with ⟨i, p⟩ | ⟨i, o⟩ | i
    · rcases hi : f.procs i with _ | q
      · simp only [Fleet.step, hi] at hj ⊢
        rw [Function.update_apply]
        split_ifs
        · simp
        · exact h j hj
      · simp only [Fleet.step, hi] at hj ⊢
        exact h j hj
    · rcases hi : f.procs i with _ | _ | ⟨e, next⟩
      · simp only [Fleet.step, hi] at hj ⊢
        exact h j hj
      · simp only [Fleet.step, hi] at hj ⊢
        exact h j hj
      · simp only [Fleet.step, hi] at hj ⊢
        rw [Function.update_apply]
        split_ifs with hji
        · simp
        · exact h j ((hexec i o f.world e j hj).resolve_right hji)
    · rcases hi : f.procs i with _ | q
      · simp only [Fleet.step, hi] at hj ⊢
        exact h j hj
      · simp only [Fleet.step, hi] at hj ⊢
        obtain ⟨hwas, hne⟩ := hdie i f.world j hj
        rw [Function.update_apply, if_neg hne]
        exact h j hwas

end Held

/-! ### What a program comes to -/

section Comes
variable (exec : ο → ω → (e : ε) → ρ e × ω)

/-- **The program comes to an effect with `P`**, whatever the outcomes. -/
def Comes (P : ε → Prop) : Prog ε ρ α → ω → Prop
  | .ret _, _ => False
  | .act e next, w => P e ∨ ∀ o, Comes P (next (exec o w e).1) (exec o w e).2

variable {exec} {P : ε → Prop}

theorem comes_bind {D : ω → Prop} {p : Prog ε ρ α} {f : α → Prog ε ρ β} {w : ω}
    (h : Safe exec D (fun a w' => Comes exec P (f a) w') p w) : Comes exec P (p.bind f) w := by
  induction p generalizing w with
  | ret a => exact h
  | act e next ih => exact Or.inr fun o => ih _ (h.2 o)

/-- **A process that is left to itself comes there.** -/
theorem comes_runs (each : ℕ → ο → ω → (e : ε) → ρ e × ω) (die : ℕ → ω → ω) (good : ο → Prop) {i : ℕ}
    {p : Prog ε ρ α} {f : Fleet ω ε ρ α} (hp : f.procs i = some p)
    (h : Comes (fun (o : { o // good o }) => each i o.val) P p f.world) (os : ℕ → ο)
    (hos : ∀ n, good (os n)) : ∃ n e next, P e ∧
      (f.runs each die ((List.range n).map fun m => .step i (os m))).procs i = some (.act e next) := by
  induction p generalizing f os with
  | ret a => exact absurd h (by simp [Comes])
  | act e next ih =>
    rcases h with h | h
    · exact ⟨0, e, next, h, hp⟩
    · have hstep : f.step each die (.step i (os 0)) = ⟨(each i (os 0) f.world e).2,
          Function.update f.procs i (some (next (each i (os 0) f.world e).1))⟩ := by
        simp only [Fleet.step, hp]
      have hnext := h ⟨os 0, hos 0⟩
      obtain ⟨n, e', next', hP, hn⟩ := ih (each i (os 0) f.world e).1
        (f := f.step each die (.step i (os 0))) (by rw [hstep]; simp) (by rw [hstep]; exact hnext)
        (fun m => os (m + 1)) fun m => hos (m + 1)
      refine ⟨n + 1, e', next', hP, ?_⟩
      rw [List.range_succ_eq_map, List.map_cons, List.map_map]
      exact hn

end Comes

end Kmatrix.Lib.Processes
