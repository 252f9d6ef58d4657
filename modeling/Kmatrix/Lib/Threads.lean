import Mathlib.Data.List.Basic
import Mathlib.Data.List.InsertIdx
import Mathlib.Data.List.Pairwise
import Mathlib.Tactic.Common

/-! # Threads that share a locked state

A procedure takes the lock, reads what it guards, writes, drops the lock, and goes on, or asks a server
without the lock; between two sections anything may happen. Of the writes of a section any number may
succeed, and how the procedure goes on depends on whether all did.

* `Proc`: a procedure. `Pool`: the state and the procedures that are running, each with its role.
* `Pool.step`: a section of one of them, an answer to one of them, one gives up, one more is started, the
  state changes by itself, or all end.
* `Sound`: rely and guarantee. Under what the others may do to the state (`rely`), every section keeps
  the invariant and does to the others only what they allow. `Sane.runs` is the induction over runs. -/

namespace Kmatrix.Lib.Threads

/-- **A procedure**: done, or a locked section and what follows it, or a request and what follows its
answer. -/
inductive Proc (σ ω ι : Type) (ρ : ι → Type) : Type where
  | done
  | locked (writes : σ → List ω) (next : σ → Bool → Proc σ ω ι ρ)
  | ask (q : ι) (next : ρ q → Proc σ ω ι ρ)

/-- **The state and the running procedures**, each with its role. -/
structure Pool (σ ω ι : Type) (ρ : ι → Type) (κ : Type) where
  state : σ
  procs : List (κ × Proc σ ω ι ρ)

/-- What happens next. A section is run with the outcomes of its writes: the others fail. -/
inductive Event (σ ω ι : Type) (ρ : ι → Type) (κ ο : Type) where
  | run (i : ℕ) (os : List ο)
  | answer (i : ℕ) (reply : (q : ι) → ρ q)
  | fail (i : ℕ)
  | start (k : κ) (p : Proc σ ω ι ρ)
  | change (s : σ)
  | kill

section Steps
variable {σ ω ι : Type} {ρ : ι → Type} {κ ο : Type}

namespace Proc

/-- A section that only reads. -/
def read (next : σ → Proc σ ω ι ρ) : Proc σ ω ι ρ := locked (fun _ => []) fun s _ => next s

/-- A section that writes without looking, and gives up where a write fails. -/
def write (ops : List ω) (next : Proc σ ω ι ρ) : Proc σ ω ι ρ :=
  locked (fun _ => ops) fun _ ok => if ok then next else done

/-- **What a procedure does**: every section of it writes only `good` ones and every request is a `fine`
one, whatever was read and answered. -/
def Only (good : ω → Prop) (fine : ι → Prop) : Proc σ ω ι ρ → Prop
  | done => True
  | locked writes next => ∀ s, (∀ w ∈ writes s, good w) ∧ ∀ ok, Only good fine (next s ok)
  | ask q next => fine q ∧ ∀ r, Only good fine (next r)

theorem Only.mono {good good' : ω → Prop} {fine fine' : ι → Prop} (h : ∀ w, good w → good' w)
    (h' : ∀ q, fine q → fine' q) {p : Proc σ ω ι ρ} (hp : p.Only good fine) : p.Only good' fine' := by
  induction p with
  | done => trivial
  | locked writes next ih =>
    exact fun s => ⟨fun w hw => h w ((hp s).1 w hw), fun ok => ih s ok ((hp s).2 ok)⟩
  | ask q next ih => exact ⟨h' q hp.1, fun r => ih r (hp.2 r)⟩

theorem only_read {good : ω → Prop} {fine : ι → Prop} {next : σ → Proc σ ω ι ρ}
    (h : ∀ s, (next s).Only good fine) : (read next).Only good fine :=
  fun s => ⟨fun _ hw => absurd hw List.not_mem_nil, fun _ => h s⟩

theorem only_write {good : ω → Prop} {fine : ι → Prop} {ops : List ω} {next : Proc σ ω ι ρ}
    (hops : ∀ w ∈ ops, good w) (h : next.Only good fine) : (write ops next).Only good fine := by
  refine fun s => ⟨hops, fun ok => ?_⟩
  rcases ok with _ | _
  · trivial
  · exact h

/-- **The procedure over a larger state**, whose writes are those of the smaller among others. -/
def lift {σ' ω' : Type} (f : σ' → σ) (g : ω → ω') : Proc σ ω ι ρ → Proc σ' ω' ι ρ
  | done => done
  | locked writes next =>
    locked (fun s => (writes (f s)).map g) fun s ok => lift f g (next (f s) ok)
  | ask q next => ask q fun r => lift f g (next r)

theorem Only.lift {σ' ω' : Type} {f : σ' → σ} {g : ω → ω'} {good : ω → Prop} {good' : ω' → Prop}
    {fine : ι → Prop} (h : ∀ w, good w → good' (g w)) {p : Proc σ ω ι ρ} (hp : p.Only good fine) :
    (p.lift f g).Only good' fine := by
  induction p with
  | done => trivial
  | locked writes next ih =>
    refine fun s => ⟨fun w' hw' => ?_, fun ok => ih _ ok ((hp (f s)).2 ok)⟩
    obtain ⟨w, hw, rfl⟩ := List.mem_map.mp hw'
    exact h w ((hp (f s)).1 w hw)
  | ask q next ih => exact ⟨hp.1, fun r => ih r (hp.2 r)⟩

/-- **The procedure with what its writes follow**: each is paired with the last request before it. -/
def after (q : Option ι) : Proc σ ω ι ρ → Proc σ (Option ι × ω) ι ρ
  | done => done
  | locked writes next => locked (fun s => (writes s).map (Prod.mk q)) fun s ok => after q (next s ok)
  | ask q' next => ask q' fun r => after (some q') (next r)

theorem after_read (q : Option ι) (next : σ → Proc σ ω ι ρ) :
    (read next).after q = read fun s => (next s).after q := rfl

theorem after_write (q : Option ι) (ops : List ω) (next : Proc σ ω ι ρ) :
    (write ops next).after q = write (ops.map (Prod.mk q)) (next.after q) := by
  have hnext : (fun (_ : σ) ok => after q (if ok = true then next else done)) =
      fun _ ok => if ok = true then next.after q else done := by
    funext _ ok
    rcases ok with _ | _ <;> rfl
  exact congrArg (locked fun _ => ops.map (Prod.mk q)) hnext

theorem Only.after {good : ω → Prop} {fine : ι → Prop} {p : Proc σ ω ι ρ} (hp : p.Only good fine)
    (q : Option ι) : (p.after q).Only (fun w => good w.2) fine := by
  induction p generalizing q with
  | done => trivial
  | locked writes next ih =>
    refine fun s => ⟨fun w hw => ?_, fun ok => ih s ok ((hp s).2 ok) q⟩
    obtain ⟨w', hw', rfl⟩ := List.mem_map.mp hw
    exact (hp s).1 w' hw'
  | ask q' next ih => exact ⟨hp.1, fun r => ih r (hp.2 r) (some q')⟩

/-- Without the pairs it is the procedure again. -/
theorem lift_after (p : Proc σ ω ι ρ) (q : Option ι) : (p.after q).lift id Prod.snd = p := by
  induction p generalizing q with
  | done => rfl
  | locked writes next ih =>
    have hwrites : (fun s => ((writes s).map (Prod.mk q)).map Prod.snd) = writes := by
      funext s
      rw [List.map_map]
      exact List.map_id _
    have hnext : (fun s ok => ((next s ok).after q).lift id Prod.snd) = next := by
      funext s ok
      exact ih s ok q
    calc ((locked writes next).after q).lift id Prod.snd
        = locked (fun s => ((writes s).map (Prod.mk q)).map Prod.snd)
            (fun s ok => ((next s ok).after q).lift id Prod.snd) := rfl
      _ = locked writes next := by rw [hwrites, hnext]
  | ask q' next ih =>
    have hnext : (fun r => ((next r).after (some q')).lift id Prod.snd) = next := by
      funext r
      exact ih r (some q')
    calc ((ask q' next).after q).lift id Prod.snd
        = ask q' (fun r => ((next r).after (some q')).lift id Prod.snd) := rfl
      _ = ask q' next := by rw [hnext]

end Proc

/-- The writes that have an outcome are carried out. -/
def carry (exec : ο → σ → ω → σ) (s : σ) (ws : List ω) (os : List ο) : σ :=
  (ws.zip os).foldl (fun s p => exec p.2 s p.1) s

theorem carry_append (exec : ο → σ → ω → σ) (s : σ) (ws ws' : List ω) (os : List ο) :
    carry exec s (ws ++ ws') os = carry exec (carry exec s ws os) ws' (os.drop ws.length) := by
  induction ws generalizing s os with
  | nil => rfl
  | cons w ws ih =>
    rcases os with _ | ⟨o, os⟩
    · simp [carry]
    · simpa [carry] using ih (exec o s w) os

/-- The `i`-th procedure has become `q`. -/
def put (procs : List (κ × Proc σ ω ι ρ)) (i : ℕ) (k : κ) (q : Proc σ ω ι ρ) :
    List (κ × Proc σ ω ι ρ) :=
  match q with
  | .done => procs.eraseIdx i
  | q => procs.set i (k, q)

variable (exec : ο → σ → ω → σ) (note : (q : ι) → ρ q → σ → σ)

/-- **One step**; `note` is what the server does to the state when it answers. -/
def Pool.step (p : Pool σ ω ι ρ κ) : Event σ ω ι ρ κ ο → Pool σ ω ι ρ κ
  | .run i os =>
    match p.procs[i]? with
    | some (k, .locked writes next) =>
      ⟨carry exec p.state (writes p.state) os,
        put p.procs i k (next p.state ((writes p.state).length ≤ os.length))⟩
    | _ => p
  | .answer i reply =>
    match p.procs[i]? with
    | some (k, .ask q next) => ⟨note q (reply q) p.state, put p.procs i k (next (reply q))⟩
    | _ => p
  | .fail i => ⟨p.state, p.procs.eraseIdx i⟩
  | .start k q => ⟨p.state, p.procs ++ [(k, q)]⟩
  | .change s => ⟨s, p.procs⟩
  | .kill => ⟨p.state, []⟩

def Pool.runs (p : Pool σ ω ι ρ κ) (events : List (Event σ ω ι ρ κ ο)) : Pool σ ω ι ρ κ :=
  events.foldl (Pool.step exec note) p

/-! ### Writes that are paired with something -/

section Paired
variable {τ : Type} {exec note}

/-- The pool without the pairs. -/
def Pool.unpaired (p : Pool σ (τ × ω) ι ρ κ) : Pool σ ω ι ρ κ :=
  ⟨p.state, p.procs.map fun x => (x.1, x.2.lift id Prod.snd)⟩

def Event.unpaired : Event σ (τ × ω) ι ρ κ ο → Event σ ω ι ρ κ ο
  | .run i os => .run i os
  | .answer i reply => .answer i reply
  | .fail i => .fail i
  | .start k p => .start k (p.lift id Prod.snd)
  | .change s => .change s
  | .kill => .kill

theorem carry_unpaired (s : σ) (ws : List (τ × ω)) (os : List ο) :
    carry exec s (ws.map Prod.snd) os = carry (fun o s w => exec o s w.2) s ws os := by
  unfold carry
  rw [List.zip_map_left, List.foldl_map]
  rfl

theorem put_unpaired (procs : List (κ × Proc σ (τ × ω) ι ρ)) (i : ℕ) (k : κ) (q : Proc σ (τ × ω) ι ρ) :
    put (procs.map fun x => (x.1, x.2.lift id Prod.snd)) i k (q.lift id Prod.snd) =
      (put procs i k q).map fun x => (x.1, x.2.lift id Prod.snd) := by
  rcases q with _ | ⟨writes, next⟩ | ⟨r, next⟩
  · simp only [put, Proc.lift, List.eraseIdx_map]
  · simp only [put, Proc.lift, List.map_set]
  · simp only [put, Proc.lift, List.map_set]

theorem step_unpaired (p : Pool σ (τ × ω) ι ρ κ) (e : Event σ (τ × ω) ι ρ κ ο) :
    (p.step (fun o s w => exec o s w.2) note e).unpaired = p.unpaired.step exec note e.unpaired := by
  rcases e with ⟨i, os⟩ | ⟨i, reply⟩ | i | ⟨k, q⟩ | s | _
  · simp only [Pool.step, Event.unpaired, Pool.unpaired, List.getElem?_map]
    rcases p.procs[i]? with _ | ⟨k, _ | ⟨writes, next⟩ | ⟨r, next⟩⟩
    · rfl
    · rfl
    · simp only [Option.map_some, Proc.lift, id_eq, carry_unpaired, List.length_map, ← put_unpaired]
    · rfl
  · simp only [Pool.step, Event.unpaired, Pool.unpaired, List.getElem?_map]
    rcases p.procs[i]? with _ | ⟨k, _ | ⟨writes, next⟩ | ⟨r, next⟩⟩
    · rfl
    · rfl
    · rfl
    · simp only [Option.map_some, Proc.lift, ← put_unpaired]
  · simp [Pool.step, Event.unpaired, Pool.unpaired, List.eraseIdx_map]
  · simp [Pool.step, Event.unpaired, Pool.unpaired]
  · rfl
  · rfl

/-- **A run of the paired procedures is a run of the procedures.** -/
theorem runs_unpaired (p : Pool σ (τ × ω) ι ρ κ) (events : List (Event σ (τ × ω) ι ρ κ ο)) :
    (p.runs (fun o s w => exec o s w.2) note events).unpaired =
      p.unpaired.runs exec note (events.map Event.unpaired) := by
  induction events generalizing p with
  | nil => rfl
  | cons e events ih =>
    calc (p.runs (fun o s w => exec o s w.2) note (e :: events)).unpaired
        = (p.step (fun o s w => exec o s w.2) note e).unpaired.runs exec note
            (events.map Event.unpaired) := ih _
      _ = p.unpaired.runs exec note ((e :: events).map Event.unpaired) := by
        rw [step_unpaired]
        rfl

end Paired

end Steps

/-- **What may happen**: what a section may write, what the server may answer, what may be started
beside what is running, and how the state may change by itself. -/
structure Rules (σ ω ι : Type) (ρ : ι → Type) (κ : Type) where
  sections : σ → List ω → Prop
  answers : σ → (q : ι) → ρ q → Prop
  starts : Pool σ ω ι ρ κ → κ → Proc σ ω ι ρ → Prop
  changes : σ → σ → Prop

section Legal
variable {σ ω ι : Type} {ρ : ι → Type} {κ ο : Type} (rules : Rules σ ω ι ρ κ)

/-- The event may happen here. -/
def Pool.Legal (p : Pool σ ω ι ρ κ) : Event σ ω ι ρ κ ο → Prop
  | .run i _ => ∀ k writes next, p.procs[i]? = some (k, .locked writes next) →
      rules.sections p.state (writes p.state)
  | .fail _ => True
  | .answer i reply => ∀ k q next, p.procs[i]? = some (k, .ask q next) →
      rules.answers p.state q (reply q)
  | .start k q => rules.starts p k q
  | .change s => rules.changes p.state s
  | .kill => True

variable (exec : ο → σ → ω → σ) (note : (q : ι) → ρ q → σ → σ)

/-- **A run that may happen.** -/
def Pool.Lawful : Pool σ ω ι ρ κ → List (Event σ ω ι ρ κ ο) → Prop
  | _, [] => True
  | p, event :: events => p.Legal rules event ∧ Pool.Lawful (p.step exec note event) events

end Legal

/-! ### Rely and guarantee -/

section Guarantee
variable {σ ω ι : Type} {ρ : ι → Type} {κ ο : Type} (rules : Rules σ ω ι ρ κ)
  (exec : ο → σ → ω → σ) (note : (q : ι) → ρ q → σ → σ)

/-- **A proof outline** for the procedures: the invariant of the state, what each role lets the others do
to it, and which roles run beside each other. -/
structure Outline (σ κ : Type) where
  inv : σ → Prop
  rely : κ → σ → σ → Prop
  beside : κ → κ → Prop
  refl : ∀ k s, rely k s s
  trans : ∀ {k s s' s''}, rely k s s' → rely k s' s'' → rely k s s''
  symm : ∀ {k k'}, beside k k' → beside k' k

/-- What a procedure of role `k` may do to the state. -/
def Outline.Allows (outline : Outline σ κ) (k : κ) (s s' : σ) : Prop :=
  outline.inv s' ∧ ∀ k', outline.beside k k' → outline.rely k' s s'

theorem Outline.Allows.trans {outline : Outline σ κ} {k : κ} {s s' s'' : σ} (h : outline.Allows k s s')
    (h' : outline.Allows k s' s'') : outline.Allows k s s'' :=
  ⟨h'.1, fun k' hk' => outline.trans (h.2 k' hk') (h'.2 k' hk')⟩

variable (outline : Outline σ κ)

/-- **Soundness** of a procedure of role `k` from the state `s` on. -/
def Sound (k : κ) : Proc σ ω ι ρ → σ → Prop
  | .done, _ => True
  | .locked writes next, s => ∀ s', outline.rely k s s' → outline.inv s' →
      rules.sections s' (writes s') → ∀ os,
      outline.Allows k s' (carry exec s' (writes s') os) ∧
        Sound k (next s' ((writes s').length ≤ os.length)) (carry exec s' (writes s') os)
  | .ask q next, s => ∀ s', outline.rely k s s' → outline.inv s' → ∀ r, rules.answers s' q r →
      outline.Allows k s' (note q r s') ∧ Sound k (next r) (note q r s')

variable {rules exec note outline}

/-- What the others do leaves a procedure sound. -/
theorem Sound.rely {k : κ} {p : Proc σ ω ι ρ} {s s' : σ} (h : Sound rules exec note outline k p s)
    (hs : outline.rely k s s') : Sound rules exec note outline k p s' := by
  rcases p with _ | ⟨writes, next⟩ | ⟨q, next⟩
  · trivial
  · exact fun s'' hs'' => h s'' (outline.trans hs hs'')
  · exact fun s'' hs'' => h s'' (outline.trans hs hs'')

/-- **A section that only reads.** -/
theorem sound_read {k : κ} {next : σ → Proc σ ω ι ρ} {s : σ}
    (h : ∀ s', outline.rely k s s' → outline.inv s' → Sound rules exec note outline k (next s') s') :
    Sound rules exec note outline k (.read next) s := by
  intro s' hs' hinv _ os
  have hcarry : carry exec s' [] os = s' := rfl
  dsimp only
  rw [hcarry]
  exact ⟨⟨hinv, fun k' _ => outline.refl k' s'⟩, h s' hs' hinv⟩

/-- **Writes that each are allowed are allowed together**; `side` is what else they keep. -/
theorem allows_carry {k : κ} {ops : List ω} {s : σ} (side : σ → Prop) (hinv : outline.inv s)
    (hside : side s) (hops : ∀ op ∈ ops, ∀ o s', outline.inv s' → side s' →
      outline.Allows k s' (exec o s' op) ∧ side (exec o s' op)) (os : List ο) :
    outline.Allows k s (carry exec s ops os) ∧ side (carry exec s ops os) := by
  unfold carry
  have hmem : ∀ p ∈ ops.zip os, p.1 ∈ ops := fun p hp => (List.of_mem_zip hp).1
  revert hmem
  generalize ops.zip os = ps
  induction ps generalizing s with
  | nil => exact fun _ => ⟨⟨hinv, fun k' _ => outline.refl k' s⟩, hside⟩
  | cons p ps ih =>
    intro hmem
    obtain ⟨⟨hinv', hrely'⟩, hside'⟩ := hops p.1 (hmem p List.mem_cons_self) p.2 s hinv hside
    obtain ⟨⟨hinv'', hrely''⟩, hside''⟩ :=
      ih hinv' hside' fun q hq => hmem q (List.mem_cons_of_mem _ hq)
    exact ⟨⟨hinv'', fun k' hk' => outline.trans (hrely' k' hk') (hrely'' k' hk')⟩, hside''⟩

/-- A single write, of a section that succeeds. -/
theorem carry_single {w : ω} {os : List ο} (h : [w].length ≤ os.length) (s : σ) :
    ∃ o, carry exec s [w] os = exec o s w := by
  rcases os with _ | ⟨o, os⟩
  · simp at h
  · exact ⟨o, by simp [carry]⟩

/-- **A section that writes.** -/
theorem sound_write {k : κ} {ops : List ω} {next : Proc σ ω ι ρ} {s : σ}
    (hallows : ∀ s', outline.rely k s s' → outline.inv s' → rules.sections s' ops → ∀ os : List ο,
      outline.Allows k s' (carry exec s' ops os))
    (h : ∀ s', outline.rely k s s' → outline.inv s' → ∀ os : List ο, ops.length ≤ os.length →
      Sound rules exec note outline k next (carry exec s' ops os)) :
    Sound rules exec note outline k (.write ops next) s := by
  intro s' hs' hinv hsections os
  refine ⟨hallows s' hs' hinv hsections os, ?_⟩
  dsimp only
  by_cases hall : ops.length ≤ os.length
  · rw [decide_eq_true hall, if_pos rfl]
    exact h s' hs' hinv os hall
  · rw [decide_eq_false hall]
    exact trivial

/-- **A section of a single write**, that gives up where it fails. -/
theorem sound_one {k : κ} {w : ω} {next : Proc σ ω ι ρ} {s : σ}
    (h : ∀ s', outline.rely k s s' → outline.inv s' → ∀ o, outline.Allows k s' (exec o s' w) ∧
      Sound rules exec note outline k next (exec o s' w)) :
    Sound rules exec note outline k (.write [w] next) s := by
  refine sound_write (fun s' hs' hinv _ os => ?_) fun s' hs' hinv os hall => ?_
  · rcases os with _ | ⟨o, os⟩
    · exact ⟨hinv, fun k' _ => outline.refl k' s'⟩
    · exact (h s' hs' hinv o).1
  · obtain ⟨o, ho⟩ := carry_single hall s'
    rw [ho]
    exact (h s' hs' hinv o).2

/-- **Soundness by the writes alone**: where the sections of such writes and the answers are allowed
whatever came before, so is every procedure made of them. -/
theorem Proc.Only.sound {k : κ} {good : ω → Prop} {fine : ι → Prop}
    (hwrites : ∀ s ws, outline.inv s → rules.sections s ws → (∀ w ∈ ws, good w) → ∀ os,
      outline.Allows k s (carry exec s ws os))
    (hanswers : ∀ s q r, outline.inv s → fine q → rules.answers s q r →
      outline.Allows k s (note q r s))
    {p : Proc σ ω ι ρ} (hp : p.Only good fine) (s : σ) : Sound rules exec note outline k p s := by
  induction p generalizing s with
  | done => trivial
  | locked writes next ih =>
    intro s' _ hinv hsections os
    exact ⟨hwrites s' _ hinv hsections (hp s').1 os, ih s' _ ((hp s').2 _) _⟩
  | ask q next ih =>
    intro s' _ hinv r hr
    exact ⟨hanswers s' q r hinv hp.1 hr, ih r (hp.2 r) _⟩

/-- **What good writes and fine requests keep**: they are allowed, and `track` relates what was to what
is, however often they are made and whatever the others do in between. -/
structure Keeps (exec : ο → σ → ω → σ) (note : (q : ι) → ρ q → σ → σ) (outline : Outline σ κ) (k : κ)
    (good : ω → Prop) (fine : ι → Prop) (track : σ → σ → Prop) : Prop where
  refl : ∀ s, track s s
  trans : ∀ {s s' s''}, track s s' → track s' s'' → track s s''
  rely : ∀ {s s'}, outline.rely k s s' → track s s'
  writes : ∀ {s w} o, outline.inv s → good w → outline.Allows k s (exec o s w) ∧ track s (exec o s w)
  notes : ∀ {s} q r, outline.inv s → fine q → outline.Allows k s (note q r s) ∧ track s (note q r s)

section Keeps
variable {k : κ} {good : ω → Prop} {fine : ι → Prop} {track : σ → σ → Prop}
  (hkeeps : Keeps exec note outline k good fine track)
include hkeeps

theorem Keeps.steps {s : σ} (hinv : outline.inv s) {ws : List ω} (hws : ∀ w ∈ ws, good w) (os : List ο) :
    outline.Allows k s (carry exec s ws os) ∧ track s (carry exec s ws os) := by
  refine allows_carry (track s) hinv (hkeeps.refl s) (fun w hw o s' hinv' hs' => ?_) os
  obtain ⟨hallows, htrack⟩ := hkeeps.writes o hinv' (hws w hw)
  exact ⟨hallows, hkeeps.trans hs' htrack⟩

/-- A section of good writes. -/
theorem Keeps.section {writes : σ → List ω} {next : σ → Bool → Proc σ ω ι ρ} {s : σ}
    (hws : ∀ s, ∀ w ∈ writes s, good w)
    (h : ∀ s₁ ok s', track s s' → Sound rules exec note outline k (next s₁ ok) s') :
    Sound rules exec note outline k (.locked writes next) s := by
  intro s' hs' hinv _ os
  obtain ⟨hallows, htrack⟩ := hkeeps.steps hinv (hws s') os
  exact ⟨hallows, h _ _ _ (hkeeps.trans (hkeeps.rely hs') htrack)⟩

/-- A section of good writes that has to succeed. -/
theorem Keeps.write {ops : List ω} (hops : ∀ w ∈ ops, good w) {next : Proc σ ω ι ρ} {s : σ}
    (h : ∀ s' os, track s s' → ops.length ≤ os.length → track s' (carry exec s' ops os) →
      Sound rules exec note outline k next (carry exec s' ops os)) :
    Sound rules exec note outline k (.write ops next) s := by
  refine sound_write (fun s' _ hinv _ os => (hkeeps.steps hinv hops os).1) fun s' hs' hinv os hall => ?_
  exact h s' os (hkeeps.rely hs') hall (hkeeps.steps hinv hops os).2

/-- A request. -/
theorem Keeps.ask {q : ι} (hq : fine q) {next : ρ q → Proc σ ω ι ρ} {s : σ}
    (h : ∀ r s', track s s' → Sound rules exec note outline k (next r) s') :
    Sound rules exec note outline k (.ask q next) s := by
  intro s' hs' hinv r _
  obtain ⟨hallows, htrack⟩ := hkeeps.notes q r hinv hq
  exact ⟨hallows, h r _ (hkeeps.trans (hkeeps.rely hs') htrack)⟩

/-- **Procedures of good writes** are sound. -/
theorem Keeps.only {p : Proc σ ω ι ρ} (hp : p.Only good fine) (s : σ) :
    Sound rules exec note outline k p s := by
  refine hp.sound (fun s' ws hinv _ hws os => ?_) (fun s' q r hinv hq _ => ?_) s
  · exact (hkeeps.steps hinv hws os).1
  · exact (hkeeps.notes q r hinv hq).1

end Keeps

/-- **What holds of a pool**: the invariant, every procedure is sound, and they are all beside each
other. -/
structure Sane (rules : Rules σ ω ι ρ κ) (exec : ο → σ → ω → σ) (note : (q : ι) → ρ q → σ → σ)
    (outline : Outline σ κ) (p : Pool σ ω ι ρ κ) : Prop where
  inv : outline.inv p.state
  sound : ∀ x ∈ p.procs, Sound rules exec note outline x.1 x.2 p.state
  beside : p.procs.Pairwise fun x y => outline.beside x.1 y.1

/-- **What may be asked of the rules**: a new procedure is sound and beside the others, and what
changes by itself keeps the invariant and is what every role allows. -/
structure Fits (rules : Rules σ ω ι ρ κ) (exec : ο → σ → ω → σ) (note : (q : ι) → ρ q → σ → σ)
    (outline : Outline σ κ) : Prop where
  starts : ∀ p k q, rules.starts p k q → outline.inv p.state →
    Sound rules exec note outline k q p.state ∧ ∀ x ∈ p.procs, outline.beside x.1 k
  changes : ∀ s s', rules.changes s s' → outline.inv s → outline.inv s' ∧ ∀ k, outline.rely k s s'

variable {p : Pool σ ω ι ρ κ}

/-- The procedures other than the `i`-th are sound after a step it was allowed. -/
theorem Sane.others (h : Sane rules exec note outline p) {i : ℕ} {k : κ} {q : Proc σ ω ι ρ}
    (hi : p.procs[i]? = some (k, q)) {s' : σ} (hs' : outline.Allows k p.state s') :
    ∀ j x, j ≠ i → p.procs[j]? = some x → Sound rules exec note outline x.1 x.2 s' := by
  intro j x hj hx
  obtain ⟨hi', rfl⟩ := List.getElem?_eq_some_iff.mp hx
  obtain ⟨hk, hkq⟩ := List.getElem?_eq_some_iff.mp hi
  refine (h.sound _ (List.getElem_mem hi')).rely (hs'.2 _ ?_)
  have hpair := List.pairwise_iff_getElem.mp h.beside
  rcases Nat.lt_or_gt_of_ne hj with hlt | hgt
  · have := hpair j i hi' hk hlt
    rw [hkq] at this
    exact outline.symm this
  · have := hpair i j hk hi' hgt
    rw [hkq] at this
    exact this

/-- The pool after a step of its `i`-th procedure. -/
theorem Sane.set (h : Sane rules exec note outline p) {i : ℕ} {k : κ} {q q' : Proc σ ω ι ρ}
    (hi : p.procs[i]? = some (k, q)) {s' : σ} (hs' : outline.Allows k p.state s')
    (hq' : Sound rules exec note outline k q' s') :
    Sane rules exec note outline ⟨s', p.procs.set i (k, q')⟩ := by
  refine ⟨hs'.1, fun x hx => ?_, ?_⟩
  · obtain ⟨j, hj⟩ := List.mem_iff_getElem?.mp hx
    rw [List.getElem?_set] at hj
    split_ifs at hj with hij hlt
    · obtain rfl := Option.some.inj hj
      exact hq'
    · exact h.others hi hs' j x (fun heq => hij heq.symm) hj
  · obtain ⟨hlt, hkq⟩ := List.getElem?_eq_some_iff.mp hi
    have hmap : (p.procs.set i (k, q')).map Prod.fst = p.procs.map Prod.fst := by
      rw [List.map_set]
      refine List.ext_getElem (by simp) fun j hj hj' => ?_
      rw [List.getElem_set]
      split_ifs with hij
      · subst hij
        rw [List.getElem_map, hkq]
      · rfl
    have hbeside := h.beside
    have hroles : ∀ ps : List (κ × Proc σ ω ι ρ), (ps.map Prod.fst).Pairwise outline.beside ↔
        ps.Pairwise fun x y => outline.beside x.1 y.1 := fun ps => List.pairwise_map
    exact (hroles _).mp (hmap ▸ (hroles _).mpr hbeside)

/-- The pool after its `i`-th procedure gave up. -/
theorem Sane.erase (h : Sane rules exec note outline p) {i : ℕ} {k : κ} {q : Proc σ ω ι ρ}
    (hi : p.procs[i]? = some (k, q)) {s' : σ} (hs' : outline.Allows k p.state s') :
    Sane rules exec note outline ⟨s', p.procs.eraseIdx i⟩ := by
  refine ⟨hs'.1, fun x hx => ?_, h.beside.sublist (List.eraseIdx_sublist ..)⟩
  obtain ⟨j, hj⟩ := List.mem_iff_getElem?.mp hx
  rw [List.getElem?_eraseIdx] at hj
  split_ifs at hj with hlt
  · exact h.others hi hs' j x (by omega) hj
  · exact h.others hi hs' (j + 1) x (by omega) hj

theorem Sane.put (h : Sane rules exec note outline p) {i : ℕ} {k : κ} {q q' : Proc σ ω ι ρ}
    (hi : p.procs[i]? = some (k, q)) {s' : σ} (hs' : outline.Allows k p.state s')
    (hq' : Sound rules exec note outline k q' s') :
    Sane rules exec note outline ⟨s', put p.procs i k q'⟩ := by
  rcases q' with _ | ⟨writes, next⟩ | ⟨r, next⟩
  · exact h.erase hi hs'
  · exact h.set hi hs' hq'
  · exact h.set hi hs' hq'

/-- **One step keeps a pool sane.** -/
theorem Sane.step (hfits : Fits rules exec note outline) (h : Sane rules exec note outline p)
    {event : Event σ ω ι ρ κ ο} (hlegal : p.Legal rules event) :
    Sane rules exec note outline (p.step exec note event) := by
  rcases event with ⟨i, os⟩ | ⟨i, reply⟩ | i | ⟨k, q⟩ | s | _
  · unfold Pool.step
    dsimp only
    split
    · next k writes next hi =>
      have hsound := h.sound _ (List.mem_iff_getElem?.mpr ⟨i, hi⟩)
      obtain ⟨hallows, hnext⟩ := hsound p.state (outline.refl k p.state) h.inv
        (hlegal k writes next hi) os
      exact h.put hi hallows hnext
    · exact h
  · unfold Pool.step
    dsimp only
    split
    · next k q next hi =>
      have hsound := h.sound _ (List.mem_iff_getElem?.mpr ⟨i, hi⟩)
      obtain ⟨hallows, hnext⟩ := hsound p.state (outline.refl k p.state) h.inv (reply q)
        (hlegal k q next hi)
      exact h.put hi hallows hnext
    · exact h
  · have hsub : (p.procs.eraseIdx i).Sublist p.procs := List.eraseIdx_sublist ..
    exact ⟨h.inv, fun x hx => h.sound x (hsub.subset hx), h.beside.sublist hsub⟩
  · obtain ⟨hsound, hbeside⟩ := hfits.starts p k q hlegal h.inv
    refine ⟨h.inv, fun x hx => ?_, ?_⟩
    · rcases List.mem_append.mp hx with hx | hx
      · exact h.sound x hx
      · rw [List.mem_singleton.mp hx]
        exact hsound
    · refine List.pairwise_append.mpr ⟨h.beside, List.pairwise_singleton _ _, fun x hx y hy => ?_⟩
      rw [List.mem_singleton.mp hy]
      exact hbeside x hx
  · obtain ⟨hinv, hrely⟩ := hfits.changes p.state s hlegal h.inv
    exact ⟨hinv, fun x hx => (h.sound x hx).rely (hrely x.1), h.beside⟩
  · exact ⟨h.inv, fun x hx => absurd hx List.not_mem_nil, List.Pairwise.nil⟩

/-- A run is lawful if its first part is, and the rest from where that ends. -/
theorem lawful_append {past future : List (Event σ ω ι ρ κ ο)} :
    p.Lawful rules exec note (past ++ future) ↔
      p.Lawful rules exec note past ∧ (p.runs exec note past).Lawful rules exec note future := by
  induction past generalizing p with
  | nil => exact ⟨fun h => ⟨trivial, h⟩, fun h => h.2⟩
  | cons event past ih =>
    have hstep := ih (p := p.step exec note event)
    exact ⟨fun h => ⟨⟨h.1, (hstep.mp h.2).1⟩, (hstep.mp h.2).2⟩, fun h => ⟨h.1.1, hstep.mpr ⟨h.1.2, h.2⟩⟩⟩

/-- **Every run keeps a pool sane.** -/
theorem Sane.runs (hfits : Fits rules exec note outline) (h : Sane rules exec note outline p)
    {events : List (Event σ ω ι ρ κ ο)} (hlawful : p.Lawful rules exec note events) :
    Sane rules exec note outline (p.runs exec note events) := by
  induction events generalizing p with
  | nil => exact h
  | cons event events ih => exact ih (h.step hfits hlawful.1) hlawful.2

/-- **A role that runs beside every other** can tell what a step does. -/
theorem Sane.step_rely (hfits : Fits rules exec note outline) (h : Sane rules exec note outline p)
    {event : Event σ ω ι ρ κ ο} (hlegal : p.Legal rules event) {k : κ} (hk : ∀ k', outline.beside k' k) :
    outline.rely k p.state (p.step exec note event).state := by
  rcases event with ⟨i, os⟩ | ⟨i, reply⟩ | i | ⟨k', q⟩ | s | _
  · unfold Pool.step
    dsimp only
    split
    · next k' writes next hi =>
      have hsound := h.sound _ (List.mem_iff_getElem?.mpr ⟨i, hi⟩)
      exact (hsound p.state (outline.refl k' p.state) h.inv (hlegal k' writes next hi) os).1.2 k (hk k')
    · exact outline.refl k p.state
  · unfold Pool.step
    dsimp only
    split
    · next k' q next hi =>
      have hsound := h.sound _ (List.mem_iff_getElem?.mpr ⟨i, hi⟩)
      exact (hsound p.state (outline.refl k' p.state) h.inv (reply q) (hlegal k' q next hi)).1.2 k (hk k')
    · exact outline.refl k p.state
  · exact outline.refl k p.state
  · exact outline.refl k p.state
  · exact (hfits.changes p.state s hlegal h.inv).2 k
  · exact outline.refl k p.state

theorem Sane.runs_rely (hfits : Fits rules exec note outline) (h : Sane rules exec note outline p)
    {events : List (Event σ ω ι ρ κ ο)} (hlawful : p.Lawful rules exec note events) {k : κ}
    (hk : ∀ k', outline.beside k' k) : outline.rely k p.state (p.runs exec note events).state := by
  induction events generalizing p with
  | nil => exact outline.refl k p.state
  | cons event events ih =>
    exact outline.trans (h.step_rely hfits hlawful.1 hk) (ih (h.step hfits hlawful.1) hlawful.2)

end Guarantee

end Kmatrix.Lib.Threads
