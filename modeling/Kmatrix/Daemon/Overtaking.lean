import Kmatrix.Daemon.Exhaustion
import Mathlib.Order.WithBot

/-! # Calls that overtake each other

The edge of a room should only move back: from no edge, over the positions of its tokens, to the start. A
call of `do_load_older` reads it, asks for a page, and writes where the page ended, whatever the edge has
become since. Between the two another call may have gone further, and a sync may have seeded.

Each write is taken with the request it follows, and that holds the token the call has found. So a call
is in time if the edge is still where it found it, or at least not beyond its page (`InTime`). -/

namespace Kmatrix.Daemon.Overtaking

open Kmatrix.Lib.Threads Kmatrix.Daemon.Procs Kmatrix.Daemon.Backlog
open Kmatrix.Storage Kmatrix.Storage.Seal Kmatrix.Storage.Schema
open Kmatrix.Storage.Write (StoreOp)
open Kmatrix.Sync Kmatrix.Sync.Plaintext Kmatrix.Sync.Events Kmatrix.Sync.Convert

/-- A write with the request it follows. -/
abbrev Followed : Type := Option Request × Change

def exec {S : CipherSuite} (rng : Salts) (s : Shared S) (w : Followed) : Shared S :=
  Change.exec rng s w.2

section Overtaking
variable {S : CipherSuite} (serde : SerdeJson) (layer : Layer S) (login : Login)
  (room : String) (events : ℕ → RoomEvent) (position : String → ℕ)

/-! ### The edge -/

/-- **Where an edge is**: without a token it is before everything, or, once it is done, at the start. -/
def place : Option String × ℤ → WithTop ℕ
  | (some t, _) => WithTop.some (position t)
  | (none, d) => if d = 0 then ⊤ else WithTop.some 0

/-- The second edge is no newer than the first, and done if the first is. -/
def Back (e e' : Option String × ℤ) : Prop := place position e' ≤ place position e ∧ (e.2 ≠ 0 → e'.2 ≠ 0)

/-- **The edge has only moved back.** -/
def MovesBack (st st' : Store S) : Prop :=
  ∀ e, edgeOf st room = some e → ∃ e', edgeOf st' room = some e' ∧ Back position e e'

/-- **The condition.** When a call writes the edge, it is where the call has found it, or it is not
already past where the page ends; and no edge is seeded after the start was reached. -/
def InTime (s : Shared S) (ws : List Followed) : Prop :=
  (∀ t limit n new done, (some (.messages room t limit), .store n (.setBackToken room new done)) ∈ ws →
    Read.backToken s.db room = (t, false) ∨
      ∀ e, edgeOf s.db room = some e → Back position e (new, boolI64 done)) ∧
  ∀ q n token, (q, .store n (.seedBackToken room token)) ∈ ws →
    ∀ d, edgeOf s.db room = some (none, d) → d = 0 ∨ position token = 0

/-- **What may happen**: calls of `do_load_older` for the room, rounds of the sync, and what wipes nothing
and does not set the edge, with a condition on the sections. The server pages back. -/
def rules (cond : Shared S → List Followed → Prop) : Rules (Shared S) Followed Request Reply Unit where
  sections := cond
  answers _ q r := Exhaustion.Serves room events position 0 (fun _ => True) q r
  starts _ _ q := ∃ q', q = q'.after none ∧ ((∃ limit, q' = loadOlder serde login room limit) ∨
    q' = syncOnce serde layer login ∨ q'.Only (Paging.Aside room) fun _ => True)
  changes s s' := s'.db = s.db

/-- The outline: whatever the others do, they move the edge back. -/
def outline : Outline (Shared S) Unit where
  inv _ := True
  rely _ s s' := MovesBack room position s.db s'.db
  beside _ _ := True
  refl _ s := fun e he => ⟨e, he, le_refl _, id⟩
  trans h h' := fun e he => by
    obtain ⟨e', he', hback⟩ := h e he
    obtain ⟨e'', he'', hback'⟩ := h' e' he'
    exact ⟨e'', he'', hback'.1.trans hback.1, fun hd => hback'.2 (hback.2 hd)⟩
  symm _ := trivial

variable {serde layer login room events position}

/-- For the tokens: one that is set gives way to none that is newer. -/
theorem MovesBack.token {st st' : Store S} (h : MovesBack room position st st') {t t' : String} {d d' : ℤ}
    (he : edgeOf st room = some (some t, d)) (he' : edgeOf st' room = some (some t', d')) :
    position t' ≤ position t ∧ (d ≠ 0 → d' ≠ 0) := by
  obtain ⟨e, hedge, hplace, hdone⟩ := h _ he
  obtain rfl := Option.some.inj (he'.symm.trans hedge)
  exact ⟨WithTop.coe_le_coe.mp hplace, hdone⟩

/-! ### The writes -/

/-- **What moves the edge back**: seeding an edge that was never set, and setting it further back. -/
theorem movesBack_exec {st : Store S} {rng : Salts} {op : StoreOp} (hop : op ≠ .clear)
    (hseed : ∀ t, op = .seedBackToken room t →
      ∀ d, edgeOf st room = some (none, d) → d = 0 ∨ position t = 0)
    (hset : ∀ t done, op = .setBackToken room t done →
      ∀ e, edgeOf st room = some e → Back position e (t, boolI64 done)) :
    MovesBack room position st (op.exec rng st) := by
  intro e he
  rcases @edge_cases S rng st op room hop with h | ⟨hnone, -⟩ | ⟨t, d, rfl, hold, h⟩ | ⟨t, done, rfl, h⟩
  · exact ⟨e, h.trans he, le_refl _, id⟩
  · rw [hnone] at he
    simp at he
  · obtain rfl := Option.some.inj (hold.symm.trans he)
    refine ⟨_, h, ?_, id⟩
    rcases hseed t rfl d hold with rfl | hzero
    · simp [place]
    · simp only [place, hzero]
      split_ifs
      · exact le_top
      · exact le_refl _
  · exact ⟨_, h, hset t done rfl e he⟩

theorem allows_quiet {s : Shared S} {q : Option Request} {n : ℕ} {op : StoreOp} (hop : Quiet room op)
    (rng : Salts) :
    (outline room position : Outline (Shared S) Unit).Allows () s (exec rng s (q, .store n op)) :=
  ⟨trivial, fun _ _ => movesBack_exec hop.1 (fun t ht => absurd ht (hop.2.1 t))
    fun t done ht => absurd ht (hop.2.2 t done)⟩

/-- Nobody takes an edge away: the condition on what is seeded stays. -/
theorem seeds_exec {s : Shared S} {rng : Salts} {op : StoreOp} {t : String} (hop : op ≠ .clear)
    (hset : ∀ t done, op ≠ .setBackToken room t done)
    (h : ∀ d, edgeOf s.db room = some (none, d) → d = 0 ∨ position t = 0) :
    ∀ d, edgeOf (op.exec rng s.db) room = some (none, d) → d = 0 ∨ position t = 0 := by
  intro d hd
  rcases @edge_cases S rng s.db op room hop with he | ⟨-, he⟩ | ⟨t', d', rfl, -, he⟩ | ⟨t', done, rfl, -⟩
  · exact h d (he.symm.trans hd)
  · exact Or.inl (Prod.mk.inj (Option.some.inj (he.symm.trans hd))).2.symm
  · rw [he] at hd
    simp at hd
  · exact absurd rfl (hset t' done)

/-! ### The procedures -/

/-- **What does not set the edge** is sound. -/
theorem sound_aside {q : DaemonProc S} (hq : q.Only (Paging.Aside room) fun _ => True) (s : Shared S) :
    Sound (rules serde layer login room events position (InTime room position)) exec note
      (outline room position) () (q.after none) s := by
  refine (hq.after none).sound (fun s' ws hinv hsections hws os => ?_) (fun s' q r hinv _ _ => ?_) s
  · refine (allows_carry (fun s => ∀ q n t, (q, .store n (.seedBackToken room t)) ∈ ws →
      ∀ d, edgeOf s.db room = some (none, d) → d = 0 ∨ position t = 0) hinv hsections.2
      (fun w hw rng s₁ _ hseeds => ?_) os).1
    have hw' := hws w hw
    obtain ⟨q, ⟨n, op⟩ | ⟨n, r, jr, row⟩ | _ | _ | _ | _⟩ := w
    · refine ⟨⟨trivial, fun _ _ => movesBack_exec hw'.1 (fun t ht => hseeds q n t (ht ▸ hw)) ?_⟩,
        fun q' n' t ht => seeds_exec hw'.1 hw'.2 (hseeds q' n' t ht)⟩
      exact fun t done ht => absurd ht (hw'.2 t done)
    · exact ⟨⟨trivial, fun _ _ => movesBack_exec (by simp) (by simp) (by simp)⟩,
        fun q' n' t ht => seeds_exec (by simp) (by simp) (hseeds q' n' t ht)⟩
    · exact hw'.elim
    · exact ⟨⟨trivial, fun _ _ => (outline room position).refl () s₁⟩, hseeds⟩
    · exact ⟨⟨trivial, fun _ _ => (outline room position).refl () s₁⟩, hseeds⟩
    · exact ⟨⟨trivial, fun _ _ => (outline room position).refl () s₁⟩, hseeds⟩
  · rcases q with _ | _ | _ | _ | _ | _ | _ | _ | _ | _ | _ | _
    all_goals exact ⟨trivial, fun _ _ => (outline room position).refl () s'⟩

section LoadOlder
variable {cond : Shared S → List Followed → Prop}

theorem sound_quiet {q₀ : Option Request} {op : StoreOp} {next : DaemonProc S} {s : Shared S}
    (hop : Quiet room op)
    (h : ∀ s', Sound (rules serde layer login room events position cond) exec note (outline room position)
      () (next.after q₀) s') :
    Sound (rules serde layer login room events position cond) exec note (outline room position) ()
      ((Proc.write [.store login.number op] next).after q₀) s := by
  rw [Proc.after_write]
  exact sound_one fun s' _ _ rng => ⟨allows_quiet hop rng, h _⟩

/-- Storing a page does not move the edge. -/
theorem sound_storeAll {q₀ : Option Request} {evs : List RoomEvent} {next : DaemonProc S}
    (h : ∀ s', Sound (rules serde layer login room events position cond) exec note (outline room position)
      () (next.after q₀) s') (s : Shared S) :
    Sound (rules serde layer login room events position cond) exec note (outline room position) ()
      ((storeAll serde login room evs next).after q₀) s := by
  induction evs generalizing s with
  | nil => exact h s
  | cons ev evs ih =>
    unfold storeAll Procs.convertEvent
    rw [Proc.after_read]
    refine sound_read fun s₁ _ _ => ?_
    dsimp only
    split
    · refine sound_quiet (by simp [Quiet, Edit.op]) fun s₂ => ?_
      split
      · exact sound_quiet (by simp [Quiet]) ih
      · exact ih s₂
    · split
      · exact sound_quiet (by simp [Quiet]) ih
      · exact ih s₁

end LoadOlder

/-- From where a call has found the edge, its page leads back. -/
theorem back_of_page {st : Store S} {t : Option String} {limit p : ℕ} {page : Page} {e : Option String × ℤ}
    (hfound : Read.backToken st room = (t, false)) (he : edgeOf st room = some e)
    (hp : Exhaustion.StartsAt position 0 t p)
    (hpage : Exhaustion.PageBefore events position p limit page) :
    Back position e (page.endToken, boolI64 (page.endToken.isNone || page.chunk.isEmpty)) := by
  obtain ⟨t', d⟩ := e
  rw [backToken_of_edge he] at hfound
  obtain ⟨rfl, hd⟩ := Prod.mk.inj hfound
  have hzero : d = 0 := by simpa using hd
  subst hzero
  refine ⟨?_, fun h => absurd rfl h⟩
  rcases t' with _ | x
  · simp [place]
  · obtain ⟨k, -, -, hend⟩ := hpage
    have hstart := hp.1 x rfl
    rcases htoken : page.endToken with _ | y
    · simp [place, boolI64]
    · rw [htoken] at hend
      dsimp only at hend
      simp only [place, WithTop.coe_le_coe]
      omega

/-- **A call of `do_load_older`** is sound where it is in time. -/
theorem sound_loadOlder (limit : ℕ) (s : Shared S) :
    Sound (rules serde layer login room events position (InTime room position)) exec note
      (outline room position) () ((loadOlder serde login room limit).after none) s := by
  unfold loadOlder
  rw [Proc.after_read]
  refine sound_read fun s₁ _ _ => ?_
  rcases hread : Read.backToken s₁.db room with ⟨t, done⟩
  dsimp only
  split_ifs with hdone
  · trivial
  · intro s₂ _ _ r hr
    refine ⟨⟨trivial, fun _ _ => (outline room position).refl () s₂⟩, ?_⟩
    rcases r with e | page
    · trivial
    · obtain ⟨-, p, hp, hpage⟩ := hr rfl
      refine sound_storeAll (fun s₃ => ?_) s₂
      rw [Proc.after_write]
      refine sound_write (fun s₄ _ _ hintime os => ?_) fun _ _ _ _ _ => trivial
      rcases os with _ | ⟨rng, os⟩
      · exact ⟨trivial, fun _ _ => (outline room position).refl () s₄⟩
      · refine ⟨trivial, fun _ _ => movesBack_exec (by simp) (by simp) fun t' done' hop e he => ?_⟩
        obtain ⟨-, rfl, rfl⟩ := StoreOp.setBackToken.inj hop
        rcases hintime.1 t limit login.number _ _ List.mem_cons_self with hfound | hback
        · exact back_of_page hfound he hp hpage
        · exact hback e he

/-- The writes are those of the procedures: what they follow is for the condition only. -/
theorem state_runs (p : Pool (Shared S) Followed Request Reply Unit)
    (run : List (Event (Shared S) Followed Request Reply Unit Salts)) :
    (p.runs exec note run).state =
      (p.unpaired.runs Change.exec note (run.map Event.unpaired)).state := by
  rw [← runs_unpaired]
  rfl

/-- **The edge only moves back**, along every run in which the calls are in time: from any state of the run
to any later one. -/
theorem movesBack_of_lawful {p : Pool (Shared S) Followed Request Reply Unit}
    {past future : List (Event (Shared S) Followed Request Reply Unit Salts)} (hprocs : p.procs = [])
    (hlawful : p.Lawful (rules serde layer login room events position (InTime room position)) exec note
      (past ++ future)) :
    MovesBack room position (p.unpaired.runs Change.exec note (past.map Event.unpaired)).state.db
      (p.unpaired.runs Change.exec note ((past ++ future).map Event.unpaired)).state.db := by
  obtain ⟨hpast, hfuture⟩ := lawful_append.mp hlawful
  have hsane : Sane (rules serde layer login room events position (InTime room position)) exec note
      (outline room position) p := ⟨trivial, by simp [hprocs], by simp [hprocs]⟩
  have hfits : Fits (rules serde layer login room events position (InTime room position)) exec note
      (outline room position) := by
    refine ⟨fun p' k q hstart _ => ⟨?_, fun _ _ => trivial⟩, fun s s' hdb _ => ⟨trivial, fun _ => ?_⟩⟩
    · obtain ⟨q', rfl, ⟨limit, rfl⟩ | rfl | hq⟩ := hstart
      · exact sound_loadOlder limit _
      · exact sound_aside (only_syncOnce.mono (fun w hw => Paging.aside_of_ofSync hw) fun _ _ => trivial) _
      · exact sound_aside hq _
    · exact fun e he => ⟨e, by rw [show s'.db = s.db from hdb]; exact he, le_refl _, id⟩
  have hrely := (hsane.runs hfits hpast).runs_rely hfits hfuture (k := ()) fun _ => trivial
  have hsplit : p.runs exec note (past ++ future) = (p.runs exec note past).runs exec note future :=
    List.foldl_append
  rw [← state_runs, ← state_runs, hsplit]
  exact hrely

end Overtaking

/-! ### A room of plain messages -/

def seeded : Pool (Shared copySuite) Followed Request Reply Unit := ⟨Paging.seeded.state, []⟩

/-- The edge is where the call has found it, and not done where it is seeded. -/
def timely (s : Shared copySuite) : Followed → Bool
  | (some (.messages _ t _), .store _ (.setBackToken _ _ _)) => Read.backToken s.db "!r" = (t, false)
  | (_, .store _ (.seedBackToken _ _)) => (edgeOf s.db "!r").all fun e => e.1.isSome || e.2 = 0
  | _ => true

theorem inTime_of_timely {s : Shared copySuite} {ws : List Followed} (h : ws.all (timely s) = true) :
    InTime "!r" String.length s ws := by
  have htimely := List.all_eq_true.mp h
  refine ⟨fun t limit n new done hmem => Or.inl ?_, fun q n token hmem d hd => Or.inl ?_⟩
  · simpa [timely] using htimely _ hmem
  · have hseed := htimely _ hmem
    rcases q with _ | q
    · simpa [timely, hd] using hseed
    · rcases q with _ | _ | _ | _ | _ | _ | _ | _ | _ | _ | _ | _
      all_goals simpa [timely, hd] using hseed

/-- What the runs here are made of. -/
def Told : Event (Shared copySuite) Followed Request Reply Unit Salts → Prop
  | .run _ _ => True
  | .answer _ reply => reply = Paging.serve
  | .start _ q => (∃ limit, q = (loadOlder noPlaintext Paging.ours "!r" limit).after none) ∨
      q = (syncOnce noPlaintext idleLayer Paging.ours).after none
  | _ => False

/-- Every section of the run is timely. -/
def staysTimely (p : Pool (Shared copySuite) Followed Request Reply Unit) :
    List (Event (Shared copySuite) Followed Request Reply Unit Salts) → Bool
  | [] => true
  | event :: run =>
    (match event with
      | .run i _ =>
        match p.procs[i]? with
        | some (_, .locked writes _) => (writes p.state).all (timely p.state)
        | _ => true
      | _ => true) && staysTimely (p.step exec note event) run

/-- Such a run may happen, if the condition is no condition or every section is timely. -/
theorem lawful_of_told {cond : Shared copySuite → List Followed → Prop}
    {run : List (Event (Shared copySuite) Followed Request Reply Unit Salts)}
    {p : Pool (Shared copySuite) Followed Request Reply Unit} (htold : ∀ e ∈ run, Told e)
    (hcond : (∀ s ws, cond s ws) ∨ (staysTimely p run = true ∧ cond = InTime "!r" String.length)) :
    p.Lawful (rules noPlaintext idleLayer Paging.ours "!r" said String.length cond) exec note run := by
  induction run generalizing p with
  | nil => trivial
  | cons e run ih =>
    obtain ⟨he, hrun⟩ := List.forall_mem_cons.mp htold
    refine ⟨?_, ih hrun (hcond.imp id fun ⟨h, hc⟩ => ⟨(Bool.and_eq_true_iff.mp h).2, hc⟩)⟩
    rcases e with ⟨i, os⟩ | ⟨i, reply⟩ | i | ⟨k, q⟩ | s | _
    · intro k writes next hi
      rcases hcond with h | ⟨h, rfl⟩
      · exact h _ _
      · have hnow := (Bool.and_eq_true_iff.mp h).1
        simp only [hi] at hnow
        exact inTime_of_timely hnow
    · intro k q next hi
      obtain rfl := he
      exact Exhaustion.serves_serve fun _ _ _ _ _ _ => trivial
    · exact he.elim
    · rcases he with ⟨limit, rfl⟩ | rfl
      · exact ⟨_, rfl, Or.inl ⟨limit, rfl⟩⟩
      · exact ⟨_, rfl, Or.inr (Or.inl rfl)⟩
    · exact he.elim
    · exact he.elim

/-- A call with all its sections. -/
def wholeCall (limit : ℕ) : List (Event (Shared copySuite) Followed Request Reply Unit Salts) :=
  [.start () ((loadOlder noPlaintext Paging.ours "!r" limit).after none), .run 0 [],
    .answer 0 Paging.serve] ++ List.replicate 6 (.run 0 [fun _ => zeroSalt])

theorem told_wholeCall (limit : ℕ) : ∀ e ∈ wholeCall limit, Told e := by
  intro e he
  simp only [wholeCall, List.mem_append, List.mem_cons, List.not_mem_nil, or_false,
    List.mem_replicate] at he
  rcases he with (rfl | rfl | rfl) | ⟨-, rfl⟩
  · exact Or.inl ⟨limit, rfl⟩
  · trivial
  · rfl
  · trivial

/-- One call after the other. -/
theorem movesBack_wholeCalls :
    MovesBack "!r" String.length
      (seeded.unpaired.runs Change.exec note ((wholeCall 1).map Event.unpaired)).state.db
      (seeded.unpaired.runs Change.exec note ((wholeCall 1 ++ wholeCall 5).map Event.unpaired)).state.db := by
  refine @movesBack_of_lawful _ noPlaintext idleLayer Paging.ours "!r" said String.length seeded _ _ rfl
    (lawful_of_told (fun e he => ?_) (Or.inr ⟨by decide +kernel, rfl⟩))
  rcases List.mem_append.mp he with he | he
  · exact told_wholeCall 1 e he
  · exact told_wholeCall 5 e he

/-- Two calls find the same edge; the one with the larger page ends first. -/
def overlap : List (Event (Shared copySuite) Followed Request Reply Unit Salts) :=
  [.start () ((loadOlder noPlaintext Paging.ours "!r" 1).after none),
    .start () ((loadOlder noPlaintext Paging.ours "!r" 5).after none), .run 0 [], .run 1 [],
    .answer 0 Paging.serve, .answer 1 Paging.serve] ++ List.replicate 5 (.run 1 [fun _ => zeroSalt])

/-- The other one ends. -/
def late : List (Event (Shared copySuite) Followed Request Reply Unit Salts) :=
  List.replicate 3 (.run 0 [fun _ => zeroSalt])

/-- **A slow call takes the mark away** that a faster one has set. -/
theorem not_movesBack_overlap :
    ¬ ∀ past future, seeded.Lawful (rules noPlaintext idleLayer Paging.ours "!r" said String.length
        fun _ _ => True) exec note (past ++ future) →
      MovesBack "!r" String.length
        (seeded.unpaired.runs Change.exec note (past.map Event.unpaired)).state.db
        (seeded.unpaired.runs Change.exec note ((past ++ future).map Event.unpaired)).state.db := by
  intro h
  have htold : ∀ e ∈ overlap ++ late, Told e := by
    intro e he
    simp only [overlap, late, List.mem_append, List.mem_cons, List.not_mem_nil, or_false,
      List.mem_replicate] at he
    rcases he with ((rfl | rfl | rfl | rfl | rfl | rfl) | ⟨-, rfl⟩) | ⟨-, rfl⟩
    · exact Or.inl ⟨1, rfl⟩
    · exact Or.inl ⟨5, rfl⟩
    · trivial
    · trivial
    · rfl
    · rfl
    · trivial
    · trivial
  have hbefore : edgeOf (seeded.unpaired.runs Change.exec note (overlap.map Event.unpaired)).state.db
      "!r" = some (none, 1) := by decide +kernel
  have hafter : edgeOf (seeded.unpaired.runs Change.exec note
      ((overlap ++ late).map Event.unpaired)).state.db "!r" = some (some (tally 1), 0) := by
    decide +kernel
  obtain ⟨e, he, hback⟩ := h overlap late (lawful_of_told htold (Or.inl fun _ _ => trivial)) _ hbefore
  obtain rfl := Option.some.inj (hafter.symm.trans he)
  exact hback.2 (by decide) rfl

end Kmatrix.Daemon.Overtaking
