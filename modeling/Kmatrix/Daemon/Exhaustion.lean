import Kmatrix.Daemon.Paging

/-! # The start of a room

`do_load_older` stops for good where it takes a page for the last one of the room: a page without an end
token, which is how the server says so, and any page without events. But a server leaves events out of a
page, and a page of which nothing is left still carries a token when there is more before it.

So the mark is right as long as no page is empty too early (`finished_of_lawful`), and one such page hides
the rest of the room. -/

namespace Kmatrix.Daemon.Exhaustion

open Kmatrix.Lib.Threads Kmatrix.Daemon.Procs Kmatrix.Daemon.Backlog
open Kmatrix.Storage Kmatrix.Storage.Seal Kmatrix.Storage.Schema
open Kmatrix.Storage.Write (StoreOp)
open Kmatrix.Sync Kmatrix.Sync.Plaintext Kmatrix.Sync.Events Kmatrix.Sync.Convert

section Exhaustion
variable {S : CipherSuite} (serde : SerdeJson) (truth : Opens) (layer : Layer S) (login : Login)
  (room : String) (events : ℕ → RoomEvent) (position : String → ℕ) (base : ℕ)

/-! ### The server -/

/-- **A page** of the events the server shows, from `p` back: `limit` at most, but it may stop anywhere,
also at `p` itself, with a token of where it stopped. There is none only at the start of the room. -/
def PageBefore (p limit : ℕ) (page : Page) : Prop :=
  ∃ k ≤ min limit p, page.chunk = stretch events p k ∧
    match page.endToken with
    | some t => position t = p - k
    | none => k = p

/-- A page without a token starts at the newest event, and that is not before `base`. -/
def StartsAt (t : Option String) (p : ℕ) : Prop := (∀ x, t = some x → p = position x) ∧ (t = none → base ≤ p)

/-- **What the server answers**, with a condition on the pages. -/
def Serves (cond : Page → Prop) : (q : Request) → Reply q → Prop
  | .messages r t limit, .ok page => r = room → cond page ∧
      ∃ p, StartsAt position base t p ∧ PageBefore events position p limit page
  | _, _ => True

/-- **The condition**: a page without events that carries a token is at the start of the room. -/
def EmptyLast (page : Page) : Prop :=
  page.chunk = [] → ∀ t, page.endToken = some t → position t = 0

/-- **What may happen**: calls of `do_load_older` for the room, rounds of the sync, and what wipes nothing
and does not set the edge. What seeds the edge seeds it at `base` or later. -/
def rules (cond : Page → Prop) : Rules (Shared S) Change Request Reply Unit where
  sections _ ws := ∀ n t, .store n (.seedBackToken room t) ∈ ws → base ≤ position t
  answers _ q r := Serves room events position base cond q r
  starts _ _ q := (∃ limit, q = loadOlder serde login room limit) ∨ q = syncOnce serde layer login ∨
    q.Only (Paging.Aside room) fun _ => True
  changes s s' := s'.db = s.db ∧ Knows truth s'

/-- **A call reports that the start was reached**: it finds the mark, or it is about to set it. -/
def Reports (p : Pool (Shared S) Change Request Reply Unit) : Prop :=
  (∃ t d, edgeOf p.state.db room = some (t, d) ∧ d ≠ 0) ∨
    ∃ k n t next, (k, .write [.store n (.setBackToken room t true)] next) ∈ p.procs

/-! ### The invariant -/

/-- What lies between the edge and `base` is stored, and all of it once the start is marked. -/
def Walked (st : Store S) : Prop :=
  ∀ t d, edgeOf st room = some (t, d) →
    (∀ x, t = some x → d = 0 → Covered serde truth login.us room events st (position x) base) ∧
    (d ≠ 0 → Covered serde truth login.us room events st 0 base)

def outline : Outline (Shared S) Unit :=
  growing serde truth login (Walked serde truth login room events position base)

variable {serde truth layer login room events position base}

/-- A row that was just made has nothing to say. -/
theorem walked_unset {st : Store S} (h : edgeOf st room = none ∨ edgeOf st room = some (none, 0)) :
    Walked serde truth login room events position base st := by
  intro t d he
  rcases h with h | h
  · rw [h] at he
    simp at he
  · obtain ⟨rfl, rfl⟩ := Prod.mk.inj (Option.some.inj (h.symm.trans he))
    exact ⟨by simp, by simp⟩

/-- **What a write keeps**: seeding does from `base` on, and setting where the stretch is stored. -/
theorem walked_exec {s : Shared S} {rng : Salts} {op : StoreOp} (hop : op ≠ .clear)
    (hseed : ∀ t, op = .seedBackToken room t → base ≤ position t)
    (hset : ∀ t done, op = .setBackToken room t done →
      (∀ x, t = some x → Covered serde truth login.us room events s.db (position x) base) ∧
      (done = true → Covered serde truth login.us room events s.db 0 base))
    (h : Walked serde truth login room events position base s.db) :
    Walked serde truth login room events position base (op.exec rng s.db) := by
  have hgrows : Grows serde truth login s (Change.exec rng s (.store 0 op)) := grows_exec hop 0 rng s
  rcases @edge_cases S rng s.db op room hop with he | ⟨-, he⟩ | ⟨t, d, rfl, hold, he⟩ | ⟨t, done, rfl, he⟩
  · intro t d hedge
    rw [he] at hedge
    obtain ⟨hplaced, hdone⟩ := h t d hedge
    exact ⟨fun x hx hd => covered_grows hgrows (hplaced x hx hd),
      fun hd => covered_grows hgrows (hdone hd)⟩
  · exact walked_unset (Or.inr he)
  · intro t' d' hedge
    obtain ⟨rfl, rfl⟩ := Prod.mk.inj (Option.some.inj (he.symm.trans hedge))
    refine ⟨fun x hx _ i hlow hhigh => ?_, fun hd => covered_grows hgrows ((h none d hold).2 hd)⟩
    have hbase := hseed t rfl
    rw [Option.some.inj hx] at hbase
    omega
  · intro t' d' hedge
    obtain ⟨rfl, rfl⟩ := Prod.mk.inj (Option.some.inj (he.symm.trans hedge))
    obtain ⟨hplaced, hdone⟩ := hset t done rfl
    refine ⟨fun x hx _ => covered_grows hgrows (hplaced x hx), fun hd => ?_⟩
    exact covered_grows hgrows (hdone (by simpa [boolI64] using hd))

theorem grants_outline :
    Grants serde truth login room
      (outline serde truth login room events position base : Outline (Shared S) Unit) ()
      (Grows serde truth login) :=
  grants_growing fun _ _ _ hop h => walked_exec hop.1 (fun t ht => absurd ht (hop.2.1 t))
    (fun t done ht => absurd ht (hop.2.2 t done)) h

/-! ### The procedures -/

section Sound
variable {cond : Page → Prop}

/-- **What runs beside the paging is sound.** -/
theorem sound_aside {q : DaemonProc S} (hq : q.Only (Paging.Aside room) fun _ => True) (s : Shared S) :
    Sound (rules serde truth layer login room events position base cond) Change.exec note
      (outline serde truth login room events position base) () q s := by
  refine hq.sound (fun s' ws hinv hsections hws os => ?_) (fun s' q r hinv _ _ => ?_) s
  · refine (allows_carry (fun _ => True) hinv trivial (fun w hw rng s₁ hinv₁ _ => ⟨?_, trivial⟩) os).1
    have hw' := hws w hw
    rcases w with ⟨n, op⟩ | ⟨n, r, jr, row⟩ | _ | _ | _ | _
    · have hgrows := @grows_exec S serde truth login op hw'.1 n rng s₁
      refine ⟨⟨hinv₁.1, walked_exec hw'.1 (fun t ht => hsections n t (ht ▸ hw)) ?_ hinv₁.2⟩,
        fun _ _ => hgrows⟩
      exact fun t done ht => absurd ht (hw'.2 t done)
    · have hgrows := @grows_storeRoom S serde truth login n r jr row rng s₁
      exact ⟨⟨hinv₁.1, walked_exec (by simp) (by simp) (by simp) hinv₁.2⟩, fun _ _ => hgrows⟩
    · exact hw'.elim
    · exact ⟨hinv₁, fun _ _ _ _ h => h⟩
    · exact ⟨hinv₁, fun _ _ _ _ h => h⟩
    · exact ⟨hinv₁, fun _ _ _ _ h => h⟩
  · exact (grants_outline.toKeeps.notes q r hinv trivial).1

/-- The page a call has asked for starts where everything after it is stored. -/
theorem covered_from {st : Store S} (h : Walked serde truth login room events position base st)
    (hdone : (Read.backToken st room).2 = false) {p : ℕ}
    (hp : StartsAt position base (Read.backToken st room).1 p) :
    Covered serde truth login.us room events st p base := by
  rcases he : edgeOf st room with _ | ⟨t, d⟩
  · have hrow : st.db.rooms.lookup room = none := Option.map_eq_none_iff.mp he
    have hnone : Read.backToken st room = (none, false) := by simp [Read.backToken, hrow]
    rw [hnone] at hp
    have hbase := hp.2 rfl
    intro i hlow hhigh
    omega
  · rw [backToken_of_edge he] at hdone hp
    have hd : d = 0 := by simpa using hdone
    rcases t with _ | x
    · have hbase := hp.2 rfl
      intro i hlow hhigh
      omega
    · rw [hp.1 x rfl]
      exact (h _ _ he).1 x rfl hd

/-- **A call of `do_load_older` is sound** where the pages meet the condition. -/
theorem sound_loadOlder (limit : ℕ) (s : Shared S) :
    Sound (rules serde truth layer login room events position base (EmptyLast position)) Change.exec note
      (outline serde truth login room events position base) () (loadOlder serde login room limit) s := by
  refine sound_read fun s₁ _ hinv₁ => ?_
  have hfrom := @covered_from S serde truth login room events position base s₁.db hinv₁.2
  rcases hread : Read.backToken s₁.db room with ⟨t, done⟩
  rw [hread] at hfrom
  dsimp only at hfrom ⊢
  split_ifs with hdone
  · trivial
  · intro s₂ hs₂ hinv₂ r hr
    refine ⟨(grants_outline.toKeeps.notes _ r hinv₂ trivial).1, ?_⟩
    rcases r with e | page
    · trivial
    · obtain ⟨hlast, p, hp, k, hk, hchunk, hend⟩ := hr rfl
      refine grants_outline.storeAll fun s₃ hs₃ hstored => ?_
      -- from here on all is stored from where the page ended
      have hc : Covered serde truth login.us room events s₃.db (p - k) base := by
        refine covered_append (covered_stretch (by omega) (hchunk ▸ hstored)) ?_
        exact covered_grows (hs₂.trans hs₃) (hfrom (by simpa using hdone) hp)
      refine sound_write (fun s₄ hs₄ hinv₄ _ os => ?_) fun _ _ _ _ _ => trivial
      refine (allows_carry (fun s => Covered serde truth login.us room events s.db (p - k) base)
        hinv₄ (covered_grows hs₄ hc) (fun w hw rng s₅ hinv₅ hc₅ => ?_) os).1
      rw [List.mem_singleton.mp hw]
      have hgrows := @grows_exec S serde truth login
        (.setBackToken room page.endToken (page.endToken.isNone || page.chunk.isEmpty)) (by simp)
        login.number rng s₅
      refine ⟨⟨⟨hinv₅.1, walked_exec (by simp) (by simp) (fun t' done' hop => ?_) hinv₅.2⟩,
        fun _ _ => hgrows⟩, covered_grows hgrows hc₅⟩
      obtain ⟨-, rfl, rfl⟩ := StoreOp.setBackToken.inj hop
      rcases htoken : page.endToken with _ | x
      · rw [htoken] at hend
        dsimp only at hend
        rw [hend, Nat.sub_self] at hc₅
        exact ⟨by simp, fun _ => hc₅⟩
      · rw [htoken] at hend
        dsimp only at hend
        refine ⟨fun y hy => ?_, fun hempty => ?_⟩
        · rw [← Option.some.inj hy, hend]
          exact hc₅
        · have hzero := hlast (by simpa using hempty) x htoken
          rw [hend] at hzero
          rw [hzero] at hc₅
          exact hc₅

end Sound

/-- **A call that is about to set the mark may**: also where the room has no row yet. -/
theorem covered_of_sound {cond : Page → Prop} {s : Shared S} {n : ℕ} {t : Option String}
    {next : DaemonProc S} (hinv : (outline serde truth login room events position base).inv s)
    (h : Sound (rules serde truth layer login room events position base cond) Change.exec note
      (outline serde truth login room events position base) ()
      (.write [.store n (.setBackToken room t true)] next) s) :
    Covered serde truth login.us room events s.db 0 base := by
  -- where there is no row, it is as if somebody had made one
  let made : Shared S := Change.exec (fun _ => zeroSalt) s (.store n (.upsertRoom ⟨room, room, false, 0, 0, ""⟩))
  have hmade : ∃ e, edgeOf made.db room = some e := by
    simp only [edgeOf, made, Change.exec, StoreOp.exec, Write.upsertRoom, Write.upsertRoomStmt,
      Lib.Keyed.Table.lookup_upsert, if_pos]
    exact ⟨_, rfl⟩
  obtain ⟨e, he⟩ := hmade
  have hallows := (h made (grows_exec (by simp) n _ s)
    ⟨hinv.1, walked_exec (by simp) (by simp) (by simp) hinv.2⟩ (by simp [rules]) [fun _ => zeroSalt]).1
  have hedge := @edge_set S (fun _ => zeroSalt) made.db room t true e he
  intro i hlow hhigh hrender
  exact (hallows.1.2 t _ hedge).2 (by simp [boolI64]) i hlow hhigh hrender

/-- **Exhaustion is sound** in every reachable state, where no page is empty too early: with the mark set,
or a call about to set it, no event before `base` is left on the server only. -/
theorem covered_of_reports {p : Pool (Shared S) Change Request Reply Unit}
    {run : List (Event (Shared S) Change Request Reply Unit Salts)} (hprocs : p.procs = [])
    (hknows : Knows truth p.state)
    (hedge : edgeOf p.state.db room = none ∨ edgeOf p.state.db room = some (none, 0) ∨
      ∃ t, edgeOf p.state.db room = some (some t, 0) ∧ base ≤ position t)
    (hlawful : p.Lawful (rules serde truth layer login room events position base (EmptyLast position))
      Change.exec note run)
    (hreports : Reports room (p.runs Change.exec note run)) :
    Covered serde truth login.us room events (p.runs Change.exec note run).state.db 0 base := by
  have hwalked : Walked serde truth login room events position base p.state.db := by
    rcases hedge with h | h | ⟨t, h, hbase⟩
    · exact walked_unset (Or.inl h)
    · exact walked_unset (Or.inr h)
    · intro t' d he
      obtain ⟨rfl, rfl⟩ := Prod.mk.inj (Option.some.inj (h.symm.trans he))
      refine ⟨fun x hx _ i hlow hhigh => ?_, by simp⟩
      rw [Option.some.inj hx] at hbase
      omega
  have hsane : Sane (rules serde truth layer login room events position base (EmptyLast position))
      Change.exec note (outline serde truth login room events position base) p :=
    ⟨⟨hknows, hwalked⟩, by simp [hprocs], by simp [hprocs]⟩
  have hend := hsane.runs ⟨fun p' k q hstart _ => ⟨?_, fun _ _ => trivial⟩, fun s s' hchange hinv => ?_⟩
    hlawful
  · rcases hreports with ⟨t, d, he, hd⟩ | ⟨k, n, t, next, hmem⟩
    · exact (hend.inv.2 t d he).2 hd
    · exact covered_of_sound hend.inv (hend.sound _ hmem)
  · rcases hstart with ⟨limit, rfl⟩ | rfl | hq
    · exact sound_loadOlder limit _
    · exact sound_aside (only_syncOnce.mono (fun w hw => Paging.aside_of_ofSync hw) fun _ _ => trivial) _
    · exact sound_aside hq _
  · obtain ⟨hdb, hknows'⟩ := hchange
    have hgrows : Grows serde truth login s s' := fun _ _ hev => hdb ▸ hev
    exact ⟨⟨hknows', hdb ▸ hinv.2⟩, fun _ => hgrows⟩

end Exhaustion

/-! ### A room of plain messages -/

/-- A section seeds the edge at position 2 or later, and a page is asked for with a limit. -/
def seedsLate (p : Pool (Shared copySuite) Change Request Reply Unit) :
    Event (Shared copySuite) Change Request Reply Unit Salts → Bool
  | .run i _ =>
    match p.procs[i]? with
    | some (_, .locked writes _) => (writes p.state).all fun
      | .store _ (.seedBackToken _ t) => 2 ≤ t.length
      | _ => true
    | _ => true
  | .answer i _ =>
    match p.procs[i]? with
    | some (_, .ask (.messages _ _ limit) _) => 1 ≤ limit
    | _ => true
  | _ => true

def seedLate (p : Pool (Shared copySuite) Change Request Reply Unit) :
    List (Event (Shared copySuite) Change Request Reply Unit Salts) → Bool
  | [] => true
  | event :: run => seedsLate p event && seedLate (p.step Change.exec note event) run

/-- The server that pages as far as asked. -/
theorem serves_serve {base : ℕ} {cond : Page → Prop} {q : Request}
    (h : ∀ r t limit page, q = .messages r (some t) limit →
      Paging.serve (.messages r (some t) limit) = .ok page → cond page) :
    Serves "!r" said String.length base cond q (Paging.serve q) := by
  rcases q with _ | ⟨room, _ | t, limit⟩ | _ | _ | _ | _ | _ | _ | _ | _ | _ | _
  · trivial
  · trivial
  · refine fun _ => ⟨h room t limit _ rfl rfl, t.length, ⟨by simp, by simp⟩, min limit t.length, le_refl _,
      rfl, ?_⟩
    by_cases hall : t.length ≤ limit
    · simp [hall]
    · have hlt : ¬ min limit t.length = t.length := by omega
      simp [hlt]
  all_goals trivial

/-- It sends no page too early. -/
theorem emptyLast_serve {r t : String} {limit : ℕ} (hlimit : 1 ≤ limit) {page : Page}
    (h : Paging.serve (.messages r (some t) limit) = .ok page) : EmptyLast String.length page := by
  obtain rfl := Except.ok.inj h
  intro hchunk t' ht'
  have hlength : (stretch said t.length (min limit t.length)).length = 0 := by
    rw [show stretch said t.length (min limit t.length) = [] from hchunk]
    rfl
  have hmin : min limit t.length = 0 := by simpa [stretch] using hlength
  have hzero : t.length = 0 := by omega
  simp [hzero] at ht'

theorem legal_run {cond : Page → Prop} {p : Pool (Shared copySuite) Change Request Reply Unit} {i : ℕ}
    {os : List Salts} (h : seedsLate p (.run i os) = true) :
    p.Legal (rules noPlaintext (fun _ _ => none) idleLayer Paging.ours "!r" said String.length 2 cond)
      (.run i os) := by
  intro k writes next hi n t hmem
  simp only [seedsLate, hi, List.all_eq_true] at h
  simpa using h _ hmem

/-- Such a run may happen. -/
theorem lawful_of_told {run : List (Event (Shared copySuite) Change Request Reply Unit Salts)}
    {p : Pool (Shared copySuite) Change Request Reply Unit} (htold : ∀ e ∈ run, Paging.Told e)
    (hlate : seedLate p run = true) :
    p.Lawful (rules noPlaintext (fun _ _ => none) idleLayer Paging.ours "!r" said String.length 2
      (EmptyLast String.length)) Change.exec note run := by
  induction run generalizing p with
  | nil => trivial
  | cons e run ih =>
    obtain ⟨he, hrun⟩ := List.forall_mem_cons.mp htold
    obtain ⟨hnow, hlater⟩ := Bool.and_eq_true_iff.mp hlate
    refine ⟨?_, ih hrun hlater⟩
    rcases e with ⟨i, os⟩ | ⟨i, reply⟩ | i | ⟨k, q⟩ | s | _
    · exact legal_run hnow
    · intro k q next hi
      obtain rfl := he
      refine serves_serve fun r t limit page hq hpage => emptyLast_serve ?_ hpage
      subst hq
      simpa [seedsLate, hi] using hnow
    · exact he.elim
    · rcases he with ⟨limit, -, h⟩ | h
      · exact Or.inl ⟨limit, h⟩
      · exact Or.inr (Or.inl h)
    · exact he.elim
    · exact he.elim

/-- A call pages to the start, and a round comes after it. -/
theorem covered_roundAndPage :
    Covered noPlaintext (fun _ _ => none) "@us" "!r" said
      (Paging.seeded.runs Change.exec note (Paging.roundAndPage 5)).state.db 0 2 := by
  refine @covered_of_reports _ _ _ idleLayer Paging.ours _ _ String.length _ _ _ rfl
    (fun _ _ => Or.inl rfl) (Or.inr (Or.inr ⟨tally 2, by decide +kernel, by simp⟩))
    (lawful_of_told (Paging.told_roundAndPage (by omega)) (by decide +kernel)) (Or.inl ⟨some (tally 5), 1, ?_⟩)
  decide +kernel

/-- A server of whose pages the filter leaves nothing. -/
def filtered : (q : Request) → Reply q
  | .messages _ t _ => .ok ⟨[], some (t.getD (tally 2))⟩
  | q => Paging.serve q

theorem serves_filtered (q : Request) :
    Serves "!r" said String.length 2 (fun _ => True) q (filtered q) := by
  rcases q with _ | ⟨room, t, limit⟩ | _ | _ | _ | _ | _ | _ | _ | _ | _ | _
  · trivial
  · refine fun _ => ⟨trivial, (t.getD (tally 2)).length, ⟨?_, ?_⟩, 0, Nat.zero_le _, rfl, rfl⟩
    · rintro x rfl
      rfl
    · rintro rfl
      simp
  all_goals trivial

/-- A call that gets one of these pages. -/
def emptyPage : List (Event (Shared copySuite) Change Request Reply Unit Salts) :=
  [.start () (loadOlder noPlaintext Paging.ours "!r" 50), .run 0 [], .answer 0 filtered,
    .run 0 [fun _ => zeroSalt]]

/-- **An empty page with a token ends the room**: nothing of it was fetched. -/
theorem not_covered_emptyPage :
    ¬ ∀ run, Paging.seeded.Lawful (rules noPlaintext (fun _ _ => none) idleLayer Paging.ours "!r" said
        String.length 2 fun _ => True) Change.exec note run →
      Reports "!r" (Paging.seeded.runs Change.exec note run) →
      Covered noPlaintext (fun _ _ => none) "@us" "!r" said
        (Paging.seeded.runs Change.exec note run).state.db 0 2 := by
  intro h
  have hlawful : Paging.seeded.Lawful (rules noPlaintext (fun _ _ => none) idleLayer Paging.ours "!r" said
      String.length 2 fun _ => True) Change.exec note emptyPage := by
    refine ⟨Or.inl ⟨50, rfl⟩, legal_run ?_, fun k q next _ => serves_filtered q, legal_run ?_, trivial⟩
    · decide +kernel
    · decide +kernel
  have hstored := h emptyPage hlawful (Or.inl ⟨some (tally 2), 1, by decide +kernel⟩) 0 (le_refl 0)
    (by omega) (renderable_said _ _ _ _)
  obtain ⟨row, hrow⟩ := stored_said hstored
  have hmissing : (Paging.seeded.runs Change.exec note emptyPage).state.db.db.messages.lookup (tally 0) =
      none := by decide +kernel
  rw [hmissing] at hrow
  simp at hrow

end Kmatrix.Daemon.Exhaustion
