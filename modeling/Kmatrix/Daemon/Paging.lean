import Kmatrix.Daemon.Backlog

/-! # Paging back

`do_load_older` reads the edge of the room, fetches the page before it, stores the page and moves the
edge, and drops the lock in between. Beside it the same call may run again, a sync may upsert the room and
seed it, and any call may give up anywhere.

The edge is only moved by whoever has stored what lies between where it was and where it is put, and what
is stored stays. So all is well until the start of the room is reached: then the edge is `NULL`, like one
that was never seeded, and the next sync seeds it again, at a newer position. -/

namespace Kmatrix.Daemon.Paging

open Kmatrix.Lib.Keyed Kmatrix.Lib.Threads Kmatrix.Daemon.Procs Kmatrix.Daemon.Backlog
open Kmatrix.E2ee.Effects (blankStore)
open Kmatrix.Storage Kmatrix.Storage.Seal Kmatrix.Storage.Schema
open Kmatrix.Storage.Write (StoreOp)
open Kmatrix.Sync Kmatrix.Sync.Plaintext Kmatrix.Sync.Events Kmatrix.Sync.Convert

section Paging
variable {S : CipherSuite} (serde : SerdeJson) (truth : Opens) (layer : Layer S) (login : Login)
  (room : String) (events : ℕ → RoomEvent) (token : ℕ → String) (start : ℕ)

/-- **What the server answers**: up to `limit` events before the token, and the token of the oldest, or
none at the start of the room. A request may fail, and a batch may hold anything. -/
def Serves : (q : Request) → Reply q → Prop
  | .messages r (some t) limit, .ok page => r = room → ∀ p, t = token p →
      ∃ k ≤ min limit p, page.chunk = stretch events p k ∧
        (page.endToken = some (token (p - k)) ∨ (page.endToken = none ∧ k = p))
  | _, _ => True

/-- What runs beside the paging: it wipes nothing, and does not move the edge of the room. -/
def Aside : Change → Prop
  | .store _ op => op ≠ .clear ∧ ∀ t d, op ≠ .setBackToken room t d
  | .setCrypto _ => False
  | _ => True

/-- **What may happen**, with a condition on the sections. -/
def rules (sections : Shared S → List Change → Prop) : Rules (Shared S) Change Request Reply Unit where
  sections := sections
  answers _ q r := Serves room events token q r
  starts _ _ q := (∃ limit, 1 ≤ limit ∧ q = loadOlder serde login room limit) ∨
    q = syncOnce serde layer login ∨ q.Only (Aside room) fun _ => True
  changes s s' := s'.db = s.db ∧ Knows truth s'

/-- **The edge is covered**: every renderable event between where it was seeded and where it is now is
stored. An edge that is at no position has passed the start of the room. -/
def EdgeCovered (st : Store S) : Prop :=
  ∃ t d, edgeOf st room = some (t, d) ∧
    ((∃ p, t = some (token p) ∧
        Covered serde truth login.us room events st (min p start) (max p start)) ∨
      ((∀ p, t ≠ some (token p)) ∧ Covered serde truth login.us room events st 0 start))

/-- **The condition**: where a section seeds an edge that is `NULL`, what lies between where it was
seeded first and the new position is stored. -/
def SeedsCovered (s : Shared S) (ws : List Change) : Prop :=
  ∀ d, edgeOf s.db room = some (none, d) → ∀ n q, .store n (.seedBackToken room (token q)) ∈ ws →
    Covered serde truth login.us room events s.db start q

/-! ### The invariant -/

/-- The edge has not moved past what is stored, or the start was reached and the call is over. -/
def Paged (st : Store S) : Prop :=
  ∃ t d, edgeOf st room = some (t, d) ∧
    ((∃ p ≤ start, t = some (token p) ∧ Covered serde truth login.us room events st p start) ∨
      (d ≠ 0 ∧ Covered serde truth login.us room events st 0 start ∧
        ∀ p, t = some (token p) → Covered serde truth login.us room events st start p))

/-- The outline: what is stored stays. -/
def outline : Outline (Shared S) Unit where
  inv s := Knows truth s ∧ Paged serde truth login room events token start s.db
  rely _ s s' := Grows serde truth login s s'
  beside _ _ := True
  refl _ _ := fun _ _ h => h
  trans h h' := h.trans h'
  symm _ := trivial

variable {serde truth layer login room events token start}

/-- What the invariant says of the edge is what was claimed. -/
theorem edgeCovered_of_paged {st : Store S}
    (h : Paged serde truth login room events token start st) :
    EdgeCovered serde truth login room events token start st := by
  obtain ⟨t, d, he, ⟨p, hp, rfl, hc⟩ | ⟨-, hc, hseeded⟩⟩ := h
  · refine ⟨_, d, he, Or.inl ⟨p, rfl, ?_⟩⟩
    rw [min_eq_left hp, max_eq_right hp]
    exact hc
  · refine ⟨t, d, he, ?_⟩
    by_cases ht : ∃ p, t = some (token p)
    · obtain ⟨p, rfl⟩ := ht
      refine Or.inl ⟨p, rfl, fun i hlow hhigh hrender => ?_⟩
      rcases Nat.lt_or_ge i start with hi | hi
      · exact hc i (Nat.zero_le i) hi hrender
      · exact hseeded p rfl i hi (by omega) hrender
    · exact Or.inr ⟨fun p hp => ht ⟨p, hp⟩, hc⟩

/-! ### The writes -/

section Writes
variable {s : Shared S} {rng : Salts} {n : ℕ} {op : StoreOp}

/-- The invariant, after the store has grown and the edge stayed. -/
theorem Paged.grows {s s' : Shared S} (h : Paged serde truth login room events token start s.db)
    (hgrows : Grows serde truth login s s')
    (hedge : ∀ e, edgeOf s.db room = some e → edgeOf s'.db room = some e) :
    Paged serde truth login room events token start s'.db := by
  obtain ⟨t, d, he, ⟨p, hp, ht, hc⟩ | ⟨hd, hc, hseeded⟩⟩ := h
  · exact ⟨t, d, hedge _ he, Or.inl ⟨p, hp, ht, covered_grows hgrows hc⟩⟩
  · exact ⟨t, d, hedge _ he, Or.inr ⟨hd, covered_grows hgrows hc,
      fun p hp => covered_grows hgrows (hseeded p hp)⟩⟩

/-- **What runs beside the paging keeps the invariant**, seeding included where the condition holds. -/
theorem paged_aside (h : Paged serde truth login room events token start s.db)
    (hop : Aside room (.store n op))
    (hseeds : SeedsCovered serde truth login room events token start s [.store n op]) :
    Paged serde truth login room events token start (op.exec rng s.db) := by
  have hgrows : Grows serde truth login s (Change.exec rng s (.store n op)) :=
    grows_exec hop.1 n rng s
  by_cases hseed : ∃ t, op = .seedBackToken room t
  · obtain ⟨new, rfl⟩ := hseed
    obtain ⟨t, d, he, hcases⟩ := h
    have he' := @edge_seed S rng s.db room new t d he
    rcases t with _ | t
    · obtain ⟨p, -, ht, -⟩ | ⟨hd, hc, -⟩ := hcases
      · simp at ht
      · refine ⟨_, d, he', Or.inr ⟨hd, covered_grows hgrows hc, fun q hq => ?_⟩⟩
        have hnew : new = token q := Option.some.inj hq
        refine covered_grows hgrows (hseeds d he n q ?_)
        rw [hnew]
        exact List.mem_cons_self
    · have hpaged : Paged serde truth login room events token start s.db := ⟨_, d, he, hcases⟩
      refine hpaged.grows hgrows fun e hedge => ?_
      rw [he] at hedge
      rw [← Option.some.inj hedge]
      exact he'
  · have hquiet : Quiet room op := ⟨hop.1, fun t ht => hseed ⟨t, ht⟩, hop.2⟩
    exact h.grows hgrows fun e he => edge_quiet hquiet he

/-- Nobody unseeds the edge: the condition stays. -/
theorem seedsCovered_exec {ws : List Change}
    (h : SeedsCovered serde truth login room events token start s ws)
    (hpaged : Paged serde truth login room events token start s.db)
    (hop : Aside room (.store n op)) :
    SeedsCovered serde truth login room events token start (Change.exec rng s (.store n op)) ws := by
  intro d he m q hmem
  refine covered_grows (grows_exec hop.1 n rng s) ?_
  obtain ⟨t, d', he', -⟩ := hpaged
  by_cases hseed : ∃ new, op = .seedBackToken room new
  · obtain ⟨new, rfl⟩ := hseed
    have hseeded := @edge_seed S rng s.db room new t d' he'
    rw [Change.exec, hseeded] at he
    simp at he
  · have hquiet : Quiet room op := ⟨hop.1, fun t ht => hseed ⟨t, ht⟩, hop.2⟩
    have hkept := @edge_quiet S rng s.db op room _ hquiet he'
    rw [Change.exec, hkept] at he
    have ht : t = none := (Prod.mk.inj (Option.some.inj he)).1
    rw [ht] at he'
    exact h d' he' m q hmem

/-- **The sections of what runs beside the paging are allowed**, where the condition holds. -/
theorem allows_aside {ws : List Change}
    (hinv : (outline serde truth login room events token start : Outline (Shared S) Unit).inv s)
    (hseeds : SeedsCovered serde truth login room events token start s ws)
    (hws : ∀ w ∈ ws, Aside room w) (os : List Salts) :
    (outline serde truth login room events token start).Allows () s (carry Change.exec s ws os) := by
  refine (allows_carry (fun s => SeedsCovered serde truth login room events token start s ws) hinv
    hseeds (fun w hw rng s' hinv' hseeds' => ?_) os).1
  have hw' := hws w hw
  rcases w with ⟨n, op⟩ | ⟨n, r, jr, row⟩ | _ | _ | _ | _
  · have hone : SeedsCovered serde truth login room events token start s' [.store n op] := by
      intro d he m q hmem
      rw [List.mem_singleton] at hmem
      exact hseeds' d he m q (hmem ▸ hw)
    refine ⟨⟨⟨hinv'.1, paged_aside hinv'.2 hw' hone⟩, fun _ _ => grows_exec hw'.1 n rng s'⟩, ?_⟩
    exact seedsCovered_exec hseeds' hinv'.2 hw'
  · have hgrows := @grows_storeRoom S serde truth login n r jr row rng s'
    have hedge := fun e => @edge_quiet S rng s'.db _ room e (quiet_upsertRoom row)
    refine ⟨⟨⟨hinv'.1, hinv'.2.grows hgrows hedge⟩, fun _ _ => hgrows⟩, fun d he m q hmem => ?_⟩
    obtain ⟨t, d', he', -⟩ := hinv'.2
    rw [Change.exec, hedge _ he'] at he
    rw [(Prod.mk.inj (Option.some.inj he)).1] at he'
    exact covered_grows hgrows (hseeds' d' he' m q hmem)
  · exact hw'.elim
  · exact ⟨⟨hinv', fun _ _ _ _ h => h⟩, hseeds'⟩
  · exact ⟨⟨hinv', fun _ _ _ _ h => h⟩, hseeds'⟩
  · exact ⟨⟨hinv', fun _ _ _ _ h => h⟩, hseeds'⟩

/-- Moving the edge to what is stored. -/
theorem paged_set (hgrows : Grows serde truth login s (Change.exec rng s (.store n op)))
    (hpaged : Paged serde truth login room events token start s.db) {p k : ℕ}
    (hp : p ≤ start) (hk : k ≤ p)
    (hc : Covered serde truth login.us room events s.db (p - k) start) {new : Option String} {done : Bool}
    (hop : op = .setBackToken room new done)
    (hnew : new = some (token (p - k)) ∨ (new = none ∧ done = true ∧ k = p)) :
    Paged serde truth login room events token start (op.exec rng s.db) := by
  obtain ⟨t, d, he, -⟩ := hpaged
  subst hop
  have he' := @edge_set S rng s.db room new done _ he
  rcases hnew with rfl | ⟨rfl, rfl, rfl⟩
  · exact ⟨_, _, he', Or.inl ⟨p - k, by omega, rfl, covered_grows hgrows hc⟩⟩
  · refine ⟨_, _, he', Or.inr ⟨by simp [boolI64], ?_, by simp⟩⟩
    rw [Nat.sub_self] at hc
    exact covered_grows hgrows hc

end Writes

/-! ### The procedures -/

section Sound
variable {sections : Shared S → List Change → Prop}

theorem grants_outline :
    Grants serde truth login room
      (outline serde truth login room events token start : Outline (Shared S) Unit) ()
      (Grows serde truth login) :=
  grants_growing fun _ _ _ hop h =>
    h.grows (grows_exec hop.1 login.number _ _) fun _ he => edge_quiet hop he

/-- **A call of `do_load_older` is sound** from any state on: the page it stores lies before a position
from which on everything was stored when it looked. -/
theorem sound_loadOlder (limit : ℕ) (s : Shared S) :
    Sound (rules serde truth layer login room events token sections) Change.exec note
      (outline serde truth login room events token start) () (loadOlder serde login room limit) s := by
  refine sound_read fun s₁ _ hinv₁ => ?_
  obtain ⟨t, d, he, hcases⟩ := hinv₁.2
  rw [backToken_of_edge he]
  dsimp only
  split_ifs with hdone
  · trivial
  · rcases hcases with ⟨p, hp, rfl, hc⟩ | ⟨hd, -, -⟩
    · intro s₂ hs₂ hinv₂ r hr
      refine ⟨(grants_outline.toKeeps.notes _ r hinv₂ trivial).1, ?_⟩
      rcases r with e | page
      · trivial
      · obtain ⟨k, hk, hchunk, hend⟩ := hr rfl p rfl
        have hkp : k ≤ p := by omega
        refine grants_outline.storeAll fun s₃ hs₃ hstored => ?_
        -- from here on the stretch before the position is stored, and stays so
        have hc₃ : Covered serde truth login.us room events s₃.db (p - k) start := by
          refine covered_append (covered_stretch hkp ?_) (covered_grows (hs₂.trans hs₃) hc)
          rw [← hchunk]
          exact hstored
        refine sound_write (fun s₄ hs₄ hinv₄ _ os => ?_) fun _ _ _ _ _ => trivial
        have hc₄ := covered_grows hs₄ hc₃
        refine (allows_carry (fun s => Covered serde truth login.us room events s.db (p - k) start)
          hinv₄ hc₄ (fun w hw rng s₅ hinv₅ hc₅ => ?_) os).1
        rw [List.mem_singleton.mp hw]
        have hgrows := @grows_exec S serde truth login
          (.setBackToken room page.endToken (page.endToken.isNone || page.chunk.isEmpty)) (by simp)
          login.number rng s₅
        refine ⟨⟨⟨hinv₅.1, ?_⟩, fun _ _ => hgrows⟩, covered_grows hgrows hc₅⟩
        refine paged_set hgrows hinv₅.2 hp hkp hc₅ rfl ?_
        rcases hend with hend | ⟨hend, rfl⟩
        · exact Or.inl hend
        · exact Or.inr ⟨hend, by simp [hend], rfl⟩
    · exact absurd (by simpa using hd) hdone

theorem aside_of_ofSync {w : Change} (h : OfSync login.number w) : Aside room w := by
  rcases w with ⟨n, op⟩ | _ | _ | _ | _ | _
  · obtain ⟨-, hop⟩ := h
    rcases op with _ | _ | _ | _ | _ | _ | _ | _ | _ | _ | _
    all_goals first | exact hop.elim | simp [Aside]
  all_goals first | exact h.elim | trivial

theorem sound_aside {q : DaemonProc S} (hq : q.Only (Aside room) fun _ => True) (s : Shared S) :
    Sound (rules serde truth layer login room events token
        (SeedsCovered serde truth login room events token start)) Change.exec note
      (outline serde truth login room events token start) () q s := by
  refine hq.sound (fun s' ws hinv hseeds hws os => ?_) (fun s' q r hinv _ _ => ?_) s
  · exact allows_aside hinv hseeds hws os
  · exact (grants_outline.toKeeps.notes q r hinv trivial).1

end Sound

/-- **The edge is covered in every reachable state** of a run whose sections meet the condition. -/
theorem edgeCovered_of_lawful {p : Pool (Shared S) Change Request Reply Unit}
    {run : List (Event (Shared S) Change Request Reply Unit Salts)}
    (hseeded : ∃ d, edgeOf p.state.db room = some (some (token start), d))
    (hknows : Knows truth p.state) (hprocs : ∀ x ∈ p.procs, x.2.Only (Aside room) fun _ => True)
    (hlawful : p.Lawful (rules serde truth layer login room events token
      (SeedsCovered serde truth login room events token start)) Change.exec note run) :
    EdgeCovered serde truth login room events token start (p.runs Change.exec note run).state.db := by
  obtain ⟨d, hd⟩ := hseeded
  have hpaged : Paged serde truth login room events token start p.state.db :=
    ⟨_, d, hd, Or.inl ⟨start, le_refl _, rfl, fun i hlow hhigh => by omega⟩⟩
  have hsane : Sane (rules serde truth layer login room events token
      (SeedsCovered serde truth login room events token start)) Change.exec note
      (outline serde truth login room events token start) p :=
    ⟨⟨hknows, hpaged⟩, fun x hx => sound_aside (hprocs x hx) _,
      List.pairwise_of_forall fun _ _ => trivial⟩
  refine edgeCovered_of_paged (hsane.runs ⟨fun p' k q hstart _ => ?_, fun s s' hchange hinv => ?_⟩
    hlawful).inv.2
  · refine ⟨?_, fun _ _ => trivial⟩
    rcases hstart with ⟨limit, -, rfl⟩ | rfl | hq
    · exact sound_loadOlder limit _
    · exact sound_aside (only_syncOnce.mono (fun w hw => aside_of_ofSync hw) fun _ _ => trivial) _
    · exact sound_aside hq _
  · obtain ⟨hdb, hknows'⟩ := hchange
    have hgrows : Grows serde truth login s s' := fun _ _ hev => hdb ▸ hev
    exact ⟨⟨hknows', hdb ▸ hinv.2⟩, fun _ => hgrows⟩

end Paging

/-! ### A room of plain messages -/

/-- A room whose edge is at position 2. -/
def seededStore : Store copySuite :=
  StoreOp.exec (fun _ => zeroSalt)
    (StoreOp.exec (fun _ => zeroSalt) blankStore (.upsertRoom ⟨"!r", "!r", false, 0, 0, ""⟩))
    (.seedBackToken "!r" (tally 2))

def seeded : Pool (Shared copySuite) Change Request Reply Unit :=
  ⟨⟨seededStore, none, none, none, []⟩, []⟩

def ours : Login := ⟨0, ⟨"https://example.org", "@us", "DEVICE", "token"⟩⟩

/-- The newest event of the room, in a limited timeline. -/
def limitedBatch : SyncResponse :=
  ⟨[], ⟨"next", [("!r", { timeline := [said 5], prevBatch := some (tally 5) })],
    List.nodup_singleton "!r"⟩, 50⟩

/-- A server that pages as far as asked, and has the batch. -/
def serve : (q : Request) → Reply q
  | .sync _ => .ok limitedBatch
  | .messages _ (some t) limit =>
    let p := t.length
    let k := min limit p
    .ok ⟨stretch said p k, if k = p then none else some (tally (p - k))⟩
  | .messages _ none _ => .error "timeout"
  | .keysUpload => .error "timeout"
  | .backupVersion => .error "timeout"
  | .joinedMembers _ => .error "timeout"
  | .keysQuery => .error "timeout"
  | .keysClaim => .error "timeout"
  | .sendToDevice _ => .error "timeout"
  | .sendEvent _ _ _ => .error "timeout"
  | .directRooms => .error "timeout"
  | .roomName _ => .error "timeout"
  | .memberNames _ => .error "timeout"

theorem serves_serve (q : Request) : Serves "!r" said tally q (serve q) := by
  rcases q with _ | ⟨room, _ | t, limit⟩ | _ | _ | _ | _ | _ | _ | _ | _ | _ | _
  · trivial
  · trivial
  · intro _ p hp
    subst hp
    refine ⟨min limit p, le_refl _, by simp, ?_⟩
    by_cases hk : p ≤ limit
    · exact Or.inr ⟨by simp [hk], by omega⟩
    · have hlt : ¬ min limit p = p := by omega
      exact Or.inl (by simp [hlt])
  all_goals trivial

/-- A call that pages back, a round beside it, and all their sections. -/
def roundAndPage (limit : ℕ) : List (Event (Shared copySuite) Change Request Reply Unit Salts) :=
  [.start () (loadOlder noPlaintext ours "!r" limit), .run 0 [], .answer 0 serve] ++
    List.replicate 6 (.run 0 [fun _ => zeroSalt]) ++
    [.start () (syncOnce noPlaintext idleLayer ours), .run 0 [], .answer 0 serve] ++
    List.replicate 8 (.run 0 (List.replicate 4 fun _ => zeroSalt))

/-- The edge is not `NULL` when a section runs. -/
def staysSeeded (p : Pool (Shared copySuite) Change Request Reply Unit) :
    List (Event (Shared copySuite) Change Request Reply Unit Salts) → Bool
  | [] => true
  | event :: events => ((edgeOf p.state.db "!r").any fun e => e.1.isSome) &&
      staysSeeded (p.step Change.exec note event) events

/-- What the runs here are made of. -/
def Told : Event (Shared copySuite) Change Request Reply Unit Salts → Prop
  | .run _ _ => True
  | .answer _ reply => reply = serve
  | .start _ q => (∃ limit, 1 ≤ limit ∧ q = loadOlder noPlaintext ours "!r" limit) ∨
      q = syncOnce noPlaintext idleLayer ours
  | _ => False

theorem told_roundAndPage {limit : ℕ} (h : 1 ≤ limit) : ∀ e ∈ roundAndPage limit, Told e := by
  intro e he
  simp only [roundAndPage, List.mem_append, List.mem_cons, List.not_mem_nil, or_false,
    List.mem_replicate] at he
  rcases he with ((((rfl | rfl | rfl) | ⟨-, rfl⟩) | (rfl | rfl | rfl)) | ⟨-, rfl⟩)
  · exact Or.inl ⟨limit, h, rfl⟩
  · trivial
  · rfl
  · trivial
  · exact Or.inr rfl
  · trivial
  · rfl
  · trivial

/-- Such a run may happen, if the condition is no condition or no edge is `NULL`. -/
theorem lawful_of_told {sections : Shared copySuite → List Change → Prop}
    {run : List (Event (Shared copySuite) Change Request Reply Unit Salts)}
    {p : Pool (Shared copySuite) Change Request Reply Unit} (htold : ∀ e ∈ run, Told e)
    (hsections : (∀ s ws, sections s ws) ∨ (staysSeeded p run = true ∧
      ∀ s ws, (edgeOf s.db "!r").any (fun e => e.1.isSome) = true → sections s ws)) :
    p.Lawful (rules noPlaintext (fun _ _ => none) idleLayer ours "!r" said tally sections) Change.exec
      note run := by
  induction run generalizing p with
  | nil => trivial
  | cons e run ih =>
    obtain ⟨he, hrun⟩ := List.forall_mem_cons.mp htold
    refine ⟨?_, ih hrun ?_⟩
    · rcases e with ⟨i, os⟩ | ⟨i, reply⟩ | i | ⟨k, q⟩ | s | _
      · intro k writes next _
        rcases hsections with h | ⟨h, hs⟩
        · exact h _ _
        · exact hs _ _ (Bool.and_eq_true_iff.mp h).1
      · intro k q next _
        obtain rfl := he
        exact serves_serve q
      · exact he.elim
      · rcases he with h | h
        · exact Or.inl h
        · exact Or.inr (Or.inl h)
      · exact he.elim
      · exact he.elim
    · exact hsections.imp id fun ⟨h, hs⟩ => ⟨(Bool.and_eq_true_iff.mp h).2, hs⟩

/-- One page, and a round that finds the edge in place. -/
theorem edgeCovered_roundAndPage :
    EdgeCovered noPlaintext (fun _ _ => none) ours "!r" said tally 2
      (seeded.runs Change.exec note (roundAndPage 1)).state.db := by
  refine @edgeCovered_of_lawful _ _ _ idleLayer _ _ _ _ _ _ _ ⟨0, by decide +kernel⟩
    (fun _ _ => Or.inl rfl) (by simp [seeded])
    (lawful_of_told (told_roundAndPage (le_refl 1)) (Or.inr ⟨by decide +kernel, ?_⟩))
  intro s ws h d hd
  rw [hd] at h
  simp at h

/-- **The start is reached, and a limited round seeds the edge again**, past what it cut off. -/
theorem not_edgeCovered_reseeded :
    ¬ ∀ run, seeded.Lawful (rules noPlaintext (fun _ _ => none) idleLayer ours "!r" said tally
        fun _ _ => True) Change.exec note run →
      EdgeCovered noPlaintext (fun _ _ => none) ours "!r" said tally 2
        (seeded.runs Change.exec note run).state.db := by
  intro h
  obtain ⟨t, d, he, hcases⟩ := h (roundAndPage 5)
    (lawful_of_told (told_roundAndPage (by omega)) (Or.inl fun _ _ => trivial))
  have hedge : edgeOf (seeded.runs Change.exec note (roundAndPage 5)).state.db "!r" =
      some (some (tally 5), 1) := by decide +kernel
  rw [hedge] at he
  obtain ⟨rfl, rfl⟩ := Prod.mk.inj (Option.some.inj he)
  rcases hcases with ⟨p, hp, hc⟩ | ⟨hno, -⟩
  · obtain rfl := tally_inj (Option.some.inj hp)
    obtain ⟨row, hrow⟩ := stored_said (hc 3 (by omega) (by omega) (renderable_said _ _ _ _))
    have hmissing : (seeded.runs Change.exec note (roundAndPage 5)).state.db.db.messages.lookup
        (tally 3) = none := by decide +kernel
    rw [hmissing] at hrow
    simp at hrow
  · exact hno 5 rfl

end Kmatrix.Daemon.Paging
