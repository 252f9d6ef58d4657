import Kmatrix.Daemon.Backlog

/-! # The two cursors of a room

The sync token goes forward and the edge of a room goes back, and all that lies between them should be
stored. A batch holds the newest events since the token: where there are too many it is `limited`, and its
`prev_batch` says where it starts. The daemon seeds the edge once and does not ask whether a later batch
is limited: what such a batch cuts off is behind the token and before the edge, and is never fetched. -/

namespace Kmatrix.Daemon.Gaps

open Kmatrix.Lib.Keyed Kmatrix.Lib.Threads Kmatrix.Daemon.Procs Kmatrix.Daemon.Backlog
open Kmatrix.E2ee.Effects (blankStore)
open Kmatrix.Storage Kmatrix.Storage.Seal Kmatrix.Storage.Schema
open Kmatrix.Storage.Write (StoreOp)
open Kmatrix.Sync Kmatrix.Sync.Plaintext Kmatrix.Sync.Events Kmatrix.Sync.Convert

section Gaps
variable {S : CipherSuite} (serde : SerdeJson) (truth : Opens) (layer : Layer S) (login : Login)
  (room : String) (events : ℕ → RoomEvent) (token : ℕ → String) (position : String → ℕ)

/-- The last synced position of the room. -/
def SyncedTo (st : Store S) (n : ℕ) : Prop :=
  ∃ t, st.db.metas.lookup "sync_token" = some t ∧ position t = n

/-- The edge of the room: the start, once it was reached. -/
def EdgeAt (st : Store S) (e : ℕ) : Prop :=
  ∃ t d, edgeOf st room = some (t, d) ∧ ((d ≠ 0 ∧ e = 0) ∨ (d = 0 ∧ t = some (token e)))

/-- **No gap**: every renderable event between the edge and the last synced position is stored. -/
def Gapless (st : Store S) : Prop :=
  ∀ e n, EdgeAt room token st e → SyncedTo position st n →
    Covered serde truth login.us room events st e n

/-! ### The server -/

/-- Where a sync starts. -/
def sinceAt (since : Option String) : ℕ := (since.map position).getD 0

/-- **A batch** after `since`: the newest events of the room from `q` on, thirty at most, with the token
of where they start. The room is absent if it has nothing new. -/
structure Window (since : Option String) (batch : SyncBatch) (q : ℕ) : Prop where
  after : sinceAt position since ≤ q
  upto : q ≤ position batch.nextBatch
  newest : position batch.nextBatch - q ≤ 30
  here : ∀ jr, (room, jr) ∈ batch.join →
    jr.timeline = span events q (position batch.nextBatch) ∧ jr.prevBatch = some (token q)
  absent : (∀ jr, (room, jr) ∉ batch.join) → position batch.nextBatch = sinceAt position since

/-- **A page**: the events just before `p`, `limit` at most, and the token of the oldest, or none at the
start of the room. Before the start no page is empty. -/
def PageBefore (p limit : ℕ) (page : Page) : Prop :=
  ∃ k ≤ min limit p, page.chunk = stretch events p k ∧ (k = 0 → p = 0) ∧
    (page.endToken = some (token (p - k)) ∨ (page.endToken = none ∧ k = p))

/-- **What the server answers**, with a condition on the batches. A page without a token starts at the
newest event. -/
def Serves (cond : Store S → Option String → ℕ → Prop) (s : Shared S) : (q : Request) → Reply q → Prop
  | .sync since, .ok resp => ∃ q, Window room events token position since resp.batch q ∧ cond s.db since q
  | .messages r t limit, .ok page => r = room →
      (∀ p, t = some (token p) → PageBefore events token p limit page) ∧
        (t = none → ∃ m, (∀ n, SyncedTo position s.db n → n ≤ m) ∧ PageBefore events token m limit page)
  | _, _ => True

/-- **What may happen**: one procedure after the other, each of which may stop anywhere. -/
def rules (cond : Store S → Option String → ℕ → Prop) : Rules (Shared S) Change Request Reply Unit where
  sections _ _ := True
  answers := Serves room events token position cond
  starts p _ q := p.procs = [] ∧ (q = syncOnce serde layer login ∨
    (∃ r limit, 1 ≤ limit ∧ q = loadOlder serde login r limit) ∨ q.Only (Steady room) fun _ => True)
  changes s s' := s'.db = s.db ∧ Knows truth s'

/-- **The condition**: a batch that starts at `q` cuts off nothing after the edge that is not stored. -/
def Uncut (st : Store S) (since : Option String) (q : ℕ) : Prop :=
  ∀ e, EdgeAt room token st e → ∀ i, sinceAt position since ≤ i → i < q → e ≤ i →
    Renderable serde truth login.us room (events i) → Stored serde truth login.us room st (events i)

/-! ### The invariant -/

/-- The edge is at a position. -/
def Placed (st : Store S) : Prop :=
  ∀ t d, edgeOf st room = some (some t, d) → ∃ p, t = token p

/-- **The outline**: between two sections of the one procedure that runs, the store stays as it is. -/
def outline : Outline (Shared S) Unit where
  inv s := Knows truth s ∧ Placed room token s.db ∧
    Gapless serde truth login room events token position s.db
  rely _ s s' := s'.db = s.db
  beside _ _ := False
  refl _ _ := rfl
  trans h h' := h'.trans h
  symm h := h

/-- **What a steady write keeps**: what is stored, the edge, the token. -/
structure Tracks (s s' : Shared S) : Prop where
  grows : Grows serde truth login s s'
  edge : ∀ e, EdgeAt room token s'.db e → EdgeAt room token s.db e
  synced : s'.db.db.metas.lookup "sync_token" = s.db.db.metas.lookup "sync_token"

/-- **A batch is being stored**: the token is still the old one, and from the edge up to where the batch
starts everything is stored. -/
structure Due (since : Option String) (q : ℕ) (s : Shared S) : Prop where
  synced : s.db.db.metas.lookup "sync_token" = since
  upto : ∀ e, EdgeAt room token s.db e → Covered serde truth login.us room events s.db e q

variable {serde truth layer login room events token position}

theorem Tracks.trans {s s' s'' : Shared S} (h : Tracks serde truth login room token s s')
    (h' : Tracks serde truth login room token s' s'') : Tracks serde truth login room token s s'' :=
  ⟨h.grows.trans h'.grows, fun e he => h.edge e (h'.edge e he), h'.synced.trans h.synced⟩

theorem tracks_of_same {s s' : Shared S} (h : s'.db = s.db) :
    Tracks serde truth login room token s s' :=
  ⟨fun _ _ hev => h ▸ hev, fun _ he => h ▸ he, by rw [h]⟩

theorem Due.track {since : Option String} {q : ℕ} {s s' : Shared S}
    (h : Due serde truth login room events token since q s)
    (ht : Tracks serde truth login room token s s') :
    Due serde truth login room events token since q s' :=
  ⟨ht.synced.trans h.synced, fun e he => covered_grows ht.grows (h.upto e (ht.edge e he))⟩

/-! ### The writes -/

section Writes
variable {s : Shared S} {rng : Salts} {n : ℕ} {op : StoreOp}

/-- A quiet write brings no edge. -/
theorem edgeAt_quiet (hop : Quiet room op) {e : ℕ} (he : EdgeAt room token (op.exec rng s.db) e) :
    EdgeAt room token s.db e := by
  obtain ⟨t, d, hedge, hcases⟩ := he
  rcases hold : edgeOf s.db room with _ | old
  · obtain ⟨rfl, rfl⟩ := Prod.mk.inj (edge_quiet_none hop hold hedge)
    rcases hcases with ⟨hd, -⟩ | ⟨-, ht⟩
    · exact absurd rfl hd
    · simp at ht
  · rw [edge_quiet hop hold] at hedge
    rw [Option.some.inj hedge] at hold
    exact ⟨t, d, hold, hcases⟩

theorem placed_quiet (hop : Quiet room op) (h : Placed room token s.db) :
    Placed room token (op.exec rng s.db) := by
  intro t d hedge
  rcases hold : edgeOf s.db room with _ | old
  · have hnew := edge_quiet_none hop hold hedge
    simp at hnew
  · rw [edge_quiet hop hold] at hedge
    rw [Option.some.inj hedge] at hold
    exact h t d hold

/-- Only the write of the token changes it. -/
theorem synced_exec (hclear : op ≠ .clear) (hop : ∀ t, op ≠ .setMeta "sync_token" t) :
    (op.exec rng s.db).db.metas.lookup "sync_token" = s.db.db.metas.lookup "sync_token" := by
  rcases op with json | ⟨key, v⟩ | _ | _ | _ | ⟨t, ts, body⟩ | _ | _ | ⟨r, t⟩ | _ | _
  · simp [StoreOp.exec, Write.saveSession, Write.setMeta, Write.setMetaStmt, sessionKey]
  · have hkey : ¬ "sync_token" = key := fun h => hop v (by rw [h])
    simp [StoreOp.exec, Write.setMeta, Write.setMetaStmt, hkey]
  · rfl
  · rfl
  · rfl
  · simp only [StoreOp.exec, Write.recordEdit, Write.recordEditStmt]
    split_ifs
    · rfl
    · rfl
  · rfl
  · rfl
  · obtain ⟨rooms, hrooms⟩ := Write.seedBackTokenStmt_eq s.db.db r t
    simp only [StoreOp.exec, Write.seedBackToken, hrooms]
  · rfl
  · exact absurd rfl hclear

/-- The token is written in the clear. -/
theorem lookup_syncToken (t : String) :
    ((StoreOp.setMeta "sync_token" t).exec rng s.db).db.metas.lookup "sync_token" = some t := by
  simp only [StoreOp.exec, Write.setMeta, Write.setMetaStmt, secretMetaLabel, secretMetaKeys, sessionKey,
    Table.lookup_upsert]
  rcases s.db.db.metas.lookup "sync_token" with _ | v
  · simp
  · simp

theorem tracks_steady {w : Change} (hw : Steady room w) :
    Tracks serde truth login room token s (Change.exec rng s w) := by
  rcases w with ⟨n, op⟩ | ⟨n, r, jr, row⟩ | _ | _ | _ | _
  · exact ⟨grows_exec hw.1.1 n rng s, fun _ he => edgeAt_quiet hw.1 he, synced_exec hw.1.1 hw.2⟩
  · exact ⟨grows_storeRoom n r jr row rng s, fun _ he => edgeAt_quiet (quiet_upsertRoom row) he, rfl⟩
  · exact hw.elim
  · exact hw.elim
  · exact hw.elim
  · exact ⟨fun _ _ h => h, fun _ h => h, rfl⟩

/-- No gap, where the edge and the token stayed. -/
theorem Gapless.track {s' : Shared S} (h : Gapless serde truth login room events token position s.db)
    (ht : Tracks serde truth login room token s s') :
    Gapless serde truth login room events token position s'.db := by
  rintro e n he ⟨t, hsynced, rfl⟩
  exact covered_grows ht.grows (h e _ (ht.edge e he) ⟨t, ht.synced ▸ hsynced, rfl⟩)

end Writes

theorem grants_outline :
    Grants serde truth login room
      (outline serde truth login room events token position : Outline (Shared S) Unit) ()
      (Tracks serde truth login room token) where
  refl _ := tracks_of_same rfl
  trans h h' := h.trans h'
  grows h := h.grows
  rely h := tracks_of_same h
  knows h := h.1
  writes {s w} rng hinv hw := by
    have ht := @tracks_steady S serde truth login room token s rng w hw
    refine ⟨⟨⟨?_, ?_, hinv.2.2.track ht⟩, fun _ h => h.elim⟩, ht⟩
    · rcases w with ⟨n, op⟩ | _ | _ | _ | _ | _
      all_goals first | exact hinv.1 | exact hw.elim
    · rcases w with ⟨n, op⟩ | ⟨n, r, jr, row⟩ | _ | _ | _ | _
      · exact placed_quiet hw.1 hinv.2.1
      · exact placed_quiet (quiet_upsertRoom row) hinv.2.1
      all_goals exact hinv.2.1
  notes q r hinv _ := by
    rcases q with _ | _ | _ | _ | _ | _ | _ | _ | _ | _ | _ | _
    all_goals exact ⟨⟨hinv, fun _ h => h.elim⟩, tracks_of_same rfl⟩

/-! ### A sync round -/

section Round
variable {cond : Store S → Option String → ℕ → Prop} {since : Option String} {q n : ℕ}

/-- **The section that seeds the edge** keeps what is due: a new edge lies where the batch starts. -/
theorem due_seed {s : Shared S} {rng : Salts} {number : ℕ} (hinj : Function.Injective token)
    (hinv : (outline serde truth login room events token position : Outline (Shared S) Unit).inv s)
    (hdue : Due serde truth login room events token since q s) (hq : sinceAt position since ≤ q) :
    (outline serde truth login room events token position).Allows () s
        (Change.exec rng s (.store number (.seedBackToken room (token q)))) ∧
      Due serde truth login room events token since q
        (Change.exec rng s (.store number (.seedBackToken room (token q)))) := by
  have hgrows := @grows_exec S serde truth login (.seedBackToken room (token q)) (by simp) number rng s
  have hsynced := @synced_exec S s rng (.seedBackToken room (token q)) (by simp) (by simp)
  -- the edge is as before, or new and where the batch starts
  have hedge : ∀ e, EdgeAt room token ((StoreOp.seedBackToken room (token q)).exec rng s.db) e →
      EdgeAt room token s.db e ∨ e = q := by
    rintro e ⟨t, d, he, hcases⟩
    rcases hold : edgeOf s.db room with _ | ⟨t', d'⟩
    · have hrow : s.db.db.rooms.lookup room = none := Option.map_eq_none_iff.mp hold
      simp [edgeOf, StoreOp.exec, Write.seedBackToken, Write.seedBackTokenStmt, hrow] at he
    · rw [edge_seed hold] at he
      obtain ⟨rfl, rfl⟩ := Prod.mk.inj (Option.some.inj he)
      rcases hcases with ⟨hd, rfl⟩ | ⟨rfl, ht⟩
      · exact Or.inl ⟨t', d', hold, Or.inl ⟨hd, rfl⟩⟩
      · rcases t' with _ | t'
        · exact Or.inr (hinj (Option.some.inj ht)).symm
        · exact Or.inl ⟨_, 0, hold, Or.inr ⟨rfl, ht⟩⟩
  refine ⟨⟨⟨hinv.1, fun t d he => ?_, ?_⟩, fun _ h => h.elim⟩, hsynced.trans hdue.synced, fun e he => ?_⟩
  · rcases hold : edgeOf s.db room with _ | ⟨t', d'⟩
    · have hrow : s.db.db.rooms.lookup room = none := Option.map_eq_none_iff.mp hold
      simp [edgeOf, Change.exec, StoreOp.exec, Write.seedBackToken, Write.seedBackTokenStmt, hrow] at he
    · rw [Change.exec, edge_seed hold] at he
      obtain ⟨ht, rfl⟩ := Prod.mk.inj (Option.some.inj he)
      rcases t' with _ | t'
      · exact ⟨q, (Option.some.inj ht).symm⟩
      · obtain rfl : t' = t := Option.some.inj ht
        exact hinv.2.1 _ _ hold
  · rintro e n he ⟨t, ht, rfl⟩
    rcases hedge e he with he | rfl
    · exact covered_grows hgrows (hinv.2.2 e _ he ⟨t, hsynced ▸ ht, rfl⟩)
    · have hsince : since = some t := hdue.synced.symm.trans (hsynced.symm.trans ht)
      have hle : position t ≤ e := by simpa [sinceAt, hsince] using hq
      exact fun i hlow hhigh => absurd hhigh (by omega)
  · rcases hedge e he with he | rfl
    · exact covered_grows hgrows (hdue.upto e he)
    · exact fun i hlow hhigh => absurd hhigh (by omega)

/-- A section of another room is steady. -/
theorem steady_roomWrites {r : String} (hr : r ≠ room) {jr : JoinedRoom} {msgs : List Message}
    {stored : Room} : ∀ w ∈ roomWrites login r jr msgs stored, Steady room w := by
  intro w hw
  unfold roomWrites at hw
  simp only [List.mem_append, List.mem_map, List.mem_singleton] at hw
  rcases hw with (⟨m, -, rfl⟩ | rfl) | hw
  · simp [Steady, Quiet]
  · trivial
  · split at hw
    · rw [List.mem_singleton.mp hw]
      simp [Steady, Quiet, hr]
    · simp at hw

/-- Up to its last section, a room's part is steady. -/
theorem sound_processRoom {r : String} {jr : JoinedRoom} {next : DaemonProc S} {s : Shared S}
    (h : ∀ s' msgs stored, Tracks serde truth login room token s s' →
      (∀ ev ∈ jr.timeline, Renderable serde truth login.us r ev →
        Stored serde truth login.us r s'.db ev ∨ ∃ m ∈ msgs, m.eventId = ev.eventId) →
      Sound (rules serde truth layer login room events token position cond) Change.exec note
        (outline serde truth login room events token position) ()
        (.write (roomWrites login r jr msgs stored) next) s') :
    Sound (rules serde truth layer login room events token position cond) Change.exec note
      (outline serde truth login room events token position) () (processRoom serde login r jr next) s := by
  refine sound_read fun s₁ hs₁ _ => ?_
  have ht₁ : Tracks serde truth login room token s s₁ := tracks_of_same hs₁
  split
  · trivial
  · next stored _ =>
    have hfinish : ∀ s₂, Tracks serde truth login room token s s₂ →
        Sound (rules serde truth layer login room events token position cond) Change.exec note
          (outline serde truth login room events token position) ()
          (convertAll serde login r jr.timeline [] fun msgs =>
            .write (roomWrites login r jr msgs (stored.getD (Sync.Process.newRoom r))) next) s₂ := by
      intro s₂ ht₂
      exact grants_outline.convertAll fun s₃ msgs ht₃ _ hevs => h s₃ msgs _ (ht₂.trans ht₃) hevs
    unfold storeRoom
    dsimp only
    split_ifs
    · exact hfinish s₁ ht₁
    · exact grants_outline.toKeeps.write (by simp [Steady, Quiet])
        fun s₂ os ht₂ _ ht₃ => hfinish _ ((ht₁.trans ht₂).trans ht₃)

/-- **The part of another room** leaves the cursors alone. -/
theorem sound_otherRoom {r : String} (hr : r ≠ room) {jr : JoinedRoom} {next : DaemonProc S}
    {s : Shared S} (h : ∀ s', Tracks serde truth login room token s s' →
      Sound (rules serde truth layer login room events token position cond) Change.exec note
        (outline serde truth login room events token position) () next s') :
    Sound (rules serde truth layer login room events token position cond) Change.exec note
      (outline serde truth login room events token position) () (processRoom serde login r jr next) s := by
  refine sound_processRoom fun s₁ msgs stored ht₁ _ => ?_
  exact grants_outline.toKeeps.write (steady_roomWrites hr)
    fun s₂ os ht₂ _ ht₃ => h _ ((ht₁.trans ht₂).trans ht₃)

/-- **The part of the room**: its events are stored, and its edge is seeded where the batch starts. -/
theorem sound_ownRoom (hinj : Function.Injective token) (hq : sinceAt position since ≤ q)
    {jr : JoinedRoom} (htimeline : jr.timeline = span events q n) (hprev : jr.prevBatch = some (token q))
    {next : DaemonProc S} {s : Shared S} (hdue : Due serde truth login room events token since q s)
    (h : ∀ s', Due serde truth login room events token since q s' →
      Covered serde truth login.us room events s'.db q n →
      Sound (rules serde truth layer login room events token position cond) Change.exec note
        (outline serde truth login room events token position) () next s') :
    Sound (rules serde truth layer login room events token position cond) Change.exec note
      (outline serde truth login room events token position) ()
      (processRoom serde login room jr next) s := by
  refine sound_processRoom fun s₁ msgs stored ht₁ hevs => ?_
  have hsection : ∀ s₂, (outline serde truth login room events token position).rely () s₁ s₂ →
      (outline serde truth login room events token position).inv s₂ → ∀ os,
      (outline serde truth login room events token position).Allows () s₂
          (carry Change.exec s₂ (roomWrites login room jr msgs stored) os) ∧
        Due serde truth login room events token since q
          (carry Change.exec s₂ (roomWrites login room jr msgs stored) os) := by
    intro s₂ hs₂ hinv₂ os
    refine allows_carry (Due serde truth login room events token since q) hinv₂
      ((hdue.track ht₁).track (tracks_of_same hs₂)) (fun w hw rng s₃ hinv₃ hdue₃ => ?_) os
    by_cases hseed : w = .store login.number (.seedBackToken room (token q))
    · subst hseed
      exact due_seed hinj hinv₃ hdue₃ hq
    · have hsteady : Steady room w := by
        simp only [roomWrites, hprev, List.mem_append, List.mem_map, List.mem_singleton] at hw
        rcases hw with (⟨m, -, rfl⟩ | rfl) | rfl
        · simp [Steady, Quiet]
        · trivial
        · exact absurd rfl hseed
      obtain ⟨hallows, htrack⟩ := grants_outline.toKeeps.writes rng hinv₃ hsteady
      exact ⟨hallows, hdue₃.track htrack⟩
  refine sound_write (fun s₂ hs₂ hinv₂ _ os => (hsection s₂ hs₂ hinv₂ os).1)
    fun s₂ hs₂ hinv₂ os hall => h _ (hsection s₂ hs₂ hinv₂ os).2 (covered_span fun ev hev hrender => ?_)
  rw [← htimeline] at hev
  have hclear : ∀ w ∈ roomWrites login room jr msgs stored, ∀ k, w ≠ .store k .clear := by
    intro w hw k
    simp only [roomWrites, hprev, List.mem_append, List.mem_map, List.mem_singleton] at hw
    rcases hw with (⟨m, -, rfl⟩ | rfl) | rfl
    all_goals simp
  rcases hevs ev hev hrender with hstored | ⟨m, hm, hid⟩
  · have ht₂ : Tracks serde truth login room token s₁ s₂ := tracks_of_same hs₂
    exact grows_carry hclear os s₂ room ev (ht₂.grows room ev hstored)
  · have hmsgs : (msgs.map fun m => Change.store login.number (.insertMessage m)).length ≤ os.length := by
      refine le_trans ?_ hall
      simp only [roomWrites, List.length_append]
      omega
    have hrow := @stored_carry S login.number msgs m hm os (by simpa using hmsgs) s₂
    rw [hid] at hrow
    simp only [roomWrites, List.append_assoc] at hclear ⊢
    rw [carry_append]
    refine grows_carry (fun w hw => hclear w (List.mem_append_right _ hw)) _ _ room ev (Or.inl hrow)

/-- **The rooms of a batch.** -/
theorem sound_processRooms (hinj : Function.Injective token) (hq : sinceAt position since ≤ q)
    {join : List (String × JoinedRoom)} (hnodup : (join.map Prod.fst).Nodup)
    (here : ∀ jr, (room, jr) ∈ join → jr.timeline = span events q n ∧ jr.prevBatch = some (token q))
    {next : DaemonProc S} {s : Shared S} (hdue : Due serde truth login room events token since q s)
    (habsent : (∀ jr, (room, jr) ∉ join) → Covered serde truth login.us room events s.db q n)
    (h : ∀ s', Due serde truth login room events token since q s' →
      Covered serde truth login.us room events s'.db q n →
      Sound (rules serde truth layer login room events token position cond) Change.exec note
        (outline serde truth login room events token position) () next s') :
    Sound (rules serde truth layer login room events token position cond) Change.exec note
      (outline serde truth login room events token position) () (processRooms serde login join next) s := by
  induction join generalizing s with
  | nil => exact h s hdue (habsent (by simp))
  | cons p join ih =>
    obtain ⟨r, jr⟩ := p
    obtain ⟨hr, hnodup⟩ := List.nodup_cons.mp hnodup
    have hrest : ∀ jr, (room, jr) ∈ join →
        jr.timeline = span events q n ∧ jr.prevBatch = some (token q) :=
      fun jr hjr => here jr (List.mem_cons_of_mem _ hjr)
    by_cases hroom : r = room
    · subst hroom
      obtain ⟨htimeline, hprev⟩ := here jr List.mem_cons_self
      exact sound_ownRoom hinj hq htimeline hprev hdue fun s' hdue' hc =>
        ih hnodup hrest hdue' fun _ => hc
    · refine sound_otherRoom hroom fun s' ht => ih hnodup hrest (hdue.track ht) fun hno => ?_
      refine covered_grows ht.grows (habsent fun jr' hmem => ?_)
      rcases List.mem_cons.mp hmem with heq | hmem
      · exact hroom (Prod.mk.inj heq).1.symm
      · exact hno jr' hmem

/-- **The token is written**: up to the new position nothing is missing. -/
theorem sound_token {batch : SyncBatch} {next : DaemonProc S} (hnext : next.Only (Steady room) fun _ => True)
    {s : Shared S} (hdue : Due serde truth login room events token since q s)
    (hc : Covered serde truth login.us room events s.db q (position batch.nextBatch)) :
    Sound (rules serde truth layer login room events token position cond) Change.exec note
      (outline serde truth login room events token position) ()
      (.write [.store login.number (.setMeta "sync_token" batch.nextBatch)] next) s := by
  refine sound_write (fun s₁ hs₁ hinv₁ _ os => ?_) fun _ _ _ _ _ => grants_outline.toKeeps.only hnext _
  have ht₁ : Tracks serde truth login room token s s₁ := tracks_of_same hs₁
  rcases os with _ | ⟨rng, os⟩
  · exact ⟨hinv₁, fun _ h => h.elim⟩
  · have hquiet : Quiet room (.setMeta "sync_token" batch.nextBatch) := by simp [Quiet]
    have hgrows := @grows_exec S serde truth login _ hquiet.1 login.number rng s₁
    refine ⟨⟨hinv₁.1, placed_quiet hquiet hinv₁.2.1, ?_⟩, fun _ h => h.elim⟩
    rintro e n he ⟨t, ht, rfl⟩
    have hold := @edgeAt_quiet S room token s₁ rng _ hquiet e he
    have hnew := @lookup_syncToken S s₁ rng batch.nextBatch
    obtain rfl : batch.nextBatch = t := Option.some.inj (hnew.symm.trans ht)
    refine covered_grows hgrows ?_
    exact covered_append ((hdue.track ht₁).upto e hold) (covered_grows ht₁.grows hc)

theorem sound_processSync (hinj : Function.Injective token) {resp : SyncResponse}
    (hwindow : Window room events token position since resp.batch q) {s : Shared S}
    (hdue : Due serde truth login room events token since q s) :
    Sound (rules serde truth layer login room events token position cond) Change.exec note
      (outline serde truth login room events token position) () (processSync serde layer login resp) s := by
  refine grants_outline.toKeeps.section (fun s w hw => ?_) fun _ _ s₁ ht₁ =>
    sound_handleSecrets_of_keeps grants_outline.toKeeps (fun _ => steady_keys) trivial fun s₂ ht₂ => ?_
  · obtain ⟨op, hop, rfl⟩ := List.mem_map.mp hw
    exact steady_keys (layer.ofKeys_toDevice s _ op hop)
  · refine sound_processRooms hinj hwindow.after resp.batch.nodup hwindow.here
      ((hdue.track ht₁).track ht₂) (fun habsent => ?_) fun s₃ hdue₃ hc₃ => ?_
    · have hle := hwindow.after
      rw [hwindow.absent habsent]
      exact fun i hlow hhigh => absurd hhigh (by omega)
    · exact sound_token (only_maintainOtks trivial (fun _ => steady_keys) (by simp [Steady, Quiet])) hdue₃ hc₃

/-- **A sync round is sound**, where the batch cuts nothing off. -/
theorem sound_syncOnce (hinj : Function.Injective token) (s : Shared S) :
    Sound (rules serde truth layer login room events token position
        (Uncut serde truth login room events token position)) Change.exec note
      (outline serde truth login room events token position) () (syncOnce serde layer login) s := by
  refine sound_read fun s₁ _ hinv₁ => ?_
  have hmeta : Read.getMeta s₁.db "sync_token" = .ok (s₁.db.db.metas.lookup "sync_token") := by
    simp [Read.getMeta, secretMetaLabel, secretMetaKeys, sessionKey]
  rw [hmeta]
  intro s₂ hs₂ hinv₂ r hr
  refine ⟨(grants_outline.toKeeps.notes _ r hinv₂ trivial).1, ?_⟩
  rcases r with e | resp
  · trivial
  · obtain ⟨q, hwindow, huncut⟩ := hr
    have hdb : s₂.db = s₁.db := hs₂
    refine sound_processSync hinj hwindow ⟨?_, fun e he i hlow hhigh hrender => ?_⟩
    · exact congrArg (fun st : Store S => st.db.metas.lookup "sync_token") hdb
    · -- older than the token there is no gap, and from the token on nothing is cut off
      rcases Nat.lt_or_ge i (sinceAt position (s₁.db.db.metas.lookup "sync_token")) with hi | hi
      · rcases hsince : s₁.db.db.metas.lookup "sync_token" with _ | t
        · simp [sinceAt, hsince] at hi
        · have hi' : i < position t := by simpa [sinceAt, hsince] using hi
          refine hinv₂.2.2 e (position t) he ⟨t, ?_, rfl⟩ i hlow hi' hrender
          rw [hdb]
          exact hsince
      · exact huncut e he i hi hhigh hlow hrender

end Round

/-! ### Older history -/

section Older
variable {cond : Store S → Option String → ℕ → Prop}

/-- **The edge is moved** past what is stored, or to the start. -/
theorem gapless_set {s : Shared S} {rng : Salts} (hinj : Function.Injective token) {p k limit : ℕ}
    {page : Page} (hinv : (outline serde truth login room events token position :
      Outline (Shared S) Unit).inv s) (hk : k ≤ min limit p) (hempty : k = 0 → p = 0)
    (hchunk : page.chunk = stretch events p k)
    (hend : page.endToken = some (token (p - k)) ∨ (page.endToken = none ∧ k = p))
    (hc : ∀ n, SyncedTo position s.db n → Covered serde truth login.us room events s.db (p - k) n) :
    (outline serde truth login room events token position).inv
      (Change.exec rng s (.store login.number (.setBackToken room page.endToken
        (page.endToken.isNone || page.chunk.isEmpty)))) := by
  have hgrows := @grows_exec S serde truth login (.setBackToken room page.endToken
    (page.endToken.isNone || page.chunk.isEmpty)) (by simp) login.number rng s
  have hedge : ∀ t d, edgeOf ((StoreOp.setBackToken room page.endToken
      (page.endToken.isNone || page.chunk.isEmpty)).exec rng s.db) room = some (t, d) →
      t = page.endToken ∧ d = boolI64 (page.endToken.isNone || page.chunk.isEmpty) := by
    intro t d he
    rcases hold : edgeOf s.db room with _ | old
    · have hrow : s.db.db.rooms.lookup room = none := Option.map_eq_none_iff.mp hold
      simp [edgeOf, StoreOp.exec, Write.setBackToken, Write.setBackTokenStmt, hrow] at he
    · rw [edge_set hold] at he
      exact (Prod.mk.inj (Option.some.inj he)).imp Eq.symm Eq.symm
  refine ⟨hinv.1, fun t d he => ?_, ?_⟩
  · have ht := (hedge _ d he).1
    rcases hend with hend | ⟨hend, -⟩
    · rw [hend] at ht
      exact ⟨p - k, Option.some.inj ht⟩
    · rw [hend] at ht
      simp at ht
  · rintro e n ⟨t, d, he, hcases⟩ hn
    obtain ⟨rfl, rfl⟩ := hedge t d he
    have he' : e = p - k := by
      rcases hcases with ⟨hd, rfl⟩ | ⟨-, ht⟩
      · -- the start was reached: there was no token, or nothing before it
        rcases hend with hend | ⟨-, rfl⟩
        · rcases k with _ | k
          · rw [hempty rfl]
          · simp [hend, hchunk, stretch, boolI64] at hd
        · simp
      · rcases hend with hend | ⟨hend, -⟩
        · rw [hend] at ht
          exact (hinj (Option.some.inj ht)).symm
        · rw [hend] at ht
          simp at ht
    rw [he']
    exact covered_grows hgrows (hc n hn)

/-- **A call of `do_load_older` is sound.** -/
theorem sound_loadOlder (hinj : Function.Injective token) (limit : ℕ) (s : Shared S) :
    Sound (rules serde truth layer login room events token position cond) Change.exec note
      (outline serde truth login room events token position) () (loadOlder serde login room limit) s := by
  refine sound_read fun s₁ _ hinv₁ => ?_
  dsimp only
  split_ifs with hdone
  · trivial
  · intro s₂ hs₂ hinv₂ r hr
    refine ⟨(grants_outline.toKeeps.notes _ r hinv₂ trivial).1, ?_⟩
    have hdb : s₂.db = s₁.db := hs₂
    rcases r with e | page
    · trivial
    · obtain ⟨hplaced, hnewest⟩ := hr rfl
      -- from the position where the page ends there is no gap
      have hpage : ∃ p, PageBefore events token p limit page ∧ ∀ n, SyncedTo position s₂.db n →
          Covered serde truth login.us room events s₂.db p n := by
        rcases htoken : (Read.backToken s₁.db room).1 with _ | t
        · obtain ⟨m, hm, hpage⟩ := hnewest htoken
          exact ⟨m, hpage, fun n hn i hlow hhigh => absurd (hm n hn) (by omega)⟩
        · rcases hold : edgeOf s₂.db room with _ | ⟨t', d⟩
          · have hrow : s₁.db.db.rooms.lookup room = none := by
              rw [← hdb]
              exact Option.map_eq_none_iff.mp hold
            simp [Read.backToken, hrow] at htoken
          · have hback := backToken_of_edge hold
            rw [hdb] at hback
            rw [hback] at htoken hdone
            obtain rfl : t' = some t := htoken
            obtain ⟨p, rfl⟩ := hinv₂.2.1 t d hold
            refine ⟨p, hplaced p (by rw [hback]), fun n hn => hinv₂.2.2 p n ?_ hn⟩
            exact ⟨_, d, hold, Or.inr ⟨by simpa using hdone, rfl⟩⟩
      obtain ⟨p, ⟨k, hk, hchunk, hempty, hend⟩, hp⟩ := hpage
      refine grants_outline.storeAll fun s₃ ht₃ hstored => ?_
      refine sound_write (fun s₄ hs₄ hinv₄ _ os => ?_) fun _ _ _ _ _ => trivial
      rcases os with _ | ⟨rng, os⟩
      · exact ⟨hinv₄, fun _ h => h.elim⟩
      · refine ⟨gapless_set hinj hinv₄ hk hempty hchunk hend fun n hn => ?_, fun _ h => h.elim⟩
        have ht₄ : Tracks serde truth login room token s₃ s₄ := tracks_of_same hs₄
        rw [hchunk] at hstored
        have hn₂ : SyncedTo position s₂.db n := by
          obtain ⟨t, ht, htn⟩ := hn
          exact ⟨t, (ht₃.trans ht₄).synced ▸ ht, htn⟩
        refine covered_grows ht₄.grows (covered_append (covered_stretch (by omega) hstored) ?_)
        exact covered_grows ht₃.grows (hp n hn₂)

/-- A call for another room leaves the cursors alone. -/
theorem steady_of_ofPaging {r : String} (hr : r ≠ room) {w : Change} (h : OfPaging login.number r w) :
    Steady room w := by
  rcases w with ⟨n, op⟩ | _ | _ | _ | _ | _
  · obtain ⟨-, hop⟩ := h
    rcases op with _ | _ | _ | _ | _ | _ | _ | _ | _ | ⟨r', t, d⟩ | _
    all_goals first | exact hop.elim | simp [Steady, Quiet]
    intro heq
    obtain rfl : r' = r := hop
    exact hr heq
  all_goals exact h.elim

end Older

/-- **No gap in any reachable state** of a run whose batches meet the condition. -/
theorem gapless_of_lawful (hinj : Function.Injective token)
    {p : Pool (Shared S) Change Request Reply Unit}
    {run : List (Event (Shared S) Change Request Reply Unit Salts)}
    (hplaced : Placed room token p.state.db)
    (hgapless : Gapless serde truth login room events token position p.state.db)
    (hknows : Knows truth p.state) (hprocs : p.procs = [])
    (hlawful : p.Lawful (rules serde truth layer login room events token position
      (Uncut serde truth login room events token position)) Change.exec note run) :
    Gapless serde truth login room events token position (p.runs Change.exec note run).state.db := by
  have hsane : Sane (rules serde truth layer login room events token position
      (Uncut serde truth login room events token position)) Change.exec note
      (outline serde truth login room events token position) p :=
    ⟨⟨hknows, hplaced, hgapless⟩, by simp [hprocs], by simp [hprocs]⟩
  refine (hsane.runs ⟨fun p' k q hstart _ => ?_, fun s s' hchange hinv => ?_⟩ hlawful).inv.2.2
  · obtain ⟨hnone, hq⟩ := hstart
    refine ⟨?_, by simp [hnone]⟩
    rcases hq with rfl | ⟨r, limit, -, rfl⟩ | hq
    · exact sound_syncOnce hinj _
    · by_cases hr : r = room
      · subst hr
        exact sound_loadOlder hinj limit _
      · exact grants_outline.toKeeps.only (only_loadOlder.mono (fun w hw => steady_of_ofPaging hr hw) fun _ _ => trivial) _
    · exact grants_outline.toKeeps.only hq _
  · obtain ⟨hdb, hknows'⟩ := hchange
    exact ⟨⟨hknows', hdb ▸ hinv.2.1, hdb ▸ hinv.2.2⟩, fun _ => hdb⟩

end Gaps

/-! ### A long time offline -/

def ours : Login := ⟨0, ⟨"https://example.org", "@us", "DEVICE", "token"⟩⟩

def fresh : Pool (Shared copySuite) Change Request Reply Unit := ⟨⟨blankStore, none, none, none, []⟩, []⟩

/-- The room's part of a batch of the events from `q` up to `n`. -/
def batchOf (q n : ℕ) : SyncResponse :=
  ⟨[], ⟨tally n, [("!r", { timeline := span said q n, prevBatch := some (tally q) })],
    List.nodup_singleton "!r"⟩, 50⟩

/-- The first event, and then the thirty events from `cut` on. -/
def answerSync (cut : ℕ) : Option String → SyncResponse
  | none => batchOf 0 1
  | some t => if t.length = 1 then batchOf cut (cut + 30)
    else ⟨[], ⟨tally t.length, [], List.nodup_nil⟩, 50⟩

def serve (cut : ℕ) : (q : Request) → Reply q
  | .sync since => .ok (answerSync cut since)
  | .messages _ _ _ => .error "timeout"
  | .keysUpload => .error "timeout"
  | .backupVersion => .error "timeout"
  | .joinedMembers _ => .error "timeout"
  | .keysQuery => .error "timeout"
  | .keysClaim => .error "timeout"
  | .sendToDevice _ => .error "timeout"
  | .sendEvent _ _ _ => .error "timeout"
  | .directRooms => .error "timeout"
  | .roomName _ => .error "timeout"
  | .memberNames _ => .error "timeout"

theorem window_batchOf {since : Option String} {q n : ℕ} (hs : sinceAt String.length since ≤ q)
    (hq : q ≤ n) (hn : n ≤ q + 30) : Window "!r" said tally String.length since (batchOf q n).batch q := by
  refine ⟨hs, ?_, ?_, fun jr hjr => ?_, fun hno => ?_⟩
  · simpa [batchOf] using hq
  · simp only [batchOf, length_tally]
    omega
  · simp only [batchOf, List.mem_singleton, Prod.mk.injEq, true_and] at hjr
    subst hjr
    simp [batchOf]
  · exact absurd List.mem_cons_self (hno _)

/-- From 1 on nothing is cut off. -/
theorem window_answerSync {cut : ℕ} (hcut : 1 ≤ cut) (since : Option String) :
    ∃ q, Window "!r" said tally String.length since (answerSync cut since).batch q ∧
      (cut = 1 → q = sinceAt String.length since) := by
  rcases since with _ | t
  · exact ⟨0, window_batchOf (by simp [sinceAt]) (by omega) (by omega), fun _ => rfl⟩
  · rw [answerSync]
    by_cases ht : t.length = 1
    · rw [if_pos ht]
      refine ⟨cut, window_batchOf (by simp [sinceAt, ht, hcut]) (by omega) (le_refl _), fun h => ?_⟩
      simp [sinceAt, ht, h]
    · rw [if_neg ht]
      exact ⟨t.length, ⟨by simp [sinceAt], by simp, by simp, by simp, by simp [sinceAt]⟩, fun _ => rfl⟩

theorem serves_serve {cut : ℕ} (hcut : 1 ≤ cut) {cond : Store copySuite → Option String → ℕ → Prop}
    (hcond : (∀ st since q, cond st since q) ∨
      (cut = 1 ∧ ∀ st since, cond st since (sinceAt String.length since)))
    (s : Shared copySuite) (q : Request) :
    Serves "!r" said tally String.length cond s q (serve cut q) := by
  rcases q with since | _ | _ | _ | _ | _ | _ | _ | _ | _ | _ | _
  · obtain ⟨q, hwindow, hq⟩ := window_answerSync hcut since
    refine ⟨q, hwindow, ?_⟩
    rcases hcond with h | ⟨hone, h⟩
    · exact h _ _ _
    · rw [hq hone]
      exact h _ _
  all_goals trivial

/-- Two rounds, with all their sections. -/
def twoRounds (cut : ℕ) : List (Event (Shared copySuite) Change Request Reply Unit Salts) :=
  [.start () (syncOnce noPlaintext idleLayer ours), .run 0 [], .answer 0 (serve cut)] ++
    List.replicate 8 (.run 0 (List.replicate 4 fun _ => zeroSalt)) ++
    [.start () (syncOnce noPlaintext idleLayer ours), .run 0 [], .answer 0 (serve cut)] ++
    List.replicate 40 (.run 0 (List.replicate 40 fun _ => zeroSalt))

/-- A procedure is only started when none is running. -/
def oneByOne (p : Pool (Shared copySuite) Change Request Reply Unit) :
    List (Event (Shared copySuite) Change Request Reply Unit Salts) → Bool
  | [] => true
  | event :: events =>
    (match event with
      | .start _ _ => p.procs.isEmpty
      | _ => true) && oneByOne (p.step Change.exec note event) events

theorem lawful_twoRounds {cut : ℕ} (hcut : 1 ≤ cut) {cond : Store copySuite → Option String → ℕ → Prop}
    (hcond : (∀ st since q, cond st since q) ∨
      (cut = 1 ∧ ∀ st since, cond st since (sinceAt String.length since)))
    (hone : oneByOne fresh (twoRounds cut) = true) :
    fresh.Lawful (rules noPlaintext (fun _ _ => none) idleLayer ours "!r" said tally String.length cond)
      Change.exec note (twoRounds cut) := by
  have htold : ∀ e ∈ twoRounds cut, (∃ i os, e = .run i os) ∨ e = .answer 0 (serve cut) ∨
      e = .start () (syncOnce noPlaintext idleLayer ours) := by
    intro e he
    simp only [twoRounds, List.mem_append, List.mem_cons, List.not_mem_nil, or_false,
      List.mem_replicate] at he
    rcases he with (((rfl | rfl | rfl) | ⟨-, rfl⟩) | (rfl | rfl | rfl)) | ⟨-, rfl⟩
    all_goals simp
  revert htold hone
  generalize twoRounds cut = run
  generalize fresh = p
  intro hone htold
  induction run generalizing p with
  | nil => trivial
  | cons e run ih =>
    obtain ⟨he, hrun⟩ := List.forall_mem_cons.mp htold
    obtain ⟨hfirst, hone⟩ := Bool.and_eq_true_iff.mp hone
    refine ⟨?_, ih _ hone hrun⟩
    rcases he with ⟨i, os, rfl⟩ | rfl | rfl
    · exact fun _ _ _ _ => trivial
    · exact fun _ q _ _ => serves_serve hcut hcond _ q
    · exact ⟨List.isEmpty_iff.mp hfirst, Or.inl rfl⟩

/-- Two rounds that cut nothing off. -/
theorem gapless_twoRounds :
    Gapless noPlaintext (fun _ _ => none) ours "!r" said tally String.length
      (fresh.runs Change.exec note (twoRounds 1)).state.db := by
  refine @gapless_of_lawful _ _ _ idleLayer _ _ _ _ _ (fun _ _ => tally_inj) _ _ ?_ ?_
    (fun _ _ => Or.inl rfl) rfl (lawful_twoRounds (le_refl 1) (Or.inr ⟨rfl, ?_⟩) (by decide +kernel))
  · intro t d he
    simp [fresh, blankStore, edgeOf, Tables.empty] at he
  · rintro e n ⟨t, d, he, -⟩
    simp [fresh, blankStore, edgeOf, Tables.empty] at he
  · exact fun st since e _ i hlow hhigh => absurd hhigh (by omega)

/-- **Thirty-one new events, and a batch of thirty**: the oldest of them is never stored. -/
theorem not_gapless_offline :
    ¬ ∀ run, fresh.Lawful (rules noPlaintext (fun _ _ => none) idleLayer ours "!r" said tally
        String.length fun _ _ _ => True) Change.exec note run →
      Gapless noPlaintext (fun _ _ => none) ours "!r" said tally String.length
        (fresh.runs Change.exec note run).state.db := by
  intro h
  have hgapless := h (twoRounds 2)
    (lawful_twoRounds (by omega) (Or.inl fun _ _ _ => trivial) (by decide +kernel))
  have hedge : edgeOf (fresh.runs Change.exec note (twoRounds 2)).state.db "!r" =
      some (some (tally 0), 0) := by decide +kernel
  have hsynced : (fresh.runs Change.exec note (twoRounds 2)).state.db.db.metas.lookup "sync_token" =
      some (tally 32) := by decide +kernel
  have hmissing : (fresh.runs Change.exec note (twoRounds 2)).state.db.db.messages.lookup
      (tally 1) = none := by decide +kernel
  have hcovered := hgapless 0 32 ⟨_, 0, hedge, Or.inr ⟨rfl, rfl⟩⟩ ⟨_, hsynced, length_tally 32⟩
  obtain ⟨row, hrow⟩ := stored_said (hcovered 1 (by omega) (by omega) (renderable_said _ _ _ _))
  rw [hmissing] at hrow
  simp at hrow

end Kmatrix.Daemon.Gaps
