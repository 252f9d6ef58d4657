import Kmatrix.Storage.Plain

/-! # What the reads depend on

A read selects rows by their plain columns and unseals their cells. `view` replaces every cell by
what unsealing it gives, by the column named in the error; every accessor is a function of the view
(`recentMessages_congr` and its siblings), so two stores with one view are read alike.

`recentMessages_toOption` and `getRoom_toOption` say what a read that succeeds returns, and when it
succeeds, on `plain`. -/

namespace Kmatrix.Storage.View

open Kmatrix.Lib.Keyed Kmatrix.Storage.Seal Kmatrix.Storage.Schema Kmatrix.Storage.Write
open Kmatrix.Storage.Read Kmatrix.Storage.Plain

/-! ### The queries commute with rewriting every cell -/

section Map
variable {C D : Type} (f : C → D) (g : String → C → D) (db : Tables C)

theorem entries_mapVal {κ ρ σ : Type} (f : κ → ρ → σ) (t : Table κ ρ) :
    (t.mapVal fun _ => f).entries = t.entries.map fun p => (p.1, f p.1 p.2) := by
  unfold Table.entries
  rw [Table.rows_mapVal, List.map_map, List.map_map]
  rfl

theorem newest_map (p : MessageRow C → Bool) (q : MessageRow D → Bool)
    (hpq : ∀ row, q (row.map f) = p row) (limit : ℕ) :
    newest (db.map f g) q limit = (newest db p limit).map fun m => (m.1, m.2.map f) := by
  have he : (db.map f g).messages.entries =
      db.messages.entries.map fun m => (m.1, m.2.map f) :=
    entries_mapVal (fun _ => MessageRow.map f) db.messages
  have hq : ((fun m : Stored D => q m.2) ∘ fun m : Stored C => (m.1, m.2.map f)) =
      fun m => p m.2 := funext fun m => hpq m.2
  unfold newest
  rw [he, List.filter_map, hq, List.map_take,
    List.map_insertionSort (r := Newer) (s := Newer) (fun m : Stored C => (m.1, m.2.map f)) _
      fun a _ b _ => Iff.rfl]

theorem roomRows_map :
    roomRows (db.map f g) = (roomRows db).map fun r => (r.1, r.2.map f) := by
  have he : (db.map f g).rooms.entries = db.rooms.entries.map fun r => (r.1, r.2.map f) :=
    entries_mapVal (fun _ => RoomRow.map f) db.rooms
  unfold roomRows
  rw [he, List.map_insertionSort (r := RoomOrder) (s := RoomOrder)
    (fun r : String × RoomRow C => (r.1, r.2.map f)) _ fun a _ b _ => Iff.rfl]

theorem inRoom_map (room : String) (row : MessageRow C) :
    inRoom room (row.map f) = inRoom room row := rfl

theorem retryable_map (room : String) (row : MessageRow C) :
    retryable room (row.map f) = retryable room row := by
  unfold retryable MessageRow.map
  rw [Option.isSome_map]; rfl

end Map

/-! ### The view -/

/-- A cell as a read sees it. -/
abbrev Reading := String → Except String String

section Views
variable {S : CipherSuite}

/-- **The database with every cell unsealed**, by the column named in the error. -/
def view (st : Store S) : Tables Reading :=
  st.db.map (fun cell column => st.reveal column cell)
    (fun k cell column => if (secretMetaLabel k).isSome then st.reveal column cell else .ok cell)

/-- Lists that agree under `f` and `f'` are mapped alike. -/
theorem mapM_eq_of_map_eq {α α' β γ ε : Type} {f : α → β} {f' : α' → β} {F : α → Except ε γ}
    {F' : α' → Except ε γ} (hF : ∀ a a', f a = f' a' → F a = F' a') :
    ∀ (l : List α) (l' : List α'), l.map f = l'.map f' → l.mapM F = l'.mapM F'
  | [], [], _ => rfl
  | a :: l, a' :: l', h => by
    rw [List.map_cons, List.map_cons, List.cons.injEq] at h
    rw [List.mapM_cons, List.mapM_cons, hF a a' h.1, mapM_eq_of_map_eq hF l l' h.2]

variable {a b : Store S}

theorem revealOpt_congr {column : String} {c d : Option String}
    (h : c.map (fun cell column => a.reveal column cell) =
      d.map fun cell column => b.reveal column cell) :
    a.revealOpt column c = b.revealOpt column d := by
  rcases c with _ | c <;> rcases d with _ | d
  · rfl
  · cases h
  · cases h
  · have hcd := congrFun (Option.some.inj h) column
    unfold Store.revealOpt
    dsimp only at hcd ⊢
    rw [hcd]

theorem getMeta_congr {k : String} (h : (view a).metas.lookup k = (view b).metas.lookup k) :
    getMeta a k = getMeta b k := by
  have ha := Table.lookup_mapVal (fun k cell column =>
    if (secretMetaLabel k).isSome then a.reveal column cell else .ok cell) a.db.metas k
  have hb := Table.lookup_mapVal (fun k cell column =>
    if (secretMetaLabel k).isSome then b.reveal column cell else .ok cell) b.db.metas k
  have h1 := ha.symm.trans (h.trans hb)
  unfold getMeta
  cases hl : secretMetaLabel k with
  | some label =>
    simp only [hl, Option.isSome_some, if_true] at h1
    exact revealOpt_congr h1
  | none =>
    -- a value kept as it is stored
    simp only [hl, Option.isSome_none, Bool.false_eq_true, if_false] at h1
    dsimp only
    cases hc : a.db.metas.lookup k <;> cases hd : b.db.metas.lookup k <;> rw [hc, hd] at h1
    · cases h1
    · cases h1
    · have := congrFun (Option.some.inj h1) ""
      cases this; rfl

theorem loadSession_congr {parse : String → Except String Session}
    (h : (view a).metas.lookup sessionKey = (view b).metas.lookup sessionKey) :
    loadSession a parse = loadSession b parse := by
  unfold loadSession
  rw [getMeta_congr h]

theorem readRoom_congr {r s : String × RoomRow String}
    (h : (r.1, r.2.map fun cell column => a.reveal column cell) =
      (s.1, s.2.map fun cell column => b.reveal column cell)) : readRoom a r = readRoom b s := by
  obtain ⟨i, r⟩ := r
  obtain ⟨j, s⟩ := s
  unfold RoomRow.map at h
  simp only [Prod.mk.injEq, RoomRow.mk.injEq] at h
  obtain ⟨rfl, hn, he, hu, ht, hp, -, -⟩ := h
  unfold readRoom
  dsimp only
  rw [congrFun hn, congrFun hp, he, hu, ht]

theorem listRooms_congr (h : (view a).rooms = (view b).rooms) : listRooms a = listRooms b := by
  have h1 : roomRows (view a) = roomRows (view b) := by unfold roomRows; rw [h]
  unfold view at h1
  rw [roomRows_map, roomRows_map] at h1
  exact mapM_eq_of_map_eq (fun _ _ h => readRoom_congr h) _ _ h1

theorem getRoom_congr {id : String} (h : (view a).rooms.lookup id = (view b).rooms.lookup id) :
    getRoom a id = getRoom b id := by
  have ha := Table.lookup_mapVal
    (fun _ => RoomRow.map fun cell column => a.reveal column cell) a.db.rooms id
  have hb := Table.lookup_mapVal
    (fun _ => RoomRow.map fun cell column => b.reveal column cell) b.db.rooms id
  rw [show (view a).rooms.lookup id = _ from ha, show (view b).rooms.lookup id = _ from hb] at h
  unfold getRoom
  cases h1 : a.db.rooms.lookup id with
  | none =>
    cases h2 : b.db.rooms.lookup id with
    | none => rfl
    | some s => rw [h1, h2] at h; cases h
  | some r =>
    cases h2 : b.db.rooms.lookup id with
    | none => rw [h1, h2] at h; cases h
    | some s =>
      rw [h1, h2, Option.map_some, Option.map_some, Option.some.injEq] at h
      dsimp only
      rw [readRoom_congr (a := a) (b := b) (r := (id, r)) (s := (id, s)) (by rw [h])]

theorem readMessage_congr (hm : (view a).members = (view b).members)
    {m n : String × MessageRow String}
    (h : (m.1, m.2.map fun cell column => a.reveal column cell) =
      (n.1, n.2.map fun cell column => b.reveal column cell)) :
    readMessage a m = readMessage b n := by
  obtain ⟨i, m⟩ := m
  obtain ⟨j, n⟩ := n
  unfold MessageRow.map at h
  simp only [Prod.mk.injEq, MessageRow.mk.injEq] at h
  obtain ⟨rfl, hr, hs, ht, hb, he, hd, hmi, hsid, hc⟩ := h
  have hname : (a.db.members.lookup (m.room, m.sender)).map (fun cell column => a.reveal column cell)
      = (b.db.members.lookup (n.room, n.sender)).map fun cell column => b.reveal column cell := by
    have ha := Table.lookup_mapVal (fun _ cell column => a.reveal column cell) a.db.members
      (m.room, m.sender)
    have hb := Table.lookup_mapVal (fun _ cell column => b.reveal column cell) b.db.members
      (n.room, n.sender)
    rw [← ha, ← hb, ← hr, ← hs]
    exact congrArg (fun t => Table.lookup t _) hm
  unfold readMessage
  dsimp only
  rw [congrFun hb, revealOpt_congr hname, revealOpt_congr hc, hr, hs, ht, he, hd, hmi, hsid]

theorem recentMessages_congr {room : String} {limit : ℕ}
    (hm : (view a).messages = (view b).messages) (hn : (view a).members = (view b).members) :
    recentMessages a room limit = recentMessages b room limit := by
  have h1 : newest (view a) (inRoom room) limit = newest (view b) (inRoom room) limit := by
    unfold newest; rw [hm]
  unfold view at h1
  rw [newest_map _ _ _ _ _ (inRoom_map _ room), newest_map _ _ _ _ _ (inRoom_map _ room)] at h1
  unfold recentMessages
  rw [mapM_eq_of_map_eq (fun _ _ h => readMessage_congr hn h) _ _ h1]

theorem readRetry_congr {m n : String × MessageRow String}
    (h : (m.1, m.2.map fun cell column => a.reveal column cell) =
      (n.1, n.2.map fun cell column => b.reveal column cell)) : readRetry a m = readRetry b n := by
  obtain ⟨i, m⟩ := m
  obtain ⟨j, n⟩ := n
  unfold MessageRow.map at h
  simp only [Prod.mk.injEq, MessageRow.mk.injEq] at h
  obtain ⟨rfl, -, -, -, -, -, -, -, hsid, hc⟩ := h
  unfold readRetry
  dsimp only
  rw [hsid]
  cases n.sessionId with
  | none => rfl
  | some sid =>
    cases hm : m.ciphertext <;> cases hn : n.ciphertext <;> rw [hm, hn] at hc <;> simp at hc ⊢
    rw [congrFun hc]

theorem undecryptedInRoom_congr {room : String} {limit : ℕ}
    (hm : (view a).messages = (view b).messages) :
    undecryptedInRoom a room limit = undecryptedInRoom b room limit := by
  have h1 : newest (view a) (retryable room) limit = newest (view b) (retryable room) limit := by
    unfold newest; rw [hm]
  unfold view at h1
  rw [newest_map _ _ _ _ _ (retryable_map _ room),
    newest_map _ _ _ _ _ (retryable_map _ room)] at h1
  exact mapM_eq_of_map_eq (fun _ _ h => readRetry_congr h) _ _ h1

end Views

/-! ### Reads that succeed -/

/-- A column that may be absent, read. -/
def plainOpt : Option (Option String) → Option (Option String)
  | none => some none
  | some cell => cell.map some

/-- A message row read on a plain database. -/
def plainMessage (db : PlainTables) (m : String × MessageRow (Option String)) : Option Message :=
  match m.2.body, plainOpt (db.members.lookup (m.2.room, m.2.sender)), plainOpt m.2.ciphertext with
  | some body, some senderName, some ciphertext =>
    some ⟨m.1, m.2.room, m.2.sender, asU64 m.2.ts, senderName, body, m.2.encrypted ≠ 0,
      m.2.decrypted ≠ 0, m.2.mine ≠ 0, m.2.sessionId, ciphertext⟩
  | _, _, _ => none

/-- A room row read on a plain database. -/
def plainRoom (r : String × RoomRow (Option String)) : Option Room :=
  match r.2.name, r.2.lastPreview with
  | some name, some lastPreview =>
    some ⟨r.1, name, r.2.encrypted ≠ 0, asU64 r.2.unread, asU64 r.2.lastTs, lastPreview⟩
  | _, _ => none

section Success
variable {S : CipherSuite} (st : Store S)

theorem revealOpt_toOption (column : String) (cell : Option String) :
    (st.revealOpt column cell).toOption = plainOpt (cell.map (look st)) := by
  unfold Store.revealOpt plainOpt
  cases cell with
  | none => rfl
  | some c =>
    dsimp only [Option.map_some]
    rw [← reveal_toOption st column c]
    cases st.reveal column c <;> rfl

theorem readRoom_toOption (r : String × RoomRow String) :
    (readRoom st r).toOption = plainRoom (r.1, r.2.map (look st)) := by
  obtain ⟨i, r⟩ := r
  unfold readRoom plainRoom RoomRow.map
  dsimp only
  rw [← reveal_toOption st "room.name", ← reveal_toOption st "room.last_preview"]
  cases st.reveal "room.name" r.name with
  | error e => rfl
  | ok name =>
    cases st.reveal "room.last_preview" r.lastPreview <;> rfl

theorem readMessage_toOption (m : String × MessageRow String) :
    (readMessage st m).toOption = plainMessage (plain st) (m.1, m.2.map (look st)) := by
  obtain ⟨i, m⟩ := m
  unfold readMessage plainMessage MessageRow.map
  dsimp only
  rw [members_plain, ← reveal_toOption st "message.body", ← revealOpt_toOption st "member.name",
    ← revealOpt_toOption st "message.ciphertext"]
  cases st.reveal "message.body" m.body with
  | error e => rfl
  | ok body =>
    cases st.revealOpt "member.name" (st.db.members.lookup (m.room, m.sender)) with
    | error e => rfl
    | ok name => cases st.revealOpt "message.ciphertext" m.ciphertext <;> rfl

theorem mapM_toOption {α β γ ε : Type} {F : α → Except ε γ} {G : β → Option γ} {φ : α → β}
    (h : ∀ a, (F a).toOption = G (φ a)) :
    ∀ l : List α, (l.mapM F).toOption = (l.map φ).mapM G
  | [] => rfl
  | a :: l => by
    rw [List.map_cons, List.mapM_cons, List.mapM_cons, ← h a, ← mapM_toOption h l]
    cases F a with
    | error e => rfl
    | ok c => cases l.mapM F <;> rfl

/-- **`recentMessages` on the plain database.** -/
theorem recentMessages_toOption (room : String) (limit : ℕ) :
    (recentMessages st room limit).toOption =
      ((newest (plain st) (inRoom room) limit).mapM (plainMessage (plain st))).map List.reverse := by
  have hm := mapM_toOption (readMessage_toOption st) (newest st.db (inRoom room) limit)
  have hn := newest_map (look st) (lookMeta st) st.db (inRoom room) (inRoom room)
    (inRoom_map _ room) limit
  rw [show newest (plain st) (inRoom room) limit = _ from hn, ← hm]
  unfold recentMessages
  cases (newest st.db (inRoom room) limit).mapM (readMessage st) <;> rfl

/-- **`getRoom` on the plain database.** -/
theorem getRoom_toOption (id : String) :
    (getRoom st id).toOption =
      match (plain st).rooms.lookup id with
      | some row => (plainRoom (id, row)).map some
      | none => some none := by
  rw [rooms_plain]
  unfold getRoom
  cases st.db.rooms.lookup id with
  | none => rfl
  | some row =>
    dsimp only [Option.map_some]
    rw [← readRoom_toOption st (id, row)]
    cases readRoom st (id, row) <;> rfl

end Success

end Kmatrix.Storage.View
