import Kmatrix.Storage.Read
import Kmatrix.Storage.Write

/-! # Looking through the sealing

`Store.plain` is the database with every encryptable cell replaced by the text it unseals to, or by
`none` where it does not. On it the operations are deterministic: `StoreOp.onPlain` writes
`st.kept p`, which is `some p` except for a text that begins with `k1:` in a store without a key,
since such a cell cannot be read back. `plain_exec` says that every operation commutes with `plain`,
whatever salts it draws, so statements that do not care about salts are proved on `plain`.
`Store.contents` is the same but for what a keyless store refuses to read: two stores with equal
contents hold the same values up to the salts they are sealed with. -/

namespace Kmatrix.Storage.Plain

open Kmatrix.Lib.Keyed Kmatrix.E2ee.Ratchets Kmatrix.Storage.Seal Kmatrix.Storage.Schema
open Kmatrix.Storage.Write Kmatrix.Storage.Read

/-- A database whose cells are texts, `none` where the text cannot be read. -/
abbrev PlainTables := Tables (Option String)

section View
variable {S : CipherSuite}

/-- What a cell unseals to, if it does. -/
def look (st : Store S) (cell : String) : Option String := (unsealValue S st.key "" cell).toOption

/-- What can be read back of the text `p` once it is written. -/
def kept (st : Store S) (p : String) : Option String :=
  if st.key = none ∧ startsWith p encPrefix = true then none else some p

/-- A value of `meta`, of which only the secrets are sealed. -/
def lookMeta (st : Store S) (k cell : String) : Option String :=
  if (secretMetaLabel k).isSome then look st cell else some cell

/-- **The database seen through the sealing.** -/
def plain (st : Store S) : PlainTables := st.db.map (look st) (lookMeta st)

/-- A reading `f` of the sealed cells, extended to the values of `meta`. -/
def metaCell (f : String → Option String) (k cell : String) : Option String :=
  if (secretMetaLabel k).isSome then f cell else some cell

theorem rooms_plain (st : Store S) (id : String) :
    (plain st).rooms.lookup id = (st.db.rooms.lookup id).map (RoomRow.map (look st)) :=
  Tables.lookup_rooms _ _ st.db id

theorem messages_plain (st : Store S) (e : String) :
    (plain st).messages.lookup e = (st.db.messages.lookup e).map (MessageRow.map (look st)) :=
  Tables.lookup_messages _ _ st.db e

theorem edits_plain (st : Store S) (e : String) :
    (plain st).edits.lookup e = (st.db.edits.lookup e).map (EditRow.map (look st)) :=
  Tables.lookup_edits _ _ st.db e

theorem members_plain (st : Store S) (k : String × String) :
    (plain st).members.lookup k = (st.db.members.lookup k).map (look st) :=
  Tables.lookup_members _ _ st.db k

/-- The database by a reading of its cells. -/
def seen (f : String → Option String) (st : Store S) : PlainTables := st.db.map f (metaCell f)

theorem look_congr {a b : Store S} (h : a.key = b.key) : look a = look b := by
  funext cell; unfold look; rw [h]

theorem lookMeta_congr {a b : Store S} (h : a.key = b.key) : lookMeta a = lookMeta b := by
  funext k cell; unfold lookMeta; rw [look_congr h]

/-- Whether a value unseals, and to what, does not depend on the column named in the error. -/
theorem reveal_toOption (st : Store S) (column cell : String) :
    (st.reveal column cell).toOption = look st cell := by
  unfold Store.reveal look unsealValue
  cases stripPrefix cell encPrefix with
  | none => rfl
  | some encoded =>
    cases st.key with
    | none => rfl
    | some master =>
      dsimp only
      cases Lib.Base64.decode encoded.toList with
      | none => rfl
      | some blob =>
        dsimp only
        split
        · rfl
        · split
          · split
            · rfl
            · split <;> rfl
          · rfl

theorem reveal_ok {st : Store S} {column cell p : String} :
    st.reveal column cell = .ok p ↔ look st cell = some p := by
  rw [← reveal_toOption st column]
  cases st.reveal column cell <;> simp [Except.toOption]

theorem look_protect (st : Store S) (salt : Salt) (p : String) :
    look st (st.protect salt p) = kept st p := by
  obtain ⟨db, key⟩ := st
  unfold look kept Store.protect
  cases key with
  | some master =>
    dsimp only
    rw [unseal_seal, if_neg (by simp)]; rfl
  | none =>
    dsimp only
    by_cases h : startsWith p encPrefix = true
    · obtain ⟨e, he⟩ := unseal_none_of_prefix (S := S) h ""
      rw [he, if_pos ⟨rfl, h⟩]; rfl
    · rw [unseal_plain (by simpa using h), if_neg (fun h' => h h'.2)]; rfl

/-- With a key every text can be read back. -/
theorem kept_of_key {st : Store S} (h : st.key ≠ none) (p : String) : kept st p = some p := by
  unfold kept; rw [if_neg (fun h' => h h'.1)]

/-- Without a key a text can be read back unless it begins with `k1:`. -/
theorem kept_of_not_prefix {st : Store S} {p : String} (h : startsWith p encPrefix = false) :
    kept st p = some p := by
  unfold kept; rw [if_neg (fun h' => by rw [h] at h'; cases h'.2)]

theorem kept_eq {st : Store S} {p q : String} (h : kept st p = some q) : q = p := by
  unfold kept at h; split_ifs at h; cases h; rfl

end View

/-! ### The statements commute with rewriting every cell -/

section Map
variable {C D : Type} (f : C → D) (g : String → C → D) (db : Tables C)

@[simp] theorem map_empty : (Tables.empty : Tables C).map f g = Tables.empty := rfl

theorem map_setMeta (k : String) (v : C) :
    (setMetaStmt db k v).map f g = setMetaStmt (db.map f g) k (g k v) :=
  Tables.ext (Table.upsert_mapVal g db.metas k v _ _ fun _ _ => rfl) rfl rfl rfl rfl rfl

theorem map_upsertRoom (r : Room) (name preview : C) :
    (upsertRoomStmt db r name preview).map f g =
      upsertRoomStmt (db.map f g) r (f name) (f preview) :=
  Tables.ext rfl
    (Table.upsert_mapVal (fun _ => RoomRow.map f) db.rooms r.id _ _ _ fun _ _ => rfl)
    rfl rfl rfl rfl

theorem map_coalesceEdit (e : String) (body : C) :
    f (coalesceEdit db e body) = coalesceEdit (db.map f g) e (f body) := by
  unfold coalesceEdit
  rw [Tables.lookup_edits]
  cases db.edits.lookup e <;> rfl

theorem map_insertMessage (m : Message) (body : C) (ciphertext : Option C) :
    (insertMessageStmt db m body ciphertext).map f g =
      insertMessageStmt (db.map f g) m (f body) (ciphertext.map f) := by
  refine Tables.ext rfl rfl ?_ rfl rfl rfl
  refine (Table.upsert_mapVal (fun _ => MessageRow.map f) db.messages m.eventId _ _
    (fun row => { row with
      body := f (coalesceEdit db m.eventId body)
      decrypted := boolI64 m.decrypted
      sessionId := m.sessionId
      ciphertext := ciphertext.map f }) fun _ _ => rfl).trans ?_
  unfold MessageRow.map
  rw [map_coalesceEdit f g]
  rfl

theorem map_upgradeMessage (e : String) (body : C) :
    (upgradeMessageStmt db e body).map f g = upgradeMessageStmt (db.map f g) e (f body) := by
  refine Tables.ext rfl rfl ?_ rfl rfl rfl
  refine (Table.modify_mapVal (fun _ => MessageRow.map f) db.messages e _
    (fun row => { row with
      body := f (coalesceEdit db e body)
      decrypted := 1
      sessionId := none
      ciphertext := none }) fun _ _ => rfl).trans ?_
  rw [map_coalesceEdit f g]
  rfl

theorem map_editAccepted (target : String) (ts : ℤ) :
    editAccepted (db.map f g) target ts = editAccepted db target ts := by
  unfold editAccepted
  rw [Tables.lookup_edits]
  cases db.edits.lookup target <;> rfl

theorem map_recordEdit (target : String) (ts : ℤ) (body : C) :
    (recordEditStmt db target ts body).1.map f g =
      (recordEditStmt (db.map f g) target ts (f body)).1 := by
  unfold recordEditStmt
  rw [map_editAccepted]
  split_ifs
  · exact Tables.ext rfl rfl
      (Table.modify_mapVal (fun _ => MessageRow.map f) db.messages target _ _ fun _ _ => rfl) rfl
      (Table.upsert_mapVal (fun _ => EditRow.map f) db.edits target _ _ _ fun _ _ => rfl) rfl
  · rfl

theorem foldl_members_mapVal (room : String) : ∀ (names : List (String × C))
    (t : Table (String × String) C),
    (names.foldl (fun t p => t.upsert (room, p.1) p.2 fun _ => p.2) t).mapVal (fun _ _ => f) =
      (names.map fun p => (p.1, f p.2)).foldl (fun t p => t.upsert (room, p.1) p.2 fun _ => p.2)
        (t.mapVal fun _ _ => f)
  | [], _ => rfl
  | p :: names, t => by
    simp only [List.foldl_cons, List.map_cons]
    rw [foldl_members_mapVal room names]
    congr 1
    exact Table.upsert_mapVal (fun _ => f) t (room, p.1) p.2 _ _ fun _ _ => rfl

theorem map_rememberMembers (room : String) (names : List (String × C)) :
    (rememberMembersStmt db room names).map f g =
      rememberMembersStmt (db.map f g) room (names.map fun p => (p.1, f p.2)) :=
  Tables.ext rfl rfl rfl rfl rfl (foldl_members_mapVal f room names db.members)

theorem map_seedBackToken (room token : String) :
    (seedBackTokenStmt db room token).1.map f g =
      (seedBackTokenStmt (db.map f g) room token).1 := by
  unfold seedBackTokenStmt
  rw [Tables.lookup_rooms]
  cases db.rooms.lookup room with
  | none => rfl
  | some row =>
    simp only [Option.map_some]
    rw [show (RoomRow.map f row).backToken = row.backToken from rfl]
    split_ifs
    · exact Tables.ext rfl
        (Table.modify_mapVal (fun _ => RoomRow.map f) db.rooms room _ _ fun _ _ => rfl)
        rfl rfl rfl rfl
    · rfl

theorem map_setBackToken (room : String) (token : Option String) (done : Bool) :
    (setBackTokenStmt db room token done).map f g =
      setBackTokenStmt (db.map f g) room token done :=
  Tables.ext rfl
    (Table.modify_mapVal (fun _ => RoomRow.map f) db.rooms room _ _ fun _ _ => rfl)
    rfl rfl rfl rfl

end Map

/-! ### The operations -/

/-- An operation on a plain database: `keep` is what can be read back of a text, and `keyed` says
that `clear` puts the flag back. -/
def StoreOp.onPlain (keep : String → Option String) (keyed : Bool) (db : PlainTables) :
    StoreOp → PlainTables
  | .saveSession json => setMetaStmt db sessionKey (keep json)
  | .setMeta k v => setMetaStmt db k (if (secretMetaLabel k).isSome then keep v else some v)
  | .upsertRoom r => upsertRoomStmt db r (keep r.name) (keep r.lastPreview)
  | .insertMessage m => insertMessageStmt db m (keep m.body) (m.ciphertext.map keep)
  | .upgradeMessage e body => upgradeMessageStmt db e (keep body)
  | .recordEdit target ts body => (recordEditStmt db target (asI64 ts) (keep body)).1
  | .rememberMembers room names =>
    rememberMembersStmt db room ((named names).map fun p => (p.1, keep p.2))
  | .putPickle kind id extra pickle => putPickleStmt db kind id extra pickle
  | .seedBackToken room token => (seedBackTokenStmt db room token).1
  | .setBackToken room token done => setBackTokenStmt db room token done
  | .clear => if keyed then markEncrypted Tables.empty (some "1") else Tables.empty

section Exec
variable {S : CipherSuite} {f keep : String → Option String} {st : Store S}

theorem seen_setMeta (hf : ∀ salt p, f (st.protect salt p) = keep p) (rng : Salts) (k v : String) :
    seen f (setMeta st rng k v) =
      setMetaStmt (seen f st) k (if (secretMetaLabel k).isSome then keep v else some v) := by
  refine (map_setMeta f (metaCell f) st.db k _).trans ?_
  unfold metaCell
  cases secretMetaLabel k with
  | none => rfl
  | some label =>
    dsimp only
    rw [hf]; rfl

/-- Sealing the entries of a name map and looking at them again. -/
theorem seen_protect_mapIdx (hf : ∀ salt p, f (st.protect salt p) = keep p) (rng : Salts)
    (names : List (String × String)) :
    (names.mapIdx fun i p => (p.1, st.protect (rng i) p.2)).map (fun p => (p.1, f p.2)) =
      names.map fun p => (p.1, keep p.2) := by
  refine List.ext_getElem (by simp) fun i h1 h2 => ?_
  rw [List.getElem_map, List.getElem_mapIdx, List.getElem_map]
  exact congrArg _ (hf (rng i) _)

/-- **Every operation commutes with a reading of the cells** that does not depend on the salts. -/
theorem seen_exec (hf : ∀ salt p, f (st.protect salt p) = keep p) (rng : Salts) (op : StoreOp) :
    seen f (op.exec rng st) = StoreOp.onPlain keep st.key.isSome (seen f st) op := by
  cases op with
  | saveSession json => exact seen_setMeta hf rng sessionKey json
  | setMeta k v => exact seen_setMeta hf rng k v
  | upsertRoom r =>
    refine (map_upsertRoom f (metaCell f) st.db r _ _).trans ?_
    rw [hf, hf]; rfl
  | insertMessage m =>
    refine (map_insertMessage f (metaCell f) st.db m _ _).trans ?_
    have hc : f ∘ st.protect (rng 1) = keep := funext fun p => hf (rng 1) p
    rw [hf, Option.map_map, hc]; rfl
  | upgradeMessage e body =>
    refine (map_upgradeMessage f (metaCell f) st.db e _).trans ?_
    rw [hf]; rfl
  | recordEdit target ts body =>
    refine (map_recordEdit f (metaCell f) st.db target (asI64 ts) _).trans ?_
    rw [hf]; rfl
  | rememberMembers room names =>
    refine (map_rememberMembers f (metaCell f) st.db room _).trans ?_
    rw [seen_protect_mapIdx hf]; rfl
  | putPickle kind id extra pickle => rfl
  | seedBackToken room token => exact map_seedBackToken f (metaCell f) st.db room token
  | setBackToken room token done => exact map_setBackToken f (metaCell f) st.db room token done
  | clear =>
    obtain ⟨db, key⟩ := st
    cases key with
    | none => rfl
    | some master => exact map_setMeta _ _ _ _ _

theorem protect_congr {st' : Store S} (h : st.key = st'.key) (salt : Salt) (p : String) :
    st.protect salt p = st'.protect salt p := by
  unfold Store.protect; rw [h]

/-- A run of operations on plain tables. -/
def runPlain (keep : String → Option String) (keyed : Bool) (db : PlainTables)
    (ops : List StoreOp) : PlainTables := ops.foldl (StoreOp.onPlain keep keyed) db

theorem key_execAll (run : List (StoreOp × Salts)) :
    ∀ st : Store S, (execAll st run).key = st.key := by
  induction run with
  | nil => intro st; rfl
  | cons p run ih =>
    intro st
    show (execAll (p.1.exec p.2 st) run).key = st.key
    rw [ih, key_exec]

/-- **A run, seen by a reading of the cells.** -/
theorem seen_execAll (run : List (StoreOp × Salts)) :
    ∀ {st : Store S}, (∀ salt p, f (st.protect salt p) = keep p) →
      seen f (execAll st run) = runPlain keep st.key.isSome (seen f st) (run.map Prod.fst) := by
  induction run with
  | nil => intro st _; rfl
  | cons p run ih =>
    intro st hf
    have hkey := key_exec p.2 st p.1
    show seen f (execAll (p.1.exec p.2 st) run) = _
    rw [ih fun salt q => (congrArg f (protect_congr hkey salt q)).trans (hf salt q), seen_exec hf,
      hkey]
    rfl

/-- **Every operation commutes with looking through the sealing**, whatever salts it draws. -/
theorem plain_exec (rng : Salts) (st : Store S) (op : StoreOp) :
    plain (op.exec rng st) = StoreOp.onPlain (kept st) st.key.isSome (plain st) op := by
  have h : plain (op.exec rng st) = seen (look st) (op.exec rng st) := by
    unfold plain seen
    rw [look_congr (key_exec rng st op), lookMeta_congr (key_exec rng st op)]
    rfl
  exact h.trans (seen_exec (look_protect st) rng op)

/-- **A run, seen through the sealing.** -/
theorem plain_execAll (run : List (StoreOp × Salts)) (st : Store S) :
    plain (execAll st run) =
      runPlain (kept st) st.key.isSome (plain st) (run.map Prod.fst) := by
  have h : plain (execAll st run) = seen (look st) (execAll st run) := by
    unfold plain seen
    rw [look_congr (key_execAll run st), lookMeta_congr (key_execAll run st)]
    rfl
  exact h.trans (seen_execAll run (look_protect st))

/-- What a cell says: without a key every cell is a text, also one that would be refused. -/
def content (st : Store S) (cell : String) : Option String :=
  match st.key with
  | none => some cell
  | some _ => look st cell

/-- **The database up to the salts.** -/
def contents (st : Store S) : PlainTables := seen (content st) st

theorem rooms_contents (st : Store S) (id : String) :
    (contents st).rooms.lookup id = (st.db.rooms.lookup id).map (RoomRow.map (content st)) :=
  Tables.lookup_rooms _ _ st.db id

theorem messages_contents (st : Store S) (e : String) :
    (contents st).messages.lookup e = (st.db.messages.lookup e).map (MessageRow.map (content st)) :=
  Tables.lookup_messages _ _ st.db e

theorem content_protect (st : Store S) (salt : Salt) (p : String) :
    content st (st.protect salt p) = some p := by
  unfold content
  cases hk : st.key with
  | none =>
    unfold Store.protect
    rw [hk]
  | some master =>
    dsimp only
    rw [look_protect, kept_of_key (by rw [hk]; exact Option.some_ne_none _)]

theorem content_congr {a b : Store S} (h : a.key = b.key) : content a = content b := by
  funext cell; unfold content; rw [h, look_congr h]

/-- **A run, up to the salts.** -/
theorem contents_execAll (run : List (StoreOp × Salts)) (st : Store S) :
    contents (execAll st run) = runPlain some st.key.isSome (contents st) (run.map Prod.fst) := by
  unfold contents
  rw [content_congr (key_execAll run st)]
  exact seen_execAll run (content_protect st)

/-- What can be read back of a text depends on the key alone. -/
theorem kept_congr {st st' : Store S} (h : st.key = st'.key) : kept st = kept st' := by
  funext p; unfold kept; rw [h]

end Exec

end Kmatrix.Storage.Plain
