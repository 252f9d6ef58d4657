import Kmatrix.Storage.Schema

/-! # Writing

Each public write of the store, in two layers: the SQL statement on `Tables C`, which takes its
encryptable cells as given, and the method of `Store`, which protects the texts on the way in. The
methods are collected in `StoreOp`, so that a run is a list of operations. -/

namespace Kmatrix.Storage.Write

open Kmatrix.Lib.Keyed Kmatrix.E2ee.Ratchets Kmatrix.Storage.Seal Kmatrix.Storage.Schema

/-! ### Statements -/

section Statements
variable {C : Type} (db : Tables C)

/-- `INSERT INTO meta … ON CONFLICT(k) DO UPDATE SET v`. -/
def setMetaStmt (k : String) (v : C) : Tables C :=
  { db with metas := db.metas.upsert k v fun _ => v }

/-- The room upsert: `back_token` and `back_done` are in neither the insert list nor the update. -/
def upsertRoomStmt (r : Room) (name preview : C) : Tables C :=
  { db with
    rooms := db.rooms.upsert r.id
      ⟨name, boolI64 r.encrypted, r.unread, asI64 r.lastTs, preview, none, 0⟩
      fun row => { row with
        name := name
        encrypted := boolI64 r.encrypted
        unread := r.unread
        lastTs := asI64 r.lastTs
        lastPreview := preview } }

/-- `COALESCE((SELECT body FROM edit WHERE target = e), body)`. -/
def coalesceEdit (e : String) (body : C) : C :=
  match db.edits.lookup e with
  | some edit => edit.body
  | none => body

/-- The message insert. On conflict only the body, the `decrypted` flag, the session and the
ciphertext are replaced. -/
def insertMessageStmt (m : Message) (body : C) (ciphertext : Option C) : Tables C :=
  let stored := coalesceEdit db m.eventId body
  { db with
    messages := db.messages.upsert m.eventId
      ⟨m.room, m.sender, asI64 m.ts, stored, boolI64 m.encrypted, boolI64 m.decrypted,
        boolI64 m.mine, m.sessionId, ciphertext⟩
      fun row => { row with
        body := stored
        decrypted := boolI64 m.decrypted
        sessionId := m.sessionId
        ciphertext := ciphertext } }

/-- The upgrade of a placeholder. -/
def upgradeMessageStmt (eventId : String) (body : C) : Tables C :=
  { db with
    messages := db.messages.modify eventId fun row => { row with
      body := coalesceEdit db eventId body
      decrypted := 1
      sessionId := none
      ciphertext := none } }

/-- The conditional edit upsert is accepted: `excluded.ts >= edit.ts`. -/
def editAccepted (target : String) (ts : ℤ) : Bool :=
  match db.edits.lookup target with
  | some edit => decide (edit.ts ≤ ts)
  | none => true

/-- Both writes of an edit, in one transaction, with whether a stored message was changed. -/
def recordEditStmt (target : String) (ts : ℤ) (body : C) : Tables C × Bool :=
  if editAccepted db target ts then
    ({ db with
        edits := db.edits.upsert target ⟨ts, body⟩ fun _ => ⟨ts, body⟩
        messages := db.messages.modify target fun row => { row with body := body } },
      (db.messages.lookup target).isSome)
  else (db, false)

/-- The member upserts of one transaction. -/
def rememberMembersStmt (room : String) (names : List (String × C)) : Tables C :=
  { db with
    members := names.foldl (fun t p => t.upsert (room, p.1) p.2 fun _ => p.2) db.members }

/-- The pickle upsert. -/
def putPickleStmt (kind id extra : String) (pickle : Pickle) : Tables C :=
  { db with
    pickles := db.pickles.upsert (kind, id) ⟨extra, pickle⟩ fun _ => ⟨extra, pickle⟩ }

/-- `UPDATE room SET back_token … WHERE back_token IS NULL`, with whether a row was changed. -/
def seedBackTokenStmt (room token : String) : Tables C × Bool :=
  match db.rooms.lookup room with
  | some row =>
    if row.backToken = none then
      ({ db with rooms := db.rooms.modify room fun row => { row with backToken := some token } },
        true)
    else (db, false)
  | none => (db, false)

/-- `UPDATE room SET back_token, back_done`. -/
def setBackTokenStmt (room : String) (token : Option String) (done : Bool) : Tables C :=
  { db with
    rooms := db.rooms.modify room fun row =>
      { row with backToken := token, backDone := boolI64 done } }

/-- `mark_encrypted`: the flag is plaintext, `one` is the cell holding `1`. -/
def markEncrypted (one : C) : Tables C := setMetaStmt db encryptedFlag one

/-- Seeding the pagination edge leaves every other table alone. -/
theorem seedBackTokenStmt_eq (room token : String) :
    ∃ rooms, (seedBackTokenStmt db room token).1 = { db with rooms := rooms } := by
  unfold seedBackTokenStmt
  split
  · split_ifs
    · exact ⟨_, rfl⟩
    · exact ⟨db.rooms, rfl⟩
  · exact ⟨db.rooms, rfl⟩

end Statements

/-! ### The methods of the store -/

section Methods
variable {S : CipherSuite} (st : Store S) (rng : Salts)

def setMeta (k v : String) : Store S :=
  let stored := match secretMetaLabel k with
    | some _ => st.protect (rng 0) v
    | none => v
  { st with db := setMetaStmt st.db k stored }

/-- The session is stored as the JSON text `json`. -/
def saveSession (json : String) : Store S := setMeta st rng sessionKey json

def upsertRoom (r : Room) : Store S :=
  let name := st.protect (rng 0) r.name
  let preview := st.protect (rng 1) r.lastPreview
  { st with db := upsertRoomStmt st.db r name preview }

def insertMessage (m : Message) : Store S :=
  let body := st.protect (rng 0) m.body
  let ciphertext := m.ciphertext.map (st.protect (rng 1))
  { st with db := insertMessageStmt st.db m body ciphertext }

def upgradeMessage (eventId body : String) : Store S :=
  let body := st.protect (rng 0) body
  { st with db := upgradeMessageStmt st.db eventId body }

def recordEdit (target : String) (ts : ℕ) (body : String) : Store S × Bool :=
  let stored := st.protect (rng 0) body
  let (db, changed) := recordEditStmt st.db target (asI64 ts) stored
  ({ st with db := db }, changed)

/-- The entries of a name map that carry a name: absent and empty ones are skipped. -/
def named (names : List (String × Option String)) : List (String × String) :=
  names.filterMap fun p => match p.2 with
    | some name => if name = "" then none else some (p.1, name)
    | none => none

/-- Remember what a room calls its members; the map is given in key order. -/
def rememberMembers (room : String) (names : List (String × Option String)) : Store S :=
  let stored := (named names).mapIdx fun i p => (p.1, st.protect (rng i) p.2)
  { st with db := rememberMembersStmt st.db room stored }

def putPickle (kind id extra : String) (pickle : Pickle) : Store S :=
  { st with db := putPickleStmt st.db kind id extra pickle }

def seedBackToken (room token : String) : Store S × Bool :=
  let (db, written) := seedBackTokenStmt st.db room token
  ({ st with db := db }, written)

def setBackToken (room : String) (token : Option String) (done : Bool) : Store S :=
  { st with db := setBackTokenStmt st.db room token done }

/-- The first transaction of `clear`: every table is wiped, the flag with them. -/
def wipe : Store S := { st with db := Tables.empty }

/-- Wipe every table, then put `store_encrypted` straight back. `VACUUM` and the checkpoint change
no row. -/
def clear : Store S :=
  let st := wipe st
  match st.key with
  | some _ => { st with db := markEncrypted st.db "1" }
  | none => st

end Methods

/-! ### Operations -/

/-- **A public write operation.** -/
inductive StoreOp where
  | saveSession (json : String)
  | setMeta (k v : String)
  | upsertRoom (r : Room)
  | insertMessage (m : Message)
  | upgradeMessage (eventId body : String)
  | recordEdit (target : String) (ts : ℕ) (body : String)
  | rememberMembers (room : String) (names : List (String × Option String))
  | putPickle (kind id extra : String) (pickle : Pickle)
  | seedBackToken (room token : String)
  | setBackToken (room : String) (token : Option String) (done : Bool)
  | clear
  deriving DecidableEq, Repr

/-- The operation carried out, drawing its salts from `rng`. -/
def StoreOp.exec {S : CipherSuite} (rng : Salts) (st : Store S) : StoreOp → Store S
  | .saveSession json => Write.saveSession st rng json
  | .setMeta k v => Write.setMeta st rng k v
  | .upsertRoom r => Write.upsertRoom st rng r
  | .insertMessage m => Write.insertMessage st rng m
  | .upgradeMessage e body => Write.upgradeMessage st rng e body
  | .recordEdit target ts body => (Write.recordEdit st rng target ts body).1
  | .rememberMembers room names => Write.rememberMembers st rng room names
  | .putPickle kind id extra pickle => Write.putPickle st kind id extra pickle
  | .seedBackToken room token => (Write.seedBackToken st room token).1
  | .setBackToken room token done => Write.setBackToken st room token done
  | .clear => Write.clear st

/-- A run of operations, each with the salts it draws. -/
def execAll {S : CipherSuite} (st : Store S) (run : List (StoreOp × Salts)) : Store S :=
  run.foldl (fun st p => p.1.exec p.2 st) st

/-- No operation changes the key. -/
@[simp] theorem key_exec {S : CipherSuite} (rng : Salts) (st : Store S) (op : StoreOp) :
    (op.exec rng st).key = st.key := by
  cases op <;> try rfl
  case clear =>
    obtain ⟨db, key⟩ := st
    cases key <;> rfl

end Kmatrix.Storage.Write
