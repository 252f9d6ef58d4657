import Kmatrix.E2ee.Ratchets
import Kmatrix.Lib.Keyed
import Kmatrix.Storage.Seal
import Mathlib.Algebra.Group.Int.Defs
import Mathlib.Algebra.Group.Nat.Defs

/-! # The database

The six tables of `SCHEMA`, polymorphic in what an encryptable cell holds: SQL copies such cells
without looking inside. The database on disk is `Tables String`; `Tables.map` replaces every cell,
and `Store.plain` uses it to look through the sealing. -/

namespace Kmatrix.Storage.Schema

open Kmatrix.Lib.Keyed Kmatrix.E2ee.Ratchets Kmatrix.Storage.Seal

/-! ### The shared types -/

/-- The login session. -/
structure Session where
  homeserver : String
  userId : String
  deviceId : String
  accessToken : String
  deriving DecidableEq, Repr

structure Room where
  id : String
  name : String
  encrypted : Bool
  unread : ℕ
  lastTs : ℕ
  lastPreview : String
  deriving DecidableEq, Repr

structure Message where
  eventId : String
  room : String
  sender : String
  ts : ℕ
  senderName : Option String
  body : String
  encrypted : Bool
  decrypted : Bool
  mine : Bool
  sessionId : Option String
  ciphertext : Option String
  deriving DecidableEq, Repr

/-! ### Columns -/

/-- `u64 as i64`: the two's complement reading. -/
@[irreducible] def asI64 (n : ℕ) : ℤ := (n : ℤ).bmod (2 ^ 64)

theorem asI64_of_lt {n : ℕ} (h : n < 2 ^ 63) : asI64 n = n := by
  unfold asI64
  exact Int.bmod_eq_of_le (by omega) (by omega)

theorem asI64_inj {a b : ℕ} (ha : a < 2 ^ 64) (hb : b < 2 ^ 64) (h : asI64 a = asI64 b) : a = b := by
  unfold asI64 at h
  have ha' := @Int.bmod_emod (a : ℤ) (2 ^ 64)
  have hb' := @Int.bmod_emod (b : ℤ) (2 ^ 64)
  rw [h, hb'] at ha'
  omega

/-- `i64.max(0) as u64`. -/
def asU64 (i : ℤ) : ℕ := i.toNat

/-- What is read back of a column. -/
theorem asU64_asI64_lt (n : ℕ) : asU64 (asI64 n) < 2 ^ 63 := by
  have h := @Int.bmod_lt n (2 ^ 64) (by omega)
  unfold asU64 asI64
  omega

theorem asU64_asI64_of_lt {n : ℕ} (h : n < 2 ^ 63) : asU64 (asI64 n) = n := by
  rw [asI64_of_lt h]
  exact Int.toNat_natCast n

/-- `bool as i64`. -/
def boolI64 (b : Bool) : ℤ := if b then 1 else 0

theorem boolI64_ne_zero (b : Bool) : (boolI64 b ≠ 0) = (b = true) := by
  cases b <;> simp [boolI64]

structure RoomRow (C : Type) where
  name : C
  encrypted : ℤ
  unread : ℤ
  lastTs : ℤ
  lastPreview : C
  backToken : Option String
  backDone : ℤ
  deriving DecidableEq, Repr

structure MessageRow (C : Type) where
  room : String
  sender : String
  ts : ℤ
  body : C
  encrypted : ℤ
  decrypted : ℤ
  mine : ℤ
  sessionId : Option String
  ciphertext : Option C
  deriving DecidableEq, Repr

structure EditRow (C : Type) where
  ts : ℤ
  body : C
  deriving DecidableEq, Repr

structure PickleRow where
  extra : String
  pickle : Pickle
  deriving DecidableEq, Repr

/-- **The tables.** `metas` maps `k` to `v`, `members` maps `(room, user_id)` to `name`, `pickles`
is keyed by `(kind, id)`, the others by their first column. -/
@[ext]
structure Tables (C : Type) where
  metas : Table String C
  rooms : Table String (RoomRow C)
  messages : Table String (MessageRow C)
  pickles : Table (String × String) PickleRow
  edits : Table String (EditRow C)
  members : Table (String × String) C

/-- A fresh database. -/
def Tables.empty {C : Type} : Tables C :=
  ⟨Table.empty, Table.empty, Table.empty, Table.empty, Table.empty, Table.empty⟩

section Map
variable {C D : Type} (f : C → D)

def RoomRow.map (r : RoomRow C) : RoomRow D :=
  ⟨f r.name, r.encrypted, r.unread, r.lastTs, f r.lastPreview, r.backToken, r.backDone⟩

def MessageRow.map (r : MessageRow C) : MessageRow D :=
  ⟨r.room, r.sender, r.ts, f r.body, r.encrypted, r.decrypted, r.mine, r.sessionId,
    r.ciphertext.map f⟩

def EditRow.map (r : EditRow C) : EditRow D := ⟨r.ts, f r.body⟩

/-- **Every cell replaced**: `f` on the encryptable columns, `g k` on the value of the meta key
`k`. -/
def Tables.map (g : String → C → D) (t : Tables C) : Tables D where
  metas := t.metas.mapVal fun _ => g
  rooms := t.rooms.mapVal fun _ _ => RoomRow.map f
  messages := t.messages.mapVal fun _ _ => MessageRow.map f
  pickles := t.pickles
  edits := t.edits.mapVal fun _ _ => EditRow.map f
  members := t.members.mapVal fun _ _ => f

section Lookup
variable (g : String → C → D) (t : Tables C)

theorem Tables.lookup_metas (k : String) : (t.map f g).metas.lookup k = (t.metas.lookup k).map (g k) :=
  Table.lookup_mapVal g t.metas k

theorem Tables.lookup_rooms (id : String) :
    (t.map f g).rooms.lookup id = (t.rooms.lookup id).map (RoomRow.map f) :=
  Table.lookup_mapVal (fun _ => RoomRow.map f) t.rooms id

theorem Tables.lookup_messages (e : String) :
    (t.map f g).messages.lookup e = (t.messages.lookup e).map (MessageRow.map f) :=
  Table.lookup_mapVal (fun _ => MessageRow.map f) t.messages e

theorem Tables.lookup_edits (e : String) :
    (t.map f g).edits.lookup e = (t.edits.lookup e).map (EditRow.map f) :=
  Table.lookup_mapVal (fun _ => EditRow.map f) t.edits e

theorem Tables.lookup_members (k : String × String) :
    (t.map f g).members.lookup k = (t.members.lookup k).map f :=
  Table.lookup_mapVal (fun _ => f) t.members k

end Lookup

end Map

/-! ### The store -/

/-- An open store: the connection and the master key, if any. -/
structure Store (S : CipherSuite) where
  db : Tables String
  key : Option Key

/-- The meta entry holding the login session. -/
def sessionKey : String := "session"

/-- The `meta` entries that are secrets, each with its label in errors. -/
def secretMetaKeys : List (String × String) :=
  [(sessionKey, "meta.session"), ("backup_key", "meta.backup_key"),
    ("pickle_key", "meta.pickle_key")]

/-- Plaintext `meta` flag, set once every covered value has been encrypted. -/
def encryptedFlag : String := "store_encrypted"

def secretMetaLabel (k : String) : Option String :=
  (secretMetaKeys.find? fun p => p.1 = k).map Prod.snd

/-- The salts an operation draws, in the order it draws them. -/
abbrev Salts := ℕ → Salt

section
variable {S : CipherSuite}

/-- Wrap a value on its way into the database. -/
def Store.protect (st : Store S) (salt : Salt) (plain : String) : String :=
  match st.key with
  | some master => sealValue S master salt plain
  | none => plain

/-- Unwrap a value read back out of `column`. -/
def Store.reveal (st : Store S) (column stored : String) : Except String String :=
  unsealValue S st.key column stored

def Store.revealOpt (st : Store S) (column : String) :
    Option String → Except String (Option String)
  | some s => (st.reveal column s).map some
  | none => .ok none

end

end Kmatrix.Storage.Schema
