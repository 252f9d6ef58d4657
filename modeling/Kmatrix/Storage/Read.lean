import Kmatrix.Storage.Schema
import Mathlib.Data.List.Sort
import Mathlib.Data.String.Basic

/-! # Reading

Each public read of the store, again in two layers: which rows a query selects, and in which order,
is a function of `Tables C`; the methods of `Store` unseal what was selected, row by row, and the
first value that cannot be read fails the whole query. -/

namespace Kmatrix.Storage.Read

open Kmatrix.Lib.Keyed Kmatrix.E2ee.Ratchets Kmatrix.Storage.Seal Kmatrix.Storage.Schema

/-! ### Queries -/

section Queries
variable {C : Type} (db : Tables C)

/-- A stored message with its event id. -/
abbrev Stored (C : Type) := String × MessageRow C

/-- `ORDER BY ts DESC, event_id DESC`: `a` comes no later than `b`. -/
def Newer (a b : Stored C) : Prop := b.2.ts < a.2.ts ∨ (b.2.ts = a.2.ts ∧ b.1 ≤ a.1)

instance : DecidableRel (Newer (C := C)) := fun a b => by unfold Newer; infer_instance

/-- `ORDER BY ts DESC` alone. -/
def NewerTs (a b : Stored C) : Prop := b.2.ts ≤ a.2.ts

instance : DecidableRel (NewerTs (C := C)) := fun a b => by unfold NewerTs; infer_instance

/-- The newest `limit` messages that satisfy `p`, newest first. -/
def newest (p : MessageRow C → Bool) (limit : ℕ) : List (Stored C) :=
  ((db.messages.entries.filter fun m => p m.2).insertionSort Newer).take limit

/-- `room = ?1`. -/
def inRoom (room : String) (row : MessageRow C) : Bool := row.room = room

/-- `room = ?1 AND encrypted = 1 AND decrypted = 0 AND session_id IS NOT NULL AND ciphertext IS NOT
NULL`. -/
def retryable (room : String) (row : MessageRow C) : Bool :=
  inRoom room row && row.encrypted = 1 && row.decrypted = 0 && row.sessionId.isSome &&
    row.ciphertext.isSome

/-- `room = ?1 AND encrypted = 1 AND decrypted = 0 AND ciphertext IS NULL`. -/
def stale (room : String) (row : MessageRow C) : Bool :=
  inRoom room row && row.encrypted = 1 && row.decrypted = 0 && row.ciphertext.isNone

/-- `ORDER BY ts DESC` over the `(room, ts)` index: ties newest row first. -/
def staleRows (room : String) (limit : ℕ) : List (Stored C) :=
  ((db.messages.entries.filter fun m => stale room m.2).reverse.insertionSort NewerTs).take limit

/-- `ORDER BY last_ts DESC, id ASC`. -/
def RoomOrder (a b : String × RoomRow C) : Prop :=
  b.2.lastTs < a.2.lastTs ∨ (b.2.lastTs = a.2.lastTs ∧ a.1 ≤ b.1)

instance : DecidableRel (RoomOrder (C := C)) := fun a b => by unfold RoomOrder; infer_instance

def roomRows : List (String × RoomRow C) := db.rooms.entries.insertionSort RoomOrder

end Queries

/-! ### The methods of the store -/

section Methods
variable {S : CipherSuite} (st : Store S)

def getMeta (k : String) : Except String (Option String) :=
  let stored := st.db.metas.lookup k
  match secretMetaLabel k with
  | some label => st.revealOpt label stored
  | none => .ok stored

/-- `parse` is the JSON decoder of a `Session`. -/
def loadSession (parse : String → Except String Session) : Except String (Option Session) :=
  match getMeta st sessionKey with
  | .error e => .error e
  | .ok none => .ok none
  | .ok (some json) => (parse json).map some

/-- One room row, unsealed. -/
def readRoom (r : String × RoomRow String) : Except String Room := do
  let name ← st.reveal "room.name" r.2.name
  let lastPreview ← st.reveal "room.last_preview" r.2.lastPreview
  return ⟨r.1, name, r.2.encrypted ≠ 0, asU64 r.2.unread, asU64 r.2.lastTs, lastPreview⟩

def listRooms : Except String (List Room) := (roomRows st.db).mapM (readRoom st)

def getRoom (id : String) : Except String (Option Room) :=
  match st.db.rooms.lookup id with
  | some row => (readRoom st (id, row)).map some
  | none => .ok none

/-- The pagination edge: its token, and whether the start of the room was reached. -/
def backToken (room : String) : Option String × Bool :=
  match st.db.rooms.lookup room with
  | some row => (row.backToken, row.backDone ≠ 0)
  | none => (none, false)

/-- One message row, unsealed, with the name of its sender in its room. -/
def readMessage (m : String × MessageRow String) : Except String Message := do
  let row := m.2
  let body ← st.reveal "message.body" row.body
  let senderName ← st.revealOpt "member.name" (st.db.members.lookup (row.room, row.sender))
  let ciphertext ← st.revealOpt "message.ciphertext" row.ciphertext
  return ⟨m.1, row.room, row.sender, asU64 row.ts, senderName, body, row.encrypted ≠ 0,
    row.decrypted ≠ 0, row.mine ≠ 0, row.sessionId, ciphertext⟩

/-- The newest `limit` messages of `room`, oldest first. -/
def recentMessages (room : String) (limit : ℕ) : Except String (List Message) := do
  let out ← (newest st.db (inRoom room) limit).mapM (readMessage st)
  return out.reverse

/-- How many recent messages are locked with nothing left to retry. -/
def placeholdersWithoutCiphertext (room : String) (limit : ℕ) : ℕ :=
  (staleRows st.db room limit).length

/-- One retry: `(event_id, session_id, ciphertext)`. The query selects rows that hold both. -/
def readRetry (m : String × MessageRow String) : Except String (String × String × String) :=
  match m.2.sessionId, m.2.ciphertext with
  | some sid, some ct => do
    let ciphertext ← st.reveal "message.ciphertext" ct
    return (m.1, sid, ciphertext)
  | _, _ => .error "read undecrypted message row"

/-- The newest `limit` undecryptable messages that can be retried, newest first. -/
def undecryptedInRoom (room : String) (limit : ℕ) :
    Except String (List (String × String × String)) :=
  (newest st.db (retryable room) limit).mapM (readRetry st)

def memberIds (room : String) : List String :=
  (st.db.members.entries.filter fun p => p.1.1 = room).map fun p => p.1.2

def distinctSenders (room : String) : ℕ :=
  ((st.db.messages.entries.filter fun m => inRoom room m.2).map fun m => m.2.sender).dedup.length

def placeholderEventIds (room : String) (limit : ℕ) : List String :=
  (staleRows st.db room limit).map Prod.fst

/-- `ORDER BY id ASC`. -/
def PickleOrder (a b : String × String × Pickle) : Prop := a.1 ≤ b.1

instance : DecidableRel PickleOrder := fun a b => by unfold PickleOrder; infer_instance

def allPickles (kind : String) : List (String × String × Pickle) :=
  ((st.db.pickles.entries.filter fun p => p.1.1 = kind).map
    fun p => (p.1.2, p.2.extra, p.2.pickle)).insertionSort PickleOrder

end Methods

/-! ### What the queries select -/

section Select
variable {C : Type}

theorem newer_total (a b : Stored C) : Newer a b ∨ Newer b a := by
  unfold Newer
  rcases lt_trichotomy a.2.ts b.2.ts with h | h | h
  · right; left; exact h
  · rcases le_total a.1 b.1 with h' | h'
    · right; right; exact ⟨h, h'⟩
    · left; right; exact ⟨h.symm, h'⟩
  · left; left; exact h

theorem newer_trans {a b c : Stored C} (hab : Newer a b) (hbc : Newer b c) : Newer a c := by
  unfold Newer at *
  rcases hab with h1 | ⟨h1, h1'⟩ <;> rcases hbc with h2 | ⟨h2, h2'⟩
  · left; omega
  · left; omega
  · left; omega
  · right; exact ⟨by omega, le_trans h2' h1'⟩

instance : Std.Total (Newer (C := C)) := ⟨newer_total⟩

instance : IsTrans (Stored C) Newer := ⟨fun _ _ _ => newer_trans⟩

/-- A selected row is stored and satisfies the condition. -/
theorem of_mem_newest {db : Tables C} {p : MessageRow C → Bool} {limit : ℕ} {m : Stored C}
    (h : m ∈ newest db p limit) : db.messages.lookup m.1 = some m.2 ∧ p m.2 = true := by
  have h1 := List.mem_of_mem_take h
  rw [List.mem_insertionSort, List.mem_filter] at h1
  exact ⟨Table.mem_entries.mp h1.1, h1.2⟩

/-- With a limit no smaller than the table every row that satisfies the condition is selected. -/
theorem mem_newest {db : Tables C} {p : MessageRow C → Bool} {limit : ℕ} {m : Stored C}
    (hl : db.messages.entries.length ≤ limit) (h : db.messages.lookup m.1 = some m.2)
    (hp : p m.2 = true) : m ∈ newest db p limit := by
  unfold newest
  rw [List.take_of_length_le]
  · rw [List.mem_insertionSort, List.mem_filter]
    exact ⟨Table.mem_entries.mpr h, hp⟩
  · rw [List.length_insertionSort]
    exact le_trans (List.length_filter_le _ _) hl

theorem newest_nodup (db : Tables C) (p : MessageRow C → Bool) (limit : ℕ) :
    ((newest db p limit).map Prod.fst).Nodup := by
  have h1 : ((db.messages.entries.filter fun m => p m.2).map Prod.fst).Nodup :=
    (List.filter_sublist.map Prod.fst).nodup db.messages.entries_keys_nodup
  have h2 := (((db.messages.entries.filter fun m => p m.2).perm_insertionSort Newer).map
    Prod.fst).nodup_iff.mpr h1
  exact ((List.take_sublist limit _).map Prod.fst).nodup h2

end Select

end Kmatrix.Storage.Read
