import Kmatrix.Sync.Events

/-! # Converting a timeline event

`convertEvent` turns a timeline event into what the store is told of it: an edit to record, or a
message to insert, or neither. `decrypt` is the Megolm layer with the keys it holds at that moment:
the plaintext of a ciphertext under a session, where it can produce one. -/

namespace Kmatrix.Sync.Convert

open Kmatrix.Storage.Seal Kmatrix.Storage.Schema Kmatrix.Storage.Write
open Kmatrix.Sync.Plaintext Kmatrix.Sync.Events

/-- A replacement: the event it replaces, its timestamp, the new text. -/
structure Edit where
  target : String
  ts : U64
  body : String
  deriving DecidableEq

/-- What becomes of an event. -/
structure Converted where
  edit : Option Edit := none
  message : Option Message := none
  deriving DecidableEq

/-- The text of a replacement: the new content's, else the fallback without its star. -/
def editBody (content : EventContent) : String :=
  match content.newContent.bind EventContent.body with
  | some b => b
  | none =>
    match content.body with
    | some b => (stripPrefix b "* ").getD b
    | none => ""

/-- **`record_if_edit`**: `none` where the content is no edit; an empty replacement is an edit that
records nothing. -/
def recordIfEdit (ts : U64) (content : EventContent) : Option (Option Edit) :=
  match content.relatesTo with
  | none => none
  | some rel =>
    if rel.relType ≠ some "m.replace" then none
    else
      match rel.eventId with
      | none => none
      | some target =>
        let body := editBody content
        some (if body = "" then none else some ⟨target, ts, body⟩)

def noKeyText : String := "[encrypted — no key for this message]"

def malformedText (e : String) : String := "[malformed plaintext: " ++ e ++ "]"

/-- Content that is not locked: an edit, a message made of its body, or nothing to render. -/
def convertContent (ts : U64) (content : EventContent) (mk : String → Message) : Converted :=
  match recordIfEdit ts content with
  | some edit => { edit := edit }
  | none =>
    let body := content.body.getD ""
    if body = "" then {} else { message := some (mk body) }

/-- **`convert_event`.** -/
def convertEvent (serde : SerdeJson) (decrypt : String → String → Option String) (userId : String)
    (roomId : String) (ev : RoomEvent) : Converted :=
  let mine : Bool := ev.sender = userId
  if ev.kind = "m.room.message" then
    convertContent ev.originServerTs ev.content fun body =>
      ⟨ev.eventId, roomId, ev.sender, ev.originServerTs, none, body, false, true, mine, none, none⟩
  else if ev.kind = "m.room.encrypted" then
    match ev.content.ciphertext, ev.content.sessionId with
    | some ct, some sid =>
      let locked (text : String) : Message :=
        ⟨ev.eventId, roomId, ev.sender, ev.originServerTs, none, text, true, false, mine, some sid,
          some ct⟩
      match decrypt sid ct with
      | none => { message := some (locked noKeyText) }
      | some json =>
        match serde.decryptedEvent json with
        | .error e => { message := some (locked (malformedText e)) }
        | .ok content =>
          -- an edit is encrypted like any other message, so it is only recognised here
          convertContent ev.originServerTs content fun body =>
            ⟨ev.eventId, roomId, ev.sender, ev.originServerTs, none, body, true, true, mine, none,
              none⟩
    | _, _ => {}
  else {}

/-- The write of an edit. -/
def Edit.op (e : Edit) : StoreOp := .recordEdit e.target e.ts e.body

/-- The writes a conversion leads to. -/
def Converted.ops (c : Converted) : List StoreOp :=
  c.edit.toList.map Edit.op ++ c.message.toList.map .insertMessage

/-! ### What a conversion keeps of the event -/

theorem convertContent_message {ts : U64} {content : EventContent} {mk : String → Message}
    {m : Message} (h : (convertContent ts content mk).message = some m) : ∃ body, m = mk body := by
  unfold convertContent at h
  split at h
  · cases h
  · dsimp only at h
    by_cases hb : content.body.getD "" = ""
    · rw [if_pos hb] at h; cases h
    · rw [if_neg hb] at h
      exact ⟨_, (Option.some.inj h).symm⟩

theorem recordIfEdit_ts {ts : U64} {content : EventContent} {e : Edit}
    (h : recordIfEdit ts content = some (some e)) : e.ts = ts := by
  unfold recordIfEdit at h
  split at h
  · cases h
  · next rel _ =>
    by_cases hr : rel.relType ≠ some "m.replace"
    · rw [if_pos hr] at h; cases h
    · rw [if_neg hr] at h
      split at h
      · cases h
      · dsimp only at h
        by_cases hb : editBody content = ""
        · rw [if_pos hb] at h; cases h
        · rw [if_neg hb] at h; cases h; rfl

theorem convertContent_edit {ts : U64} {content : EventContent} {mk : String → Message} {e : Edit}
    (h : (convertContent ts content mk).edit = some e) : e.ts = ts := by
  unfold convertContent at h
  split at h
  · next edit hedit =>
    rw [show edit = some e from h] at hedit
    exact recordIfEdit_ts hedit
  · dsimp only at h
    split_ifs at h

section Convert
variable {serde : SerdeJson} {decrypt : String → String → Option String} {userId roomId : String}
  {ev : RoomEvent}

/-- A message keeps the event's id, room, sender and timestamp. -/
theorem convertEvent_message {m : Message}
    (h : (convertEvent serde decrypt userId roomId ev).message = some m) :
    m.eventId = ev.eventId ∧ m.room = roomId ∧ m.sender = ev.sender ∧
      m.ts = (ev.originServerTs : ℕ) := by
  unfold convertEvent at h
  dsimp only at h
  by_cases hk : ev.kind = "m.room.message"
  · rw [if_pos hk] at h
    obtain ⟨body, rfl⟩ := convertContent_message h
    exact ⟨rfl, rfl, rfl, rfl⟩
  · rw [if_neg hk] at h
    by_cases hk' : ev.kind = "m.room.encrypted"
    · rw [if_pos hk'] at h
      split at h
      · split at h
        · cases h
          exact ⟨rfl, rfl, rfl, rfl⟩
        · split at h
          · cases h
            exact ⟨rfl, rfl, rfl, rfl⟩
          · obtain ⟨body, rfl⟩ := convertContent_message h
            exact ⟨rfl, rfl, rfl, rfl⟩
      · cases h
    · rw [if_neg hk'] at h
      cases h

/-- An edit carries the timestamp of the event it came in. -/
theorem convertEvent_edit {e : Edit}
    (h : (convertEvent serde decrypt userId roomId ev).edit = some e) : e.ts = ev.originServerTs := by
  unfold convertEvent at h
  dsimp only at h
  by_cases hk : ev.kind = "m.room.message"
  · rw [if_pos hk] at h
    exact convertContent_edit h
  · rw [if_neg hk] at h
    by_cases hk' : ev.kind = "m.room.encrypted"
    · rw [if_pos hk'] at h
      split at h
      · split at h
        · cases h
        · split at h
          · cases h
          · exact convertContent_edit h
      · cases h
    · rw [if_neg hk'] at h
      cases h

end Convert

end Kmatrix.Sync.Convert
