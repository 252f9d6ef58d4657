import Kmatrix.Storage.Schema

/-! # The timeline of the plugin

An open room on the reader: the messages in the order they were added, and `seen`, their index by
event id; together a keyed table. A message that is not listed is added at the end. Of one that is,
only the text and the attribution move: body, flag and sender name, all three as the newcomer has
them, an absent name included (`lookup_appendMessages`). -/

namespace Kmatrix.Ui.Timeline

open Kmatrix.Lib.Keyed Kmatrix.Storage.Schema

/-- What of a message crosses the socket: the retry columns are no part of it. -/
def onWire (m : Message) : Message := { m with sessionId := none, ciphertext := none }

/-- What a timeline shows of a message, its place and its time apart. -/
def said (m : Message) : String × Bool × Option String := (m.body, m.decrypted, m.senderName)

theorem said_onWire (m : Message) : said (onWire m) = said m := rfl

/-- **The open timeline**: its room, and `messages` under the index `seen`. -/
structure TimelineState where
  room : String
  shown : Table String Message

/-- A `messages` event of the daemon, or its answer to a `messages` request. -/
structure Messages where
  room : String
  messages : List Message

/-- A row that is listed takes the text and the attribution of its newcomer. -/
def rewrite (message stored : Message) : Message :=
  if stored.body ≠ message.body ∨ stored.decrypted ≠ message.decrypted ∨
      stored.senderName ≠ message.senderName then
    { stored with
      body := message.body
      decrypted := message.decrypted
      senderName := message.senderName }
  else stored

/-- One message of `appendMessages`. -/
def appendMessage (shown : Table String Message) (message : Message) : Table String Message :=
  shown.upsert message.eventId message (rewrite message)

def appendMessages (shown : Table String Message) (messages : List Message) : Table String Message :=
  messages.foldl appendMessage shown

/-- The answer of `requestMessages`: the timeline is filled anew. -/
def TimelineState.onResponse (timeline : TimelineState) (resp : Messages) : TimelineState :=
  if timeline.room ≠ resp.room then timeline
  else { timeline with shown := appendMessages Table.empty resp.messages }

/-- `onDaemonEvent`, of a `messages` event. -/
def TimelineState.onDaemonEvent (timeline : TimelineState) (event : Messages) : TimelineState :=
  if event.room = timeline.room then
    { timeline with shown := appendMessages timeline.shown event.messages }
  else timeline

/-! ### What is shown -/

theorem said_rewrite (message stored : Message) : said (rewrite message stored) = said message := by
  unfold rewrite
  split_ifs with h
  · rfl
  · push Not at h
    obtain ⟨hbody, hdecrypted, hname⟩ := h
    unfold said
    rw [hbody, hdecrypted, hname]

/-- The last of the messages that carries the id. -/
def lastOf (e : String) (messages : List Message) : Option Message :=
  (messages.filter fun m => m.eventId = e).getLast?

theorem lookup_appendMessage (shown : Table String Message) (message : Message) (e : String) :
    ((appendMessage shown message).lookup e).map said =
      if message.eventId = e then some (said message) else (shown.lookup e).map said := by
  unfold appendMessage
  rw [Table.lookup_upsert]
  by_cases he : message.eventId = e
  · subst he
    rw [if_pos rfl, if_pos rfl]
    cases shown.lookup message.eventId with
    | none => rfl
    | some stored => exact congrArg some (said_rewrite message stored)
  · rw [if_neg he, if_neg (Ne.symm he)]

/-- **An event shows its last version**, and without one what it showed before. -/
theorem lookup_appendMessages (e : String) : ∀ (messages : List Message)
    (shown : Table String Message),
    ((appendMessages shown messages).lookup e).map said =
      ((lastOf e messages).or (shown.lookup e)).map said
  | [], _ => rfl
  | message :: messages, shown => by
    have hstep := lookup_appendMessage shown message e
    show ((appendMessages (appendMessage shown message) messages).lookup e).map said = _
    rw [lookup_appendMessages e messages]
    unfold lastOf
    by_cases he : message.eventId = e
    · rw [if_pos he] at hstep
      rw [List.filter_cons, if_pos (decide_eq_true he), List.getLast?_cons]
      cases (messages.filter fun m => decide (m.eventId = e)).getLast? with
      | none => exact hstep
      | some last => rfl
    · rw [if_neg he] at hstep
      rw [List.filter_cons, if_neg (by simpa using he)]
      cases (messages.filter fun m => decide (m.eventId = e)).getLast? with
      | none => exact hstep
      | some last => rfl

theorem room_foldl (events : List Messages) : ∀ timeline : TimelineState,
    (events.foldl TimelineState.onDaemonEvent timeline).room = timeline.room := by
  induction events with
  | nil => intro timeline; rfl
  | cons event events ih =>
    intro timeline
    rw [List.foldl_cons, ih]
    unfold TimelineState.onDaemonEvent
    split_ifs <;> rfl

/-- **A run of events**: those of the room, one list after the other. -/
theorem shown_foldl (events : List Messages) : ∀ timeline : TimelineState,
    (events.foldl TimelineState.onDaemonEvent timeline).shown =
      appendMessages timeline.shown
        (events.flatMap fun event => if event.room = timeline.room then event.messages else []) := by
  induction events with
  | nil => intro timeline; rfl
  | cons event events ih =>
    intro timeline
    have hroom : (timeline.onDaemonEvent event).room = timeline.room := room_foldl [event] timeline
    rw [List.foldl_cons, ih, hroom, List.flatMap_cons]
    unfold TimelineState.onDaemonEvent
    by_cases h : event.room = timeline.room
    · rw [if_pos h, if_pos h]
      exact List.foldl_append.symm
    · rw [if_neg h, if_neg h]
      rfl

end Kmatrix.Ui.Timeline
