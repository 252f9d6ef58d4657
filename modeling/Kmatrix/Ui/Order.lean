import Kmatrix.Lib.Trace
import Kmatrix.Ui.Timeline
import Mathlib.Data.Prod.Lex
import Mathlib.Data.String.Basic

/-! # The order of the timeline

`appendMessages` adds what it has not seen at the end, in the order it comes, and `markRead` tells the
daemon that the last row was read. A response fills the timeline anew; an event is added to what is there.
Every list comes oldest first, but an event may bring messages that are older than the last row: a page of
history is published as the newest messages of the store, and what it added is new to the timeline too.

* `InOrder`: after a list was appended the rows are sorted by `(ts, event_id)`, no event twice, and what is
  marked as read is the newest of them.
* `inOrder_iff`: a run is so throughout exactly if each event brings, of messages that are not shown yet,
  only such as are newer than all that is shown. -/

namespace Kmatrix.Ui.Order

open Kmatrix.Lib.Keyed Kmatrix.Lib.Trace Kmatrix.Storage.Schema Kmatrix.Ui.Timeline

/-! ### The screen -/

/-- `(ts, event_id)`. -/
def stamp (m : Message) : ℕ ×ₗ String := toLex (m.ts, m.eventId)

/-- A list of messages from the daemon, oldest first; a response or an event, and whether the connection is
there when it is looked at. -/
structure Delivery where
  room : String
  messages : List Message
  oldestFirst : messages.Pairwise fun a b => stamp a ≤ stamp b
  event : Bool
  connected : Bool := true

/-- The open room, and the event it was last marked as read up to. -/
structure Screen where
  timeline : TimelineState
  readUpTo : Option String := none

/-- The rows of the timeline. -/
def rowsOf (shown : Table String Message) : List Message := shown.rows.map Row.val

/-- The message is added, or its row is rewritten. -/
def touches (shown : Table String Message) (message : Message) : Bool :=
  match shown.lookup message.eventId with
  | none => true
  | some stored => stored.body ≠ message.body || stored.decrypted ≠ message.decrypted ||
      stored.senderName ≠ message.senderName

/-- `added or updated`. -/
def changes : Table String Message → List Message → Bool
  | _, [] => false
  | shown, message :: messages =>
    touches shown message || changes (appendMessage shown message) messages

/-- **`markRead`**, and the event id it sends. -/
def Screen.markRead (connected : Bool) (s : Screen) : Screen × Option String :=
  if !connected then (s, none)
  else
    match (rowsOf s.timeline.shown).getLast? with
    | none => (s, none)
    | some last =>
      if some last.eventId = s.readUpTo then (s, none)
      else ({ s with readUpTo := some last.eventId }, some last.eventId)

/-- **`KMatrix:appendMessages`.** -/
def Screen.appendMessages (connected : Bool) (messages : List Message) (s : Screen) :
    Screen × Option String :=
  let after := { s with
    timeline := { s.timeline with shown := Timeline.appendMessages s.timeline.shown messages } }
  if changes s.timeline.shown messages then after.markRead connected else (after, none)

/-- A delivery reaches the screen: the answer of `requestMessages`, or `onDaemonEvent`. -/
def step (s : Screen) (d : Delivery) : Screen × Option String :=
  if d.room ≠ s.timeline.room then (s, none)
  else if d.event then s.appendMessages d.connected d.messages
  else { s with timeline := { s.timeline with shown := Table.empty } }.appendMessages d.connected d.messages

/-- A room that was just opened. -/
def opened (room : String) : Screen := { timeline := ⟨room, Table.empty⟩ }

/-! ### The statement -/

/-- Oldest first, and no event twice. -/
structure Sorted (shown : Table String Message) : Prop where
  order : (rowsOf shown).Pairwise fun a b => stamp a < stamp b
  once : ((rowsOf shown).map Message.eventId).Nodup

/-- **The timeline is in order** after a step, and what the step marks as read is its newest message. -/
structure InOrder (o : Occ Screen Delivery (Option String)) : Prop where
  sorted : Sorted (step o.before o.input).1.timeline.shown
  newest : ∀ e, o.output = some e → ∃ m ∈ rowsOf (step o.before o.input).1.timeline.shown, m.eventId = e ∧
    ∀ m' ∈ rowsOf (step o.before o.input).1.timeline.shown, stamp m' ≤ stamp m

/-- **An event follows what is shown**: what is new in it is newer. -/
def Follows (s : Screen) (d : Delivery) : Prop :=
  d.event = true → d.room = s.timeline.room → ∀ m ∈ d.messages, s.timeline.shown.lookup m.eventId = none →
    ∀ m' ∈ rowsOf s.timeline.shown, stamp m' < stamp m

/-! ### Rows and their stamps -/

/-- The rows are kept under their event ids. -/
def Indexed (shown : Table String Message) : Prop := shown.All fun e m => m.eventId = e

theorem indexed_appendMessage {shown : Table String Message} (h : Indexed shown) (message : Message) :
    Indexed (appendMessage shown message) := by
  refine Table.All.upsert h rfl fun stored _ hstored => ?_
  unfold rewrite
  split_ifs <;> exact hstored

/-- The stamps of the rows. -/
def stamps (shown : Table String Message) : List (ℕ ×ₗ String) := (rowsOf shown).map stamp

theorem eventIds_of_indexed {shown : Table String Message} (h : Indexed shown) :
    (rowsOf shown).map Message.eventId = shown.rows.map Row.key := by
  unfold rowsOf
  rw [List.map_map]
  exact List.map_congr_left fun r hr => Table.all_iff_rows.mp h r hr

theorem sorted_iff {shown : Table String Message} (h : Indexed shown) :
    Sorted shown ↔ (stamps shown).Pairwise (· < ·) := by
  refine ⟨fun hs => List.pairwise_map.mpr hs.order, fun hs => ⟨List.pairwise_map.mp hs, ?_⟩⟩
  rw [eventIds_of_indexed h]
  exact shown.nodup

/-- A rewritten row keeps its place and its stamp. -/
theorem stamps_appendMessage_of_shown {shown : Table String Message} {message stored : Message}
    (h : shown.lookup message.eventId = some stored) :
    stamps (appendMessage shown message) = stamps shown := by
  unfold stamps rowsOf appendMessage Table.upsert
  rw [dif_pos (Table.mem_keys.mpr ⟨stored, h⟩), Table.modify, Table.rows_mapVal]
  simp only [List.map_map]
  refine List.map_congr_left fun r _ => ?_
  simp only [Function.comp, Table.Row.mapVal]
  split_ifs
  · unfold rewrite
    split_ifs <;> rfl
  · rfl

/-- A new one is added at the end. -/
theorem stamps_appendMessage_of_new {shown : Table String Message} {message : Message}
    (h : shown.lookup message.eventId = none) :
    stamps (appendMessage shown message) = stamps shown ++ [stamp message] := by
  unfold stamps rowsOf appendMessage Table.upsert
  rw [dif_neg (Table.lookup_eq_none.mp h), Table.rows_append]
  simp

theorem lookup_isSome_appendMessage (shown : Table String Message) (message : Message) (e : String) :
    ((appendMessage shown message).lookup e).isSome ↔ e = message.eventId ∨ (shown.lookup e).isSome := by
  unfold appendMessage
  rw [Table.lookup_upsert]
  split_ifs with h
  · simp [h]
  · simp [h]

/-- **What a list adds**: the first message of each event that is not shown. -/
theorem stamps_appendMessages {messages : List Message}
    (hsorted : messages.Pairwise fun a b => stamp a ≤ stamp b) (shown : Table String Message) :
    ∃ fresh, stamps (Timeline.appendMessages shown messages) = stamps shown ++ fresh ∧
      fresh.Pairwise (· < ·) ∧ (∀ x ∈ fresh, ∃ m ∈ messages, shown.lookup m.eventId = none ∧ x = stamp m) ∧
      ∀ m ∈ messages, shown.lookup m.eventId = none → ∃ x ∈ fresh, x ≤ stamp m := by
  induction messages generalizing shown with
  | nil => exact ⟨[], (List.append_nil _).symm, List.Pairwise.nil, by simp, by simp⟩
  | cons message messages ih =>
    obtain ⟨hfirst, hrest⟩ := List.pairwise_cons.mp hsorted
    obtain ⟨fresh, hstamps, hpair, hfrom, hcovers⟩ := ih hrest (appendMessage shown message)
    have hold : ∀ m : Message, (appendMessage shown message).lookup m.eventId = none →
        shown.lookup m.eventId = none ∧ m.eventId ≠ message.eventId := by
      intro m hm
      have hiff := lookup_isSome_appendMessage shown message m.eventId
      rw [hm] at hiff
      simp only [Option.isSome_none, Bool.false_eq_true, false_iff, not_or,
        Option.not_isSome_iff_eq_none] at hiff
      exact ⟨hiff.2, hiff.1⟩
    show ∃ fresh, stamps (Timeline.appendMessages (appendMessage shown message) messages) = _ ∧ _
    rcases hlookup : shown.lookup message.eventId with _ | stored
    · refine ⟨stamp message :: fresh, ?_, List.pairwise_cons.mpr ⟨fun x hx => ?_, hpair⟩, ?_, ?_⟩
      · rw [hstamps, stamps_appendMessage_of_new hlookup, List.append_assoc]
        rfl
      · obtain ⟨m, hm, hnone, rfl⟩ := hfrom x hx
        refine lt_of_le_of_ne (hfirst m hm) fun heq => (hold m hnone).2 ?_
        exact (congrArg (fun p => (ofLex p).2) heq).symm
      · intro x hx
        rcases List.mem_cons.mp hx with rfl | hx
        · exact ⟨message, List.mem_cons_self, hlookup, rfl⟩
        · obtain ⟨m, hm, hnone, rfl⟩ := hfrom x hx
          exact ⟨m, List.mem_cons_of_mem _ hm, (hold m hnone).1, rfl⟩
      · intro m hm _
        refine ⟨stamp message, List.mem_cons_self, ?_⟩
        rcases List.mem_cons.mp hm with rfl | hm
        · exact le_rfl
        · exact hfirst m hm
    · refine ⟨fresh, by rw [hstamps, stamps_appendMessage_of_shown hlookup], hpair, ?_, ?_⟩
      · intro x hx
        obtain ⟨m, hm, hnone, rfl⟩ := hfrom x hx
        exact ⟨m, List.mem_cons_of_mem _ hm, (hold m hnone).1, rfl⟩
      · intro m hm hnone
        rcases List.mem_cons.mp hm with rfl | hm
        · rw [hlookup] at hnone
          cases hnone
        · refine hcovers m hm ?_
          rw [← Option.not_isSome_iff_eq_none, lookup_isSome_appendMessage, not_or,
            Option.not_isSome_iff_eq_none]
          refine ⟨?_, hnone⟩
          intro heq
          rw [heq, hlookup] at hnone
          cases hnone

/-! ### A step -/

section Step
variable {s : Screen} {d : Delivery}

theorem timeline_markRead (s : Screen) (connected : Bool) : (s.markRead connected).1.timeline = s.timeline := by
  unfold Screen.markRead
  split
  · rfl
  · split
    · rfl
    · split_ifs <;> rfl

/-- What is marked as read is the last row. -/
theorem last_of_markRead {connected : Bool} {e : String} (h : (s.markRead connected).2 = some e) :
    ∃ last, (rowsOf s.timeline.shown).getLast? = some last ∧ last.eventId = e := by
  unfold Screen.markRead at h
  split at h
  · cases h
  · split at h
    · cases h
    · next last hlast =>
      split_ifs at h
      exact ⟨last, hlast, Option.some.inj h⟩

/-- What is appended to: an event adds to what is shown, a response starts anew. -/
def base (s : Screen) (d : Delivery) : Table String Message :=
  if d.event then s.timeline.shown else Table.empty

/-- **What a step shows**, and what it marks as read. -/
theorem step_spec (s : Screen) (d : Delivery) :
    (d.room ≠ s.timeline.room → step s d = (s, none)) ∧
    (d.room = s.timeline.room →
      (step s d).1.timeline = ⟨s.timeline.room, appendMessages (base s d) d.messages⟩ ∧
      ∀ e, (step s d).2 = some e →
        ∃ last, (rowsOf (step s d).1.timeline.shown).getLast? = some last ∧ last.eventId = e) := by
  have happend : ∀ s : Screen, (s.appendMessages d.connected d.messages).1.timeline =
      ⟨s.timeline.room, appendMessages s.timeline.shown d.messages⟩ ∧
      ∀ e, (s.appendMessages d.connected d.messages).2 = some e →
        ∃ last, (rowsOf (s.appendMessages d.connected d.messages).1.timeline.shown).getLast? = some last ∧
          last.eventId = e := by
    intro s
    unfold Screen.appendMessages
    dsimp only
    split_ifs
    · rw [timeline_markRead]
      exact ⟨rfl, fun e he => last_of_markRead he⟩
    · exact ⟨rfl, fun e he => by cases he⟩
  refine ⟨fun h => if_pos h, fun h => ?_⟩
  unfold step base
  rw [if_neg (not_not.mpr h)]
  split_ifs
  · exact happend s
  · exact happend _

theorem indexed_appendMessages {shown : Table String Message} (h : Indexed shown) (messages : List Message) :
    Indexed (appendMessages shown messages) := by
  induction messages generalizing shown with
  | nil => exact h
  | cons message messages ih => exact ih (indexed_appendMessage h message)

theorem indexed_base (h : Indexed s.timeline.shown) : Indexed (base s d) := by
  unfold base
  split_ifs
  · exact h
  · exact Table.all_empty _

theorem indexed_step (h : Indexed s.timeline.shown) : Indexed (step s d).1.timeline.shown := by
  obtain ⟨hother, hroom⟩ := step_spec s d
  by_cases hd : d.room = s.timeline.room
  · rw [(hroom hd).1]
    exact indexed_appendMessages (indexed_base h) _
  · rw [hother hd]
    exact h

/-- **A step that follows** keeps the rows sorted. -/
theorem sorted_step (hindexed : Indexed s.timeline.shown) (h : Sorted s.timeline.shown) (hd : Follows s d) :
    Sorted (step s d).1.timeline.shown := by
  rw [sorted_iff (indexed_step hindexed)]
  rw [sorted_iff hindexed] at h
  obtain ⟨hother, hroom⟩ := step_spec s d
  by_cases hr : d.room = s.timeline.room
  · rw [(hroom hr).1]
    obtain ⟨fresh, hstamps, hpair, hfrom, -⟩ := stamps_appendMessages d.oldestFirst (base s d)
    rw [hstamps]
    unfold base at hfrom ⊢
    split_ifs at hfrom ⊢ with hevent
    · refine List.pairwise_append.mpr ⟨h, hpair, fun a ha b hb => ?_⟩
      obtain ⟨m', hm', rfl⟩ := List.mem_map.mp ha
      obtain ⟨m, hm, hnone, rfl⟩ := hfrom b hb
      exact hd hevent hr m hm hnone m' hm'
    · exact hpair
  · rw [hother hr]
    exact h

/-- **Only what follows** leaves the rows sorted. -/
theorem follows_of_sorted (hindexed : Indexed s.timeline.shown) (h : Sorted (step s d).1.timeline.shown) :
    Follows s d := by
  intro hevent hr m hm hnone m' hm'
  rw [sorted_iff (indexed_step hindexed), ((step_spec s d).2 hr).1] at h
  obtain ⟨fresh, hstamps, -, -, hcovers⟩ := stamps_appendMessages d.oldestFirst (base s d)
  have hbase : base s d = s.timeline.shown := if_pos hevent
  rw [hstamps, hbase] at h
  obtain ⟨x, hx, hle⟩ := hcovers m hm (by rw [hbase]; exact hnone)
  exact lt_of_lt_of_le ((List.pairwise_append.mp h).2.2 (stamp m') (List.mem_map_of_mem hm') x hx) hle

/-- The last of sorted rows is the newest. -/
theorem newest_of_last {shown : Table String Message} (h : Sorted shown) {last : Message}
    (hlast : (rowsOf shown).getLast? = some last) : ∀ m ∈ rowsOf shown, stamp m ≤ stamp last := by
  intro m hm
  have horder := h.order
  obtain ⟨before, hrows⟩ := List.getLast?_eq_some_iff.mp hlast
  rw [hrows] at hm horder
  rcases List.mem_append.mp hm with hm | hm
  · exact ((List.pairwise_append.mp horder).2.2 m hm last (List.mem_singleton_self _)).le
  · rw [List.mem_singleton.mp hm]

/-- A step that leaves the rows sorted marks the newest as read. -/
theorem inOrder_of_sorted (h : Sorted (step s d).1.timeline.shown) : InOrder ⟨s, d, (step s d).2⟩ where
  sorted := h
  newest e he := by
    obtain ⟨hother, hroom⟩ := step_spec s d
    by_cases hr : d.room = s.timeline.room
    · obtain ⟨last, hlast, hid⟩ := (hroom hr).2 e he
      exact ⟨last, List.mem_of_getLast? hlast, hid, newest_of_last h hlast⟩
    · have he : (step s d).2 = some e := he
      rw [hother hr] at he
      cases he

end Step

/-! ### A run -/

/-- **The timeline stays ordered** exactly while the events follow what is shown. -/
theorem inOrder_iff (room : String) (deliveries : List Delivery) :
    (∀ o ∈ trace step (opened room) deliveries, InOrder o) ↔
      ∀ o ∈ trace step (opened room) deliveries, Follows o.before o.input := by
  have hempty : Indexed (opened room).timeline.shown := Table.all_empty _
  have hnone : Sorted (opened room).timeline.shown := ⟨List.Pairwise.nil, List.nodup_nil⟩
  constructor
  · intro h o ho
    obtain ⟨past, future, hsplit⟩ := List.append_of_mem ho
    obtain ⟨hindexed, -, -⟩ := at_step (I := fun _ s => Indexed s.timeline.shown) (C := fun _ _ => True)
      hempty (fun _ _ _ hs _ => indexed_step hs) (fun _ _ => trivial) hsplit
    exact follows_of_sorted hindexed (h o ho).sorted
  · intro h o ho
    obtain ⟨past, future, hsplit⟩ := List.append_of_mem ho
    obtain ⟨⟨hindexed, hsorted⟩, hfollows, hout⟩ := at_step
      (I := fun _ s => Indexed s.timeline.shown ∧ Sorted s.timeline.shown) (C := Follows)
      ⟨hempty, hnone⟩
      (fun _ _ _ hs hd => ⟨indexed_step hs.1, sorted_step hs.1 hs.2 hd⟩) h hsplit
    have horder := inOrder_of_sorted (sorted_step hindexed hsorted hfollows)
    rw [← hout] at horder
    exact horder

/-! ### A page of history -/

/-- A message of the room. -/
def sent (eventId : String) (ts : ℕ) : Message :=
  ⟨eventId, "!r", "@a:h", ts, none, "", false, true, false, none, none⟩

/-- The room is opened with one message in the store, and a page of history brings the one before it. -/
def paged : List Delivery :=
  [{ room := "!r", messages := [sent "$2" 20], oldestFirst := by decide, event := false },
    { room := "!r", messages := [sent "$1" 10, sent "$2" 20], oldestFirst := by decide, event := true }]

/-- **The older message is put last**, and marked as read. -/
theorem not_inOrder_paged :
    (trace step (opened "!r") paged).map Occ.output = [some "$2", some "$1"] ∧
    ((rowsOf (final step (opened "!r") paged).timeline.shown).map Message.ts = [20, 10]) ∧
    ¬ ∀ o ∈ trace step (opened "!r") paged, InOrder o := by
  refine ⟨by decide, by decide, fun h => ?_⟩
  have horder := (h _ (List.mem_cons_of_mem _ List.mem_cons_self)).sorted.order
  revert horder
  decide

end Kmatrix.Ui.Order
