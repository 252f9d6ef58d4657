import Kmatrix.Storage.Edits
import Kmatrix.Sync.Rerun
import Kmatrix.Ui.Timeline

/-! # What a batch tells the reader

After the token `process_sync` publishes, room by room, the messages it converted: the events of the
batch as they came, none with a name, and never an edit. The store goes its own way with the same
batch: it lays the newest edit over a body and joins the sender's name. A timeline that was filled
from the store and then follows the published messages shows what the store returns as long as the
store learns nothing of a shown event that the published message does not say (`Carried`);
`converged_run` is that, over whole runs, from the step lemma `Listed.turn`.

An edit of a shown message breaks it (`not_converged_edited`), a member event of its sender does, and
so does a message sent again by a sender who has a name. -/

namespace Kmatrix.Sync.Publish

open Kmatrix.Lib.Keyed Kmatrix.Lib.Newest Kmatrix.Storage.Seal Kmatrix.Storage.Schema
open Kmatrix.Storage.Write Kmatrix.Storage.Read Kmatrix.Storage.Plain Kmatrix.Storage.View
open Kmatrix.Storage.Event Kmatrix.Storage.Edits Kmatrix.Storage.Replay Kmatrix.Sync.Plaintext
open Kmatrix.Sync.Events Kmatrix.Sync.Convert Kmatrix.Sync.Process Kmatrix.Sync.Replay
open Kmatrix.Sync.Rerun Kmatrix.Ui.Timeline

/-! ### Publishing -/

section Published
variable {S : CipherSuite} (convert : String → RoomEvent → Converted)

/-- The `messages` event of a room: none where there is no message. -/
def messagesEvent (p : String × JoinedRoom) : Option Messages :=
  let msgs := messagesOf (convert p.1) p.2
  if msgs.isEmpty then none else some ⟨p.1, msgs.map onWire⟩

/-- **What a batch publishes of messages**, once it is stored. -/
def published (rng : ℕ → Salts) (st : Store S) (batch : SyncBatch) : List Messages :=
  match (processTrace convert rng st batch).2 with
  | .ok () => batch.join.filterMap (messagesEvent convert)
  | .error _ => []

/-- The rooms a batch gets to: those before the first that cannot be read. -/
def reached (st : Store S) (batch : SyncBatch) : List (String × JoinedRoom) :=
  batch.join.takeWhile fun p => CanRead st p.1

/-- What of a batch is published to the timeline of `room`: its room, and nothing unless every room of
the batch can be read. -/
def told (st : Store S) (batch : SyncBatch) (room : String) : List (String × JoinedRoom) :=
  if ∀ p ∈ batch.join, CanRead st p.1 then batch.join.filter fun p => p.1 = room else []

/-- The versions of an event that rooms bring. -/
def versions (rooms : List (String × JoinedRoom)) (e : String) : List Message :=
  rooms.flatMap fun p => (messagesOf (convert p.1) p.2).filter fun m => m.eventId = e

/-- The edits of an event that rooms bring, with their timestamps. -/
def editsTo (rooms : List (String × JoinedRoom)) (e : String) : List (ℕ × String) :=
  rooms.flatMap fun p => (editsIn (convert p.1) p.2).filterMap fun d =>
    if d.target = e then some ((d.ts : ℕ), d.body) else none

/-- The names that rooms bring for the members of `room`. -/
def namesIn (rooms : List (String × JoinedRoom)) (room : String) : List (String × String) :=
  rooms.flatMap fun p => if p.1 = room then named (memberNames p.2) else []

end Published

/-! ### What a batch does to an event, to a name, to the timeline -/

section Effect
variable {S : CipherSuite} {convert : String → RoomEvent → Converted} {rng : ℕ → Salts}
  {st : Store S} {batch : SyncBatch}

theorem reached_nodup (st : Store S) (batch : SyncBatch) :
    ((reached st batch).map Prod.fst).Nodup :=
  ((List.takeWhile_sublist _).map Prod.fst).nodup batch.nodup

theorem reached_eq (h : ∀ p ∈ batch.join, CanRead st p.1) : reached st batch = batch.join :=
  List.takeWhile_eq_self_iff.mpr fun p hp => decide_eq_true (h p hp)

theorem editsOf_edits (e : String) (es : List Edit) :
    editsOf e (es.map Edit.op) = es.filterMap fun d =>
      if d.target = e then some ((d.ts : ℕ), d.body) else none := by
  unfold editsOf
  rw [List.filterMap_map]
  rfl

theorem editsOf_blocks {stored : String → Option Room} (hs : ∀ id, Named id (stored id))
    (join : List (String × JoinedRoom)) (e : String) :
    editsOf e (blocks convert stored join) = editsTo convert join e := by
  unfold editsOf blocks editsTo
  rw [List.filterMap_flatMap]
  refine List.flatMap_congr fun p _ => ?_
  show editsOf e (roomOps (convert p.1) p.1 p.2 (stored p.1)) = _
  rw [roomOps_eq (convert p.1) p.2 (hs p.1)]
  simp only [editsOf_append, editsOf_roomBlock, editsOf_inserts, editsOf_names, List.nil_append,
    List.append_nil]
  exact editsOf_edits e _

/-- **An event after a batch**: the newest edit of those stored and brought, and the row. -/
theorem eventOf_processSync (e : String) :
    eventOf (plain (processSync convert rng st batch)) e =
      ⟨offers (eventOf (plain st) e).edit
          ((editsTo convert (reached st batch) e).map (stored (kept st))),
        rowAfter (kept st) (eventOf (plain st) e) (versions convert (reached st batch) e)
          ((editsTo convert (reached st batch) e).map (stored (kept st)))⟩ := by
  obtain ⟨tail, htail, htrace⟩ := processTrace_fst convert rng st batch
  unfold processSync
  rw [plain_execOps, eventOf_runPlain, htrace, eventRun_append]
  have hquiet : ∀ s, eventRun (kept st) e s tail = s := by
    intro s
    rw [eventRun_filter, filter_tail htail _ rfl]
    rfl
  rw [hquiet, eventRun_eq _ _ _ fun op hop => batched_blocks convert op hop,
    editsOf_blocks (named_storedRoom st), insertsOf_blocks convert (named_storedRoom st)]
  rfl

/-- **The row after a batch**: its room and its sender from before or from the first version, its
text and its flag from the last version and the edits. -/
theorem rowAfter_some {keep : String → Option String} {before : EventState} {ins : List Message}
    {os : List (ℤ × Option String)} {row : MessageRow (Option String)}
    (h : rowAfter keep before ins os = some row) :
    ∃ base, before.row.or (ins.head?.map (insertRow keep ⟨none, none⟩)) = some base ∧
      row.room = base.room ∧ row.sender = base.sender ∧
      match ins.getLast? with
      | some last => row.body = coalesce (offers before.edit os) (keep last.body) ∧
          row.decrypted = boolI64 last.decrypted
      | none => row.decrypted = base.decrypted ∧
          row.body = if taken before.edit os then coalesce (offers before.edit os) base.body
            else base.body := by
  unfold rowAfter at h
  cases hlast : ins.getLast? with
  | some last =>
    rw [hlast] at h
    obtain ⟨base, hbase, rfl⟩ := Option.map_eq_some_iff.mp h
    exact ⟨base, hbase, rfl, rfl, rfl, rfl⟩
  | none =>
    rw [hlast] at h
    dsimp only at h ⊢
    rw [List.getLast?_eq_none_iff.mp hlast]
    dsimp only [List.head?_nil, Option.map_none]
    rw [Option.or_none]
    split_ifs at h ⊢ with ht
    · obtain ⟨base, hbase, rfl⟩ := Option.map_eq_some_iff.mp h
      exact ⟨base, hbase, rfl, rfl, rfl, rfl⟩
    · exact ⟨row, h, rfl, rfl, rfl, rfl⟩

theorem rowAfter_isSome (keep : String → Option String) {before : EventState} {ins : List Message}
    {os : List (ℤ × Option String)} (h : before.row ≠ none ∨ ins ≠ []) :
    ∃ row, rowAfter keep before ins os = some row := by
  unfold rowAfter
  cases hlast : ins.getLast? with
  | some last =>
    have hne : ins ≠ [] := List.ne_nil_of_mem (List.mem_of_getLast? hlast)
    rw [List.head?_eq_some_head hne]
    cases before.row with
    | none => exact ⟨_, rfl⟩
    | some row => exact ⟨_, rfl⟩
  | none =>
    have hnil := List.getLast?_eq_none_iff.mp hlast
    obtain ⟨row, hrow⟩ := Option.ne_none_iff_exists'.mp (h.resolve_right (not_not.mpr hnil))
    rw [hrow]
    dsimp only
    split_ifs
    · exact ⟨_, rfl⟩
    · exact ⟨_, rfl⟩

theorem nameAfter_eq_none (k : String × String) (room : String) (names : List (String × Option String))
    (s : Option (Option String)) (h : nameAfter k s room names = none) : s = none := by
  rw [nameAfter_eq] at h
  exact (Option.or_eq_none_iff.mp h).2

/-- **A name after a batch**: the last one the batch brings, else the stored one. -/
theorem member_processSync (k : String × String) :
    (plain (processSync convert rng st batch)).members.lookup k =
      nameAfter k ((plain st).members.lookup k) k.1
        ((namesIn (reached st batch) k.1).map fun p => (p.1, kept st p.2)) := by
  obtain ⟨tail, htail, htrace⟩ := processTrace_fst convert rng st batch
  have htrace : (processTrace convert rng st batch).1 =
      blocks convert (storedRoom st) (reached st batch) ++ tail := htrace
  unfold processSync
  rw [plain_execOps, member_runPlain, htrace, memberRun_filter, List.filter_append,
    filter_tail htail _ rfl, List.append_nil]
  unfold namesIn
  by_cases h : ∃ p ∈ reached st batch, p.1 = k.1
  · obtain ⟨p, hp, hroom⟩ := h
    have hnames := members_blocks convert (named_storedRoom st) (reached_nodup st batch) hp
    have hbrought := flatMap_key (fun q : String × JoinedRoom => named (memberNames q.2))
      (reached_nodup st batch) hp
    rw [hroom] at hnames hbrought
    rw [hnames, hbrought]
    unfold nameOps
    by_cases hempty : (memberNames p.2).isEmpty = true
    · rw [if_pos hempty, List.isEmpty_iff.mp hempty]
      rfl
    · rw [if_neg hempty]
      rfl
  · have hne : ∀ p ∈ reached st batch, p.1 ≠ k.1 := fun p hp hroom => h ⟨p, hp, hroom⟩
    rw [members_blocks_none convert (named_storedRoom st) hne,
      flatMap_no_key (fun q : String × JoinedRoom => named (memberNames q.2)) hne]
    rfl

theorem flatMap_filter {α β : Type} (p : α → Bool) (f : α → List β) : ∀ l : List α,
    (l.filter p).flatMap f = l.flatMap fun a => if p a then f a else []
  | [] => rfl
  | a :: l => by
    rw [List.filter_cons, List.flatMap_cons, ← flatMap_filter p f l]
    split_ifs <;> rfl

/-- What a timeline of `room` takes of a room's event. -/
theorem flatMap_messagesEvent (room : String) (p : String × JoinedRoom) :
    ((messagesEvent convert p).toList.flatMap fun event =>
        if event.room = room then event.messages else []) =
      if p.1 = room then (messagesOf (convert p.1) p.2).map onWire else [] := by
  unfold messagesEvent
  dsimp only
  by_cases hempty : (messagesOf (convert p.1) p.2).isEmpty = true
  · rw [if_pos hempty, List.isEmpty_iff.mp hempty]
    split_ifs <;> rfl
  · rw [if_neg hempty]
    exact List.flatMap_singleton _ _

/-- **The timeline after a batch**: the messages its room is told, appended. -/
theorem shown_published (timeline : TimelineState) :
    ((published convert rng st batch).foldl TimelineState.onDaemonEvent timeline).shown =
      appendMessages timeline.shown ((told st batch timeline.room).flatMap fun p =>
        (messagesOf (convert p.1) p.2).map onWire) := by
  rw [shown_foldl]
  congr 1
  unfold published told
  by_cases h : ∀ p ∈ batch.join, CanRead st p.1
  · have hok : (processTrace convert rng st batch).2 = .ok () := processTrace_ok_iff.mpr h
    rw [if_pos h, hok]
    rw [List.filterMap_eq_flatMap_toList, List.flatMap_assoc, flatMap_filter]
    simp only [decide_eq_true_eq]
    exact List.flatMap_congr fun p _ => flatMap_messagesEvent timeline.room p
  · rw [if_neg h]
    have hok : ¬ (processTrace convert rng st batch).2 = .ok () := processTrace_ok_iff.not.mpr h
    cases hres : (processTrace convert rng st batch).2 with
    | error e => rfl
    | ok u => exact absurd hres hok

end Effect

/-! ### The daemon and the reader -/

/-- One turn of the sync loop: the batch, the outcome of each decryption, the salts its writes
draw. -/
structure Turn where
  batch : SyncBatch
  decrypt : String → RoomEvent → String → String → Option String
  rng : ℕ → Salts

/-- The store of the daemon and an open timeline. -/
structure Screen (S : CipherSuite) where
  store : Store S
  timeline : TimelineState

section Screen
variable {S : CipherSuite} (serde : SerdeJson) (userId : String)

/-- How a sync converts the events of a room. -/
def Turn.convert (x : Turn) : String → RoomEvent → Converted :=
  converts serde x.decrypt userId

/-- A timeline of `room` that is filled with the answer to a `messages` request. -/
def Screen.opened (st : Store S) (room : String) (answer : List Message) : Screen S :=
  ⟨st, TimelineState.onResponse ⟨room, Table.empty⟩ ⟨room, answer.map onWire⟩⟩

/-- **A sync**: the daemon stores and publishes, the reader follows. -/
def Screen.turn (s : Screen S) (x : Turn) : Screen S :=
  ⟨processSync (x.convert serde userId) x.rng s.store x.batch,
    (published (x.convert serde userId) x.rng s.store x.batch).foldl TimelineState.onDaemonEvent
      s.timeline⟩

/-- A run of syncs. -/
def Screen.run (s : Screen S) (xs : List Turn) : Screen S := xs.foldl (Screen.turn serde userId) s

/-- **The reader shows what the store returns**: of every stored message it lists the body, the flag
and the name of the sender. -/
def Converged (s : Screen S) : Prop :=
  ∀ limit answer, recentMessages s.store s.timeline.room limit = .ok answer →
    ∀ m ∈ answer, ∀ shown, s.timeline.shown.lookup m.eventId = some shown → said shown = said m

section Step
variable (s : Screen S) (x : Turn) (e : String)

/-- The message the timeline has for an event after a sync: the last version its room is told, else
the one it has. -/
def latest : Option Message :=
  (versions (x.convert serde userId) (told s.store x.batch s.timeline.room) e).getLast?.or
    (s.timeline.shown.lookup e)

/-- The room and the sender of an event: the stored ones, else those of the first version. -/
def home : Option (String × String) :=
  match (plain s.store).messages.lookup e with
  | some row => some (row.room, row.sender)
  | none => (versions (x.convert serde userId) (reached s.store x.batch) e).head?.map fun m =>
      (m.room, m.sender)

/-- The edits of an event a sync brings, as they are stored. -/
def editsOffered : List (ℤ × Option String) :=
  (editsTo (x.convert serde userId) (reached s.store x.batch) e).map (stored (kept s.store))

/-- The newest edit known of an event: of those stored and those a sync brings. -/
def editKnown : EditReg := offers (eventOf (plain s.store) e).edit (editsOffered serde userId s x e)

/-- The name known of a member: the one a sync brings, else the stored one. -/
def nameKnown (room sender : String) : Option (Option String) :=
  nameAfter (room, sender) ((plain s.store).members.lookup (room, sender)) room
    ((namesIn (reached s.store x.batch) room).map fun p => (p.1, kept s.store p.2))

/-- **What the store learns of an event, the message `m` says.** Its last version, where no edit is
laid over it; the edit that is laid over it; the name of the sender. -/
structure Carried (m : Message) (sender : String) : Prop where
  version : ∀ last,
    (versions (x.convert serde userId) (reached s.store x.batch) e).getLast? = some last →
      last.decrypted = m.decrypted ∧ (editKnown serde userId s x e = none → last.body = m.body)
  edit : versions (x.convert serde userId) (reached s.store x.batch) e ≠ [] ∨
      taken (eventOf (plain s.store) e).edit (editsOffered serde userId s x e) = true →
    ∀ ts text, editKnown serde userId s x e = some (ts, some text) → text = m.body
  name : ∀ n, nameKnown s x s.timeline.room sender = some (some n) → m.senderName = some n

/-- **The sync suits the reader**: of every event of its room that it shows afterwards. -/
def Fits : Prop :=
  ∀ e m sender, latest serde userId s x e = some m →
    home serde userId s x e = some (s.timeline.room, sender) → Carried serde userId s x e m sender

end Step

/-- Every sync of a run suits the reader, as it is then. -/
def FitsAlong : Screen S → List Turn → Prop
  | _, [] => True
  | s, x :: xs => Fits serde userId s x ∧ FitsAlong (s.turn serde userId x) xs

end Screen

/-! ### What is listed agrees with the store -/

/-- **A listed message agrees with its row**, as far as the row can be read. -/
structure Agrees (db : PlainTables) (row : MessageRow (Option String)) (shown : Message) : Prop where
  body : ∀ text, row.body = some text → shown.body = text
  decrypted : shown.decrypted = decide (row.decrypted ≠ 0)
  name : ∀ n, plainOpt (db.members.lookup (row.room, row.sender)) = some n → shown.senderName = n

section Agree
variable {db : PlainTables} {row : MessageRow (Option String)} {e : String} {m m' : Message}

theorem Agrees.congr (h : Agrees db row m) (hsaid : said m' = said m) : Agrees db row m' := by
  unfold said at hsaid
  simp only [Prod.mk.injEq] at hsaid
  obtain ⟨hbody, hdecrypted, hname⟩ := hsaid
  exact ⟨fun text ht => hbody.trans (h.body text ht), hdecrypted.trans h.decrypted,
    fun n hn => hname.trans (h.name n hn)⟩

/-- What is read of a row agrees with it. -/
theorem agrees_of_plainMessage (h : plainMessage db (e, row) = some m) :
    row.body = some m.body ∧
      plainOpt (db.members.lookup (row.room, row.sender)) = some m.senderName ∧
      Agrees db row m := by
  unfold plainMessage at h
  dsimp only at h
  split at h
  · next body senderName ciphertext hb hn _ =>
    cases h
    refine ⟨hb, hn, fun text ht => ?_, rfl, fun n hn' => ?_⟩
    · exact Option.some.inj (hb.symm.trans ht)
    · exact Option.some.inj (hn.symm.trans hn')
  · cases h

theorem Agrees.said_eq (h : Agrees db row m') (hm : plainMessage db (e, row) = some m) :
    said m' = said m := by
  obtain ⟨hbody, hname, hself⟩ := agrees_of_plainMessage hm
  unfold said
  rw [h.body _ hbody, h.decrypted.trans hself.decrypted.symm, h.name _ hname]

end Agree

section Listed
variable {S : CipherSuite}

/-- What `recent_messages` returns is read off rows of the room. -/
theorem mem_recentMessages {st : Store S} {room : String} {limit : ℕ} {answer : List Message}
    (h : recentMessages st room limit = .ok answer) {m : Message} (hm : m ∈ answer) :
    ∃ row, (plain st).messages.lookup m.eventId = some row ∧ row.room = room ∧
      plainMessage (plain st) (m.eventId, row) = some m := by
  have hto := recentMessages_toOption st room limit
  rw [h] at hto
  obtain ⟨read, hread, hrev⟩ := Option.map_eq_some_iff.mp hto.symm
  have hm' : m ∈ read := by
    rw [← hrev] at hm
    exact List.mem_reverse.mp hm
  obtain ⟨⟨e, row⟩, hrow, hmessage⟩ := (mem_mapM_option hread m).mp hm'
  obtain ⟨hlookup, hroom⟩ := of_mem_newest hrow
  obtain rfl := (plainMessage_eq hmessage).1
  exact ⟨row, hlookup, of_decide_eq_true hroom, hmessage⟩

/-- **What is listed is stored**, and agrees with the store where it is stored for the room. -/
def Listed (s : Screen S) : Prop :=
  ∀ e shown, s.timeline.shown.lookup e = some shown →
    ∃ row, (plain s.store).messages.lookup e = some row ∧
      (row.room = s.timeline.room → Agrees (plain s.store) row shown)

theorem Listed.converged {s : Screen S} (h : Listed s) : Converged s := by
  intro limit answer hanswer m hm shown hshown
  obtain ⟨row, hrow, hroom, hread⟩ := mem_recentMessages hanswer hm
  obtain ⟨row', hrow', hagrees⟩ := h _ _ hshown
  obtain rfl := Option.some.inj (hrow.symm.trans hrow')
  exact (hagrees hroom).said_eq hread

/-- A row of the room that can be read is returned, with a limit that covers the table. -/
theorem recentMessages_mem {st : Store S} {room e : String} {limit : ℕ} {answer : List Message}
    (h : recentMessages st room limit = .ok answer) (hl : st.db.messages.rows.length ≤ limit)
    {row : MessageRow (Option String)} (hrow : (plain st).messages.lookup e = some row)
    (hroom : row.room = room) {m : Message} (hm : plainMessage (plain st) (e, row) = some m) :
    m ∈ answer := by
  have hto := recentMessages_toOption st room limit
  rw [h] at hto
  obtain ⟨read, hread, hrev⟩ := Option.map_eq_some_iff.mp hto.symm
  rw [← hrev, List.mem_reverse, mem_mapM_option hread]
  refine ⟨(e, row), mem_newest ?_ hrow (decide_eq_true hroom), hm⟩
  rw [length_entries_plain]
  exact hl

theorem timeline_opened (st : Store S) (room : String) (answer : List Message) :
    (Screen.opened st room answer).timeline =
      ⟨room, appendMessages Table.empty (answer.map onWire)⟩ := if_neg (by simp)

theorem room_opened (st : Store S) (room : String) (answer : List Message) :
    (Screen.opened st room answer).timeline.room = room := by
  rw [timeline_opened]

/-- A timeline that was just filled. -/
theorem listed_opened {st : Store S} {room : String} {limit : ℕ} {answer : List Message}
    (h : recentMessages st room limit = .ok answer) : Listed (Screen.opened st room answer) := by
  intro e shown hshown
  rw [timeline_opened] at hshown ⊢
  have hlast := lookup_appendMessages e (answer.map onWire) Table.empty
  rw [hshown, Table.lookup_empty, Option.or_none] at hlast
  obtain ⟨m', hm', hsaid⟩ := Option.map_eq_some_iff.mp hlast.symm
  have hmem := List.mem_filter.mp (List.mem_of_getLast? hm')
  obtain ⟨m, hm, rfl⟩ := List.mem_map.mp hmem.1
  have he : m.eventId = e := of_decide_eq_true hmem.2
  obtain ⟨row, hrow, -, hread⟩ := mem_recentMessages h hm
  rw [he] at hrow hread
  exact ⟨row, hrow, fun _ => (agrees_of_plainMessage hread).2.2.congr hsaid.symm⟩

end Listed

/-! ### One turn -/

theorem convertContent_senderName {ts : U64} {content : EventContent} {mk : String → Message}
    (hmk : ∀ body, (mk body).senderName = none) {m : Message}
    (h : (convertContent ts content mk).message = some m) : m.senderName = none := by
  obtain ⟨body, rfl⟩ := convertContent_message h
  exact hmk body

/-- **A converted message carries no name.** -/
theorem convertEvent_senderName {serde : SerdeJson} {decrypt : String → String → Option String}
    {userId roomId : String} {ev : RoomEvent} {m : Message}
    (h : (convertEvent serde decrypt userId roomId ev).message = some m) : m.senderName = none := by
  unfold convertEvent at h
  dsimp only at h
  split at h
  · exact convertContent_senderName (fun _ => rfl) h
  · split at h
    · split at h
      · split at h
        · cases h
          rfl
        · split at h
          · cases h
            rfl
          · exact convertContent_senderName (fun _ => rfl) h
      · cases h
    · cases h

theorem convertContent_unpublished {ts : U64} {content : EventContent} {mk : String → Message}
    {d : Edit} (h : (convertContent ts content mk).edit = some d) :
    (convertContent ts content mk).message = none := by
  unfold convertContent at h ⊢
  split at h
  · rfl
  · dsimp only at h
    split_ifs at h

/-- **An edit is published with nothing**: the event that carries it converts to no message. -/
theorem convertEvent_unpublished {serde : SerdeJson} {decrypt : String → String → Option String}
    {userId roomId : String} {ev : RoomEvent} {d : Edit}
    (h : (convertEvent serde decrypt userId roomId ev).edit = some d) :
    (convertEvent serde decrypt userId roomId ev).message = none := by
  unfold convertEvent at h ⊢
  dsimp only at h ⊢
  by_cases hk : ev.kind = "m.room.message"
  · rw [if_pos hk] at h ⊢
    exact convertContent_unpublished h
  · rw [if_neg hk] at h ⊢
    by_cases hk' : ev.kind = "m.room.encrypted"
    · rw [if_pos hk'] at h ⊢
      rcases hct : ev.content.ciphertext with _ | ct
      · rfl
      · rcases hsid : ev.content.sessionId with _ | sid
        · rfl
        · rw [hct, hsid] at h
          dsimp only at h ⊢
          rcases hplain : decrypt sid ct with _ | json
          · rw [hplain] at h
            cases h
          · rw [hplain] at h
            dsimp only at h ⊢
            rcases hcontent : serde.decryptedEvent json with e | content
            · rw [hcontent] at h
              cases h
            · rw [hcontent] at h
              exact convertContent_unpublished h
    · rw [if_neg hk']

section Turn
variable {S : CipherSuite} {serde : SerdeJson} {userId : String} {s : Screen S} {x : Turn}
  {e : String} {m : Message}

theorem versions_senderName {rooms : List (String × JoinedRoom)}
    (h : m ∈ versions (x.convert serde userId) rooms e) : m.senderName = none := by
  obtain ⟨p, -, hm⟩ := List.mem_flatMap.mp h
  obtain ⟨ev, -, hev⟩ := List.mem_filterMap.mp (List.mem_filter.mp hm).1
  exact convertEvent_senderName hev

/-- What a timeline is told was reached. -/
theorem versions_told_subset {convert : String → RoomEvent → Converted} {st : Store S}
    {batch : SyncBatch} {room : String} :
    versions convert (told st batch room) e ⊆ versions convert (reached st batch) e := by
  intro m hm
  obtain ⟨p, hp, hm⟩ := List.mem_flatMap.mp hm
  refine List.mem_flatMap.mpr ⟨p, ?_, hm⟩
  unfold told at hp
  split_ifs at hp with h
  · rw [reached_eq h]
    exact (List.mem_filter.mp hp).1
  · cases hp

theorem room_turn : (s.turn serde userId x).timeline.room = s.timeline.room := room_foldl _ _

/-- **What an event shows after a turn.** -/
theorem said_latest (serde : SerdeJson) (userId : String) (s : Screen S) (x : Turn) (e : String) :
    ((s.turn serde userId x).timeline.shown.lookup e).map said =
      (latest serde userId s x e).map said := by
  unfold Screen.turn latest
  dsimp only
  rw [shown_published, lookup_appendMessages]
  have hlast : lastOf e ((told s.store x.batch s.timeline.room).flatMap fun p =>
        (messagesOf (x.convert serde userId p.1) p.2).map onWire) =
      (versions (x.convert serde userId) (told s.store x.batch s.timeline.room) e).getLast?.map
        onWire := by
    unfold lastOf versions
    rw [← List.getLast?_map, List.map_flatMap, List.filter_flatMap]
    congr 1
    refine List.flatMap_congr fun p _ => ?_
    rw [List.filter_map]
    rfl
  rw [hlast]
  cases (versions (x.convert serde userId) (told s.store x.batch s.timeline.room) e).getLast? with
  | none => rfl
  | some last => exact congrArg some (said_onWire last)

/-- The row of an event after a turn. -/
theorem row_turn :
    (plain (s.turn serde userId x).store).messages.lookup e =
      rowAfter (kept s.store) (eventOf (plain s.store) e)
        (versions (x.convert serde userId) (reached s.store x.batch) e)
        (editsOffered serde userId s x e) :=
  congrArg EventState.row (eventOf_processSync e)

theorem name_turn (room sender : String) :
    (plain (s.turn serde userId x).store).members.lookup (room, sender) =
      nameKnown s x room sender := member_processSync (room, sender)

/-- **An event that is stored after a turn has a home**, the one its row keeps. -/
theorem home_of_row {row : MessageRow (Option String)}
    (h : (plain (s.turn serde userId x).store).messages.lookup e = some row) :
    home serde userId s x e = some (row.room, row.sender) := by
  rw [row_turn] at h
  obtain ⟨base, hbase, hroom, hsender, -⟩ := rowAfter_some h
  unfold home
  rw [show (plain s.store).messages.lookup e = (eventOf (plain s.store) e).row from rfl, hroom,
    hsender]
  cases hrow : (eventOf (plain s.store) e).row with
  | some row' =>
    rw [hrow] at hbase
    obtain rfl := Option.some.inj hbase
    rfl
  | none =>
    rw [hrow, Option.none_or] at hbase
    obtain ⟨first, hfirst, rfl⟩ := Option.map_eq_some_iff.mp hbase
    dsimp only
    rw [hfirst]
    rfl

/-- What is shown of an event after a turn was brought to the room, without a name, or is what was
listed. -/
theorem latest_cases (h : latest serde userId s x e = some m) :
    (versions (x.convert serde userId) (reached s.store x.batch) e ≠ [] ∧ m.senderName = none) ∨
      s.timeline.shown.lookup e = some m := by
  unfold latest at h
  cases hlast : (versions (x.convert serde userId) (told s.store x.batch s.timeline.room)
      e).getLast? with
  | none =>
    rw [hlast] at h
    exact Or.inr h
  | some last =>
    rw [hlast] at h
    obtain rfl := Option.some.inj h
    have hmem := List.mem_of_getLast? hlast
    exact Or.inl ⟨List.ne_nil_of_mem (versions_told_subset hmem), versions_senderName hmem⟩

/-- A message says the text and the flag of the row. -/
theorem Carried.text {sender : String} (hc : Carried serde userId s x e m sender)
    {row : MessageRow (Option String)}
    (hrow : (plain (s.turn serde userId x).store).messages.lookup e = some row)
    (hold : versions (x.convert serde userId) (reached s.store x.batch) e = [] →
      ∀ before, (plain s.store).messages.lookup e = some before →
        (∀ text, before.body = some text → m.body = text) ∧
          m.decrypted = decide (before.decrypted ≠ 0)) :
    (∀ text, row.body = some text → m.body = text) ∧ m.decrypted = decide (row.decrypted ≠ 0) := by
  rw [row_turn] at hrow
  obtain ⟨base, hbase, -, -, hcols⟩ := rowAfter_some hrow
  cases hlast : (versions (x.convert serde userId) (reached s.store x.batch) e).getLast? with
  | some last =>
    rw [hlast] at hcols
    obtain ⟨hbody, hdecrypted⟩ := hcols
    have hne : versions (x.convert serde userId) (reached s.store x.batch) e ≠ [] :=
      List.ne_nil_of_mem (List.mem_of_getLast? hlast)
    obtain ⟨hflag, hversion⟩ := hc.version last hlast
    refine ⟨fun text ht => ?_, ?_⟩
    · rw [hbody] at ht
      cases hedit : offers (eventOf (plain s.store) e).edit (editsOffered serde userId s x e) with
      | none =>
        rw [hedit] at ht
        rw [← hversion hedit, kept_eq ht]
      | some known =>
        rw [hedit] at ht
        obtain ⟨ts, cell⟩ := known
        obtain rfl : cell = some text := ht
        exact (hc.edit (Or.inl hne) ts text hedit).symm
    · rw [hdecrypted, ← hflag]
      cases last.decrypted <;> rfl
  | none =>
    have hnil := List.getLast?_eq_none_iff.mp hlast
    rw [hlast] at hcols
    rw [hnil, List.head?_nil, Option.map_none, Option.or_none] at hbase
    obtain ⟨hdecrypted, hbody⟩ := hcols
    obtain ⟨htext, hflag⟩ := hold hnil base hbase
    refine ⟨fun text ht => ?_, by rw [hdecrypted, hflag]⟩
    rw [hbody] at ht
    by_cases htaken : taken (eventOf (plain s.store) e).edit (editsOffered serde userId s x e) = true
    · rw [if_pos htaken] at ht
      cases hedit : offers (eventOf (plain s.store) e).edit (editsOffered serde userId s x e) with
      | none =>
        rw [hedit] at ht
        exact htext text ht
      | some known =>
        rw [hedit] at ht
        obtain ⟨ts, cell⟩ := known
        obtain rfl : cell = some text := ht
        exact (hc.edit (Or.inr htaken) ts text hedit).symm
    · rw [if_neg htaken] at ht
      exact htext text ht

/-- **One turn.** A sync that suits the reader keeps the timeline in agreement with the store. -/
theorem Listed.turn (h : Listed s) (hfits : Fits serde userId s x) :
    Listed (s.turn serde userId x) := by
  intro e shown hshown
  have hlatest := said_latest serde userId s x e
  rw [hshown] at hlatest
  obtain ⟨m, hm, hsaid⟩ := Option.map_eq_some_iff.mp hlatest.symm
  have hcases := latest_cases hm
  -- it is stored: it was brought, or it was listed and so stored before
  have hstored : (eventOf (plain s.store) e).row ≠ none ∨
      versions (x.convert serde userId) (reached s.store x.batch) e ≠ [] := by
    rcases hcases with ⟨hne, -⟩ | hlisted
    · exact Or.inr hne
    · obtain ⟨before, hbefore, -⟩ := h e m hlisted
      exact Or.inl (by rw [show (eventOf (plain s.store) e).row = _ from hbefore]; simp)
  obtain ⟨row, hafter⟩ := rowAfter_isSome (kept s.store) hstored
  have hrow := row_turn.trans hafter
  refine ⟨row, hrow, fun hroom => ?_⟩
  rw [room_turn] at hroom
  have hhome := home_of_row hrow
  have hc := hfits e m row.sender hm (by rw [hhome, hroom])
  -- what was stored of a listed event keeps its room and its sender
  have hbefore : ∀ before, (plain s.store).messages.lookup e = some before →
      before.room = row.room ∧ before.sender = row.sender := by
    intro before hb
    unfold home at hhome
    rw [hb] at hhome
    exact Prod.mk.inj (Option.some.inj hhome)
  have hagrees : ∀ before, (plain s.store).messages.lookup e = some before →
      s.timeline.shown.lookup e = some m → Agrees (plain s.store) before m := by
    intro before hb hlisted
    obtain ⟨before', hb', hagrees⟩ := h e m hlisted
    obtain rfl := Option.some.inj (hb.symm.trans hb')
    exact hagrees ((hbefore before hb).1.trans hroom)
  obtain ⟨htext, hflag⟩ := hc.text hrow fun hnil before hb => by
    have hlisted := hcases.resolve_left fun hne => hne.1 hnil
    exact ⟨(hagrees before hb hlisted).body, (hagrees before hb hlisted).decrypted⟩
  refine Agrees.congr ⟨htext, hflag, fun n hn => ?_⟩ hsaid.symm
  rw [name_turn, hroom] at hn
  cases hknown : nameKnown s x s.timeline.room row.sender with
  | some cell =>
    rw [hknown] at hn
    obtain ⟨name, hname, rfl⟩ := Option.map_eq_some_iff.mp hn
    obtain rfl : cell = some name := hname
    exact hc.name name hknown
  | none =>
    -- no name is known, so none was
    rw [hknown] at hn
    obtain rfl := Option.some.inj hn
    rcases hcases with ⟨-, hnone⟩ | hlisted
    · exact hnone
    · obtain ⟨before, hb, -⟩ := h e m hlisted
      refine (hagrees before hb hlisted).name none ?_
      rw [(hbefore before hb).1, (hbefore before hb).2, hroom, nameAfter_eq_none _ _ _ _ hknown]
      rfl

/-- **Nothing less will do**: where the room can be read after a turn that leaves the two in
agreement, the sync suited the reader. -/
theorem fits_of_converged
    (hread : RoomReadable (plain (s.turn serde userId x).store) s.timeline.room)
    (h : Converged (s.turn serde userId x)) : Fits serde userId s x := by
  intro e m sender hm hhome
  have hstored : (eventOf (plain s.store) e).row ≠ none ∨
      versions (x.convert serde userId) (reached s.store x.batch) e ≠ [] := by
    by_contra hno
    push Not at hno
    unfold home at hhome
    rw [show (plain s.store).messages.lookup e = none from hno.1, hno.2] at hhome
    cases hhome
  obtain ⟨row, hafter⟩ := rowAfter_isSome (kept s.store) hstored
  have hrow := row_turn.trans hafter
  obtain ⟨hroom, hsender⟩ := Prod.mk.inj (Option.some.inj ((home_of_row hrow).symm.trans hhome))
  -- what is read of the row is what is shown
  obtain ⟨m', hm'⟩ := Option.isSome_iff_exists.mp (hread e row hrow hroom)
  have hsaid : said m = said m' := by
    obtain ⟨answer, hanswer⟩ := (recentMessages_ok_iff _ s.timeline.room (le_refl _)).mpr hread
    have hlatest := said_latest serde userId s x e
    rw [hm] at hlatest
    obtain ⟨shown, hshown, hsaid⟩ := Option.map_eq_some_iff.mp hlatest
    rw [← hsaid]
    refine h _ answer (by rw [room_turn]; exact hanswer) m'
      (recentMessages_mem hanswer (le_refl _) hrow hroom hm') shown ?_
    rw [(plainMessage_eq hm').1]
    exact hshown
  obtain ⟨hbody', hname', hagrees⟩ := agrees_of_plainMessage hm'
  unfold said at hsaid
  simp only [Prod.mk.injEq] at hsaid
  obtain ⟨hbody, hdecrypted, hname⟩ := hsaid
  obtain ⟨base, -, -, -, hcols⟩ := rowAfter_some hafter
  refine ⟨fun last hlast => ?_, fun hoffered ts text hedit => ?_, fun n hn => ?_⟩
  · rw [hlast] at hcols
    obtain ⟨hcell, hflag⟩ := hcols
    refine ⟨?_, fun hnone => ?_⟩
    · rw [hdecrypted, hagrees.decrypted, hflag]
      cases last.decrypted <;> rfl
    · have hcell : row.body = kept s.store last.body := by
        rw [hcell, show offers _ _ = none from hnone]
        rfl
      rw [hbody, kept_eq (hcell.symm.trans hbody')]
  · have hcell : row.body = some text := by
      cases hlast : (versions (x.convert serde userId) (reached s.store x.batch) e).getLast? with
      | some last =>
        rw [hlast] at hcols
        rw [hcols.1, show offers _ _ = some (ts, some text) from hedit]
        rfl
      | none =>
        rw [hlast] at hcols
        have htaken := hoffered.resolve_left (not_not.mpr (List.getLast?_eq_none_iff.mp hlast))
        rw [hcols.2, if_pos htaken, show offers _ _ = some (ts, some text) from hedit]
        rfl
    rw [hbody]
    exact Option.some.inj (hcell.symm.trans hbody')
  · rw [hroom, hsender, name_turn, hn] at hname'
    rw [hname]
    exact (Option.some.inj hname').symm

end Turn

/-! ### Runs -/

section Run
variable {S : CipherSuite} {serde : SerdeJson} {userId : String}

theorem converged_of_fits : ∀ (xs : List Turn) (s : Screen S), Listed s →
    FitsAlong serde userId s xs → ∀ k, Converged (s.run serde userId (xs.take k))
  | [], s, h, _, k => by
    rw [List.take_nil]
    exact h.converged
  | x :: xs, s, h, hfits, k => by
    cases k with
    | zero => exact h.converged
    | succ k => exact converged_of_fits xs _ (h.turn hfits.1) hfits.2 k

theorem fits_of_allConverged : ∀ (xs : List Turn) (s : Screen S),
    (∀ k, RoomReadable (plain (s.run serde userId (xs.take k)).store) s.timeline.room) →
    (∀ k, Converged (s.run serde userId (xs.take k))) → FitsAlong serde userId s xs
  | [], _, _, _ => trivial
  | x :: xs, s, hread, h => by
    refine ⟨fits_of_converged (hread 1) (h 1), ?_⟩
    refine fits_of_allConverged xs _ (fun k => ?_) fun k => h (k + 1)
    rw [room_turn]
    exact hread (k + 1)

/-- **The reader keeps up with the store**: a timeline that was filled from an answer and follows the
published messages shows what the store returns, after every sync of a run whose syncs all suit it;
and where the room can be read throughout it does so in no other run. -/
theorem converged_run (serde : SerdeJson) (userId : String) {st : Store S} {room : String}
    {limit : ℕ} {answer : List Message} (hfill : recentMessages st room limit = .ok answer)
    (xs : List Turn) :
    (FitsAlong serde userId (Screen.opened st room answer) xs →
      ∀ k, Converged ((Screen.opened st room answer).run serde userId (xs.take k))) ∧
    ((∀ k, RoomReadable
        (plain ((Screen.opened st room answer).run serde userId (xs.take k)).store) room) →
      (∀ k, Converged ((Screen.opened st room answer).run serde userId (xs.take k))) →
      FitsAlong serde userId (Screen.opened st room answer) xs) := by
  have hroom : (Screen.opened st room answer).timeline.room = room := room_opened st room answer
  refine ⟨converged_of_fits xs _ (listed_opened hfill), fun hread h => ?_⟩
  refine fits_of_allConverged xs _ (fun k => ?_) h
  rw [hroom]
  exact hread k

end Run

/-! ### A new message, and an edit of it -/

def helloEvent : RoomEvent where
  kind := "m.room.message"
  sender := "@b"
  eventId := "$e"
  originServerTs := 1
  content := { body := some "hello" }

def editEvent : RoomEvent where
  kind := "m.room.message"
  sender := "@b"
  eventId := "$f"
  originServerTs := 2
  content :=
    { body := some "* bye", newContent := some { body := some "bye" },
      relatesTo := some ⟨some "m.replace", some "$e"⟩ }

/-- A sync of one event of the room `!r`. -/
def turnOf (ev : RoomEvent) : Turn where
  batch := ⟨"s1", [("!r", { timeline := [ev] })], List.nodup_singleton "!r"⟩
  decrypt := fun _ _ _ _ => none
  rng := fun _ _ => zeroSalt

/-- A room nobody has written to. -/
def quietScreen : Screen copySuite := Screen.opened emptyStore "!r" []

theorem fits_hello : Fits noJson "@me" quietScreen (turnOf helloEvent) := by
  have hreached : reached quietScreen.store (turnOf helloEvent).batch =
      (turnOf helloEvent).batch.join := reached_eq (by decide)
  intro e m sender hm _
  refine ⟨fun last hlast => ?_, fun _ ts text hedit => ?_, fun n hn => ?_⟩
  · have hlatest : latest noJson "@me" quietScreen (turnOf helloEvent) e =
        (versions ((turnOf helloEvent).convert noJson "@me") (turnOf helloEvent).batch.join
          e).getLast? := by
      have htold : told quietScreen.store (turnOf helloEvent).batch "!r" =
          (turnOf helloEvent).batch.join := if_pos (by decide)
      unfold latest
      rw [show quietScreen.timeline.room = "!r" from rfl, htold]
      exact Option.or_none
    rw [hreached] at hlast
    rw [hlatest, hlast] at hm
    obtain rfl := Option.some.inj hm
    exact ⟨rfl, fun _ => rfl⟩
  · unfold editKnown editsOffered at hedit
    rw [hreached] at hedit
    cases hedit
  · unfold nameKnown at hn
    rw [hreached] at hn
    cases hn

theorem converged_run_hello : Converged (quietScreen.run noJson "@me" [turnOf helloEvent]) :=
  (@converged_run copySuite noJson "@me" emptyStore "!r" 50 [] rfl [turnOf helloEvent]).1
    ⟨fits_hello, trivial⟩ 1

/-- The message as it is read with the text `body`. -/
def reads (body : String) : Message :=
  ⟨"$e", "!r", "@b", 1, none, body, false, true, false, none, none⟩

/-- **An edit never reaches the reader**: the store has the new text, the timeline the old one. -/
theorem not_converged_edited :
    ¬ ∀ (st : Store copySuite) (room : String) (limit : ℕ) (answer : List Message) (xs : List Turn),
      recentMessages st room limit = .ok answer →
      ∀ k, Converged ((Screen.opened st room answer).run noJson "@me" (xs.take k)) := by
  intro h
  have hrun := h emptyStore "!r" 50 [] [turnOf helloEvent, turnOf editEvent] rfl 2
  have hstored : recentMessages (quietScreen.run noJson "@me"
      [turnOf helloEvent, turnOf editEvent]).store "!r" 50 = .ok [reads "bye"] := by
    decide +kernel
  have hshown : (quietScreen.run noJson "@me"
      [turnOf helloEvent, turnOf editEvent]).timeline.shown.lookup "$e" = some (reads "hello") := by
    decide +kernel
  have hsaid : said (reads "hello") = said (reads "bye") :=
    hrun 50 [reads "bye"] hstored (reads "bye") (List.mem_singleton_self _) (reads "hello") hshown
  exact absurd hsaid (by decide)

end Kmatrix.Sync.Publish
