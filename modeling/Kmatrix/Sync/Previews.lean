import Kmatrix.Sync.Authentic

/-! # What the room list shows

A room's row carries a copy of a message: its `ts`, and the preview of its body. Only `process_sync` writes
that copy, from the last message of a room's timeline, and the four operations that store messages all run
beside it. So the row follows the timeline: it shows the message the last sync that brought any brought
last (`shows_run`), whatever its `ts` is (`not_showsNewest_answered`). -/

namespace Kmatrix.Sync.Previews

open Kmatrix.Lib.Keyed Kmatrix.E2ee.Ratchets Kmatrix.Storage.Seal Kmatrix.Storage.Schema
open Kmatrix.Storage.Write Kmatrix.Storage.Read Kmatrix.Storage.Plain Kmatrix.Storage.View
open Kmatrix.Storage.Event Kmatrix.Storage.Replay Kmatrix.Sync.Plaintext Kmatrix.Sync.Events
open Kmatrix.Sync.Convert Kmatrix.Sync.Process Kmatrix.Sync.Replay Kmatrix.Sync.Rerun Kmatrix.Sync.Restore
open Kmatrix.Sync.History
open Kmatrix.Sync.Authentic (hello answer oneBatch)

/-! ### The operations -/

/-- An operation that stores messages: one of the three steps, or `restore_room` by itself. -/
inductive Op where
  | step (s : Step)
  | restore (backup : Backup) (room : String)

section Ops
variable (serde : SerdeJson) (userId : String) {S : CipherSuite}

def runOp (rng : ℕ → Salts) (st : Store S) : Op → Store S
  | .step s => runStep serde userId rng st s
  | .restore backup room => restoreRoom serde backup.imports backup.opens room rng st

/-- A run, each operation with the salts it draws. -/
def runOps (st : Store S) (run : List (Op × (ℕ → Salts))) : Store S :=
  run.foldl (fun st p => runOp serde userId p.2 st p.1) st

/-- The last message an operation brings the room by a sync, if it gets to the room. -/
def brought (st : Store S) (room : String) : Op → Option Message
  | .step (.sync decrypt batch) =>
    ((batch.join.takeWhile fun p => CanRead st p.1).lookup room).bind fun jr =>
      (messagesOf (converts serde decrypt userId room) jr).getLast?
  | _ => none

/-- **The message a run shows of the room**: the one the last sync that brought any brought last. -/
def shown (room : String) : Store S → List (Op × (ℕ → Salts)) → Option Message
  | _, [] => none
  | st, p :: run =>
    (shown room (runOp serde userId p.2 st p.1) run).or (brought serde userId st room p.1)

end Ops

section Rows
variable {S : CipherSuite}

/-- **The row shows the message**, or that there was none. The preview is the stored message's as long as
its body is the one it came with: an edit or a key may change that later. -/
def Shows (st : Store S) (room : String) : Option Message → Prop
  | none => ∀ row, (contents st).rooms.lookup room = some row →
      asU64 row.lastTs = 0 ∧ row.lastPreview = some ""
  | some m => ∃ row msg, (contents st).rooms.lookup room = some row ∧
      (contents st).messages.lookup m.eventId = some msg ∧ asU64 row.lastTs = asU64 (asI64 m.ts) ∧
      (msg.body = some m.body → row.lastPreview = some (preview m.body 64))

/-- **The row shows the newest message of the room**, if the room has any. -/
def ShowsNewest (st : Store S) (room : String) : Prop :=
  (∃ e msg, (contents st).messages.lookup e = some msg ∧ msg.room = room) →
    ∃ row e msg, (contents st).rooms.lookup room = some row ∧
      (contents st).messages.lookup e = some msg ∧ msg.room = room ∧
      (∀ e' msg', (contents st).messages.lookup e' = some msg' → msg'.room = room →
        asU64 msg'.ts ≤ asU64 msg.ts) ∧
      asU64 row.lastTs = asU64 msg.ts ∧ row.lastPreview = msg.body.map fun body => preview body 64

/-- The columns of the room list. -/
def columns (row : PlainRoomRow) : ℤ × Option String := (row.lastTs, row.lastPreview)

/-- The row has the columns of the message as it came. -/
def Lists (st : Store S) (room : String) : Option Message → Prop
  | none => ∀ row, (contents st).rooms.lookup room = some row →
      asU64 row.lastTs = 0 ∧ row.lastPreview = some ""
  | some m => ((contents st).messages.lookup m.eventId).isSome = true ∧
      ∃ row, (contents st).rooms.lookup room = some row ∧ asU64 row.lastTs = asU64 (asI64 m.ts) ∧
        row.lastPreview = some (preview m.body 64)

theorem shows_of_lists {st : Store S} {room : String} {m : Option Message} (h : Lists st room m) :
    Shows st room m := by
  cases m with
  | none => exact h
  | some m =>
    obtain ⟨hmsg, row, hrow, hts, hpre⟩ := h
    obtain ⟨msg, hmsg⟩ := Option.isSome_iff_exists.mp hmsg
    exact ⟨row, msg, hrow, hmsg, hts, fun _ => hpre⟩

/-! ### Writes that leave the columns -/

/-- An operation that neither writes the columns of a room nor removes a row. -/
def Leaves : StoreOp → Bool
  | .upsertRoom _ => false
  | .clear => false
  | _ => true

theorem columns_roomStep (r : String) (s : Option PlainRoomRow) {op : StoreOp} (h : Leaves op = true) :
    (roomStep some r s op).map columns = s.map columns := by
  cases op with
  | upsertRoom room => cases h
  | clear => cases h
  | seedBackToken room token =>
    show (if room = r then s.map _ else s).map columns = _
    split_ifs
    · rw [Option.map_map]
      refine congrFun (congrArg Option.map (funext fun row => ?_)) s
      show columns (if row.backToken = none then _ else row) = columns row
      split_ifs <;> rfl
    · rfl
  | setBackToken room token done =>
    show (if room = r then s.map _ else s).map columns = _
    split_ifs
    · rw [Option.map_map]
      rfl
    · rfl
  | _ => rfl

theorem columns_roomRun (r : String) : ∀ {ops : List StoreOp} (s : Option PlainRoomRow),
    (∀ op ∈ ops, Leaves op = true) → (roomRun some r s ops).map columns = s.map columns
  | [], _, _ => rfl
  | op :: ops, s, h => by
    show (roomRun some r (roomStep some r s op) ops).map columns = _
    rw [columns_roomRun r _ fun op' hop' => h op' (by simp [hop'])]
    exact columns_roomStep r s (h op (by simp))

theorem isSome_eventStep (e : String) {s : EventState} {op : StoreOp} (hop : op ≠ .clear)
    (h : s.row.isSome = true) : (eventStep some e s op).row.isSome = true := by
  cases op with
  | clear => exact absurd rfl hop
  | insertMessage m =>
    show (if m.eventId = e then _ else s).row.isSome = true
    split_ifs
    · rfl
    · exact h
  | upgradeMessage e' body =>
    show (if e' = e then _ else s).row.isSome = true
    split_ifs
    · exact (Option.isSome_map).trans h
    · exact h
  | recordEdit target ts body =>
    show (if target = e then editStep s _ else s).row.isSome = true
    unfold editStep
    split_ifs
    · exact (Option.isSome_map).trans h
    · exact h
    · exact h
  | _ => exact h

/-- A message that is stored stays. -/
theorem isSome_eventRun (e : String) : ∀ {ops : List StoreOp} {s : EventState}, StoreOp.clear ∉ ops →
    s.row.isSome = true → (eventRun some e s ops).row.isSome = true
  | [], _, _, h => h
  | op :: ops, s, hc, h => by
    have hop : op ≠ .clear := by
      rintro rfl
      exact hc (by simp)
    show (eventRun some e (eventStep some e s op) ops).row.isSome = true
    exact isSome_eventRun e (fun hm => hc (by simp [hm])) (isSome_eventStep e hop h)

/-- A message that is inserted is stored. -/
theorem isSome_of_inserted {ops : List StoreOp} {m : Message} (hc : StoreOp.clear ∉ ops)
    (hm : StoreOp.insertMessage m ∈ ops) (s : EventState) :
    (eventRun some m.eventId s ops).row.isSome = true := by
  obtain ⟨before, after, rfl⟩ := List.append_of_mem hm
  have hstep : ∀ s' : EventState, (eventStep some m.eventId s' (.insertMessage m)).row.isSome = true := by
    intro s'
    show (if m.eventId = m.eventId then _ else s').row.isSome = true
    rw [if_pos rfl]
    rfl
  rw [eventRun_append]
  show (eventRun some m.eventId (eventStep some m.eventId _ (.insertMessage m)) after).row.isSome = true
  exact isSome_eventRun m.eventId (fun h => hc (by simp [h])) (hstep _)

/-- **Between the stores** no column of the room list changed and no message went. -/
structure Keeps (st st' : Store S) : Prop where
  columns : ∀ room, ((contents st').rooms.lookup room).map columns =
    ((contents st).rooms.lookup room).map columns
  messages : ∀ e, ((contents st).messages.lookup e).isSome = true →
    ((contents st').messages.lookup e).isSome = true

theorem Keeps.refl (st : Store S) : Keeps st st := ⟨fun _ => rfl, fun _ h => h⟩

theorem Keeps.trans {a b c : Store S} (hab : Keeps a b) (hbc : Keeps b c) : Keeps a c :=
  ⟨fun room => (hbc.columns room).trans (hab.columns room),
    fun e h => hbc.messages e (hab.messages e h)⟩

theorem keeps_execOps {ops : List StoreOp} (rng : ℕ → Salts) (st : Store S)
    (h : ∀ op ∈ ops, Leaves op = true) : Keeps st (execOps rng st ops) where
  columns room := by
    rw [contents_execOps, room_runPlain]
    exact columns_roomRun room _ h
  messages e hrow := by
    rw [contents_execOps]
    show (eventOf (runPlain some _ (contents st) ops) e).row.isSome = true
    rw [eventOf_runPlain]
    refine isSome_eventRun e (fun hc => ?_) hrow
    have := h _ hc
    cases this

theorem Keeps.lists {st st' : Store S} (hk : Keeps st st') {room : String} {m : Option Message}
    (h : Lists st room m) : Lists st' room m := by
  have hcols := hk.columns room
  cases m with
  | none =>
    intro row' hrow'
    rw [hrow', Option.map_some] at hcols
    obtain ⟨row, hrow, heq⟩ := Option.map_eq_some_iff.mp hcols.symm
    have heq : (row.lastTs, row.lastPreview) = (row'.lastTs, row'.lastPreview) := heq
    obtain ⟨hts, hpre⟩ := Prod.mk.injEq _ _ _ _ ▸ heq
    rw [← hts, ← hpre]
    exact h row hrow
  | some m =>
    obtain ⟨hmsg, row, hrow, hts, hpre⟩ := h
    rw [hrow, Option.map_some] at hcols
    obtain ⟨row', hrow', heq⟩ := Option.map_eq_some_iff.mp hcols
    have heq : (row'.lastTs, row'.lastPreview) = (row.lastTs, row.lastPreview) := heq
    obtain ⟨hts', hpre'⟩ := Prod.mk.injEq _ _ _ _ ▸ heq
    exact ⟨hk.messages _ hmsg, row', hrow', hts'.symm ▸ hts, hpre'.symm ▸ hpre⟩

end Rows

/-! ### One operation -/

section Step
variable {serde : SerdeJson} {userId : String} {S : CipherSuite}

theorem leaves_eventOps (decrypt : Decrypts) (room : String) (evs : List RoomEvent) :
    ∀ op ∈ eventOps serde userId decrypt room evs, Leaves op = true := by
  intro op hop
  obtain ⟨ev, -, hop⟩ := List.mem_flatMap.mp hop
  unfold Converted.ops at hop
  rcases List.mem_append.mp hop with hop | hop
  · obtain ⟨edit, -, rfl⟩ := List.mem_map.mp hop
    rfl
  · obtain ⟨m, -, rfl⟩ := List.mem_map.mp hop
    rfl

theorem leaves_pageOps (decrypt : Decrypts) (room : String) (chunk : List RoomEvent)
    (endToken : Option String) :
    ∀ op ∈ pageOps serde userId decrypt room chunk endToken, Leaves op = true := by
  intro op hop
  rcases List.mem_append.mp hop with hop | hop
  · exact leaves_eventOps decrypt room chunk op hop
  · rw [List.mem_singleton.mp hop]
    rfl

theorem leaves_restoreTrace (imports : String → Option Pickle)
    (opens : String → String → Option String) (room : String) (st : Store S) :
    ∀ op ∈ (restoreTrace serde imports opens room st).1, Leaves op = true := by
  intro op hop
  unfold restoreTrace at hop
  cases hu : undecryptedInRoom st room backupRestoreWindow with
  | error e => rw [hu] at hop; cases hop
  | ok pending =>
    rw [hu] at hop
    dsimp only at hop
    split_ifs at hop
    · cases hop
    · rcases List.mem_append.mp hop with hop | hop
      · obtain ⟨sessionId, -, h⟩ := List.mem_filterMap.mp hop
        obtain ⟨pickle, -, rfl⟩ := Option.map_eq_some_iff.mp h
        rfl
      · obtain ⟨p, -, h⟩ := List.mem_filterMap.mp hop
        dsimp only at h
        split_ifs at h
        cases h
        rfl

theorem keeps_restoreRoom (b : Backup) (room : String) (rng : ℕ → Salts) (st : Store S) :
    Keeps st (restoreRoom serde b.imports b.opens room rng st) :=
  keeps_execOps rng st (leaves_restoreTrace b.imports b.opens room st)

/-- **An operation other than a sync** keeps the columns and the messages. -/
theorem keeps_runOp {op : Op} (h : ∀ decrypt batch, op ≠ .step (.sync decrypt batch))
    (rng : ℕ → Salts) (st : Store S) : Keeps st (runOp serde userId rng st op) := by
  cases op with
  | restore b room => exact keeps_restoreRoom b room rng st
  | step s =>
    cases s with
    | sync decrypt batch => exact absurd rfl (h decrypt batch)
    | refetch decrypt room event =>
      exact keeps_execOps rng st (leaves_eventOps decrypt room (refetched st room event))
    | loadOlder decrypt room chunk endToken backup =>
      show Keeps st (if (backToken st room).2 then st else _)
      split_ifs
      · exact Keeps.refl st
      · have hpage := keeps_execOps rng st
          (@leaves_pageOps serde userId decrypt room chunk endToken)
        cases backup with
        | none => exact hpage
        | some b => exact hpage.trans (keeps_restoreRoom b room _ _)

end Step

/-! ### One sync -/

section Sync
variable {S : CipherSuite} {convert : String → RoomEvent → Converted} {rng : ℕ → Salts} {st : Store S}
  {batch : SyncBatch} {room : String} {m : Option Message}

/-- The rooms a sync gets to. -/
abbrev reached (st : Store S) (batch : SyncBatch) : List (String × JoinedRoom) :=
  batch.join.takeWhile fun p => CanRead st p.1

theorem not_clear_processTrace : StoreOp.clear ∉ (processTrace convert rng st batch).1 := by
  obtain ⟨tail, htail, htrace⟩ := processTrace_fst convert rng st batch
  rw [htrace, List.mem_append]
  rintro (h | h)
  · exact not_clear_of_batched (batched_blocks convert) h
  · cases htail _ h

/-- The messages of a room the sync gets to are inserted. -/
theorem inserted_of_reached {jr : JoinedRoom} (h : (room, jr) ∈ reached st batch) {msg : Message}
    (hmsg : msg ∈ messagesOf (convert room) jr) :
    StoreOp.insertMessage msg ∈ (processTrace convert rng st batch).1 := by
  have hops : StoreOp.insertMessage msg ∈
      roomOps (convert room) room jr (storedRoom st room) := by
    unfold roomOps
    simp [hmsg]
  obtain ⟨tail, -, htrace⟩ := processTrace_fst convert rng st batch
  rw [htrace]
  exact List.mem_append_left _ (List.mem_flatMap.mpr ⟨(room, jr), h, hops⟩)

/-- **A sync, seen at one room.** -/
theorem room_processSync :
    (contents (processSync convert rng st batch)).rooms.lookup room =
      roomRun some room ((contents st).rooms.lookup room)
        ((blocks convert (storedRoom st) (reached st batch)).filter (roomTouches room)) := by
  obtain ⟨tail, htail, htrace⟩ := processTrace_fst convert rng st batch
  unfold processSync
  rw [contents_execOps, room_runPlain, roomRun_filter, htrace, List.filter_append,
    filter_tail htail _ rfl, List.append_nil]

theorem message_processSync (e : String) :
    (contents (processSync convert rng st batch)).messages.lookup e =
      (eventRun some e (eventOf (contents st) e) (processTrace convert rng st batch).1).row := by
  unfold processSync
  rw [contents_execOps, ← eventOf_runPlain]
  rfl

/-- A room the sync does not get to keeps its row. -/
theorem room_of_not_reached (h : ∀ p ∈ reached st batch, p.1 ≠ room) :
    (contents (processSync convert rng st batch)).rooms.lookup room =
      (contents st).rooms.lookup room := by
  rw [room_processSync, rooms_blocks_none convert (named_storedRoom st) h]
  rfl

/-- A room the sync gets to has the columns of the room it made. -/
theorem room_of_reached {jr : JoinedRoom} (h : (room, jr) ∈ reached st batch) :
    ∃ row, (contents (processSync convert rng st batch)).rooms.lookup room = some row ∧
      columns row =
        (asI64 (finalRoom (convert room) room jr (storedRoom st room)).lastTs,
          some (finalRoom (convert room) room jr (storedRoom st room)).lastPreview) := by
  have hnodup : ((reached st batch).map Prod.fst).Nodup :=
    ((List.takeWhile_sublist _).map Prod.fst).nodup batch.nodup
  have hblock := rooms_blocks convert (named_storedRoom st) hnodup h
  have hid := finalRoom_id (convert room) jr (named_storedRoom st room)
  have hrun := roomRun_block some (finalRoom (convert room) room jr (storedRoom st room)) jr.prevBatch
    ((contents st).rooms.lookup room)
  rw [hid] at hrun
  refine ⟨_, room_processSync.trans ((congrArg (roomRun some room _) hblock).trans hrun), ?_⟩
  cases jr.prevBatch <;> rfl

/-- What is read of a room that can be read. -/
theorem storedRoom_columns (h : CanRead st room) :
    match (contents st).rooms.lookup room with
    | none => storedRoom st room = none
    | some row => ∃ r, storedRoom st room = some r ∧ r.lastTs = asU64 row.lastTs ∧
        row.lastPreview = some r.lastPreview := by
  rw [rooms_contents]
  unfold CanRead at h
  unfold storedRoom
  rw [rooms_plain] at h ⊢
  cases hrow : st.db.rooms.lookup room with
  | none => rfl
  | some row =>
    rw [hrow] at h
    obtain ⟨r, hr⟩ := Option.isSome_iff_exists.mp (Option.isSome_map.symm.trans h)
    refine ⟨r, ?_, ?_⟩
    · show (Option.map some (plainRoom (room, RoomRow.map (look st) row))).join = some r
      rw [hr]
      rfl
    · unfold plainRoom at hr
      dsimp only at hr
      split at hr
      · rename_i name text hname htext
        cases hr
        exact ⟨rfl, content_of_look htext⟩
      · cases hr

/-- **One sync.** -/
theorem lists_processSync (h : Lists st room m) :
    Lists (processSync convert rng st batch) room
      ((((reached st batch).lookup room).bind fun jr =>
        (messagesOf (convert room) jr).getLast?).or m) := by
  have hstays : ∀ e, ((contents st).messages.lookup e).isSome = true →
      ((contents (processSync convert rng st batch)).messages.lookup e).isSome = true := by
    intro e he
    rw [message_processSync]
    exact isSome_eventRun e not_clear_processTrace he
  cases hl : (reached st batch).lookup room with
  | none =>
    have hne : ∀ p ∈ reached st batch, p.1 ≠ room := by
      intro p hp hid
      have := List.lookup_eq_none_iff.mp hl p hp
      simp [hid] at this
    have hrow := @room_of_not_reached S convert rng st batch room hne
    cases m with
    | none =>
      intro row hrow'
      exact h row (hrow ▸ hrow')
    | some m =>
      obtain ⟨hmsg, row, hr, hcols⟩ := h
      exact ⟨hstays _ hmsg, row, hrow.trans hr, hcols⟩
  | some jr =>
    obtain ⟨before, after, heq, -⟩ := List.lookup_eq_some_iff.mp hl
    have hmem : (room, jr) ∈ reached st batch := by
      rw [heq]
      simp
    have hread : CanRead st room := by
      have h := List.mem_takeWhile_imp hmem
      exact of_decide_eq_true h
    obtain ⟨row', hrow', hcols⟩ := @room_of_reached S convert rng st batch room jr hmem
    unfold finalRoom at hcols
    rw [foldRoom_eq] at hcols
    obtain ⟨hts, hpre⟩ := Prod.mk.injEq _ _ _ _ ▸ hcols
    dsimp only [Option.bind_some]
    cases hlast : (messagesOf (convert room) jr).getLast? with
    | some last =>
      rw [hlast] at hts hpre
      refine ⟨?_, row', hrow', congrArg asU64 hts, hpre⟩
      rw [message_processSync]
      exact isSome_of_inserted not_clear_processTrace
        (inserted_of_reached hmem (List.mem_of_getLast? hlast)) _
    | none =>
      -- the columns are those that were read
      rw [hlast] at hts hpre
      have hts : row'.lastTs = asI64 ((storedRoom st room).getD (newRoom room)).lastTs := hts
      have hpre : row'.lastPreview = some ((storedRoom st room).getD (newRoom room)).lastPreview := hpre
      have hstored := storedRoom_columns hread
      cases hrow : (contents st).rooms.lookup room with
      | none =>
        rw [hrow] at hstored
        rw [hstored] at hts hpre
        cases m with
        | none =>
          intro row hr
          cases hrow'.symm.trans hr
          rw [hts, hpre]
          exact ⟨asU64_asI64_of_lt (n := 0) (by decide), rfl⟩
        | some m =>
          obtain ⟨-, row, hr, -⟩ := h
          cases hrow.symm.trans hr
      | some row =>
        rw [hrow] at hstored
        obtain ⟨r, hr, hrts, hrpre⟩ := hstored
        rw [hr] at hts hpre
        have hts : row'.lastTs = asI64 (asU64 row.lastTs) := hts.trans (congrArg asI64 hrts)
        have hpre : row'.lastPreview = row.lastPreview := hpre.trans hrpre.symm
        cases m with
        | none =>
          obtain ⟨h0, h1⟩ := h row hrow
          intro row'' hr''
          cases hrow'.symm.trans hr''
          rw [hts, hpre, h0]
          exact ⟨asU64_asI64_of_lt (n := 0) (by decide), h1⟩
        | some m =>
          obtain ⟨hmsg, row₀, hr₀, h0, h1⟩ := h
          cases hrow.symm.trans hr₀
          refine ⟨hstays _ hmsg, row', hrow', ?_, hpre.trans h1⟩
          rw [hts, h0, asU64_asI64_of_lt (asU64_asI64_lt m.ts)]

end Sync

/-! ### Runs -/

section Run
variable (serde : SerdeJson) (userId : String) {S : CipherSuite} (room : String)

/-- **One operation.** -/
theorem lists_runOp (rng : ℕ → Salts) {st : Store S} (op : Op) {m : Option Message}
    (h : Lists st room m) :
    Lists (runOp serde userId rng st op) room ((brought serde userId st room op).or m) := by
  by_cases hsync : ∃ decrypt batch, op = .step (.sync decrypt batch)
  · obtain ⟨decrypt, batch, rfl⟩ := hsync
    exact lists_processSync h
  · have hother : ∀ decrypt batch, op ≠ .step (.sync decrypt batch) := by
      rintro decrypt batch rfl
      exact hsync ⟨decrypt, batch, rfl⟩
    have hnone : brought serde userId st room op = none := by
      unfold brought
      split
      · exact absurd rfl (hother _ _)
      · rfl
    rw [hnone, Option.none_or]
    exact (keeps_runOp hother rng st).lists h

theorem lists_runOps : ∀ (run : List (Op × (ℕ → Salts))) {st : Store S} {m : Option Message},
    Lists st room m →
    Lists (runOps serde userId st run) room ((shown serde userId room st run).or m)
  | [], _, _, h => h
  | p :: run, st, m, h => by
    have hrest := lists_runOps run (lists_runOp serde userId room p.2 p.1 h)
    unfold shown
    rw [Option.or_assoc]
    exact hrest

/-- **What the room list shows, after every run** from a store that does not have the room. -/
theorem shows_run {st : Store S} (h : st.db.rooms.lookup room = none)
    (run : List (Op × (ℕ → Salts))) :
    Shows (runOps serde userId st run) room (shown serde userId room st run) := by
  have hfresh : Lists st room none := by
    intro row hrow
    rw [rooms_contents, h] at hrow
    cases hrow
  have hlists := lists_runOps serde userId room run hfresh
  rw [Option.or_none] at hlists
  exact shows_of_lists hlists

end Run

/-- A run of one sync, whose timeline ends with the older message. -/
def answeredFirst : List (Op × (ℕ → Salts)) :=
  (oneBatch [answer, hello]).map fun p => (.step p.1, p.2)

theorem shows_answeredFirst :
    Shows (runOps noJson "@me" emptyStore answeredFirst) "!r"
      (shown noJson "@me" "!r" emptyStore answeredFirst) :=
  shows_run noJson "@me" "!r" rfl answeredFirst

/-- **A timeline that is not in the order of its `ts`**: the row shows the older message. -/
theorem not_showsNewest_answered :
    ¬ ∀ run : List (Op × (ℕ → Salts)), ShowsNewest (runOps noJson "@me" emptyStore run) "!r" := by
  intro h
  have hanswer : ((contents (runOps noJson "@me" emptyStore answeredFirst)).messages.lookup "$a").map
      (fun msg => (msg.room, asU64 msg.ts)) = some ("!r", 2) := by decide +kernel
  have hrow : ((contents (runOps noJson "@me" emptyStore answeredFirst)).rooms.lookup "!r").map
      (fun row => asU64 row.lastTs) = some 1 := by decide +kernel
  obtain ⟨msg, hmsg, hvalues⟩ := Option.map_eq_some_iff.mp hanswer
  obtain ⟨hroom, hts⟩ := Prod.mk.injEq _ _ _ _ ▸ hvalues
  obtain ⟨row, e, newest, hr, -, -, hmax, hshown, -⟩ := h answeredFirst ⟨"$a", msg, hmsg, hroom⟩
  rw [hr] at hrow
  have hlast : asU64 row.lastTs = 1 := Option.some.inj hrow
  have hle := hmax "$a" msg hmsg hroom
  omega

end Kmatrix.Sync.Previews
