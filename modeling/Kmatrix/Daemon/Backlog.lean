import Kmatrix.Daemon.Procs

/-! # What is stored of a room's history

On the server a room is a list of events that only grows; a page or a batch is a stretch of it. An event
is `Stored` as a message, or as an edit the store has recorded, and `Covered` says that every renderable
event of a stretch is. Nothing but `clear` takes a stored event away, and storing a stretch event by event
covers it: the rules below say so for the sections of the daemon's procedures. -/

namespace Kmatrix.Daemon.Backlog

open Kmatrix.Lib.Keyed Kmatrix.Lib.Threads Kmatrix.Daemon.Procs
open Kmatrix.Storage Kmatrix.Storage.Seal Kmatrix.Storage.Schema
open Kmatrix.Storage.Write (StoreOp)
open Kmatrix.Sync Kmatrix.Sync.Plaintext Kmatrix.Sync.Events Kmatrix.Sync.Convert

/-! ### Stored events -/

section Stored
variable {S : CipherSuite} (serde : SerdeJson) (truth : Opens) (us room : String)

/-- With all the keys there are, the event is a message or an edit. -/
def Renderable (ev : RoomEvent) : Prop :=
  (Convert.convertEvent serde truth us room ev).message.isSome ∨
    (Convert.convertEvent serde truth us room ev).edit.isSome

/-- The edit, or a later one of the same message, is recorded. -/
def Recorded (st : Store S) (e : Edit) : Prop :=
  ∃ row, st.db.edits.lookup e.target = some row ∧ asI64 e.ts ≤ row.ts

/-- **The event is stored**, as a message or a recorded edit. -/
def Stored (st : Store S) (ev : RoomEvent) : Prop :=
  (∃ row, st.db.messages.lookup ev.eventId = some row) ∨
    ∃ e, (Convert.convertEvent serde truth us room ev).edit = some e ∧ Recorded st e

/-- **Every renderable event of a stretch is stored.** -/
def Covered (events : ℕ → RoomEvent) (st : Store S) (low high : ℕ) : Prop :=
  ∀ i, low ≤ i → i < high → Renderable serde truth us room (events i) →
    Stored serde truth us room st (events i)

/-- What the daemon decrypts, it decrypts right. -/
def Knows (truth : Opens) (s : Shared S) : Prop :=
  ∀ sid ct, s.opens sid ct = none ∨ s.opens sid ct = truth sid ct

end Stored

section Store
variable {S : CipherSuite} {rng : Salts} {st : Store S} {op : StoreOp}

/-- A stored message stays. -/
theorem messages_exec (hop : op ≠ .clear) {e : String} {row : MessageRow String}
    (h : st.db.messages.lookup e = some row) :
    ∃ row', (op.exec rng st).db.messages.lookup e = some row' := by
  have hmodify : ∀ (t : String) (f : MessageRow String → MessageRow String),
      ∃ row', (st.db.messages.modify t f).lookup e = some row' := by
    intro t f
    rw [Table.lookup_modify]
    split_ifs
    · exact ⟨_, by rw [h]; rfl⟩
    · exact ⟨row, h⟩
  rcases op with _ | _ | _ | m | ⟨t, body⟩ | ⟨t, ts, body⟩ | _ | _ | ⟨r, token⟩ | _ | _
  · exact ⟨row, h⟩
  · exact ⟨row, h⟩
  · exact ⟨row, h⟩
  · simp only [StoreOp.exec, Write.insertMessage, Write.insertMessageStmt, Table.lookup_upsert]
    split_ifs
    · exact ⟨_, rfl⟩
    · exact ⟨row, h⟩
  · exact hmodify _ _
  · simp only [StoreOp.exec, Write.recordEdit, Write.recordEditStmt]
    split_ifs
    · exact hmodify _ _
    · exact ⟨row, h⟩
  · exact ⟨row, h⟩
  · exact ⟨row, h⟩
  · obtain ⟨rooms, hrooms⟩ := Write.seedBackTokenStmt_eq st.db r token
    simp only [StoreOp.exec, Write.seedBackToken, hrooms]
    exact ⟨row, h⟩
  · exact ⟨row, h⟩
  · exact absurd rfl hop

/-- A recorded edit stays, or gives way to a later one. -/
theorem recorded_exec (hop : op ≠ .clear) {e : Edit} (h : Recorded st e) :
    Recorded (op.exec rng st) e := by
  obtain ⟨row, hrow, hts⟩ := h
  rcases op with _ | _ | _ | m | ⟨t, body⟩ | ⟨t, ts, body⟩ | _ | _ | ⟨r, token⟩ | _ | _
  · exact ⟨row, hrow, hts⟩
  · exact ⟨row, hrow, hts⟩
  · exact ⟨row, hrow, hts⟩
  · exact ⟨row, hrow, hts⟩
  · exact ⟨row, hrow, hts⟩
  · simp only [Recorded, StoreOp.exec, Write.recordEdit, Write.recordEditStmt]
    split_ifs with hacc
    · rw [Table.lookup_upsert]
      split_ifs with heq
      · rw [← heq, hrow]
        refine ⟨_, rfl, ?_⟩
        unfold Write.editAccepted at hacc
        rw [← heq, hrow] at hacc
        exact hts.trans (of_decide_eq_true hacc)
      · exact ⟨row, hrow, hts⟩
    · exact ⟨row, hrow, hts⟩
  · exact ⟨row, hrow, hts⟩
  · exact ⟨row, hrow, hts⟩
  · obtain ⟨rooms, hrooms⟩ := Write.seedBackTokenStmt_eq st.db r token
    simp only [Recorded, StoreOp.exec, Write.seedBackToken, hrooms]
    exact ⟨row, hrow, hts⟩
  · exact ⟨row, hrow, hts⟩
  · exact absurd rfl hop

/-- **Nothing but `clear` takes a stored event away.** -/
theorem stored_exec {serde : SerdeJson} {truth : Opens} {us room : String} (hop : op ≠ .clear)
    {ev : RoomEvent} (h : Stored serde truth us room st ev) :
    Stored serde truth us room (op.exec rng st) ev := by
  rcases h with ⟨row, hrow⟩ | ⟨e, he, hrecorded⟩
  · exact Or.inl (messages_exec hop hrow)
  · exact Or.inr ⟨e, he, recorded_exec hop hrecorded⟩

/-- An inserted message is stored. -/
theorem lookup_insertMessage (m : Message) :
    ∃ row, ((StoreOp.insertMessage m).exec rng st).db.messages.lookup m.eventId = some row := by
  simp only [StoreOp.exec, Write.insertMessage, Write.insertMessageStmt, Table.lookup_upsert, if_pos]
  rcases st.db.messages.lookup m.eventId with _ | row
  · exact ⟨_, rfl⟩
  · exact ⟨_, rfl⟩

/-- A recorded edit is recorded. -/
theorem recorded_op (e : Edit) : Recorded (e.op.exec rng st) e := by
  simp only [Recorded, Edit.op, StoreOp.exec, Write.recordEdit, Write.recordEditStmt]
  split_ifs with hacc
  · rw [Table.lookup_upsert, if_pos rfl]
    rcases st.db.edits.lookup e.target with _ | row
    · exact ⟨_, rfl, le_refl _⟩
    · exact ⟨_, rfl, le_refl _⟩
  · unfold Write.editAccepted at hacc
    rcases hrow : st.db.edits.lookup e.target with _ | row
    · simp [hrow] at hacc
    · rw [hrow] at hacc
      exact ⟨row, rfl, le_of_lt (not_le.mp (of_decide_eq_false (by simpa using hacc)))⟩

end Store

/-! ### Converting with the keys at hand -/

section Convert
variable {serde : SerdeJson} {truth opens : Opens} {us room : String} {ev : RoomEvent}

/-- **A missing key** makes a placeholder; otherwise the event is what it is. -/
theorem convert_known (h : ∀ sid ct, opens sid ct = none ∨ opens sid ct = truth sid ct) :
    Convert.convertEvent serde opens us room ev = Convert.convertEvent serde truth us room ev ∨
      ((Convert.convertEvent serde opens us room ev).edit = none ∧
        (Convert.convertEvent serde opens us room ev).message.isSome) := by
  unfold Convert.convertEvent
  dsimp only
  by_cases hk : ev.kind = "m.room.message"
  · left
    rw [if_pos hk, if_pos hk]
  · rw [if_neg hk, if_neg hk]
    by_cases hk' : ev.kind = "m.room.encrypted"
    · rw [if_pos hk', if_pos hk']
      rcases hct : ev.content.ciphertext with _ | ct
      · exact Or.inl rfl
      · rcases hsid : ev.content.sessionId with _ | sid
        · exact Or.inl rfl
        · rcases h sid ct with hnone | heq
          · right
            simp [hnone]
          · left
            simp only [heq]
    · left
      rw [if_neg hk', if_neg hk']

end Convert

/-! ### The room's edge -/

section Edge
variable {S : CipherSuite} {rng : Salts} {st : Store S} {op : StoreOp} {room : String}

/-- What the room's row says of the pagination edge. -/
def edgeOf (st : Store S) (room : String) : Option (Option String × ℤ) :=
  (st.db.rooms.lookup room).map fun row => (row.backToken, row.backDone)

/-- **The operation leaves the room's edge alone**, and what is stored. -/
def Quiet (room : String) (op : StoreOp) : Prop :=
  op ≠ .clear ∧ (∀ token, op ≠ .seedBackToken room token) ∧
    ∀ token done, op ≠ .setBackToken room token done

theorem edgeOf_modify {f : RoomRow String → RoomRow String} {r : String} {e : Option String × ℤ}
    (hr : r ≠ room) (he : edgeOf st room = some e) :
    edgeOf (⟨{ st.db with rooms := st.db.rooms.modify r f }, st.key⟩ : Store S) room = some e := by
  unfold edgeOf at he ⊢
  rw [Table.lookup_modify, if_neg fun h => hr h.symm]
  exact he

/-- An edge that is there stays as it is. -/
theorem edge_quiet {e : Option String × ℤ} (hop : Quiet room op) (he : edgeOf st room = some e) :
    edgeOf (op.exec rng st) room = some e := by
  obtain ⟨hclear, hseed, hset⟩ := hop
  rcases op with _ | _ | r | _ | _ | ⟨t, ts, body⟩ | _ | _ | ⟨r, token⟩ | ⟨r, token, done⟩ | _
  · exact he
  · exact he
  · obtain ⟨row, hrow, rfl⟩ := Option.map_eq_some_iff.mp he
    simp only [edgeOf, StoreOp.exec, Write.upsertRoom, Write.upsertRoomStmt, Table.lookup_upsert]
    split_ifs with hid
    · subst hid
      rw [hrow]
      rfl
    · rw [hrow]
      rfl
  · exact he
  · exact he
  · simp only [edgeOf, StoreOp.exec, Write.recordEdit, Write.recordEditStmt]
    split_ifs
    · exact he
    · exact he
  · exact he
  · exact he
  · have hr : r ≠ room := fun h => hseed token (by rw [h])
    simp only [StoreOp.exec, Write.seedBackToken, Write.seedBackTokenStmt]
    split
    · split_ifs
      · exact edgeOf_modify hr he
      · exact he
    · exact he
  · exact edgeOf_modify (fun h => hset token done (by rw [h])) he
  · exact absurd rfl hclear

/-- A room that is new has no edge. -/
theorem edge_quiet_none (hop : Quiet room op) (hnone : edgeOf st room = none)
    {e : Option String × ℤ} (he : edgeOf (op.exec rng st) room = some e) : e = (none, 0) := by
  obtain ⟨hclear, hseed, hset⟩ := hop
  have hrow : st.db.rooms.lookup room = none := Option.map_eq_none_iff.mp hnone
  rcases op with _ | _ | r | _ | _ | ⟨t, ts, body⟩ | _ | _ | ⟨r, token⟩ | ⟨r, token, done⟩ | _
  · exact absurd (hnone.symm.trans he) (by simp)
  · exact absurd (hnone.symm.trans he) (by simp)
  · simp only [edgeOf, StoreOp.exec, Write.upsertRoom, Write.upsertRoomStmt, Table.lookup_upsert] at he
    split_ifs at he with hid
    · subst hid
      rw [hrow] at he
      exact (Option.some.inj he).symm
    · rw [hrow] at he
      simp at he
  · exact absurd (hnone.symm.trans he) (by simp)
  · exact absurd (hnone.symm.trans he) (by simp)
  · simp only [edgeOf, StoreOp.exec, Write.recordEdit, Write.recordEditStmt] at he
    split_ifs at he
    · exact absurd (hnone.symm.trans he) (by simp)
    · exact absurd (hnone.symm.trans he) (by simp)
  · exact absurd (hnone.symm.trans he) (by simp)
  · exact absurd (hnone.symm.trans he) (by simp)
  · simp only [edgeOf, StoreOp.exec, Write.seedBackToken, Write.seedBackTokenStmt] at he
    split at he
    · split_ifs at he
      · simp [hrow] at he
      · simp [hrow] at he
    · simp [hrow] at he
  · simp [edgeOf, StoreOp.exec, Write.setBackToken, Write.setBackTokenStmt, hrow] at he
  · exact absurd rfl hclear

theorem quiet_upsertRoom (r : Room) : Quiet room (.upsertRoom r) := by simp [Quiet]

/-- Only an edge that is not there is seeded. -/
theorem edge_seed {token : String} {t : Option String} {d : ℤ} (he : edgeOf st room = some (t, d)) :
    edgeOf ((StoreOp.seedBackToken room token).exec rng st) room = some (some (t.getD token), d) := by
  obtain ⟨row, hrow, heq⟩ := Option.map_eq_some_iff.mp he
  obtain ⟨rfl, rfl⟩ := Prod.mk.inj heq
  simp only [edgeOf, StoreOp.exec, Write.seedBackToken, Write.seedBackTokenStmt, hrow]
  rcases ht : row.backToken with _ | t
  · simp [hrow]
  · simp [hrow, ht]

theorem edge_set {token : Option String} {done : Bool} {e : Option String × ℤ}
    (he : edgeOf st room = some e) :
    edgeOf ((StoreOp.setBackToken room token done).exec rng st) room = some (token, boolI64 done) := by
  obtain ⟨row, hrow, -⟩ := Option.map_eq_some_iff.mp he
  simp [edgeOf, StoreOp.exec, Write.setBackToken, Write.setBackTokenStmt, hrow]

/-- **What an operation can do to the room's edge**: a new row has none, only an edge that is not there
is seeded, and `setBackToken` puts it where it is told. -/
theorem edge_cases (hop : op ≠ .clear) :
    edgeOf (op.exec rng st) room = edgeOf st room ∨
      (edgeOf st room = none ∧ edgeOf (op.exec rng st) room = some (none, 0)) ∨
      (∃ t d, op = .seedBackToken room t ∧ edgeOf st room = some (none, d) ∧
        edgeOf (op.exec rng st) room = some (some t, d)) ∨
      (∃ t done, op = .setBackToken room t done ∧
        edgeOf (op.exec rng st) room = some (t, boolI64 done)) := by
  by_cases hseed : ∃ t, op = .seedBackToken room t
  · obtain ⟨t, rfl⟩ := hseed
    rcases he : edgeOf st room with _ | ⟨old, d⟩
    · have hrow : st.db.rooms.lookup room = none := Option.map_eq_none_iff.mp he
      left
      simp [edgeOf, StoreOp.exec, Write.seedBackToken, Write.seedBackTokenStmt, hrow]
    · have hseeded := @edge_seed S rng st room t old d he
      rcases old with _ | old
      · exact Or.inr (Or.inr (Or.inl ⟨t, d, rfl, rfl, hseeded⟩))
      · exact Or.inl hseeded
  · by_cases hset : ∃ t done, op = .setBackToken room t done
    · obtain ⟨t, done, rfl⟩ := hset
      rcases he : edgeOf st room with _ | e
      · have hrow : st.db.rooms.lookup room = none := Option.map_eq_none_iff.mp he
        left
        simp [edgeOf, StoreOp.exec, Write.setBackToken, Write.setBackTokenStmt, hrow]
      · exact Or.inr (Or.inr (Or.inr ⟨t, done, rfl, edge_set he⟩))
    · have hquiet : Quiet room op :=
        ⟨hop, fun t ht => hseed ⟨t, ht⟩, fun t done ht => hset ⟨t, done, ht⟩⟩
      rcases he : edgeOf st room with _ | e
      · rcases he' : edgeOf (op.exec rng st) room with _ | e'
        · exact Or.inl rfl
        · exact Or.inr (Or.inl ⟨rfl, congrArg some (edge_quiet_none hquiet he he')⟩)
      · exact Or.inl (edge_quiet hquiet he)

theorem backToken_of_edge {t : Option String} {d : ℤ} (he : edgeOf st room = some (t, d)) :
    Read.backToken st room = (t, decide (d ≠ 0)) := by
  obtain ⟨row, hrow, heq⟩ := Option.map_eq_some_iff.mp he
  obtain ⟨rfl, rfl⟩ := Prod.mk.inj heq
  simp [Read.backToken, hrow]

end Edge

/-! ### Storing a stretch -/

section Sound
variable {S : CipherSuite} {κ : Type} (serde : SerdeJson) (truth : Opens) (login : Login)
  (room : String)

/-- Nothing that was stored is lost. -/
def Grows (s s' : Shared S) : Prop :=
  ∀ r ev, Stored serde truth login.us r s.db ev → Stored serde truth login.us r s'.db ev

/-- A write that moves neither the room's edge nor the sync token. -/
def Steady (room : String) : Change → Prop
  | .store _ op => Quiet room op ∧ ∀ token, op ≠ .setMeta "sync_token" token
  | .storeRoom _ _ _ _ => True
  | .mark _ => True
  | _ => False

/-- **What an outline has to grant** a procedure that stores the room's events. -/
structure Grants (outline : Outline (Shared S) κ) (k : κ) (track : Shared S → Shared S → Prop) : Prop
    extends Keeps Change.exec note outline k (Steady room) (fun _ => True) track where
  grows : ∀ {s s'}, track s s' → Grows serde truth login s s'
  knows : ∀ {s}, outline.inv s → Knows truth s

variable {serde truth login room} {outline : Outline (Shared S) κ} {k : κ}
  {track : Shared S → Shared S → Prop} {rules : Rules (Shared S) Change Request Reply κ}

theorem Grows.trans {s s' s'' : Shared S} (h : Grows serde truth login s s')
    (h' : Grows serde truth login s' s'') : Grows serde truth login s s'' :=
  fun r ev hev => h' r ev (h r ev hev)

theorem grows_exec {op : StoreOp} (hop : op ≠ .clear) (n : ℕ) (rng : Salts) (s : Shared S) :
    Grows serde truth login s (Change.exec rng s (.store n op)) :=
  fun _ _ hev => stored_exec hop hev

theorem grows_storeRoom (n : ℕ) (r : String) (jr : JoinedRoom) (row : Room) (rng : Salts) (s : Shared S) :
    Grows serde truth login s (Change.exec rng s (.storeRoom n r jr row)) :=
  fun _ _ hev => stored_exec (by simp) hev

/-- Only `clear` loses something. -/
theorem grows_change {w : Change} (hw : ∀ n, w ≠ .store n .clear) (rng : Salts) (s : Shared S) :
    Grows serde truth login s (Change.exec rng s w) := by
  rcases w with ⟨n, op⟩ | ⟨n, r, jr, row⟩ | _ | _ | _ | _
  · exact grows_exec (fun h => hw n (by rw [h])) n rng s
  · exact grows_storeRoom n r jr row rng s
  all_goals exact fun _ _ hev => hev

theorem grows_carry {ws : List Change} (hws : ∀ w ∈ ws, ∀ n, w ≠ .store n .clear) (os : List Salts)
    (s : Shared S) : Grows serde truth login s (carry Change.exec s ws os) := by
  induction ws generalizing s os with
  | nil => exact fun _ _ hev => hev
  | cons w ws ih =>
    rcases os with _ | ⟨o, os⟩
    · exact fun _ _ hev => hev
    · obtain ⟨hw, hrest⟩ := List.forall_mem_cons.mp hws
      exact (grows_change hw o s).trans (ih hrest os _)

theorem steady_keys {number : ℕ} {op : StoreOp} (h : OfKeys op) : Steady room (.store number op) := by
  rcases op with _ | ⟨key, v⟩ | _ | _ | _ | _ | _ | _ | _ | _ | _
  · exact h.elim
  · rcases h with rfl | rfl <;> simp [Steady, Quiet]
  all_goals first | exact h.elim | simp [Steady, Quiet]

section Rules
variable (hgrants : Grants serde truth login room outline k track)
include hgrants

variable {r : String}

/-- **An event is converted**: what comes next knows that it is recorded, or holds its message. -/
theorem Grants.convertEvent {ev : RoomEvent} {next : Option Message → DaemonProc S} {s : Shared S}
    (h : ∀ s' m, track s s' →
      (m = none → Renderable serde truth login.us r ev → Stored serde truth login.us r s'.db ev) →
      (∀ x, m = some x → x.eventId = ev.eventId) →
      Sound rules Change.exec note outline k (next m) s') :
    Sound rules Change.exec note outline k (Procs.convertEvent serde login r ev next) s := by
  refine sound_read fun s' hs' hinv => ?_
  have hknown := @convert_known serde truth s'.opens login.us r ev (hgrants.knows hinv)
  dsimp only
  rcases hedit : (Convert.convertEvent serde s'.opens login.us r ev).edit with _ | e
  · dsimp only
    refine h s' _ (hgrants.rely hs') (fun hnone hrender => ?_) fun x hx => (convertEvent_message hx).1
    rcases hknown with heq | ⟨-, hsome⟩
    · rw [Renderable, ← heq, hnone, hedit] at hrender
      simp at hrender
    · rw [hnone] at hsome
      simp at hsome
  · dsimp only
    have htruth : (Convert.convertEvent serde truth login.us r ev).edit = some e := by
      rcases hknown with heq | ⟨hnone, -⟩
      · rw [← heq]
        exact hedit
      · rw [hedit] at hnone
        simp at hnone
    have hsteady : Steady room (.store login.number e.op) := by simp [Steady, Quiet, Edit.op]
    refine hgrants.toKeeps.write (by simpa using hsteady) fun s'' os hs'' hall htrack => ?_
    refine h _ _ (hgrants.trans (hgrants.rely hs') (hgrants.trans hs'' htrack)) (fun _ _ => ?_)
      fun x hx => (convertEvent_message hx).1
    obtain ⟨rng, heq⟩ := carry_single hall s''
    rw [heq]
    exact Or.inr ⟨e, htruth, recorded_op e⟩

/-- **A stretch is stored event by event.** -/
theorem Grants.storeAll {evs : List RoomEvent} {next : DaemonProc S} {s : Shared S}
    (h : ∀ s', track s s' → (∀ ev ∈ evs,
      Renderable serde truth login.us r ev → Stored serde truth login.us r s'.db ev) →
      Sound rules Change.exec note outline k next s') :
    Sound rules Change.exec note outline k (Procs.storeAll serde login r evs next) s := by
  induction evs generalizing s with
  | nil => exact h s (hgrants.refl s) (by simp)
  | cons ev evs ih =>
    -- what is left of the page starts from a store that has this event
    have hrest : ∀ s', track s s' → (Renderable serde truth login.us r ev →
        Stored serde truth login.us r s'.db ev) →
        Sound rules Change.exec note outline k (Procs.storeAll serde login r evs next) s' := by
      intro s' hs' hstored
      refine ih fun s'' hs'' hevs => h s'' (hgrants.trans hs' hs'') fun x hx hrender => ?_
      rcases List.mem_cons.mp hx with rfl | hx
      · exact hgrants.grows hs'' r x (hstored hrender)
      · exact hevs x hx hrender
    refine hgrants.convertEvent fun s' m hs' hnone hsome => ?_
    rcases m with _ | m
    · exact hrest s' hs' (hnone rfl)
    · have hsteady : Steady room (.store login.number (.insertMessage m)) := by simp [Steady, Quiet]
      refine hgrants.toKeeps.write (by simpa using hsteady) fun s'' os hs'' hall htrack => ?_
      refine hrest _ (hgrants.trans hs' (hgrants.trans hs'' htrack)) fun _ => Or.inl ?_
      obtain ⟨rng, heq⟩ := carry_single hall s''
      rw [heq, ← hsome m rfl]
      exact lookup_insertMessage m

/-- **A timeline is converted**: every event is recorded, or its message is among those to store. -/
theorem Grants.convertAll {evs : List RoomEvent} {msgs : List Message}
    {next : List Message → DaemonProc S} {s : Shared S}
    (h : ∀ s' msgs', track s s' → (∀ m ∈ msgs, m ∈ msgs') → (∀ ev ∈ evs,
      Renderable serde truth login.us r ev → Stored serde truth login.us r s'.db ev ∨
        ∃ m ∈ msgs', m.eventId = ev.eventId) →
      Sound rules Change.exec note outline k (next msgs') s') :
    Sound rules Change.exec note outline k (Procs.convertAll serde login r evs msgs next) s := by
  induction evs generalizing msgs s with
  | nil => exact h s msgs (hgrants.refl s) (fun m hm => hm) (by simp)
  | cons ev evs ih =>
    refine hgrants.convertEvent fun s' m hs' hnone hsome => ?_
    refine ih fun s'' msgs' hs'' hmsgs hevs => h s'' msgs' (hgrants.trans hs' hs'') ?_ ?_
    · exact fun x hx => hmsgs x (List.mem_append_left _ hx)
    · intro x hx hrender
      rcases List.mem_cons.mp hx with rfl | hx
      · rcases m with _ | m
        · exact Or.inl (hgrants.grows hs'' r x (hnone rfl hrender))
        · exact Or.inr ⟨m, hmsgs m (by simp), hsome m rfl⟩
      · exact hevs x hx hrender

end Rules

/-- **An outline under which what is stored stays**, with an invariant of the store. -/
def growing (serde : SerdeJson) (truth : Opens) (login : Login) (I : Store S → Prop) :
    Outline (Shared S) Unit where
  inv s := Knows truth s ∧ I s.db
  rely _ s s' := Grows serde truth login s s'
  beside _ _ := True
  refl _ _ := fun _ _ h => h
  trans h h' := h.trans h'
  symm _ := trivial

/-- It grants what storing takes, where the quiet operations keep the invariant. -/
theorem grants_growing {I : Store S → Prop}
    (h : ∀ (s : Shared S) rng op, Quiet room op → I s.db → I (op.exec rng s.db)) :
    Grants serde truth login room (growing serde truth login I) () (Grows serde truth login) where
  refl _ := fun _ _ h => h
  trans h h' := h.trans h'
  grows h := h
  rely h := h
  knows h := h.1
  writes {s w} rng hinv hw := by
    rcases w with ⟨n, op⟩ | ⟨n, r, jr, row⟩ | _ | _ | _ | _
    · have hgrows := @grows_exec S serde truth login op hw.1.1 n rng s
      exact ⟨⟨⟨hinv.1, h s rng op hw.1 hinv.2⟩, fun _ _ => hgrows⟩, hgrows⟩
    · have hgrows := @grows_storeRoom S serde truth login n r jr row rng s
      exact ⟨⟨⟨hinv.1, h s rng _ (quiet_upsertRoom row) hinv.2⟩, fun _ _ => hgrows⟩, hgrows⟩
    · exact hw.elim
    · exact hw.elim
    · exact hw.elim
    · exact ⟨⟨hinv, fun _ _ _ _ h => h⟩, fun _ _ h => h⟩
  notes q r hinv _ := by
    rcases q with _ | _ | _ | _ | _ | _ | _ | _ | _ | _ | _
    all_goals exact ⟨⟨hinv, fun _ _ _ _ h => h⟩, fun _ _ h => h⟩

/-- The messages of a section that succeeds are stored. -/
theorem stored_carry {n : ℕ} {msgs : List Message} {m : Message} (hm : m ∈ msgs) {os : List Salts}
    (hall : msgs.length ≤ os.length) (s : Shared S) :
    ∃ row, (carry Change.exec s (msgs.map fun m => .store n (.insertMessage m)) os).db.db.messages.lookup
      m.eventId = some row := by
  induction msgs generalizing s os with
  | nil => simp at hm
  | cons x msgs ih =>
    rcases os with _ | ⟨o, os⟩
    · simp at hall
    · have hstep : carry Change.exec s ((x :: msgs).map fun m => .store n (.insertMessage m)) (o :: os) =
          carry Change.exec (Change.exec o s (.store n (.insertMessage x)))
            (msgs.map fun m => .store n (.insertMessage m)) os := rfl
      rw [hstep]
      rcases List.mem_cons.mp hm with rfl | hm
      · have hkeep : ∀ (ms : List Message) (os : List Salts) (s : Shared S),
            (∃ row, s.db.db.messages.lookup m.eventId = some row) → ∃ row, (carry Change.exec s
              (ms.map fun m => .store n (.insertMessage m)) os).db.db.messages.lookup m.eventId =
                some row := by
          intro ms
          induction ms with
          | nil => exact fun _ _ h => h
          | cons y ms ih' =>
            intro os s h
            rcases os with _ | ⟨o, os⟩
            · exact h
            · obtain ⟨row, hrow⟩ := h
              exact ih' os _ (messages_exec (show StoreOp.insertMessage y ≠ .clear by simp) hrow)
        exact hkeep msgs os _ (lookup_insertMessage m)
      · exact ih hm (by simpa using hall) _

end Sound

/-! ### Stretches -/

section Stretch
variable {S : CipherSuite} {serde : SerdeJson} {truth : Opens} {login : Login} {room : String}
  (events : ℕ → RoomEvent)

/-- The `k` events before position `p`, newest first. -/
def stretch (p k : ℕ) : List RoomEvent := (List.range k).map fun i => events (p - 1 - i)

/-- The events from position `q` up to `n`, oldest first. -/
def span (q n : ℕ) : List RoomEvent := (List.range (n - q)).map fun i => events (q + i)

variable {events}

theorem covered_grows {s s' : Shared S} (h : Grows serde truth login s s') {low high : ℕ}
    (hc : Covered serde truth login.us room events s.db low high) :
    Covered serde truth login.us room events s'.db low high :=
  fun i hlow hhigh hrender => h room _ (hc i hlow hhigh hrender)

theorem covered_append {st : Store S} {a b c : ℕ}
    (h : Covered serde truth login.us room events st a b)
    (h' : Covered serde truth login.us room events st b c) :
    Covered serde truth login.us room events st a c := by
  intro i hlow hhigh hrender
  rcases Nat.lt_or_ge i b with hi | hi
  · exact h i hlow hi hrender
  · exact h' i hi hhigh hrender

/-- A stored page covers its stretch. -/
theorem covered_stretch {st : Store S} {p k : ℕ} (hk : k ≤ p)
    (h : ∀ ev ∈ stretch events p k, Renderable serde truth login.us room ev →
      Stored serde truth login.us room st ev) :
    Covered serde truth login.us room events st (p - k) p := by
  intro i hlow hhigh hrender
  refine h (events i) (List.mem_map.mpr ⟨p - 1 - i, List.mem_range.mpr (by omega), ?_⟩) hrender
  have hi : p - 1 - (p - 1 - i) = i := by omega
  rw [hi]

theorem covered_span {st : Store S} {q n : ℕ}
    (h : ∀ ev ∈ span events q n, Renderable serde truth login.us room ev →
      Stored serde truth login.us room st ev) :
    Covered serde truth login.us room events st q n := by
  intro i hlow hhigh hrender
  refine h (events i) (List.mem_map.mpr ⟨i - q, List.mem_range.mpr (by omega), ?_⟩) hrender
  rw [Nat.add_sub_cancel' hlow]

end Stretch

/-! ### A plain room -/

/-- Nothing parses: every plaintext is malformed. -/
def noPlaintext : SerdeJson := ⟨fun _ => none, fun _ => ""⟩

/-- Without crypto state nothing is written. -/
def idleLayer {S : CipherSuite} : Layer S where
  toDevice _ _ := ([], [])
  adopt _ _ _ := []
  wantsUpload _ _ := false
  markPublished _ := []
  hasOutbound _ _ := .error "no crypto state"
  needsSession _ _ := false
  createOutboundOlm _ _ := ([], false)
  encryptRoomKey _ _ _ := ([], false)
  encrypt _ _ := ([], false)
  ofKeys_toDevice := by simp
  ofKeys_adopt := by simp
  ofKeys_markPublished := by simp
  ofKeys_createOutboundOlm := by simp
  ofKeys_encryptRoomKey := by simp
  ofKeys_encrypt := by simp

/-- A name for a number. -/
def tally (i : ℕ) : String := String.ofList (List.replicate i 'I')

@[simp] theorem length_tally (i : ℕ) : (tally i).length = i := by simp [tally]

theorem tally_inj {i j : ℕ} (h : tally i = tally j) : i = j := by
  rw [← length_tally i, h, length_tally]

/-- The `i`-th event of a room in which only plain messages are sent. -/
def said (i : ℕ) : RoomEvent :=
  { kind := "m.room.message", sender := "@peer", eventId := tally i, content := { body := some "text" } }

theorem renderable_said (truth : Opens) (us room : String) (i : ℕ) :
    Renderable noPlaintext truth us room (said i) := by
  left
  simp [Convert.convertEvent, said, convertContent, recordIfEdit]

theorem stored_said {S : CipherSuite} {truth : Opens} {us room : String} {st : Store S} {i : ℕ}
    (h : Stored noPlaintext truth us room st (said i)) :
    ∃ row, st.db.messages.lookup (tally i) = some row := by
  rcases h with h | ⟨e, he, -⟩
  · exact h
  · simp [Convert.convertEvent, said, convertContent, recordIfEdit] at he

end Kmatrix.Daemon.Backlog
