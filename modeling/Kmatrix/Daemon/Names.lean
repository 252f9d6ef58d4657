import Kmatrix.Daemon.Downgrade
import Kmatrix.Storage.Plain

/-! # The name of a room, batch by batch

The name column of a room is written in two places: at the end of the room's part of a sync round, as
`nameAfter` computes it from the name that was read and the batch, and by the naming sweep. The batches
that were stored are in the log, so what holds of the name is a relation to the batches so far: `Watch`
says what a batch and a renaming have to preserve, and `Watch.run` that every run does.

The sync thread runs its procedures one at a time; whatever leaves the names alone runs beside it. -/

namespace Kmatrix.Daemon.Names

open Kmatrix.Lib.Keyed Kmatrix.Lib.Threads Kmatrix.Daemon.Procs Kmatrix.Daemon.Naming
open Kmatrix.Storage Kmatrix.Storage.Seal Kmatrix.Storage.Schema Kmatrix.Storage.Plain
open Kmatrix.Storage.Write (StoreOp)
open Kmatrix.Sync Kmatrix.Sync.Plaintext Kmatrix.Sync.Events Kmatrix.Sync.Convert Kmatrix.Sync.Process

/-! ### The name after a batch -/

/-- **The name of a room after a batch**, by the name it had. -/
def nameAfter (room name : String) (jr : JoinedRoom) : String :=
  (applyHeroes jr (jr.state.foldl applyState { newRoom room with name := name })).name

/-- A state event looks at the id and the name only. -/
theorem applyState_congr {a b : Room} (hid : a.id = b.id) (hname : a.name = b.name) (ev : RoomEvent) :
    (applyState a ev).id = (applyState b ev).id ∧ (applyState a ev).name = (applyState b ev).name := by
  obtain ⟨id, name, encrypted, unread, lastTs, lastPreview⟩ := a
  obtain ⟨id', name', encrypted', unread', lastTs', lastPreview'⟩ := b
  dsimp only at hid hname
  subst hid hname
  unfold applyState
  dsimp only
  split_ifs
  · split
    · split_ifs
      · exact ⟨rfl, rfl⟩
      · exact ⟨rfl, rfl⟩
    · exact ⟨rfl, rfl⟩
  · split
    · exact ⟨rfl, rfl⟩
    · exact ⟨rfl, rfl⟩
  · exact ⟨rfl, rfl⟩
  · exact ⟨rfl, rfl⟩
  · exact ⟨rfl, rfl⟩

theorem foldl_applyState_congr {a b : Room} (hid : a.id = b.id) (hname : a.name = b.name)
    (evs : List RoomEvent) : (evs.foldl applyState a).id = (evs.foldl applyState b).id ∧
      (evs.foldl applyState a).name = (evs.foldl applyState b).name := by
  induction evs generalizing a b with
  | nil => exact ⟨hid, hname⟩
  | cons ev evs ih =>
    obtain ⟨hid', hname'⟩ := applyState_congr hid hname ev
    exact ih hid' hname'

theorem applyHeroes_congr {a b : Room} (hid : a.id = b.id) (hname : a.name = b.name) (jr : JoinedRoom) :
    (applyHeroes jr a).name = (applyHeroes jr b).name := by
  unfold applyHeroes
  rw [hid, hname]
  split_ifs
  · split
    · rfl
    · exact hname
  · exact hname

/-- **The row a sync round writes** has the name after the batch. -/
theorem finishRoom_name (jr : JoinedRoom) (msgs : List Message) (stored : Room) :
    (finishRoom jr msgs stored).name = nameAfter stored.id stored.name jr := by
  have hname : (finishRoom jr msgs stored).name =
      (applyHeroes jr (jr.state.foldl applyState stored)).name := by
    unfold finishRoom
    dsimp only
    split
    · rfl
    · rfl
  obtain ⟨hid', hname'⟩ :=
    @foldl_applyState_congr stored { newRoom stored.id with name := stored.name } rfl rfl jr.state
  exact hname.trans (applyHeroes_congr hid' hname' jr)

/-! ### The stored name -/

section Store
variable {S : CipherSuite} {st : Store S} {rng : Salts} {op : StoreOp} {room : String}

/-- **The stored name** of the room, unsealed. -/
def nameOf (st : Store S) (room : String) : Option String :=
  (st.db.rooms.lookup room).bind fun row => content st row.name

theorem nameOf_congr {st' : Store S} (hkey : st'.key = st.key)
    (hrow : (st'.db.rooms.lookup room).map RoomRow.name = (st.db.rooms.lookup room).map RoomRow.name) :
    nameOf st' room = nameOf st room := by
  have hname : ∀ s : Store S, nameOf s room =
      ((s.db.rooms.lookup room).map RoomRow.name).bind (content s) := by
    intro s
    unfold nameOf
    rw [Option.bind_map]
    rfl
  rw [hname, hname, hrow, content_congr hkey]

theorem name_modify {f : RoomRow String → RoomRow String} (hf : ∀ row, (f row).name = row.name) (r : String) :
    ((st.db.rooms.modify r f).lookup room).map RoomRow.name =
      (st.db.rooms.lookup room).map RoomRow.name := by
  rw [Table.lookup_modify]
  split_ifs
  · rw [Option.map_map]
    exact congrArg (fun g => (st.db.rooms.lookup room).map g) (funext hf)
  · rfl

/-- Only the row itself has the name. -/
theorem nameOf_exec (hclear : op ≠ .clear) (hupsert : ∀ r, op = .upsertRoom r → r.id ≠ room) :
    nameOf (op.exec rng st) room = nameOf st room := by
  rcases op with _ | _ | r | _ | _ | ⟨t, ts, body⟩ | _ | _ | ⟨r, token⟩ | ⟨r, token, done⟩ | _
  · rfl
  · rfl
  · have hr : ¬ room = r.id := fun h => hupsert r rfl h.symm
    refine nameOf_congr rfl ?_
    simp only [StoreOp.exec, Write.upsertRoom, Write.upsertRoomStmt, Table.lookup_upsert, if_neg hr]
  · rfl
  · rfl
  · simp only [StoreOp.exec, Write.recordEdit, Write.recordEditStmt]
    split_ifs
    · rfl
    · rfl
  · rfl
  · rfl
  · simp only [StoreOp.exec, Write.seedBackToken, Write.seedBackTokenStmt]
    split
    · split_ifs
      · refine nameOf_congr rfl (name_modify (fun _ => ?_) r)
        rfl
      · rfl
    · rfl
  · refine nameOf_congr rfl (name_modify (fun _ => ?_) r)
    rfl
  · exact absurd rfl hclear

theorem nameOf_upsert (r : Room) : nameOf ((StoreOp.upsertRoom r).exec rng st) r.id = some r.name := by
  have hcell : ∀ db : Tables String, content (⟨db, st.key⟩ : Store S) (st.protect (rng 0) r.name) =
      some r.name := by
    intro db
    rw [content_congr (show (⟨db, st.key⟩ : Store S).key = st.key from rfl)]
    exact content_protect st (rng 0) r.name
  simp only [nameOf, StoreOp.exec, Write.upsertRoom, Write.upsertRoomStmt, Table.lookup_upsert, if_pos]
  rcases st.db.rooms.lookup r.id with _ | row
  · exact hcell _
  · exact hcell _

/-- A row that is read has its stored name. -/
theorem readRoom_name {p : String × RoomRow String} {r : Room} (h : Read.readRoom st p = .ok r) :
    content st p.2.name = some r.name := by
  unfold Read.readRoom at h
  rcases hname : st.reveal "room.name" p.2.name with e | name
  · simp [hname, bind, Except.bind] at h
  · rcases hpreview : st.reveal "room.last_preview" p.2.lastPreview with e | preview
    · simp [hname, hpreview, bind, Except.bind] at h
    · simp only [hname, hpreview, bind, Except.bind, pure, Except.pure, Except.ok.injEq] at h
      subst h
      have hlook := reveal_ok.mp hname
      unfold content
      rcases hkey : st.key with _ | key
      · -- without a key a text that can be read is what is stored
        unfold look unsealValue at hlook
        rw [hkey] at hlook
        rcases hmarked : stripPrefix p.2.name encPrefix with _ | rest
        · rw [hmarked] at hlook
          exact hlook
        · rw [hmarked] at hlook
          simp [Except.toOption] at hlook
      · exact hlook

theorem getRoom_name {stored : Option Room} (h : Read.getRoom st room = .ok stored) :
    (stored.getD (newRoom room)).name = (nameOf st room).getD room := by
  unfold Read.getRoom at h
  rcases hrow : st.db.rooms.lookup room with _ | row
  · simp only [hrow, Except.ok.injEq] at h
    subst h
    simp [nameOf, hrow, newRoom]
  · simp only [hrow] at h
    rcases hread : Read.readRoom st (room, row) with e | r
    · simp [hread, Except.map] at h
    · simp only [hread, Except.map, Except.ok.injEq] at h
      subst h
      simp [nameOf, hrow, readRoom_name hread]

/-- A listed room has its stored name. -/
theorem listRooms_name {rooms : List Room} (h : Read.listRooms st = .ok rooms) :
    ∀ x ∈ rooms, nameOf st x.id = some x.name := by
  intro x hx
  obtain ⟨p, hp, hread⟩ := (Downgrade.mem_of_mapM h).2 x hx
  rw [Read.roomRows, List.mem_insertionSort] at hp
  have hlookup : st.db.rooms.lookup p.1 = some p.2 := Table.mem_entries.mp hp
  rw [← (Downgrade.readRoom_ok hread).1] at hlookup
  simp [nameOf, hlookup, readRoom_name hread]

end Store

/-! ### Who may write the name -/

/-- The batches of the room that were stored, in their order. -/
def batches (room : String) (log : List Mark) : List JoinedRoom := log.filterMap fun
  | .stored r jr => if r = room then some jr else none
  | _ => none

/-- The sync thread, and the other calls. -/
inductive Role where
  | sync
  | aside

/-- A write that leaves the name of the room alone, and stores no batch of it. -/
def Plain (room : String) : Change → Prop
  | .store _ op => op ≠ .clear ∧ ∀ r, op = .upsertRoom r → r.id ≠ room
  | .storeRoom _ r _ row => r ≠ room ∧ row.id ≠ room
  | .mark m => ∀ jr, m ≠ .stored room jr
  | _ => True

/-- **What is watched**: what is to `hold` of the batches so far and the stored name, which batches may
come, where a sweep may rename the room, what the server says when it is asked for the name, and whether
there are sweeps at all. -/
structure Watch where
  holds : List JoinedRoom → Option String → Prop
  takes : List JoinedRoom → Option String → JoinedRoom → Prop
  renames : List JoinedRoom → Prop
  given : List JoinedRoom → Option String → Prop
  sweeps : Prop

/-- **What has to be preserved.** A sweep has the name from when it listed the rooms. -/
structure Watch.Preserved (watch : Watch) (room us : String) : Prop where
  batch : ∀ bs name jr, watch.holds bs name → watch.takes bs name jr →
    watch.holds (bs ++ [jr]) (some (nameAfter room (name.getD room) jr))
  rename : watch.sweeps → ∀ bs listed name given partner bridge members wanted,
    watch.holds bs (some listed) → watch.holds bs name →
    (watch.given bs given ∨ (listed = room ∧ given = none)) →
    wantedName us bridge given partner members = some wanted → listed ≠ wanted → watch.renames bs →
    watch.holds bs (some wanted)

section Watch
variable {S : CipherSuite} (serde : SerdeJson) (layer : Layer S) (login : Login) (room : String)
  (watch : Watch)

/-- **What may happen**: the sync thread runs sync rounds and, where there are any, naming sweeps, one at
a time; beside it runs whatever leaves the name alone, as `do_load_older` does. -/
def rules : Rules (Shared S) Change Request Reply Role where
  sections s ws :=
    (∀ n jr row, .storeRoom n room jr row ∈ ws →
      watch.takes (batches room s.log) (nameOf s.db room) jr) ∧
    ∀ n row, .store n (.upsertRoom row) ∈ ws → row.id = room → watch.renames (batches room s.log)
  answers s q r := match q, r with
    | .roomName r, .ok given => r = room → watch.given (batches room s.log) given
    | _, _ => True
  starts p k q := match k with
    | .sync => (q = syncOnce serde layer login ∨ (watch.sweeps ∧ q = backfillRoomNames login)) ∧
        ∀ x ∈ p.procs, x.1 ≠ .sync
    | .aside => (∃ r limit, q = loadOlder serde login r limit) ∨ q.Only (Plain room) fun _ => True
  changes s s' := s'.db = s.db ∧ s'.log = s.log

/-- What the others leave as it is. -/
def Same (s s' : Shared S) : Prop :=
  batches room s'.log = batches room s.log ∧ nameOf s'.db room = nameOf s.db room

variable {room} in
theorem Same.trans {s s' s'' : Shared S} (h : Same room s s') (h' : Same room s' s'') : Same room s s'' :=
  ⟨h'.1.trans h.1, h'.2.trans h.2⟩

/-- **The outline**: beside the sync thread nobody writes the name. -/
def outline : Outline (Shared S) Role where
  inv s := watch.holds (batches room s.log) (nameOf s.db room)
  rely k s s' := match k with
    | .sync => Same room s s'
    | .aside => True
  beside
    | .sync, .sync => False
    | _, _ => True
  refl k s := by
    rcases k with _ | _
    · exact ⟨rfl, rfl⟩
    · trivial
  trans {k s s' s''} h h' := by
    rcases k with _ | _
    · exact h.trans h'
    · trivial
  symm {k k'} h := by
    rcases k with _ | _ <;> rcases k' with _ | _
    all_goals exact h

variable {serde layer login room watch}

theorem batches_append (log : List Mark) {m : Mark} (h : ∀ jr, m ≠ .stored room jr) :
    batches room (log ++ [m]) = batches room log := by
  have hm : batches room [m] = [] := by
    rcases m with ⟨r, jr⟩ | _ | _
    · have hr : r ≠ room := fun hr => h jr (by rw [hr])
      simp [batches, hr]
    · rfl
    · rfl
  unfold batches at hm ⊢
  rw [List.filterMap_append, hm, List.append_nil]

/-- A plain write leaves the name and the batches as they are. -/
theorem same_plain {w : Change} (hw : Plain room w) (rng : Salts) (s : Shared S) :
    Same room s (Change.exec rng s w) := by
  rcases w with ⟨n, op⟩ | ⟨n, r, jr, row⟩ | _ | _ | _ | m
  · exact ⟨rfl, nameOf_exec hw.1 hw.2⟩
  · refine ⟨batches_append s.log (by simp [hw.1]), nameOf_exec (by simp) fun r' heq => ?_⟩
    obtain rfl : row = r' := by simpa using heq
    exact hw.2
  · exact ⟨rfl, rfl⟩
  · exact ⟨rfl, rfl⟩
  · exact ⟨rfl, rfl⟩
  · exact ⟨batches_append s.log hw, rfl⟩

theorem same_note (q : Request) (r : Reply q) (s : Shared S) : Same room s (note q r s) := by
  rcases q with _ | _ | _ | _ | _ | _ | _ | _ | ⟨call, r', kind⟩ | _ | _ | _
  all_goals first | exact ⟨rfl, rfl⟩ | skip
  exact ⟨batches_append s.log (by simp), rfl⟩

theorem allows_same (k : Role) {s s' : Shared S} (hinv : (outline room watch : Outline (Shared S) Role).inv s)
    (h : Same room s s') : (outline room watch).Allows k s s' := by
  refine ⟨?_, fun k' _ => ?_⟩
  · unfold outline
    dsimp only
    rw [h.1, h.2]
    exact hinv
  · rcases k' with _ | _
    · exact h
    · trivial

/-- What the sync thread keeps beside the others. -/
theorem keeps_sync : Keeps Change.exec note (outline room watch : Outline (Shared S) Role) .sync
    (Plain room) (fun _ => True) (Same room) where
  refl _ := ⟨rfl, rfl⟩
  trans h h' := h.trans h'
  rely h := h
  writes rng hinv hw := ⟨allows_same .sync hinv (same_plain hw rng _), same_plain hw rng _⟩
  notes q r hinv _ := ⟨allows_same .sync hinv (same_note q r _), same_note q r _⟩

/-- A sweep renames, but stores no batches. -/
theorem keeps_sweep : Keeps Change.exec note (outline room watch : Outline (Shared S) Role) .sync
    (Plain room) (fun _ => True) (fun s s' => batches room s'.log = batches room s.log) where
  refl _ := rfl
  trans h h' := h'.trans h
  rely h := h.1
  writes rng hinv hw := ⟨allows_same .sync hinv (same_plain hw rng _), (same_plain hw rng _).1⟩
  notes q r hinv _ := ⟨allows_same .sync hinv (same_note q r _), (same_note q r _).1⟩

theorem keeps_aside : Keeps Change.exec note (outline room watch : Outline (Shared S) Role) .aside
    (Plain room) (fun _ => True) (fun _ _ => True) where
  refl _ := trivial
  trans _ _ := trivial
  rely _ := trivial
  writes rng hinv hw := ⟨allows_same .aside hinv (same_plain hw rng _), trivial⟩
  notes q r hinv _ := ⟨allows_same .aside hinv (same_note q r _), trivial⟩

theorem plain_key {n : ℕ} {op : StoreOp} (h : OfKeys op) : Plain room (.store n op) := by
  rcases op with _ | _ | _ | _ | _ | _ | _ | _ | _ | _ | _
  all_goals first | exact h.elim | simp [Plain]

/-! ### The sync thread -/

/-- **The row of a batch**: the name after the batch is stored with it. -/
theorem allows_storeRoom {s : Shared S} {rng : Salts} {n : ℕ} {jr : JoinedRoom} {row : Room}
    (hpreserved : watch.Preserved room login.us)
    (hinv : (outline room watch : Outline (Shared S) Role).inv s) (hid : row.id = room)
    (hname : row.name = nameAfter room ((nameOf s.db room).getD room) jr)
    (htakes : watch.takes (batches room s.log) (nameOf s.db room) jr) :
    (outline room watch).Allows .sync s (Change.exec rng s (.storeRoom n room jr row)) := by
  refine ⟨?_, fun k' hk' => ?_⟩
  · have hbatches : batches room (s.log ++ [.stored room jr]) = batches room s.log ++ [jr] := by
      unfold batches
      rw [List.filterMap_append]
      simp
    have hnew : nameOf ((StoreOp.upsertRoom row).exec rng s.db) room = some row.name := by
      rw [← hid]
      exact nameOf_upsert row
    have hholds := hpreserved.batch _ _ jr hinv htakes
    rw [← hname, ← hbatches, ← hnew] at hholds
    exact hholds
  · rcases k' with _ | _
    · exact hk'.elim
    · trivial

/-- **One room of a batch.** Between the read and the write of the row nobody else writes the name. -/
theorem sound_processRoom (hpreserved : watch.Preserved room login.us) {r : String} {jr : JoinedRoom}
    {next : DaemonProc S}
    (h : ∀ s, Sound (rules serde layer login room watch) Change.exec note (outline room watch) .sync next s)
    (s : Shared S) : Sound (rules serde layer login room watch) Change.exec note (outline room watch) .sync
      (processRoom serde login r jr next) s := by
  refine sound_processRoom_of_keeps keeps_sync (fun e => by simp [Plain, Edit.op]) (by simp [Plain])
    fun s₁ stored msgs s₂ hstored _ hs₂ => ?_
  refine sound_write (fun s₃ hs₃ hinv₃ hsections os => ?_) fun _ _ _ _ _ => h _
  obtain ⟨hid, -⟩ := Downgrade.getRoom_ok hstored
  obtain ⟨hrow, -⟩ := Downgrade.finishRoom_row jr msgs (stored.getD (newRoom r))
  have hseed : ∀ w ∈ jr.prevBatch.toList.map fun prev => Change.store login.number (.seedBackToken r prev),
      Plain room w := by
    intro w hw
    obtain ⟨prev, -, rfl⟩ := List.mem_map.mp hw
    simp [Plain]
  have hinsert : ∀ w ∈ msgs.map fun m => Change.store login.number (.insertMessage m), Plain room w := by
    intro w hw
    obtain ⟨m, -, rfl⟩ := List.mem_map.mp hw
    simp [Plain]
  by_cases hr : r = room
  · subst hr
    -- the messages, the row, and the edge, one after the other
    rw [roomWrites_eq, carry_append, carry_append]
    obtain ⟨hallows₄, hs₄⟩ := keeps_sync.steps hinv₃ hinsert os
    have hsame := hs₂.trans (Same.trans hs₃ hs₄)
    have hmiddle : ∀ os', (outline r watch).Allows .sync
        (carry Change.exec s₃ (msgs.map fun m => .store login.number (.insertMessage m)) os)
        (carry Change.exec (carry Change.exec s₃ (msgs.map fun m => .store login.number (.insertMessage m)) os)
          [.storeRoom login.number r jr (finishRoom jr msgs (stored.getD (newRoom r)))] os') := by
      rintro (_ | ⟨rng, os'⟩)
      · exact ⟨hallows₄.1, fun k' _ => (outline r watch).refl k' _⟩
      · refine allows_storeRoom (n := login.number) hpreserved hallows₄.1 (hrow.trans hid) ?_ ?_
        · rw [finishRoom_name, hid, getRoom_name hstored, hsame.2]
        · rw [hs₄.1, hs₄.2]
          exact hsections.1 login.number jr (finishRoom jr msgs (stored.getD (newRoom r)))
            (by simp [roomWrites])
    have hrow₄ := hmiddle (os.drop (msgs.map fun m => Change.store login.number (.insertMessage m)).length)
    exact (hallows₄.trans hrow₄).trans (keeps_sync.steps hrow₄.1 hseed _).1
  · refine (keeps_sync.steps hinv₃ (fun w hw => ?_) os).1
    rw [roomWrites_eq, List.mem_append, List.mem_append, List.mem_singleton] at hw
    rcases hw with (hw | rfl) | hw
    · exact hinsert w hw
    · exact ⟨hr, fun heq => hr (hid.symm.trans (hrow.symm.trans heq))⟩
    · exact hseed w hw

/-- **A renaming** by a sweep that listed the room under the name `listed`. -/
theorem sound_rename (hpreserved : watch.Preserved room login.us) (hsweeps : watch.sweeps) {s : Shared S}
    {x : Room} {given partner : Option String} {bridge : List String} {members : Members} {wanted : String}
    {next : DaemonProc S}
    (hknown : x.id = room → watch.holds (batches room s.log) (some x.name))
    (htold : x.id = room → watch.given (batches room s.log) given ∨ (x.name = room ∧ given = none))
    (hwanted : wantedName login.us bridge given partner members = some wanted) (hne : x.name ≠ wanted)
    (h : ∀ s' : Shared S, batches room s'.log = batches room s.log →
      Sound (rules serde layer login room watch) Change.exec note (outline room watch) .sync next s') :
    Sound (rules serde layer login room watch) Change.exec note (outline room watch) .sync
      (rename login x.id wanted next) s := by
  refine Naming.sound_rename_of_section fun s₁ hs₁ hinv₁ hsections os => ?_
  have hbatches₁ : batches room s₁.log = batches room s.log := hs₁.1
  have hsame : (outline room watch : Outline (Shared S) Role).Allows .sync s₁ s₁ :=
    ⟨hinv₁, fun k' _ => (outline room watch).refl k' s₁⟩
  have hallows : (outline room watch).Allows .sync s₁
      (carry Change.exec s₁ (renamed login s₁ x.id wanted) os) ∧
      (carry Change.exec s₁ (renamed login s₁ x.id wanted) os).log = s₁.log := by
    unfold renamed at hsections ⊢
    split at hsections
    · next stored hstored =>
      rcases os with _ | ⟨rng, os⟩
      · exact ⟨hsame, rfl⟩
      · obtain ⟨hid, -⟩ := Downgrade.getRoom_ok hstored
        rw [Option.getD_some] at hid
        refine ⟨?_, rfl⟩
        by_cases hr : x.id = room
        · have hrenames := hsections.2 login.number { stored with name := wanted } List.mem_cons_self
            (hid.trans hr)
          have hnew : nameOf ((StoreOp.upsertRoom { stored with name := wanted }).exec rng s₁.db) room =
              some wanted := by
            rw [← hr, ← hid]
            exact nameOf_upsert { stored with name := wanted }
          refine ⟨?_, fun k' hk' => ?_⟩
          · have hholds := hpreserved.rename hsweeps _ _ _ given partner bridge members wanted
              (hbatches₁ ▸ hknown hr) hinv₁ (hbatches₁ ▸ htold hr) hwanted hne hrenames
            rw [← hnew] at hholds
            exact hholds
          · rcases k' with _ | _
            · exact hk'.elim
            · trivial
        · refine (keeps_sync.writes (w := .store login.number _) rng hinv₁ ⟨by simp, fun r' heq h' => hr ?_⟩).1
          obtain rfl := StoreOp.upsertRoom.inj heq
          exact hid.symm.trans h'
    · exact ⟨hsame, rfl⟩
  exact ⟨hallows.1, h _ (by rw [hallows.2, hbatches₁])⟩

/-- What a sweep knows of a listed room, and of what it was told about its name. -/
theorem grants_sweep (hpreserved : watch.Preserved room login.us) (hsweeps : watch.sweeps) :
    Naming.Grants login (rules serde layer login room watch) (outline room watch : Outline (Shared S) Role)
      .sync (Plain room) (fun _ => True) (fun s s' => batches room s'.log = batches room s.log)
      (fun s x => x.id = room → watch.holds (batches room s.log) (some x.name))
      (fun s x given => (x.id = room → watch.holds (batches room s.log) (some x.name)) ∧
        (x.id = room → watch.given (batches room s.log) given ∨ (x.name = room ∧ given = none))) where
  fine _ _ := trivial
  members _ _ := by simp [Plain]
  metas _ _ := by simp [Plain]
  list s rooms hinv hrooms x hx hid := by
    have hname := listRooms_name hrooms x hx
    rw [hid] at hname
    rw [← hname]
    exact hinv
  known_track s s' x hs h := by
    rw [hs]
    exact h
  told_track s s' x given hs h := by
    rw [hs]
    exact h
  asked s x given hknown hanswer := ⟨hknown, fun hid => Or.inl (hanswer hid)⟩
  unasked s x hknown hname := ⟨hknown, fun hid => Or.inr ⟨hname.trans hid, rfl⟩⟩
  rename s x given partner bridge members wanted next htold hwanted hne h :=
    sound_rename hpreserved hsweeps htold.1 htold.2 hwanted hne h

/-- What may happen fits the outline. -/
theorem fits_outline (hpreserved : watch.Preserved room login.us) :
    Fits (rules serde layer login room watch) Change.exec note
      (outline room watch : Outline (Shared S) Role) := by
  refine ⟨fun p k q hstart _ => ?_, fun s s' hchange hinv => ?_⟩
  · rcases k with _ | _
    · obtain ⟨hq, hsync⟩ := hstart
      refine ⟨?_, fun x hx => ?_⟩
      · rcases hq with rfl | ⟨hsweeps, rfl⟩
        · exact sound_syncOnce_of_keeps keeps_sync (fun _ => plain_key) (by simp [Plain]) (by simp)
            (fun r jr next hnext => sound_processRoom hpreserved hnext) _
        · exact sound_backfillRoomNames_of_keeps keeps_sweep (grants_sweep hpreserved hsweeps) _
      · rcases hrole : x.1 with _ | _
        · exact absurd hrole (hsync x hx)
        · trivial
    · refine ⟨?_, fun x _ => ?_⟩
      · rcases hstart with ⟨r, limit, rfl⟩ | hq
        · refine keeps_aside.only (only_loadOlder.mono (fun w hw => ?_) fun _ _ => trivial) _
          rcases w with ⟨n, op⟩ | _ | _ | _ | _ | _
          · obtain ⟨-, hop⟩ := hw
            rcases op with _ | _ | _ | _ | _ | _ | _ | _ | _ | _ | _
            all_goals first | exact hop.elim | simp [Plain]
          all_goals exact hw.elim
        · exact keeps_aside.only hq _
      · rcases x.1 with _ | _
        all_goals trivial
  · obtain ⟨hdb, hlog⟩ := hchange
    have hsame : Same room s s' := ⟨by rw [hlog], by rw [hdb]⟩
    refine ⟨(allows_same .aside hinv hsame).1, fun k => ?_⟩
    rcases k with _ | _
    · exact hsame
    · trivial

/-- **Every run preserves what a batch and a renaming preserve.** -/
theorem Watch.run (hpreserved : watch.Preserved room login.us) {p : Pool (Shared S) Change Request Reply Role}
    {run : List (Event (Shared S) Change Request Reply Role Salts)} (hprocs : p.procs = [])
    (hholds : watch.holds (batches room p.state.log) (nameOf p.state.db room))
    (hlawful : p.Lawful (rules serde layer login room watch) Change.exec note run) :
    watch.holds (batches room (p.runs Change.exec note run).state.log)
      (nameOf (p.runs Change.exec note run).state.db room) := by
  have hsane : Sane (rules serde layer login room watch) Change.exec note (outline room watch) p :=
    ⟨hholds, by simp [hprocs], by simp [hprocs]⟩
  exact (hsane.runs (fits_outline hpreserved) hlawful).inv

end Watch

/-! ### Runs in an empty store -/

def ours : Login := ⟨0, ⟨"https://example.org", "@us", "DEVICE", "token"⟩⟩

def fresh : Pool (Shared copySuite) Change Request Reply Role :=
  ⟨⟨E2ee.Effects.blankStore, none, none, none, []⟩, []⟩

/-- A server with one batch, that knows who is in the room and what it is called. -/
def serve (resp : SyncResponse) (name : Option String) : (q : Request) → Reply q
  | .sync _ => .ok resp
  | .messages _ _ _ => .error "timeout"
  | .keysUpload => .error "timeout"
  | .backupVersion => .error "timeout"
  | .joinedMembers _ => .error "timeout"
  | .keysQuery => .error "timeout"
  | .keysClaim => .error "timeout"
  | .sendToDevice _ => .error "timeout"
  | .sendEvent _ _ _ => .error "timeout"
  | .directRooms => .ok [("@bob:x", ["!r"])]
  | .roomName _ => .ok name
  | .memberNames _ => .ok [("@bob:x", some "Bob"), ("@us", none)]

/-- A round with all its sections. -/
def syncRound (jr : JoinedRoom) : List (Event (Shared copySuite) Change Request Reply Role Salts) :=
  [.start .sync (syncOnce Backlog.noPlaintext Backlog.idleLayer ours), .run 0 [],
    .answer 0 (serve ⟨[], ⟨"next", [("!r", jr)], List.nodup_singleton "!r"⟩, 50⟩ none)] ++
    List.replicate 7 (.run 0 [fun _ => zeroSalt])

/-- A sweep with all its sections. -/
def sweep (name : Option String) : List (Event (Shared copySuite) Change Request Reply Role Salts) :=
  [.start .sync (backfillRoomNames ours), .answer 0 (serve ⟨[], ⟨"next", [], List.nodup_nil⟩, 50⟩ name), .run 0 [],
    .run 0 [], .answer 0 (serve ⟨[], ⟨"next", [], List.nodup_nil⟩, 50⟩ name),
    .answer 0 (serve ⟨[], ⟨"next", [], List.nodup_nil⟩, 50⟩ name)] ++
    List.replicate 3 (.run 0 [fun _ => zeroSalt, fun _ => zeroSalt])

/-- What the runs here start, and that they change nothing else. -/
def Told (sweeps : Prop) : Event (Shared copySuite) Change Request Reply Role Salts → Prop
  | .start k q => k = .sync ∧
      (q = syncOnce Backlog.noPlaintext Backlog.idleLayer ours ∨ (sweeps ∧ q = backfillRoomNames ours))
  | .change _ => False
  | _ => True

theorem told_round (sweeps : Prop) (jr : JoinedRoom) : ∀ e ∈ syncRound jr, Told sweeps e := by
  intro e he
  simp only [syncRound, List.mem_append, List.mem_cons, List.not_mem_nil, or_false, List.mem_replicate] at he
  rcases he with (rfl | rfl | rfl) | ⟨-, rfl⟩
  · exact ⟨rfl, Or.inl rfl⟩
  · trivial
  · trivial
  · trivial

theorem told_sweep (name : Option String) : ∀ e ∈ sweep name, Told True e := by
  intro e he
  simp only [sweep, List.mem_append, List.mem_cons, List.not_mem_nil, or_false, List.mem_replicate] at he
  rcases he with (rfl | rfl | rfl | rfl | rfl | rfl) | ⟨-, rfl⟩
  · exact ⟨rfl, Or.inr ⟨trivial, rfl⟩⟩
  all_goals trivial

/-- A watch that can be evaluated. -/
structure Checks where
  takes : List JoinedRoom → Option String → JoinedRoom → Bool
  renames : List JoinedRoom → Bool
  given : List JoinedRoom → Option String → Bool

/-- The event is what the watch says, and nothing is started beside the sync thread. -/
def Checks.now (checks : Checks) (p : Pool (Shared copySuite) Change Request Reply Role) :
    Event (Shared copySuite) Change Request Reply Role Salts → Bool
  | .run i _ =>
    match p.procs[i]? with
    | some (_, .locked writes _) => (writes p.state).all fun
      | .storeRoom _ r jr _ => r ≠ "!r" ||
          checks.takes (batches "!r" p.state.log) (nameOf p.state.db "!r") jr
      | .store _ (.upsertRoom row) => row.id ≠ "!r" || checks.renames (batches "!r" p.state.log)
      | _ => true
    | _ => true
  | .answer i reply =>
    match p.procs[i]? with
    | some (_, .ask (.roomName r) _) =>
      match reply (.roomName r) with
      | .ok given => r ≠ "!r" || checks.given (batches "!r" p.state.log) given
      | .error _ => true
    | _ => true
  | .start _ _ => p.procs.isEmpty
  | _ => true

def Checks.all (checks : Checks) (p : Pool (Shared copySuite) Change Request Reply Role) :
    List (Event (Shared copySuite) Change Request Reply Role Salts) → Bool
  | [] => true
  | event :: run => checks.now p event && checks.all (p.step Change.exec note event) run

/-- Such a run may happen. -/
theorem lawful_of_checks {watch : Watch} {C : Checks}
    (htakes : ∀ bs name jr, C.takes bs name jr = true → watch.takes bs name jr)
    (hrenames : ∀ bs, C.renames bs = true → watch.renames bs)
    (hgiven : ∀ bs given, C.given bs given = true → watch.given bs given)
    {run : List (Event (Shared copySuite) Change Request Reply Role Salts)}
    {p : Pool (Shared copySuite) Change Request Reply Role} (htold : ∀ e ∈ run, Told watch.sweeps e)
    (hall : C.all p run = true) :
    p.Lawful (rules Backlog.noPlaintext Backlog.idleLayer ours "!r" watch) Change.exec note run := by
  induction run generalizing p with
  | nil => trivial
  | cons e run ih =>
    obtain ⟨he, hrun⟩ := List.forall_mem_cons.mp htold
    obtain ⟨hnow, hlater⟩ := Bool.and_eq_true_iff.mp hall
    refine ⟨?_, ih hrun hlater⟩
    rcases e with ⟨i, os⟩ | ⟨i, reply⟩ | i | ⟨k, q⟩ | s | _
    · intro k writes next hi
      simp only [Checks.now, hi, List.all_eq_true] at hnow
      refine ⟨fun n jr row hmem => htakes _ _ _ ?_, fun n row hmem hid => hrenames _ ?_⟩
      · simpa using hnow _ hmem
      · simpa [hid] using hnow _ hmem
    · intro k q next hi
      rcases q with _ | _ | _ | _ | _ | _ | _ | _ | _ | _ | r | _
      all_goals first | trivial | skip
      simp only [Checks.now, hi] at hnow
      rcases hreply : reply (.roomName r) with e | given
      · trivial
      · rw [hreply] at hnow
        intro hr
        exact hgiven _ _ (by simpa [hr] using hnow)
    · trivial
    · obtain ⟨rfl, hq⟩ := he
      exact ⟨hq, by simp [List.isEmpty_iff.mp hnow]⟩
    · exact he.elim
    · trivial

end Kmatrix.Daemon.Names
