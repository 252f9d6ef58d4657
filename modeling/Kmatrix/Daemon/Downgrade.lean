import Kmatrix.Daemon.Backlog
import Kmatrix.Daemon.Naming
import Kmatrix.Sync.Replay

/-! # Once encrypted, always encrypted

Whether a room is encrypted is a column of its row. The sync round reads the row, drops the lock, and
writes the whole row at the end; the naming sweep reads and writes it in one section. `do_send` looks at
the column once and takes a room it does not find for one that is not encrypted. So the column may only
ever be raised, and whoever looks after a batch with the encryption event was stored must see it.

`Role` says who runs beside whom: the sync thread runs one procedure at a time, everything else runs
beside it. -/

namespace Kmatrix.Daemon.Downgrade

open Kmatrix.Lib.Keyed Kmatrix.Lib.Threads Kmatrix.Daemon.Procs Kmatrix.Daemon.Naming
open Kmatrix.Daemon.Backlog (idleLayer noPlaintext)
open Kmatrix.E2ee.Effects (blankStore)
open Kmatrix.Storage Kmatrix.Storage.Seal Kmatrix.Storage.Schema
open Kmatrix.Storage.Write (StoreOp)
open Kmatrix.Sync Kmatrix.Sync.Plaintext Kmatrix.Sync.Events Kmatrix.Sync.Convert Kmatrix.Sync.Process

/-! ### The flag -/

section Flag
variable {S : CipherSuite} {st : Store S} {rng : Salts} {op : StoreOp} {room : String}

/-- The column of the room. -/
def flagOf (st : Store S) (room : String) : Option ℤ := (st.db.rooms.lookup room).map RoomRow.encrypted

/-- **The stored flag of the room is set.** -/
def Flagged (room : String) (st : Store S) : Prop := ∃ v, flagOf st room = some v ∧ v ≠ 0

theorem flagged_congr {st' : Store S} (h : flagOf st' room = flagOf st room) :
    Flagged room st' ↔ Flagged room st := by
  unfold Flagged
  rw [h]

theorem flagOf_modify {f : RoomRow String → RoomRow String} (hf : ∀ row, (f row).encrypted = row.encrypted)
    (r : String) :
    flagOf (⟨{ st.db with rooms := st.db.rooms.modify r f }, st.key⟩ : Store S) room = flagOf st room := by
  unfold flagOf
  rw [Table.lookup_modify]
  split_ifs
  · rw [Option.map_map]
    exact congrArg (fun g => (st.db.rooms.lookup room).map g) (funext hf)
  · rfl

/-- Only the row itself has the flag. -/
theorem flagOf_exec (hclear : op ≠ .clear) (hupsert : ∀ r, op = .upsertRoom r → r.id ≠ room) :
    flagOf (op.exec rng st) room = flagOf st room := by
  rcases op with _ | _ | r | _ | _ | ⟨t, ts, body⟩ | _ | _ | ⟨r, token⟩ | ⟨r, token, done⟩ | _
  · rfl
  · rfl
  · have hr : ¬ room = r.id := fun h => hupsert r rfl h.symm
    simp only [flagOf, StoreOp.exec, Write.upsertRoom, Write.upsertRoomStmt, Table.lookup_upsert, if_neg hr]
  · rfl
  · rfl
  · simp only [StoreOp.exec, Write.recordEdit, Write.recordEditStmt]
    split_ifs
    · rfl
    · rfl
  · rfl
  · rfl
  · simp only [StoreOp.exec, Write.seedBackToken, Write.seedBackTokenStmt]
    split
    · split_ifs
      · refine flagOf_modify (fun _ => ?_) r
        rfl
      · rfl
    · rfl
  · refine flagOf_modify (fun _ => ?_) r
    rfl
  · exact absurd rfl hclear

theorem flagOf_upsert (r : Room) :
    flagOf ((StoreOp.upsertRoom r).exec rng st) r.id = some (boolI64 r.encrypted) := by
  simp only [flagOf, StoreOp.exec, Write.upsertRoom, Write.upsertRoomStmt, Table.lookup_upsert, if_pos]
  rcases st.db.rooms.lookup r.id with _ | row
  · rfl
  · rfl

/-- A written row is flagged as it says. -/
theorem flagged_upsert {r : Room} (hid : r.id = room) :
    Flagged room ((StoreOp.upsertRoom r).exec rng st) ↔ r.encrypted = true := by
  subst hid
  unfold Flagged
  rw [flagOf_upsert]
  rcases hr : r.encrypted with _ | _
  · simp [boolI64]
  · simp [boolI64]

/-- A renamed room is flagged as it was. -/
theorem flagged_renamed {stored : Room} (wanted : String) (hid : stored.id = room) :
    Flagged room ((StoreOp.upsertRoom { stored with name := wanted }).exec rng st) ↔
      stored.encrypted = true := by
  have h := @flagged_upsert S st rng room { stored with name := wanted } hid
  exact h

theorem readRoom_ok {p : String × RoomRow String} {r : Room} (h : Read.readRoom st p = .ok r) :
    r.id = p.1 ∧ r.encrypted = decide (p.2.encrypted ≠ 0) := by
  unfold Read.readRoom at h
  rcases hname : st.reveal "room.name" p.2.name with e | name
  · simp [hname, bind, Except.bind] at h
  · rcases hpreview : st.reveal "room.last_preview" p.2.lastPreview with e | preview
    · simp [hname, hpreview, bind, Except.bind] at h
    · simp only [hname, hpreview, bind, Except.bind, pure, Except.pure, Except.ok.injEq] at h
      subst h
      exact ⟨rfl, rfl⟩

/-- **A room that is read** has its id, and is encrypted if it is flagged. -/
theorem getRoom_ok {stored : Option Room} (h : Read.getRoom st room = .ok stored) :
    (stored.getD (Sync.Process.newRoom room)).id = room ∧
      (Flagged room st ↔ (stored.getD (Sync.Process.newRoom room)).encrypted = true) := by
  unfold Read.getRoom at h
  rcases hrow : st.db.rooms.lookup room with _ | row
  · simp only [hrow, Except.ok.injEq] at h
    subst h
    refine ⟨rfl, ?_⟩
    simp [Flagged, flagOf, hrow, Sync.Process.newRoom]
  · simp only [hrow] at h
    rcases hread : Read.readRoom st (room, row) with e | r
    · simp [hread, Except.map] at h
    · simp only [hread, Except.map, Except.ok.injEq] at h
      subst h
      obtain ⟨hid, hflag⟩ := readRoom_ok hread
      refine ⟨hid, ?_⟩
      simp [Flagged, flagOf, hrow, hflag]

/-- What a list is mapped to, in a list of results. -/
theorem mem_of_mapM {α β ε : Type} {f : α → Except ε β} {l : List α} {l' : List β}
    (h : l.mapM f = .ok l') : (∀ a ∈ l, ∃ b ∈ l', f a = .ok b) ∧ ∀ b ∈ l', ∃ a ∈ l, f a = .ok b := by
  induction l generalizing l' with
  | nil =>
    simp only [List.mapM_nil, pure, Except.pure, Except.ok.injEq] at h
    subst h
    simp
  | cons a l ih =>
    rw [List.mapM_cons] at h
    rcases hb : f a with e | b
    · simp [hb, bind, Except.bind] at h
    · rcases hbs : l.mapM f with e | bs
      · simp [hb, hbs, bind, Except.bind] at h
      · simp only [hb, hbs, bind, Except.bind, pure, Except.pure, Except.ok.injEq] at h
        subst h
        obtain ⟨hleft, hright⟩ := ih hbs
        refine ⟨fun x hx => ?_, fun y hy => ?_⟩
        · rcases List.mem_cons.mp hx with rfl | hx
          · exact ⟨b, List.mem_cons_self, hb⟩
          · obtain ⟨y, hy, heq⟩ := hleft x hx
            exact ⟨y, List.mem_cons_of_mem _ hy, heq⟩
        · rcases List.mem_cons.mp hy with rfl | hy
          · exact ⟨a, List.mem_cons_self, hb⟩
          · obtain ⟨x, hx, heq⟩ := hright y hy
            exact ⟨x, List.mem_cons_of_mem _ hx, heq⟩

/-- **A flagged room is found encrypted.** -/
theorem find_listRooms {rooms : List Room} (h : Read.listRooms st = .ok rooms) (hflag : Flagged room st) :
    ((rooms.find? fun r => r.id = room).map Room.encrypted).getD false = true := by
  obtain ⟨v, hv, hne⟩ := hflag
  obtain ⟨row, hrow, rfl⟩ := Option.map_eq_some_iff.mp hv
  obtain ⟨hleft, hright⟩ := mem_of_mapM h
  have hmem : (room, row) ∈ Read.roomRows st.db := by
    rw [Read.roomRows, List.mem_insertionSort]
    exact Table.mem_entries.mpr hrow
  obtain ⟨r, hr, hread⟩ := hleft _ hmem
  rcases hfind : rooms.find? fun r => r.id = room with _ | found
  · have hno := List.find?_eq_none.mp hfind r hr
    simp [(readRoom_ok hread).1] at hno
  · have hid : found.id = room := by simpa using List.find?_some hfind
    obtain ⟨p, hp, hread'⟩ := hright found (List.mem_of_find?_eq_some hfind)
    obtain ⟨hpid, henc⟩ := readRoom_ok hread'
    rw [Read.roomRows, List.mem_insertionSort] at hp
    have hlookup : st.db.rooms.lookup p.1 = some p.2 := Table.mem_entries.mp hp
    rw [← hpid, hid, hrow] at hlookup
    rw [← Option.some.inj hlookup] at henc
    rw [hfind, Option.map_some, Option.getD_some, henc]
    exact decide_eq_true hne

end Flag

/-! ### The row after a batch -/

/-- The batch has an encryption event, in its state or in its timeline. -/
def Encrypts (jr : JoinedRoom) : Prop := ∃ ev ∈ jr.state ++ jr.timeline, ev.kind = "m.room.encryption"

theorem finishRoom_row (jr : JoinedRoom) (msgs : List Message) (stored : Room) :
    (finishRoom jr msgs stored).id = stored.id ∧
      ((finishRoom jr msgs stored).encrypted = true ↔ stored.encrypted = true ∨ Encrypts jr) := by
  obtain ⟨-, hid, henc, -, -⟩ := Sync.Replay.foldl_applyState jr.state stored
  have hheroes : ∀ room : Room, (applyHeroes jr room).id = room.id ∧
      (applyHeroes jr room).encrypted = room.encrypted := by
    intro room
    unfold applyHeroes
    split_ifs
    · split
      · exact ⟨rfl, rfl⟩
      · exact ⟨rfl, rfl⟩
    · exact ⟨rfl, rfl⟩
  obtain ⟨hid', henc'⟩ := hheroes (jr.state.foldl applyState stored)
  have hrow : (finishRoom jr msgs stored).id = stored.id ∧
      (finishRoom jr msgs stored).encrypted = ((applyHeroes jr (jr.state.foldl applyState stored)).encrypted
        || jr.timeline.any fun ev => ev.kind = "m.room.encryption") := by
    unfold finishRoom
    dsimp only
    split
    · exact ⟨hid'.trans hid, rfl⟩
    · exact ⟨hid'.trans hid, rfl⟩
  refine ⟨hrow.1, ?_⟩
  rw [hrow.2, henc', henc]
  simp [Encrypts, or_and_right, exists_or, or_assoc]

/-! ### The log -/

/-- A call of `do_send` that looked after a batch that encrypts the room had been stored. -/
def Secured (room : String) (log : List Mark) (call : ℕ) : Prop :=
  ∃ before after jr, log = before ++ .looked call :: after ∧ .stored room jr ∈ before ∧ Encrypts jr

/-- **Such a call posts only encrypted events** to the room. -/
def PostsEncrypted (room : String) (log : List Mark) : Prop :=
  ∀ call kind, Secured room log call → .posted call room kind ∈ log → kind = "m.room.encrypted"

/-- The mark is of the call. -/
def OfCall (call : ℕ) : Mark → Prop
  | .stored _ _ => False
  | .looked c => c = call
  | .posted c _ _ => c = call

section Log
variable {room : String} {log : List Mark} {call : ℕ} {m : Mark}

/-- What is appended later does not secure a call that has looked. -/
theorem secured_append {more : List Mark} (h : Secured room (log ++ more) call)
    (hmore : ∀ m ∈ more, m ≠ .looked call) : Secured room log call := by
  obtain ⟨before, after, jr, heq, hstored, henc⟩ := h
  rcases List.append_eq_append_iff.mp heq with ⟨rest, rfl, hrest⟩ | ⟨rest, rfl, hrest⟩
  · exact absurd rfl (hmore (.looked call) (by rw [hrest]; simp))
  · rcases rest with _ | ⟨x, rest⟩
    · rw [List.nil_append] at hrest
      exact absurd rfl (hmore (.looked call) (by rw [← hrest]; simp))
    · obtain ⟨rfl, -⟩ := List.cons.inj hrest
      exact ⟨before, rest, jr, rfl, hstored, henc⟩

/-- A stored room changes nothing about the posts. -/
theorem postsEncrypted_stored (h : PostsEncrypted room log) (r : String) (jr : JoinedRoom) :
    PostsEncrypted room (log ++ [.stored r jr]) := by
  intro call kind hsecured hposted
  refine h call kind (secured_append hsecured (by simp)) ?_
  simpa using hposted

/-- A call that looks has not posted anything. -/
theorem postsEncrypted_looked (h : PostsEncrypted room log) (hnew : ∀ m ∈ log, ¬ OfCall call m) :
    PostsEncrypted room (log ++ [.looked call]) := by
  intro call' kind hsecured hposted
  have hposted' : .posted call' room kind ∈ log := by simpa using hposted
  by_cases hcall : call' = call
  · subst hcall
    exact absurd rfl (hnew _ hposted')
  · refine h call' kind (secured_append hsecured fun m hm => ?_) hposted'
    rw [List.mem_singleton.mp hm]
    simpa using fun heq : call = call' => hcall heq.symm

/-- A post is encrypted, or the call is not secured. -/
theorem postsEncrypted_posted (h : PostsEncrypted room log) {r kind : String}
    (hpost : kind = "m.room.encrypted" ∨ (r = room → ¬ Secured room log call)) :
    PostsEncrypted room (log ++ [.posted call r kind]) := by
  intro call' kind' hsecured hposted
  have hsecured' := secured_append hsecured (by simp)
  rcases List.mem_append.mp hposted with hposted | hposted
  · exact h call' kind' hsecured' hposted
  · simp only [List.mem_singleton, Mark.posted.injEq] at hposted
    obtain ⟨rfl, rfl, rfl⟩ := hposted
    rcases hpost with hkind | hno
    · exact hkind
    · exact absurd hsecured' (hno rfl)

end Log

/-! ### Who runs beside whom -/

/-- The sync thread, the other calls, and each call of `do_send`. -/
inductive Role where
  | sync
  | aside
  | send (call : ℕ)

section Rules
variable {S : CipherSuite} (serde : SerdeJson) (layer : Layer S) (login : Login) (room : String)

/-- **What may happen** within one login: the sync thread runs sync rounds and naming sweeps, one at a
time, and beside it run any calls of `do_load_older` and `do_send`, each of the latter with a number of
its own. The crypto state may change, the daemon may restart. -/
def rules : Rules (Shared S) Change Request Reply Role where
  sections _ _ := True
  answers _ _ _ := True
  starts p k q := match k with
    | .sync => (q = syncOnce serde layer login ∨ q = backfillRoomNames login) ∧
        ∀ x ∈ p.procs, x.1 ≠ .sync
    | .aside => ∃ r limit, q = loadOlder serde login r limit
    | .send call => (∃ r, q = doSend layer login call r) ∧ (∀ x ∈ p.procs, x.1 ≠ .send call) ∧
        ∀ m ∈ p.state.log, ¬ OfCall call m
  changes s s' := s'.db = s.db ∧ s'.log = s.log

/-- **The outline**: beside the sync thread nobody changes the flag, and nobody marks a call of
another. -/
def outline : Outline (Shared S) Role where
  inv s := (∀ jr, .stored room jr ∈ s.log → Encrypts jr → Flagged room s.db) ∧
    PostsEncrypted room s.log
  rely k s s' := match k with
    | .sync => Flagged room s'.db ↔ Flagged room s.db
    | .aside => Flagged room s.db → Flagged room s'.db
    | .send call => ∃ more, s'.log = s.log ++ more ∧ ∀ m ∈ more, ¬ OfCall call m
  beside
    | .sync, .sync => False
    | .send call, .send call' => call ≠ call'
    | _, _ => True
  refl k s := by
    rcases k with _ | _ | call
    · exact Iff.rfl
    · exact fun h => h
    · exact ⟨[], by simp, by simp⟩
  trans {k s s' s''} h h' := by
    rcases k with _ | _ | call
    · exact h'.trans h
    · exact fun hs => h' (h hs)
    · obtain ⟨more, heq, hmore⟩ := h
      obtain ⟨more', heq', hmore'⟩ := h'
      refine ⟨more ++ more', by rw [heq', heq, List.append_assoc], fun m hm => ?_⟩
      rcases List.mem_append.mp hm with hm | hm
      · exact hmore m hm
      · exact hmore' m hm
  symm {k k'} h := by
    rcases k with _ | _ | call <;> rcases k' with _ | _ | call'
    all_goals first | trivial | exact h | exact Ne.symm h

/-- A write that leaves the flag of the room alone, and marks nothing of it. -/
def Plain : Change → Prop
  | .store _ op => op ≠ .clear ∧ ∀ r, op = .upsertRoom r → r.id ≠ room
  | .storeRoom _ r _ row => r ≠ room ∧ row.id ≠ room
  | .mark _ => False
  | _ => True

/-- A request that posts nothing, or an encrypted event of the call itself. -/
def Fine (k : Role) (q : Request) : Prop :=
  ∀ call r kind, q = .sendEvent call r kind → k = .send call ∧ kind = "m.room.encrypted"

variable {serde layer login room}

/-- Who may do what: the flag stays, and marks are one's own. -/
theorem allows_of_flag {k : Role} {s s' : Shared S} (hinv' : (outline room : Outline (Shared S) Role).inv s')
    (hflag : Flagged room s'.db ↔ Flagged room s.db)
    (hlog : ∃ more, s'.log = s.log ++ more ∧ ∀ call, k ≠ .send call → ∀ m ∈ more, ¬ OfCall call m) :
    (outline room).Allows k s s' := by
  refine ⟨hinv', fun k' hk' => ?_⟩
  rcases k' with _ | _ | call
  · exact hflag
  · exact hflag.mpr
  · obtain ⟨more, heq, hmore⟩ := hlog
    refine ⟨more, heq, hmore call ?_⟩
    rintro rfl
    exact hk' rfl

theorem allows_plain (k : Role) {s : Shared S} {w : Change} (rng : Salts)
    (hinv : (outline room : Outline (Shared S) Role).inv s) (hw : Plain room w) :
    (outline room).Allows k s (Change.exec rng s w) ∧
      (Flagged room (Change.exec rng s w).db ↔ Flagged room s.db) := by
  have hsame : (Flagged room (Change.exec rng s w).db ↔ Flagged room s.db) ∧
      ((Change.exec rng s w).log = s.log ∨
        ∃ r jr, r ≠ room ∧ (Change.exec rng s w).log = s.log ++ [.stored r jr]) := by
    rcases w with ⟨n, op⟩ | ⟨n, r, jr, row⟩ | _ | _ | _ | _
    · exact ⟨flagged_congr (flagOf_exec hw.1 hw.2), Or.inl rfl⟩
    · refine ⟨flagged_congr (flagOf_exec (by simp) fun r' heq => ?_), Or.inr ⟨r, jr, hw.1, rfl⟩⟩
      obtain rfl : row = r' := by simpa using heq
      exact hw.2
    · exact ⟨Iff.rfl, Or.inl rfl⟩
    · exact ⟨Iff.rfl, Or.inl rfl⟩
    · exact ⟨Iff.rfl, Or.inl rfl⟩
    · exact hw.elim
  obtain ⟨hflag, hlog | ⟨r, jr, hr, hlog⟩⟩ := hsame
  · refine ⟨allows_of_flag ⟨?_, ?_⟩ hflag ⟨[], by simp [hlog], by simp⟩, hflag⟩
    · rw [hlog]
      exact fun jr hjr henc => hflag.mpr (hinv.1 jr hjr henc)
    · rw [hlog]
      exact hinv.2
  · refine ⟨allows_of_flag ⟨?_, ?_⟩ hflag ⟨_, hlog, by simp [OfCall]⟩, hflag⟩
    · rw [hlog]
      intro jr' hjr' henc
      rcases List.mem_append.mp hjr' with hjr' | hjr'
      · exact hflag.mpr (hinv.1 jr' hjr' henc)
      · simp only [List.mem_singleton, Mark.stored.injEq] at hjr'
        exact absurd hjr'.1.symm hr
    · rw [hlog]
      exact postsEncrypted_stored hinv.2 r jr

/-- A post is allowed if it is encrypted, or the call is not secured. -/
theorem allows_post {call : ℕ} {r kind : String} {s : Shared S}
    (hinv : (outline room : Outline (Shared S) Role).inv s)
    (hpost : kind = "m.room.encrypted" ∨ (r = room → ¬ Secured room s.log call))
    (reply : Reply (.sendEvent call r kind)) :
    (outline room).Allows (.send call) s (note (.sendEvent call r kind) reply s) := by
  refine allows_of_flag ⟨fun jr hjr henc => ?_, postsEncrypted_posted hinv.2 hpost⟩ Iff.rfl
    ⟨[.posted call r kind], rfl, fun call' hcall m hm => ?_⟩
  · have hjr' : .stored room jr ∈ s.log := by simpa [note] using hjr
    exact hinv.1 jr hjr' henc
  · rw [List.mem_singleton.mp hm]
    exact fun heq : call = call' => hcall (by rw [heq])

theorem allows_note (k : Role) {s : Shared S} {q : Request} (r : Reply q)
    (hinv : (outline room : Outline (Shared S) Role).inv s) (hq : Fine k q) :
    (outline room).Allows k s (note q r s) ∧ (Flagged room (note q r s).db ↔ Flagged room s.db) := by
  have hsame : (outline room : Outline (Shared S) Role).Allows k s s :=
    ⟨hinv, fun k' _ => (outline room).refl k' s⟩
  rcases q with _ | _ | _ | _ | _ | _ | _ | _ | ⟨call, r', kind⟩ | _ | _ | _
  all_goals first | exact ⟨hsame, Iff.rfl⟩ | skip
  obtain ⟨rfl, rfl⟩ := hq call r' kind rfl
  exact ⟨allows_post hinv (Or.inl rfl) r, Iff.rfl⟩

/-- What the sync thread keeps beside the others. -/
theorem keeps_sync : Keeps Change.exec note (outline room : Outline (Shared S) Role) .sync (Plain room)
    (Fine .sync) (fun s s' => Flagged room s'.db ↔ Flagged room s.db) where
  refl _ := Iff.rfl
  trans h h' := h'.trans h
  rely h := h
  writes rng hinv hw := allows_plain .sync rng hinv hw
  notes _ r hinv hq := allows_note .sync r hinv hq

/-- What everybody may do. -/
theorem keeps_any (k : Role) : Keeps Change.exec note (outline room : Outline (Shared S) Role) k
    (Plain room) (Fine k) (fun _ _ => True) where
  refl _ := trivial
  trans _ _ := trivial
  rely _ := trivial
  writes rng hinv hw := ⟨(allows_plain k rng hinv hw).1, trivial⟩
  notes _ r hinv hq := ⟨(allows_note k r hinv hq).1, trivial⟩

/-! ### The sync thread -/

theorem plain_key {n : ℕ} {op : StoreOp} (h : OfKeys op) : Plain room (.store n op) := by
  rcases op with _ | _ | _ | _ | _ | _ | _ | _ | _ | _ | _
  all_goals first | exact h.elim | simp [Plain]

/-- **The row of a batch**: it is flagged if it was, and if the batch says so. -/
theorem allows_storeRoom {s : Shared S} {rng : Salts} {n : ℕ} {r : String} {jr : JoinedRoom} {row : Room}
    (hinv : (outline room : Outline (Shared S) Role).inv s) (hid : row.id = r)
    (hflag : r = room → Flagged room s.db → row.encrypted = true) (henc : Encrypts jr → row.encrypted = true) :
    (outline room).Allows .sync s (Change.exec rng s (.storeRoom n r jr row)) ∧
      (r = room → (Flagged room (Change.exec rng s (.storeRoom n r jr row)).db ↔ row.encrypted = true)) := by
  by_cases hr : r = room
  · subst hr
    have hnew : Flagged r (Change.exec rng s (.storeRoom n r jr row)).db ↔ row.encrypted = true :=
      flagged_upsert hid
    refine ⟨⟨⟨fun jr' hjr' henc' => ?_, postsEncrypted_stored hinv.2 r jr⟩, fun k' hk' => ?_⟩, fun _ => hnew⟩
    · rcases List.mem_append.mp hjr' with hjr' | hjr'
      · exact hnew.mpr (hflag rfl (hinv.1 jr' hjr' henc'))
      · simp only [List.mem_singleton, Mark.stored.injEq, true_and] at hjr'
        exact hnew.mpr (henc (hjr' ▸ henc'))
    · rcases k' with _ | _ | call
      · exact hk'.elim
      · exact fun hs => hnew.mpr (hflag rfl hs)
      · exact ⟨_, rfl, by simp [OfCall]⟩
  · have hplain : Plain room (.storeRoom n r jr row) := ⟨hr, fun h => hr (hid.symm.trans h)⟩
    exact ⟨(allows_plain .sync rng hinv hplain).1, fun h => absurd h hr⟩

/-- **One room of a batch.** Between the read and the write of the row nobody else raises the flag. -/
theorem sound_processRoom {r : String} {jr : JoinedRoom} {next : DaemonProc S}
    (h : ∀ s, Sound (rules serde layer login) Change.exec note (outline room) .sync next s)
    (s : Shared S) :
    Sound (rules serde layer login) Change.exec note (outline room) .sync
      (processRoom serde login r jr next) s := by
  refine sound_processRoom_of_keeps keeps_sync (fun e => by simp [Plain, Edit.op]) (by simp [Plain])
    fun s₁ stored msgs s₂ hstored _ hs₂ => ?_
  obtain ⟨hid, hread⟩ := getRoom_ok hstored
  obtain ⟨hrow, henc⟩ := finishRoom_row jr msgs (stored.getD (Sync.Process.newRoom r))
  refine sound_write (fun s₃ hs₃ hinv₃ _ os => ?_) fun _ _ _ _ _ => h _
  -- as long as the section runs, a flag that is set is in the row to be written
  refine (allows_carry (fun s : Shared S => r = room → Flagged room s.db →
      (finishRoom jr msgs (stored.getD (Sync.Process.newRoom r))).encrypted = true) hinv₃ ?_ ?_ os).1
  · intro hr hflag
    subst hr
    exact henc.mpr (Or.inl (hread.mp ((hs₂.symm.trans hs₃.symm).mpr hflag)))
  · intro w hw rng s₄ hinv₄ hside
    simp only [roomWrites, List.mem_append, List.mem_map, List.mem_singleton] at hw
    have hplain : Plain room w → (outline room).Allows .sync s₄ (Change.exec rng s₄ w) ∧
        (r = room → Flagged room (Change.exec rng s₄ w).db →
          (finishRoom jr msgs (stored.getD (Sync.Process.newRoom r))).encrypted = true) := by
      intro hw
      obtain ⟨hallows, hflag⟩ := allows_plain .sync rng hinv₄ hw
      exact ⟨hallows, fun hr hs => hside hr (hflag.mp hs)⟩
    rcases hw with (⟨m, -, rfl⟩ | rfl) | hw
    · exact hplain (by simp [Plain])
    · obtain ⟨hallows, hnew⟩ := @allows_storeRoom S room s₄ rng login.number r jr _ hinv₄
        (hrow.trans hid) hside fun hjr => henc.mpr (Or.inr hjr)
      exact ⟨hallows, fun hr hs => (hnew hr).mp hs⟩
    · split at hw
      · obtain rfl := List.mem_singleton.mp hw
        exact hplain (by simp [Plain])
      · simp at hw

theorem sound_syncOnce (s : Shared S) :
    Sound (rules serde layer login) Change.exec note (outline room) .sync
      (syncOnce serde layer login) s := by
  refine sound_syncOnce_of_keeps keeps_sync (fun _ => plain_key) (by simp [Plain]) (fun q hq => ?_)
    (fun r jr next hnext => sound_processRoom hnext) s
  rintro call r kind rfl
  exact hq.elim

/-- **A renaming** writes the row it has just read. -/
theorem sound_rename {r wanted : String} {next : DaemonProc S} {s : Shared S}
    (h : ∀ s' : Shared S, (Flagged room s'.db ↔ Flagged room s.db) →
      Sound (rules serde layer login) Change.exec note (outline room) .sync next s') :
    Sound (rules serde layer login) Change.exec note (outline room) .sync
      (rename login r wanted next) s := by
  refine Naming.sound_rename_of_section fun s₁ hs₁ hinv₁ _ os => ?_
  have hsame : (Flagged room (carry Change.exec s₁ (renamed login s₁ r wanted) os).db ↔
      Flagged room s₁.db) ∧ (carry Change.exec s₁ (renamed login s₁ r wanted) os).log = s₁.log := by
    unfold renamed
    split
    · next stored hstored =>
      rcases os with _ | ⟨rng, os⟩
      · exact ⟨Iff.rfl, rfl⟩
      · obtain ⟨hid, hflag⟩ := getRoom_ok hstored
        rw [Option.getD_some] at hid hflag
        refine ⟨?_, rfl⟩
        by_cases hr : r = room
        · subst hr
          exact (flagged_renamed wanted hid).trans hflag.symm
        · refine flagged_congr (flagOf_exec (by simp) fun r' heq h => hr ?_)
          have hid' : r'.id = stored.id := by rw [← StoreOp.upsertRoom.inj heq]
          exact hid.symm.trans (hid'.symm.trans h)
    · exact ⟨Iff.rfl, rfl⟩
  obtain ⟨hflag, hlog⟩ := hsame
  refine ⟨allows_of_flag ⟨?_, ?_⟩ hflag ⟨[], by rw [hlog, List.append_nil], by simp⟩,
    h _ (hflag.trans hs₁)⟩
  · rw [hlog]
    exact fun jr hjr henc => hflag.mpr (hinv₁.1 jr hjr henc)
  · rw [hlog]
    exact hinv₁.2

/-- **The naming sweep.** -/
theorem sound_backfillRoomNames (s : Shared S) :
    Sound (rules serde layer login) Change.exec note (outline room) .sync (backfillRoomNames login) s := by
  have hgrants : Naming.Grants login (rules serde layer login) (outline room) .sync (Plain room)
      (Fine .sync) (fun s s' => Flagged room s'.db ↔ Flagged room s.db) (fun _ _ => True)
      (fun _ _ _ => True) := by
    refine ⟨fun q hq => ?_, by simp [Plain], by simp [Plain], by simp, by simp, by simp, by simp, by simp, ?_⟩
    · rintro call r kind rfl
      exact hq.elim
    · exact fun s x given partner bridge members wanted next _ _ _ h => sound_rename h
  exact sound_backfillRoomNames_of_keeps keeps_sync hgrants s

/-! ### The other calls -/

theorem sound_loadOlder (r : String) (limit : ℕ) (s : Shared S) :
    Sound (rules serde layer login) Change.exec note (outline room) .aside
      (loadOlder serde login r limit) s := by
  refine (keeps_any .aside).only (only_loadOlder.mono (fun w hw => ?_) fun q hq => ?_) s
  · rcases w with ⟨n, op⟩ | _ | _ | _ | _ | _
    · obtain ⟨-, hop⟩ := hw
      rcases op with _ | _ | _ | _ | _ | _ | _ | _ | _ | _ | _
      all_goals first | exact hop.elim | simp [Plain]
    all_goals exact hw.elim
  · rintro call r' kind rfl
    exact hq.elim

/-- What an encrypted room's send does. -/
theorem only_postEncrypted {call : ℕ} {r : String} :
    (postEncrypted layer login call r).Only (Plain room) (Fine (.send call)) := by
  refine fun s => ⟨fun w hw => ?_, fun ok => ?_⟩
  · obtain ⟨op, hop, rfl⟩ := List.mem_map.mp hw
    exact plain_key (layer.ofKeys_encrypt s r op hop)
  · dsimp only
    split_ifs
    · refine ⟨?_, fun _ => trivial⟩
      rintro call' r' kind heq
      obtain ⟨rfl, -, rfl⟩ := Request.sendEvent.inj heq
      exact ⟨rfl, rfl⟩
    · trivial

theorem only_shareRoomKey {call : ℕ} {r : String} {next : DaemonProc S}
    (h : next.Only (Plain room) (Fine (.send call))) :
    (shareRoomKey layer login r next).Only (Plain room) (Fine (.send call)) := by
  have hsend : ∀ body, (sendRoomKey layer login r body next).Only (Plain room) (Fine (.send call)) := by
    refine fun body s => ⟨fun w hw => ?_, fun ok => ?_⟩
    · obtain ⟨op, hop, rfl⟩ := List.mem_map.mp hw
      exact plain_key (layer.ofKeys_encryptRoomKey s r body op hop)
    · dsimp only
      split_ifs
      · refine ⟨by simp [Fine], fun reply => ?_⟩
        rcases reply with e | u
        · trivial
        · exact h
      · trivial
  refine ⟨by simp [Fine], fun reply => ?_⟩
  rcases reply with e | members
  · trivial
  · refine ⟨by simp [Fine], fun reply => ?_⟩
    rcases reply with e | body
    · trivial
    · refine Proc.only_read fun s => ?_
      split_ifs
      · refine ⟨by simp [Fine], fun reply => ?_⟩
        rcases reply with e | claim
        · trivial
        · refine fun s => ⟨fun w hw => ?_, fun ok => ?_⟩
          · obtain ⟨op, hop, rfl⟩ := List.mem_map.mp hw
            exact plain_key (layer.ofKeys_createOutboundOlm s claim op hop)
          · dsimp only
            split_ifs
            · exact hsend body
            · trivial
      · exact hsend body

/-- **A call of `do_send`** with a new number: where it does not encrypt, no batch that encrypts the room
was stored when it looked. -/
theorem sound_doSend {call : ℕ} (r : String) {s : Shared S} (hnew : ∀ m ∈ s.log, ¬ OfCall call m) :
    Sound (rules serde layer login) Change.exec note (outline room) (.send call)
      (doSend layer login call r) s := by
  intro s₁ hs₁ hinv₁ _ os
  have hnew₁ : ∀ m ∈ s₁.log, ¬ OfCall call m := by
    obtain ⟨more, heq, hmore⟩ := hs₁
    intro m hm
    rw [heq] at hm
    rcases List.mem_append.mp hm with hm | hm
    · exact hnew m hm
    · exact hmore m hm
  have hsame : (outline room : Outline (Shared S) Role).Allows (.send call) s₁ s₁ :=
    ⟨hinv₁, fun k' _ => (outline room).refl k' s₁⟩
  rcases os with _ | ⟨rng, os⟩
  · exact ⟨hsame, trivial⟩
  · refine ⟨allows_of_flag ⟨fun jr hjr henc => ?_, postsEncrypted_looked hinv₁.2 hnew₁⟩ Iff.rfl
      ⟨[.looked call], rfl, fun call' hcall m hm => ?_⟩, ?_⟩
    · have hjr' : .stored room jr ∈ s₁.log := by simpa [carry, Change.exec] using hjr
      exact hinv₁.1 jr hjr' henc
    · rw [List.mem_singleton.mp hm]
      exact fun heq : call = call' => hcall (by rw [heq])
    · dsimp only
      split_ifs
      · trivial
      · split
        · trivial
        · next rooms hrooms =>
          split_ifs with hplain
          · -- the room is not flagged, so no batch that encrypts it is stored
            have hunsecured : r = room → ¬ Secured room (s₁.log ++ [.looked call]) call := by
              rintro rfl ⟨before, after, jr, heq, hstored, henc⟩
              have hlog : .stored r jr ∈ s₁.log := by
                have hmem : .stored r jr ∈ s₁.log ++ [.looked call] := by
                  rw [heq]
                  exact List.mem_append_left _ hstored
                simpa using hmem
              rw [find_listRooms hrooms (hinv₁.1 jr hlog henc)] at hplain
              simp at hplain
            intro s₂ hs₂ hinv₂ reply _
            obtain ⟨more, heq, hmore⟩ := hs₂
            refine ⟨allows_post hinv₂ (Or.inr fun hr hsecured => hunsecured hr ?_) reply, trivial⟩
            rw [heq] at hsecured
            refine secured_append hsecured fun m hm hlooked => hmore m hm ?_
            rw [hlooked]
            exact rfl
          · refine sound_read fun s₂ _ _ => ?_
            split
            · trivial
            · exact (keeps_any (.send call)).only only_postEncrypted _
            · exact (keeps_any (.send call)).only (only_shareRoomKey only_postEncrypted) _

/-- What may happen fits the outline. -/
theorem fits_outline : Fits (rules serde layer login) Change.exec note
    (outline room : Outline (Shared S) Role) := by
  refine ⟨fun p k q hstart _ => ?_, fun s s' hchange hinv => ?_⟩
  · rcases k with _ | _ | call
    · obtain ⟨hq, hsync⟩ := hstart
      refine ⟨?_, fun x hx => ?_⟩
      · rcases hq with rfl | rfl
        · exact sound_syncOnce _
        · exact sound_backfillRoomNames _
      · rcases hrole : x.1 with _ | _ | call
        · exact absurd hrole (hsync x hx)
        · trivial
        · trivial
    · obtain ⟨r, limit, rfl⟩ := hstart
      refine ⟨sound_loadOlder r limit _, fun x _ => ?_⟩
      rcases x.1 with _ | _ | call
      all_goals trivial
    · obtain ⟨⟨r, rfl⟩, hcalls, hnew⟩ := hstart
      refine ⟨sound_doSend r hnew, fun x hx => ?_⟩
      rcases hrole : x.1 with _ | _ | call'
      · trivial
      · trivial
      · exact fun heq : call' = call => hcalls x hx (by rw [hrole, heq])
  · obtain ⟨hdb, hlog⟩ := hchange
    refine ⟨⟨hlog ▸ hdb ▸ hinv.1, hlog ▸ hinv.2⟩, fun k => ?_⟩
    rcases k with _ | _ | call
    · exact flagged_congr (by rw [hdb])
    · exact (flagged_congr (by rw [hdb])).mpr
    · exact ⟨[], by rw [hlog, List.append_nil], by simp⟩

/-- **No downgrade.** A call that looks after a batch with the encryption event was stored posts only
encrypted events, and a flag that is set stays set. -/
theorem no_downgrade {p : Pool (Shared S) Change Request Reply Role}
    {past future : List (Event (Shared S) Change Request Reply Role Salts)}
    (hlog : p.state.log = []) (hprocs : p.procs = [])
    (hlawful : p.Lawful (rules serde layer login) Change.exec note (past ++ future)) :
    PostsEncrypted room (p.runs Change.exec note (past ++ future)).state.log ∧
      (Flagged room (p.runs Change.exec note past).state.db →
        Flagged room (p.runs Change.exec note (past ++ future)).state.db) := by
  have hsane : Sane (rules serde layer login) Change.exec note (outline room) p :=
    ⟨⟨by simp [hlog], fun call kind _ hposted => by simp [hlog] at hposted⟩, by simp [hprocs],
      by simp [hprocs]⟩
  obtain ⟨hpast, hfuture⟩ := lawful_append.mp hlawful
  refine ⟨(hsane.runs fits_outline hlawful).inv.2, ?_⟩
  have hwatch := (hsane.runs fits_outline hpast).runs_rely fits_outline hfuture (k := .aside)
    fun k' => by rcases k' with _ | _ | call <;> trivial
  have hruns : (p.runs Change.exec note past).runs Change.exec note future =
      p.runs Change.exec note (past ++ future) := by
    unfold Pool.runs
    rw [List.foldl_append]
  rw [hruns] at hwatch
  exact hwatch

end Rules

/-! ### A room is encrypted, and a message sent -/

def ours : Login := ⟨0, ⟨"https://example.org", "@us", "DEVICE", "token"⟩⟩

def fresh : Pool (Shared copySuite) Change Request Reply Role := ⟨⟨blankStore, none, none, none, []⟩, []⟩

/-- The room key is there, and encrypting works. -/
def readyLayer : Layer copySuite :=
  { (idleLayer : Layer copySuite) with
    hasOutbound := fun _ _ => .ok true
    encrypt := fun _ _ => ([], true)
    ofKeys_encrypt := by simp }

def encryptingBatch : SyncResponse :=
  ⟨[], ⟨"next", [("!r", { state := [{ kind := "m.room.encryption" }] })],
    List.nodup_singleton "!r"⟩, 50⟩

def serve : (q : Request) → Reply q
  | .sync _ => .ok encryptingBatch
  | .messages _ _ _ => .error "timeout"
  | .keysUpload => .error "timeout"
  | .backupVersion => .error "timeout"
  | .joinedMembers _ => .error "timeout"
  | .keysQuery => .error "timeout"
  | .keysClaim => .error "timeout"
  | .sendToDevice _ => .error "timeout"
  | .sendEvent _ _ _ => .ok ()
  | .directRooms => .error "timeout"
  | .roomName _ => .error "timeout"
  | .memberNames _ => .error "timeout"

def syncs : List (Event (Shared copySuite) Change Request Reply Role Salts) :=
  [.start .sync (syncOnce noPlaintext readyLayer ours), .run 0 [], .answer 0 serve] ++
    List.replicate 7 (.run 0 [fun _ => zeroSalt])

def sends : List (Event (Shared copySuite) Change Request Reply Role Salts) :=
  [.start (.send 0) (doSend readyLayer ours 0 "!r"), .run 0 [fun _ => zeroSalt], .run 0 [], .run 0 [],
    .answer 0 serve]

/-- Sections and answers are always lawful. -/
theorem lawful_of_steps {p : Pool (Shared copySuite) Change Request Reply Role}
    {run : List (Event (Shared copySuite) Change Request Reply Role Salts)}
    (h : ∀ e ∈ run, (∃ i os, e = .run i os) ∨ ∃ i reply, e = .answer i reply) :
    p.Lawful (rules noPlaintext readyLayer ours) Change.exec note run := by
  induction run generalizing p with
  | nil => trivial
  | cons e run ih =>
    obtain ⟨he, hrun⟩ := List.forall_mem_cons.mp h
    refine ⟨?_, ih hrun⟩
    rcases he with ⟨i, os, rfl⟩ | ⟨i, reply, rfl⟩
    · exact fun _ _ _ _ => trivial
    · exact fun _ _ _ _ => trivial

/-- Nothing is running, and only rooms were stored. -/
def quietPool (p : Pool (Shared copySuite) Change Request Reply Role) : Bool :=
  p.procs.isEmpty && p.state.log.all fun
    | .stored _ _ => true
    | _ => false

/-- A batch encrypts the room, then a message is sent. -/
theorem no_downgrade_sends :
    PostsEncrypted "!r" (fresh.runs Change.exec note (syncs ++ sends)).state.log ∧
      (Flagged "!r" (fresh.runs Change.exec note syncs).state.db →
        Flagged "!r" (fresh.runs Change.exec note (syncs ++ sends)).state.db) := by
  have hquiet : quietPool (fresh.runs Change.exec note syncs) = true := by decide +kernel
  obtain ⟨hprocs, hstored⟩ := Bool.and_eq_true_iff.mp hquiet
  have hround : ∀ e ∈ ([.run 0 [], .answer 0 serve] ++ List.replicate 7 (.run 0 [fun _ => zeroSalt]) :
      List (Event (Shared copySuite) Change Request Reply Role Salts)),
      (∃ i os, e = .run i os) ∨ ∃ i reply, e = .answer i reply := by
    intro e he
    simp only [List.mem_append, List.mem_cons, List.not_mem_nil, or_false, List.mem_replicate] at he
    rcases he with (rfl | rfl) | ⟨-, rfl⟩
    all_goals simp
  have hsend : ∀ e ∈ ([.run 0 [fun _ => zeroSalt], .run 0 [], .run 0 [], .answer 0 serve] :
      List (Event (Shared copySuite) Change Request Reply Role Salts)),
      (∃ i os, e = .run i os) ∨ ∃ i reply, e = .answer i reply := by
    intro e he
    simp only [List.mem_cons, List.not_mem_nil, or_false] at he
    rcases he with rfl | rfl | rfl | rfl
    all_goals simp
  refine no_downgrade rfl rfl (lawful_append.mpr ⟨⟨⟨Or.inl rfl, by simp [fresh]⟩,
    lawful_of_steps hround⟩, ⟨⟨⟨_, rfl⟩, ?_, fun m hm => ?_⟩, lawful_of_steps hsend⟩⟩)
  · rw [List.isEmpty_iff.mp hprocs]
    simp
  · have hm' := List.all_eq_true.mp hstored m hm
    rcases m with _ | _ | _
    · exact fun h => h
    · simp at hm'
    · simp at hm'

/-- The kinds of what was posted. -/
def postedKinds (log : List Mark) : List String := log.filterMap fun
  | .posted _ _ kind => some kind
  | _ => none

example : postedKinds (fresh.runs Change.exec note (syncs ++ sends)).state.log = ["m.room.encrypted"] := by
  decide +kernel

end Kmatrix.Daemon.Downgrade
