import Kmatrix.Storage.Edits
import Kmatrix.Storage.View

/-! # Texts there and back

What the store is for, sealing aside: tables of texts (`Tables String`) on which an operation writes the
texts it is given (`StoreOp.onText`) and a query returns the texts it selects (`saidMessages` and its
siblings). `Holds st db` says that the store `st` holds the texts `db`; every run keeps it
(`holds_execAll`).

**The store refines it** up to one thing: without a key a text that begins with `k1:` is stored as it is
and taken for a sealed one on the way back, and the query that selects it fails as a whole. So a read
returns what was written exactly if the store has a key or no text it is to return begins with `k1:`
(`roundTrips_iff`). -/

namespace Kmatrix.Storage.RoundTrip

open Kmatrix.Lib.Keyed Kmatrix.Storage.Seal Kmatrix.Storage.Schema Kmatrix.Storage.Write
open Kmatrix.Storage.Read Kmatrix.Storage.Plain Kmatrix.Storage.View
open Kmatrix.Storage.Migrate (AllCells)
open Kmatrix.Storage.AtRest (freshStore)
open Kmatrix.Storage.Edits (helloMessage look_ne_none_of_key_none)

/-! ### Tables of texts -/

/-- **An operation on texts.** `keyed` says that `clear` puts the flag back. -/
def StoreOp.onText (keyed : Bool) (db : Tables String) : StoreOp → Tables String
  | .saveSession json => setMetaStmt db sessionKey json
  | .setMeta k v => setMetaStmt db k v
  | .upsertRoom r => upsertRoomStmt db r r.name r.lastPreview
  | .insertMessage m => insertMessageStmt db m m.body m.ciphertext
  | .upgradeMessage e body => upgradeMessageStmt db e body
  | .recordEdit target ts body => (recordEditStmt db target (asI64 ts) body).1
  | .rememberMembers room names => rememberMembersStmt db room (named names)
  | .putPickle kind id extra pickle => putPickleStmt db kind id extra pickle
  | .seedBackToken room token => (seedBackTokenStmt db room token).1
  | .setBackToken room token done => setBackTokenStmt db room token done
  | .clear => if keyed then markEncrypted Tables.empty "1" else Tables.empty

def runText (keyed : Bool) (db : Tables String) (ops : List StoreOp) : Tables String :=
  ops.foldl (StoreOp.onText keyed) db

section Queries
variable (db : Tables String)

def saidMessage (m : String × MessageRow String) : Message :=
  ⟨m.1, m.2.room, m.2.sender, asU64 m.2.ts, db.members.lookup (m.2.room, m.2.sender), m.2.body,
    m.2.encrypted ≠ 0, m.2.decrypted ≠ 0, m.2.mine ≠ 0, m.2.sessionId, m.2.ciphertext⟩

def saidMessages (room : String) (limit : ℕ) : List Message :=
  ((newest db (inRoom room) limit).map (saidMessage db)).reverse

def saidRetry (m : String × MessageRow String) : String × String × String :=
  (m.1, m.2.sessionId.getD "", m.2.ciphertext.getD "")

def saidRetries (room : String) (limit : ℕ) : List (String × String × String) :=
  (newest db (retryable room) limit).map saidRetry

def saidRoom (r : String × RoomRow String) : Room :=
  ⟨r.1, r.2.name, r.2.encrypted ≠ 0, asU64 r.2.unread, asU64 r.2.lastTs, r.2.lastPreview⟩

def saidRooms : List Room := (roomRows db).map saidRoom

def saidRoomOf (id : String) : Option Room := (db.rooms.lookup id).map fun row => saidRoom (id, row)

end Queries

/-- The texts of a message that are sealed at rest. -/
def messageTexts (m : Message) : List String := m.body :: (m.senderName.toList ++ m.ciphertext.toList)

def roomTexts (r : Room) : List String := [r.name, r.lastPreview]

section Stores
variable {S : CipherSuite}

/-- What is read back of a value of `meta`. -/
def keptMeta (st : Store S) (k v : String) : Option String :=
  if (secretMetaLabel k).isSome then kept st v else some v

/-- **The store holds these texts.** -/
def Holds (st : Store S) (db : Tables String) : Prop := plain st = db.map (kept st) (keptMeta st)

/-- **The texts come back**: the store has a key, or none of them begins with `k1:`. -/
def Reads (st : Store S) (texts : List String) : Prop :=
  st.key ≠ none ∨ ∀ p ∈ texts, startsWith p encPrefix = false

/-! ### Runs -/

/-- A store without a key holds its cells. -/
theorem holds_of_key_none {st : Store S} (hk : st.key = none) : Holds st st.db := by
  have hlook : look st = kept st := by
    funext cell
    have hp := look_protect st zeroSalt cell
    unfold Store.protect at hp
    rw [hk] at hp
    exact hp
  unfold Holds plain
  rw [hlook]
  congr 1
  funext k cell
  unfold lookMeta keptMeta
  rw [hlook]

/-- The text a cell reads is kept. -/
theorem kept_look {st : Store S} {cell : String} (h : look st cell ≠ none) :
    kept st ((look st cell).getD "") = look st cell := by
  by_cases hk : st.key = none
  · have hp := (look_ne_none_of_key_none hk).mp h
    have hcell : look st cell = some cell := by
      unfold look
      rw [hk, unseal_plain hp]
      rfl
    rw [hcell]
    exact kept_of_not_prefix hp
  · obtain ⟨p, hp⟩ := Option.ne_none_iff_exists'.mp h
    rw [hp]
    exact kept_of_key hk p

/-- **A store whose cells can be read holds what they say.** -/
theorem holds_of_readable {st : Store S} (hst : AllCells (fun c => look st c ≠ none) st.db) :
    ∃ db, Holds st db := by
  have hrow : ∀ {κ ρ σ : Type} [DecidableEq κ] {t : Table κ ρ} {P : κ → ρ → Prop} {f g : κ → ρ → σ},
      t.All P → (∀ k v, P k v → f k v = g k v) → t.mapVal (fun _ => f) = t.mapVal fun _ => g := by
    intro κ ρ σ _ t P f g hall hfg
    exact Table.mapVal_congr fun r hr => hfg _ _ (Table.all_iff_rows.mp hall r hr)
  let say := fun cell => (look st cell).getD ""
  refine ⟨st.db.map say fun k v => if (secretMetaLabel k).isSome then say v else v, ?_⟩
  unfold Holds plain Tables.map
  simp only [Table.mapVal_mapVal]
  refine Tables.ext (hrow hst.metas fun k v hv => ?_) (hrow hst.rooms fun _ r hr => ?_)
    (hrow hst.messages fun _ r hr => ?_) rfl (hrow hst.edits fun _ r hr => ?_)
    (hrow hst.members fun _ v hv => (kept_look hv).symm)
  · unfold lookMeta keptMeta
    split_ifs with hs
    · exact (kept_look (hv hs)).symm
    · rfl
  · unfold RoomRow.map
    rw [kept_look hr.1, kept_look hr.2]
  · unfold MessageRow.map
    rw [kept_look hr.1]
    cases hc : r.ciphertext with
    | none => rfl
    | some c => rw [Option.map_some, Option.map_some, Option.map_some, kept_look (hr.2 c hc)]
  · unfold EditRow.map
    rw [kept_look hr]

theorem holds_empty (key : Option Key) : Holds (⟨Tables.empty, key⟩ : Store S) Tables.empty := rfl

/-- An operation on texts, and then what is kept of them. -/
theorem onPlain_map (st : Store S) (keyed : Bool) (db : Tables String) (op : StoreOp) :
    StoreOp.onPlain (kept st) keyed (db.map (kept st) (keptMeta st)) op =
      (StoreOp.onText keyed db op).map (kept st) (keptMeta st) := by
  cases op with
  | saveSession json =>
    refine ((map_setMeta _ _ db sessionKey json).trans ?_).symm
    rw [show keptMeta st sessionKey json = kept st json from if_pos (by decide)]
    rfl
  | setMeta k v => exact (map_setMeta _ _ db k v).symm
  | upsertRoom r => exact (map_upsertRoom _ _ db r _ _).symm
  | insertMessage m => exact (map_insertMessage _ _ db m _ _).symm
  | upgradeMessage e body => exact (map_upgradeMessage _ _ db e _).symm
  | recordEdit target ts body => exact (map_recordEdit _ _ db target _ _).symm
  | rememberMembers room names => exact (map_rememberMembers _ _ db room _).symm
  | putPickle kind id extra pickle => rfl
  | seedBackToken room token => exact (map_seedBackToken _ _ db room token).symm
  | setBackToken room token done => exact (map_setBackToken _ _ db room token done).symm
  | clear =>
    cases keyed with
    | false => rfl
    | true =>
      refine ((map_setMeta _ _ Tables.empty encryptedFlag "1").trans ?_).symm
      rw [show keptMeta st encryptedFlag "1" = some "1" from if_neg (by decide)]
      rfl

theorem runPlain_map (st : Store S) (keyed : Bool) : ∀ (ops : List StoreOp) (db : Tables String),
    runPlain (kept st) keyed (db.map (kept st) (keptMeta st)) ops =
      (runText keyed db ops).map (kept st) (keptMeta st)
  | [], _ => rfl
  | op :: ops, db => by
    show runPlain (kept st) keyed (StoreOp.onPlain (kept st) keyed _ op) ops = _
    rw [onPlain_map, runPlain_map st keyed ops]
    rfl

/-- **Every run keeps to the texts.** -/
theorem holds_execAll {st : Store S} {db : Tables String} (h : Holds st db)
    (run : List (StoreOp × Salts)) :
    Holds (execAll st run) (runText st.key.isSome db (run.map Prod.fst)) := by
  have hkept := kept_congr (key_execAll run st)
  have hmeta : keptMeta (execAll st run) = keptMeta st := by
    funext k v
    unfold keptMeta
    rw [hkept]
  unfold Holds
  rw [plain_execAll, h, runPlain_map, hkept, hmeta]

/-! ### Reads -/

theorem kept_eq_some_iff {st : Store S} {p : String} :
    kept st p = some p ↔ st.key ≠ none ∨ startsWith p encPrefix = false := by
  unfold kept
  by_cases hk : st.key = none <;> cases hp : startsWith p encPrefix <;> simp [hk]

theorem kept_of_not {st : Store S} {p : String}
    (h : ¬ (st.key ≠ none ∨ startsWith p encPrefix = false)) : kept st p = none := by
  unfold kept
  simpa using h

theorem reads_cons {st : Store S} {p : String} {ps : List String} :
    Reads st (p :: ps) ↔ (st.key ≠ none ∨ startsWith p encPrefix = false) ∧ Reads st ps := by
  unfold Reads
  rw [List.forall_mem_cons]
  tauto

theorem reads_nil {st : Store S} : Reads st [] := Or.inr fun _ h => nomatch h

theorem reads_append {st : Store S} {ps qs : List String} :
    Reads st (ps ++ qs) ↔ Reads st ps ∧ Reads st qs := by
  induction ps with
  | nil => exact ⟨fun h => ⟨reads_nil, h⟩, fun h => h.2⟩
  | cons p ps ih => rw [List.cons_append, reads_cons, reads_cons, ih, and_assoc]

theorem reads_flatMap {α : Type} {st : Store S} {f : α → List String} {l : List α} :
    Reads st (l.flatMap f) ↔ ∀ a ∈ l, Reads st (f a) := by
  induction l with
  | nil => exact ⟨fun _ _ h => (nomatch h), fun _ => reads_nil⟩
  | cons a l ih => rw [List.flatMap_cons, reads_append, List.forall_mem_cons, ih]

/-- A column that may be absent comes back, or fails. -/
theorem plainOpt_kept (st : Store S) (c : Option String) :
    (Reads st c.toList → plainOpt (c.map (kept st)) = some c) ∧
      (¬ Reads st c.toList → plainOpt (c.map (kept st)) = none) := by
  cases c with
  | none => exact ⟨fun _ => rfl, fun h => absurd reads_nil h⟩
  | some p =>
    rw [show (some p).toList = [p] from rfl, reads_cons]
    constructor
    · rintro ⟨h, -⟩
      unfold plainOpt
      rw [Option.map_some, kept_eq_some_iff.mpr h]
      rfl
    · intro h
      unfold plainOpt
      rw [Option.map_some, kept_of_not fun hp => h ⟨hp, reads_nil⟩]
      rfl

/-- Where every row comes back or fails, so does the list. -/
theorem mapM_reads {α β γ : Type} {f : β → Option γ} {φ : α → β} {g : α → γ} {P : α → Prop} :
    ∀ {l : List α}, (∀ a ∈ l, P a → f (φ a) = some (g a)) → (∀ a ∈ l, ¬ P a → f (φ a) = none) →
      ((l.map φ).mapM f = some (l.map g) ↔ ∀ a ∈ l, P a)
  | [], _, _ => by simp
  | a :: l, hok, hfail => by
    have ih := mapM_reads (fun a' ha' => hok a' (List.mem_cons_of_mem _ ha'))
      fun a' ha' => hfail a' (List.mem_cons_of_mem _ ha')
    rw [List.forall_mem_cons, ← ih, List.map_cons, List.mapM_cons]
    by_cases ha : P a
    · rw [hok a List.mem_cons_self ha]
      cases (l.map φ).mapM f with
      | none => simp
      | some r => simp [ha]
    · rw [hfail a List.mem_cons_self ha]
      simp [ha]

/-- A message row comes back, or fails. -/
theorem plainMessage_kept (st : Store S) (db : Tables String) (m : String × MessageRow String) :
    (Reads st (messageTexts (saidMessage db m)) →
      plainMessage (db.map (kept st) (keptMeta st)) (m.1, m.2.map (kept st)) =
        some (saidMessage db m)) ∧
      (¬ Reads st (messageTexts (saidMessage db m)) →
        plainMessage (db.map (kept st) (keptMeta st)) (m.1, m.2.map (kept st)) = none) := by
  obtain ⟨e, row⟩ := m
  unfold messageTexts saidMessage
  dsimp only
  rw [reads_cons, reads_append]
  unfold plainMessage MessageRow.map
  dsimp only
  rw [Tables.lookup_members]
  obtain ⟨hn, hn'⟩ := plainOpt_kept st (db.members.lookup (row.room, row.sender))
  obtain ⟨hc, hc'⟩ := plainOpt_kept st row.ciphertext
  constructor
  · rintro ⟨hbody, hname, hct⟩
    rw [kept_eq_some_iff.mpr hbody, hn hname, hc hct]
  · intro h
    by_cases hbody : st.key ≠ none ∨ startsWith row.body encPrefix = false
    · rw [kept_eq_some_iff.mpr hbody]
      by_cases hname : Reads st (db.members.lookup (row.room, row.sender)).toList
      · rw [hn hname, hc' fun hct => h ⟨hbody, hname, hct⟩]
      · rw [hn' hname]
    · rw [kept_of_not hbody]

/-- A room row comes back, or fails. -/
theorem plainRoom_kept (st : Store S) (r : String × RoomRow String) :
    (Reads st (roomTexts (saidRoom r)) → plainRoom (r.1, r.2.map (kept st)) = some (saidRoom r)) ∧
      (¬ Reads st (roomTexts (saidRoom r)) → plainRoom (r.1, r.2.map (kept st)) = none) := by
  obtain ⟨id, row⟩ := r
  unfold roomTexts saidRoom plainRoom RoomRow.map
  dsimp only
  rw [reads_cons, reads_cons]
  constructor
  · rintro ⟨hname, hpreview, -⟩
    rw [kept_eq_some_iff.mpr hname, kept_eq_some_iff.mpr hpreview]
  · intro h
    by_cases hname : st.key ≠ none ∨ startsWith row.name encPrefix = false
    · rw [kept_eq_some_iff.mpr hname, kept_of_not fun hp => h ⟨hname, hp, reads_nil⟩]
    · rw [kept_of_not hname]

/-- One retry, on a plain database. -/
def plainRetry (m : String × MessageRow (Option String)) : Option (String × String × String) :=
  match m.2.sessionId, m.2.ciphertext with
  | some sid, some (some ct) => some (m.1, sid, ct)
  | _, _ => none

theorem readRetry_toOption (st : Store S) (m : String × MessageRow String) :
    (readRetry st m).toOption = plainRetry (m.1, m.2.map (look st)) := by
  obtain ⟨e, row⟩ := m
  unfold readRetry plainRetry MessageRow.map
  dsimp only
  cases row.sessionId with
  | none => rfl
  | some sid =>
    cases row.ciphertext with
    | none => rfl
    | some ct =>
      dsimp only [Option.map_some]
      rw [← reveal_toOption st "message.ciphertext" ct]
      cases st.reveal "message.ciphertext" ct <;> rfl

/-- **`undecryptedInRoom` on the plain database.** -/
theorem undecryptedInRoom_toOption (st : Store S) (room : String) (limit : ℕ) :
    (undecryptedInRoom st room limit).toOption =
      (newest (plain st) (retryable room) limit).mapM plainRetry := by
  have hn := newest_map (look st) (lookMeta st) st.db (retryable room) (retryable room)
    (retryable_map _ room) limit
  rw [show newest (plain st) (retryable room) limit = _ from hn]
  exact mapM_toOption (readRetry_toOption st) (newest st.db (retryable room) limit)

/-- **`listRooms` on the plain database.** -/
theorem listRooms_toOption (st : Store S) :
    (listRooms st).toOption = (roomRows (plain st)).mapM plainRoom := by
  have hn := roomRows_map (look st) (lookMeta st) st.db
  rw [show roomRows (plain st) = _ from hn]
  exact mapM_toOption (readRoom_toOption st) (roomRows st.db)

/-- **`getMeta` on the plain database.** -/
theorem getMeta_toOption (st : Store S) (k : String) :
    (getMeta st k).toOption = plainOpt ((plain st).metas.lookup k) := by
  have hl : (plain st).metas.lookup k = (st.db.metas.lookup k).map (lookMeta st k) :=
    Tables.lookup_metas _ _ st.db k
  rw [hl]
  unfold getMeta
  cases hs : secretMetaLabel k with
  | some label =>
    dsimp only
    rw [revealOpt_toOption]
    congr 2
    funext cell
    unfold lookMeta
    rw [hs]
    rfl
  | none =>
    dsimp only
    cases st.db.metas.lookup k with
    | none => rfl
    | some v =>
      unfold plainOpt lookMeta
      rw [hs]
      rfl

theorem ok_iff_toOption {α : Type} {r : Except String α} {a : α} :
    r = .ok a ↔ r.toOption = some a := by
  cases r <;> simp [Except.toOption]

section Answers
variable {st : Store S} {db : Tables String} (h : Holds st db)
include h

theorem recentMessages_iff (room : String) (limit : ℕ) :
    recentMessages st room limit = .ok (saidMessages db room limit) ↔
      Reads st ((saidMessages db room limit).flatMap messageTexts) := by
  have hn := newest_map (kept st) (keptMeta st) db (inRoom room) (inRoom room) (inRoom_map _ room) limit
  have hlist : ((newest db (inRoom room) limit).map fun m => (m.1, m.2.map (kept st))).mapM
      (plainMessage (db.map (kept st) (keptMeta st))) =
        some ((newest db (inRoom room) limit).map (saidMessage db)) ↔
      ∀ m ∈ newest db (inRoom room) limit, Reads st (messageTexts (saidMessage db m)) :=
    mapM_reads (fun m _ => (plainMessage_kept st db m).1) fun m _ => (plainMessage_kept st db m).2
  have hrev : ∀ r : Option (List Message), r.map List.reverse = some (saidMessages db room limit) ↔
      r = some ((newest db (inRoom room) limit).map (saidMessage db)) := by
    intro r
    unfold saidMessages
    cases r with
    | none => simp
    | some ms => simp [List.reverse_inj]
  rw [ok_iff_toOption, recentMessages_toOption, h, hn, reads_flatMap, hrev, hlist]
  unfold saidMessages
  simp only [List.mem_reverse, List.forall_mem_map]

theorem undecryptedInRoom_iff (room : String) (limit : ℕ) :
    undecryptedInRoom st room limit = .ok (saidRetries db room limit) ↔
      Reads st ((saidRetries db room limit).map fun r => r.2.2) := by
  have hn := newest_map (kept st) (keptMeta st) db (retryable room) (retryable room)
    (retryable_map _ room) limit
  rw [ok_iff_toOption, undecryptedInRoom_toOption, h, hn]
  unfold saidRetries
  -- the query selects rows that hold a session and a ciphertext
  have hrow : ∀ m ∈ newest db (retryable room) limit, ∃ sid ct, m.2.sessionId = some sid ∧
      m.2.ciphertext = some ct := by
    intro m hm
    have hp := (of_mem_newest hm).2
    unfold retryable at hp
    simp only [Bool.and_eq_true] at hp
    obtain ⟨sid, hsid⟩ := Option.isSome_iff_exists.mp hp.1.2
    obtain ⟨ct, hct⟩ := Option.isSome_iff_exists.mp hp.2
    exact ⟨sid, ct, hsid, hct⟩
  have hlist := mapM_reads (l := newest db (retryable room) limit) (f := plainRetry)
    (φ := fun m => (m.1, m.2.map (kept st))) (g := saidRetry)
    (P := fun m => Reads st [(saidRetry m).2.2]) (fun m hm hr => ?_) fun m hm hr => ?_
  · rw [hlist]
    unfold Reads
    simp only [List.mem_singleton, forall_eq, List.map_map, List.forall_mem_map, Function.comp_apply]
    by_cases hk : st.key = none <;> simp [hk]
  · obtain ⟨e, row⟩ := m
    obtain ⟨sid, ct, hsid, hct⟩ := hrow _ hm
    dsimp only at hsid hct
    unfold saidRetry at hr ⊢
    dsimp only at hr ⊢
    rw [hct, Option.getD_some, reads_cons] at hr
    unfold plainRetry MessageRow.map
    dsimp only
    rw [hsid, hct, Option.map_some, kept_eq_some_iff.mpr hr.1]
    rfl
  · obtain ⟨e, row⟩ := m
    obtain ⟨sid, ct, hsid, hct⟩ := hrow _ hm
    dsimp only at hsid hct
    unfold saidRetry at hr
    dsimp only at hr
    rw [hct, Option.getD_some, reads_cons] at hr
    unfold plainRetry MessageRow.map
    dsimp only
    rw [hsid, hct, Option.map_some, kept_of_not fun hp => hr ⟨hp, reads_nil⟩]

theorem getRoom_iff (id : String) :
    getRoom st id = .ok (saidRoomOf db id) ↔
      Reads st ((saidRoomOf db id).toList.flatMap roomTexts) := by
  rw [ok_iff_toOption, getRoom_toOption, h, Tables.lookup_rooms, reads_flatMap]
  unfold saidRoomOf
  cases db.rooms.lookup id with
  | none => simp
  | some row =>
    obtain ⟨hok, hfail⟩ := plainRoom_kept st (id, row)
    simp only [Option.map_some, Option.toList_some, List.mem_singleton, forall_eq]
    by_cases hr : Reads st (roomTexts (saidRoom (id, row)))
    · rw [hok hr]
      simp [hr]
    · rw [hfail hr]
      simp [hr]

theorem listRooms_iff :
    listRooms st = .ok (saidRooms db) ↔ Reads st ((saidRooms db).flatMap roomTexts) := by
  have hn := roomRows_map (kept st) (keptMeta st) db
  rw [ok_iff_toOption, listRooms_toOption, h, hn, reads_flatMap]
  unfold saidRooms
  rw [mapM_reads (fun r _ => (plainRoom_kept st r).1) (fun r _ => (plainRoom_kept st r).2)]
  simp only [List.forall_mem_map]

theorem getMeta_iff (k : String) (hk : (secretMetaLabel k).isSome) :
    getMeta st k = .ok (db.metas.lookup k) ↔ Reads st (db.metas.lookup k).toList := by
  have hl : (db.map (kept st) (keptMeta st)).metas.lookup k =
      (db.metas.lookup k).map (kept st) := by
    rw [Tables.lookup_metas]
    congr 1
    funext v
    exact if_pos hk
  obtain ⟨hok, hfail⟩ := plainOpt_kept st (db.metas.lookup k)
  rw [ok_iff_toOption, getMeta_toOption, h, hl]
  by_cases hr : Reads st (db.metas.lookup k).toList
  · rw [hok hr]
    simp [hr]
  · rw [hfail hr]
    simp [hr]

end Answers

/-- **Texts there and back.** After any run, each read of a store that holds texts returns what was
written, exactly if the store has a key or none of the texts it is to return begins with `k1:`. -/
theorem roundTrips_iff (st : Store S) (db : Tables String) (hst : Holds st db)
    (run : List (StoreOp × Salts)) :
    let st' := execAll st run
    let db' := runText st.key.isSome db (run.map Prod.fst)
    (∀ room limit, recentMessages st' room limit = .ok (saidMessages db' room limit) ↔
      Reads st ((saidMessages db' room limit).flatMap messageTexts)) ∧
    (∀ room limit, undecryptedInRoom st' room limit = .ok (saidRetries db' room limit) ↔
      Reads st ((saidRetries db' room limit).map fun r => r.2.2)) ∧
    (∀ id, getRoom st' id = .ok (saidRoomOf db' id) ↔
      Reads st ((saidRoomOf db' id).toList.flatMap roomTexts)) ∧
    (listRooms st' = .ok (saidRooms db') ↔ Reads st ((saidRooms db').flatMap roomTexts)) ∧
    ∀ k, (secretMetaLabel k).isSome →
      (getMeta st' k = .ok (db'.metas.lookup k) ↔ Reads st (db'.metas.lookup k).toList) := by
  have h := holds_execAll hst run
  have hreads : Reads (execAll st run) = Reads st := by
    funext texts
    unfold Reads
    rw [key_execAll]
  rw [← hreads]
  exact ⟨recentMessages_iff h, undecryptedInRoom_iff h, getRoom_iff h, listRooms_iff h,
    getMeta_iff h⟩

end Stores

/-! ### A text that begins with the prefix -/

/-- A message, and another whose text begins with the prefix. -/
def markedTexts : List (StoreOp × Salts) :=
  [(.insertMessage helloMessage, fun _ => zeroSalt),
    (.insertMessage { helloMessage with eventId := "$f", body := "k1:hi" }, fun _ => zeroSalt)]

/-- With a key both come back. -/
theorem roundTrips_markedTexts :
    recentMessages (execAll freshStore markedTexts) "!r" 10 =
      .ok (saidMessages (runText true freshStore.db (markedTexts.map Prod.fst)) "!r" 10) :=
  ((roundTrips_iff freshStore freshStore.db
    (holds_execAll (holds_empty (some zeroKey)) [(.clear, fun _ => zeroSalt)]) markedTexts).1 "!r"
      10).mpr (Or.inl (Option.some_ne_none _))

/-- Without a key neither does. -/
theorem not_roundTrips_markedTexts :
    ¬ ∀ (st : Store copySuite) (run : List (StoreOp × Salts)) (room : String) (limit : ℕ),
      st.db = Tables.empty →
      recentMessages (execAll st run) room limit =
        .ok (saidMessages (runText st.key.isSome st.db (run.map Prod.fst)) room limit) := by
  intro h
  have hread := h ⟨Tables.empty, none⟩ markedTexts "!r" 10 rfl
  have hfail : (recentMessages (execAll (⟨Tables.empty, none⟩ : Store copySuite) markedTexts) "!r"
      10).toOption = none := by decide +kernel
  rw [show recentMessages _ "!r" 10 = .ok _ from hread] at hfail
  cases hfail

end Kmatrix.Storage.RoundTrip
