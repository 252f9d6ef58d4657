import Kmatrix.Lib.Sweep
import Kmatrix.Sync.Replay
import Mathlib.Data.List.TakeWhile

/-! # Running a batch again

`roomsTrace` reads every room before it writes it. On a store in which every room of the batch can be
read the trace is the concatenation of the rooms' writes (`roomsTrace_eq`): no room's writes change
what another room is read as. The repetition starts from a store that holds a prefix of them; there a
room is what it was, or what the batch made of it, so it writes the same again (`finalRoom_again`), and
writing it again makes up for the interruption (`Storage.Replay`).

`processSync_rerun_iff` is the result: the token is written last, and the repetition completes and
ends where one uninterrupted run ends exactly if every room the interruption left behind can still be
read. In a store with a key it always can. -/

namespace Kmatrix.Sync.Rerun

open Kmatrix.Lib.Newest Kmatrix.Lib.Keyed Kmatrix.Storage.Seal Kmatrix.Storage.Schema
open Kmatrix.Storage.Write Kmatrix.Storage.Read Kmatrix.Storage.Plain Kmatrix.Storage.View
open Kmatrix.Storage.Event Kmatrix.Storage.Replay Kmatrix.Sync.Plaintext Kmatrix.Sync.Events
open Kmatrix.Sync.Convert Kmatrix.Sync.Process Kmatrix.Sync.Replay
open Kmatrix.Lib.Sweep (takeWhile_congr)

/-! ### Reading a room -/

/-- What a room is read as, by its row. -/
def readRow (id : String) : Option PlainRoomRow → Option (Option Room)
  | some row => (plainRoom (id, row)).map some
  | none => some none

section Reading
variable {S : CipherSuite} {st : Store S} {id : String}

theorem getRoom_eq (st : Store S) (id : String) :
    (getRoom st id).toOption = readRow id ((plain st).rooms.lookup id) := by
  rw [getRoom_toOption]
  unfold readRow
  cases (plain st).rooms.lookup id <;> rfl

theorem getRoom_ok {x : Option Room} :
    getRoom st id = .ok x ↔ readRow id ((plain st).rooms.lookup id) = some x := by
  rw [← getRoom_eq]
  cases getRoom st id <;> simp [Except.toOption]

/-- The room can be read. -/
def CanRead (st : Store S) (id : String) : Prop :=
  (readRow id ((plain st).rooms.lookup id)).isSome = true

instance (st : Store S) (id : String) : Decidable (CanRead st id) := by
  unfold CanRead; infer_instance

/-- What is stored of the room, where it can be read. -/
def storedRoom (st : Store S) (id : String) : Option Room :=
  (readRow id ((plain st).rooms.lookup id)).join

theorem storedRoom_congr {a b : Store S}
    (h : (plain a).rooms.lookup id = (plain b).rooms.lookup id) : storedRoom a id = storedRoom b id := by
  unfold storedRoom
  rw [h]

theorem getRoom_of_canRead (h : CanRead st id) : getRoom st id = .ok (storedRoom st id) := by
  obtain ⟨x, hx⟩ := Option.isSome_iff_exists.mp h
  rw [getRoom_ok, hx]
  unfold storedRoom
  rw [hx]
  rfl

theorem error_of_not_canRead (h : ¬ CanRead st id) : ∃ e, getRoom st id = .error e := by
  cases hg : getRoom st id with
  | error e => exact ⟨e, rfl⟩
  | ok x =>
    have hx := getRoom_ok.mp hg
    unfold CanRead at h
    rw [hx] at h
    exact absurd rfl h

theorem plainRoom_id {row : PlainRoomRow} {r : Room} (h : plainRoom (id, row) = some r) :
    r.id = id := by
  unfold plainRoom at h
  dsimp only at h
  split at h
  · cases h; rfl
  · cases h

theorem named_storedRoom (st : Store S) (id : String) : Named id (storedRoom st id) := by
  intro r hr
  unfold storedRoom readRow at hr
  cases hl : (plain st).rooms.lookup id with
  | none => rw [hl] at hr; cases hr
  | some row =>
    rw [hl] at hr
    dsimp only at hr
    cases hp : plainRoom (id, row) with
    | none => rw [hp] at hr; cases hr
    | some r' =>
      rw [hp] at hr
      rw [← Option.some.inj hr]
      exact plainRoom_id hp

end Reading

/-! ### Runs of writes -/

section Runs
variable {S : CipherSuite} (rng : ℕ → Salts) (st : Store S) (ops : List StoreOp)

theorem key_execOps : (execOps rng st ops).key = st.key := key_execAll _ st

theorem map_fst_mapIdx : (ops.mapIdx fun i op => (op, rng i)).map Prod.fst = ops := by
  refine List.ext_getElem (by simp) fun i h1 h2 => ?_
  rw [List.getElem_map, List.getElem_mapIdx]

theorem plain_execOps :
    plain (execOps rng st ops) = runPlain (kept st) st.key.isSome (plain st) ops := by
  unfold execOps
  rw [plain_execAll, map_fst_mapIdx]

theorem contents_execOps :
    contents (execOps rng st ops) = runPlain some st.key.isSome (contents st) ops := by
  unfold execOps
  rw [contents_execAll, map_fst_mapIdx]

/-- The row of a room after a run. -/
theorem room_execOps (r : String) :
    (plain (execOps rng st ops)).rooms.lookup r =
      roomRun (kept st) r ((plain st).rooms.lookup r) ops := by
  rw [plain_execOps, room_runPlain]

end Runs

/-! ### The trace -/

section Trace
variable {S : CipherSuite} (convert : String → RoomEvent → Converted)

/-- The writes of the rooms, each read as `stored` says. -/
def blocks (stored : String → Option Room) (join : List (String × JoinedRoom)) : List StoreOp :=
  join.flatMap fun p => roomOps (convert p.1) p.1 p.2 (stored p.1)

/-- A room's writes leave other rooms alone. -/
theorem room_execOps_of_ne {rng : ℕ → Salts} {st : Store S} {id : String} {jr : JoinedRoom}
    {stored : Option Room} (hnamed : Named id stored) {r : String} (hr : id ≠ r) :
    (plain (execOps rng st (roomOps (convert id) id jr stored))).rooms.lookup r =
      (plain st).rooms.lookup r := by
  rw [room_execOps, roomRun_filter, filter_roomTouches (convert id) jr hnamed r, if_neg hr]
  rfl

/-- **The trace**: the writes of the rooms up to the first that cannot be read. -/
theorem roomsTrace_fst : ∀ (join : List (String × JoinedRoom)) (rng : ℕ → Salts) (st : Store S),
    (join.map Prod.fst).Nodup →
    (roomsTrace convert rng st join).1 =
      blocks convert (storedRoom st) (join.takeWhile fun p => CanRead st p.1)
  | [], _, _, _ => rfl
  | (id, jr) :: rest, rng, st, hnd => by
    obtain ⟨hid, hnd'⟩ := List.nodup_cons.mp hnd
    by_cases hread : CanRead st id
    · -- the other rooms are read as before
      have hsame : ∀ p ∈ rest,
          (plain (execOps rng st (roomOps (convert id) id jr (storedRoom st id)))).rooms.lookup p.1 =
            (plain st).rooms.lookup p.1 := by
        intro p hp
        refine room_execOps_of_ne convert (named_storedRoom st id) ?_
        rintro rfl
        exact hid (List.mem_map.mpr ⟨p, hp, rfl⟩)
      have hwhile : (rest.takeWhile fun p => CanRead
            (execOps rng st (roomOps (convert id) id jr (storedRoom st id))) p.1) =
          rest.takeWhile fun p => CanRead st p.1 := by
        refine takeWhile_congr fun p hp => decide_eq_decide.mpr ?_
        unfold CanRead
        rw [hsame p hp]
      unfold roomsTrace
      rw [getRoom_of_canRead hread, List.takeWhile_cons_of_pos (by simpa using hread)]
      dsimp only
      rw [roomsTrace_fst rest _ _ hnd', hwhile]
      have hblocks : blocks convert
            (storedRoom (execOps rng st (roomOps (convert id) id jr (storedRoom st id))))
            (rest.takeWhile fun p => CanRead st p.1) =
          blocks convert (storedRoom st) (rest.takeWhile fun p => CanRead st p.1) := by
        refine List.flatMap_congr fun p hp => ?_
        rw [storedRoom_congr (hsame p ((List.takeWhile_sublist _).subset hp))]
      rw [hblocks]
      rfl
    · obtain ⟨e, he⟩ := error_of_not_canRead hread
      unfold roomsTrace
      rw [he, List.takeWhile_cons_of_neg (by simpa using hread)]
      rfl

/-- **The writes of a batch**: those of the rooms it gets to, and the token if it gets to the end. -/
theorem processTrace_fst (rng : ℕ → Salts) (st : Store S) (batch : SyncBatch) :
    ∃ tail, (∀ op ∈ tail, op = .setMeta "sync_token" batch.nextBatch) ∧
      (processTrace convert rng st batch).1 =
        blocks convert (storedRoom st) (batch.join.takeWhile fun p => CanRead st p.1) ++ tail := by
  have hfst := roomsTrace_fst convert batch.join rng st batch.nodup
  unfold processTrace
  dsimp only
  rw [← hfst]
  cases (roomsTrace convert rng st batch.join).2 with
  | error e => exact ⟨[], by simp, (List.append_nil _).symm⟩
  | ok u => exact ⟨[.setMeta "sync_token" batch.nextBatch], by simp, rfl⟩

theorem filter_tail {tail : List StoreOp} {token : String}
    (h : ∀ op ∈ tail, op = .setMeta "sync_token" token) (p : StoreOp → Bool)
    (hp : p (.setMeta "sync_token" token) = false) : tail.filter p = [] :=
  List.filter_eq_nil_iff.mpr fun op hop => by
    rw [h op hop, hp]
    exact Bool.false_ne_true

/-- **The rooms section completes exactly if every room can be read.** -/
theorem roomsTrace_ok_iff : ∀ (join : List (String × JoinedRoom)) (rng : ℕ → Salts) (st : Store S),
    (join.map Prod.fst).Nodup →
    ((roomsTrace convert rng st join).2 = .ok () ↔ ∀ p ∈ join, CanRead st p.1)
  | [], _, _, _ => ⟨fun _ p hp => absurd hp (by simp), fun _ => rfl⟩
  | (id, jr) :: rest, rng, st, hnd => by
    obtain ⟨hid, hnd'⟩ := List.nodup_cons.mp hnd
    by_cases hread : CanRead st id
    · have hrest := roomsTrace_ok_iff rest
        (fun i => rng ((roomOps (convert id) id jr (storedRoom st id)).length + i))
        (execOps rng st (roomOps (convert id) id jr (storedRoom st id))) hnd'
      have hres : (roomsTrace convert rng st ((id, jr) :: rest)).2 =
          (roomsTrace convert
            (fun i => rng ((roomOps (convert id) id jr (storedRoom st id)).length + i))
            (execOps rng st (roomOps (convert id) id jr (storedRoom st id))) rest).2 := by
        conv_lhs => unfold roomsTrace
        rw [getRoom_of_canRead hread]
      rw [hres, hrest, List.forall_mem_cons]
      have hsame : ∀ p ∈ rest, (CanRead
          (execOps rng st (roomOps (convert id) id jr (storedRoom st id))) p.1 ↔ CanRead st p.1) := by
        intro p hp
        unfold CanRead
        rw [room_execOps_of_ne convert (named_storedRoom st id)]
        rintro rfl
        exact hid (List.mem_map.mpr ⟨p, hp, rfl⟩)
      exact ⟨fun h => ⟨hread, fun p hp => (hsame p hp).mp (h p hp)⟩,
        fun h p hp => (hsame p hp).mpr (h.2 p hp)⟩
    · obtain ⟨e, he⟩ := error_of_not_canRead hread
      have hres : (roomsTrace convert rng st ((id, jr) :: rest)).2 = .error e := by
        unfold roomsTrace
        rw [he]
      rw [hres, List.forall_mem_cons]
      exact ⟨fun h => absurd h (by simp), fun h => absurd h.1 hread⟩

/-- The trace where every room can be read. -/
theorem roomsTrace_eq {join : List (String × JoinedRoom)} {rng : ℕ → Salts} {st : Store S}
    (hnd : (join.map Prod.fst).Nodup) (hread : ∀ p ∈ join, CanRead st p.1) :
    roomsTrace convert rng st join = (blocks convert (storedRoom st) join, .ok ()) := by
  have hfst := roomsTrace_fst convert join rng st hnd
  rw [List.takeWhile_eq_self_iff.mpr fun p hp => decide_eq_true (hread p hp)] at hfst
  exact Prod.ext hfst ((roomsTrace_ok_iff convert join rng st hnd).mpr hread)

/-- The writes of the rooms section: none of them to `meta`, none to a pickle. -/
def RoomsWrite : StoreOp → Prop
  | .rememberMembers _ _ | .recordEdit _ _ _ | .insertMessage _ | .upsertRoom _
  | .seedBackToken _ _ => True
  | _ => False

theorem roomsWrite_roomOps {id : String} {jr : JoinedRoom} {stored : Option Room} :
    ∀ op ∈ roomOps (convert id) id jr stored, RoomsWrite op := by
  intro op hop
  unfold roomOps at hop
  simp only [List.mem_append, List.mem_map, List.mem_singleton] at hop
  rcases hop with (((h | ⟨e, -, rfl⟩) | ⟨m, -, rfl⟩) | rfl) | h
  · split_ifs at h
    · cases h
    · rw [List.mem_singleton.mp h]; trivial
  · trivial
  · trivial
  · trivial
  · cases hp : jr.prevBatch with
    | none => rw [hp] at h; cases h
    | some prev => rw [hp] at h; rw [List.mem_singleton.mp h]; trivial

theorem roomsWrite_roomsTrace : ∀ (join : List (String × JoinedRoom)) (rng : ℕ → Salts)
    (st : Store S), ∀ op ∈ (roomsTrace convert rng st join).1, RoomsWrite op
  | [], _, _, op, h => absurd h (by simp [roomsTrace])
  | (id, jr) :: rest, rng, st, op, h => by
    unfold roomsTrace at h
    cases hg : getRoom st id with
    | error e => rw [hg] at h; cases h
    | ok stored =>
      rw [hg] at h
      rcases List.mem_append.mp h with h | h
      · exact roomsWrite_roomOps convert op h
      · exact roomsWrite_roomsTrace rest _ _ op h

theorem onPlain_roomsWrite {keep : String → Option String} {keyed : Bool} {db : PlainTables}
    {op : StoreOp} (h : RoomsWrite op) :
    (StoreOp.onPlain keep keyed db op).metas = db.metas ∧
      (StoreOp.onPlain keep keyed db op).pickles = db.pickles := by
  cases op with
  | recordEdit target ts body =>
    show (recordEditStmt db target _ _).1.metas = _ ∧ (recordEditStmt db target _ _).1.pickles = _
    unfold recordEditStmt
    split_ifs <;> exact ⟨rfl, rfl⟩
  | seedBackToken room token =>
    obtain ⟨rooms, hrooms⟩ := seedBackTokenStmt_eq db room token
    show (seedBackTokenStmt db room token).1.metas = _ ∧
      (seedBackTokenStmt db room token).1.pickles = _
    rw [hrooms]
    exact ⟨rfl, rfl⟩
  | saveSession _ | setMeta _ _ | upgradeMessage _ _ | putPickle _ _ _ _ | setBackToken _ _ _
  | clear => exact absurd h (by unfold RoomsWrite; exact not_false)
  | rememberMembers _ _ | insertMessage _ | upsertRoom _ => exact ⟨rfl, rfl⟩

theorem pickles_runPlain {keep : String → Option String} {keyed : Bool} :
    ∀ (ops : List StoreOp) (db : PlainTables),
      (∀ op ∈ ops, RoomsWrite op ∨ ∃ t, op = .setMeta "sync_token" t) →
      (runPlain keep keyed db ops).pickles = db.pickles
  | [], _, _ => rfl
  | op :: ops, db, h => by
    refine (pickles_runPlain ops (StoreOp.onPlain keep keyed db op)
      fun op' hop' => h op' (by simp [hop'])).trans ?_
    rcases h op (by simp) with hop | ⟨t, rfl⟩
    · exact (onPlain_roomsWrite hop).2
    · rfl

/-- **The token is written once, at the end**: what a run of these writes leaves in `meta`. -/
theorem metas_runPlain {keep : String → Option String} {keyed : Bool} {token : String} :
    ∀ (ops : List StoreOp) (db : PlainTables),
      (∀ op ∈ ops, RoomsWrite op ∨ op = .setMeta "sync_token" token) → ∀ k,
      (runPlain keep keyed db ops).metas.lookup k =
        if k = "sync_token" ∧ StoreOp.setMeta "sync_token" token ∈ ops then some (some token)
        else db.metas.lookup k
  | [], _, _, k => (if_neg (fun h => absurd h.2 (by simp))).symm
  | op :: ops, db, h, k => by
    refine (metas_runPlain ops (StoreOp.onPlain keep keyed db op)
      (fun op' hop' => h op' (by simp [hop'])) k).trans ?_
    rcases h op (by simp) with hop | rfl
    · have hne : op ≠ .setMeta "sync_token" token := by
        rintro rfl
        exact hop
      rw [(onPlain_roomsWrite hop).1]
      simp only [List.mem_cons, hne.symm, false_or]
    · have hstep : (StoreOp.onPlain keep keyed db (.setMeta "sync_token" token)).metas.lookup k =
          if k = "sync_token" then some (some token) else db.metas.lookup k := by
        refine (Table.lookup_upsert db.metas "sync_token" k _ _).trans ?_
        rw [if_neg (show ¬ (secretMetaLabel "sync_token").isSome = true by decide)]
        cases db.metas.lookup "sync_token" <;> rfl
      rw [hstep]
      by_cases hk : k = "sync_token"
      · have hmem : k = "sync_token" ∧
            StoreOp.setMeta "sync_token" token ∈ StoreOp.setMeta "sync_token" token :: ops :=
          ⟨hk, List.mem_cons_self⟩
        rw [if_pos hk, if_pos hmem, ite_self]
      · rw [if_neg hk, if_neg (fun h => hk h.1), if_neg (fun h => hk h.1)]

end Trace

/-! ### The writes by what they touch -/

section Blocks
variable {α β : Type}

/-- Under keys that do not repeat one entry contributes. -/
theorem flatMap_key (g : String × α → List β) : ∀ {l : List (String × α)},
    (l.map Prod.fst).Nodup → ∀ {p}, p ∈ l →
    (l.flatMap fun q => if q.1 = p.1 then g q else []) = g p
  | q :: l, hnd, p, hp => by
    obtain ⟨hq, hnd'⟩ := List.nodup_cons.mp hnd
    rw [List.flatMap_cons]
    rcases List.mem_cons.mp hp with rfl | hp
    · rw [if_pos rfl, List.flatMap_eq_nil_iff.mpr, List.append_nil]
      intro q' hq'
      exact if_neg fun h => hq (List.mem_map.mpr ⟨q', hq', h⟩)
    · rw [if_neg (fun h => hq (List.mem_map.mpr ⟨p, hp, h.symm⟩)), List.nil_append]
      exact flatMap_key g hnd' hp

theorem flatMap_no_key (g : String × α → List β) {l : List (String × α)} {r : String}
    (h : ∀ p ∈ l, p.1 ≠ r) : (l.flatMap fun q => if q.1 = r then g q else []) = [] :=
  List.flatMap_eq_nil_iff.mpr fun p hp => if_neg (h p hp)

/-- Where one entry at most contributes, the order of the entries does not count. -/
theorem flatMap_perm {f : α → List β} {l l' : List α} (hl : l.Perm l') :
    (∀ a ∈ l, ∀ b ∈ l, f a ≠ [] → f b ≠ [] → a = b) → l.flatMap f = l'.flatMap f := by
  induction hl with
  | nil => intro _; rfl
  | cons a _ ih =>
    intro h
    rw [List.flatMap_cons, List.flatMap_cons, ih fun b hb c hc =>
      h b (by simp [hb]) c (by simp [hc])]
  | swap a b l =>
    intro h
    simp only [List.flatMap_cons]
    by_cases ha : f a = []
    · rw [ha, List.nil_append, List.nil_append]
    · by_cases hb : f b = []
      · rw [hb, List.nil_append, List.nil_append]
      · rw [h a (by simp) b (by simp) ha hb]
  | trans h1 _ ih1 ih2 =>
    intro h
    exact (ih1 h).trans (ih2 fun a ha b hb => h a (h1.mem_iff.mpr ha) b (h1.mem_iff.mpr hb))

end Blocks

section Touch
variable (convert : String → RoomEvent → Converted) {stored : String → Option Room}
  {join : List (String × JoinedRoom)}

/-- What the batch makes of a room. -/
def madeOf (stored : String → Option Room) (p : String × JoinedRoom) : Room :=
  finalRoom (convert p.1) p.1 p.2 (stored p.1)

theorem rooms_blocks (hs : ∀ id, Named id (stored id)) (hnd : (join.map Prod.fst).Nodup)
    {p : String × JoinedRoom} (hp : p ∈ join) :
    (blocks convert stored join).filter (roomTouches p.1) =
      roomBlock (madeOf convert stored p) p.2.prevBatch := by
  unfold blocks
  rw [List.filter_flatMap]
  rw [List.flatMap_congr fun q _ => filter_roomTouches (convert q.1) q.2 (hs q.1) p.1]
  exact flatMap_key (fun q => roomBlock (madeOf convert stored q) q.2.prevBatch) hnd hp

theorem rooms_blocks_none (hs : ∀ id, Named id (stored id)) {r : String}
    (hr : ∀ p ∈ join, p.1 ≠ r) : (blocks convert stored join).filter (roomTouches r) = [] := by
  unfold blocks
  rw [List.filter_flatMap]
  rw [List.flatMap_congr fun q _ => filter_roomTouches (convert q.1) q.2 (hs q.1) r]
  exact flatMap_no_key (fun q => roomBlock (madeOf convert stored q) q.2.prevBatch) hr

theorem members_blocks (hs : ∀ id, Named id (stored id)) (hnd : (join.map Prod.fst).Nodup)
    {p : String × JoinedRoom} (hp : p ∈ join) :
    (blocks convert stored join).filter (memberTouches p.1) = nameOps p.1 p.2 := by
  unfold blocks
  rw [List.filter_flatMap]
  rw [List.flatMap_congr fun q _ => filter_memberTouches (convert q.1) q.2 (hs q.1) p.1]
  exact flatMap_key (fun q => nameOps q.1 q.2) hnd hp

theorem members_blocks_none (hs : ∀ id, Named id (stored id)) {r : String}
    (hr : ∀ p ∈ join, p.1 ≠ r) : (blocks convert stored join).filter (memberTouches r) = [] := by
  unfold blocks
  rw [List.filter_flatMap]
  rw [List.flatMap_congr fun q _ => filter_memberTouches (convert q.1) q.2 (hs q.1) r]
  exact flatMap_no_key (fun q => nameOps q.1 q.2) hr

/-- The inserts of an event, over all rooms. -/
theorem insertsOf_blocks (hs : ∀ id, Named id (stored id)) (e : String) :
    insertsOf e (blocks convert stored join) =
      join.flatMap fun p => (messagesOf (convert p.1) p.2).filter fun m => m.eventId = e := by
  unfold insertsOf blocks
  rw [List.filterMap_flatMap]
  exact List.flatMap_congr fun p _ => insertsOf_roomOps (convert p.1) p.2 (hs p.1) e

theorem mem_editsOf_blocks (hs : ∀ id, Named id (stored id)) {e : String} {x : ℕ × String} :
    x ∈ editsOf e (blocks convert stored join) ↔
      ∃ p ∈ join, ∃ d ∈ editsIn (convert p.1) p.2, d.target = e ∧ x = ((d.ts : ℕ), d.body) := by
  unfold editsOf blocks
  rw [List.filterMap_flatMap, List.mem_flatMap]
  constructor
  · rintro ⟨p, hp, hx⟩
    exact ⟨p, hp, (mem_editsOf_roomOps (convert p.1) p.2 (hs p.1)).mp hx⟩
  · rintro ⟨p, hp, hx⟩
    exact ⟨p, hp, (mem_editsOf_roomOps (convert p.1) p.2 (hs p.1)).mpr hx⟩

theorem batched_blocks : ∀ op ∈ blocks convert stored join, Batched op = true := by
  intro op hop
  obtain ⟨p, -, hop⟩ := List.mem_flatMap.mp hop
  exact batched_roomOps (convert p.1) p.2 op hop

theorem roomsWrite_blocks : ∀ op ∈ blocks convert stored join, RoomsWrite op := by
  intro op hop
  obtain ⟨p, -, hop⟩ := List.mem_flatMap.mp hop
  exact roomsWrite_roomOps convert op hop

end Touch

/-! ### Reading a room back -/

section Back
variable (convert : RoomEvent → Converted) {jr : JoinedRoom} {id : String}
  {keep : String → Option String} {stored : Option Room}

/-- **A room that was written and is read back** takes the batch without a change. The row is the one
the upsert wrote, whatever its pagination edge. -/
theorem finalRoom_again (hkeep : ∀ p q, keep p = some q → q = p) (hnamed : Named id stored)
    (hts : (stored.getD (newRoom id)).lastTs < 2 ^ 63) {row : PlainRoomRow}
    (hname : row.name = keep (finalRoom convert id jr stored).name)
    (henc : row.encrypted = boolI64 (finalRoom convert id jr stored).encrypted)
    (hlast : row.lastTs = asI64 (finalRoom convert id jr stored).lastTs)
    (hpre : row.lastPreview = keep (finalRoom convert id jr stored).lastPreview)
    {stored' : Option Room} (h : readRow id (some row) = some stored') :
    finalRoom convert id jr stored' = finalRoom convert id jr stored := by
  unfold readRow plainRoom at h
  dsimp only at h
  cases hn : row.name with
  | none => rw [hn] at h; cases h
  | some name =>
    cases hp : row.lastPreview with
    | none => rw [hn, hp] at h; cases h
    | some lastPreview =>
      rw [hn, hp] at h
      have hname' := hkeep _ _ (hname.symm.trans hn)
      have hpre' := hkeep _ _ (hpre.symm.trans hp)
      obtain rfl := Option.some.inj h
      have hid : (stored.getD (newRoom id)).id = id := by
        cases stored with
        | none => rfl
        | some r => exact hnamed r rfl
      refine foldRoom_again convert jr hid.symm hname' ?_ ?_ hpre'
      · show decide (row.encrypted ≠ 0) = _
        rw [henc]
        simp only [boolI64_ne_zero, Bool.decide_eq_true]
        rfl
      · -- without a message the timestamp is the one that was read
        by_cases hm : messagesOf convert jr = []
        · refine Or.inl ?_
          have hfinal : (finalRoom convert id jr stored).lastTs = (stored.getD (newRoom id)).lastTs := by
            unfold finalRoom
            rw [foldRoom_eq, hm]
            rfl
          show asU64 row.lastTs = (finalRoom convert id jr stored).lastTs
          rw [hlast, hfinal, asI64_of_lt hts]
          rfl
        · exact Or.inr hm

/-- What a prefix of a room's block leaves to be read: the room as it was, or as the batch makes it. -/
theorem readRow_prefix (hkeep : ∀ p q, keep p = some q → q = p) (hnamed : Named id stored)
    (hts : (stored.getD (newRoom id)).lastTs < 2 ^ 63) {row : Option PlainRoomRow}
    (hrow : readRow id row = some stored) {P : List StoreOp} {seed : Option String}
    (hP : P <+: roomBlock (finalRoom convert id jr stored) seed) :
    ((readRow id (roomRun keep id row P)).isSome = true ↔ P = [] ∨
      (keep (finalRoom convert id jr stored).name).isSome = true ∧
        (keep (finalRoom convert id jr stored).lastPreview).isSome = true) ∧
    ∀ stored', readRow id (roomRun keep id row P) = some stored' →
      finalRoom convert id jr stored' = finalRoom convert id jr stored := by
  have hid := finalRoom_id convert jr hnamed
  -- the two columns are all a read needs
  have hcols : ∀ r : PlainRoomRow, r.name = keep (finalRoom convert id jr stored).name →
      r.lastPreview = keep (finalRoom convert id jr stored).lastPreview →
      ((readRow id (some r)).isSome = true ↔
        (keep (finalRoom convert id jr stored).name).isSome = true ∧
          (keep (finalRoom convert id jr stored).lastPreview).isSome = true) := by
    intro r hn hp
    unfold readRow plainRoom
    dsimp only
    rw [← hn, ← hp]
    cases r.name <;> cases r.lastPreview <;> simp
  have hmade : ∀ r : PlainRoomRow, r.name = keep (finalRoom convert id jr stored).name →
      r.encrypted = boolI64 (finalRoom convert id jr stored).encrypted →
      r.lastTs = asI64 (finalRoom convert id jr stored).lastTs →
      r.lastPreview = keep (finalRoom convert id jr stored).lastPreview → P ≠ [] →
      roomRun keep id row P = some r →
      ((readRow id (roomRun keep id row P)).isSome = true ↔ P = [] ∨
        (keep (finalRoom convert id jr stored).name).isSome = true ∧
          (keep (finalRoom convert id jr stored).lastPreview).isSome = true) ∧
      ∀ stored', readRow id (roomRun keep id row P) = some stored' →
        finalRoom convert id jr stored' = finalRoom convert id jr stored := by
    intro r hn he ht hp hne hrun
    rw [hrun, hcols r hn hp]
    exact ⟨⟨Or.inr, fun h => h.resolve_left hne⟩,
      fun _ h => finalRoom_again convert hkeep hnamed hts hn he ht hp h⟩
  rcases prefix_roomBlock hP with rfl | rfl | rfl
  · have hsame : roomRun keep id row [] = row := rfl
    rw [hsame, hrow]
    exact ⟨⟨fun _ => Or.inl rfl, fun _ => rfl⟩, fun _ h => by rw [Option.some.inj h]⟩
  · have hstep := roomStep_upsert keep (finalRoom convert id jr stored) row
    rw [hid] at hstep
    exact hmade _ rfl rfl rfl rfl (List.cons_ne_nil _ _) hstep
  · have hrun := roomRun_block keep (finalRoom convert id jr stored) seed row
    rw [hid] at hrun
    have hne : roomBlock (finalRoom convert id jr stored) seed ≠ [] := by
      unfold roomBlock
      cases seed <;> exact List.cons_ne_nil _ _
    cases seed with
    | none => exact hmade _ rfl rfl rfl rfl hne hrun
    | some token => exact hmade _ rfl rfl rfl rfl hne hrun

end Back

/-! ### The batch again -/

/-- **Two stores hold the same rows**, up to the salts. -/
structure SameRows {S : CipherSuite} (a b : Store S) : Prop where
  metas : ∀ k, (contents a).metas.lookup k = (contents b).metas.lookup k
  rooms : ∀ id, (contents a).rooms.lookup id = (contents b).rooms.lookup id
  messages : ∀ e, (contents a).messages.lookup e = (contents b).messages.lookup e
  pickles : ∀ k, (contents a).pickles.lookup k = (contents b).pickles.lookup k
  edits : ∀ e, (contents a).edits.lookup e = (contents b).edits.lookup e
  members : ∀ k, (contents a).members.lookup k = (contents b).members.lookup k

/-- The `last_ts` column is a 64-bit integer. -/
def LastTsI64 {S : CipherSuite} (st : Store S) : Prop :=
  ∀ id row, st.db.rooms.lookup id = some row → row.lastTs < 2 ^ 63

section Batch
variable (convert : String → RoomEvent → Converted)

/-- Edits of one target with one timestamp are one edit. -/
def EditsDistinct (join : List (String × JoinedRoom)) : Prop :=
  ∀ p ∈ join, ∀ q ∈ join, ∀ d ∈ editsIn (convert p.1) p.2, ∀ d' ∈ editsIn (convert q.1) q.2,
    d.target = d'.target → d.ts = d'.ts → d.body = d'.body

/-- An event id occurs in one room. -/
def EventsApart (join : List (String × JoinedRoom)) : Prop :=
  ∀ p ∈ join, ∀ q ∈ join, ∀ m ∈ messagesOf (convert p.1) p.2, ∀ n ∈ messagesOf (convert q.1) q.2,
    m.eventId = n.eventId → p = q

/-- A repetition of the batch: the rooms as they were, or in another order. -/
structure Repeats (batch batch' : SyncBatch) : Prop where
  nextBatch : batch'.nextBatch = batch.nextBatch
  perm : batch.join.Perm batch'.join
  order : batch'.join = batch.join ∨ EventsApart convert batch.join

variable {convert} {S : CipherSuite}

theorem processTrace_ok_iff {rng : ℕ → Salts} {st : Store S} {batch : SyncBatch} :
    (processTrace convert rng st batch).2 = .ok () ↔ ∀ p ∈ batch.join, CanRead st p.1 := by
  rw [← roomsTrace_ok_iff convert batch.join rng st batch.nodup]
  unfold processTrace
  dsimp only
  cases (roomsTrace convert rng st batch.join).2 with
  | error e => exact Iff.rfl
  | ok u => exact ⟨fun _ => rfl, fun _ => rfl⟩

theorem processTrace_eq {rng : ℕ → Salts} {st : Store S} {batch : SyncBatch}
    (h : ∀ p ∈ batch.join, CanRead st p.1) :
    processTrace convert rng st batch =
      (blocks convert (storedRoom st) batch.join ++ [.setMeta "sync_token" batch.nextBatch],
        .ok ()) := by
  unfold processTrace
  rw [roomsTrace_eq convert batch.nodup h]

theorem lastTs_storedRoom {st : Store S} (h : LastTsI64 st) (id : String) :
    ((storedRoom st id).getD (newRoom id)).lastTs < 2 ^ 63 := by
  unfold storedRoom readRow
  rw [rooms_plain]
  cases hrow : st.db.rooms.lookup id with
  | none => exact Nat.two_pow_pos 63
  | some row =>
    have hlt := h id row hrow
    dsimp only [Option.map_some]
    unfold plainRoom
    dsimp only
    split
    · show asU64 row.lastTs < 2 ^ 63
      unfold asU64
      omega
    · exact Nat.two_pow_pos 63

/-- The writes of a batch are those of its rooms, then the token. -/
theorem batched_trace {stored : String → Option Room} {join : List (String × JoinedRoom)}
    {token : String} : ∀ op ∈ blocks convert stored join ++ [.setMeta "sync_token" token],
      Batched op = true ∧ (RoomsWrite op ∨ op = .setMeta "sync_token" token) := by
  intro op hop
  rcases List.mem_append.mp hop with hop | hop
  · exact ⟨batched_blocks convert op hop, Or.inl (roomsWrite_blocks convert op hop)⟩
  · rw [List.mem_singleton.mp hop]
    exact ⟨rfl, Or.inr rfl⟩

theorem filter_token {token : String} (p : StoreOp → Bool)
    (h : p (.setMeta "sync_token" token) = false) :
    [StoreOp.setMeta "sync_token" token].filter p = [] :=
  List.filter_cons_of_neg (by rw [h]; exact Bool.false_ne_true)

section Repeat
variable {st : Store S} {batch batch' : SyncBatch} {P : List StoreOp} {rng : ℕ → Salts}
  (hread : ∀ p ∈ batch.join, CanRead st p.1) (hts : LastTsI64 st)
  (hP : P <+: blocks convert (storedRoom st) batch.join ++
    [.setMeta "sync_token" batch.nextBatch])

/-- The writes to a room in the prefix are a prefix of its block. -/
theorem prefix_rooms {p : String × JoinedRoom} (hp : p ∈ batch.join)
    (hP : P <+: blocks convert (storedRoom st) batch.join ++
      [.setMeta "sync_token" batch.nextBatch]) :
    P.filter (roomTouches p.1) <+: roomBlock (madeOf convert (storedRoom st) p) p.2.prevBatch := by
  have h := hP.filter (roomTouches p.1)
  rw [List.filter_append, rooms_blocks convert (named_storedRoom st) batch.nodup hp,
    filter_token _ rfl, List.append_nil] at h
  exact h

include hread hts hP

/-- **What a room of the batch is read as after the interruption.** -/
theorem readRow_mid {p : String × JoinedRoom} (hp : p ∈ batch.join) :
    (CanRead (execOps rng st P) p.1 ↔ P.filter (roomTouches p.1) = [] ∨
      (kept st (madeOf convert (storedRoom st) p).name).isSome = true ∧
        (kept st (madeOf convert (storedRoom st) p).lastPreview).isSome = true) ∧
    (CanRead (execOps rng st P) p.1 →
      madeOf convert (storedRoom (execOps rng st P)) p = madeOf convert (storedRoom st) p) := by
  obtain ⟨stored, hstored⟩ := Option.isSome_iff_exists.mp (hread p hp)
  have hs : storedRoom st p.1 = stored := by
    unfold storedRoom
    rw [hstored]
    rfl
  have hbegins := prefix_rooms hp hP
  unfold madeOf at hbegins ⊢
  rw [hs] at hbegins ⊢
  have hkeep : ∀ x q, kept st x = some q → q = x := fun _ _ => kept_eq
  have hback := readRow_prefix (convert p.1) hkeep
    (hs ▸ named_storedRoom st p.1) (hs ▸ lastTs_storedRoom hts p.1) hstored hbegins
  rw [← roomRun_filter, ← room_execOps rng st P p.1] at hback
  refine ⟨hback.1, fun hcan => ?_⟩
  obtain ⟨stored', hstored'⟩ := Option.isSome_iff_exists.mp hcan
  have hs' : storedRoom (execOps rng st P) p.1 = stored' := by
    unfold storedRoom
    rw [hstored']
    rfl
  rw [hs']
  exact hback.2 stored' hstored'

omit hread hts hP in
/-- The rows of an event are what `eventOf` holds of it. -/
theorem rows_of_eventOf {a b : PlainTables} {e : String} (h : eventOf a e = eventOf b e) :
    a.edits.lookup e = b.edits.lookup e ∧ a.messages.lookup e = b.messages.lookup e := by
  unfold eventOf at h
  obtain ⟨hedit, hrow⟩ := EventState.mk.inj h
  refine ⟨?_, hrow⟩
  cases ha : a.edits.lookup e with
  | none =>
    rw [ha] at hedit
    exact (Option.map_eq_none_iff.mp hedit.symm).symm
  | some r =>
    rw [ha] at hedit
    obtain ⟨r', hr', heq⟩ := Option.map_eq_some_iff.mp hedit.symm
    obtain ⟨ts, body⟩ := r
    obtain ⟨ts', body'⟩ := r'
    obtain ⟨h1, h2⟩ := Prod.mk.inj heq
    rw [hr']
    exact congrArg some (congrArg₂ EditRow.mk h1.symm h2.symm)

omit hread hts in
/-- An event under the repetition. -/
theorem event_rerun (hrep : Repeats convert batch batch') (hed : EditsDistinct convert batch.join)
    {stored' : String → Option Room} (hs' : ∀ id, Named id (stored' id)) (e : String)
    (s : EventState) :
    eventRun some e (eventRun some e s P)
        (blocks convert stored' batch'.join ++ [.setMeta "sync_token" batch'.nextBatch]) =
      eventRun some e s (blocks convert (storedRoom st) batch.join ++
        [.setMeta "sync_token" batch.nextBatch]) := by
  have hs := named_storedRoom st
  have hedits : ∀ x, x ∈ editsOf e (blocks convert stored' batch'.join ++
        [.setMeta "sync_token" batch'.nextBatch]) ↔
      x ∈ editsOf e (blocks convert (storedRoom st) batch.join ++
        [.setMeta "sync_token" batch.nextBatch]) := by
    intro x
    rw [editsOf_append, editsOf_append, editsOf_singleton, editsOf_singleton]
    show x ∈ _ ++ [] ↔ x ∈ _ ++ []
    rw [List.append_nil, List.append_nil, mem_editsOf_blocks convert hs',
      mem_editsOf_blocks convert hs]
    exact ⟨fun ⟨p, hp, h⟩ => ⟨p, hrep.perm.mem_iff.mpr hp, h⟩,
      fun ⟨p, hp, h⟩ => ⟨p, hrep.perm.mem_iff.mp hp, h⟩⟩
  refine eventRun_replay some e (fun op hop => (batched_trace op (hP.subset hop)).1)
    (fun op hop => (batched_trace op hop).1) (fun op hop => (batched_trace op hop).1) ?_ ?_ ?_ hedits
    ?_ s
  · exact hP.filterMap _
  · rw [insertsOf_append, insertsOf_append, insertsOf_singleton, insertsOf_singleton]
    show _ ++ [] = _ ++ []
    rw [List.append_nil, List.append_nil, insertsOf_blocks convert hs', insertsOf_blocks convert hs]
    rcases hrep.order with hsame | hapart
    · rw [hsame]
    · -- the event occurs in one room
      refine (flatMap_perm hrep.perm fun p hp q hq hm hn => ?_).symm
      obtain ⟨m, hm⟩ := List.exists_mem_of_ne_nil _ hm
      obtain ⟨n, hn⟩ := List.exists_mem_of_ne_nil _ hn
      obtain ⟨hm, hme⟩ := List.mem_filter.mp hm
      obtain ⟨hn, hne⟩ := List.mem_filter.mp hn
      exact hapart p hp q hq m hm n hn
        ((of_decide_eq_true hme).trans (of_decide_eq_true hne).symm)
  · exact fun x hx => (hP.sublist.filterMap _).subset hx
  · intro o ho o' ho' hts
    obtain ⟨x, hx, rfl⟩ := List.mem_map.mp ho
    obtain ⟨x', hx', rfl⟩ := List.mem_map.mp ho'
    rw [editsOf_append, editsOf_singleton] at hx hx'
    have hx : x ∈ _ ++ [] := hx
    have hx' : x' ∈ _ ++ [] := hx'
    rw [List.append_nil] at hx hx'
    obtain ⟨p, hp, d, hd, ht, rfl⟩ := (mem_editsOf_blocks convert hs).mp hx
    obtain ⟨q, hq, d', hd', ht', rfl⟩ := (mem_editsOf_blocks convert hs).mp hx'
    have hts : d.ts = d'.ts := Fin.ext (asI64_inj d.ts.isLt d'.ts.isLt hts)
    unfold stored
    rw [hed p hp q hq d hd d' hd' (ht.trans ht'.symm) hts, hts]

/-- A room under the repetition. -/
theorem room_rerun (hrep : Repeats convert batch batch')
    (hmid : ∀ p ∈ batch'.join, CanRead (execOps rng st P) p.1) (r : String)
    (s : Option PlainRoomRow) :
    roomRun some r (roomRun some r s P)
        (blocks convert (storedRoom (execOps rng st P)) batch'.join ++
          [.setMeta "sync_token" batch'.nextBatch]) =
      roomRun some r s (blocks convert (storedRoom st) batch.join ++
        [.setMeta "sync_token" batch.nextBatch]) := by
  have hs := named_storedRoom st
  have hs' := named_storedRoom (execOps rng st P)
  rw [roomRun_filter some r (_ ++ _), roomRun_filter some r (blocks convert (storedRoom st) _ ++ _),
    roomRun_filter some r P, List.filter_append, List.filter_append, filter_token _ rfl,
    filter_token _ rfl, List.append_nil, List.append_nil]
  by_cases hr : ∃ p ∈ batch.join, p.1 = r
  · obtain ⟨p, hp, rfl⟩ := hr
    have hp' := hrep.perm.mem_iff.mp hp
    have hmade : madeOf convert (storedRoom (execOps rng st P)) p = madeOf convert (storedRoom st) p :=
      (readRow_mid hread hts hP hp).2 (hmid p hp')
    have hid : (madeOf convert (storedRoom st) p).id = p.1 := finalRoom_id (convert p.1) p.2 (hs p.1)
    rw [rooms_blocks convert hs batch.nodup hp, rooms_blocks convert hs' batch'.nodup hp', hmade]
    have h := roomRun_replay some (prefix_rooms hp hP) s
    rw [hid] at h
    exact h
  · have hne : ∀ p ∈ batch.join, p.1 ≠ r := fun p hp h => hr ⟨p, hp, h⟩
    have hne' : ∀ p ∈ batch'.join, p.1 ≠ r := fun p hp => hne p (hrep.perm.mem_iff.mpr hp)
    have hnil := rooms_blocks_none convert hs hne
    have hPnil : P.filter (roomTouches r) = [] := by
      have h := hP.filter (roomTouches r)
      rw [List.filter_append, hnil, filter_token _ rfl] at h
      exact List.prefix_nil.mp h
    rw [hnil, rooms_blocks_none convert hs' hne', hPnil]
    rfl

omit hread hts in
/-- A member under the repetition. -/
theorem member_rerun (hrep : Repeats convert batch batch')
    {stored' : String → Option Room} (hs' : ∀ id, Named id (stored' id)) (k : String × String)
    (s : Option (Option String)) :
    memberRun some k (memberRun some k s P)
        (blocks convert stored' batch'.join ++ [.setMeta "sync_token" batch'.nextBatch]) =
      memberRun some k s (blocks convert (storedRoom st) batch.join ++
        [.setMeta "sync_token" batch.nextBatch]) := by
  have hs := named_storedRoom st
  have hbegins := hP.filter (memberTouches k.1)
  rw [List.filter_append, filter_token _ rfl, List.append_nil] at hbegins
  rw [memberRun_filter some k (_ ++ _),
    memberRun_filter some k (blocks convert (storedRoom st) _ ++ _), memberRun_filter some k P,
    List.filter_append, List.filter_append, filter_token _ rfl, filter_token _ rfl, List.append_nil,
    List.append_nil]
  by_cases hr : ∃ p ∈ batch.join, p.1 = k.1
  · obtain ⟨p, hp, hk⟩ := hr
    rw [← hk] at hbegins ⊢
    rw [members_blocks convert hs batch.nodup hp] at hbegins ⊢
    rw [members_blocks convert hs' batch'.nodup (hrep.perm.mem_iff.mp hp)]
    unfold nameOps at hbegins ⊢
    by_cases hnames : (memberNames p.2).isEmpty = true
    · rw [if_pos hnames] at hbegins ⊢
      rw [List.prefix_nil.mp hbegins]
      rfl
    · rw [if_neg hnames] at hbegins ⊢
      exact memberRun_replay some k hbegins s
  · have hne : ∀ p ∈ batch.join, p.1 ≠ k.1 := fun p hp h => hr ⟨p, hp, h⟩
    have hne' : ∀ p ∈ batch'.join, p.1 ≠ k.1 := fun p hp => hne p (hrep.perm.mem_iff.mpr hp)
    rw [members_blocks_none convert hs hne] at hbegins ⊢
    rw [members_blocks_none convert hs' hne', List.prefix_nil.mp hbegins]
    rfl

/-- **The repetition ends with the rows of one uninterrupted run**, where it completes. -/
theorem sameRows_rerun (hrep : Repeats convert batch batch') (hed : EditsDistinct convert batch.join)
    (hmid : ∀ p ∈ batch'.join, CanRead (execOps rng st P) p.1) (rng' rng'' : ℕ → Salts) :
    SameRows
      (execOps rng' (execOps rng st P)
        (blocks convert (storedRoom (execOps rng st P)) batch'.join ++
          [.setMeta "sync_token" batch'.nextBatch]))
      (execOps rng'' st (blocks convert (storedRoom st) batch.join ++
        [.setMeta "sync_token" batch.nextBatch])) := by
  have hs' := named_storedRoom (execOps rng st P)
  have hmeta := fun op hop => @batched_trace convert (storedRoom st) batch.join batch.nextBatch op hop |>.2
  have hevent : ∀ e,
      eventOf (contents (execOps rng' (execOps rng st P)
        (blocks convert (storedRoom (execOps rng st P)) batch'.join ++
          [.setMeta "sync_token" batch'.nextBatch]))) e =
      eventOf (contents (execOps rng'' st (blocks convert (storedRoom st) batch.join ++
        [.setMeta "sync_token" batch.nextBatch]))) e := by
    intro e
    rw [contents_execOps, contents_execOps, contents_execOps, key_execOps, eventOf_runPlain,
      eventOf_runPlain, eventOf_runPlain]
    exact event_rerun hP hrep hed hs' e _
  refine ⟨fun k => ?_, fun r => ?_, fun e => (rows_of_eventOf (hevent e)).2, fun k => ?_,
    fun e => (rows_of_eventOf (hevent e)).1,
    fun k => ?_⟩
  · rw [contents_execOps, contents_execOps, contents_execOps, key_execOps, hrep.nextBatch,
      metas_runPlain _ _ (fun op hop => (batched_trace op hop).2), metas_runPlain _ _ hmeta,
      metas_runPlain P _ fun op hop => hmeta op (hP.subset hop)]
    by_cases hk : k = "sync_token"
    · rw [if_pos ⟨hk, by simp⟩, if_pos ⟨hk, by simp⟩]
    · rw [if_neg (fun h => hk h.1), if_neg (fun h => hk h.1), if_neg (fun h => hk h.1)]
  · rw [contents_execOps, contents_execOps, contents_execOps, key_execOps, room_runPlain,
      room_runPlain, room_runPlain]
    exact room_rerun hread hts hP hrep hmid r _
  · rw [contents_execOps, contents_execOps, contents_execOps, key_execOps]
    have hpickles : ∀ (ops : List StoreOp) (db : PlainTables),
        (∀ op ∈ ops, RoomsWrite op ∨ ∃ t, op = .setMeta "sync_token" t) →
        (runPlain some st.key.isSome db ops).pickles = db.pickles := pickles_runPlain
    rw [hpickles _ _ fun op hop => (batched_trace op hop).2.imp_right fun h => ⟨_, h⟩,
      hpickles _ _ fun op hop => (hmeta op (hP.subset hop)).imp_right fun h => ⟨_, h⟩,
      hpickles _ _ fun op hop => (hmeta op hop).imp_right fun h => ⟨_, h⟩]
  · rw [contents_execOps, contents_execOps, contents_execOps, key_execOps, member_runPlain,
      member_runPlain, member_runPlain]
    exact member_rerun hP hrep hs' k _

end Repeat

/-! ### The result -/

section Result
variable {st : Store S} {batch batch' : SyncBatch}

/-- Every room written so far can be read back: with a key always, without one unless its name or its
preview begins with `k1:`. -/
def ReadsBack (st : Store S) (written : List StoreOp) : Prop :=
  st.key ≠ none ∨ ∀ r, StoreOp.upsertRoom r ∈ written →
    startsWith r.name encPrefix = false ∧ startsWith r.lastPreview encPrefix = false

theorem kept_isSome_iff {st : Store S} {p : String} :
    (kept st p).isSome = true ↔ st.key ≠ none ∨ startsWith p encPrefix = false := by
  unfold kept
  by_cases h : st.key = none ∧ startsWith p encPrefix = true
  · rw [if_pos h]
    simp [h.1, h.2]
  · rw [if_neg h]
    simp only [Option.isSome_some, true_iff]
    by_cases hk : st.key = none
    · exact Or.inr (by simpa using fun hp => h ⟨hk, hp⟩)
    · exact Or.inl hk

/-- An upsert among a batch's writes is that of one of its rooms. -/
theorem upsert_mem_trace {stored : String → Option Room} {join : List (String × JoinedRoom)}
    {token : String} {r : Room}
    (h : StoreOp.upsertRoom r ∈ blocks convert stored join ++ [.setMeta "sync_token" token]) :
    ∃ p ∈ join, r = madeOf convert stored p := by
  rcases List.mem_append.mp h with h | h
  · obtain ⟨p, hp, h⟩ := List.mem_flatMap.mp h
    refine ⟨p, hp, ?_⟩
    unfold roomOps at h
    simp only [List.mem_append, List.mem_map, List.mem_singleton] at h
    rcases h with (((h | ⟨e, -, h⟩) | ⟨m, -, h⟩) | h) | h
    · split_ifs at h
      · cases h
      · cases List.mem_singleton.mp h
    · cases h
    · cases h
    · exact StoreOp.upsertRoom.inj h
    · cases hp : p.2.prevBatch with
      | none => rw [hp] at h; cases h
      | some prev => rw [hp] at h; cases List.mem_singleton.mp h
  · cases List.mem_singleton.mp h

/-- **When the repetition completes.** -/
theorem rerun_completes_iff (hts : LastTsI64 st) (hrep : Repeats convert batch batch')
    {rng rng' rng'' : ℕ → Salts} {k : ℕ}
    (hdone : (processTrace convert rng'' st batch).2 = .ok ()) :
    (processTrace convert rng' (interrupted convert rng st batch k) batch').2 = .ok () ↔
      ReadsBack st ((processTrace convert rng st batch).1.take k) := by
  have hread := processTrace_ok_iff.mp hdone
  have hs := named_storedRoom st
  unfold interrupted
  rw [processTrace_ok_iff, processTrace_eq hread]
  dsimp only
  have hP := List.take_prefix k (blocks convert (storedRoom st) batch.join ++
    [StoreOp.setMeta "sync_token" batch.nextBatch])
  set P := (blocks convert (storedRoom st) batch.join ++
    [StoreOp.setMeta "sync_token" batch.nextBatch]).take k
  have hid : ∀ p : String × JoinedRoom, (madeOf convert (storedRoom st) p).id = p.1 :=
    fun p => finalRoom_id (convert p.1) p.2 (hs p.1)
  constructor
  · intro hcan
    unfold ReadsBack
    by_cases hkey : st.key = none
    · refine Or.inr fun r hr => ?_
      obtain ⟨p, hp, rfl⟩ := upsert_mem_trace (hP.subset hr)
      have hmem : StoreOp.upsertRoom (madeOf convert (storedRoom st) p) ∈
          P.filter (roomTouches p.1) := List.mem_filter.mpr ⟨hr, decide_eq_true (hid p)⟩
      have hmid := (readRow_mid hread hts hP hp).1.mp (hcan p (hrep.perm.mem_iff.mp hp))
      rcases hmid with hnil | ⟨hname, hpre⟩
      · rw [hnil] at hmem
        cases hmem
      · exact ⟨(kept_isSome_iff.mp hname).resolve_left fun h => h hkey,
          (kept_isSome_iff.mp hpre).resolve_left fun h => h hkey⟩
    · exact Or.inl hkey
  · intro hback p hp'
    have hp := hrep.perm.mem_iff.mpr hp'
    refine (readRow_mid hread hts hP hp).1.mpr ?_
    by_cases hnil : P.filter (roomTouches p.1) = []
    · exact Or.inl hnil
    · refine Or.inr ?_
      have hmem : StoreOp.upsertRoom (madeOf convert (storedRoom st) p) ∈ P := by
        rcases prefix_roomBlock (prefix_rooms hp hP) with h | h | h
        · exact absurd h hnil
        · exact (List.mem_filter.mp (h ▸ List.mem_singleton.mpr rfl)).1
        · refine List.mem_of_mem_filter (?_ : _ ∈ P.filter (roomTouches p.1))
          rw [h]
          unfold roomBlock
          cases p.2.prevBatch <;> exact List.mem_cons_self
      rw [kept_isSome_iff, kept_isSome_iff]
      rcases hback with hkey | hback
      · exact ⟨Or.inl hkey, Or.inl hkey⟩
      · exact ⟨Or.inr (hback _ hmem).1, Or.inr (hback _ hmem).2⟩

theorem getMeta_token (st : Store S) :
    getMeta st "sync_token" = .ok ((contents st).metas.lookup "sync_token" |>.join) := by
  have hl : (contents st).metas.lookup "sync_token" =
      (st.db.metas.lookup "sync_token").map (metaCell (content st) "sync_token") :=
    Tables.lookup_metas _ _ st.db "sync_token"
  have hlabel : secretMetaLabel "sync_token" = none := by decide
  rw [hl]
  unfold getMeta metaCell
  rw [hlabel]
  dsimp only
  cases st.db.metas.lookup "sync_token" <;> rfl

/-- **The token moves only with the last write.** -/
theorem token_interrupted (rng : ℕ → Salts) (k : ℕ) :
    getMeta (interrupted convert rng st batch k) "sync_token" = getMeta st "sync_token" ∨
      ((processTrace convert rng st batch).2 = .ok () ∧
        (processTrace convert rng st batch).1.length ≤ k) := by
  have hwrites := roomsWrite_roomsTrace convert batch.join rng st
  -- a run of room writes alone leaves the token
  have hkeep : ∀ ops : List StoreOp, (∀ op ∈ ops, RoomsWrite op) →
      getMeta (execOps rng st ops) "sync_token" = getMeta st "sync_token" := by
    intro ops hops
    rw [getMeta_token, getMeta_token, contents_execOps,
      @metas_runPlain some st.key.isSome "" ops _ (fun op hop => Or.inl (hops op hop)), if_neg]
    rintro ⟨-, hmem⟩
    exact hops _ hmem
  unfold interrupted processTrace
  dsimp only
  cases hres : (roomsTrace convert rng st batch.join).2 with
  | error e => exact Or.inl (hkeep _ fun op hop => hwrites op (List.mem_of_mem_take hop))
  | ok u =>
    dsimp only
    by_cases hk : k ≤ (roomsTrace convert rng st batch.join).1.length
    · rw [List.take_append_of_le_length hk]
      exact Or.inl (hkeep _ fun op hop => hwrites op (List.mem_of_mem_take hop))
    · refine Or.inr ⟨rfl, ?_⟩
      rw [List.length_append, List.length_singleton]
      omega

end Result

end Batch

/-- `convertEvent` over a batch, the outcome of each decryption fixed. -/
def converts (serde : SerdeJson) (decrypt : String → RoomEvent → String → String → Option String)
    (userId : String) (roomId : String) (ev : RoomEvent) : Converted :=
  convertEvent serde (decrypt roomId ev) userId roomId ev

section Main
variable {S : CipherSuite} (serde : SerdeJson)
  (decrypt : String → RoomEvent → String → String → Option String) (userId : String)

/-- **A batch interrupted after any number of its writes.** The token is where it was unless all of
them completed; and where an uninterrupted run completes, running the batch again from what the
interruption left completes, with the rows of the uninterrupted run, exactly if every room written
before the interruption can be read back. -/
theorem processSync_rerun_iff {st : Store S} (hts : LastTsI64 st) {batch batch' : SyncBatch}
    (hrep : Repeats (converts serde decrypt userId) batch batch')
    (hed : EditsDistinct (converts serde decrypt userId) batch.join) (rng rng' rng'' : ℕ → Salts)
    (k : ℕ) :
    (getMeta (interrupted (converts serde decrypt userId) rng st batch k) "sync_token" =
        getMeta st "sync_token" ∨
      ((processTrace (converts serde decrypt userId) rng st batch).2 = .ok () ∧
        (processTrace (converts serde decrypt userId) rng st batch).1.length ≤ k)) ∧
    ((processTrace (converts serde decrypt userId) rng'' st batch).2 = .ok () →
      (((processTrace (converts serde decrypt userId) rng'
            (interrupted (converts serde decrypt userId) rng st batch k) batch').2 = .ok () ∧
          SameRows
            (processSync (converts serde decrypt userId) rng'
              (interrupted (converts serde decrypt userId) rng st batch k) batch')
            (processSync (converts serde decrypt userId) rng'' st batch)) ↔
        ReadsBack st ((processTrace (converts serde decrypt userId) rng st batch).1.take k))) := by
  refine ⟨token_interrupted rng k, fun hdone => ?_⟩
  rw [← rerun_completes_iff hts hrep hdone]
  refine ⟨fun h => h.1, fun h => ⟨h, ?_⟩⟩
  have hread := processTrace_ok_iff.mp hdone
  have hmid := processTrace_ok_iff.mp h
  unfold processSync
  rw [processTrace_eq hmid, processTrace_eq hread]
  unfold interrupted at hmid ⊢
  rw [processTrace_eq hread] at hmid ⊢
  exact sameRows_rerun hread hts (List.take_prefix _ _) hrep hed hmid rng' rng''

end Main

/-! ### A name that begins with `k1:` -/

/-- A decoder that finds no JSON, for evaluating examples. -/
def noJson : SerdeJson := ⟨fun _ => none, fun _ => ""⟩

/-- A batch that names a room. -/
def namingBatch (name : String) : SyncBatch where
  nextBatch := "s1"
  join := [("!r", { state := [{ kind := "m.room.name", content := { name := some name } }] })]
  nodup := List.nodup_singleton "!r"

def emptyStore : Store copySuite := ⟨Tables.empty, none⟩

/-- A batch with a member, a name, a message, an edit of it and a pagination edge. -/
def busyBatch : SyncBatch where
  nextBatch := "s1"
  join := [("!r",
    { state := [{ kind := "m.room.member", stateKey := some "@ann",
                  content := { displayname := some "Ann" } },
                { kind := "m.room.name", content := { name := some "Tea" } }]
      timeline := [{ kind := "m.room.message", sender := "@ann", eventId := "$a", originServerTs := 5,
                     content := { body := some "hi" } },
                   { kind := "m.room.message", sender := "@ann", eventId := "$b", originServerTs := 6,
                     content := { body := some "* hello", relatesTo := some ⟨"m.replace", "$a"⟩ } }]
      prevBatch := some "p0" })]
  nodup := List.nodup_singleton "!r"

/-- What `busyBatch` writes: the member, the edit, the message, the room, the edge, the token. -/
def busyTrace : List StoreOp :=
  [.rememberMembers "!r" [("@ann", some "Ann")], .recordEdit "$a" 6 "hello",
    .insertMessage ⟨"$a", "!r", "@ann", 5, none, "hi", false, true, false, none, none⟩,
    .upsertRoom ⟨"!r", "Tea", false, 0, 5, "hi"⟩, .seedBackToken "!r" "p0",
    .setMeta "sync_token" "s1"]

/-- Stopped after any number of its writes, in a store without a key. -/
theorem processSync_rerun_iff_busy :
    let convert := converts noJson (fun _ _ _ _ => none) "@me"
    let rng : ℕ → Salts := fun _ _ => zeroSalt
    LastTsI64 emptyStore ∧ Repeats convert busyBatch busyBatch ∧
    EditsDistinct convert busyBatch.join ∧
    processTrace convert rng emptyStore busyBatch = (busyTrace, .ok ()) ∧
    ∀ k, SameRows (processSync convert rng (interrupted convert rng emptyStore busyBatch k) busyBatch)
      (processSync convert rng emptyStore busyBatch) := by
  intro convert rng
  have hts : LastTsI64 emptyStore := fun _ _ h => by cases h
  have hrep : Repeats convert busyBatch busyBatch := ⟨rfl, List.Perm.refl _, Or.inl rfl⟩
  have hed : EditsDistinct convert busyBatch.join := by
    intro p hp q hq d hd d' hd' _ _
    have hall : ∀ e ∈ editsIn (convert "!r") (busyBatch.join.head (by decide)).2, e.body = "hello" := by
      decide +kernel
    have hone : ∀ p ∈ busyBatch.join, p = busyBatch.join.head (by decide) := fun p hp =>
      List.mem_singleton.mp hp
    rw [hone p hp] at hd
    rw [hone q hq] at hd'
    rw [hall d hd, hall d' hd']
  have htrace : processTrace convert rng emptyStore busyBatch = (busyTrace, .ok ()) := by
    decide +kernel
  refine ⟨hts, hrep, hed, htrace, fun k => ?_⟩
  have hdone : (processTrace convert rng emptyStore busyBatch).2 = .ok () := by rw [htrace]
  refine (((processSync_rerun_iff noJson (fun _ _ _ _ => none) "@me" hts hrep hed rng rng rng k).2
    hdone).mpr ?_).2
  refine Or.inr fun r hr => ?_
  rw [show processTrace _ _ _ _ = _ from htrace] at hr
  have hr : StoreOp.upsertRoom r ∈ busyTrace := List.mem_of_mem_take hr
  unfold busyTrace at hr
  simp only [List.mem_cons, List.not_mem_nil, reduceCtorEq, StoreOp.upsertRoom.injEq, or_false,
    false_or] at hr
  rw [hr]
  decide

/-- In a store without a key a room named `k1:a` cannot be read back: the batch that was interrupted
after it never completes. -/
theorem not_sameRows_markedName :
    (processTrace (converts noJson (fun _ _ _ _ => none) "@me") (fun _ _ => zeroSalt) emptyStore
      (namingBatch "k1:a")).2 = .ok () ∧
    ¬ SameRows
      (processSync (converts noJson (fun _ _ _ _ => none) "@me") (fun _ _ => zeroSalt)
        (interrupted (converts noJson (fun _ _ _ _ => none) "@me") (fun _ _ => zeroSalt) emptyStore
          (namingBatch "k1:a") 1) (namingBatch "k1:a"))
      (processSync (converts noJson (fun _ _ _ _ => none) "@me") (fun _ _ => zeroSalt) emptyStore
        (namingBatch "k1:a")) := by
  refine ⟨rfl, fun h => ?_⟩
  have htoken := h.metas "sync_token"
  revert htoken
  decide

end Kmatrix.Sync.Rerun
