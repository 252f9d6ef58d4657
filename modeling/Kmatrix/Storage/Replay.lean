import Kmatrix.Storage.Event
import Mathlib.Data.List.Induction

/-! # Replaying a prefix

A batch of writes that is interrupted and repeated from its start runs `P ++ L`, where `P` is a prefix
of `L`. Seen at one key, the repetition makes up for the interruption: of an event only the first and
the last insert count, and the set of its edits (`eventRun_replay`); a room is upserted to one value
and its edge is seeded once (`roomRun_replay`); a member's name is the last one written
(`memberRun_replay`). -/

namespace Kmatrix.Storage.Replay

open Kmatrix.Lib.Keyed Kmatrix.Lib.Newest Kmatrix.Storage.Schema Kmatrix.Storage.Write
open Kmatrix.Storage.Plain Kmatrix.Storage.Event

/-! ### Events -/

section Event
variable (keep : String → Option String) (e : String)

/-- The operations of a batch: no upgrade, no wipe. -/
def Batched : StoreOp → Bool
  | .upgradeMessage _ _ => false
  | .clear => false
  | _ => true

/-- One of the edits is no older than what the register held before. -/
def taken (edit : EditReg) (os : List (ℤ × Option String)) : Bool :=
  os.any fun o => match edit with
    | some held => held.1 ≤ o.1
    | none => true

/-- The columns an insert replaces. -/
def refresh (edit : EditReg) (last : Message) (row : MessageRow (Option String)) :
    MessageRow (Option String) :=
  { row with
    body := coalesce edit (keep last.body)
    decrypted := boolI64 last.decrypted
    sessionId := last.sessionId
    ciphertext := last.ciphertext.map keep }

/-- **The row after a batch**: its identity from before or from the first insert, its columns from
the last one, its body from the register. -/
def rowAfter (s : EventState) (ins : List Message) (os : List (ℤ × Option String)) :
    Option (MessageRow (Option String)) :=
  match ins.getLast? with
  | some last =>
    (s.row.or (ins.head?.map (insertRow keep ⟨none, none⟩))).map
      (refresh keep (offers s.edit os) last)
  | none =>
    if taken s.edit os then
      s.row.map fun row => { row with body := coalesce (offers s.edit os) row.body }
    else s.row

theorem offers_of_not_taken {edit : EditReg} {os : List (ℤ × Option String)}
    (h : taken edit os = false) : offers edit os = edit := by
  by_cases hne : os = []
  · rw [hne]; rfl
  · obtain ⟨p, hp⟩ := Option.isSome_iff_exists.mp (offers_isSome os edit (Or.inr hne))
    obtain ⟨-, h2, h3⟩ := offers_spec os edit p hp
    rw [hp]
    rcases h3 with h3 | ⟨h3, -⟩
    · -- an edit in the register was taken
      exfalso
      unfold taken at h
      rw [List.any_eq_false] at h
      refine h p h3 ?_
      cases hedit : edit with
      | none => rfl
      | some held => exact decide_eq_true (h2 held hedit)
    · exact h3.symm

theorem offers_append (reg : EditReg) (os : List (ℤ × Option String)) (o : ℤ × Option String) :
    offers reg (os ++ [o]) = accept (offers reg os) o := List.foldl_append

theorem taken_append (edit : EditReg) (os os' : List (ℤ × Option String)) :
    taken edit (os ++ os') = (taken edit os || taken edit os') := List.any_append

/-- The last edit is taken, if it is accepted at all. -/
theorem taken_of_accept {edit : EditReg} {os : List (ℤ × Option String)} {o : ℤ × Option String}
    (h : accept (offers edit os) o = some o) : taken edit [o] = true := by
  rw [accept_eq_iff] at h
  unfold taken
  rw [List.any_cons, List.any_nil, Bool.or_false]
  cases hedit : edit with
  | none => rfl
  | some held =>
    rw [hedit] at h
    obtain ⟨p, hp⟩ := Option.isSome_iff_exists.mp (offers_isSome os (some held) (Or.inl rfl))
    have h1 := (offers_spec os _ p hp).2.1 held rfl
    exact decide_eq_true (le_trans h1 (h p hp))

theorem not_taken_of_not_accept {edit : EditReg} {os : List (ℤ × Option String)}
    {o : ℤ × Option String} (h : accept (offers edit os) o ≠ some o) (ht : taken edit os = false) :
    taken edit [o] = false := by
  rw [offers_of_not_taken ht] at h
  unfold taken
  rw [List.any_cons, List.any_nil, Bool.or_false]
  cases hedit : edit with
  | none =>
    rw [hedit] at h
    exact absurd rfl h
  | some held =>
    rw [hedit] at h
    refine decide_eq_false fun hle => h ?_
    rw [accept_eq_iff]
    rintro held' ⟨⟩
    exact hle

/-- An edit after the batch. -/
theorem rowAfter_edit (s : EventState) (ins : List Message) (os : List (ℤ × Option String))
    (o : ℤ × Option String) :
    (editStep ⟨offers s.edit os, rowAfter keep s ins os⟩ o).row = rowAfter keep s ins (os ++ [o]) := by
  unfold editStep
  dsimp only
  by_cases ha : accept (offers s.edit os) o = some o
  · rw [if_pos ha]
    unfold rowAfter
    rw [offers_append, ha]
    cases ins.getLast? with
    | some last =>
      dsimp only
      rw [Option.map_map]
      rfl
    | none =>
      dsimp only
      rw [taken_append, taken_of_accept ha, Bool.or_true, if_pos rfl]
      split_ifs
      · rw [Option.map_map]
        rfl
      · rfl
  · rw [if_neg ha]
    have hoff : accept (offers s.edit os) o = offers s.edit os := by
      obtain ⟨held, hheld⟩ := Option.isSome_iff_exists.mp (accept_isSome (offers s.edit os) o)
      rcases (accept_spec hheld).2.2 with rfl | ⟨hreg, -⟩
      · exact absurd hheld ha
      · rw [hheld, hreg]
    unfold rowAfter
    rw [offers_append, hoff]
    cases ins.getLast? with
    | some last => rfl
    | none =>
      dsimp only
      rw [taken_append]
      by_cases ht : taken s.edit os = true
      · rw [ht, Bool.true_or]
      · have ht : taken s.edit os = false := by simpa using ht
        rw [ht, not_taken_of_not_accept ha ht]
        rfl

/-- An insert after the batch. -/
theorem rowAfter_insert (s : EventState) (ins : List Message) (os : List (ℤ × Option String))
    (m : Message) :
    some (insertRow keep ⟨offers s.edit os, rowAfter keep s ins os⟩ m) =
      rowAfter keep s (ins ++ [m]) os := by
  unfold rowAfter
  rw [List.getLast?_append, List.getLast?_singleton, Option.some_or]
  dsimp only
  cases hl : ins.getLast? with
  | some last =>
    have hne : ins ≠ [] := List.ne_nil_of_mem (List.mem_of_getLast? hl)
    obtain ⟨first, hfirst⟩ : ∃ first, ins.head? = some first := ⟨_, List.head?_eq_some_head hne⟩
    rw [List.head?_append, hfirst]
    dsimp only [Option.some_or]
    unfold insertRow refresh
    cases s.row <;> rfl
  | none =>
    have hnil : ins = [] := List.getLast?_eq_none_iff.mp hl
    subst hnil
    unfold insertRow refresh
    cases hrow : s.row with
    | none =>
      dsimp only
      split_ifs <;> rfl
    | some row =>
      dsimp only
      split_ifs <;> rfl

/-- **What an operation of a batch does to an event**: insert it, edit it, or nothing. -/
theorem eventStep_cases {op : StoreOp} (h : Batched op = true) (s : EventState) :
    (∃ m, insertOf e op = some m ∧ editOf e op = none ∧
      eventStep keep e s op = ⟨s.edit, some (insertRow keep s m)⟩) ∨
    (∃ p, insertOf e op = none ∧ editOf e op = some p ∧
      eventStep keep e s op = editStep s (stored keep p)) ∨
    (insertOf e op = none ∧ editOf e op = none ∧ eventStep keep e s op = s) := by
  cases op with
  | insertMessage m =>
    by_cases he : m.eventId = e
    · exact Or.inl ⟨m, if_pos he, rfl, if_pos he⟩
    · exact Or.inr (Or.inr ⟨if_neg he, rfl, if_neg he⟩)
  | recordEdit target ts body =>
    by_cases he : target = e
    · exact Or.inr (Or.inl ⟨(ts, body), rfl, if_pos he, if_pos he⟩)
    · exact Or.inr (Or.inr ⟨rfl, if_neg he, if_neg he⟩)
  | upgradeMessage e' body => cases h
  | clear => cases h
  | _ => exact Or.inr (Or.inr ⟨rfl, rfl, rfl⟩)

theorem not_clear_of_batched {ops : List StoreOp} (h : ∀ op ∈ ops, Batched op = true) :
    StoreOp.clear ∉ ops := by
  intro hc
  have := h _ hc
  cases this

/-- **A batch, seen at one event.** -/
theorem eventRun_eq (ops : List StoreOp) (h : ∀ op ∈ ops, Batched op = true) (s : EventState) :
    eventRun keep e s ops =
      ⟨offers s.edit ((editsOf e ops).map (stored keep)),
        rowAfter keep s (insertsOf e ops) ((editsOf e ops).map (stored keep))⟩ := by
  refine EventState.ext (edit_eventRun keep e ops s (not_clear_of_batched h)) ?_
  induction ops using List.reverseRecOn with
  | nil => rfl
  | append_singleton ops op ih =>
    have hops : ∀ op ∈ ops, Batched op = true := fun op hop => h op (by simp [hop])
    have hpair : eventRun keep e s ops = ⟨_, _⟩ :=
      EventState.ext (edit_eventRun keep e ops s (not_clear_of_batched hops)) (ih hops)
    rw [eventRun_append, hpair]
    show (eventStep keep e _ op).row = _
    rw [editsOf_append, insertsOf_append, editsOf_singleton, insertsOf_singleton]
    rcases eventStep_cases keep e (h op (by simp)) ⟨offers s.edit ((editsOf e ops).map (stored keep)),
      rowAfter keep s (insertsOf e ops) ((editsOf e ops).map (stored keep))⟩ with
      ⟨m, hm, hp, hstep⟩ | ⟨p, hm, hp, hstep⟩ | ⟨hm, hp, hstep⟩
    · rw [show List.foldl accept s.edit _ = offers s.edit _ from rfl, hstep, hm, hp]
      rw [Option.toList_none, Option.toList_some, List.append_nil, ← rowAfter_insert]
    · rw [show List.foldl accept s.edit _ = offers s.edit _ from rfl, hstep, hm, hp]
      rw [Option.toList_none, Option.toList_some, List.append_nil, List.map_append, List.map_singleton,
        ← rowAfter_edit]
    · rw [show List.foldl accept s.edit _ = offers s.edit _ from rfl, hstep, hm, hp]
      rw [Option.toList_none, Option.toList_none, List.append_nil, List.append_nil]

/-- **Replaying a prefix at one event.** `P` has been run already; `L'` has the inserts of `L` in their
order and the edits of `L` in any. -/
theorem eventRun_replay {P L L' : List StoreOp} (hP : ∀ op ∈ P, Batched op = true)
    (hL : ∀ op ∈ L, Batched op = true) (hL' : ∀ op ∈ L', Batched op = true)
    (hins : insertsOf e P <+: insertsOf e L) (hins' : insertsOf e L' = insertsOf e L)
    (hed : ∀ p ∈ editsOf e P, p ∈ editsOf e L) (hed' : ∀ p, p ∈ editsOf e L' ↔ p ∈ editsOf e L)
    (hd : Distinct ((editsOf e L).map (stored keep))) (s : EventState) :
    eventRun keep e (eventRun keep e s P) L' = eventRun keep e s L := by
  rw [← eventRun_append, eventRun_eq keep e (P ++ L'), eventRun_eq keep e L hL]
  swap
  · intro op hop
    rcases List.mem_append.mp hop with h | h
    · exact hP op h
    · exact hL' op h
  have hset : ∀ o, o ∈ (editsOf e L).map (stored keep) ↔ o ∈ (editsOf e (P ++ L')).map (stored keep) := by
    intro o
    rw [editsOf_append, List.mem_map, List.mem_map]
    constructor
    · rintro ⟨p, hp, rfl⟩
      exact ⟨p, List.mem_append_right _ ((hed' p).mpr hp), rfl⟩
    · rintro ⟨p, hp, rfl⟩
      rcases List.mem_append.mp hp with hp | hp
      · exact ⟨p, hed p hp, rfl⟩
      · exact ⟨p, (hed' p).mp hp, rfl⟩
  have hoff := offers_congr hd hset s.edit
  have htaken : taken s.edit ((editsOf e (P ++ L')).map (stored keep)) =
      taken s.edit ((editsOf e L).map (stored keep)) := by
    unfold taken
    rw [Bool.eq_iff_iff, List.any_eq_true, List.any_eq_true]
    exact ⟨fun ⟨o, ho, h⟩ => ⟨o, (hset o).mpr ho, h⟩, fun ⟨o, ho, h⟩ => ⟨o, (hset o).mp ho, h⟩⟩
  obtain ⟨more, hmore⟩ := hins
  refine EventState.ext hoff.symm ?_
  dsimp only
  unfold rowAfter
  rw [htaken, ← hoff, insertsOf_append, hins']
  cases hl : (insertsOf e L).getLast? with
  | none =>
    have hnil : insertsOf e L = [] := List.getLast?_eq_none_iff.mp hl
    have hPnil : insertsOf e P = [] := by
      rw [hnil] at hmore
      exact (List.append_eq_nil_iff.mp hmore).1
    rw [hPnil, hnil]
    rfl
  | some last =>
    rw [List.getLast?_append, hl, Option.some_or, List.head?_append, ← hmore, List.head?_append]
    cases (insertsOf e P).head? <;> rfl

end Event

/-! ### Rooms -/

section Room
variable (keep : String → Option String) (r : String)

abbrev PlainRoomRow := RoomRow (Option String)

/-- **An operation on one room.** -/
def roomStep (s : Option PlainRoomRow) : StoreOp → Option PlainRoomRow
  | .upsertRoom room =>
    if room.id = r then
      some ⟨keep room.name, boolI64 room.encrypted, room.unread, asI64 room.lastTs,
        keep room.lastPreview, s.bind RoomRow.backToken, s.elim 0 RoomRow.backDone⟩
    else s
  | .seedBackToken room token =>
    if room = r then
      s.map fun row => if row.backToken = none then { row with backToken := some token } else row
    else s
  | .setBackToken room token done =>
    if room = r then s.map fun row => { row with backToken := token, backDone := boolI64 done } else s
  | .clear => none
  | _ => s

/-- The operations that name the room. -/
def roomTouches : StoreOp → Bool
  | .upsertRoom room => room.id = r
  | .seedBackToken room _ => room = r
  | .setBackToken room _ _ => room = r
  | .clear => true
  | _ => false

theorem room_onPlain (keyed : Bool) (db : PlainTables) (op : StoreOp) :
    (StoreOp.onPlain keep keyed db op).rooms.lookup r = roomStep keep r (db.rooms.lookup r) op := by
  cases op with
  | upsertRoom room =>
    show (db.rooms.upsert room.id _ _).lookup r = if room.id = r then _ else _
    rw [Table.lookup_upsert]
    by_cases h : room.id = r
    · subst h
      rw [if_pos rfl, if_pos rfl]
      cases db.rooms.lookup room.id <;> rfl
    · rw [if_neg h, if_neg (Ne.symm h)]
  | seedBackToken room token =>
    show (seedBackTokenStmt db room token).1.rooms.lookup r = if room = r then _ else _
    unfold seedBackTokenStmt
    by_cases h : room = r
    · subst h
      rw [if_pos rfl]
      cases hl : db.rooms.lookup room with
      | none => exact hl
      | some row =>
        dsimp only
        by_cases hb : row.backToken = none
        · rw [if_pos hb]
          show (db.rooms.modify room _).lookup room = _
          rw [Table.lookup_modify, if_pos rfl, hl, Option.map_some, Option.map_some, if_pos hb]
        · rw [if_neg hb, Option.map_some, if_neg hb]
          exact hl
    · rw [if_neg h]
      split
      · split_ifs
        · show (db.rooms.modify room _).lookup r = _
          rw [Table.lookup_modify, if_neg (Ne.symm h)]
        · rfl
      · rfl
  | setBackToken room token done =>
    show (db.rooms.modify room _).lookup r = if room = r then _ else _
    rw [Table.lookup_modify]
    by_cases h : room = r
    · subst h
      rfl
    · rw [if_neg h, if_neg (Ne.symm h)]
  | recordEdit target ts body =>
    show (recordEditStmt db target _ _).1.rooms.lookup r = _
    unfold recordEditStmt
    split_ifs <;> rfl
  | clear => cases keyed <;> rfl
  | saveSession json => rfl
  | setMeta k v => rfl
  | insertMessage m => rfl
  | upgradeMessage e body => rfl
  | rememberMembers room names => rfl
  | putPickle kind id extra pickle => rfl

def roomRun (s : Option PlainRoomRow) (ops : List StoreOp) : Option PlainRoomRow :=
  ops.foldl (roomStep keep r) s

/-- **A run, seen at one room.** -/
theorem room_runPlain (keyed : Bool) : ∀ (ops : List StoreOp) (db : PlainTables),
    (runPlain keep keyed db ops).rooms.lookup r = roomRun keep r (db.rooms.lookup r) ops
  | [], _ => rfl
  | op :: ops, db => by
    show (runPlain keep keyed (StoreOp.onPlain keep keyed db op) ops).rooms.lookup r = _
    rw [room_runPlain keyed ops, room_onPlain]
    rfl

theorem roomStep_of_not_touches {s : Option PlainRoomRow} {op : StoreOp}
    (h : roomTouches r op = false) : roomStep keep r s op = s := by
  cases op with
  | upsertRoom room => exact if_neg (of_decide_eq_false h)
  | seedBackToken room token => exact if_neg (of_decide_eq_false h)
  | setBackToken room token done => exact if_neg (of_decide_eq_false h)
  | clear => cases h
  | _ => rfl

/-- **Operations on other rooms do not count.** -/
theorem roomRun_filter : ∀ (ops : List StoreOp) (s : Option PlainRoomRow),
    roomRun keep r s ops = roomRun keep r s (ops.filter (roomTouches r))
  | [], _ => rfl
  | op :: ops, s => by
    by_cases h : roomTouches r op = true
    · rw [List.filter_cons_of_pos h]
      exact roomRun_filter ops _
    · rw [List.filter_cons_of_neg h]
      show roomRun keep r (roomStep keep r s op) ops = _
      rw [roomStep_of_not_touches keep r (by simpa using h)]
      exact roomRun_filter ops s

/-- What a batch does to a room: one upsert, and perhaps one seeding of its edge. -/
def roomBlock (room : Room) (seed : Option String) : List StoreOp :=
  match seed with
  | some token => [.upsertRoom room, .seedBackToken room.id token]
  | none => [.upsertRoom room]

/-- The row after an upsert. -/
def upsertedRow (room : Room) (s : Option PlainRoomRow) : PlainRoomRow :=
  ⟨keep room.name, boolI64 room.encrypted, room.unread, asI64 room.lastTs, keep room.lastPreview,
    s.bind RoomRow.backToken, s.elim 0 RoomRow.backDone⟩

/-- The row after its edge is seeded. -/
def seededRow (token : String) (row : PlainRoomRow) : PlainRoomRow :=
  { row with backToken := row.backToken.or (some token) }

theorem roomStep_upsert (room : Room) (s : Option PlainRoomRow) :
    roomStep keep room.id s (.upsertRoom room) = some (upsertedRow keep room s) := if_pos rfl

theorem roomStep_seed (token : String) (row : PlainRoomRow) :
    roomStep keep r (some row) (.seedBackToken r token) = some (seededRow token row) := by
  refine (if_pos rfl).trans (congrArg some ?_)
  unfold seededRow
  dsimp only
  cases h : row.backToken with
  | none => rw [if_pos rfl]; rfl
  | some t =>
    rw [if_neg (by simp)]
    rw [Option.some_or, ← h]

theorem roomRun_block (room : Room) (seed : Option String) (s : Option PlainRoomRow) :
    roomRun keep room.id s (roomBlock room seed) =
      some (seed.elim (upsertedRow keep room s) fun token =>
        seededRow token (upsertedRow keep room s)) := by
  unfold roomRun roomBlock
  cases seed with
  | none => exact roomStep_upsert keep room s
  | some token =>
    rw [List.foldl_cons, List.foldl_cons, List.foldl_nil, roomStep_upsert, roomStep_seed]
    rfl

theorem seeded_upserted_seeded (token : String) (room : Room) (s : Option PlainRoomRow) :
    seededRow token (upsertedRow keep room (some (seededRow token (upsertedRow keep room s)))) =
      seededRow token (upsertedRow keep room s) := by
  unfold seededRow upsertedRow
  cases s with
  | none => rfl
  | some row =>
    dsimp only [Option.bind_some, Option.elim_some]
    cases row.backToken <;> rfl

theorem prefix_roomBlock {room : Room} {seed : Option String} {P : List StoreOp}
    (hP : P <+: roomBlock room seed) :
    P = [] ∨ P = [.upsertRoom room] ∨ P = roomBlock room seed := by
  rcases P with _ | ⟨op, P⟩
  · exact Or.inl rfl
  · refine Or.inr ?_
    cases seed with
    | none =>
      have hP : op :: P <+: [.upsertRoom room] := hP
      rw [List.cons_prefix_cons, List.prefix_nil] at hP
      rw [hP.1, hP.2]
      exact Or.inl rfl
    | some token =>
      have hP : op :: P <+: [.upsertRoom room, .seedBackToken room.id token] := hP
      rw [List.cons_prefix_cons] at hP
      obtain ⟨rfl, hrest⟩ := hP
      rcases P with _ | ⟨op, P⟩
      · exact Or.inl rfl
      · rw [List.cons_prefix_cons, List.prefix_nil] at hrest
        rw [hrest.1, hrest.2]
        exact Or.inr rfl

/-- **Replaying a prefix at one room.** -/
theorem roomRun_replay {room : Room} {seed : Option String} {P : List StoreOp}
    (hP : P <+: roomBlock room seed) (s : Option PlainRoomRow) :
    roomRun keep room.id (roomRun keep room.id s P) (roomBlock room seed) =
      roomRun keep room.id s (roomBlock room seed) := by
  rcases prefix_roomBlock hP with rfl | rfl | rfl
  · rfl
  · rw [roomRun_block, roomRun_block,
      show roomRun keep room.id s [.upsertRoom room] = _ from roomStep_upsert keep room s]
    rfl
  · rw [roomRun_block, roomRun_block]
    cases seed with
    | none => rfl
    | some token =>
      dsimp only [Option.elim_some]
      rw [seeded_upserted_seeded]

end Room

/-! ### Members -/

section Member
variable (keep : String → Option String) (k : String × String)

/-- The name a list of entries leaves under `k`. -/
def nameAfter (s : Option (Option String)) (room : String) (names : List (String × Option String)) :
    Option (Option String) :=
  names.foldl (fun s p => if k = (room, p.1) then some p.2 else s) s

/-- **An operation on one member.** -/
def memberStep (s : Option (Option String)) : StoreOp → Option (Option String)
  | .rememberMembers room names =>
    nameAfter k s room ((named names).map fun p => (p.1, keep p.2))
  | .clear => none
  | _ => s

theorem lookup_rememberMembers (room : String) : ∀ (names : List (String × Option String))
    (t : Table (String × String) (Option String)),
    (names.foldl (fun t p => t.upsert (room, p.1) p.2 fun _ => p.2) t).lookup k =
      nameAfter k (t.lookup k) room names
  | [], _ => rfl
  | p :: names, t => by
    rw [List.foldl_cons, lookup_rememberMembers room names, Table.lookup_upsert]
    unfold nameAfter
    rw [List.foldl_cons]
    by_cases h : k = (room, p.1)
    · rw [if_pos h, if_pos h]
      cases t.lookup (room, p.1) <;> rfl
    · rw [if_neg h, if_neg h]

theorem member_onPlain (keyed : Bool) (db : PlainTables) (op : StoreOp) :
    (StoreOp.onPlain keep keyed db op).members.lookup k =
      memberStep keep k (db.members.lookup k) op := by
  cases op with
  | rememberMembers room names => exact lookup_rememberMembers k room _ db.members
  | seedBackToken room token =>
    obtain ⟨rooms, hrooms⟩ := seedBackTokenStmt_eq db room token
    show (seedBackTokenStmt db room token).1.members.lookup k = _
    rw [hrooms]
    rfl
  | recordEdit target ts body =>
    show (recordEditStmt db target _ _).1.members.lookup k = _
    unfold recordEditStmt
    split_ifs <;> rfl
  | clear => cases keyed <;> rfl
  | saveSession json => rfl
  | setMeta k v => rfl
  | upsertRoom r => rfl
  | insertMessage m => rfl
  | upgradeMessage e body => rfl
  | putPickle kind id extra pickle => rfl
  | setBackToken room token done => rfl

def memberRun (s : Option (Option String)) (ops : List StoreOp) : Option (Option String) :=
  ops.foldl (memberStep keep k) s

/-- **A run, seen at one member.** -/
theorem member_runPlain (keyed : Bool) : ∀ (ops : List StoreOp) (db : PlainTables),
    (runPlain keep keyed db ops).members.lookup k = memberRun keep k (db.members.lookup k) ops
  | [], _ => rfl
  | op :: ops, db => by
    show (runPlain keep keyed (StoreOp.onPlain keep keyed db op) ops).members.lookup k = _
    rw [member_runPlain keyed ops, member_onPlain]
    rfl

/-- The operations that name members of the room. -/
def memberTouches (room : String) : StoreOp → Bool
  | .rememberMembers room' _ => room' = room
  | .clear => true
  | _ => false

theorem nameAfter_of_ne {room : String} (h : k.1 ≠ room) :
    ∀ (names : List (String × Option String)) (s : Option (Option String)),
    nameAfter k s room names = s
  | [], _ => rfl
  | p :: names, s => by
    unfold nameAfter
    rw [List.foldl_cons, if_neg (by rintro rfl; exact h rfl)]
    exact nameAfter_of_ne h names s

theorem memberRun_filter : ∀ (ops : List StoreOp) (s : Option (Option String)),
    memberRun keep k s ops = memberRun keep k s (ops.filter (memberTouches k.1))
  | [], _ => rfl
  | op :: ops, s => by
    by_cases h : memberTouches k.1 op = true
    · rw [List.filter_cons_of_pos h]
      exact memberRun_filter ops _
    · rw [List.filter_cons_of_neg h]
      have hstep : memberStep keep k s op = s := by
        cases op with
        | rememberMembers room names =>
          have hne : room ≠ k.1 := by simpa [memberTouches] using h
          exact nameAfter_of_ne k (Ne.symm hne) _ s
        | clear => exact absurd rfl h
        | _ => rfl
      show memberRun keep k (memberStep keep k s op) ops = _
      rw [hstep]
      exact memberRun_filter ops s

/-- What is written does not depend on what was there. -/
theorem nameAfter_eq (room : String) : ∀ (names : List (String × Option String))
    (s : Option (Option String)), nameAfter k s room names = (nameAfter k none room names).or s
  | [], _ => rfl
  | p :: names, s => by
    unfold nameAfter
    rw [List.foldl_cons, List.foldl_cons]
    have h1 := nameAfter_eq room names (if k = (room, p.1) then some p.2 else s)
    have h2 := nameAfter_eq room names (if k = (room, p.1) then some p.2 else none)
    unfold nameAfter at h1 h2
    rw [h1, h2]
    by_cases h : k = (room, p.1)
    · rw [if_pos h, if_pos h, Option.or_assoc, Option.some_or]
    · rw [if_neg h, if_neg h, Option.or_none]

/-- **Replaying a prefix at one member.** -/
theorem memberRun_replay {room : String} {names : List (String × Option String)} {P : List StoreOp}
    (hP : P <+: [.rememberMembers room names]) (s : Option (Option String)) :
    memberRun keep k (memberRun keep k s P) [.rememberMembers room names] =
      memberRun keep k s [.rememberMembers room names] := by
  rcases P with _ | ⟨op, P⟩
  · rfl
  · rw [List.cons_prefix_cons, List.prefix_nil] at hP
    rw [hP.1, hP.2]
    show nameAfter k (nameAfter k s room _) room _ = nameAfter k s room _
    rw [nameAfter_eq k room _ (nameAfter k s room _), nameAfter_eq k room _ s, ← Option.or_assoc,
      Option.or_self]

end Member

end Kmatrix.Storage.Replay
