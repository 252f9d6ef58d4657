import Kmatrix.Lib.Tail
import Kmatrix.Storage.RoundTrip
import Mathlib.Data.List.Dedup

/-! # The tail of the timeline

What `recent_messages` is for, over the calls that were made: a message is what its first insert says it
is and what its last insert says it holds, its sender has the name last remembered in the room, and the
tail of a room is the last `limit` of its messages by `(ts, event_id)` (`timelineTail`). The query gets
there by a descending sort, a limit, a join and a reversal, over a column of type `i64`: a `ts` of `2^63`
or more is negative in it, sorts before all others and reads `0`. So the query returns the tail exactly
where no `ts` of the room is so large and the texts can be read (`tail_iff`). -/

namespace Kmatrix.Storage.Recent

open Kmatrix.Lib.Keyed Kmatrix.Lib.Tail Kmatrix.Storage.Seal Kmatrix.Storage.Schema
open Kmatrix.Storage.Write Kmatrix.Storage.Read Kmatrix.Storage.Plain Kmatrix.Storage.View
open Kmatrix.Storage.RoundTrip
open Kmatrix.Storage.Edits (helloMessage)

/-! ### The calls and the timeline -/

/-- A call of one of the two methods. -/
inductive Call where
  | insertMessage (m : Message)
  | rememberMembers (room : String) (names : List (String × Option String))

def Call.op : Call → StoreOp
  | .insertMessage m => .insertMessage m
  | .rememberMembers room names => .rememberMembers room names

def Call.inserts : Call → Option Message
  | .insertMessage m => some m
  | .rememberMembers _ _ => none

/-- The names a call remembers for a member of a room: an empty one is none. -/
def Call.remembers (room user : String) : Call → List String
  | .insertMessage _ => []
  | .rememberMembers room' names =>
    if room' = room then ((named names).filter fun p => p.1 = user).map Prod.snd else []

section Log
variable (calls : List Call)

/-- What was inserted for an event, in order. -/
def versions (e : String) : List Message := (calls.filterMap Call.inserts).filter fun m => m.eventId = e

/-- The name last remembered. -/
def nameOf (room user : String) : Option String := (calls.flatMap (Call.remembers room user)).getLast?

/-- **The message of an event**: its identity from the first insert, what it holds from the last one. -/
def messageOf (e : String) : Option Message :=
  match (versions calls e).head?, (versions calls e).getLast? with
  | some first, some last =>
    some { first with
      senderName := nameOf calls first.room first.sender
      body := last.body
      decrypted := last.decrypted
      sessionId := last.sessionId
      ciphertext := last.ciphertext }
  | _, _ => none

/-- The events, each once. -/
def eventIds : List String := ((calls.filterMap Call.inserts).map Message.eventId).dedup

/-- **The messages of a room.** -/
def timeline (room : String) : List Message :=
  ((eventIds calls).filterMap (messageOf calls)).filter fun m => m.room = room

/-- `a` comes no later than `b`, by `(ts, event_id)`. -/
def Older (a b : Message) : Prop := a.ts < b.ts ∨ (a.ts = b.ts ∧ a.eventId ≤ b.eventId)

instance : DecidableRel Older := fun a b => by unfold Older; infer_instance

/-- **The tail of a room.** -/
def timelineTail (room : String) (limit : ℕ) : List Message := tail Older limit (timeline calls room)

end Log

theorem older_total (a b : Message) : Older a b ∨ Older b a := by
  unfold Older
  rcases lt_trichotomy a.ts b.ts with h | h | h
  · exact Or.inl (Or.inl h)
  · rcases le_total a.eventId b.eventId with h' | h'
    · exact Or.inl (Or.inr ⟨h, h'⟩)
    · exact Or.inr (Or.inr ⟨h.symm, h'⟩)
  · exact Or.inr (Or.inl h)

theorem older_trans {a b c : Message} (hab : Older a b) (hbc : Older b c) : Older a c := by
  unfold Older at *
  rcases hab with h1 | ⟨h1, h1'⟩ <;> rcases hbc with h2 | ⟨h2, h2'⟩
  · left; omega
  · left; omega
  · left; omega
  · right; exact ⟨by omega, le_trans h1' h2'⟩

instance : Std.Total Older := ⟨older_total⟩

instance : IsTrans Message Older := ⟨fun _ _ _ => older_trans⟩

section Timeline
variable {calls : List Call} {e room : String} {m : Message}

theorem mem_versions (h : m ∈ versions calls e) : m.eventId = e :=
  of_decide_eq_true (List.mem_filter.mp h).2

theorem messageOf_id (h : messageOf calls e = some m) : m.eventId = e := by
  unfold messageOf at h
  split at h
  · next first last hfirst _ =>
    cases h
    have hid : first.eventId = e := mem_versions (List.mem_of_head? hfirst)
    exact hid
  · cases h

theorem mem_eventIds : e ∈ eventIds calls ↔ (messageOf calls e).isSome = true := by
  have hids : e ∈ eventIds calls ↔ versions calls e ≠ [] := by
    unfold eventIds versions
    rw [List.mem_dedup, List.mem_map, Ne, List.filter_eq_nil_iff]
    simp only [decide_eq_true_eq, not_forall, not_not, exists_prop]
  rw [hids]
  unfold messageOf
  cases hv : versions calls e with
  | nil => simp
  | cons first rest =>
    obtain ⟨last, hlast⟩ : ∃ last, (first :: rest).getLast? = some last :=
      ⟨_, List.getLast?_eq_some_getLast (List.cons_ne_nil first rest)⟩
    rw [hlast]
    simp

/-- **The timeline of a room**: every event that was first inserted in it. -/
theorem mem_timeline : m ∈ timeline calls room ↔ messageOf calls m.eventId = some m ∧ m.room = room := by
  unfold timeline
  rw [List.mem_filter, List.mem_filterMap, decide_eq_true_eq]
  refine and_congr_left fun _ => ⟨?_, fun h => ⟨m.eventId, ?_, h⟩⟩
  · rintro ⟨e, -, h⟩
    rw [messageOf_id h]
    exact h
  · rw [mem_eventIds, h]
    rfl

theorem nodup_timeline : ((timeline calls room).map Message.eventId).Nodup := by
  have hsub : (timeline calls room).Sublist ((eventIds calls).filterMap (messageOf calls)) :=
    List.filter_sublist
  refine (hsub.map Message.eventId).nodup ?_
  rw [List.map_filterMap]
  refine List.Nodup.filterMap (fun e e' id h h' => ?_) (List.nodup_dedup _)
  obtain ⟨m, hm, rfl⟩ := Option.map_eq_some_iff.mp h
  obtain ⟨m', hm', hid⟩ := Option.map_eq_some_iff.mp h'
  rw [← messageOf_id hm, ← messageOf_id hm', hid]

theorem eq_of_eventId {a b : Message} (ha : a ∈ timeline calls room) (hb : b ∈ timeline calls room)
    (h : a.eventId = b.eventId) : a = b := by
  have hma := (mem_timeline.mp ha).1
  rw [h, (mem_timeline.mp hb).1] at hma
  exact (Option.some.inj hma).symm

/-- **What the tail is**: so many rows, none twice, in order, and no other message of the room later. -/
theorem timelineTail_spec (calls : List Call) (room : String) (limit : ℕ) :
    (timelineTail calls room limit).length = min limit (timeline calls room).length ∧
      ((timelineTail calls room limit).map Message.eventId).Nodup ∧
      (timelineTail calls room limit).Pairwise Older ∧
      ∀ a ∈ timelineTail calls room limit, a ∈ timeline calls room ∧
        ∀ b ∈ timeline calls room, b ∉ timelineTail calls room limit → Older b a := by
  refine ⟨length_tail, ?_, pairwise_tail, fun a ha => ⟨of_mem_tail ha, fun b => before_tail ha⟩⟩
  have hsub := (tail_sublist (r := Older) (n := limit) (l := timeline calls room)).map Message.eventId
  refine hsub.nodup ?_
  exact ((List.perm_insertionSort Older _).map Message.eventId).nodup_iff.mpr nodup_timeline

end Timeline

/-! ### What the tables hold after the calls -/

/-- The row of a message. -/
def rowOf (m : Message) : MessageRow String :=
  ⟨m.room, m.sender, asI64 m.ts, m.body, boolI64 m.encrypted, boolI64 m.decrypted, boolI64 m.mine,
    m.sessionId, m.ciphertext⟩

/-- **The tables are what the calls say.** -/
structure Says (db : Tables String) (calls : List Call) : Prop where
  messages : ∀ e, db.messages.lookup e = (messageOf calls e).map rowOf
  members : ∀ room user, db.members.lookup (room, user) = nameOf calls room user
  edits : ∀ e, db.edits.lookup e = none

section Says
variable {calls : List Call} {db : Tables String}

theorem versions_append_insert (m : Message) (e : String) :
    versions (calls ++ [.insertMessage m]) e =
      versions calls e ++ if m.eventId = e then [m] else [] := by
  unfold versions
  rw [List.filterMap_append, List.filter_append]
  congr 1
  show [m].filter _ = _
  split_ifs with h
  · exact List.filter_cons_of_pos (decide_eq_true h)
  · exact List.filter_cons_of_neg (by simpa using h)

theorem versions_append_remember (room : String) (names : List (String × Option String)) (e : String) :
    versions (calls ++ [.rememberMembers room names]) e = versions calls e := by
  unfold versions
  rw [List.filterMap_append]
  exact congrArg (List.filter _) (List.append_nil _)

theorem nameOf_append_insert (m : Message) (room user : String) :
    nameOf (calls ++ [.insertMessage m]) room user = nameOf calls room user := by
  unfold nameOf
  rw [List.flatMap_append]
  exact congrArg List.getLast? (List.append_nil _)

theorem nameOf_append_remember (room' : String) (names : List (String × Option String))
    (room user : String) :
    nameOf (calls ++ [.rememberMembers room' names]) room user =
      ((Call.rememberMembers room' names).remembers room user).getLast?.or (nameOf calls room user) := by
  unfold nameOf
  rw [List.flatMap_append, List.flatMap_singleton, List.getLast?_append]

/-- The columns of the message do not depend on the names. -/
theorem rowOf_messageOf (e : String) :
    (messageOf calls e).map rowOf =
      (versions calls e).head?.bind fun first => (versions calls e).getLast?.map fun last =>
        ⟨first.room, first.sender, asI64 first.ts, last.body, boolI64 first.encrypted,
          boolI64 last.decrypted, boolI64 first.mine, last.sessionId, last.ciphertext⟩ := by
  unfold messageOf
  cases (versions calls e).head? with
  | none => rfl
  | some first => cases (versions calls e).getLast? <;> rfl

/-- Names written one after the other: the last one for the user counts. -/
theorem lookup_members (room user : String) : ∀ (names : List (String × String))
    (t : Table (String × String) String) (room' : String),
    (names.foldl (fun t p => t.upsert (room', p.1) p.2 fun _ => p.2) t).lookup (room, user) =
      (if room' = room then (names.filter fun p => p.1 = user).map Prod.snd else []).getLast?.or
        (t.lookup (room, user))
  | [], t, room' => by simp
  | p :: names, t, room' => by
    rw [List.foldl_cons, lookup_members room user names, Table.lookup_upsert]
    by_cases hroom : room' = room
    · rw [if_pos hroom, if_pos hroom]
      by_cases huser : p.1 = user
      · have hkey : (room, user) = (room', p.1) := by rw [hroom, huser]
        have hfilter : (p :: names).filter (fun p => p.1 = user) =
            p :: names.filter fun p => p.1 = user := List.filter_cons_of_pos (by simpa using huser)
        rw [if_pos hkey, hfilter, List.map_cons, List.getLast?_cons, Option.some_or]
        cases ((names.filter fun p => p.1 = user).map Prod.snd).getLast? with
        | some name => rfl
        | none => cases t.lookup (room', p.1) <;> rfl
      · have hkey : ¬ (room, user) = (room', p.1) := fun h => huser (Prod.mk.inj h).2.symm
        rw [if_neg hkey, List.filter_cons_of_neg (by simpa using huser)]
    · have hkey : ¬ (room, user) = (room', p.1) := fun h => hroom (Prod.mk.inj h).1.symm
      rw [if_neg hroom, if_neg hroom, if_neg hkey]

/-- **One call.** -/
theorem says_step (keyed : Bool) (h : Says db calls) (call : Call) :
    Says (StoreOp.onText keyed db call.op) (calls ++ [call]) := by
  cases call with
  | insertMessage m =>
    refine ⟨fun e => ?_, fun room user => ?_, h.edits⟩
    · have hbody : coalesceEdit db m.eventId m.body = m.body := by
        unfold coalesceEdit
        rw [h.edits]
      have hold := h.messages m.eventId
      rw [rowOf_messageOf] at hold
      show (insertMessageStmt db m m.body m.ciphertext).messages.lookup e = _
      unfold insertMessageStmt
      dsimp only
      rw [hbody, Table.lookup_upsert, rowOf_messageOf, versions_append_insert]
      by_cases he : m.eventId = e
      · subst he
        rw [if_pos rfl, if_pos rfl, hold, List.head?_append, List.getLast?_append]
        cases hv : versions calls m.eventId with
        | nil => rfl
        | cons first rest =>
          obtain ⟨last, hlast⟩ : ∃ last, (first :: rest).getLast? = some last :=
            ⟨_, List.getLast?_eq_some_getLast (List.cons_ne_nil first rest)⟩
          rw [hlast]
          rfl
      · rw [if_neg (Ne.symm he), if_neg he, List.append_nil, h.messages e, rowOf_messageOf]
    · rw [nameOf_append_insert]
      exact h.members room user
  | rememberMembers room' names =>
    refine ⟨fun e => ?_, fun room user => ?_, h.edits⟩
    · rw [rowOf_messageOf, versions_append_remember, ← rowOf_messageOf]
      exact h.messages e
    · rw [nameOf_append_remember, ← h.members]
      exact lookup_members room user (named names) db.members room'

/-- **Every sequence of calls.** -/
theorem says_run (keyed : Bool) : ∀ (more : List Call) {calls : List Call} {db : Tables String},
    Says db calls → Says (runText keyed db (more.map Call.op)) (calls ++ more)
  | [], calls, _, h => by
    rw [List.append_nil]
    exact h
  | call :: more, calls, db, h => by
    have hrest := says_run keyed more (says_step keyed h call)
    rw [List.append_assoc] at hrest
    exact hrest

/-! ### The query -/

/-- A message beside its row. -/
def asStored (m : Message) : Stored String := (m.eventId, rowOf m)

/-- The message with the `ts` that is read of its row. -/
def asRead (m : Message) : Message := { m with ts := asU64 (asI64 m.ts) }

/-- The order of the query, turned round. -/
def OlderRow (a b : Stored String) : Prop := Newer b a

instance : DecidableRel OlderRow := fun a b => by unfold OlderRow; infer_instance

instance : Std.Total OlderRow := ⟨fun a b => newer_total b a⟩

instance : IsTrans (Stored String) OlderRow := ⟨fun _ _ _ hab hbc => newer_trans hbc hab⟩

theorem antisymmOn_olderRow {l : List (Stored String)}
    (h : ∀ a ∈ l, ∀ b ∈ l, a.1 = b.1 → a = b) : AntisymmOn OlderRow l := by
  intro a ha b hb hab hba
  refine h a ha b hb ?_
  unfold OlderRow Newer at hab hba
  rcases hab with h1 | ⟨h1, h1'⟩ <;> rcases hba with h2 | ⟨h2, h2'⟩
  · omega
  · omega
  · omega
  · exact le_antisymm h1' h2'

/-- **The rows of a room**, in whatever order they are kept. -/
theorem rows_perm (h : Says db calls) (room : String) :
    (db.messages.entries.filter fun m => inRoom room m.2).Perm
      ((timeline calls room).map asStored) := by
  have hentries : (db.messages.entries.filter fun m => inRoom room m.2).Nodup :=
    (List.Nodup.of_map Prod.fst db.messages.entries_keys_nodup).filter _
  have htimeline : ((timeline calls room).map asStored).Nodup := by
    refine List.Nodup.of_map Prod.fst ?_
    rw [List.map_map]
    exact nodup_timeline
  refine (List.perm_ext_iff_of_nodup hentries htimeline).mpr fun m => ?_
  obtain ⟨e, row⟩ := m
  rw [List.mem_filter, Table.mem_entries, h.messages, Option.map_eq_some_iff, List.mem_map]
  constructor
  · rintro ⟨⟨m, hm, rfl⟩, hroom⟩
    have hid := messageOf_id hm
    refine ⟨m, mem_timeline.mpr ⟨hid.symm ▸ hm, of_decide_eq_true hroom⟩, ?_⟩
    unfold asStored
    rw [hid]
  · rintro ⟨m, hm, heq⟩
    obtain ⟨hm, hroom⟩ := mem_timeline.mp hm
    cases heq
    exact ⟨⟨m, hm, rfl⟩, decide_eq_true hroom⟩

/-- A row is read as its message. -/
theorem saidMessage_asStored (h : Says db calls) {room : String} {m : Message}
    (hm : m ∈ timeline calls room) : saidMessage db (asStored m) = asRead m := by
  have hmessage := (mem_timeline.mp hm).1
  have hname : nameOf calls m.room m.sender = m.senderName := by
    unfold messageOf at hmessage
    split at hmessage
    · cases hmessage
      rfl
    · cases hmessage
  unfold saidMessage asStored rowOf asRead
  dsimp only
  rw [h.members, hname]
  simp only [boolI64_ne_zero, Bool.decide_eq_true]

/-- **What the query answers.** -/
theorem saidMessages_eq (h : Says db calls) (room : String) (limit : ℕ) :
    saidMessages db room limit =
      (tail (fun a b => OlderRow (asStored a) (asStored b)) limit (timeline calls room)).map asRead := by
  have hanti : AntisymmOn OlderRow ((timeline calls room).map asStored) := by
    refine antisymmOn_olderRow fun a ha b hb hid => ?_
    obtain ⟨m, hm, rfl⟩ := List.mem_map.mp ha
    obtain ⟨m', hm', rfl⟩ := List.mem_map.mp hb
    rw [eq_of_eventId hm hm' hid]
  have hperm := rows_perm h room
  have hanti' : AntisymmOn OlderRow (db.messages.entries.filter fun m => inRoom room m.2) :=
    fun a ha b hb => hanti a (hperm.mem_iff.mp ha) b (hperm.mem_iff.mp hb)
  unfold saidMessages newest
  rw [← List.map_reverse, reverse_take_eq_tail (r := OlderRow) (q := Newer) (fun _ _ => Iff.rfl) hanti', tail_perm hanti hperm,
    ← map_tail asStored fun _ _ _ _ => Iff.rfl, List.map_map]
  exact List.map_congr_left fun m hm => saidMessage_asStored h (of_mem_tail hm)

/-- **When it is the tail**: nothing is asked for, or every `ts` fits the column. -/
theorem saidMessages_eq_tail_iff (h : Says db calls) (room : String) (limit : ℕ) :
    saidMessages db room limit = timelineTail calls room limit ↔
      limit = 0 ∨ ∀ m ∈ timeline calls room, m.ts < 2 ^ 63 := by
  rw [saidMessages_eq h]
  constructor
  · intro heq
    by_cases hlimit : limit = 0
    · exact Or.inl hlimit
    · refine Or.inr fun b hb => ?_
      -- the last message of the room is in the tail, and was read of a row
      obtain ⟨a, ha, hba⟩ : ∃ a ∈ tail Older limit (timeline calls room), Older b a :=
        exists_tail_after hlimit hb
      have ha : a ∈ timelineTail calls room limit := ha
      rw [← heq] at ha
      obtain ⟨m, -, rfl⟩ := List.mem_map.mp ha
      have hlt : (asRead m).ts < 2 ^ 63 := asU64_asI64_lt m.ts
      unfold Older at hba
      omega
  · rintro (rfl | hbound)
    · unfold timelineTail
      rw [tail_zero, tail_zero, List.map_nil]
    · have hread : ∀ m ∈ timeline calls room, asRead m = m := by
        intro m hm
        unfold asRead
        rw [asU64_asI64_of_lt (hbound m hm)]
      have horder : ∀ a ∈ timeline calls room, ∀ b ∈ timeline calls room,
          OlderRow (asStored a) (asStored b) ↔ Older (asRead a) (asRead b) := by
        intro a ha b hb
        rw [hread a ha, hread b hb]
        unfold OlderRow Newer Older asStored rowOf
        dsimp only
        rw [asI64_of_lt (hbound a ha), asI64_of_lt (hbound b hb), Int.ofNat_lt, Int.ofNat_inj]
      rw [map_tail asRead horder, List.map_congr_left hread, List.map_id']
      rfl

end Says

/-! ### The store -/

section Stores
variable {S : CipherSuite}

/-- A new store. -/
def newStore (key : Option Key) : Store S :=
  ⟨if key.isSome then markEncrypted Tables.empty "1" else Tables.empty, key⟩

theorem holds_newStore (key : Option Key) :
    ∃ db, Holds (newStore key : Store S) db ∧ Says db [] := by
  cases key with
  | none => exact ⟨_, holds_empty none, fun _ => rfl, fun _ _ => rfl, fun _ => rfl⟩
  | some master =>
    have h := holds_execAll (holds_empty (S := S) (some master)) [(.clear, fun _ => zeroSalt)]
    exact ⟨_, h, fun _ => rfl, fun _ _ => rfl, fun _ => rfl⟩

/-- A list that is read at all is read as it is. -/
theorem eq_of_mapM {α β γ : Type} {f : β → Option γ} {φ : α → β} {g : α → γ} :
    ∀ {l : List α} {out : List γ}, (∀ a ∈ l, f (φ a) = some (g a) ∨ f (φ a) = none) →
      (l.map φ).mapM f = some out → out = l.map g
  | [], out, _, h => by
    cases h
    rfl
  | a :: l, out, hf, h => by
    rw [List.map_cons, List.mapM_cons] at h
    obtain ⟨c, hc, h⟩ := Option.bind_eq_some_iff.mp h
    obtain ⟨rest, hrest, h⟩ := Option.bind_eq_some_iff.mp h
    cases h
    have hrest := eq_of_mapM (fun b hb => hf b (List.mem_cons_of_mem a hb)) hrest
    rcases hf a List.mem_cons_self with ha | ha
    · rw [ha] at hc
      cases hc
      rw [hrest, List.map_cons]
    · rw [ha] at hc
      cases hc

/-- **A query that succeeds answers with the texts.** -/
theorem eq_saidMessages {st : Store S} {db : Tables String} (h : Holds st db) {room : String}
    {limit : ℕ} {out : List Message} (hout : recentMessages st room limit = .ok out) :
    out = saidMessages db room limit := by
  have hn := newest_map (kept st) (keptMeta st) db (inRoom room) (inRoom room) (inRoom_map _ room) limit
  rw [ok_iff_toOption, recentMessages_toOption, h, hn] at hout
  obtain ⟨rows, hrows, rfl⟩ := Option.map_eq_some_iff.mp hout
  unfold saidMessages
  refine congrArg List.reverse (eq_of_mapM (fun m _ => ?_) hrows)
  by_cases hr : Reads st (messageTexts (saidMessage db m))
  · exact Or.inl ((plainMessage_kept st db m).1 hr)
  · exact Or.inr ((plainMessage_kept st db m).2 hr)

/-- **The tail of the timeline.** After every sequence of calls on a new store, `recent_messages` returns
the tail of the room exactly if nothing is asked for or every `ts` of the room is below `2^63`, and the
store has a key or no text of the tail begins with `k1:`. -/
theorem tail_iff (key : Option Key) (run : List (Call × Salts)) (room : String) (limit : ℕ) :
    let calls := run.map Prod.fst
    recentMessages (execAll (newStore key : Store S) (run.map fun p => (p.1.op, p.2))) room limit =
        .ok (timelineTail calls room limit) ↔
      (limit = 0 ∨ ∀ m ∈ timeline calls room, m.ts < 2 ^ 63) ∧
        (key ≠ none ∨
          ∀ p ∈ (timelineTail calls room limit).flatMap messageTexts, startsWith p encPrefix = false) := by
  intro calls
  obtain ⟨db, hst, hsays⟩ := holds_newStore (S := S) key
  have hops : (run.map fun p => (p.1.op, p.2)).map Prod.fst = calls.map Call.op := by
    rw [List.map_map, List.map_map]
    rfl
  have hholds := holds_execAll hst (run.map fun p => (p.1.op, p.2))
  have hsays := says_run key.isSome calls hsays
  rw [List.nil_append] at hsays
  rw [hops] at hholds
  rw [← saidMessages_eq_tail_iff hsays room limit]
  have hread := recentMessages_iff hholds room limit
  unfold Reads at hread
  rw [key_execAll] at hread
  constructor
  · intro hout
    have heq := eq_saidMessages hholds hout
    exact ⟨heq.symm, by rw [heq] at hout ⊢; exact hread.mp hout⟩
  · rintro ⟨heq, htexts⟩
    rw [← heq] at htexts ⊢
    exact hread.mpr htexts

end Stores

/-- Two messages, the later of them with a `ts` that does not fit the column. -/
def farMessages : List (Call × Salts) :=
  [(.insertMessage helloMessage, fun _ => zeroSalt),
    (.insertMessage { helloMessage with eventId := "$f", ts := 2 ^ 63 }, fun _ => zeroSalt)]

/-- **A `ts` above `i64::MAX`**: the earlier message is taken for the last one. -/
theorem not_tail_farMessages :
    ¬ ∀ (key : Option Key) (run : List (Call × Salts)) (room : String) (limit : ℕ),
      recentMessages (execAll (newStore key : Store copySuite) (run.map fun p => (p.1.op, p.2))) room
          limit =
        .ok (timelineTail (run.map Prod.fst) room limit) := by
  intro h
  have hout := ok_iff_toOption.mp (h (some zeroKey) farMessages "!r" 1)
  have hlast : ((recentMessages (execAll (newStore (some zeroKey) : Store copySuite)
      (farMessages.map fun p => (p.1.op, p.2))) "!r" 1).toOption.map
        fun ms => ms.map Message.eventId) = some [helloMessage.eventId] := by decide +kernel
  have htail : (timelineTail (farMessages.map Prod.fst) "!r" 1).map Message.eventId = ["$f"] := by
    decide +kernel
  rw [hout, Option.map_some, htail] at hlast
  exact absurd hlast (by decide)

end Kmatrix.Storage.Recent
