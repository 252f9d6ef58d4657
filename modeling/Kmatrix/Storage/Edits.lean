import Kmatrix.Storage.AtRest
import Kmatrix.Storage.Event

/-! # Edits converge

The edit table is a newest-wins register per event id, and the body of a message is what the register
of its id holds, once it holds anything. `EditInv` says so of one event, every operation keeps it
(`editInv_eventStep`), and at the end of a run the register holds the newest edit.

* `edits_converge`: the row of the event, its body, and when `recent_messages` shows it.
* `roomReadable_execAll_iff`: whether the room can be read at all. The only thing in the way is a text
  that begins with `k1:` in a store without a key. -/

namespace Kmatrix.Storage.Edits

open Kmatrix.Lib.Keyed Kmatrix.Lib.Newest Kmatrix.Storage.Seal Kmatrix.Storage.Schema
open Kmatrix.Storage.Write Kmatrix.Storage.Read Kmatrix.Storage.Plain Kmatrix.Storage.View
open Kmatrix.Storage.Migrate Kmatrix.Storage.AtRest Kmatrix.Storage.Event

/-! ### Runs on one event -/

/-- What tells an event from others: its id, its room, its sender, its timestamp. -/
structure Origin where
  eventId : String
  room : String
  sender : String
  ts : ℕ
  deriving DecidableEq, Repr

/-- The operation inserts the event `o`, or does not touch its identity. -/
def Respects (o : Origin) : StoreOp → Prop
  | .insertMessage m => m.eventId = o.eventId → m.room = o.room ∧ m.sender = o.sender ∧ m.ts = o.ts
  | .clear => False
  | _ => True

/-- **A run on the event `o`**: any operations but `clear`, among them an insert of the event and an
edit of it, its edits with distinct timestamps. -/
structure EditRun (o : Origin) (ops : List StoreOp) : Prop where
  respects : ∀ op ∈ ops, Respects o op
  inserted : ∃ m, StoreOp.insertMessage m ∈ ops ∧ m.eventId = o.eventId
  edited : editsOf o.eventId ops ≠ []
  distinct : ((editsOf o.eventId ops).map Prod.fst).Nodup
  bounded : ∀ p ∈ editsOf o.eventId ops, p.1 < 2 ^ 63

/-! ### The invariant -/

/-- **The row of the event**: of the event, its body what the register holds. -/
def EditInv (o : Origin) (s : EventState) : Prop :=
  ∀ row, s.row = some row → row.room = o.room ∧ row.sender = o.sender ∧ row.ts = asI64 o.ts ∧
    ∀ p, s.edit = some p → row.body = p.2

section Steps
variable {o : Origin} {s : EventState} (keep : String → Option String)

/-- With an edit on record the body written is the edit's. -/
theorem coalesce_eq {edit : EditReg} {p : ℤ × Option String} (h : edit = some p)
    (body : Option String) : coalesce edit body = p.2 := by
  unfold coalesce
  rw [h]

theorem editInv_insert (h : EditInv o s) {m : Message} (hm : Respects o (.insertMessage m)) :
    EditInv o (eventStep keep o.eventId s (.insertMessage m)) := by
  by_cases he : m.eventId = o.eventId
  · obtain ⟨hr, hs, ht⟩ := hm he
    rw [show eventStep keep o.eventId s (.insertMessage m) = _ from if_pos he]
    intro row hrow
    have hrow := Option.some.inj hrow
    unfold insertRow at hrow
    cases hl : s.row with
    | none =>
      rw [hl] at hrow
      subst hrow
      exact ⟨hr, hs, by rw [← ht], fun p hp => coalesce_eq hp _⟩
    | some old =>
      rw [hl] at hrow
      obtain ⟨hr', hs', ht', -⟩ := h old hl
      subst hrow
      exact ⟨hr', hs', ht', fun p hp => coalesce_eq hp _⟩
  · rw [show eventStep keep o.eventId s (.insertMessage m) = _ from if_neg he]
    exact h

theorem editInv_upgrade (h : EditInv o s) (e body : String) :
    EditInv o (eventStep keep o.eventId s (.upgradeMessage e body)) := by
  by_cases he : e = o.eventId
  · rw [show eventStep keep o.eventId s (.upgradeMessage e body) = _ from if_pos he]
    intro row hrow
    obtain ⟨old, hold, rfl⟩ := Option.map_eq_some_iff.mp hrow
    obtain ⟨hr, hs, ht, -⟩ := h old hold
    exact ⟨hr, hs, ht, fun p hp => coalesce_eq hp _⟩
  · rw [show eventStep keep o.eventId s (.upgradeMessage e body) = _ from if_neg he]
    exact h

theorem editInv_edit (h : EditInv o s) (p : ℤ × Option String) : EditInv o (editStep s p) := by
  unfold editStep
  by_cases ha : accept s.edit p = some p
  · rw [if_pos ha]
    intro row hrow
    obtain ⟨old, hold, rfl⟩ := Option.map_eq_some_iff.mp hrow
    obtain ⟨hr, hs, ht, -⟩ := h old hold
    refine ⟨hr, hs, ht, fun q hq => ?_⟩
    cases hq
    rfl
  · rw [if_neg ha]
    exact h

/-- **Every operation keeps the invariant.** -/
theorem editInv_eventStep (h : EditInv o s) {op : StoreOp} (hop : Respects o op) :
    EditInv o (eventStep keep o.eventId s op) := by
  cases op with
  | insertMessage m => exact editInv_insert keep h hop
  | upgradeMessage e body => exact editInv_upgrade keep h e body
  | recordEdit target ts body =>
    show EditInv o (if target = o.eventId then _ else s)
    split_ifs
    · exact editInv_edit h _
    · exact h
  | clear => exact absurd hop (by unfold Respects; exact not_false)
  | _ => exact h

theorem editInv_eventRun : ∀ (ops : List StoreOp) (s : EventState), EditInv o s →
    (∀ op ∈ ops, Respects o op) → EditInv o (eventRun keep o.eventId s ops)
  | [], _, h, _ => h
  | op :: ops, _, h, hops =>
    editInv_eventRun ops _ (editInv_eventStep keep h (hops op (by simp)))
      fun op' hop' => hops op' (by simp [hop'])

/-- A row that is there stays, and an insert of the event makes one. -/
theorem row_eventStep (e : String) {op : StoreOp} (hop : op ≠ .clear)
    (h : s.row.isSome = true ∨ (insertOf e op).isSome = true) :
    (eventStep keep e s op).row.isSome = true := by
  cases op with
  | insertMessage m =>
    show (if m.eventId = e then _ else s).row.isSome = true
    by_cases he : m.eventId = e
    · rw [if_pos he]; rfl
    · rw [if_neg he]
      rw [show insertOf e (.insertMessage m) = _ from if_neg he] at h
      simpa using h
  | upgradeMessage e' body =>
    show (if e' = e then _ else s).row.isSome = true
    split_ifs
    · rw [Option.isSome_map]
      simpa [insertOf] using h
    · simpa [insertOf] using h
  | recordEdit target ts body =>
    have hs : s.row.isSome = true := by simpa [insertOf] using h
    show (if target = e then editStep s _ else s).row.isSome = true
    unfold editStep
    split_ifs
    · rw [Option.isSome_map]; exact hs
    · exact hs
    · exact hs
  | clear => exact absurd rfl hop
  | _ => exact show s.row.isSome = true by simpa [insertOf] using h

theorem row_eventRun (e : String) : ∀ (ops : List StoreOp) (s : EventState),
    StoreOp.clear ∉ ops → (s.row.isSome = true ∨ ∃ m, StoreOp.insertMessage m ∈ ops ∧ m.eventId = e) →
    (eventRun keep e s ops).row.isSome = true
  | [], _, _, h => by
    rcases h with h | ⟨m, hm, -⟩
    · exact h
    · cases hm
  | op :: ops, s, hc, h => by
    have hop : op ≠ .clear := by
      rintro rfl
      exact hc (by simp)
    refine row_eventRun e ops _ (fun hm => hc (by simp [hm])) ?_
    rcases h with h | ⟨m, hm, he⟩
    · exact Or.inl (row_eventStep keep e hop (Or.inl h))
    · rcases List.mem_cons.mp hm with rfl | hm
      · refine Or.inl (row_eventStep keep e hop (Or.inr ?_))
        rw [show insertOf e (.insertMessage m) = _ from if_pos he]; rfl
      · exact Or.inr ⟨m, hm, he⟩

end Steps

/-! ### Whole runs -/

section Runs
variable {o : Origin} (keep : String → Option String) (keyed : Bool) {ops : List StoreOp}

theorem EditRun.no_clear (h : EditRun o ops) : StoreOp.clear ∉ ops := fun hc => h.respects _ hc

/-- The timestamps as they are stored are as distinct as they came. -/
theorem EditRun.nodup_stored (h : EditRun o ops) :
    (((editsOf o.eventId ops).map (stored keep)).map Prod.fst).Nodup := by
  rw [List.map_map]
  have hfst : (editsOf o.eventId ops).map (Prod.fst ∘ stored keep) =
      ((editsOf o.eventId ops).map Prod.fst).map fun n => asI64 n := by rw [List.map_map]; rfl
  rw [hfst]
  refine List.Nodup.map_on ?_ h.distinct
  intro a ha b hb hab
  obtain ⟨p, hp, rfl⟩ := List.mem_map.mp ha
  obtain ⟨q, hq, rfl⟩ := List.mem_map.mp hb
  rw [asI64_of_lt (h.bounded p hp), asI64_of_lt (h.bounded q hq)] at hab
  omega

theorem EditRun.newest_stored (h : EditRun o ops) {p : ℕ × String}
    (hp : IsNewest (editsOf o.eventId ops) p) :
    IsNewest ((editsOf o.eventId ops).map (stored keep)) (stored keep p) := by
  refine ⟨List.mem_map.mpr ⟨p, hp.1, rfl⟩, fun q hq => ?_⟩
  obtain ⟨q', hq', rfl⟩ := List.mem_map.mp hq
  have hle := hp.2 q' hq'
  unfold stored
  dsimp only
  rw [asI64_of_lt (h.bounded q' hq'), asI64_of_lt (h.bounded p hp.1)]
  omega

/-- **The row at the end of a run**, on plain tables. -/
theorem EditRun.row_runPlain (h : EditRun o ops) {p : ℕ × String}
    (hp : IsNewest (editsOf o.eventId ops) p) {db : PlainTables}
    (hdb : eventOf db o.eventId = ⟨none, none⟩) :
    ∃ row, (runPlain keep keyed db ops).messages.lookup o.eventId = some row ∧
      row.room = o.room ∧ row.sender = o.sender ∧ row.ts = asI64 o.ts ∧ row.body = keep p.2 := by
  have hrun : eventOf (runPlain keep keyed db ops) o.eventId =
      eventRun keep o.eventId ⟨none, none⟩ ops := by rw [eventOf_runPlain, hdb]
  have hinv : EditInv o (eventRun keep o.eventId ⟨none, none⟩ ops) := by
    refine editInv_eventRun keep ops _ ?_ h.respects
    rintro row ⟨⟩
  have hedit := edit_eventRun keep o.eventId ops ⟨none, none⟩ h.no_clear
  rw [offers_eq_newest (h.nodup_stored keep) (h.newest_stored keep hp)] at hedit
  obtain ⟨row, hrow⟩ := Option.isSome_iff_exists.mp
    (row_eventRun keep o.eventId ops ⟨none, none⟩ h.no_clear (Or.inr h.inserted))
  obtain ⟨h1, h2, h3, h4⟩ := hinv row hrow
  refine ⟨row, ?_, h1, h2, h3, h4 _ hedit⟩
  rw [← hrow, ← hrun]
  rfl

end Runs

/-! ### What is shown -/

section Shown
variable {S : CipherSuite}

/-- Every message of the room can be read. -/
def RoomReadable (db : PlainTables) (room : String) : Prop :=
  ∀ e row, db.messages.lookup e = some row → row.room = room → (plainMessage db (e, row)).isSome = true

/-- No cell a read of the room unseals begins with the prefix. -/
def ClearRoom (db : Tables String) (room : String) : Prop :=
  ∀ e row, db.messages.lookup e = some row → row.room = room →
    startsWith row.body encPrefix = false ∧
    (∀ c, row.ciphertext = some c → startsWith c encPrefix = false) ∧
    ∀ n, db.members.lookup (row.room, row.sender) = some n → startsWith n encPrefix = false

/-- `recent_messages` returns, the event is among what it returns, and `body` is its body. -/
def Shows (st : Store S) (o : Origin) (limit : ℕ) (body : String) : Prop :=
  ∃ ms, recentMessages st o.room limit = .ok ms ∧ (∃ m ∈ ms, m.eventId = o.eventId) ∧
    ∀ m ∈ ms, m.eventId = o.eventId → m.body = body

theorem mapM_option_isSome {α β : Type} {f : α → Option β} : ∀ {l : List α},
    (l.mapM f).isSome = true ↔ ∀ a ∈ l, (f a).isSome = true
  | [] => by simp
  | a :: l => by
    have ih := mapM_option_isSome (f := f) (l := l)
    rw [List.mapM_cons]
    cases ha : f a with
    | none => simp [ha]
    | some b =>
      rw [List.forall_mem_cons, ← ih, ha]
      cases l.mapM f <;> simp

theorem mem_mapM_option {α β : Type} {f : α → Option β} : ∀ {l : List α} {r : List β},
    l.mapM f = some r → ∀ b, b ∈ r ↔ ∃ a ∈ l, f a = some b
  | [], r, h, b => by
    cases h
    simp
  | a :: l, r, h, b => by
    rw [List.mapM_cons] at h
    cases ha : f a with
    | none => rw [ha] at h; cases h
    | some b' =>
      rw [ha] at h
      cases hl : l.mapM f with
      | none => rw [hl] at h; cases h
      | some r' =>
        rw [hl] at h
        cases h
        rw [List.mem_cons, mem_mapM_option hl b]
        constructor
        · rintro (rfl | ⟨a', ha', hb⟩)
          · exact ⟨a, by simp, ha⟩
          · exact ⟨a', by simp [ha'], hb⟩
        · rintro ⟨a', ha', hb⟩
          rcases List.mem_cons.mp ha' with rfl | ha'
          · rw [ha] at hb
            cases hb
            exact Or.inl rfl
          · exact Or.inr ⟨a', ha', hb⟩

theorem length_entries_plain (st : Store S) :
    (plain st).messages.entries.length = st.db.messages.rows.length := by
  show ((st.db.messages.mapVal _).entries).length = _
  unfold Table.entries
  rw [List.length_map, Table.rows_mapVal, List.length_map]

/-- **What `recent_messages` returns**, with a limit that covers the table. -/
theorem recentMessages_ok_iff (st : Store S) (room : String) {limit : ℕ}
    (hl : st.db.messages.rows.length ≤ limit) :
    (∃ ms, recentMessages st room limit = .ok ms) ↔ RoomReadable (plain st) room := by
  have hto := recentMessages_toOption st room limit
  have hok : (∃ ms, recentMessages st room limit = .ok ms) ↔
      ((newest (plain st) (inRoom room) limit).mapM (plainMessage (plain st))).isSome = true := by
    cases hr : recentMessages st room limit with
    | error e =>
      rw [hr] at hto
      have hnone := Option.map_eq_none_iff.mp hto.symm
      rw [hnone]
      simp
    | ok ms =>
      rw [hr] at hto
      obtain ⟨r, hr, -⟩ := Option.map_eq_some_iff.mp hto.symm
      rw [hr]
      simp
  rw [hok, mapM_option_isSome]
  constructor
  · intro h e row hrow hroom
    refine h (e, row) (mem_newest ?_ hrow ?_)
    · rw [length_entries_plain]; exact hl
    · unfold inRoom
      exact decide_eq_true hroom
  · rintro h ⟨e, row⟩ hm
    obtain ⟨hrow, hroom⟩ := of_mem_newest hm
    exact h e row hrow (of_decide_eq_true hroom)

theorem plainMessage_eq {db : PlainTables} {e : String} {row : MessageRow (Option String)}
    {m : Message} (h : plainMessage db (e, row) = some m) : m.eventId = e ∧ row.body = some m.body := by
  unfold plainMessage at h
  dsimp only at h
  split at h
  · next hb _ _ =>
    cases h
    exact ⟨rfl, hb⟩
  · cases h

/-- **The event is shown** with what its row reads, if the room can be read. -/
theorem shows_of_readable {st : Store S} {o : Origin} {limit : ℕ} {body : String}
    {row : MessageRow (Option String)} (hl : st.db.messages.rows.length ≤ limit)
    (hrow : (plain st).messages.lookup o.eventId = some row) (hroom : row.room = o.room)
    (hbody : row.body = some body ∨ row.body = none) (h : RoomReadable (plain st) o.room) :
    Shows st o limit body := by
  obtain ⟨ms, hms⟩ := (recentMessages_ok_iff st o.room hl).mpr h
  have hto := recentMessages_toOption st o.room limit
  rw [hms] at hto
  obtain ⟨r, hr, hrev⟩ := Option.map_eq_some_iff.mp hto.symm
  have hmem : ∀ m, m ∈ ms ↔ ∃ a ∈ newest (plain st) (inRoom o.room) limit,
      plainMessage (plain st) a = some m := by
    intro m
    rw [← hrev, List.mem_reverse, mem_mapM_option hr]
  obtain ⟨m, hm⟩ := Option.isSome_iff_exists.mp (h _ _ hrow hroom)
  have hsel : (o.eventId, row) ∈ newest (plain st) (inRoom o.room) limit := by
    refine mem_newest ?_ hrow ?_
    · rw [length_entries_plain]; exact hl
    · unfold inRoom
      exact decide_eq_true hroom
  refine ⟨ms, hms, ⟨m, (hmem m).mpr ⟨_, hsel, hm⟩, (plainMessage_eq hm).1⟩, ?_⟩
  intro m' hm' he
  obtain ⟨⟨e', row'⟩, ha, hpm⟩ := (hmem m').mp hm'
  obtain ⟨hid, hb⟩ := plainMessage_eq hpm
  have hrow' := (of_mem_newest ha).1
  rw [show e' = o.eventId from hid ▸ he] at hrow'
  rw [hrow] at hrow'
  cases hrow'
  rcases hbody with hbody | hbody
  · rw [hbody] at hb
    exact (Option.some.inj hb).symm
  · rw [hbody] at hb
    cases hb

/-- Of a cell: in a store without a key, what does not begin with the prefix is read. -/
theorem look_ne_none_of_key_none {st : Store S} (hk : st.key = none) {cell : String} :
    look st cell ≠ none ↔ startsWith cell encPrefix = false := by
  unfold look
  rw [hk]
  constructor
  · intro h
    by_contra hp
    obtain ⟨e, he⟩ := unseal_none_of_prefix (S := S) (by simpa using hp) ""
    rw [he] at h
    exact h rfl
  · intro h
    rw [unseal_plain h]
    exact Option.some_ne_none _

/-- A message is readable where its cells are. -/
theorem plainMessage_isSome_iff (st : Store S) (e : String) (row : MessageRow String) :
    (plainMessage (plain st) (e, row.map (look st))).isSome = true ↔
      look st row.body ≠ none ∧ (∀ c, row.ciphertext = some c → look st c ≠ none) ∧
        ∀ n, st.db.members.lookup (row.room, row.sender) = some n → look st n ≠ none := by
  have hopt : ∀ c : Option String, plainOpt (c.map (look st)) ≠ none ↔
      ∀ d, c = some d → look st d ≠ none := by
    intro c
    unfold plainOpt
    cases c with
    | none => simp
    | some d =>
      dsimp only [Option.map_some]
      rw [Ne, Option.map_eq_none_iff]
      constructor
      · rintro h d' ⟨⟩; exact h
      · intro h; exact h d rfl
  rw [← hopt, ← hopt, ← members_plain]
  unfold plainMessage MessageRow.map
  dsimp only
  cases look st row.body <;>
    cases plainOpt ((plain st).members.lookup (row.room, row.sender)) <;>
    cases plainOpt (row.ciphertext.map (look st)) <;> simp

theorem roomReadable_iff (st : Store S) (room : String) :
    RoomReadable (plain st) room ↔
      ∀ e row, st.db.messages.lookup e = some row → row.room = room →
        look st row.body ≠ none ∧ (∀ c, row.ciphertext = some c → look st c ≠ none) ∧
          ∀ n, st.db.members.lookup (row.room, row.sender) = some n → look st n ≠ none := by
  constructor
  · intro h e row hrow hroom
    rw [← plainMessage_isSome_iff]
    exact h e _ (by rw [messages_plain, hrow]; rfl) hroom
  · intro h e row' hrow' hroom
    rw [messages_plain] at hrow'
    obtain ⟨row, hrow, rfl⟩ := Option.map_eq_some_iff.mp hrow'
    rw [plainMessage_isSome_iff]
    exact h e row hrow hroom

/-- **When a room can be read**, of a store whose cells all were to begin with. -/
theorem roomReadable_execAll_iff {st : Store S} (hst : AllCells (fun c => look st c ≠ none) st.db)
    (run : List (StoreOp × Salts)) (room : String) :
    RoomReadable (plain (execAll st run)) room ↔
      st.key ≠ none ∨ ClearRoom (execAll st run).db room := by
  have hkey := key_execAll run st
  rw [roomReadable_iff]
  by_cases hk : st.key = none
  · have hclear : ∀ cell, look (execAll st run) cell ≠ none ↔ startsWith cell encPrefix = false :=
      fun cell => look_ne_none_of_key_none (hkey.trans hk)
    simp only [hclear]
    constructor
    · exact fun h => Or.inr h
    · rintro (h | h)
      · exact absurd hk h
      · exact h
  · have hlook : look (execAll st run) = look st := by
      funext cell
      unfold look
      rw [hkey]
    have hall : AllCells (fun c => look st c ≠ none) (execAll st run).db := by
      refine allCells_execAll run st (fun salt p => ?_) hst
      rw [look_protect, kept_of_key hk]
      exact Option.some_ne_none _
    refine ⟨fun _ => Or.inl hk, fun _ e row hrow hroom => ?_⟩
    rw [hlook]
    obtain ⟨hb, hc⟩ := hall.messages e row hrow
    exact ⟨hb, hc, fun n hn => hall.members _ n hn⟩

/-- No text that stands in the room begins with the prefix. -/
def ClearTexts (db : PlainTables) (room : String) : Prop :=
  ∀ e row, db.messages.lookup e = some row → row.room = room →
    (∀ t, row.body = some t → startsWith t encPrefix = false) ∧
    (∀ t, row.ciphertext = some (some t) → startsWith t encPrefix = false) ∧
    ∀ t, db.members.lookup (row.room, row.sender) = some (some t) → startsWith t encPrefix = false

/-- The texts that stand in a room of a store without a key are its cells. -/
theorem clearTexts_contents {st : Store S} (hk : st.key = none) (room : String) :
    ClearTexts (contents st) room ↔ ClearRoom st.db room := by
  have hcontent : content st = some := by
    funext cell
    unfold content
    rw [hk]
  have hmembers : ∀ k, (contents st).members.lookup k = (st.db.members.lookup k).map some := by
    intro k
    rw [← hcontent]
    exact Tables.lookup_members _ _ st.db k
  unfold ClearTexts ClearRoom
  simp only [messages_contents, hcontent, hmembers]
  constructor
  · intro h e row hrow hroom
    obtain ⟨hb, hc, hn⟩ := h e (row.map some) (by rw [hrow]; rfl) hroom
    exact ⟨hb _ rfl, fun c hct => hc c (by unfold MessageRow.map; rw [hct]; rfl),
      fun n hname => hn n (congrArg (Option.map some) hname)⟩
  · intro h e row' hrow' hroom
    obtain ⟨row, hrow, rfl⟩ := Option.map_eq_some_iff.mp hrow'
    obtain ⟨hb, hc, hn⟩ := h e row hrow hroom
    refine ⟨fun t ht => ?_, fun t ht => ?_, fun t ht => ?_⟩
    · rw [← Option.some.inj ht]
      exact hb
    · obtain ⟨c, hct, hct'⟩ := Option.map_eq_some_iff.mp (show row.ciphertext.map some = _ from ht)
      rw [← Option.some.inj hct']
      exact hc c hct
    · obtain ⟨n, hname, hname'⟩ := Option.map_eq_some_iff.mp ht
      rw [← Option.some.inj hname']
      exact hn n hname

/-- **When a room can be read, by the texts.** Without a key exactly if none of the texts that were
there or that the run brought, and that stand in the room at the end, begins with the prefix. -/
theorem roomReadable_iff_texts {st : Store S} (hst : AllCells (fun c => look st c ≠ none) st.db)
    (run : List (StoreOp × Salts)) (room : String) :
    RoomReadable (plain (execAll st run)) room ↔ st.key ≠ none ∨
      ClearTexts (runPlain some st.key.isSome (contents st) (run.map Prod.fst)) room := by
  rw [roomReadable_execAll_iff hst, ← contents_execAll]
  by_cases hk : st.key = none
  · rw [clearTexts_contents ((key_execAll run st).trans hk)]
  · simp [hk]

/-- **Edits converge.** After any run on the event `o`, of a store that can be read and knows nothing
of the event yet: the event has one row, with its room, its sender and its timestamp; and
`recent_messages` shows the body of its newest edit, exactly if the store has a key or no text that
stands in the room after the operations begins with the prefix. -/
theorem edits_converge (st : Store S) (hst : AllCells (fun c => look st c ≠ none) st.db)
    (o : Origin) (hrow : st.db.messages.lookup o.eventId = none)
    (hedit : st.db.edits.lookup o.eventId = none) (run : List (StoreOp × Salts))
    (hrun : EditRun o (run.map Prod.fst)) (p : ℕ × String)
    (hp : IsNewest (editsOf o.eventId (run.map Prod.fst)) p) :
    ((execAll st run).db.messages.rows.filter fun r => r.key = o.eventId).length = 1 ∧
    (∃ row, (execAll st run).db.messages.lookup o.eventId = some row ∧ row.room = o.room ∧
      row.sender = o.sender ∧ row.ts = asI64 o.ts) ∧
    ((∀ limit, (execAll st run).db.messages.rows.length ≤ limit →
        Shows (execAll st run) o limit p.2) ↔
      st.key ≠ none ∨
        ClearTexts (runPlain some st.key.isSome (contents st) (run.map Prod.fst)) o.room) := by
  have hdb : eventOf (plain st) o.eventId = ⟨none, none⟩ := by
    unfold eventOf
    rw [messages_plain, edits_plain, hrow, hedit]
    rfl
  obtain ⟨prow, hprow, hroom, hsender, hts, hbody⟩ :=
    hrun.row_runPlain (kept st) st.key.isSome hp hdb
  rw [← plain_execAll] at hprow
  obtain ⟨row, hfin, heq⟩ := Option.map_eq_some_iff.mp
    ((messages_plain (execAll st run) o.eventId).symm.trans hprow)
  refine ⟨Table.length_filter_key hfin, ⟨row, hfin, ?_, ?_, ?_⟩, ?_⟩
  · rw [← hroom, ← heq]; rfl
  · rw [← hsender, ← heq]; rfl
  · rw [← hts, ← heq]; rfl
  · rw [← roomReadable_iff_texts hst]
    constructor
    · intro h
      obtain ⟨ms, hms, -⟩ := h _ (le_refl _)
      exact (recentMessages_ok_iff _ _ (le_refl _)).mp ⟨ms, hms⟩
    · intro h limit hl
      refine shows_of_readable hl hprow hroom ?_ h
      rw [hbody]
      unfold kept
      split_ifs
      · exact Or.inr rfl
      · exact Or.inl rfl

end Shown

/-! ### Two runs -/

def helloOrigin : Origin := ⟨"$e", "!r", "@s", 7⟩

/-- The event as a placeholder, its text not decrypted yet. -/
def helloMessage : Message :=
  ⟨"$e", "!r", "@s", 7, none, "", true, false, false, some "sid", some "ct"⟩

/-- The newer edit, the event, the older edit, the key. -/
def helloRun : List (StoreOp × Salts) :=
  [(.recordEdit "$e" 9 "newer", fun _ => zeroSalt), (.insertMessage helloMessage, fun _ => zeroSalt),
    (.recordEdit "$e" 8 "older", fun _ => zeroSalt), (.upgradeMessage "$e" "hello", fun _ => zeroSalt)]

theorem allRead_freshStore : AllCells (fun c => look freshStore c ≠ none) freshStore.db :=
  allCells_empty.markEncrypted

theorem editRun_helloRun : EditRun helloOrigin (helloRun.map Prod.fst) := by
  refine ⟨?_, ⟨helloMessage, by decide, rfl⟩, by decide, by decide, by decide⟩
  intro op hop
  simp only [helloRun, List.map_cons, List.map_nil, List.mem_cons, List.not_mem_nil, or_false] at hop
  rcases hop with rfl | rfl | rfl | rfl
  · trivial
  · exact fun _ => ⟨rfl, rfl, rfl⟩
  · trivial
  · trivial

theorem edits_converge_hello : Shows (execAll freshStore helloRun) helloOrigin 50 "newer" :=
  (edits_converge freshStore allRead_freshStore helloOrigin (by decide) (by decide) helloRun
    editRun_helloRun (9, "newer") ⟨by decide, by decide⟩).2.2.mpr (Or.inl (by decide)) 50
    (by decide +kernel)

/-- An edit whose text begins with the prefix. -/
def markedRun : List (StoreOp × Salts) :=
  [(.insertMessage helloMessage, fun _ => zeroSalt), (.recordEdit "$e" 9 "k1:x", fun _ => zeroSalt)]

/-- **A text that begins with `k1:` is misread** in a store without a key: the room is not shown. -/
theorem not_shows_markedRun :
    ¬ ∀ (st : Store copySuite) (o : Origin) (run : List (StoreOp × Salts)) (p : ℕ × String),
      st.db = Tables.empty → EditRun o (run.map Prod.fst) →
      IsNewest (editsOf o.eventId (run.map Prod.fst)) p →
      ∀ limit, (execAll st run).db.messages.rows.length ≤ limit →
        Shows (execAll st run) o limit p.2 := by
  intro h
  have hrun : EditRun helloOrigin (markedRun.map Prod.fst) := by
    refine ⟨?_, ⟨helloMessage, by decide, rfl⟩, by decide, by decide, by decide⟩
    intro op hop
    simp only [markedRun, List.map_cons, List.map_nil, List.mem_cons, List.not_mem_nil,
      or_false] at hop
    rcases hop with rfl | rfl
    · exact fun _ => ⟨rfl, rfl, rfl⟩
    · trivial
  obtain ⟨ms, hms, -⟩ := h ⟨Tables.empty, none⟩ helloOrigin markedRun (9, "k1:x") rfl hrun
    ⟨by decide, by decide⟩ 1 (by decide)
  have hfail : (recentMessages (execAll (⟨Tables.empty, none⟩ : Store copySuite) markedRun) "!r"
      1).toOption = none := by decide +kernel
  rw [show recentMessages _ "!r" 1 = .ok ms from hms] at hfail
  cases hfail

end Kmatrix.Storage.Edits
