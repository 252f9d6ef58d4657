import Kmatrix.Lib.Window
import Kmatrix.Sync.History
import Kmatrix.Storage.View

/-! # Repairing placeholders

A row that is locked without its ciphertext has nothing a room key can act on, so `refetch_placeholders` asks
the server for its event again, for the newest 25 such rows of a room at a time. Rows whose event comes back
as a message leave the listing; rows whose event is gone stay in it, and so does a row whose event came back
as something that inserts nothing, an edit or a redacted event. `repairs_iff` says when the calls get
through the room all the same. -/

namespace Kmatrix.Sync.Repair

open Kmatrix.Lib Kmatrix.Lib.Keyed Kmatrix.E2ee.Ratchets Kmatrix.Storage.Seal Kmatrix.Storage.Schema
open Kmatrix.Storage.Write Kmatrix.Storage.Read Kmatrix.Sync.Plaintext Kmatrix.Sync.Events
open Kmatrix.Sync.Convert Kmatrix.Sync.Process Kmatrix.Sync.Rerun Kmatrix.Sync.History

/-! ### The listing -/

section Listing
variable {S : CipherSuite}

theorem newerTs_total {C : Type} (a b : Stored C) : NewerTs a b ∨ NewerTs b a := le_total _ _

theorem newerTs_trans {C : Type} {a b c : Stored C} (hab : NewerTs a b) (hbc : NewerTs b c) :
    NewerTs a c := le_trans (b := b.2.ts) hbc hab

instance {C : Type} : Std.Total (NewerTs (C := C)) := ⟨newerTs_total⟩

instance {C : Type} : IsTrans (Stored C) NewerTs := ⟨fun _ _ _ => newerTs_trans⟩

/-- **All rows of a room that are locked without their ciphertext**, in the order they are listed. -/
def listed (st : Store S) (room : String) : List String :=
  ((st.db.messages.entries.filter fun m => stale room m.2).reverse.insertionSort NewerTs).map Prod.fst

theorem placeholderEventIds_eq (st : Store S) (room : String) (limit : ℕ) :
    placeholderEventIds st room limit = (listed st room).take limit := by
  unfold placeholderEventIds staleRows listed
  rw [List.map_take]

theorem mem_listed {st : Store S} {room id : String} :
    id ∈ listed st room ↔ ∃ row, st.db.messages.lookup id = some row ∧ stale room row = true := by
  unfold listed
  constructor
  · intro h
    obtain ⟨⟨k, row⟩, hmem, rfl⟩ := List.mem_map.mp h
    rw [List.mem_insertionSort, List.mem_reverse, List.mem_filter] at hmem
    exact ⟨row, Table.mem_entries.mp hmem.1, hmem.2⟩
  · rintro ⟨row, hrow, hstale⟩
    refine List.mem_map.mpr ⟨(id, row), ?_, rfl⟩
    rw [List.mem_insertionSort, List.mem_reverse, List.mem_filter]
    exact ⟨Table.mem_entries.mpr hrow, hstale⟩

theorem listed_nodup (st : Store S) (room : String) : (listed st room).Nodup := by
  unfold listed
  rw [((List.perm_insertionSort NewerTs _).map Prod.fst).nodup_iff, List.map_reverse, List.nodup_reverse]
  exact (List.filter_sublist.map Prod.fst).nodup st.db.messages.entries_keys_nodup

end Listing

/-! ### The statement -/

/-- **What the server answers** for an event id: the event of that id, or an error. -/
structure Answers where
  event : String → Option RoomEvent
  eventId : ∀ id ev, event id = some ev → ev.eventId = id

section Statement
variable {S : CipherSuite} (serde : SerdeJson) (userId : String) (answers : Answers) (room : String)
  (call : ℕ → Decrypts × (ℕ → Salts)) (st : Store S)

/-- The store after `k` calls, each with the keys held then and the salts it draws. -/
def after : ℕ → Store S
  | 0 => st
  | k + 1 => runStep serde userId (call k).2 (after k) (.refetch (call k).1 room answers.event)

/-- What the `k`-th call asks for. -/
def asked (k : ℕ) : List String :=
  placeholderEventIds (after serde userId answers room call st k) room repairEvents

/-- **Placeholder repair converges.** -/
structure Repairs : Prop where
  /-- In the end only rows whose event is not returned are listed. -/
  converges : ∃ k, ∀ j, k ≤ j → ∀ limit,
    ∀ id ∈ placeholderEventIds (after serde userId answers room call st j) room limit, answers.event id = none
  /-- A row is not asked for again once the server returned its event. -/
  askedOnce : ∀ k, ∀ id ∈ asked serde userId answers room call st k, answers.event id ≠ none →
    ∀ j, k < j → id ∉ asked serde userId answers room call st j
  /-- The others do not keep the window from reaching a row whose event is returned. -/
  reaches : ∀ id ∈ listed st room, answers.event id ≠ none →
    ∃ k, id ∈ asked serde userId answers room call st k

/-- The event is gone. -/
def gone (id : String) : Bool := (answers.event id).isNone

/-- What the `k`-th call is due to ask for, where rows leave the listing once their event is returned. -/
def due (k : ℕ) : List String :=
  ((Window.round repairEvents (gone answers))^[k] (listed st room)).take repairEvents

/-- **The condition.** -/
structure Fits : Prop where
  /-- Each event returned makes a message with the keys held when it is asked for. -/
  renders : ∀ k, ∀ id ∈ due answers room st k, ∀ ev, answers.event id = some ev →
    (converts serde (call k).1 userId room ev).message.isSome = true
  /-- Fewer rows than a window holds are gone before each of the others. -/
  room : Window.Reachable repairEvents (gone answers) (listed st room)

end Statement

/-! ### What the writes of a call change -/

section Unlocks
variable {C : Type} {room : String}

/-- **The rows of a room change so that some leave the listing**, and none is added or moved. -/
def Unlocks (room : String) (unlocked : String → Bool) (t u : Table String (MessageRow C)) : Prop :=
  ∃ g : String → MessageRow C → MessageRow C, u = t.mapVal (fun _ => g) ∧
    ∀ id row, t.lookup id = some row →
      (g id row).ts = row.ts ∧ stale room (g id row) = (stale room row && !unlocked id)

theorem Unlocks.refl (t : Table String (MessageRow C)) : Unlocks room (fun _ => false) t t :=
  ⟨fun _ row => row, t.mapVal_id.symm, fun id row _ => ⟨rfl, by simp⟩⟩

theorem Unlocks.trans {p q : String → Bool} {t u v : Table String (MessageRow C)}
    (h : Unlocks room p t u) (h' : Unlocks room q u v) : Unlocks room (fun id => p id || q id) t v := by
  obtain ⟨f, rfl, hf⟩ := h
  obtain ⟨g, rfl, hg⟩ := h'
  refine ⟨fun id row => g id (f id row), Table.mapVal_mapVal _ _ _, fun id row hrow => ?_⟩
  have hmid : (t.mapVal fun _ => f).lookup id = some (f id row) := by
    rw [Table.lookup_mapVal, hrow, Option.map_some]
  obtain ⟨hts, hstale⟩ := hf id row hrow
  obtain ⟨hts', hstale'⟩ := hg id (f id row) hmid
  refine ⟨hts'.trans hts, ?_⟩
  rw [hstale', hstale]
  simp [Bool.and_assoc]

/-- One row rewritten. -/
theorem Unlocks.modify {t : Table String (MessageRow C)} {id : String} {f : MessageRow C → MessageRow C}
    {p : String → Bool} (hp : ∀ id', id' ≠ id → p id' = false)
    (hf : ∀ row, (f row).ts = row.ts ∧ stale room (f row) = (stale room row && !p id)) :
    Unlocks room p t (t.modify id f) := by
  refine ⟨fun id' row => if id' = id then f row else row, rfl, fun id' row _ => ?_⟩
  dsimp only
  split_ifs with h
  · subst h
    exact hf row
  · rw [hp id' h]
    simp

theorem Unlocks.keys {p : String → Bool} {t u : Table String (MessageRow C)} (h : Unlocks room p t u) :
    u.rows.map Row.key = t.rows.map Row.key := by
  obtain ⟨g, rfl, -⟩ := h
  exact Table.keys_mapVal _ _

/-- **The listing afterwards.** -/
theorem Unlocks.listed {S : CipherSuite} {p : String → Bool} {st st' : Store S}
    (h : Unlocks room p st.db.messages st'.db.messages) :
    listed st' room = (listed st room).filter fun id => !p id := by
  obtain ⟨g, hu, hg⟩ := h
  have hentries : (st'.db.messages.entries.filter fun m => stale room m.2) =
      ((st.db.messages.entries.filter fun m => stale room m.2).filter fun m => !p m.1).map
        fun m => (m.1, g m.1 m.2) := by
    rw [hu, Storage.View.entries_mapVal, List.filter_map, List.filter_filter]
    congr 1
    refine List.filter_congr fun m hm => ?_
    rw [Function.comp_apply, (hg m.1 m.2 (Table.mem_entries.mp hm)).2, Bool.and_comm]
  unfold Repair.listed
  rw [hentries, ← List.map_reverse, ← List.map_insertionSort (r := NewerTs), List.map_map,
    ← List.filter_reverse, ← Window.filter_insertionSort, List.filter_map]
  · rfl
  · intro a ha b hb
    have hrow : ∀ m ∈ ((st.db.messages.entries.filter fun m => stale room m.2).filter
        fun m => !p m.1).reverse, (g m.1 m.2).ts = m.2.ts := by
      intro m hm
      rw [List.mem_reverse] at hm
      have hmem := List.mem_of_mem_filter (List.mem_of_mem_filter hm)
      exact (hg m.1 m.2 (Table.mem_entries.mp hmem)).1
    show b.2.ts ≤ a.2.ts ↔ (g b.1 b.2).ts ≤ (g a.1 a.2).ts
    rw [hrow a ha, hrow b hb]

end Unlocks

section Writes
variable {S : CipherSuite} {room : String}

/-- A message that has its text, or the ciphertext to get it from. -/
def Renders (m : Message) : Prop := m.decrypted = true ∨ m.ciphertext.isSome = true

/-- A write of a call: an edit, or a message under a key that is there. -/
def Refetch (keys : List String) : StoreOp → Prop
  | .recordEdit _ _ _ => True
  | .insertMessage m => m.eventId ∈ keys ∧ Renders m
  | _ => False

/-- The write takes the row out of the listing. -/
def takesOut (id : String) : StoreOp → Bool
  | .insertMessage m => m.eventId = id
  | _ => false

theorem unlocks_write {st : Store S} {rng : Salts} {op : StoreOp}
    (h : Refetch (st.db.messages.rows.map Row.key) op) :
    Unlocks room (fun id => takesOut id op) st.db.messages (op.exec rng st).db.messages := by
  cases op with
  | recordEdit target ts body =>
    -- an edit leaves the flags alone
    show Unlocks room _ st.db.messages (recordEditStmt st.db target (asI64 ts) _).1.messages
    unfold recordEditStmt
    split_ifs
    · exact Unlocks.modify (fun _ _ => rfl) fun row => ⟨rfl, by simp [takesOut, stale, inRoom]⟩
    · exact Unlocks.refl _
  | insertMessage m =>
    obtain ⟨hkey, hrenders⟩ := h
    show Unlocks room _ st.db.messages
      (insertMessageStmt st.db m _ (m.ciphertext.map (st.protect (rng 1)))).messages
    unfold insertMessageStmt Table.upsert
    dsimp only
    rw [dif_pos hkey]
    refine Unlocks.modify (fun id hne => by simpa [takesOut] using Ne.symm hne) fun row => ⟨rfl, ?_⟩
    have hout : takesOut m.eventId (.insertMessage m) = true := by simp [takesOut]
    rw [hout]
    rcases hrenders with h | h
    · simp [stale, h, boolI64]
    · simp [stale, h]
  | _ => exact h.elim

theorem unlocks_run (run : List (StoreOp × Salts)) {st : Store S}
    (h : ∀ p ∈ run, Refetch (st.db.messages.rows.map Row.key) p.1) :
    Unlocks room (fun id => run.any fun p => takesOut id p.1) st.db.messages
      (execAll st run).db.messages := by
  induction run generalizing st with
  | nil => exact Unlocks.refl _
  | cons p run ih =>
    have hfirst : Unlocks room (fun id => takesOut id p.1) st.db.messages
        (p.1.exec p.2 st).db.messages := unlocks_write (h p List.mem_cons_self)
    have hrest := @ih (p.1.exec p.2 st) fun q hq => by
      rw [hfirst.keys]
      exact h q (List.mem_cons_of_mem _ hq)
    simp only [List.any_cons]
    exact hfirst.trans hrest

end Writes

/-! ### One call -/

section Call
variable {S : CipherSuite} {serde : SerdeJson} {userId : String} {answers : Answers} {room : String}

/-- The row is asked for, and its event makes a message. -/
def leaves (serde : SerdeJson) (userId : String) (answers : Answers) (room : String) (decrypt : Decrypts)
    (wanted : List String) (id : String) : Bool :=
  decide (id ∈ wanted) &&
    ((answers.event id).bind fun ev => (converts serde decrypt userId room ev).message).isSome

theorem convertContent_renders {ts : U64} {content : EventContent} {mk : String → Message} {m : Message}
    (hmk : ∀ body, Renders (mk body)) (h : (convertContent ts content mk).message = some m) : Renders m := by
  obtain ⟨body, rfl⟩ := convertContent_message h
  exact hmk body

/-- **A message has its text, or keeps the ciphertext.** -/
theorem convertEvent_renders {decrypt : String → String → Option String} {ev : RoomEvent} {m : Message}
    (h : (convertEvent serde decrypt userId room ev).message = some m) : Renders m := by
  unfold convertEvent at h
  dsimp only at h
  split_ifs at h
  · exact convertContent_renders (fun _ => Or.inl rfl) h
  · split at h
    · split at h
      · cases h
        exact Or.inr rfl
      · split at h
        · cases h
          exact Or.inr rfl
        · exact convertContent_renders (fun _ => Or.inl rfl) h
    · cases h

/-- The write of an event that was asked for. -/
theorem of_mem_eventOps {st : Store S} {decrypt : Decrypts} {op : StoreOp}
    (h : op ∈ eventOps serde userId decrypt room (refetched st room answers.event)) :
    ∃ id ∈ placeholderEventIds st room repairEvents, ∃ ev, answers.event id = some ev ∧
      ((∃ e, (converts serde decrypt userId room ev).edit = some e ∧ op = e.op) ∨
        ∃ m, (converts serde decrypt userId room ev).message = some m ∧ op = .insertMessage m) := by
  obtain ⟨ev, hev, hop⟩ := List.mem_flatMap.mp h
  obtain ⟨id, hid, hanswer⟩ := List.mem_filterMap.mp hev
  refine ⟨id, hid, ev, hanswer, ?_⟩
  unfold Converted.ops at hop
  rcases List.mem_append.mp hop with hop | hop
  · obtain ⟨e, he, rfl⟩ := List.mem_map.mp hop
    exact Or.inl ⟨e, Option.mem_toList.mp he, rfl⟩
  · obtain ⟨m, hm, rfl⟩ := List.mem_map.mp hop
    exact Or.inr ⟨m, Option.mem_toList.mp hm, rfl⟩

theorem mem_eventOps {st : Store S} {decrypt : Decrypts} {id : String} {ev : RoomEvent} {m : Message}
    (hid : id ∈ placeholderEventIds st room repairEvents) (hanswer : answers.event id = some ev)
    (hm : (converts serde decrypt userId room ev).message = some m) :
    .insertMessage m ∈ eventOps serde userId decrypt room (refetched st room answers.event) := by
  refine List.mem_flatMap.mpr ⟨ev, List.mem_filterMap.mpr ⟨id, hid, hanswer⟩, ?_⟩
  unfold Converted.ops
  exact List.mem_append_right _ (List.mem_map.mpr ⟨m, Option.mem_toList.mpr hm, rfl⟩)

theorem refetch_eventOps {st : Store S} {decrypt : Decrypts} :
    ∀ op ∈ eventOps serde userId decrypt room (refetched st room answers.event),
      Refetch (st.db.messages.rows.map Row.key) op := by
  intro op hop
  obtain ⟨id, hid, ev, hanswer, ⟨e, -, rfl⟩ | ⟨m, hm, rfl⟩⟩ := of_mem_eventOps hop
  · trivial
  · refine ⟨?_, convertEvent_renders hm⟩
    rw [placeholderEventIds_eq] at hid
    obtain ⟨row, hrow, -⟩ := mem_listed.mp (List.mem_of_mem_take hid)
    rw [(convertEvent_message hm).1, answers.eventId id ev hanswer]
    exact Table.mem_keys.mpr ⟨row, hrow⟩

theorem any_takesOut (st : Store S) (decrypt : Decrypts) (id : String) :
    ((eventOps serde userId decrypt room (refetched st room answers.event)).any fun op => takesOut id op) =
      leaves serde userId answers room decrypt (placeholderEventIds st room repairEvents) id := by
  rw [Bool.eq_iff_iff, List.any_eq_true]
  unfold leaves
  rw [Bool.and_eq_true, decide_eq_true_eq, Option.isSome_iff_exists]
  constructor
  · rintro ⟨op, hop, hout⟩
    obtain ⟨id', hid, ev, hanswer, ⟨e, -, rfl⟩ | ⟨m, hm, rfl⟩⟩ := of_mem_eventOps hop
    · cases hout
    · have hmid : m.eventId = id := by simpa [takesOut] using hout
      have hid' : m.eventId = id' := (convertEvent_message hm).1.trans (answers.eventId id' ev hanswer)
      obtain rfl : id' = id := hid'.symm.trans hmid
      exact ⟨hid, m, by rw [hanswer]; exact hm⟩
  · rintro ⟨hid, m, hm⟩
    obtain ⟨ev, hanswer, hm⟩ := Option.bind_eq_some_iff.mp hm
    refine ⟨_, mem_eventOps hid hanswer hm, ?_⟩
    have hmid : m.eventId = id := (convertEvent_message hm).1.trans (answers.eventId id ev hanswer)
    simp [takesOut, hmid]

/-- **The listing after a call.** -/
theorem listed_call (rng : ℕ → Salts) (st : Store S) (decrypt : Decrypts) :
    listed (runStep serde userId rng st (.refetch decrypt room answers.event)) room =
      (listed st room).filter fun id =>
        !leaves serde userId answers room decrypt (placeholderEventIds st room repairEvents) id := by
  have hops : ((eventOps serde userId decrypt room (refetched st room answers.event)).mapIdx
      fun i op => (op, rng i)).map Prod.fst =
        eventOps serde userId decrypt room (refetched st room answers.event) := by
    rw [map_fst_mapIdx]
  have hwrites : ∀ p ∈ (eventOps serde userId decrypt room (refetched st room answers.event)).mapIdx
      fun i op => (op, rng i), Refetch (st.db.messages.rows.map Row.key) p.1 := by
    intro p hp
    have hop := List.mem_map_of_mem (f := Prod.fst) hp
    rw [hops] at hop
    exact refetch_eventOps p.1 hop
  refine Eq.trans (unlocks_run _ hwrites).listed (List.filter_congr fun id _ => ?_)
  rw [← any_takesOut]
  conv_rhs => rw [← hops, List.any_map]
  rfl

end Call

/-! ### All calls -/

section Calls
variable {S : CipherSuite} {serde : SerdeJson} {userId : String} {answers : Answers} {room : String}
  {call : ℕ → Decrypts × (ℕ → Salts)} {st : Store S}

theorem asked_eq (k : ℕ) : asked serde userId answers room call st k =
    (listed (after serde userId answers room call st k) room).take repairEvents :=
  placeholderEventIds_eq _ _ _

theorem listed_after_succ (k : ℕ) :
    listed (after serde userId answers room call st (k + 1)) room =
      (listed (after serde userId answers room call st k) room).filter fun id =>
        !leaves serde userId answers room (call k).1 (asked serde userId answers room call st k) id :=
  listed_call _ _ _

/-- Rows only leave the listing. -/
theorem listed_sublist {j k : ℕ} (h : j ≤ k) :
    (listed (after serde userId answers room call st k) room).Sublist
      (listed (after serde userId answers room call st j) room) := by
  induction k, h using Nat.le_induction with
  | base => exact List.Sublist.refl _
  | succ k _ ih =>
    rw [listed_after_succ]
    exact List.filter_sublist.trans ih

/-- **A row whose event makes no message is asked for again.** -/
theorem asked_again {k : ℕ} {id : String} (hasked : id ∈ asked serde userId answers room call st k)
    {ev : RoomEvent} (hanswer : answers.event id = some ev)
    (hnone : (converts serde (call k).1 userId room ev).message = none) :
    id ∈ asked serde userId answers room call st (k + 1) := by
  rw [asked_eq, listed_after_succ]
  refine Window.mem_take_filter (by rwa [asked_eq] at hasked) ?_
  unfold leaves
  rw [hanswer, Option.bind_some, hnone]
  simp

/-- Where each event returned makes a message, a call is a round of the window. -/
theorem round_of_renders {k : ℕ}
    (h : ∀ id ∈ asked serde userId answers room call st k, ∀ ev, answers.event id = some ev →
      (converts serde (call k).1 userId room ev).message.isSome = true) :
    listed (after serde userId answers room call st (k + 1)) room =
      Window.round repairEvents (gone answers) (listed (after serde userId answers room call st k) room) := by
  have hnodup := listed_nodup (after serde userId answers room call st k) room
  rw [listed_after_succ]
  rw [asked_eq] at h ⊢
  unfold Window.round
  generalize listed (after serde userId answers room call st k) room = xs at h hnodup ⊢
  conv_lhs => rw [← List.take_append_drop repairEvents xs]
  rw [List.filter_append, List.take_append_drop]
  congr 1
  · refine List.filter_congr fun id hid => ?_
    unfold leaves gone
    rw [decide_eq_true hid, Bool.true_and]
    rcases hev : answers.event id with _ | ev
    · rfl
    · rw [Option.bind_some, h id hid ev hev]
      rfl
  · rw [List.filter_eq_self]
    intro id hid
    rw [← List.take_append_drop repairEvents xs, List.nodup_append] at hnodup
    have hnot : id ∉ xs.take repairEvents := fun hmem => hnodup.2.2 id hmem id hid rfl
    unfold leaves
    rw [decide_eq_false hnot]
    rfl

/-- **The listing before each call**, where each event that is due makes a message. -/
theorem listed_after (h : ∀ k, ∀ id ∈ due answers room st k, ∀ ev, answers.event id = some ev →
    (converts serde (call k).1 userId room ev).message.isSome = true) (k : ℕ) :
    listed (after serde userId answers room call st k) room =
      (Window.round repairEvents (gone answers))^[k] (listed st room) := by
  induction k with
  | zero => rfl
  | succ k ih =>
    have hdue : asked serde userId answers room call st k = due answers room st k := by
      rw [asked_eq, ih]
      rfl
    rw [round_of_renders (by rw [hdue]; exact h k), ih, Function.iterate_succ_apply']

/-- Where no row is asked for again, each event that is due makes a message. -/
theorem renders_of_askedOnce
    (h : ∀ k, ∀ id ∈ asked serde userId answers room call st k, answers.event id ≠ none →
      ∀ j, k < j → id ∉ asked serde userId answers room call st j) (k : ℕ) :
    ∀ id ∈ due answers room st k, ∀ ev, answers.event id = some ev →
      (converts serde (call k).1 userId room ev).message.isSome = true := by
  have hrenders : ∀ j, ∀ id ∈ asked serde userId answers room call st j, ∀ ev,
      answers.event id = some ev → (converts serde (call j).1 userId room ev).message.isSome = true := by
    intro j id hasked ev hanswer
    by_contra hnone
    rw [Bool.not_eq_true, Option.isSome_eq_false_iff, Option.isNone_iff_eq_none] at hnone
    have hagain := asked_again hasked hanswer hnone
    exact h j id hasked (by rw [hanswer]; exact Option.some_ne_none ev) (j + 1) (Nat.lt_succ_self j) hagain
  have hlisted : ∀ j, listed (after serde userId answers room call st j) room =
      (Window.round repairEvents (gone answers))^[j] (listed st room) := by
    intro j
    induction j with
    | zero => rfl
    | succ j ih => rw [round_of_renders (hrenders j), ih, Function.iterate_succ_apply']
  intro id hid
  refine hrenders k id ?_
  rw [asked_eq, hlisted]
  exact hid

/-- **Placeholder repair converges exactly when** every event that is due and returned makes a message, and
fewer than 25 rows that are gone are listed before each of the others. -/
theorem repairs_iff : Repairs serde userId answers room call st ↔
    Fits serde userId answers room call st := by
  have hgone : ∀ id, gone answers id = true ↔ answers.event id = none := by
    intro id
    unfold gone
    rw [Option.isNone_iff_eq_none]
  constructor
  · intro h
    have hrenders := renders_of_askedOnce h.askedOnce
    refine ⟨hrenders, Window.settles_iff.mp ?_⟩
    obtain ⟨k, hk⟩ := h.converges
    refine ⟨k, fun id hid => ?_⟩
    rw [← listed_after hrenders] at hid
    have hnone := hk k le_rfl (listed (after serde userId answers room call st k) room).length id (by
      rw [placeholderEventIds_eq, List.take_length]
      exact hid)
    exact (hgone id).mpr hnone
  · intro h
    have hlisted := listed_after h.renders
    obtain ⟨k, hk⟩ := Window.settles_iff.mpr h.room
    refine ⟨⟨k, fun j hj limit id hid => ?_⟩, fun j id hid hne i hij hagain => ?_, fun id hid hne => ?_⟩
    · rw [placeholderEventIds_eq, hlisted] at hid
      exact (hgone id).mp (Window.settled hj hk id (List.mem_of_mem_take hid))
    · -- it left the listing with the call that asked for it
      have hnodup := listed_nodup (after serde userId answers room call st j) room
      have hback : gone answers id = false := by
        rw [← Bool.not_eq_true, hgone]
        exact hne
      rw [asked_eq] at hid hagain
      have hleft := Window.not_mem_round hnodup hid hback
      have hnext := hlisted (j + 1)
      rw [Function.iterate_succ_apply', ← hlisted j] at hnext
      rw [← hnext] at hleft
      exact hleft ((listed_sublist hij).subset (List.mem_of_mem_take hagain))
    · have hout : id ∉ (Window.round repairEvents (gone answers))^[k] (listed st room) :=
        fun hmem => hne ((hgone id).mp (hk id hmem))
      obtain ⟨j, hj⟩ := Window.looked_at hid hout
      refine ⟨j, ?_⟩
      rw [asked_eq, hlisted]
      exact hj

end Calls

/-! ### A redacted event -/

/-- A row stored before the ciphertext was kept. -/
def lockedRow : MessageRow String := ⟨"!r", "@a:x", 5, noKeyText, 1, 0, 0, none, none⟩

def oneLocked : Store copySuite :=
  ⟨{ Tables.empty with messages := Table.empty.append "$1" lockedRow (by simp) }, none⟩

/-- The server has only what a redaction left of the event. -/
def redacted : Answers where
  event id := if id = "$1" then some { kind := "m.room.encrypted", sender := "@a:x", eventId := "$1" } else none
  eventId := by
    intro id ev h
    split_ifs at h with hid
    cases h
    exact hid.symm

/-- **The redacted event is asked for again and again.** -/
theorem not_repairs_redacted :
    ¬ Repairs noJson "@me" redacted "!r" (fun _ => (fun _ _ _ _ => none, fun _ _ => zeroSalt)) oneLocked := by
  intro h
  have hasked : "$1" ∈ asked noJson "@me" redacted "!r"
      (fun _ => (fun _ _ _ _ => none, fun _ _ => zeroSalt)) oneLocked 0 := by
    decide
  exact h.askedOnce 0 "$1" hasked (by decide) 1 Nat.zero_lt_one (asked_again hasked rfl rfl)

end Kmatrix.Sync.Repair
