import Kmatrix.Storage.Edits
import Kmatrix.Sync.History

/-! # Who can change a message

Nothing in `record_if_edit` or `record_edit` looks at who sent an edit or in which room. What is stored
of a message `e` is therefore a function of the events that name `e`, whoever sent them
(`eventOf_runStep`): those with its id and those that replace it.

`sameBody_of_authentic` is what follows for two runs whose answers hold the same events of a sender in a
room: where every event naming `e` comes from that sender in that room, both show the same body. The events
of others count in another way too. They fill the windows of locked messages and of placeholders that are
tried again, and they move a room's paging edge; `Clear` says what has to be the same of that.
`not_sameBody_forged` is the case of an event that names `e` and is somebody else's. -/

namespace Kmatrix.Sync.Authentic

open Kmatrix.Lib.Keyed Kmatrix.E2ee.Ratchets Kmatrix.Storage.Seal Kmatrix.Storage.Schema
open Kmatrix.Storage.Write Kmatrix.Storage.Read Kmatrix.Storage.Plain Kmatrix.Storage.View
open Kmatrix.Storage.Edits Kmatrix.Storage.Event Kmatrix.Storage.Replay Kmatrix.Sync.Plaintext Kmatrix.Sync.Events
open Kmatrix.Sync.Convert Kmatrix.Sync.Process Kmatrix.Sync.Replay Kmatrix.Sync.Rerun Kmatrix.Sync.Restore
open Kmatrix.Sync.History

/-! ### What an event names -/

/-- The content an event shows: its own, or what it decrypts to. -/
def contentOf (serde : SerdeJson) (decrypt : String → String → Option String) (ev : RoomEvent) :
    Option EventContent :=
  if ev.kind = "m.room.message" then some ev.content
  else if ev.kind = "m.room.encrypted" then
    match ev.content.ciphertext, ev.content.sessionId with
    | some ct, some sid => (decrypt sid ct).bind fun json => (serde.decryptedEvent json).toOption
    | _, _ => none
  else none

/-- The content is a replacement of `e`. -/
def Replaces (content : EventContent) (e : String) : Prop :=
  ∃ rel, content.relatesTo = some rel ∧ rel.relType = some "m.replace" ∧ rel.eventId = some e

/-- The event is `e`, or replaces it. -/
def Names (serde : SerdeJson) (decrypt : String → String → Option String) (ev : RoomEvent)
    (e : String) : Prop :=
  ev.eventId = e ∨ ∃ content, contentOf serde decrypt ev = some content ∧ Replaces content e

theorem recordIfEdit_target {ts : U64} {content : EventContent} {d : Edit}
    (h : recordIfEdit ts content = some (some d)) : Replaces content d.target := by
  unfold recordIfEdit at h
  cases hr : content.relatesTo with
  | none => rw [hr] at h; cases h
  | some rel =>
    rw [hr] at h
    dsimp only at h
    by_cases ht : rel.relType ≠ some "m.replace"
    · rw [if_pos ht] at h; cases h
    · rw [if_neg ht] at h
      cases he : rel.eventId with
      | none => rw [he] at h; cases h
      | some target =>
        rw [he] at h
        dsimp only at h
        by_cases hb : editBody content = ""
        · rw [if_pos hb] at h; cases h
        · rw [if_neg hb] at h
          cases h
          exact ⟨rel, hr, not_not.mp ht, he⟩

theorem convertContent_target {ts : U64} {content : EventContent} {mk : String → Message} {d : Edit}
    (h : (convertContent ts content mk).edit = some d) : Replaces content d.target := by
  unfold convertContent at h
  cases hr : recordIfEdit ts content with
  | some edit =>
    rw [hr] at h
    exact recordIfEdit_target (hr.trans (congrArg some h))
  | none =>
    rw [hr] at h
    dsimp only at h
    split_ifs at h

section Convert
variable {serde : SerdeJson} {decrypt : String → String → Option String} {userId room : String}
  {ev : RoomEvent}

/-- **An edit that is recorded replaces what its event names.** -/
theorem convertEvent_target {d : Edit} (h : (convertEvent serde decrypt userId room ev).edit = some d) :
    ∃ content, contentOf serde decrypt ev = some content ∧ Replaces content d.target := by
  unfold convertEvent at h
  unfold contentOf
  dsimp only at h
  by_cases hk : ev.kind = "m.room.message"
  · rw [if_pos hk] at h
    rw [if_pos hk]
    exact ⟨_, rfl, convertContent_target h⟩
  · rw [if_neg hk] at h
    rw [if_neg hk]
    by_cases hk' : ev.kind = "m.room.encrypted"
    · rw [if_pos hk'] at h
      rw [if_pos hk']
      cases hct : ev.content.ciphertext with
      | none => rw [hct] at h; cases h
      | some ct =>
        cases hsid : ev.content.sessionId with
        | none => rw [hct, hsid] at h; cases h
        | some sid =>
          rw [hct, hsid] at h
          dsimp only at h ⊢
          cases hd : decrypt sid ct with
          | none => rw [hd] at h; cases h
          | some json =>
            rw [hd] at h
            dsimp only [Option.bind_some] at h ⊢
            cases hp : serde.decryptedEvent json with
            | error e => rw [hp] at h; cases h
            | ok content =>
              rw [hp] at h
              exact ⟨content, rfl, convertContent_target h⟩
    · rw [if_neg hk'] at h
      cases h

/-- An event that does not name `e` leads to no write of `e`. -/
theorem filter_ops_of_not_names {e : String} (h : ¬ Names serde decrypt ev e) :
    (convertEvent serde decrypt userId room ev).ops.filter (touches e) = [] := by
  refine List.filter_eq_nil_iff.mpr fun op hop ht => h ?_
  rcases List.mem_append.mp hop with hop | hop
  · obtain ⟨d, hd, rfl⟩ := List.mem_map.mp hop
    have htarget : d.target = e := of_decide_eq_true ht
    obtain ⟨content, hc, hr⟩ := convertEvent_target (Option.mem_toList.mp hd)
    exact Or.inr ⟨content, hc, htarget ▸ hr⟩
  · obtain ⟨m, hm, rfl⟩ := List.mem_map.mp hop
    have hid : m.eventId = e := of_decide_eq_true ht
    exact Or.inl ((convertEvent_message (Option.mem_toList.mp hm)).1.symm.trans hid)

end Convert

/-! ### One step, seen at one message -/

section Steps
variable (serde : SerdeJson) (userId sender room : String)

def isOwn (p : String × RoomEvent) : Bool := p.1 = room && p.2.sender = sender

/-- The events of the sender in the room. -/
def own (evs : List (String × RoomEvent)) : List RoomEvent :=
  (evs.filter (isOwn sender room)).map Prod.snd

theorem isOwn_iff {p : String × RoomEvent} :
    isOwn sender room p = true ↔ p.1 = room ∧ p.2.sender = sender := by
  unfold isOwn
  rw [Bool.and_eq_true, decide_eq_true_eq, decide_eq_true_eq]

theorem own_cons (p : String × RoomEvent) (evs : List (String × RoomEvent)) :
    own sender room (p :: evs) =
      if isOwn sender room p = true then p.2 :: own sender room evs else own sender room evs := by
  unfold own
  rw [List.filter_cons]
  split_ifs <;> rfl

/-- The writes a step makes of the events `evs` of the room. -/
def ownOps (step : Step) (evs : List RoomEvent) : List StoreOp :=
  if step.isSync then
    (evs.filterMap fun ev => (converts serde step.decrypt userId room ev).edit).map Edit.op ++
      (evs.filterMap fun ev => (converts serde step.decrypt userId room ev).message).map
        .insertMessage
  else eventOps serde userId step.decrypt room evs

/-- Every event naming `e` is of the sender in the room. -/
def OwnNames (e : String) (decrypt : Decrypts) (evs : List (String × RoomEvent)) : Prop :=
  ∀ p ∈ evs, Names serde (decrypt p.1 p.2) p.2 e → p.1 = room ∧ p.2.sender = sender

/-- Events one after the other: those of the sender in the room are the ones that count. -/
theorem filter_eventOps {e : String} {decrypt : Decrypts} (r : String) :
    ∀ {evs : List RoomEvent}, OwnNames serde sender room e decrypt (evs.map fun ev => (r, ev)) →
    (eventOps serde userId decrypt r evs).filter (touches e) =
      (eventOps serde userId decrypt room
        (own sender room (evs.map fun ev => (r, ev)))).filter (touches e)
  | [], _ => rfl
  | ev :: evs, h => by
    have ih : (eventOps serde userId decrypt r evs).filter (touches e) = _ :=
      filter_eventOps r fun p hp => h p (List.mem_cons_of_mem _ hp)
    have hev := h (r, ev) List.mem_cons_self
    rw [List.map_cons, own_cons]
    unfold eventOps at ih ⊢
    rw [List.flatMap_cons, List.filter_append, ih]
    by_cases hown : isOwn sender room (r, ev) = true
    · have hr : r = room := ((isOwn_iff sender room).mp hown).1
      rw [if_pos hown, List.flatMap_cons, List.filter_append, hr]
    · rw [if_neg hown]
      have hnot : ¬ Names serde (decrypt r ev) ev e :=
        fun hn => hown ((isOwn_iff sender room).mpr (hev hn))
      unfold converts
      rw [filter_ops_of_not_names hnot, List.nil_append]

/-- What a timeline is made into, kind by kind. -/
theorem filter_made {e : String} {decrypt : Decrypts} {α : Type} {f : Converted → Option α}
    {g : α → StoreOp} (hfg : ∀ c a, f c = some a → g a ∈ c.ops) (r : String) :
    ∀ {evs : List RoomEvent}, OwnNames serde sender room e decrypt (evs.map fun ev => (r, ev)) →
    ((evs.filterMap fun ev => f (converts serde decrypt userId r ev)).map g).filter (touches e) =
      (((own sender room (evs.map fun ev => (r, ev))).filterMap fun ev =>
        f (converts serde decrypt userId room ev)).map g).filter (touches e)
  | [], _ => rfl
  | ev :: evs, h => by
    have ih : ((evs.filterMap fun ev => f (converts serde decrypt userId r ev)).map g).filter
        (touches e) = _ := filter_made hfg r fun p hp => h p (List.mem_cons_of_mem _ hp)
    have hev := h (r, ev) List.mem_cons_self
    rw [List.map_cons, own_cons, List.filterMap_cons]
    by_cases hown : isOwn sender room (r, ev) = true
    · have hr : r = room := ((isOwn_iff sender room).mp hown).1
      rw [if_pos hown, List.filterMap_cons]
      rw [hr] at ih ⊢
      cases f (converts serde decrypt userId room ev) with
      | none => exact ih
      | some a =>
        dsimp only
        rw [List.map_cons, List.map_cons, List.filter_cons, List.filter_cons, ih]
    · rw [if_neg hown]
      have hnot : ¬ Names serde (decrypt r ev) ev e :=
        fun hn => hown ((isOwn_iff sender room).mpr (hev hn))
      cases hf : f (converts serde decrypt userId r ev) with
      | none => exact ih
      | some a =>
        have hnil := List.filter_eq_nil_iff.mp (filter_ops_of_not_names hnot) _ (hfg _ _ hf)
        dsimp only
        rw [List.map_cons, List.filter_cons_of_neg hnil]
        exact ih

theorem edit_mem_ops (c : Converted) (d : Edit) (h : c.edit = some d) : d.op ∈ c.ops :=
  List.mem_append_left _ (List.mem_map.mpr ⟨d, Option.mem_toList.mpr h, rfl⟩)

theorem message_mem_ops (c : Converted) (m : Message) (h : c.message = some m) :
    StoreOp.insertMessage m ∈ c.ops :=
  List.mem_append_right _ (List.mem_map.mpr ⟨m, Option.mem_toList.mpr h, rfl⟩)

/-- The writes of a room of a batch. -/
theorem filter_roomOps {e : String} {decrypt : Decrypts} {batch : SyncBatch}
    {p : String × JoinedRoom} {stored : Option Room} (hs : Named p.1 stored)
    (h : OwnNames serde sender room e decrypt (p.2.timeline.map fun ev => (p.1, ev))) :
    (roomOps (converts serde decrypt userId p.1) p.1 p.2 stored).filter (touches e) =
      (ownOps serde userId room (.sync decrypt batch)
        (own sender room (p.2.timeline.map fun ev => (p.1, ev)))).filter (touches e) := by
  have hnames : (if (memberNames p.2).isEmpty then []
      else [StoreOp.rememberMembers p.1 (memberNames p.2)]).filter (touches e) = [] := by
    split_ifs <;> rfl
  have hblock : ∀ (r : Room) seed, (roomBlock r seed).filter (touches e) = [] := by
    intro r seed
    unfold roomBlock
    cases seed <;> rfl
  rw [roomOps_eq _ p.2 hs, List.filter_append, List.filter_append, List.filter_append, hnames, hblock,
    List.nil_append, List.append_nil]
  unfold ownOps
  rw [if_pos (show (Step.sync decrypt batch).isSync = true from rfl), List.filter_append]
  unfold editsIn messagesOf
  rw [filter_made serde userId sender room edit_mem_ops p.1 h,
    filter_made serde userId sender room message_mem_ops p.1 h]
  rfl

theorem own_append (evs evs' : List (String × RoomEvent)) :
    own sender room (evs ++ evs') = own sender room evs ++ own sender room evs' := by
  unfold own
  rw [List.filter_append, List.map_append]

/-- Another room has no event of the room. -/
theorem own_of_ne {r : String} (hr : r ≠ room) (evs : List RoomEvent) :
    own sender room (evs.map fun ev => (r, ev)) = [] := by
  unfold own
  rw [List.filter_eq_nil_iff.mpr]
  · rfl
  · intro p hp hown
    obtain ⟨ev, -, rfl⟩ := List.mem_map.mp hp
    exact hr ((isOwn_iff sender room).mp hown).1

theorem own_flatMap {α : Type} (f : α → List (String × RoomEvent)) : ∀ l : List α,
    own sender room (l.flatMap f) = l.flatMap fun a => own sender room (f a)
  | [] => rfl
  | a :: l => by
    rw [List.flatMap_cons, List.flatMap_cons, own_append, own_flatMap f l]

/-- **The writes of a batch**: what counts of them is what its room says. -/
theorem filter_blocks {e : String} {decrypt : Decrypts} {batch : SyncBatch}
    {stored : String → Option Room} (hs : ∀ id, Named id (stored id))
    {join : List (String × JoinedRoom)} (hnd : (join.map Prod.fst).Nodup)
    (h : OwnNames serde sender room e decrypt
      (join.flatMap fun p => p.2.timeline.map fun ev => (p.1, ev))) :
    (blocks (converts serde decrypt userId) stored join).filter (touches e) =
      (ownOps serde userId room (.sync decrypt batch)
        (own sender room (join.flatMap fun p => p.2.timeline.map fun ev => (p.1, ev)))).filter
        (touches e) := by
  have hnil : (ownOps serde userId room (.sync decrypt batch) []).filter (touches e) = [] := rfl
  have hroom : ∀ p ∈ join, (roomOps (converts serde decrypt userId p.1) p.1 p.2 (stored p.1)).filter
        (touches e) =
      if p.1 = room then
        (ownOps serde userId room (.sync decrypt batch)
          (own sender room (p.2.timeline.map fun ev => (p.1, ev)))).filter (touches e)
      else [] := by
    intro p hp
    rw [filter_roomOps serde userId sender room (hs p.1) fun q hq =>
      h q (List.mem_flatMap.mpr ⟨p, hp, hq⟩)]
    by_cases hr : p.1 = room
    · rw [if_pos hr]
    · rw [if_neg hr, own_of_ne sender room hr, hnil]
  have hown : ∀ p ∈ join, own sender room (p.2.timeline.map fun ev => (p.1, ev)) =
      if p.1 = room then own sender room (p.2.timeline.map fun ev => (p.1, ev)) else [] := by
    intro p _
    by_cases hr : p.1 = room
    · rw [if_pos hr]
    · rw [if_neg hr, own_of_ne sender room hr]
  unfold blocks
  rw [List.filter_flatMap, List.flatMap_congr hroom, own_flatMap, List.flatMap_congr hown]
  by_cases hin : ∃ p ∈ join, p.1 = room
  · obtain ⟨p, hp, rfl⟩ := hin
    rw [flatMap_key (fun q : String × JoinedRoom =>
        (ownOps serde userId p.1 (.sync decrypt batch)
          (own sender p.1 (q.2.timeline.map fun ev => (q.1, ev)))).filter (touches e)) hnd hp,
      flatMap_key (fun q : String × JoinedRoom =>
        own sender p.1 (q.2.timeline.map fun ev => (q.1, ev))) hnd hp]
  · have hne : ∀ p ∈ join, p.1 ≠ room := fun p hp h => hin ⟨p, hp, h⟩
    rw [flatMap_no_key (fun q : String × JoinedRoom =>
        (ownOps serde userId room (.sync decrypt batch)
          (own sender room (q.2.timeline.map fun ev => (q.1, ev)))).filter (touches e)) hne,
      flatMap_no_key (fun q : String × JoinedRoom =>
        own sender room (q.2.timeline.map fun ev => (q.1, ev))) hne, hnil]

/-! ### A step -/

/-- What the retries of a message make of it. -/
def upgraded (e : String) (s : EventState) (texts : List String) : EventState :=
  eventRun some e s ((texts.filter fun text => text ≠ "").map (.upgradeMessage e))

theorem eventRun_retryOps {opens : String → String → Option String} (e : String) (s : EventState)
    (l : List Retry) :
    eventRun some e s (retryOps serde opens l) =
      upgraded e s ((l.filter fun p => p.1 = e).map (retryText serde opens)) := by
  unfold upgraded
  rw [eventRun_filter]
  congr 1
  unfold retryOps
  induction l with
  | nil => rfl
  | cons p l ih =>
    rw [List.filterMap_cons]
    dsimp only
    by_cases ht : retryText serde opens p = ""
    · rw [if_pos ht]
      by_cases he : p.1 = e
      · rw [List.filter_cons_of_pos (by simpa using he), List.map_cons,
          List.filter_cons_of_neg (by simpa using ht)]
        exact ih
      · rw [List.filter_cons_of_neg (by simpa using he)]
        exact ih
    · rw [if_neg ht]
      dsimp only
      by_cases he : p.1 = e
      · have htouch : touches e (.upgradeMessage p.1 (retryText serde opens p)) = true :=
          decide_eq_true he
        rw [List.filter_cons_of_pos htouch, ih, List.filter_cons_of_pos (by simpa using he),
          List.map_cons, List.filter_cons_of_pos (by simpa using ht), List.map_cons, he]
      · have htouch : ¬ touches e (.upgradeMessage p.1 (retryText serde opens p)) = true := by
          simpa [touches] using he
        rw [List.filter_cons_of_neg htouch, List.filter_cons_of_neg (by simpa using he)]
        exact ih

variable {S : CipherSuite}

/-- **A page, seen at one message**, where the events that name it are all of the sender in the room. -/
theorem eventOf_page {e : String} (rng : ℕ → Salts) (st : Store S) (decrypt : Decrypts) (r : String)
    (chunk : List RoomEvent) (endToken : Option String) (backup : Option Backup)
    (h : OwnNames serde sender room e decrypt (chunk.map fun ev => (r, ev))) :
    eventOf (contents (execOps rng st (pageOps serde userId decrypt r chunk endToken))) e =
      eventRun some e (eventOf (contents st) e)
        (ownOps serde userId room (.loadOlder decrypt r chunk endToken backup)
          (own sender room (chunk.map fun ev => (r, ev)))) := by
  rw [contents_execOps, eventOf_runPlain]
  unfold pageOps
  rw [eventRun_append]
  show eventRun some e (eventOf (contents st) e) (eventOps serde userId decrypt r chunk) = _
  rw [eventRun_filter, filter_eventOps serde userId sender room r h, ← eventRun_filter]
  rfl

/-- **A step, seen at one message**, where the events that name it are all of the sender in the
room. -/
theorem eventOf_runStep {e : String} (rng : ℕ → Salts) (st : Store S) (step : Step)
    (h : OwnNames serde sender room e step.decrypt (processed st step)) :
    eventOf (contents (runStep serde userId rng st step)) e =
      upgraded e
        (eventRun some e (eventOf (contents st) e)
          (ownOps serde userId room step (own sender room (processed st step))))
        (retriesOf serde userId rng st e step) := by
  cases step with
  | sync decrypt batch =>
    have h : OwnNames serde sender room e decrypt _ := h
    obtain ⟨tail, htail, htrace⟩ := processTrace_fst (converts serde decrypt userId) rng st batch
    show eventOf (contents (processSync _ rng st batch)) e = eventRun some e _ _
    unfold processSync
    -- the token is no event
    rw [contents_execOps, eventOf_runPlain, htrace, eventRun_filter, List.filter_append,
      filter_tail htail _ rfl, List.append_nil, filter_blocks serde userId sender room (named_storedRoom st)
        (((List.takeWhile_sublist _).map Prod.fst).nodup batch.nodup) h, ← eventRun_filter]
    rfl
  | loadOlder decrypt r chunk endToken backup =>
    by_cases hdone : (backToken st r).2 = true
    · -- nothing is fetched and nothing restored
      have hst : runStep serde userId rng st (.loadOlder decrypt r chunk endToken backup) = st :=
        if_pos hdone
      have hnone : processed st (.loadOlder decrypt r chunk endToken backup) = [] := if_pos hdone
      have hretry : retriesOf serde userId rng st e (.loadOlder decrypt r chunk endToken backup) =
          [] := by
        cases backup with
        | none => rfl
        | some b => exact if_pos hdone
      rw [hst, hnone, hretry]
      rfl
    · have hsome : processed st (.loadOlder decrypt r chunk endToken backup) =
          chunk.map fun ev => (r, ev) := if_neg hdone
      rw [hsome] at h ⊢
      have hpage := eventOf_page serde userId sender room rng st decrypt r chunk endToken backup h
      have hst : runStep serde userId rng st (.loadOlder decrypt r chunk endToken backup) = _ :=
        if_neg hdone
      rw [hst]
      cases backup with
      | none => exact hpage
      | some b =>
        have hretry : retriesOf serde userId rng st e (.loadOlder decrypt r chunk endToken (some b)) =
            _ := if_neg hdone
        dsimp only
        rw [eventOf_restoreRoom, hpage, hretry, eventRun_retryOps]
  | refetch decrypt r event =>
    have h : OwnNames serde sender room e decrypt _ := h
    show eventOf (contents (execOps rng st _)) e = eventRun some e _ _
    rw [contents_execOps, eventOf_runPlain, eventRun_filter,
      filter_eventOps serde userId sender room r h, ← eventRun_filter]
    rfl

end Steps

/-! ### Where the message is stored -/

section Stored
variable {serde : SerdeJson} {userId sender room e : String}

/-- The message is of the room, if it is stored. -/
def OfRoom (room : String) (s : EventState) : Prop := ∀ row, s.row = some row → row.room = room

theorem ofRoom_eventRun {ops : List StoreOp}
    (hops : ∀ m, StoreOp.insertMessage m ∈ ops → m.room = room) {s : EventState} (h : OfRoom room s) :
    OfRoom room (eventRun some e s ops) := by
  induction ops generalizing s with
  | nil => exact h
  | cons op ops ih =>
    refine ih (fun m hm => hops m (List.mem_cons_of_mem _ hm)) (s := eventStep some e s op) ?_
    cases op with
    | insertMessage m =>
      show OfRoom room (if m.eventId = e then _ else s)
      split_ifs
      · intro row hrow
        obtain rfl := Option.some.inj hrow
        unfold insertRow
        rcases hs : s.row with _ | old
        · exact hops m List.mem_cons_self
        · exact h old hs
      · exact h
    | upgradeMessage e' body =>
      show OfRoom room (if e' = e then _ else s)
      split_ifs
      · intro row hrow
        obtain ⟨old, hold, rfl⟩ := Option.map_eq_some_iff.mp hrow
        exact h old hold
      · exact h
    | recordEdit target ts body =>
      show OfRoom room (if target = e then editStep s (asI64 ts, some body) else s)
      unfold editStep
      split_ifs
      · intro row hrow
        obtain ⟨old, hold, rfl⟩ := Option.map_eq_some_iff.mp hrow
        exact h old hold
      · exact h
      · exact h
    | clear => exact fun row hrow => by cases hrow
    | _ => exact h

/-- What is written of events of the room is of the room. -/
theorem room_of_ownOps {step : Step} {evs : List RoomEvent} {m : Message}
    (h : StoreOp.insertMessage m ∈ ownOps serde userId room step evs) : m.room = room := by
  unfold ownOps at h
  split_ifs at h
  · rcases List.mem_append.mp h with h | h
    · obtain ⟨d, -, hd⟩ := List.mem_map.mp h
      cases hd
    · obtain ⟨m', hm', hm⟩ := List.mem_map.mp h
      obtain ⟨ev, -, hev⟩ := List.mem_filterMap.mp hm'
      obtain rfl := StoreOp.insertMessage.inj hm
      exact (convertEvent_message hev).2.1
  · obtain ⟨ev, -, hev⟩ := List.mem_flatMap.mp h
    rcases List.mem_append.mp hev with hev | hev
    · obtain ⟨d, -, hd⟩ := List.mem_map.mp hev
      cases hd
    · obtain ⟨m', hm', hm⟩ := List.mem_map.mp hev
      obtain rfl := StoreOp.insertMessage.inj hm
      exact (convertEvent_message (Option.mem_toList.mp hm')).2.1

theorem ofRoom_upgraded {s : EventState} (h : OfRoom room s) (texts : List String) :
    OfRoom room (upgraded e s texts) := by
  refine ofRoom_eventRun (fun m hm => ?_) h
  obtain ⟨text, -, htext⟩ := List.mem_map.mp hm
  cases htext

end Stored

/-! ### What a restore makes of the message -/

section Tried
variable {S : CipherSuite} (serde : SerdeJson) (room e : String)

/-- **The message is tried**, if it is locked: it lies in the window that `restore_room` goes through, which can
be read, and its session is in the backup, unless the keys held do not open it. -/
def Tried (b : Backup) (st : Store S) : Prop :=
  ∀ row, st.db.messages.lookup e = some row → retryable room row = true →
    ∃ pending sid ct, undecryptedInRoom st room backupRestoreWindow = .ok pending ∧
      (e, sid, ct) ∈ pending ∧
      ((b.imports sid).isSome ∨ retryText serde b.opens (e, sid, ct) = "")

/-- What becomes of a message that is tried. -/
def unlocked (b : Backup) (s : EventState) : EventState :=
  match s.row with
  | some row =>
    match row.sessionId, row.ciphertext with
    | some sid, some (some ct) =>
      if retryable room row then upgraded e s [retryText serde b.opens (e, sid, ct)] else s
    | _, _ => s
  | none => s

variable {serde room e} {b : Backup} {st : Store S}

theorem retryable_content (st : Store S) (row : MessageRow String) :
    retryable room (row.map (content st)) = retryable room row := by
  unfold retryable inRoom MessageRow.map
  rw [Option.isSome_map]

/-- The stored row of an event, up to the salts. -/
theorem row_eventOf (st : Store S) (e : String) :
    (eventOf (contents st) e).row = (st.db.messages.lookup e).map fun row => row.map (content st) :=
  messages_contents st e

/-- A message that cannot be retried in the room is not. -/
theorem retried_none (h : ∀ row, st.db.messages.lookup e = some row → retryable room row = false) :
    ((retried b.imports room st).filter fun p => p.1 = e) = [] := by
  refine List.filter_eq_nil_iff.mpr fun p hp he => ?_
  obtain ⟨row, hrow, hretry, -⟩ := retried_spec.2 p hp
  have hid : p.1 = e := of_decide_eq_true he
  rw [h row (hid ▸ hrow)] at hretry
  cases hretry

/-- Where no session came with a restore, that of a message it went through is not in the backup. -/
theorem imports_none {pending : List Retry} {p : Retry} (hp : p ∈ pending)
    (hempty : (importOps b.imports room pending).isEmpty = true) : b.imports p.2.1 = none := by
  rcases hpickle : b.imports p.2.1 with _ | pickle
  · rfl
  · have hop : StoreOp.putPickle kindMegolmIn p.2.1 room pickle ∈ importOps b.imports room pending :=
      List.mem_filterMap.mpr ⟨p.2.1, List.mem_eraseDups.mpr (List.mem_map.mpr ⟨p, hp, rfl⟩), by
        rw [hpickle]
        rfl⟩
    rw [List.isEmpty_iff.mp hempty] at hop
    cases hop

/-- **The retry of a message** is the only one of its id. -/
theorem filter_retry {pending : List Retry} {p : Retry} (hids : (pending.map Prod.fst).Nodup)
    (hp : p ∈ pending) : pending.filter (fun q => q.1 = p.1) = [p] := by
  have hfilter : pending.filter (fun q => q.1 = p.1) = pending.filter (· = p) := by
    refine List.filter_congr fun q hq =>
      decide_eq_decide.mpr ⟨fun he => List.inj_on_of_nodup_map hids hq hp he, ?_⟩
    rintro rfl
    rfl
  rw [hfilter, List.filter_eq, List.count_eq_one_of_mem hids.of_map hp]
  rfl

/-- What the row of a message that can be retried says. -/
theorem unlocked_of_retryable {row : MessageRow String} {sid ct : String}
    (hrow : st.db.messages.lookup e = some row) (hretry : retryable room row = true)
    (hsid : row.sessionId = some sid) (hct : row.ciphertext.bind (look st) = some ct) :
    unlocked serde room e b (eventOf (contents st) e) =
      upgraded e (eventOf (contents st) e) [retryText serde b.opens (e, sid, ct)] := by
  obtain ⟨cell, hcell, hlook⟩ := Option.bind_eq_some_iff.mp hct
  have hcipher : (row.map (content st)).ciphertext = some (some ct) := by
    show row.ciphertext.map (content st) = _
    rw [hcell, Option.map_some, content_of_look hlook]
  unfold unlocked
  rw [row_eventOf, hrow, Option.map_some]
  dsimp only
  rw [hcipher, show (row.map (content st)).sessionId = some sid from hsid]
  dsimp only
  rw [retryable_content, if_pos hretry]

/-- A message that cannot be retried stays as it is. -/
theorem unlocked_of_not_retryable {row : MessageRow String} (hrow : st.db.messages.lookup e = some row)
    (hretry : retryable room row ≠ true) :
    unlocked serde room e b (eventOf (contents st) e) = eventOf (contents st) e := by
  unfold unlocked
  rw [row_eventOf, hrow, Option.map_some]
  dsimp only
  rw [retryable_content]
  split
  · rw [if_neg hretry]
  · rfl

/-- **A message that is tried** becomes what its row says. -/
theorem upgraded_retried (h : Tried serde room e b st) :
    upgraded e (eventOf (contents st) e)
        (((retried b.imports room st).filter fun p => p.1 = e).map (retryText serde b.opens)) =
      unlocked serde room e b (eventOf (contents st) e) := by
  rcases hrow : st.db.messages.lookup e with _ | row
  · rw [retried_none fun row h' => by rw [hrow] at h'; cases h']
    unfold unlocked
    rw [row_eventOf, hrow]
    rfl
  by_cases hretry : retryable room row = true
  · obtain ⟨pending, sid, ct, hpending, hmem, hkeys⟩ := h row hrow hretry
    obtain ⟨hids, hrows⟩ := of_mapM_readRetry hpending
    obtain ⟨m, hm, hid, hsid, hct⟩ := hrows _ hmem
    have hlook := (of_mem_newest hm).1
    rw [hid, hrow] at hlook
    obtain rfl := Option.some.inj hlook
    rw [unlocked_of_retryable hrow hretry hsid hct]
    unfold retried
    rw [hpending]
    dsimp only
    by_cases hempty : (importOps b.imports room pending).isEmpty = true
    · -- no session came, so that the keys held do not open it
      have htext : retryText serde b.opens (e, sid, ct) = "" := by
        refine hkeys.resolve_left fun himports => ?_
        rw [imports_none hmem hempty] at himports
        cases himports
      rw [if_pos hempty, htext]
      rfl
    · have hnodup : (pending.map Prod.fst).Nodup := by
        rw [hids]
        exact newest_nodup st.db (retryable room) backupRestoreWindow
      rw [if_neg hempty, filter_retry hnodup hmem]
      rfl
  · rw [unlocked_of_not_retryable hrow hretry, retried_none fun row' h' => by
      rw [hrow] at h'
      obtain rfl := Option.some.inj h'
      simpa using hretry]
    rfl

end Tried

/-! ### Two runs -/

section Runs
variable (serde : SerdeJson) (userId sender room e : String) {S : CipherSuite}

/-- A run, each step with the salts it draws. -/
abbrev Run := List (Step × (ℕ → Salts))

/-- The events of a batch, each with its room. -/
def timelines (batch : SyncBatch) : List (String × RoomEvent) :=
  batch.join.flatMap fun p => p.2.timeline.map fun ev => (p.1, ev)

/-- What the server answers for an event id, if that is of the sender in the room. -/
def ownAnswer (r : String) (event : String → Option RoomEvent) (id : String) : Option RoomEvent :=
  (event id).filter fun ev => isOwn sender room (r, ev)

/-- **Two steps that differ only in events of other senders or other rooms**: the server's answers hold the
same events of the sender in the room, with the same plaintexts, and the key backup of the room is the same. -/
inductive Alike : Step → Step → Prop where
  | sync {decrypt decrypt' : Decrypts} {batch batch' : SyncBatch}
      (events : own sender room (timelines batch) = own sender room (timelines batch'))
      (plaintexts : ∀ ev ∈ own sender room (timelines batch), decrypt room ev = decrypt' room ev) :
      Alike (.sync decrypt batch) (.sync decrypt' batch')
  | loadOlder {decrypt decrypt' : Decrypts} {r r' : String} {chunk chunk' : List RoomEvent}
      {endToken endToken' : Option String} {backup backup' : Option Backup} (here : r = room ↔ r' = room)
      (events : own sender room (chunk.map fun ev => (r, ev)) =
        own sender room (chunk'.map fun ev => (r', ev)))
      (plaintexts : ∀ ev ∈ own sender room (chunk.map fun ev => (r, ev)),
        decrypt room ev = decrypt' room ev)
      (keys : r = room → backup = backup') :
      Alike (.loadOlder decrypt r chunk endToken backup) (.loadOlder decrypt' r' chunk' endToken' backup')
  | refetch {decrypt decrypt' : Decrypts} {r r' : String} {event event' : String → Option RoomEvent}
      (here : r = room ↔ r' = room)
      (events : ∀ id, ownAnswer sender room r event id = ownAnswer sender room r' event' id)
      (plaintexts : ∀ id ev, ownAnswer sender room r event id = some ev →
        decrypt room ev = decrypt' room ev) :
      Alike (.refetch decrypt r event) (.refetch decrypt' r' event')

/-- **Two runs that differ only in events of other senders or other rooms.** -/
abbrev SameOwn (run run' : Run) : Prop := List.Forall₂ (fun p p' => Alike sender room p.1 p'.1) run run'

/-- **What the others' events leave alone**, from the stores before two steps. The rooms of a batch can be
read. The room is paged to its start in both or in neither; a message that a restore finds locked is tried.
The same events of the sender are asked for again. -/
def Clear (st : Store S) (p : Step × (ℕ → Salts)) (st' : Store S) (p' : Step × (ℕ → Salts)) : Prop :=
  match p.1, p'.1 with
  | .sync _ batch, .sync _ batch' => (∀ q ∈ batch.join, CanRead st q.1) ∧ ∀ q ∈ batch'.join, CanRead st' q.1
  | .loadOlder decrypt r chunk endToken backup, .loadOlder decrypt' r' chunk' endToken' _ =>
    r = room → (backToken st room).2 = (backToken st' room).2 ∧
      ((backToken st room).2 = false → ∀ b ∈ backup,
        Tried serde room e b (execOps p.2 st (pageOps serde userId decrypt r chunk endToken)) ∧
        Tried serde room e b (execOps p'.2 st' (pageOps serde userId decrypt' r' chunk' endToken')))
  | .refetch _ r event, .refetch _ r' event' =>
    r = room → (placeholderEventIds st room repairEvents).filter
        (fun id => (ownAnswer sender room r event id).isSome) =
      (placeholderEventIds st' room repairEvents).filter
        (fun id => (ownAnswer sender room r' event' id).isSome)
  | _, _ => True

/-- **Two runs in which nothing of the others gets in the way.** -/
inductive ClearRuns : Store S → Run → Store S → Run → Prop where
  | nil (st st' : Store S) : ClearRuns st [] st' []
  | cons {st st' : Store S} {p p' : Step × (ℕ → Salts)} {run run' : Run}
      (clear : Clear serde userId sender room e st p st' p')
      (rest : ClearRuns (runStep serde userId p.2 st p.1) run (runStep serde userId p'.2 st' p'.1) run') :
      ClearRuns st (p :: run) st' (p' :: run')

/-- **A run in which `e` is named by its sender in its room alone.** -/
inductive OwnRun : Store S → Run → Prop where
  | nil (st : Store S) : OwnRun st []
  | cons {st : Store S} {p : Step × (ℕ → Salts)} {run : Run}
      (names : OwnNames serde sender room e p.1.decrypt (processed st p.1))
      (rest : OwnRun (runStep serde userId p.2 st p.1) run) : OwnRun st (p :: run)

variable {serde userId sender room e}

/-- What a step makes of events depends on their plaintexts alone. -/
theorem ownOps_congr {step step' : Step} {evs : List RoomEvent} (hsync : step.isSync = step'.isSync)
    (hplain : ∀ ev ∈ evs, step.decrypt room ev = step'.decrypt room ev) :
    ownOps serde userId room step evs = ownOps serde userId room step' evs := by
  have hconv : ∀ ev ∈ evs,
      converts serde step.decrypt userId room ev = converts serde step'.decrypt userId room ev := by
    intro ev hev
    unfold converts
    rw [hplain ev hev]
  unfold ownOps eventOps
  rw [hsync]
  have h1 := List.filterMap_congr fun ev hev => congrArg Converted.edit (hconv ev hev)
  have h2 := List.filterMap_congr fun ev hev => congrArg Converted.message (hconv ev hev)
  have h3 := List.flatMap_congr fun ev hev => congrArg Converted.ops (hconv ev hev)
  rw [h1, h2, h3]

theorem own_filterMap (r : String) (event : String → Option RoomEvent) : ∀ ids : List String,
    own sender room ((ids.filterMap event).map fun ev => (r, ev)) =
      (ids.filter fun id => (ownAnswer sender room r event id).isSome).filterMap (ownAnswer sender room r event)
  | [] => rfl
  | id :: ids => by
    have ih := own_filterMap r event ids
    rcases hev : event id with _ | ev
    · have hnone : ownAnswer sender room r event id = none := by
        unfold ownAnswer
        rw [hev]
        rfl
      rw [List.filterMap_cons_none hev, ih, List.filter_cons_of_neg (by simp [hnone])]
    · rw [List.filterMap_cons_some hev, List.map_cons, own_cons, ih]
      have hanswer : ownAnswer sender room r event id = if isOwn sender room (r, ev) then some ev else none := by
        unfold ownAnswer
        rw [hev]
        exact Option.filter_some
      split_ifs with hown
      · rw [if_pos hown] at hanswer
        rw [List.filter_cons_of_pos (by simp [hanswer]), List.filterMap_cons_some hanswer]
      · rw [if_neg hown] at hanswer
        rw [List.filter_cons_of_neg (by simp [hanswer])]

/-- Nothing is asked for a room that is paged to its start. -/
theorem retriesOf_paged {rng : ℕ → Salts} {st : Store S} {decrypt : Decrypts} {r : String}
    {chunk : List RoomEvent} {endToken : Option String} {backup : Option Backup}
    (h : (backToken st r).2 = true) :
    retriesOf serde userId rng st e (.loadOlder decrypt r chunk endToken backup) = [] := by
  rcases backup with _ | b
  · rfl
  · exact if_pos h

/-- A page of another room has no event of the room. -/
theorem own_elsewhere {st : Store S} {decrypt : Decrypts} {r : String} (hr : r ≠ room)
    {chunk : List RoomEvent} {endToken : Option String} {backup : Option Backup} :
    own sender room (processed st (.loadOlder decrypt r chunk endToken backup)) = [] := by
  unfold processed
  dsimp only
  split_ifs
  · rfl
  · exact own_of_ne sender room hr chunk

/-- In another room the message is not retried. -/
theorem retriesOf_elsewhere {rng : ℕ → Salts} {st : Store S} {decrypt : Decrypts} {r : String}
    (hr : r ≠ room) {chunk : List RoomEvent} {endToken : Option String} {backup : Option Backup}
    (hnames : OwnNames serde sender room e decrypt (processed st (.loadOlder decrypt r chunk endToken backup)))
    (hroom : OfRoom room (eventOf (contents st) e)) :
    retriesOf serde userId rng st e (.loadOlder decrypt r chunk endToken backup) = [] := by
  by_cases hpaged : (backToken st r).2 = true
  · exact retriesOf_paged hpaged
  · rcases backup with _ | b
    · rfl
    · have hsome : processed st (.loadOlder decrypt r chunk endToken (some b)) =
          chunk.map fun ev => (r, ev) := if_neg hpaged
      have hpage := eventOf_page serde userId sender room rng st decrypt r chunk endToken (some b)
        (hsome ▸ hnames)
      rw [own_of_ne sender room hr] at hpage
      refine (if_neg hpaged).trans ?_
      rw [retried_none]
      · rfl
      · intro row hrow
        have hplain := row_eventOf (execOps rng st (pageOps serde userId decrypt r chunk endToken)) e
        rw [hrow, hpage] at hplain
        have hof : row.room = room := hroom _ hplain
        unfold retryable inRoom
        rw [hof, decide_eq_false (Ne.symm hr)]
        rfl

/-- **Two pages** from stores that hold the same of `e`. -/
theorem eventOf_pages {rng rng' : ℕ → Salts} {st st' : Store S} {decrypt decrypt' : Decrypts} {r r' : String}
    {chunk chunk' : List RoomEvent} {endToken endToken' : Option String} {backup backup' : Option Backup}
    (halike : Alike sender room (.loadOlder decrypt r chunk endToken backup)
      (.loadOlder decrypt' r' chunk' endToken' backup'))
    (hclear : Clear serde userId sender room e st (.loadOlder decrypt r chunk endToken backup, rng) st'
      (.loadOlder decrypt' r' chunk' endToken' backup', rng'))
    (hnames : OwnNames serde sender room e decrypt
      (processed st (.loadOlder decrypt r chunk endToken backup)))
    (hnames' : OwnNames serde sender room e decrypt'
      (processed st' (.loadOlder decrypt' r' chunk' endToken' backup')))
    (hroom : OfRoom room (eventOf (contents st) e))
    (hst : eventOf (contents st) e = eventOf (contents st') e) :
    eventOf (contents (runStep serde userId rng st (.loadOlder decrypt r chunk endToken backup))) e =
      eventOf (contents (runStep serde userId rng' st'
        (.loadOlder decrypt' r' chunk' endToken' backup'))) e := by
  rw [eventOf_runStep serde userId sender room rng st _ hnames,
    eventOf_runStep serde userId sender room rng' st' _ hnames', ← hst]
  obtain ⟨⟩ | ⟨here, hevents, hplain, hkeys⟩ | ⟨⟩ := halike
  by_cases hr : r = room
  · obtain rfl : r' = r := (here.mp hr).trans hr.symm
    subst hr
    obtain rfl := hkeys rfl
    obtain ⟨hdone, htried⟩ := hclear rfl
    by_cases hpaged : (backToken st r').2 = true
    · -- nothing is fetched on either side
      have hpaged' : (backToken st' r').2 = true := hdone ▸ hpaged
      have hnone : processed st (.loadOlder decrypt r' chunk endToken backup) = [] := if_pos hpaged
      have hnone' : processed st' (.loadOlder decrypt' r' chunk' endToken' backup) = [] := if_pos hpaged'
      rw [hnone, hnone', retriesOf_paged hpaged, retriesOf_paged hpaged']
      rfl
    · have hpaged' : ¬ (backToken st' r').2 = true := hdone ▸ hpaged
      have hsome : processed st (.loadOlder decrypt r' chunk endToken backup) =
          chunk.map fun ev => (r', ev) := if_neg hpaged
      have hsome' : processed st' (.loadOlder decrypt' r' chunk' endToken' backup) =
          chunk'.map fun ev => (r', ev) := if_neg hpaged'
      have hops : ownOps serde userId r' (.loadOlder decrypt r' chunk endToken backup)
            (own sender r' (chunk.map fun ev => (r', ev))) =
          ownOps serde userId r' (.loadOlder decrypt' r' chunk' endToken' backup)
            (own sender r' (chunk.map fun ev => (r', ev))) := ownOps_congr rfl hplain
      have hpage := eventOf_page serde userId sender r' rng st decrypt r' chunk endToken backup (hsome ▸ hnames)
      have hpage' := eventOf_page serde userId sender r' rng' st' decrypt' r' chunk' endToken' backup
        (hsome' ▸ hnames')
      rw [hops] at hpage
      rw [← hst, ← hevents] at hpage'
      rw [hsome, hsome', ← hevents, hops]
      rcases backup with _ | b
      · rfl
      · obtain ⟨ht, ht'⟩ := htried (by simpa using hpaged) b rfl
        have hretries : retriesOf serde userId rng st e (.loadOlder decrypt r' chunk endToken (some b)) = _ :=
          if_neg hpaged
        have hretries' : retriesOf serde userId rng' st' e
          (.loadOlder decrypt' r' chunk' endToken' (some b)) = _ := if_neg hpaged'
        have hunlocked := upgraded_retried ht
        have hunlocked' := upgraded_retried ht'
        rw [hpage] at hunlocked
        rw [hpage'] at hunlocked'
        rw [hretries, hretries', hunlocked, hunlocked']
  · have hr' : r' ≠ room := fun h => hr (here.mpr h)
    rw [own_elsewhere hr, own_elsewhere hr', retriesOf_elsewhere hr hnames hroom,
      retriesOf_elsewhere hr' hnames' (hst ▸ hroom)]
    rfl

/-- **Step lemma.** Two steps from stores that hold the same of `e` leave the same of it. -/
theorem eventOf_alike {st st' : Store S} {p p' : Step × (ℕ → Salts)} (halike : Alike sender room p.1 p'.1)
    (hclear : Clear serde userId sender room e st p st' p')
    (hnames : OwnNames serde sender room e p.1.decrypt (processed st p.1))
    (hnames' : OwnNames serde sender room e p'.1.decrypt (processed st' p'.1))
    (hroom : OfRoom room (eventOf (contents st) e))
    (hst : eventOf (contents st) e = eventOf (contents st') e) :
    eventOf (contents (runStep serde userId p.2 st p.1)) e =
      eventOf (contents (runStep serde userId p'.2 st' p'.1)) e := by
  obtain ⟨step, rng⟩ := p
  obtain ⟨step', rng'⟩ := p'
  dsimp only at halike hnames hnames' ⊢
  cases halike with
  | sync hevents hplain =>
    next decrypt decrypt' batch batch' =>
    obtain ⟨hread, hread'⟩ := hclear
    have hall : processed st (.sync decrypt batch) = timelines batch :=
      congrArg (List.flatMap _) (List.takeWhile_eq_self_iff.mpr fun q hq => by simpa using hread q hq)
    have hall' : processed st' (.sync decrypt' batch') = timelines batch' :=
      congrArg (List.flatMap _) (List.takeWhile_eq_self_iff.mpr fun q hq => by simpa using hread' q hq)
    have hops : ownOps serde userId room (.sync decrypt batch) (own sender room (timelines batch)) =
        ownOps serde userId room (.sync decrypt' batch') (own sender room (timelines batch)) :=
      ownOps_congr rfl hplain
    rw [eventOf_runStep serde userId sender room rng st _ hnames,
      eventOf_runStep serde userId sender room rng' st' _ hnames', hst, hall, hall', ← hevents, hops]
    rfl
  | loadOlder here hevents hplain hkeys =>
    exact eventOf_pages (.loadOlder here hevents hplain hkeys) hclear hnames hnames' hroom hst
  | refetch here hevents hplain =>
    next decrypt decrypt' r r' event event' =>
    have hanswers : ownAnswer sender room r event = ownAnswer sender room r' event' := funext hevents
    have hown : own sender room (processed st (.refetch decrypt r event)) =
        own sender room (processed st' (.refetch decrypt' r' event')) := by
      by_cases hr : r = room
      · obtain rfl : r' = r := (here.mp hr).trans hr.symm
        subst hr
        have hasked := hclear rfl
        show own sender r' ((refetched st r' event).map _) = own sender r' ((refetched st' r' event').map _)
        unfold refetched
        rw [own_filterMap, own_filterMap, hasked, hanswers]
      · exact (own_of_ne sender room hr _).trans (own_of_ne sender room (fun h => hr (here.mpr h)) _).symm
    have hmem : ∀ ev ∈ own sender room (processed st (.refetch decrypt r event)),
        decrypt room ev = decrypt' room ev := by
      intro ev hev
      have hev : ev ∈ own sender room ((refetched st r event).map fun ev => (r, ev)) := hev
      unfold refetched at hev
      rw [own_filterMap] at hev
      obtain ⟨id, -, hid⟩ := List.mem_filterMap.mp hev
      exact hplain id ev hid
    have hops : ownOps serde userId room (.refetch decrypt r event)
          (own sender room (processed st (.refetch decrypt r event))) =
        ownOps serde userId room (.refetch decrypt' r' event')
          (own sender room (processed st (.refetch decrypt r event))) := ownOps_congr rfl hmem
    rw [eventOf_runStep serde userId sender room rng st _ hnames,
      eventOf_runStep serde userId sender room rng' st' _ hnames', hst, hops, hown]
    rfl

theorem ofRoom_runStep {st : Store S} {p : Step × (ℕ → Salts)}
    (hnames : OwnNames serde sender room e p.1.decrypt (processed st p.1))
    (hroom : OfRoom room (eventOf (contents st) e)) :
    OfRoom room (eventOf (contents (runStep serde userId p.2 st p.1)) e) := by
  rw [eventOf_runStep serde userId sender room _ _ _ hnames]
  exact ofRoom_upgraded (ofRoom_eventRun (fun _ hm => room_of_ownOps hm) hroom) _

/-- **Run lemma.** What is stored of `e` stays the same in both runs. -/
theorem eventOf_runSteps {run run' : Run} {st st' : Store S}
    (hclear : ClearRuns serde userId sender room e st run st' run') :
    SameOwn sender room run run' → OwnRun serde userId sender room e st run →
    OwnRun serde userId sender room e st' run' → OfRoom room (eventOf (contents st) e) →
    eventOf (contents st) e = eventOf (contents st') e →
    eventOf (contents (runSteps serde userId st run)) e =
      eventOf (contents (runSteps serde userId st' run')) e := by
  induction hclear with
  | nil st st' => exact fun _ _ _ _ h => h
  | cons clear rest ih =>
    intro hsame h h' hroom hst
    obtain ⟨⟩ | ⟨names, hrest⟩ := h
    obtain ⟨⟩ | ⟨names', hrest'⟩ := h'
    obtain ⟨⟩ | ⟨alike, hsame⟩ := hsame
    exact ih hsame hrest hrest' (ofRoom_runStep names hroom)
      (eventOf_alike alike clear names names' hroom hst)

/-- A message that is shown has the body stored for it. -/
theorem body_of_recentMessages {st : Store S} {room : String} {limit : ℕ} {out : List Message}
    (hout : recentMessages st room limit = .ok out) {m : Message} (hm : m ∈ out) :
    ∃ row, (eventOf (contents st) m.eventId).row = some row ∧ row.body = some m.body := by
  have hto := recentMessages_toOption st room limit
  rw [hout] at hto
  obtain ⟨ms, hms, hrev⟩ := Option.map_eq_some_iff.mp hto.symm
  obtain ⟨⟨id, row⟩, hrow, hread⟩ := (mem_mapM_option hms m).mp (by
    rw [← hrev] at hm
    exact List.mem_reverse.mp hm)
  have hlook := (of_mem_newest hrow).1
  obtain ⟨row, hdb, rfl⟩ := Option.map_eq_some_iff.mp
    ((messages_plain st id).symm.trans hlook)
  unfold plainMessage at hread
  dsimp only at hread
  split at hread
  · next body _ _ hbody _ _ =>
    cases hread
    refine ⟨row.map (content st), ?_, content_of_look hbody⟩
    refine (messages_contents st id).trans ?_
    rw [hdb]
    rfl
  · cases hread

/-- **Edits of the sender alone change a message.** Two runs from one store differ only in events of
other senders or other rooms, and in both every event that has the id of the message or replaces it is
the sender's, in the room. Where the events of the others do not get in the way, then whenever both show the
message, they show the same body. -/
theorem sameBody_of_authentic {st : Store S} (hroom : OfRoom room (eventOf (contents st) e))
    {run run' : Run} (hsame : SameOwn sender room run run')
    (hrun : OwnRun serde userId sender room e st run)
    (hrun' : OwnRun serde userId sender room e st run')
    (hclear : ClearRuns serde userId sender room e st run st run') {limit limit' : ℕ}
    {out out' : List Message}
    (hout : recentMessages (runSteps serde userId st run) room limit = .ok out)
    (hout' : recentMessages (runSteps serde userId st run') room limit' = .ok out') {m m' : Message}
    (hm : m ∈ out) (hm' : m' ∈ out') (he : m.eventId = e) (he' : m'.eventId = e) :
    m.body = m'.body := by
  obtain ⟨row, hrow, hbody⟩ := body_of_recentMessages hout hm
  obtain ⟨row', hrow', hbody'⟩ := body_of_recentMessages hout' hm'
  rw [he, eventOf_runSteps hclear hsame hrun hrun' hroom rfl] at hrow
  rw [he', hrow] at hrow'
  rw [Option.some.inj hrow', hbody'] at hbody
  exact (Option.some.inj hbody).symm

end Runs

/-! ### An answer and a forged edit -/

def hello : RoomEvent where
  kind := "m.room.message"
  sender := "@s"
  eventId := "$e"
  originServerTs := 1
  content := { body := some "hello" }

/-- Somebody else answers. -/
def answer : RoomEvent where
  kind := "m.room.message"
  sender := "@x"
  eventId := "$a"
  originServerTs := 2
  content := { body := some "hi" }

/-- Somebody else replaces the message. -/
def forged : RoomEvent where
  kind := "m.room.message"
  sender := "@x"
  eventId := "$f"
  originServerTs := 2
  content := {
    body := some "* bye"
    newContent := some { body := some "bye" }
    relatesTo := some { relType := some "m.replace", eventId := some "$e" } }

/-- Its sender replaces it. -/
def amended : RoomEvent := { forged with
  sender := "@s"
  eventId := "$g"
  content := {
    body := some "* hello!"
    newContent := some { body := some "hello!" }
    relatesTo := some { relType := some "m.replace", eventId := some "$e" } } }

/-- A run of one batch, with these events in one room. -/
def oneBatch (timeline : List RoomEvent) : Run :=
  [(.sync (fun _ _ _ _ => none)
      { nextBatch := "s1", join := [("!r", { timeline := timeline })], nodup := List.nodup_singleton "!r" },
    fun _ _ => zeroSalt)]

/-- A batch, and a page of the room. -/
def batchAndPage (timeline chunk : List RoomEvent) : Run :=
  oneBatch timeline ++
    [(.loadOlder (fun _ _ _ _ => none) "!r" chunk (some "t0") none, fun _ _ => zeroSalt)]

/-- What the two runs show of the message. -/
def shown (body : String) : Message :=
  ⟨"$e", "!r", "@s", 1, none, body, false, true, false, none, none⟩

/-- And of the answer. -/
def shownAnswer : Message := ⟨"$a", "!r", "@x", 2, none, "hi", false, true, false, none, none⟩

theorem ok_of_toOption {α : Type} {x : Except String α} {a : α} (h : x.toOption = some a) :
    x = .ok a := by
  cases x with
  | error e => cases h
  | ok b => cases h; rfl

theorem alike_batches {evs evs' : List RoomEvent}
    (h : own "@s" "!r" (evs.map fun ev => ("!r", ev)) = own "@s" "!r" (evs'.map fun ev => ("!r", ev))) :
    SameOwn "@s" "!r" (oneBatch evs) (oneBatch evs') := by
  refine .cons (.sync ?_ fun _ _ => rfl) .nil
  show own "@s" "!r" ((evs.map fun ev => ("!r", ev)) ++ []) =
    own "@s" "!r" ((evs'.map fun ev => ("!r", ev)) ++ [])
  rw [List.append_nil, List.append_nil]
  exact h

/-- The room is new, so that it can be read. -/
theorem clear_batches (evs evs' : List RoomEvent) {p p' : Step × (ℕ → Salts)} (hp : p ∈ oneBatch evs)
    (hp' : p' ∈ oneBatch evs') : Clear noJson "@me" "@s" "!r" "$e" emptyStore p emptyStore p' := by
  rw [List.mem_singleton.mp hp, List.mem_singleton.mp hp']
  have hread : CanRead emptyStore "!r" := by decide
  refine ⟨fun q hq => ?_, fun q hq => ?_⟩
  · rw [List.mem_singleton.mp hq]
    exact hread
  · rw [List.mem_singleton.mp hq]
    exact hread

/-- The answer is nothing to the message. -/
theorem not_names_answer (decrypt : String → String → Option String) : ¬ Names noJson decrypt answer "$e" := by
  rintro (hid | ⟨content, hc, rel, hr, -⟩)
  · exact absurd hid (by decide)
  · cases hc
    cases hr

/-- Whatever the sender says in the room may name the message. -/
theorem ownNames_of_own {decrypt : Decrypts} {evs : List (String × RoomEvent)}
    (h : ∀ p ∈ evs, (p.1 = "!r" ∧ p.2.sender = "@s") ∨ p.2 = answer) :
    OwnNames noJson "@s" "!r" "$e" decrypt evs := by
  intro p hp hnames
  rcases h p hp with hown | hanswer
  · exact hown
  · rw [hanswer] at hnames
    exact absurd hnames (not_names_answer _)

theorem ownRun_batchAndPage {timeline chunk : List RoomEvent}
    (h : ∀ ev ∈ timeline ++ chunk, ev.sender = "@s" ∨ ev = answer) :
    OwnRun noJson "@me" "@s" "!r" "$e" emptyStore (batchAndPage timeline chunk) := by
  have hevents : ∀ evs : List RoomEvent, (∀ ev ∈ evs, ev.sender = "@s" ∨ ev = answer) →
      ∀ p ∈ evs.map fun ev => ("!r", ev), (p.1 = "!r" ∧ p.2.sender = "@s") ∨ p.2 = answer := by
    intro evs hevs p hp
    obtain ⟨ev, hev, rfl⟩ := List.mem_map.mp hp
    exact (hevs ev hev).imp_left fun hs => ⟨rfl, hs⟩
  refine .cons (ownNames_of_own fun p hp => ?_) (.cons (ownNames_of_own fun p hp => ?_) (.nil _))
  · have hp : p ∈ (timeline.map fun ev => ("!r", ev)) ++ [] := hp
    rw [List.append_nil] at hp
    exact hevents timeline (fun ev hev => h ev (List.mem_append_left _ hev)) p hp
  · refine hevents chunk (fun ev hev => h ev (List.mem_append_right _ hev)) p ?_
    unfold processed at hp
    dsimp only at hp
    split_ifs at hp
    · cases hp
    · exact hp

theorem sameOwn_answered : SameOwn "@s" "!r" (batchAndPage [hello] [amended])
    (batchAndPage [hello, answer] [answer, amended]) := by
  exact .cons (.sync rfl fun _ _ => rfl) (.cons (.loadOlder Iff.rfl rfl (fun _ _ => rfl) fun _ => rfl) .nil)

theorem clearRuns_answered : ClearRuns noJson "@me" "@s" "!r" "$e" emptyStore
    (batchAndPage [hello] [amended]) emptyStore (batchAndPage [hello, answer] [answer, amended]) := by
  refine .cons (clear_batches [hello] [hello, answer] (List.mem_singleton_self _)
    (List.mem_singleton_self _)) (.cons (fun _ => ⟨?_, fun _ b hb => ?_⟩) (.nil _ _))
  · decide +kernel
  · cases hb

/-- **An answer and an edit of its own**: both runs show the message as its sender left it. -/
theorem sameBody_of_authentic_answered :
    (recentMessages (runSteps noJson "@me" emptyStore (batchAndPage [hello] [amended])) "!r" 50).toOption =
        some [shown "hello!"] ∧
      (recentMessages (runSteps noJson "@me" emptyStore (batchAndPage [hello, answer] [answer, amended]))
        "!r" 50).toOption = some [shown "hello!", shownAnswer] ∧
      (shown "hello!").body = (shown "hello!").body := by
  have hout : (recentMessages (runSteps noJson "@me" emptyStore (batchAndPage [hello] [amended])) "!r"
      50).toOption = some [shown "hello!"] := by decide +kernel
  have hout' : (recentMessages (runSteps noJson "@me" emptyStore
      (batchAndPage [hello, answer] [answer, amended])) "!r" 50).toOption =
        some [shown "hello!", shownAnswer] := by decide +kernel
  have hown : OwnRun noJson "@me" "@s" "!r" "$e" emptyStore (batchAndPage [hello] [amended]) :=
    ownRun_batchAndPage (by simp [hello, amended])
  have hown' : OwnRun noJson "@me" "@s" "!r" "$e" emptyStore
      (batchAndPage [hello, answer] [answer, amended]) := ownRun_batchAndPage (by simp [hello, amended])
  have hroom : OfRoom "!r" (eventOf (contents emptyStore) "$e") := fun row hrow => by cases hrow
  exact ⟨hout, hout', sameBody_of_authentic hroom sameOwn_answered hown hown' clearRuns_answered
    (ok_of_toOption hout) (ok_of_toOption hout') List.mem_cons_self List.mem_cons_self rfl rfl⟩

/-- **A forged edit**: the two runs differ in an event of another sender only, nothing else of it gets in the
way, and they show the message with different bodies. -/
theorem not_sameBody_forged :
    SameOwn "@s" "!r" (oneBatch [hello]) (oneBatch [hello, forged]) ∧
      ClearRuns noJson "@me" "@s" "!r" "$e" emptyStore (oneBatch [hello]) emptyStore
        (oneBatch [hello, forged]) ∧
      (recentMessages (runSteps noJson "@me" emptyStore (oneBatch [hello])) "!r" 50).toOption =
        some [shown "hello"] ∧
      (recentMessages (runSteps noJson "@me" emptyStore (oneBatch [hello, forged])) "!r" 50).toOption =
        some [shown "bye"] :=
  ⟨alike_batches rfl, .cons (clear_batches [hello] [hello, forged] (List.mem_singleton_self _)
    (List.mem_singleton_self _)) (.nil _ _), by decide +kernel, by decide +kernel⟩

end Kmatrix.Sync.Authentic
