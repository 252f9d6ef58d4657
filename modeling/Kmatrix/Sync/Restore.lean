import Kmatrix.Sync.Rerun

/-! # A key that comes late

A message whose key is not held is stored as a placeholder with its ciphertext, and `restore_room`
tries it again once the backup has supplied keys. `restoreTrace` is that retry: the locked rows of the
window, the sessions imported for them, the rows the keys unlock.

`Arrival` is one encrypted event with its plaintext. `early` is the store after it is converted with
the key held, `late` the store after the placeholder and the retry. The two read the plaintext in two
ways, and `keyOrder_iff` says exactly when they leave the same messages and edits. -/

namespace Kmatrix.Sync.Restore

open Kmatrix.Lib.Keyed Kmatrix.Lib.Newest Kmatrix.E2ee.Ratchets Kmatrix.Storage.Seal
open Kmatrix.Storage.Schema Kmatrix.Storage.Write Kmatrix.Storage.Read Kmatrix.Storage.Plain
open Kmatrix.Storage.Event Kmatrix.Sync.Plaintext Kmatrix.Sync.Events Kmatrix.Sync.Convert
open Kmatrix.Sync.Process Kmatrix.Sync.Rerun

/-! ### `restore_room` -/

/-- How many recent messages of a room we try to recover keys for when it is opened. -/
def backupRestoreWindow : ℕ := 100

def kindMegolmIn : String := "megolm_in"

/-- A message to retry: its event id, its session, its ciphertext. -/
abbrev Retry := String × String × String

/-- The body the retry reads out of a plaintext: the empty text where it finds none. -/
def untypedText (serde : SerdeJson) (json : String) : String :=
  match serde.value json with
  | some v => v.untypedBody
  | none => ""

section Room
variable (serde : SerdeJson) (imports : String → Option Pickle)
  (opens : String → String → Option String) (room : String)

/-- What a retry yields, with the keys held after the import. -/
def retryText (p : Retry) : String :=
  match opens p.2.1 p.2.2 with
  | some json => untypedText serde json
  | none => ""

/-- The sessions of the locked messages, each fetched once; `imports` is the backup, less what does
not import. -/
def importOps (pending : List Retry) : List StoreOp :=
  (pending.map fun p => p.2.1).eraseDups.filterMap fun sessionId =>
    (imports sessionId).map fun pickle => .putPickle kindMegolmIn sessionId room pickle

/-- The messages those sessions unlock. -/
def retryOps (pending : List Retry) : List StoreOp :=
  pending.filterMap fun p =>
    let body := retryText serde opens p
    if body = "" then none else some (.upgradeMessage p.1 body)

/-- **The writes of `restore_room`**, and how many messages it upgrades. -/
def restoreTrace {S : CipherSuite} (st : Store S) : List StoreOp × Except String ℕ :=
  match undecryptedInRoom st room backupRestoreWindow with
  | .error e => ([], .error e)
  | .ok pending =>
    let imported := importOps imports room pending
    if imported.isEmpty then ([], .ok 0)
    else
      let upgrades := retryOps serde opens pending
      (imported ++ upgrades, .ok upgrades.length)

def restoreRoom {S : CipherSuite} (rng : ℕ → Salts) (st : Store S) : Store S :=
  execOps rng st (restoreTrace serde imports opens room st).1

/-- The messages it retries: those of the window, if a session was imported. -/
def retried {S : CipherSuite} (st : Store S) : List Retry :=
  match undecryptedInRoom st room backupRestoreWindow with
  | .error _ => []
  | .ok pending => if (importOps imports room pending).isEmpty then [] else pending

end Room

/-! ### What is retried -/

section Retried
variable {S : CipherSuite} {serde : SerdeJson} {imports : String → Option Pickle}
  {opens : String → String → Option String} {room : String} {st : Store S}

/-- A retry comes from a locked row that holds its session and, sealed, its ciphertext. -/
theorem of_mapM_readRetry : ∀ {rows : List (String × MessageRow String)} {pending : List Retry},
    rows.mapM (readRetry st) = .ok pending →
    pending.map Prod.fst = rows.map Prod.fst ∧
      ∀ p ∈ pending, ∃ m ∈ rows, m.1 = p.1 ∧ m.2.sessionId = some p.2.1 ∧
        m.2.ciphertext.bind (look st) = some p.2.2
  | [], pending, h => by
    cases h
    exact ⟨rfl, fun p hp => by cases hp⟩
  | m :: rows, pending, h => by
    rw [List.mapM_cons] at h
    cases hm : readRetry st m with
    | error e => rw [hm] at h; cases h
    | ok q =>
      cases hrows : rows.mapM (readRetry st) with
      | error e => rw [hm, hrows] at h; cases h
      | ok rest =>
        rw [hm, hrows] at h
        cases h
        obtain ⟨hids, hmem⟩ := of_mapM_readRetry hrows
        have hq : m.1 = q.1 ∧ m.2.sessionId = some q.2.1 ∧
            m.2.ciphertext.bind (look st) = some q.2.2 := by
          unfold readRetry at hm
          cases hs : m.2.sessionId with
          | none => rw [hs] at hm; cases hm
          | some sid =>
            cases hc : m.2.ciphertext with
            | none => rw [hs, hc] at hm; cases hm
            | some ct =>
              rw [hs, hc] at hm
              dsimp only at hm
              cases hr : st.reveal "message.ciphertext" ct with
              | error e => rw [hr] at hm; cases hm
              | ok text =>
                rw [hr] at hm
                cases hm
                exact ⟨rfl, rfl, reveal_ok.mp hr⟩
        refine ⟨by rw [List.map_cons, List.map_cons, hids, hq.1], fun p hp => ?_⟩
        rcases List.mem_cons.mp hp with rfl | hp
        · exact ⟨m, by simp, hq⟩
        · obtain ⟨m', hm', h'⟩ := hmem p hp
          exact ⟨m', by simp [hm'], h'⟩

/-- **What is retried is locked**, and each message is retried once. -/
theorem retried_spec :
    ((retried imports room st).map Prod.fst).Nodup ∧
    ∀ p ∈ retried imports room st, ∃ row, st.db.messages.lookup p.1 = some row ∧
      retryable room row = true ∧ row.sessionId = some p.2.1 ∧
      row.ciphertext.bind (look st) = some p.2.2 := by
  unfold retried
  cases hu : undecryptedInRoom st room backupRestoreWindow with
  | error e => exact ⟨List.nodup_nil, fun p hp => by cases hp⟩
  | ok pending =>
    dsimp only
    by_cases hempty : (importOps imports room pending).isEmpty = true
    · rw [if_pos hempty]
      exact ⟨List.nodup_nil, fun p hp => by cases hp⟩
    · rw [if_neg hempty]
      obtain ⟨hids, hmem⟩ := of_mapM_readRetry hu
      refine ⟨hids ▸ newest_nodup st.db (retryable room) backupRestoreWindow, fun p hp => ?_⟩
      obtain ⟨m, hm, hid, hsid, hct⟩ := hmem p hp
      obtain ⟨hlook, hp⟩ := of_mem_newest hm
      exact ⟨m.2, hid ▸ hlook, hp, hsid, hct⟩

/-- A message that can be retried is locked. -/
theorem decrypted_of_retryable {C : Type} {room : String} {row : MessageRow C}
    (h : retryable room row = true) : row.decrypted = 0 := by
  unfold retryable at h
  simp only [Bool.and_eq_true, decide_eq_true_eq] at h
  exact h.1.1.2

/-- Importing a session changes no message. -/
theorem eventRun_importOps (keep : String → Option String) (e : String) (pending : List Retry)
    (s : EventState) : eventRun keep e s (importOps imports room pending) = s := by
  rw [eventRun_filter, List.filter_eq_nil_iff.mpr]
  · rfl
  · intro op hop
    obtain ⟨sid, -, h⟩ := List.mem_filterMap.mp hop
    obtain ⟨pickle, -, rfl⟩ := Option.map_eq_some_iff.mp h
    exact Bool.false_ne_true

/-- **`restore_room`, seen at one event**: the upgrades of what it retries. -/
theorem eventOf_restoreRoom (rng : ℕ → Salts) (e : String) :
    eventOf (contents (restoreRoom serde imports opens room rng st)) e =
      eventRun some e (eventOf (contents st) e) (retryOps serde opens (retried imports room st)) := by
  unfold restoreRoom
  rw [contents_execOps, eventOf_runPlain]
  unfold restoreTrace retried
  cases undecryptedInRoom st room backupRestoreWindow with
  | error e => rfl
  | ok pending =>
    dsimp only
    by_cases hempty : (importOps imports room pending).isEmpty = true
    · rw [if_pos hempty, if_pos hempty]
      rfl
    · rw [if_neg hempty, if_neg hempty]
      dsimp only
      rw [eventRun_append, eventRun_importOps]

/-- An event of which nothing is unlocked stays. -/
theorem eventRun_retry_none {e : String} (s : EventState) : ∀ {l : List Retry},
    (∀ p ∈ l, p.1 = e → retryText serde opens p = "") →
    eventRun some e s (retryOps serde opens l) = s
  | [], _ => rfl
  | p :: l, h => by
    have ih : eventRun some e s (retryOps serde opens l) = s :=
      eventRun_retry_none s fun q hq => h q (by simp [hq])
    unfold retryOps at ih ⊢
    rw [List.filterMap_cons]
    dsimp only
    by_cases ht : retryText serde opens p = ""
    · rw [if_pos ht]
      exact ih
    · rw [if_neg ht]
      show eventRun some e (eventStep some e s _) _ = s
      rw [show eventStep some e s (.upgradeMessage p.1 (retryText serde opens p)) = s from
        if_neg fun he => ht (h p (by simp) he)]
      exact ih

/-- **An event that is unlocked is upgraded.** -/
theorem eventRun_retry (s : EventState) : ∀ {l : List Retry}, (l.map Prod.fst).Nodup →
    ∀ {p}, p ∈ l → retryText serde opens p ≠ "" →
    eventRun some p.1 s (retryOps serde opens l) =
      ⟨s.edit, s.row.map (upgradeRow s.edit (some (retryText serde opens p)))⟩
  | q :: l, hnd, p, hp, ht => by
    obtain ⟨hq, hnd'⟩ := List.nodup_cons.mp hnd
    rcases List.mem_cons.mp hp with rfl | hmem
    · have hrest : ∀ s' : EventState, eventRun some p.1 s' (retryOps serde opens l) = s' :=
        fun s' => eventRun_retry_none s' fun r hr he => absurd (List.mem_map.mpr ⟨r, hr, he⟩) hq
      unfold retryOps at hrest ⊢
      rw [List.filterMap_cons]
      dsimp only
      rw [if_neg ht]
      show eventRun some p.1 (eventStep some p.1 s _) _ = _
      rw [show eventStep some p.1 s (.upgradeMessage p.1 (retryText serde opens p)) = _ from
        if_pos rfl]
      exact hrest _
    · have hne : q.1 ≠ p.1 := fun h => hq (List.mem_map.mpr ⟨p, hmem, h.symm⟩)
      have ih := eventRun_retry s hnd' hmem ht
      unfold retryOps at ih ⊢
      rw [List.filterMap_cons]
      dsimp only
      by_cases hqt : retryText serde opens q = ""
      · rw [if_pos hqt]
        exact ih
      · rw [if_neg hqt]
        show eventRun some p.1 (eventStep some p.1 s _) _ = _
        rw [show eventStep some p.1 s (.upgradeMessage q.1 (retryText serde opens q)) = s from
          if_neg hne]
        exact ih

end Retried

/-! ### One arrival, early and late -/

section Arrival
variable (serde : SerdeJson) (imports : String → Option Pickle)
  (opens keys : String → String → Option String) (userId roomId : String) (ev : RoomEvent)

section Stores
variable {S : CipherSuite} (rng rng' : ℕ → Salts) (st : Store S)

/-- The event is converted while the keys `opens` are held. -/
def early : Store S := execOps rng st (convertEvent serde opens userId roomId ev).ops

/-- The event is converted while the keys `keys` are held. -/
def placed : Store S := execOps rng st (convertEvent serde keys userId roomId ev).ops

/-- The event is converted while the keys `keys` are held, and the room is restored, after which the
keys `opens` are. -/
def late : Store S :=
  restoreRoom serde imports opens roomId rng' (placed serde keys userId roomId ev rng st)

end Stores

/-- **The same messages and the same edits**, up to the salts. -/
def SameMessages {S : CipherSuite} (a b : Store S) : Prop :=
  (∀ e, (contents a).messages.lookup e = (contents b).messages.lookup e) ∧
    ∀ e, (contents a).edits.lookup e = (contents b).edits.lookup e

theorem sameMessages_iff {S : CipherSuite} {a b : Store S} :
    SameMessages a b ↔ ∀ e, eventOf (contents a) e = eventOf (contents b) e := by
  constructor
  · rintro ⟨hm, he⟩ e
    unfold eventOf
    rw [hm, he]
  · exact fun h => ⟨fun e => (rows_of_eventOf (h e)).2, fun e => (rows_of_eventOf (h e)).1⟩

/-- The placeholder of the event. -/
def placeholder (sid ct : String) : Message :=
  ⟨ev.eventId, roomId, ev.sender, ev.originServerTs, none, noKeyText, true, false,
    ev.sender = userId, some sid, some ct⟩

/-- The row the late path leaves: the placeholder, upgraded to `text` if the retry unlocks it. -/
def lateRow (sid ct text : String) (up : Bool) (s : EventState) : MessageRow (Option String) :=
  let row := insertRow some s (placeholder userId roomId ev sid ct)
  if up then upgradeRow s.edit (some text) row else row

/-! ### The condition -/

/-- The retry unlocks the event: it is in the window and its plaintext has a text for a body. -/
def unlocks (st : List Retry) (json : String) : Bool :=
  decide (ev.eventId ∈ st.map Prod.fst) && decide (untypedText serde json ≠ "")

/-- The row stored for the event is already the one the late path leaves. -/
def LeftAs (sid ct text : String) (up : Bool) (s : EventState) : Prop :=
  ∃ row, s.row = some row ∧ row.body = coalesce s.edit (some (if up then text else noKeyText)) ∧
    row.decrypted = boolI64 up ∧ row.sessionId = (if up then none else some sid) ∧
    row.ciphertext = if up then none else some (some ct)

/-- The edit tells nothing new: a newer one is on record, or this one is and is shown. -/
def NoNews (d : Edit) (s : EventState) : Prop :=
  ∃ held, s.edit = some held ∧ (asI64 d.ts < held.1 ∨
    held = (asI64 d.ts, some d.body) ∧ ∀ row, s.row = some row → row.body = held.2)

/-- The edit replaces the very event it came in, and yet leaves what the late path leaves. -/
def SelfEdit (sid ct text : String) (up : Bool) (d : Edit) (s : EventState) : Prop :=
  ∃ held, s.edit = some held ∧ (asI64 d.ts < held.1 ∧ LeftAs sid ct text up s ∨
    held = (asI64 d.ts, some d.body) ∧
      LeftAs sid ct text up ⟨s.edit, s.row.map fun row => { row with body := held.2 }⟩)

/-- **The condition**, on the plaintext `json` of the event, on what is stored of it (`state`), and on
the messages the retry goes through. -/
def KeyOrder (sid ct json : String) (state : String → EventState) (retries : List Retry) : Prop :=
  let text := untypedText serde json
  let up := unlocks serde ev retries json
  (∀ p ∈ retries, p.1 ≠ ev.eventId → retryText serde opens p = "") ∧
    match serde.decryptedEvent json with
    | .error _ => up = false ∧ (state ev.eventId).edit ≠ none
    | .ok content =>
      match recordIfEdit ev.originServerTs content with
      | none =>
        if content.body.getD "" = "" then LeftAs sid ct text up (state ev.eventId) else up = true
      | some none => LeftAs sid ct text up (state ev.eventId)
      | some (some d) =>
        if d.target = ev.eventId then SelfEdit sid ct text up d (state ev.eventId)
        else LeftAs sid ct text up (state ev.eventId) ∧ NoNews d (state d.target)

/-! ### The two states of the event -/

section States
variable {sid ct text : String} {up : Bool} {s : EventState}

theorem insertRow_some {m : Message} {row : MessageRow (Option String)} (h : s.row = some row) :
    insertRow some s m = { row with
      body := coalesce s.edit (some m.body)
      decrypted := boolI64 m.decrypted
      sessionId := m.sessionId
      ciphertext := m.ciphertext.map some } := by
  unfold insertRow
  rw [h]

/-- **The stored row is left as it is** exactly where it has the columns the late path writes. -/
theorem eq_late_iff (s s' : EventState) (hedit : s'.edit = s.edit)
    (hrow : s'.row = s.row ∨ ∃ body, s'.row = s.row.map fun row => { row with body := body }) :
    s' = ⟨s.edit, some (lateRow userId roomId ev sid ct text up s)⟩ ↔ LeftAs sid ct text up s' := by
  -- the columns that are kept are those of the row in `s`
  have hcols : ∀ r', s'.row = some r' → ∃ r, s.row = some r ∧
      r' = { r with body := r'.body } := by
    intro r' hr'
    rcases hrow with h | ⟨body, h⟩
    · exact ⟨r', h ▸ hr', rfl⟩
    · rw [hr'] at h
      obtain ⟨r, hr, rfl⟩ := Option.map_eq_some_iff.mp h.symm
      exact ⟨r, hr, rfl⟩
  have hlate : ∀ r, s.row = some r → lateRow userId roomId ev sid ct text up s =
      { r with
        body := coalesce s.edit (some (if up then text else noKeyText))
        decrypted := boolI64 up
        sessionId := if up then none else some sid
        ciphertext := if up then none else some (some ct) } := by
    intro r hr
    unfold lateRow
    dsimp only
    rw [insertRow_some hr]
    cases up <;> rfl
  constructor
  · intro h
    have hr' : s'.row = some (lateRow userId roomId ev sid ct text up s) := by rw [h]
    obtain ⟨r, hr, -⟩ := hcols _ hr'
    refine ⟨_, hr', ?_⟩
    rw [hedit, hlate r hr]
    exact ⟨rfl, rfl, rfl, rfl⟩
  · rintro ⟨r', hr', hbody, hdec, hsid, hct⟩
    obtain ⟨r, hr, hcol⟩ := hcols r' hr'
    refine EventState.ext hedit ?_
    rw [hr', hlate r hr, hcol, ← hedit, ← hbody, ← hdec, ← hsid, ← hct]
    rw [hcol]

/-- A recorded edit that changes nothing. -/
theorem editStep_eq_self_iff {d : Edit} :
    editStep s (stored some ((d.ts : ℕ), d.body)) = s ↔ NoNews d s := by
  unfold editStep NoNews stored
  by_cases ha : accept s.edit (asI64 d.ts, some d.body) = some (asI64 d.ts, some d.body)
  · rw [if_pos ha]
    constructor
    · intro h
      refine ⟨(asI64 d.ts, some d.body), (congrArg EventState.edit h).symm, Or.inr ⟨rfl, ?_⟩⟩
      intro row hrow
      have h2 : (s.row.map fun row => { row with body := some d.body }) = s.row :=
        congrArg EventState.row h
      rw [hrow] at h2
      have h3 := Option.some.inj h2
      rw [← h3]
    · rintro ⟨held, hheld, hlt | ⟨rfl, hshown⟩⟩
      · exact absurd (accept_eq_iff.mp ha held hheld) (not_le.mpr hlt)
      · refine EventState.ext hheld.symm ?_
        cases hrow : s.row with
        | none => rfl
        | some row =>
          have hb := hshown row hrow
          dsimp only at hb
          rw [Option.map_some, ← hb]
  · rw [if_neg ha]
    refine ⟨fun _ => ?_, fun _ => rfl⟩
    rw [accept_eq_iff] at ha
    push Not at ha
    obtain ⟨held, hheld, hlt⟩ := ha
    exact ⟨held, hheld, Or.inl hlt⟩

/-- **The row an insert of the event makes** is the late one where the four columns that differ
agree. -/
theorem insertRow_eq_late_iff {body : String} {dec : Bool} {sid' ct' : Option String} :
    insertRow some s ⟨ev.eventId, roomId, ev.sender, ev.originServerTs, none, body, true, dec,
        ev.sender = userId, sid', ct'⟩ = lateRow userId roomId ev sid ct text up s ↔
      coalesce s.edit (some body) = coalesce s.edit (some (if up then text else noKeyText)) ∧
        boolI64 dec = boolI64 up ∧ sid' = (if up then none else some sid) ∧
        ct'.map some = if up then none else some (some ct) := by
  unfold lateRow insertRow placeholder upgradeRow
  cases s.row <;> cases up <;> simp [boolI64]

/-- An edit of the event itself. -/
theorem selfEdit_iff {d : Edit} :
    editStep s (stored some ((d.ts : ℕ), d.body)) =
        ⟨s.edit, some (lateRow userId roomId ev sid ct text up s)⟩ ↔
      SelfEdit sid ct text up d s := by
  unfold editStep SelfEdit stored
  have hshown : ∀ body, (⟨s.edit, s.row.map fun row => { row with body := body }⟩ : EventState) =
        ⟨s.edit, some (lateRow userId roomId ev sid ct text up s)⟩ ↔
      LeftAs sid ct text up ⟨s.edit, s.row.map fun row => { row with body := body }⟩ :=
    fun body => eq_late_iff userId roomId ev s _ rfl (Or.inr ⟨body, rfl⟩)
  by_cases ha : accept s.edit (asI64 d.ts, some d.body) = some (asI64 d.ts, some d.body)
  · rw [if_pos ha]
    have hle := accept_eq_iff.mp ha
    constructor
    · intro h
      have hedit : s.edit = some (asI64 d.ts, some d.body) := (congrArg EventState.edit h).symm
      refine ⟨_, hedit, Or.inr ⟨rfl, ?_⟩⟩
      rw [← hshown, ← h, hedit]
    · rintro ⟨held, hheld, ⟨hlt, -⟩ | ⟨rfl, hleft⟩⟩
      · exact absurd (hle held hheld) (not_le.mpr hlt)
      · rw [← hshown] at hleft
        rw [← hleft, hheld]
  · rw [if_neg ha, eq_late_iff userId roomId ev s s rfl (Or.inl rfl)]
    rw [accept_eq_iff] at ha
    push Not at ha
    obtain ⟨held, hheld, hlt⟩ := ha
    constructor
    · exact fun h => ⟨held, hheld, Or.inl ⟨hlt, h⟩⟩
    · rintro ⟨held', hheld', ⟨-, hleft⟩ | ⟨rfl, -⟩⟩
      · exact hleft
      · rw [hheld] at hheld'
        rw [Option.some.inj hheld'] at hlt
        exact absurd hlt (lt_irrefl _)

end States

/-! ### The early path -/

section Early
variable {sid ct json : String} (hk : ev.kind = "m.room.encrypted")
  (hct : ev.content.ciphertext = some ct) (hsid : ev.content.sessionId = some sid)

/-- The messages a conversion of the event can make. -/
def message (body : String) (dec : Bool) (sid' ct' : Option String) : Message :=
  ⟨ev.eventId, roomId, ev.sender, ev.originServerTs, none, body, true, dec, ev.sender = userId, sid',
    ct'⟩

include hk hct hsid

theorem convertEvent_open (hopen : opens sid ct = some json) :
    convertEvent serde opens userId roomId ev =
      match serde.decryptedEvent json with
      | .error e =>
        { message := some (message userId roomId ev (malformedText e) false (some sid) (some ct)) }
      | .ok content =>
        convertContent ev.originServerTs content fun body =>
          message userId roomId ev body true none none := by
  unfold convertEvent
  rw [if_neg (by rw [hk]; decide), if_pos hk, hct, hsid]
  dsimp only
  rw [hopen]
  dsimp only
  cases serde.decryptedEvent json <;> rfl

theorem convertEvent_locked (hkey : keys sid ct = none) :
    convertEvent serde keys userId roomId ev =
      { message := some (placeholder userId roomId ev sid ct) } := by
  unfold convertEvent
  rw [if_neg (by rw [hk]; decide), if_pos hk, hct, hsid]
  dsimp only
  rw [hkey]
  rfl

omit hk hct hsid

theorem eventRun_insert (e : String) (s : EventState) {m : Message} (hm : m.eventId = ev.eventId) :
    eventRun some e s (Converted.ops { message := some m }) =
      if ev.eventId = e then ⟨s.edit, some (insertRow some s m)⟩ else s := by
  rw [← hm]
  rfl

theorem eventRun_edit (e : String) (s : EventState) (d : Edit) :
    eventRun some e s (Converted.ops { edit := some d }) =
      if d.target = e then editStep s (stored some ((d.ts : ℕ), d.body)) else s := rfl

theorem malformedText_ne (e : String) : malformedText e ≠ noKeyText := by
  intro h
  have hstart : startsWith (malformedText e) "[malformed plaintext: " = true := by
    unfold malformedText
    rw [String.append_assoc]
    exact startsWith_append _ _
  rw [h] at hstart
  exact absurd hstart (by decide)

/-- A plaintext the retry unlocks and that is well formed has the body the retry found. -/
theorem typed_of_unlocks {content : EventContent} {retries : List Retry}
    (hdec : serde.decryptedEvent json = .ok content) (hup : unlocks serde ev retries json = true) :
    content.body.getD "" = untypedText serde json := by
  unfold unlocks at hup
  have htext := of_decide_eq_true (Bool.and_eq_true_iff.mp hup).2
  unfold untypedText SerdeJson.value at htext ⊢
  unfold SerdeJson.decryptedEvent at hdec
  cases hp : serde.parse json with
  | none => rw [hp] at htext; exact absurd rfl htext
  | some j =>
    rw [hp] at htext hdec
    rw [Option.bind_some] at htext hdec ⊢
    by_cases hv : (j.depth ≤ nestingLimit && j.hasValue) = true
    · rw [if_pos hv] at htext ⊢
      cases ho : DecryptedEvent.ofJson j with
      | none => rw [ho] at hdec; cases hdec
      | some c =>
        rw [ho] at hdec
        cases hdec
        rw [untypedBody_of_typed ho htext]
        rfl
    · rw [if_neg hv] at htext
      exact absurd rfl htext

/-- **The early path leaves what the late path leaves**, where the retry stays away from other
messages. -/
theorem early_iff (hk : ev.kind = "m.room.encrypted") (hct : ev.content.ciphertext = some ct)
    (hsid : ev.content.sessionId = some sid) (hopen : opens sid ct = some json)
    (state : String → EventState) (retries : List Retry) :
    ((∀ e, e ≠ ev.eventId →
        eventRun some e (state e) (convertEvent serde opens userId roomId ev).ops = state e) ∧
      eventRun some ev.eventId (state ev.eventId) (convertEvent serde opens userId roomId ev).ops =
        ⟨(state ev.eventId).edit, some (lateRow userId roomId ev sid ct (untypedText serde json)
          (unlocks serde ev retries json) (state ev.eventId))⟩) ↔
    match serde.decryptedEvent json with
    | .error _ => unlocks serde ev retries json = false ∧ (state ev.eventId).edit ≠ none
    | .ok content =>
      match recordIfEdit ev.originServerTs content with
      | none =>
        if content.body.getD "" = "" then
          LeftAs sid ct (untypedText serde json) (unlocks serde ev retries json) (state ev.eventId)
        else unlocks serde ev retries json = true
      | some none =>
        LeftAs sid ct (untypedText serde json) (unlocks serde ev retries json) (state ev.eventId)
      | some (some d) =>
        if d.target = ev.eventId then
          SelfEdit sid ct (untypedText serde json) (unlocks serde ev retries json) d
            (state ev.eventId)
        else
          LeftAs sid ct (untypedText serde json) (unlocks serde ev retries json) (state ev.eventId) ∧
            NoNews d (state d.target) := by
  rw [convertEvent_open serde opens userId roomId ev hk hct hsid hopen]
  have hother : ∀ (m : Message), m.eventId = ev.eventId → ∀ e, e ≠ ev.eventId →
      eventRun some e (state e) (Converted.ops { message := some m }) = state e := by
    intro m hm e he
    rw [eventRun_insert ev e (state e) hm, if_neg (Ne.symm he)]
  have hself : ∀ (m : Message), m.eventId = ev.eventId →
      eventRun some ev.eventId (state ev.eventId) (Converted.ops { message := some m }) =
        ⟨(state ev.eventId).edit, some (insertRow some (state ev.eventId) m)⟩ := by
    intro m hm
    rw [eventRun_insert ev _ _ hm, if_pos rfl]
  have hrow : ∀ (edit : EditReg) (a b : MessageRow (Option String)),
      (⟨edit, some a⟩ : EventState) = ⟨edit, some b⟩ ↔ a = b := by
    intro edit a b
    rw [EventState.mk.injEq, Option.some.injEq]
    exact and_iff_right rfl
  have hleft : state ev.eventId = ⟨(state ev.eventId).edit, some (lateRow userId roomId ev sid ct
        (untypedText serde json) (unlocks serde ev retries json) (state ev.eventId))⟩ ↔
      LeftAs sid ct (untypedText serde json) (unlocks serde ev retries json) (state ev.eventId) :=
    eq_late_iff userId roomId ev _ _ rfl (Or.inl rfl)
  cases hdecoded : serde.decryptedEvent json with
  | error e =>
    dsimp only
    rw [hself _ rfl, hrow]
    unfold message
    rw [insertRow_eq_late_iff]
    constructor
    · rintro ⟨-, hbody, hdec, -⟩
      cases hup : unlocks serde ev retries json with
      | true => rw [hup] at hdec; exact absurd hdec (by decide)
      | false =>
        refine ⟨rfl, fun hnone => ?_⟩
        rw [hnone, hup] at hbody
        exact malformedText_ne e (Option.some.inj hbody)
    · rintro ⟨hup, hedit⟩
      refine ⟨hother _ rfl, ?_⟩
      obtain ⟨held, hheld⟩ := Option.ne_none_iff_exists'.mp hedit
      rw [hup, hheld]
      exact ⟨rfl, rfl, rfl, rfl⟩
  | ok content =>
    dsimp only
    unfold convertContent
    cases hedit : recordIfEdit ev.originServerTs content with
    | none =>
      dsimp only
      by_cases hb : content.body.getD "" = ""
      · rw [if_pos hb, if_pos hb]
        exact ⟨fun h => hleft.mp h.2, fun h => ⟨fun _ _ => rfl, hleft.mpr h⟩⟩
      · rw [if_neg hb, if_neg hb, hself _ rfl, hrow]
        unfold message
        rw [insertRow_eq_late_iff]
        constructor
        · rintro ⟨-, -, hdec, -⟩
          cases hup : unlocks serde ev retries json with
          | true => rfl
          | false => rw [hup] at hdec; exact absurd hdec (by decide)
        · intro hup
          refine ⟨hother _ rfl, ?_⟩
          rw [typed_of_unlocks serde ev hdecoded hup, hup]
          exact ⟨rfl, rfl, rfl, rfl⟩
    | some edit =>
      dsimp only
      cases edit with
      | none => exact ⟨fun h => hleft.mp h.2, fun h => ⟨fun _ _ => rfl, hleft.mpr h⟩⟩
      | some d =>
        dsimp only
        rw [eventRun_edit]
        by_cases ht : d.target = ev.eventId
        · rw [if_pos ht, if_pos ht, selfEdit_iff]
          refine and_iff_right fun e he => ?_
          rw [eventRun_edit, if_neg fun h => he (h.symm.trans ht)]
        · rw [if_neg ht, if_neg ht, hleft, ← editStep_eq_self_iff, and_comm]
          refine and_congr_right fun _ => ⟨fun h => ?_, fun h e he => ?_⟩
          · have := h d.target ht
            rw [eventRun_edit, if_pos rfl] at this
            exact this
          · rw [eventRun_edit]
            by_cases hte : d.target = e
            · rw [if_pos hte, ← hte]
              exact h
            · exact if_neg hte

end Early

/-! ### The late path -/

/-- What can be read of a cell is what it says. -/
theorem content_of_look {S : CipherSuite} {st : Store S} {cell text : String}
    (h : look st cell = some text) : content st cell = some text := by
  unfold content
  cases hk : st.key with
  | some master => exact h
  | none =>
    unfold look at h
    rw [hk] at h
    dsimp only
    by_cases hp : startsWith cell encPrefix = true
    · obtain ⟨e, he⟩ := unseal_none_of_prefix (S := S) hp ""
      rw [he] at h
      cases h
    · rw [unseal_plain (by simpa using hp)] at h
      exact h

section Late
variable {S : CipherSuite} {sid ct json : String} (rng rng' : ℕ → Salts) (st : Store S)
  (hk : ev.kind = "m.room.encrypted") (hct : ev.content.ciphertext = some ct)
  (hsid : ev.content.sessionId = some sid) (hkey : keys sid ct = none)
  (hopen : opens sid ct = some json)
include hk hct hsid hkey

theorem eventOf_placed (e : String) :
    eventOf (contents (placed serde keys userId roomId ev rng st)) e =
      if ev.eventId = e then
        ⟨(eventOf (contents st) e).edit,
          some (insertRow some (eventOf (contents st) e) (placeholder userId roomId ev sid ct))⟩
      else eventOf (contents st) e := by
  unfold placed
  rw [contents_execOps, eventOf_runPlain, convertEvent_locked serde keys userId roomId ev hk hct hsid
    hkey]
  exact eventRun_insert ev e _ rfl

omit hk hct hsid hkey in
/-- The row of a retried message, up to the salts. -/
theorem row_of_retried {st : Store S} {p : Retry} (hp : p ∈ retried imports roomId st) :
    ∃ row, (eventOf (contents st) p.1).row = some row ∧ row.decrypted = 0 ∧
      row.sessionId = some p.2.1 ∧ row.ciphertext = some (some p.2.2) := by
  obtain ⟨row, hrow, hretry, hsid, hct⟩ := retried_spec.2 p hp
  have hdec : row.decrypted = 0 := decrypted_of_retryable hretry
  refine ⟨row.map (content st), ?_, hdec, hsid, ?_⟩
  · show (contents st).messages.lookup p.1 = _
    rw [messages_contents, hrow]
    rfl
  · obtain ⟨cell, hcell, hlook⟩ := Option.bind_eq_some_iff.mp hct
    show row.ciphertext.map (content st) = _
    rw [hcell, Option.map_some, content_of_look hlook]

/-- A retry of the event is of its session and its ciphertext. -/
theorem retry_self {p : Retry}
    (hp : p ∈ retried imports roomId (placed serde keys userId roomId ev rng st))
    (hid : p.1 = ev.eventId) : p.2.1 = sid ∧ p.2.2 = ct := by
  obtain ⟨row, hrow, -, hs, hc⟩ := row_of_retried imports roomId hp
  rw [eventOf_placed serde keys userId roomId ev rng st hk hct hsid hkey, if_pos hid.symm] at hrow
  have hrow := Option.some.inj hrow
  unfold insertRow placeholder at hrow
  cases hr : (eventOf (contents st) p.1).row <;> rw [hr] at hrow <;> subst hrow
  all_goals exact ⟨(Option.some.inj hs).symm, (Option.some.inj (Option.some.inj hc)).symm⟩

include hopen

/-- **The event after the late path.** -/
theorem eventOf_late_self :
    eventOf (contents (late serde imports opens keys userId roomId ev rng rng' st)) ev.eventId =
      ⟨(eventOf (contents st) ev.eventId).edit, some (lateRow userId roomId ev sid ct
        (untypedText serde json) (unlocks serde ev
          (retried imports roomId (placed serde keys userId roomId ev rng st)) json)
        (eventOf (contents st) ev.eventId))⟩ := by
  have htext : ∀ p ∈ retried imports roomId (placed serde keys userId roomId ev rng st),
      p.1 = ev.eventId → retryText serde opens p = untypedText serde json := by
    intro p hp hid
    obtain ⟨hs, hc⟩ := retry_self serde imports keys userId roomId ev rng st hk hct hsid hkey hp hid
    unfold retryText
    rw [hs, hc, hopen]
  unfold late
  rw [eventOf_restoreRoom, eventOf_placed serde keys userId roomId ev rng st hk hct hsid hkey,
    if_pos rfl]
  unfold lateRow
  dsimp only
  cases hup : unlocks serde ev (retried imports roomId (placed serde keys userId roomId ev rng st)) json
    with
  | true =>
    unfold unlocks at hup
    obtain ⟨hmem, hne⟩ := Bool.and_eq_true_iff.mp hup
    obtain ⟨p, hp, hid⟩ := List.mem_map.mp (of_decide_eq_true hmem)
    have hpt := htext p hp hid
    rw [← hid, eventRun_retry _ retried_spec.1 hp (by rw [hpt]; exact of_decide_eq_true hne), hpt]
    rfl
  | false =>
    rw [eventRun_retry_none]
    · rfl
    · intro p hp hid
      rw [htext p hp hid]
      unfold unlocks at hup
      rw [decide_eq_true (List.mem_map.mpr ⟨p, hp, hid⟩), Bool.true_and] at hup
      simpa using hup

omit hopen

/-- Another message the retry does not unlock stays. -/
theorem eventOf_late_stays {e : String} (he : e ≠ ev.eventId)
    (h : ∀ p ∈ retried imports roomId (placed serde keys userId roomId ev rng st),
      p.1 = e → retryText serde opens p = "") :
    eventOf (contents (late serde imports opens keys userId roomId ev rng rng' st)) e =
      eventOf (contents st) e := by
  unfold late
  rw [eventOf_restoreRoom, eventRun_retry_none _ h,
    eventOf_placed serde keys userId roomId ev rng st hk hct hsid hkey, if_neg (Ne.symm he)]

/-- Another message the retry unlocks was locked. -/
theorem decrypted_late {p : Retry} (hne : p.1 ≠ ev.eventId)
    (hp : p ∈ retried imports roomId (placed serde keys userId roomId ev rng st))
    (htext : retryText serde opens p ≠ "") :
    (eventOf (contents st) p.1).row.map MessageRow.decrypted = some 0 ∧
      (eventOf (contents (late serde imports opens keys userId roomId ev rng rng' st))
        p.1).row.map MessageRow.decrypted = some 1 := by
  obtain ⟨row, hrow, hdec, -, -⟩ := row_of_retried imports roomId hp
  have hplaced := eventOf_placed serde keys userId roomId ev rng st hk hct hsid hkey p.1
  rw [if_neg (Ne.symm hne)] at hplaced
  unfold late
  rw [eventOf_restoreRoom, eventRun_retry _ retried_spec.1 hp htext, ← hplaced, hrow]
  exact ⟨congrArg some hdec, rfl⟩

end Late

/-- An edit or an insert of another message does not unlock a message. -/
theorem decrypted_early {e : String} (he : e ≠ ev.eventId) (s : EventState) :
    (eventRun some e s (convertEvent serde opens userId roomId ev).ops).row.map MessageRow.decrypted =
      s.row.map MessageRow.decrypted := by
  have hmsg : ∀ m, (convertEvent serde opens userId roomId ev).message = some m →
      m.eventId = ev.eventId := fun m hm => (convertEvent_message hm).1
  have hins : ∀ s' : EventState, eventRun some e s'
      ((convertEvent serde opens userId roomId ev).message.toList.map .insertMessage) = s' := by
    intro s'
    cases hm : (convertEvent serde opens userId roomId ev).message with
    | none => rfl
    | some m => exact if_neg fun h => he (h.symm.trans (hmsg m hm))
  unfold Converted.ops
  rw [eventRun_append, hins]
  cases (convertEvent serde opens userId roomId ev).edit with
  | none => rfl
  | some d =>
    show (if d.target = e then editStep s (stored some ((d.ts : ℕ), d.body)) else s).row.map _ = _
    unfold editStep
    split_ifs
    · cases s.row <;> rfl
    · rfl
    · rfl

/-- **When the order of key and message does not matter.** -/
theorem keyOrder_iff {S : CipherSuite} (rng rng' rng'' : ℕ → Salts) (st : Store S)
    {sid ct json : String} (hk : ev.kind = "m.room.encrypted")
    (hct : ev.content.ciphertext = some ct) (hsid : ev.content.sessionId = some sid)
    (hkey : keys sid ct = none) (hopen : opens sid ct = some json) :
    SameMessages (early serde opens userId roomId ev rng'' st)
        (late serde imports opens keys userId roomId ev rng rng' st) ↔
      KeyOrder serde opens ev sid ct json (eventOf (contents st))
        (retried imports roomId (placed serde keys userId roomId ev rng st)) := by
  have hearly : ∀ e, eventOf (contents (early serde opens userId roomId ev rng'' st)) e =
      eventRun some e (eventOf (contents st) e) (convertEvent serde opens userId roomId ev).ops := by
    intro e
    unfold early
    rw [contents_execOps, eventOf_runPlain]
  have hself := eventOf_late_self serde imports opens keys userId roomId ev rng rng' st hk hct hsid
    hkey hopen
  rw [sameMessages_iff]
  unfold KeyOrder
  dsimp only
  rw [← early_iff serde opens userId roomId ev hk hct hsid hopen (eventOf (contents st))
    (retried imports roomId (placed serde keys userId roomId ev rng st))]
  constructor
  · intro h
    have hstay : ∀ p ∈ retried imports roomId (placed serde keys userId roomId ev rng st),
        p.1 ≠ ev.eventId → retryText serde opens p = "" := by
      intro p hp hne
      by_contra htext
      obtain ⟨h0, h1⟩ := decrypted_late serde imports opens keys userId roomId ev rng rng' st hk hct
        hsid hkey hne hp htext
      have hd := decrypted_early serde opens userId roomId ev hne (eventOf (contents st) p.1)
      rw [← hearly, h p.1, h1, h0] at hd
      exact absurd (Option.some.inj hd) (by decide)
    refine ⟨hstay, fun e he => ?_, ?_⟩
    · rw [← hearly, h e]
      exact eventOf_late_stays serde imports opens keys userId roomId ev rng rng' st hk hct hsid hkey
        he fun p hp hid => hstay p hp (hid ▸ he)
    · rw [← hearly, h, hself]
  · rintro ⟨hstay, hothers, hsame⟩ e
    rw [hearly]
    by_cases he : e = ev.eventId
    · rw [he, hself, hsame]
    · rw [hothers e he]
      exact (eventOf_late_stays serde imports opens keys userId roomId ev rng rng' st hk hct hsid hkey
        he fun p hp hid => hstay p hp (hid ▸ he)).symm

end Arrival

/-! ### A message and an edit -/

/-- `{"content":{"body":"hi"}}` -/
def hiText : String := "\x7b\"content\":\x7b\"body\":\"hi\"\x7d\x7d"

/-- `{"content":{"body":"* hi","m.relates_to":{"rel_type":"m.replace","event_id":"$t"}}}` -/
def editText : String :=
  "\x7b\"content\":\x7b\"body\":\"* hi\",\"m.relates_to\":" ++
    "\x7b\"rel_type\":\"m.replace\",\"event_id\":\"$t\"\x7d\x7d\x7d"

/-- The decoder, on these two texts. -/
def twoTexts : SerdeJson where
  parse text :=
    if text = hiText then some (.obj [("content", .obj [("body", .str "hi")])])
    else if text = editText then
      some (.obj [("content", .obj [("body", .str "* hi"),
        ("m.relates_to", .obj [("rel_type", .str "m.replace"), ("event_id", .str "$t")])])])
    else none
  describe _ := "expected value at line 1 column 1"

/-- An encrypted event in the session `s`. -/
def lockedEvent : RoomEvent where
  kind := "m.room.encrypted"
  sender := "@a"
  eventId := "$e"
  originServerTs := 5
  content := { ciphertext := some "AA", sessionId := some "s" }

/-- The session `s` is in the backup. -/
def backedUp (sessionId : String) : Option Pickle :=
  if sessionId = "s" then some ⟨"k", .inbound ⟨"s", 0⟩⟩ else none

/-- The session `s` decrypts the event to `json`. -/
def opensTo (json : String) (sessionId ciphertext : String) : Option String :=
  if sessionId = "s" ∧ ciphertext = "AA" then some json else none

theorem keyOrder_iff_hi :
    SameMessages
      (early twoTexts (opensTo hiText) "@me" "!r" lockedEvent (fun _ _ => zeroSalt) emptyStore)
      (late twoTexts backedUp (opensTo hiText) (fun _ _ => none) "@me" "!r" lockedEvent
        (fun _ _ => zeroSalt) (fun _ _ => zeroSalt) emptyStore) := by
  refine (keyOrder_iff twoTexts backedUp (opensTo hiText) (fun _ _ => none) "@me" "!r" lockedEvent
    (fun _ _ => zeroSalt) (fun _ _ => zeroSalt) (fun _ _ => zeroSalt) emptyStore rfl rfl rfl rfl
    (show opensTo hiText "s" "AA" = some hiText by decide)).mpr ?_
  have hretried : retried backedUp "!r" (placed twoTexts (fun _ _ => none) "@me" "!r" lockedEvent
      (fun _ _ => zeroSalt) emptyStore) = [("$e", "s", "AA")] := by decide
  rw [hretried]
  refine ⟨fun p hp hne => ?_, ?_⟩
  · rw [List.mem_singleton.mp hp] at hne
    exact absurd rfl hne
  · have hdecoded : twoTexts.decryptedEvent hiText = .ok { body := some "hi" } := rfl
    rw [hdecoded]
    show (if ("hi" : String) = "" then _ else _)
    rw [if_neg (by decide)]
    decide

/-- **An edit whose key comes late**: it is shown as a message of its own. -/
theorem not_sameMessages_edit :
    ¬ SameMessages
      (early twoTexts (opensTo editText) "@me" "!r" lockedEvent (fun _ _ => zeroSalt) emptyStore)
      (late twoTexts backedUp (opensTo editText) (fun _ _ => none) "@me" "!r" lockedEvent
        (fun _ _ => zeroSalt) (fun _ _ => zeroSalt) emptyStore) := by
  intro h
  have hrow := congrArg Option.isSome (h.1 "$e")
  revert hrow
  decide

end Kmatrix.Sync.Restore
