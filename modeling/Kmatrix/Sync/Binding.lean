import Kmatrix.E2ee.History
import Kmatrix.Sync.Restore

/-! # Whose room a session is of

The room id is written next to an inbound session whenever one is stored, and read by nobody: a session
is held and looked up under its own id. `Bound fits` says of an event of a run that what it stores as
readable text of an encrypted event was decrypted with a session whose recorded room fits the room of
the event. `bound_any` is what holds of every run, for sync, paging, refetching and the restore of a
room alike: the session is the one on disk under the id the event names, for some room.
`not_bound_foreign` is an event that names a session of another room. -/

namespace Kmatrix.Sync.Binding

open Kmatrix.Lib.Crash Kmatrix.Lib.Keyed Kmatrix.E2ee.Ratchets Kmatrix.E2ee.Effects
open Kmatrix.E2ee.Sessions Kmatrix.E2ee.Inbound Kmatrix.E2ee.Stored Kmatrix.E2ee.Held
open Kmatrix.E2ee.Megolm (unserved)
open Kmatrix.E2ee.Provenance (peerStore)
open Kmatrix.E2ee.History (sharingVodozemac shareEvent)
open Kmatrix.Storage Kmatrix.Storage.Seal Kmatrix.Storage.Schema
open Kmatrix.Storage.Write (StoreOp)
open Kmatrix.Sync.Plaintext Kmatrix.Sync.Events Kmatrix.Sync.Convert
open Kmatrix.Sync.Restore (Retry retryText backupRestoreWindow hiText twoTexts)

/-! ### The statement -/

section Statement
variable {S : CipherSuite}

/-- The session on disk under an id, and the room recorded with it. -/
def Recorded (st : Store S) (sessionId room : String) (s : InboundGroupSession) : Prop :=
  storedInbound st sessionId = some s ∧
    ∃ row, st.db.pickles.lookup (kindMegolmIn, sessionId) = some row ∧ row.extra = room

/-- The ciphertext opens with the session under the id, and the room recorded with it fits. -/
def OpensFor (A : Archive) (fits : String → Prop) (st : Store S) (sessionId ciphertext : String) :
    Prop :=
  ∃ room s message text, Recorded st sessionId room s ∧ fits room ∧
    A.readMegolmMessage ciphertext = .ok message ∧ s.decrypt message = some text

/-- A message that is stored locked, with a text of ours. -/
def Placeholder (op : StoreOp) : Prop :=
  ∃ m, op = .insertMessage m ∧ m.decrypted = false ∧
    (m.body = noKeyText ∨ ∃ e, m.body = malformedText e)

end Statement

/-! ### The calls -/

/-- The calls that store sessions, the conversion of a timeline event, and the restore of a room with
what the backup answers for each session. -/
inductive Call where
  | keys (call : E2ee.Held.Call)
  | timeline (room : String) (ev : RoomEvent)
  | restore (room : String) (entries : String → Option Kmatrix.E2ee.Json.Value)

/-- What the keys in memory decrypt. -/
def keysOf (A : Archive) (c : Crypto) (sessionId ciphertext : String) : Option String :=
  (Crypto.decrypt A c sessionId ciphertext).toOption

section Code
variable {S : CipherSuite} {Q : Type} {R : Q → Type} (V : Vodozemac) (A : Archive) (serde : SerdeJson)
  (userId : String)

/-- One write after the other. -/
def putAll : List StoreOp → Code S R Crypto Unit
  | [] => pure ()
  | op :: ops => do
    put op
    putAll ops

/-- An event of a timeline, whoever fetched it: it is converted, and what it became is stored. -/
def storeEvent (room : String) (ev : RoomEvent) : Code S R Crypto Unit := do
  let c ← Act.get
  putAll (convertEvent serde (keysOf A c) userId room ev).ops

/-- One session of the backup, counted if it was imported. -/
def importOne (room : String) (entries : String → Option Kmatrix.E2ee.Json.Value) (imported : ℕ)
    (sessionId : String) : Code S R Crypto ℕ := do
  match entries sessionId with
  | none => return imported
  | some entry =>
    match ← Act.attempt (E2ee.Inbound.importBackupSession V A room sessionId entry) with
    | .ok true => return imported + 1
    | _ => return imported

/-- One message is tried again. -/
def retryOne (upgraded : ℕ) (p : Retry) : Code S R Crypto ℕ := do
  let c ← Act.get
  let body := retryText serde (keysOf A c) p
  if body = "" then return upgraded
  put (.upgradeMessage p.1 body)
  return upgraded + 1

/-- **`restore_room`.** -/
def restoreRoom (room : String) (entries : String → Option Kmatrix.E2ee.Json.Value) :
    Code S R Crypto ℕ := do
  let pending ← query fun st => Read.undecryptedInRoom st room backupRestoreWindow
  let wanted := (pending.map fun p => p.2.1).eraseDups
  let imported ← Act.fold (importOne V A room entries) 0 wanted
  if imported = 0 then return 0
  Act.fold (retryOne A serde) 0 pending

def Call.code : Call → Crypto → Prog (Effect Q) (Answer S R) (Unit × Crypto)
  | .keys call, c => E2ee.Held.Call.code V A call c
  | .timeline room ev, c =>
    ((storeEvent A serde userId room ev).run c).bind fun r => .ret ((), r.2)
  | .restore room entries, c =>
    ((restoreRoom V A serde room entries).run c).bind fun r => .ret ((), r.2)

end Code

/-- **Room binding of one event of a run**, between the disk before and after it: what it writes of an
encrypted event is a placeholder, or was opened with a session recorded for a room that fits. -/
def Bound {S : CipherSuite} {Q N : Type} (fits : String → String → Prop) (A : Archive)
    (before after : Store S) : Event Call (Outcome N) → List (Effect Q × Outcome N) → Prop
  | .call (.timeline room ev) _, trail =>
    ev.kind = "m.room.encrypted" → ∀ op o, (.write op, o) ∈ trail →
      ∃ sessionId ciphertext, ev.content.sessionId = some sessionId ∧
        ev.content.ciphertext = some ciphertext ∧
        (Placeholder op ∨ OpensFor A (fits room) after sessionId ciphertext)
  | .call (.restore room _) _, trail =>
    ∀ eventId body o, (.write (.upgradeMessage eventId body), o) ∈ trail →
      ∃ pending sessionId ciphertext,
        Read.undecryptedInRoom before room backupRestoreWindow = .ok pending ∧
        (eventId, sessionId, ciphertext) ∈ pending ∧
        OpensFor A (fits room) after sessionId ciphertext
  | _, _ => True

/-! ### Conversions -/

section Convert
variable {serde : SerdeJson} {decrypt : String → String → Option String} {userId room : String}
  {ev : RoomEvent}

/-- **What a conversion writes** of an encrypted event is a placeholder, or the event decrypts. -/
theorem convertEvent_opens (hkind : ev.kind = "m.room.encrypted") {op : StoreOp}
    (h : op ∈ (convertEvent serde decrypt userId room ev).ops) :
    ∃ sessionId ciphertext, ev.content.sessionId = some sessionId ∧
      ev.content.ciphertext = some ciphertext ∧
      (Placeholder op ∨ ∃ json, decrypt sessionId ciphertext = some json) := by
  unfold convertEvent at h
  rw [if_neg (by simp [hkind]), if_pos hkind] at h
  rcases hct : ev.content.ciphertext with _ | ciphertext
  · simp [hct, Converted.ops] at h
  · rcases hsid : ev.content.sessionId with _ | sessionId
    · simp [hct, hsid, Converted.ops] at h
    · refine ⟨sessionId, ciphertext, rfl, rfl, ?_⟩
      rcases hopen : decrypt sessionId ciphertext with _ | json
      · simp only [hct, hsid, hopen, Converted.ops, Option.toList_none, Option.toList_some,
          List.map_nil, List.map_cons, List.nil_append, List.mem_singleton] at h
        exact Or.inl ⟨_, h, rfl, Or.inl rfl⟩
      · exact Or.inr ⟨json, rfl⟩

/-- What a conversion writes is an edit or a message. -/
theorem mem_ops {converted : Converted} {op : StoreOp} (h : op ∈ converted.ops) :
    (∃ target ts body, op = .recordEdit target ts body) ∨ ∃ m, op = .insertMessage m := by
  unfold Converted.ops at h
  rcases List.mem_append.mp h with h | h
  · obtain ⟨e, -, rfl⟩ := List.mem_map.mp h
    exact Or.inl ⟨_, _, _, rfl⟩
  · obtain ⟨m, -, rfl⟩ := List.mem_map.mp h
    exact Or.inr ⟨m, rfl⟩

end Convert

/-! ### The disk -/

section Disk
variable {S : CipherSuite} {A : Archive} {st st' : Store S} {c : Crypto}

theorem Recorded.alike {sessionId room : String} {s : InboundGroupSession} (halike : Alike st st')
    (h : Recorded st sessionId room s) : Recorded st' sessionId room s := by
  obtain ⟨hs, row, hrow, hroom⟩ := h
  exact ⟨(halike.storedInbound sessionId).trans hs, row, (halike.rows sessionId).trans hrow, hroom⟩

theorem OpensFor.alike {fits : String → Prop} {sessionId ciphertext : String} (halike : Alike st st')
    (h : OpensFor A fits st sessionId ciphertext) : OpensFor A fits st' sessionId ciphertext := by
  obtain ⟨room, s, message, text, hrec, hrest⟩ := h
  exact ⟨room, s, message, text, hrec.alike halike, hrest⟩

/-- **What the keys in memory decrypt**, the sessions on disk do. -/
theorem opensFor_of_keysOf (h : Mirrors st c) {sessionId ciphertext json : String}
    (hopen : keysOf A c sessionId ciphertext = some json) :
    OpensFor A (fun _ => True) st sessionId ciphertext := by
  have hok : Crypto.decrypt A c sessionId ciphertext = .ok json := by
    unfold keysOf at hopen
    rcases hd : Crypto.decrypt A c sessionId ciphertext with e | text
    · rw [hd] at hopen
      simp [Except.toOption] at hopen
    · rw [hd] at hopen
      exact congrArg Except.ok (Option.some.inj hopen)
  obtain ⟨s, message, hs, hmessage, htext⟩ := Crypto.decrypt_ok.mp hok
  rw [h.inbound] at hs
  obtain ⟨key, -, hbind⟩ := Option.bind_eq_some_iff.mp hs
  obtain ⟨row, hrow, -⟩ := Option.bind_eq_some_iff.mp hbind
  exact ⟨row.extra, s, message, json, ⟨hs, row, hrow, rfl⟩, trivial, hmessage, htext⟩

theorem alike_insertMessage (rng : Salts) (st : Store S) (m : Message) :
    Alike st ((StoreOp.insertMessage m).exec rng st) := ⟨rfl, fun _ => rfl⟩

theorem alike_upgradeMessage (rng : Salts) (st : Store S) (eventId body : String) :
    Alike st ((StoreOp.upgradeMessage eventId body).exec rng st) := ⟨rfl, fun _ => rfl⟩

theorem alike_recordEdit (rng : Salts) (st : Store S) (target : String) (ts : ℕ) (body : String) :
    Alike st ((StoreOp.recordEdit target ts body).exec rng st) := by
  have hdb : ∃ edits messages, ((StoreOp.recordEdit target ts body).exec rng st) =
      { st with db := { st.db with edits := edits, messages := messages } } := by
    unfold StoreOp.exec Write.recordEdit Write.recordEditStmt
    dsimp only
    split_ifs
    · exact ⟨_, _, rfl⟩
    · exact ⟨_, _, rfl⟩
  obtain ⟨edits, messages, hdb⟩ := hdb
  rw [hdb]
  exact ⟨rfl, fun _ => rfl⟩

end Disk

/-! ### The calls, recorded -/

section Recorded
variable {S : CipherSuite} {Q Ω N : Type} {R : Q → Type} {serve : N → Ω → (q : Q) → R q × Ω}
  {V : Vodozemac} {A : Archive} {serde : SerdeJson} {userId : String} {w : World S Ω} {c : Crypto}

/-- Nothing is asked of the disk. -/
abbrev Running (w : World S Ω) (c : Crypto) : Prop := Ready (fun _ => True) w c

theorem Running.alike {w' : World S Ω} (h : Running w c) (halike : Alike w.disk w'.disk) :
    Running w' c := ⟨h.mirrors.alike halike rfl rfl, trivial⟩

/-- **Writes of messages and edits** leave the sessions alone, and are what is recorded. -/
theorem safe_putAll (ops : List StoreOp)
    (hops : ∀ op ∈ ops, ∀ rng (st : Store S), Alike st (op.exec rng st))
    (st : Store S) (hst : Alike st w.disk) (past : List (Effect Q × Outcome N))
    (P : StoreOp → Prop) (hpast : ∀ op o, (.write op, o) ∈ past → P op) (hP : ∀ op ∈ ops, P op) :
    Safe (recording (exec serve))
      (fun x => Alike st x.1.disk ∧ ∀ op o, (.write op, o) ∈ x.2 → P op)
      (fun r x => r.2 = c ∧ Alike st x.1.disk ∧ ∀ op o, (.write op, o) ∈ x.2 → P op)
      ((putAll ops : Code S R Crypto Unit).run c) (w, past) := by
  induction ops generalizing w past with
  | nil => exact ⟨rfl, hst, hpast⟩
  | cons op ops ih =>
    have hgrow : ∀ o : Outcome N, ∀ op' o', (.write op', o') ∈ past ++ [((.write op : Effect Q), o)] →
        P op' := by
      intro o op' o' hmem
      rcases List.mem_append.mp hmem with hmem | hmem
      · exact hpast op' o' hmem
      · obtain ⟨hop, -⟩ := Prod.mk.inj (List.mem_singleton.mp hmem)
        obtain rfl := Effect.write.inj hop
        exact hP _ List.mem_cons_self
    unfold putAll
    rw [Act.safe_bind]
    refine safe_put_recorded ⟨hst, hpast⟩ (fun o e _ => ⟨rfl, hst, hgrow o⟩) fun o _ => ?_
    rw [Act.then_ok]
    refine ih (fun op' h => hops op' (List.mem_cons_of_mem _ h)) ?_ _ (hgrow o) fun op' h =>
      hP op' (List.mem_cons_of_mem _ h)
    exact hst.trans (hops op List.mem_cons_self o.salts w.disk)

/-- **The conversion of an event** writes placeholders, or what the sessions on disk open. -/
theorem safe_storeEvent (h : Running w c) (room : String) (ev : RoomEvent) (os : List (Outcome N)) :
    Safe (recording (exec serve))
      (fun x => Bound (fun _ _ => True) A w.disk x.1.disk (.call (.timeline room ev) os) x.2)
      (fun r x => Running x.1 r.2 ∧
        Bound (fun _ _ => True) A w.disk x.1.disk (.call (.timeline room ev) os) x.2)
      ((storeEvent A serde userId room ev : Code S R Crypto Unit).run c) (w, []) := by
  let ops := (convertEvent serde (keysOf A c) userId room ev).ops
  have halike : ∀ op ∈ ops, ∀ rng (st : Store S), Alike st (op.exec rng st) := by
    intro op hop rng st
    rcases mem_ops hop with ⟨target, ts, body, rfl⟩ | ⟨m, rfl⟩
    · exact alike_recordEdit rng st target ts body
    · exact alike_insertMessage rng st m
  have hbound : ∀ x : World S Ω × List (Effect Q × Outcome N), Alike w.disk x.1.disk →
      (∀ op o, (.write op, o) ∈ x.2 → op ∈ ops) →
      Bound (fun _ _ => True) A w.disk x.1.disk (.call (.timeline room ev) os) x.2 := by
    intro x hx hops hkind op o hmem
    obtain ⟨sessionId, ciphertext, hsid, hct, hopens⟩ := convertEvent_opens hkind (hops op o hmem)
    refine ⟨sessionId, ciphertext, hsid, hct, hopens.imp_right ?_⟩
    rintro ⟨json, hjson⟩
    exact (opensFor_of_keysOf h.mirrors hjson).alike hx
  unfold storeEvent
  rw [Act.safe_bind, Act.safe_get, Act.then_ok]
  refine (safe_putAll ops halike w.disk (.refl _) [] (fun op => op ∈ ops) (by simp)
    fun op hop => hop).weaken (fun x hx => hbound x hx.1 hx.2) ?_
  rintro ⟨r, c'⟩ x ⟨rfl, hx, hops⟩
  exact ⟨h.alike hx, hbound x hx hops⟩

/-- Not an upgrade. -/
def NoUpgrade (e : Effect Q) : Prop := ∀ eventId body, e ≠ .write (.upgradeMessage eventId body)

theorem only_importBackupSession (room sessionId : String) (entry : Kmatrix.E2ee.Json.Value)
    (c : Crypto) : Only NoUpgrade ((E2ee.Inbound.importBackupSession V A room sessionId entry :
      Code S R Crypto Bool).run c) := by
  unfold E2ee.Inbound.importBackupSession
  refine Act.only_andThen trivial fun c' _ => ?_
  dsimp only
  split_ifs
  · trivial
  · refine Act.only_andThen trivial fun found _ => ?_
    rcases found with _ | session
    · trivial
    · dsimp only
      split_ifs
      · trivial
      · trivial
      · exact Act.only_andThen ⟨fun _ _ => by simp, fun _ => trivial⟩ fun _ _ => trivial

theorem only_importOne (room : String) (entries : String → Option Kmatrix.E2ee.Json.Value)
    (imported : ℕ) (sessionId : String) (c : Crypto) :
    Only NoUpgrade ((importOne V A room entries imported sessionId : Code S R Crypto ℕ).run c) := by
  unfold importOne
  rcases entries sessionId with _ | entry
  · trivial
  · refine Act.only_andThen (Act.only_attempt (only_importBackupSession room sessionId entry c)) ?_
    rintro (e | _ | _) _
    · trivial
    · trivial
    · trivial

theorem safe_importOne (h : Running w c) (room : String)
    (entries : String → Option Kmatrix.E2ee.Json.Value) (imported : ℕ) (sessionId : String) :
    Safe (exec serve) (fun _ => True) (fun r w' => Running w' r.2)
      ((importOne V A room entries imported sessionId : Code S R Crypto ℕ).run c) w := by
  unfold importOne
  rcases entries sessionId with _ | entry
  · exact h
  · rw [Act.safe_bind, Act.safe_attempt]
    refine (safe_importBackupSession kept_trivial h room sessionId entry).mono ?_
    rintro ⟨e | _ | _, c'⟩ w' h'
    · exact h'
    · exact h'
    · exact h'

/-- **A retry** upgrades what the sessions on disk open. -/
theorem safe_retry (h : Running w c) (all : List Retry) (st : Store S) (hst : Alike st w.disk)
    (past : List (Effect Q × Outcome N)) (upgraded : ℕ) (pending : List Retry)
    (hall : ∀ p ∈ pending, p ∈ all) :
    let P := fun x : World S Ω × List (Effect Q × Outcome N) => Alike st x.1.disk ∧
      ∀ eventId body o, (.write (.upgradeMessage eventId body), o) ∈ x.2 →
        ∃ sessionId ciphertext, (eventId, sessionId, ciphertext) ∈ all ∧
          OpensFor A (fun _ => True) st sessionId ciphertext
    P (w, past) →
    Safe (recording (exec serve)) P (fun r x => Running x.1 r.2 ∧ P x)
      ((Act.fold (retryOne A serde) upgraded pending : Code S R Crypto ℕ).run c) (w, past) := by
  intro P hP
  induction pending generalizing w past upgraded with
  | nil => exact ⟨h, hP⟩
  | cons p pending ih =>
    have hrest : ∀ q ∈ pending, q ∈ all := fun q hq => hall q (List.mem_cons_of_mem _ hq)
    unfold Act.fold retryOne
    simp only [Act.safe_bind, Act.safe_get, Act.then_ok]
    by_cases hempty : retryText serde (keysOf A c) p = ""
    · rw [if_pos hempty]
      exact ih h hst past upgraded hrest hP
    · rw [if_neg hempty, Act.safe_bind]
      -- what is not empty was decrypted
      obtain ⟨json, hjson⟩ : ∃ json, keysOf A c p.2.1 p.2.2 = some json := by
        unfold retryText at hempty
        rcases hopen : keysOf A c p.2.1 p.2.2 with _ | json
        · rw [hopen] at hempty
          exact absurd rfl hempty
        · exact ⟨json, rfl⟩
      have hback : Alike w.disk st := ⟨hst.key.symm, fun id => (hst.rows id).symm⟩
      have hgrow : ∀ o : Outcome N, ∀ eventId body o', (.write (.upgradeMessage eventId body), o') ∈
          past ++ [((.write (.upgradeMessage p.1 (retryText serde (keysOf A c) p)) : Effect Q), o)] →
          ∃ sessionId ciphertext, (eventId, sessionId, ciphertext) ∈ all ∧
            OpensFor A (fun _ => True) st sessionId ciphertext := by
        intro o eventId body o' hmem
        rcases List.mem_append.mp hmem with hmem | hmem
        · exact hP.2 eventId body o' hmem
        · obtain ⟨hop, -⟩ := Prod.mk.inj (List.mem_singleton.mp hmem)
          obtain ⟨rfl, -⟩ := StoreOp.upgradeMessage.inj (Effect.write.inj hop)
          exact ⟨p.2.1, p.2.2, hall p List.mem_cons_self,
            (opensFor_of_keysOf h.mirrors hjson).alike hback⟩
      refine safe_put_recorded hP (fun o e _ => ⟨h, hst, hgrow o⟩) fun o _ => ?_
      rw [Act.then_ok]
      have halike := alike_upgradeMessage o.salts w.disk p.1 (retryText serde (keysOf A c) p)
      exact ih (w := { w with
          disk := (StoreOp.upgradeMessage p.1 (retryText serde (keysOf A c) p)).exec o.salts w.disk })
        (h.alike halike) (hst.trans halike) _ _ hrest ⟨hst.trans halike, hgrow o⟩

/-- **The restore of a room** upgrades what the sessions on disk open. -/
theorem safe_restoreRoom (h : Running w c) (room : String)
    (entries : String → Option Kmatrix.E2ee.Json.Value) (os : List (Outcome N)) :
    Safe (recording (exec serve))
      (fun x => Bound (fun _ _ => True) A w.disk x.1.disk (.call (.restore room entries) os) x.2)
      (fun r x => Running x.1 r.2 ∧
        Bound (fun _ _ => True) A w.disk x.1.disk (.call (.restore room entries) os) x.2)
      ((restoreRoom V A serde room entries : Code S R Crypto ℕ).run c) (w, []) := by
  -- before the retries nothing is upgraded
  have hnone : ∀ x : World S Ω × List (Effect Q × Outcome N), (∀ y ∈ x.2, NoUpgrade y.1) →
      Bound (fun _ _ => True) A w.disk x.1.disk (.call (.restore room entries) os) x.2 :=
    fun x hx eventId body o hmem => absurd rfl (hx _ hmem eventId body)
  unfold restoreRoom
  rw [Act.safe_bind]
  have hlook : ∀ o : Outcome N, ∀ y ∈ [] ++ [((.look : Effect Q), o)], NoUpgrade y.1 := by
    intro o y hy
    rw [List.mem_singleton.mp hy]
    exact fun _ _ => by simp
  refine safe_query_recorded (hnone _ (by simp)) (fun o e => ⟨h, hnone _ (hlook o)⟩)
    fun o pending hpending => ?_
  rw [Act.then_ok, Act.safe_bind]
  have hfold : Safe (exec serve) (fun _ => True) (fun r w' => Running w' r.2)
      ((Act.fold (importOne V A room entries) 0 (pending.map fun p => p.2.1).eraseDups :
        Code S R Crypto ℕ).run c) w := by
    refine (Act.safe_fold (I := fun _ _ c w => Running w c) (J := fun _ c w => Running w c)
      (fun done imported sessionId c' w' h' => ?_) _ [] 0 h).mono ?_
    · refine (safe_importOne h' room entries imported sessionId).mono ?_
      rintro ⟨e | n, c''⟩ w'' h''
      · exact h''
      · exact h''
    · rintro ⟨e | n, c'⟩ w' h'
      · exact h'
      · exact h'
  have honly := Act.only_fold (f := importOne (S := S) (R := R) V A room entries)
    (fun imported sessionId c => only_importOne room entries imported sessionId c)
    (pending.map fun p => p.2.1).eraseDups 0 c
  refine ((hfold.recorded _).and (honly.recorded w (hlook o))).weaken (fun x hx => hnone x hx.2) ?_
  rintro ⟨e | imported, c'⟩ ⟨w', past⟩ ⟨⟨h', -⟩, hpast⟩
  · exact ⟨h', hnone _ hpast⟩
  · rw [Act.then_ok]
    split_ifs with himported
    · exact ⟨h', hnone _ hpast⟩
    · have hbound : ∀ x : World S Ω × List (Effect Q × Outcome N), Alike w'.disk x.1.disk →
          (∀ eventId body o, (.write (.upgradeMessage eventId body), o) ∈ x.2 →
            ∃ sessionId ciphertext, (eventId, sessionId, ciphertext) ∈ pending ∧
              OpensFor A (fun _ => True) w'.disk sessionId ciphertext) →
          Bound (fun _ _ => True) A w.disk x.1.disk (.call (.restore room entries) os) x.2 := by
        intro x hx hups eventId body o hmem
        obtain ⟨sessionId, ciphertext, hmem, hopens⟩ := hups eventId body o hmem
        exact ⟨pending, sessionId, ciphertext, hpending, hmem, hopens.alike hx⟩
      refine (safe_retry h' pending w'.disk (.refl _) past 0 pending (fun p hp => hp)
        ⟨.refl _, fun eventId body o hmem => absurd rfl (hpast _ hmem eventId body)⟩).weaken
        (fun x hx => hbound x hx.1 hx.2) ?_
      rintro r x ⟨hr, hx, hups⟩
      exact ⟨hr, hbound x hx hups⟩

end Recorded

/-! ### Runs -/

section Runs
variable {S : CipherSuite} {Q Ω N : Type} {R : Q → Type} (serve : N → Ω → (q : Q) → R q × Ω)
  (V : Vodozemac) (A : Archive) (serde : SerdeJson) (userId : String)

/-- The daemon before its first start, over a database. -/
def cold (st : Store S) (server : Ω) : Process (World S Ω) Crypto Call Unit :=
  ⟨⟨st, 0, server⟩, none, []⟩

/-- A run. -/
abbrev run (p : Process (World S Ω) Crypto Call Unit) (events : List (Event Call (Outcome N))) :
    Process (World S Ω) Crypto Call Unit :=
  Process.runs (exec (R := R) serve) (boot V) (Call.code V A serde userId) p events

/-- **Room binding** of the next event of a run. -/
def BoundNext (fits : String → String → Prop) (p : Process (World S Ω) Crypto Call Unit)
    (event : Event Call (Outcome N)) : Prop :=
  Bound (Q := Q) fits A p.world.disk
    (Process.step (exec (R := R) serve) (boot V) (Call.code V A serde userId) p event).world.disk event
    (Process.trailOf (exec (R := R) serve) (boot V) (Call.code V A serde userId) p event)

variable {serve V A serde userId}

/-- What a call writes is bound, and it leaves the memory as the disk is. -/
theorem safe_call_bound {w : World S Ω} {c : Crypto} (h : Running w c) (call : Call)
    (os : List (Outcome N)) :
    Safe (recording (exec serve))
      (fun x => Bound (fun _ _ => True) A w.disk x.1.disk (.call call os) x.2)
      (fun r x => Running x.1 r.2 ∧ Bound (fun _ _ => True) A w.disk x.1.disk (.call call os) x.2)
      (call.code V A serde userId c : Prog (Effect Q) (Answer S R) (Unit × Crypto)) (w, []) := by
  rcases call with call | ⟨room, ev⟩ | ⟨room, entries⟩
  · have hadm : Admitted V (fun _ _ => True) c call := by
      rcases call with event | _ | _ | _
      · exact fun _ _ => trivial
      · trivial
      · trivial
      · trivial
    refine ((safe_call kept_trivial h call hadm).recorded []).weaken (fun _ _ => trivial) ?_
    exact fun r x hx => ⟨hx.1, trivial⟩
  · unfold Call.code
    dsimp only
    rw [safe_bind]
    exact safe_storeEvent h room ev os
  · unfold Call.code
    dsimp only
    rw [safe_bind]
    exact safe_restoreRoom h room entries os

theorem holds_run (p : Process (World S Ω) Crypto Call Unit)
    (hp : p.Holds (fun _ _ => True) fun _ => Running) (events : List (Event Call (Outcome N))) :
    (run (R := R) serve V A serde userId p events).Holds (fun _ _ => True) fun _ => Running := by
  refine Process.Holds.along (C := fun _ => True) (fun _ _ _ _ => trivial) ?_ ?_ hp ?_
  · intro past w _
    refine ((safe_boot_kept (w := w) kept_trivial trivial).recorded []).weaken
      (fun _ _ _ => trivial) ?_
    exact fun m x hx _ => ⟨trivial, fun c hc => hx.1.2 c hc⟩
  · intro past w c call hc
    exact (safe_call_bound hc call []).weaken (fun _ _ _ => trivial) fun r x hx _ => hx.1
  · clear hp
    induction events generalizing p with
    | nil => trivial
    | cons event events ih => exact ⟨trivial, ih _⟩

end Runs

section Proof
variable {S : CipherSuite} {Q Ω N : Type} {R : Q → Type} (serve : N → Ω → (q : Q) → R q × Ω)
  (V : Vodozemac) (A : Archive) (serde : SerdeJson) (userId : String)

/-- **What is shown as readable was opened with the session on disk under its id**, in every run and
for some room; what does not open is a placeholder. -/
theorem bound_any (st : Store S) (server : Ω) (events : List (Event Call (Outcome N)))
    (event : Event Call (Outcome N)) :
    BoundNext (R := R) serve V A serde userId (fun _ _ => True)
      (run (R := R) serve V A serde userId (cold st server) events) event := by
  have hcold : (cold st server).Holds (fun _ _ => True) fun _ => Running :=
    ⟨trivial, fun m hm => by simp [cold] at hm⟩
  have hp : (run (R := R) serve V A serde userId (cold st server) events).Holds
      (fun _ _ => True) fun _ => Running := holds_run (cold st server) hcold events
  generalize run (R := R) serve V A serde userId (cold st server) events = p at hp ⊢
  obtain ⟨world, memory, returned⟩ := p
  rcases event with ⟨call, os⟩ | os
  · unfold BoundNext Process.trailOf Process.step
    dsimp only
    rcases memory with _ | c
    · -- nothing runs, nothing is written
      rcases call with call | ⟨room, ev⟩ | ⟨room, entries⟩
      · trivial
      · exact fun _ op o hmem => by simp at hmem
      · exact fun eventId body o hmem => by simp at hmem
    · have hsafe : Safe (recording (exec (R := R) serve)) _ _ (call.code V A serde userId c) (world, []) :=
        safe_call_bound (hp.2 c rfl) call os
      obtain ⟨hret, hkill⟩ := hsafe.run_trail os
      dsimp only
      rcases hr : Lib.Crash.run (exec serve) (call.code V A serde userId c) world os with
        ⟨_ | ⟨a, c'⟩, w'⟩
      · exact hkill w' hr
      · exact (hret (a, c') w' hr).2
  · trivial

end Proof

/-- A message of the session `m`, in another room than the key was shared for. -/
def foreignEvent : RoomEvent where
  kind := "m.room.encrypted"
  sender := "@peer"
  eventId := "$e"
  originServerTs := 1
  content := { ciphertext := some "AA", sessionId := some "m" }

def hiArchive : Archive := plainArchive (fun _ => 0) [("AA", ⟨"m", 0, hiText⟩)]

/-- The key comes for the room `!r`. -/
def sharedRun : List (Event Call (Outcome Unit)) :=
  [.boot (List.replicate 10 (calm ())),
    .call (.keys (.toDevice (shareEvent "first"))) (List.replicate 2 (calm ()))]

/-- The message is shown. -/
theorem not_bound_foreign :
    ¬ BoundNext unserved sharingVodozemac hiArchive twoTexts "@me" Eq
      (run unserved sharingVodozemac hiArchive twoTexts "@me" (cold peerStore ()) sharedRun)
      (.call (.timeline "!mine" foreignEvent) [calm ()]) := by
  intro h
  have hany : (Process.trailOf (exec unserved) (boot sharingVodozemac)
      (Call.code sharingVodozemac hiArchive twoTexts "@me")
      (run unserved sharingVodozemac hiArchive twoTexts "@me" (cold peerStore ()) sharedRun)
      (.call (.timeline "!mine" foreignEvent) [calm ()])).any (fun y => y.1 = .write (.insertMessage
        ⟨"$e", "!mine", "@peer", 1, none, "hi", true, true, false, none, none⟩)) = true := by
    decide +kernel
  obtain ⟨⟨e, o⟩, hmem, he⟩ := List.any_eq_true.mp hany
  obtain rfl : e = _ := by simpa using he
  obtain ⟨sessionId, ciphertext, hsid, -, hbound⟩ := h rfl _ o hmem
  rcases hbound with ⟨m, hm, hdecrypted, -⟩ | ⟨room, s, -, -, ⟨-, row, hrow, hroom⟩, hfits, -⟩
  · obtain rfl := StoreOp.insertMessage.inj hm
    simp at hdecrypted
  · obtain rfl : "m" = sessionId := Option.some.inj hsid
    have hextra : ((Process.step (exec unserved) (boot sharingVodozemac)
        (Call.code sharingVodozemac hiArchive twoTexts "@me")
        (run unserved sharingVodozemac hiArchive twoTexts "@me" (cold peerStore ()) sharedRun)
        (.call (.timeline "!mine" foreignEvent) [calm ()])).world.disk.db.pickles.lookup
        (kindMegolmIn, "m")).map PickleRow.extra = some "!r" := by decide +kernel
    rw [hrow] at hextra
    have hother : row.extra = "!r" := Option.some.inj hextra
    rw [← hfits, hother] at hroom
    exact absurd hroom (by decide)

end Kmatrix.Sync.Binding
