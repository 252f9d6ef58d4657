import Kmatrix.E2ee.ToDevice
import Kmatrix.Lib.Threads
import Kmatrix.Sync.Process

/-! # The daemon's procedures

The sync thread and the calls of the clients, section by section: what is read under the lock, what is
written under it, and where the lock is dropped for a request. `processSync`, `syncOnce`, `loadOlder` and
`doSend` follow the code; what comes after their last write (the news for the clients, and unlocking what
was stored) is left out. So is the inside of the encryption layer, of which a `Layer` says what it writes
and decides.

The `log` of the shared state is for statements only: nothing reads it. -/

namespace Kmatrix.Daemon.Procs

open Kmatrix.Lib.Threads Kmatrix.E2ee.ToDevice
open Kmatrix.Storage Kmatrix.Storage.Seal Kmatrix.Storage.Schema
open Kmatrix.Storage.Write (StoreOp)
open Kmatrix.Sync Kmatrix.Sync.Plaintext Kmatrix.Sync.Events Kmatrix.Sync.Convert Kmatrix.Sync.Process

/-! ### The shared state -/

/-- The plaintext of a ciphertext under a session, where the keys at hand can produce one. -/
abbrev Opens := String → String → Option String

/-- An authenticated client, and which login it is from. -/
structure Login where
  number : ℕ
  session : Session
  deriving DecidableEq, Repr

/-- What has happened: a room's part of a batch was stored, a call of `do_send` has looked at the rooms,
and an event of it was posted. -/
inductive Mark where
  | stored (room : String) (jr : JoinedRoom)
  | looked (call : ℕ)
  | posted (call : ℕ) (room kind : String)

/-- **What the threads share.** -/
structure Shared (S : CipherSuite) where
  db : Store S
  crypto : Option Opens
  api : Option Login
  session : Option Session
  log : List Mark

/-- What can be decrypted: nothing without crypto state. -/
def Shared.opens {S : CipherSuite} (s : Shared S) : Opens := s.crypto.getD fun _ _ => none

/-- One write of a section; one to the store is by a login. `storeRoom` is the write of a room's row after
a batch. -/
inductive Change where
  | store (login : ℕ) (op : StoreOp)
  | storeRoom (login : ℕ) (room : String) (jr : JoinedRoom) (row : Room)
  | setCrypto (crypto : Option Opens)
  | setApi (api : Option Login)
  | setSession (session : Option Session)
  | mark (m : Mark)

/-- A write is carried out, with the salts it draws. -/
def Change.exec {S : CipherSuite} (rng : Salts) (s : Shared S) : Change → Shared S
  | .store _ op => { s with db := op.exec rng s.db }
  | .storeRoom _ room jr row =>
    { s with db := (StoreOp.upsertRoom row).exec rng s.db, log := s.log ++ [.stored room jr] }
  | .setCrypto crypto => { s with crypto := crypto }
  | .setApi api => { s with api := api }
  | .setSession session => { s with session := session }
  | .mark m => { s with log := s.log ++ [m] }

/-! ### Requests -/

/-- The answer to a `/sync`. -/
structure SyncResponse where
  toDevice : List ToDeviceEvent
  batch : SyncBatch
  oneTimeKeys : ℕ

/-- One page of `/messages`, newest first. -/
structure Page where
  chunk : List RoomEvent
  endToken : Option String

inductive Request where
  | sync (since : Option String)
  | messages (room : String) (start : Option String) (limit : ℕ)
  | keysUpload
  | backupVersion
  | joinedMembers (room : String)
  | keysQuery
  | keysClaim
  | sendToDevice (room : String)
  | sendEvent (call : ℕ) (room kind : String)
  | directRooms
  | roomName (room : String)
  | memberNames (room : String)

/-- The answers: those that only the encryption layer reads are texts. -/
def Reply : Request → Type
  | .sync _ => Except String SyncResponse
  | .messages _ _ _ => Except String Page
  | .keysUpload => Except String Unit
  | .backupVersion => Except String String
  | .joinedMembers _ => Except String String
  | .keysQuery => Except String String
  | .keysClaim => Except String String
  | .sendToDevice _ => Except String Unit
  | .sendEvent _ _ _ => Except String Unit
  | .directRooms => Except String (List (String × List String))
  | .roomName _ => Except String (Option String)
  | .memberNames _ => Except String (List (String × Option String))

/-- What the server does: an event may be taken though the answer is lost. -/
def note {S : CipherSuite} : (q : Request) → Reply q → Shared S → Shared S
  | .sendEvent call room kind, _, s => { s with log := s.log ++ [.posted call room kind] }
  | _, _, s => s

/-- A procedure of the daemon. -/
abbrev DaemonProc (S : CipherSuite) : Type := Proc (Shared S) Change Request Reply

/-- What the encryption layer writes: pickles, and an adopted backup key. -/
def OfKeys : StoreOp → Prop
  | .putPickle _ _ _ _ => True
  | .setMeta k _ => k = "backup_key" ∨ k = "backup_version"
  | _ => False

/-- **The encryption layer**, as far as the threads see it: what its sections write, and what else they
decide. -/
structure Layer (S : CipherSuite) where
  /-- `handle_to_device`, with the secrets it returns. -/
  toDevice : Shared S → List ToDeviceEvent → List StoreOp × List String
  /-- The adoption of a secret, with the backup the server has. -/
  adopt : Shared S → String → Except String String → List StoreOp
  /-- Whether one-time keys have to be uploaded, and what `mark_published` writes. -/
  wantsUpload : Shared S → ℕ → Bool
  markPublished : Shared S → List StoreOp
  hasOutbound : Shared S → String → Except String Bool
  /-- Whether a device lacks a session, and `create_outbound_olm`. -/
  needsSession : Shared S → String → Bool
  createOutboundOlm : Shared S → String → List StoreOp × Bool
  /-- `encrypt_room_key_to_devices` and `encrypt`, and whether they succeed. -/
  encryptRoomKey : Shared S → String → String → List StoreOp × Bool
  encrypt : Shared S → String → List StoreOp × Bool
  ofKeys_toDevice : ∀ s events, ∀ op ∈ (toDevice s events).1, OfKeys op
  ofKeys_adopt : ∀ s secret body, ∀ op ∈ adopt s secret body, OfKeys op
  ofKeys_markPublished : ∀ s, ∀ op ∈ markPublished s, OfKeys op
  ofKeys_createOutboundOlm : ∀ s claim, ∀ op ∈ (createOutboundOlm s claim).1, OfKeys op
  ofKeys_encryptRoomKey : ∀ s room body, ∀ op ∈ (encryptRoomKey s room body).1, OfKeys op
  ofKeys_encrypt : ∀ s room, ∀ op ∈ (encrypt s room).1, OfKeys op

section Procs
variable {S : CipherSuite} (serde : SerdeJson) (layer : Layer S) (login : Login)

/-- Our user. -/
def Login.us (login : Login) : String := login.session.userId

/-! ### Events -/

/-- **`convert_event`**: an edit it finds is recorded at once. -/
def convertEvent (room : String) (ev : RoomEvent) (next : Option Message → DaemonProc S) :
    DaemonProc S :=
  .read fun s =>
    let c := Convert.convertEvent serde s.opens login.us room ev
    match c.edit with
    | some e => .write [.store login.number e.op] (next c.message)
    | none => next c.message

/-- The timeline of a batch: its messages are stored later. -/
def convertAll (room : String) :
    List RoomEvent → List Message → (List Message → DaemonProc S) → DaemonProc S
  | [], msgs, next => next msgs
  | ev :: evs, msgs, next =>
    convertEvent serde login room ev fun m => convertAll room evs (msgs ++ m.toList) next

/-- A page of older history: each message is stored as it comes. -/
def storeAll (room : String) : List RoomEvent → DaemonProc S → DaemonProc S
  | [], next => next
  | ev :: evs, next =>
    convertEvent serde login room ev fun m =>
      match m with
      | some m => .write [.store login.number (.insertMessage m)] (storeAll room evs next)
      | none => storeAll room evs next

/-! ### A sync round -/

/-- The last section of a room: its messages, its row, and the pagination edge. -/
def roomWrites (room : String) (jr : JoinedRoom) (msgs : List Message) (stored : Room) : List Change :=
  (msgs.map fun m => .store login.number (.insertMessage m)) ++
    [.storeRoom login.number room jr (finishRoom jr msgs stored)] ++
    (match jr.prevBatch with
      | some prev => [.store login.number (.seedBackToken room prev)]
      | none => [])

theorem roomWrites_eq (room : String) (jr : JoinedRoom) (msgs : List Message) (stored : Room) :
    roomWrites login room jr msgs stored = (msgs.map fun m => .store login.number (.insertMessage m)) ++
      [.storeRoom login.number room jr (finishRoom jr msgs stored)] ++
      jr.prevBatch.toList.map fun prev => .store login.number (.seedBackToken room prev) := by
  unfold roomWrites
  rcases jr.prevBatch with _ | prev
  · rfl
  · rfl

/-- The rest of a room's part, once it was read. -/
def storeRoom (room : String) (jr : JoinedRoom) (stored : Room) (next : DaemonProc S) : DaemonProc S :=
  let finish := convertAll serde login room jr.timeline [] fun msgs =>
    .write (roomWrites login room jr msgs stored) next
  if (memberNames jr).isEmpty then finish
  else .write [.store login.number (.rememberMembers room (memberNames jr))] finish

/-- One joined room of the batch. -/
def processRoom (room : String) (jr : JoinedRoom) (next : DaemonProc S) : DaemonProc S :=
  .read fun s =>
    match Read.getRoom s.db room with
    | .error _ => .done
    | .ok stored => storeRoom serde login room jr (stored.getD (newRoom room)) next

def processRooms (join : List (String × JoinedRoom)) (next : DaemonProc S) : DaemonProc S :=
  join.foldr (fun p next => processRoom serde login p.1 p.2 next) next

/-- **`maintain_otks`.** -/
def maintainOtks (have' : ℕ) : DaemonProc S :=
  .read fun s =>
    if layer.wantsUpload s have' then .ask .keysUpload fun
      | .error _ => .done
      | .ok () => .locked
          (fun s => (layer.markPublished s).map (.store login.number) ++
            [.store login.number (.setMeta "device_keys_published" "1")])
          fun _ _ => .done
    else .done

/-- **`handle_secret`**, for each of the secrets. -/
def handleSecrets (secrets : List String) (next : DaemonProc S) : DaemonProc S :=
  secrets.foldr (fun secret next => .ask .backupVersion fun body =>
    .locked (fun s => (layer.adopt s secret body).map (.store login.number)) fun _ _ => next) next

/-- **`process_sync`.** What fails in the to-device sections is only reported. -/
def processSync (resp : SyncResponse) : DaemonProc S :=
  .locked (fun s => (layer.toDevice s resp.toDevice).1.map (.store login.number)) fun s _ =>
    handleSecrets layer login (layer.toDevice s resp.toDevice).2
      (processRooms serde login resp.batch.join
        (.write [.store login.number (.setMeta "sync_token" resp.batch.nextBatch)]
          (maintainOtks layer login resp.oneTimeKeys)))

/-- **`sync_once`.** -/
def syncOnce : DaemonProc S :=
  .read fun s =>
    match Read.getMeta s.db "sync_token" with
    | .error _ => .done
    | .ok since => .ask (.sync since) fun
      | .error _ => .done
      | .ok resp => processSync serde layer login resp

/-! ### Older history -/

/-- **`do_load_older`.** -/
def loadOlder (room : String) (limit : ℕ) : DaemonProc S :=
  .read fun s =>
    let (token, done) := Read.backToken s.db room
    if done then .done
    else .ask (.messages room token limit) fun
      | .error _ => .done
      | .ok page => storeAll serde login room page.chunk
          (.write [.store login.number (.setBackToken room page.endToken
            (page.endToken.isNone || page.chunk.isEmpty))] .done)

end Procs

/-! ### Sending -/

section Send
variable {S : CipherSuite} (layer : Layer S) (login : Login)

/-- Encrypt the message, and post it. -/
def postEncrypted (call : ℕ) (room : String) : DaemonProc S :=
  .locked (fun s => (layer.encrypt s room).1.map (.store login.number)) fun s ok =>
    if ok && (layer.encrypt s room).2 then .ask (.sendEvent call room "m.room.encrypted") fun _ => .done
    else .done

/-- Send the room key to the devices. -/
def sendRoomKey (room body : String) (next : DaemonProc S) : DaemonProc S :=
  .locked (fun s => (layer.encryptRoomKey s room body).1.map (.store login.number)) fun s ok =>
    if ok && (layer.encryptRoomKey s room body).2 then .ask (.sendToDevice room) fun
      | .error _ => .done
      | .ok () => next
    else .done

/-- The part of `do_send` that shares the room key. -/
def shareRoomKey (room : String) (next : DaemonProc S) : DaemonProc S :=
  .ask (.joinedMembers room) fun
    | .error _ => .done
    | .ok _ => .ask .keysQuery fun
      | .error _ => .done
      | .ok body => .read fun s =>
        if layer.needsSession s body then .ask .keysClaim fun
          | .error _ => .done
          | .ok claim =>
            .locked (fun s => (layer.createOutboundOlm s claim).1.map (.store login.number)) fun s ok =>
              if ok && (layer.createOutboundOlm s claim).2 then sendRoomKey layer login room body next
              else .done
        else sendRoomKey layer login room body next

/-- **`do_send`.** A room that is not found counts as not encrypted. -/
def doSend (call : ℕ) (room : String) : DaemonProc S :=
  .locked (fun _ => [.mark (.looked call)]) fun s ok =>
    if !ok then .done
    else match Read.listRooms s.db with
    | .error _ => .done
    | .ok rooms =>
      let encrypted := ((rooms.find? fun r => r.id = room).map Room.encrypted).getD false
      if !encrypted then .ask (.sendEvent call room "m.room.message") fun _ => .done
      else .read fun s =>
        match layer.hasOutbound s room with
        | .error _ => .done
        | .ok true => postEncrypted layer login call room
        | .ok false => shareRoomKey layer login room (postEncrypted layer login call room)

end Send

/-! ### Procedures of writes that keep something -/

section Keeps
variable {S : CipherSuite} {serde : SerdeJson} {layer : Layer S} {login : Login} {κ : Type} {k : κ}
  {rules : Rules (Shared S) Change Request Reply κ} {outline : Outline (Shared S) κ}
  {good : Change → Prop} {fine : Request → Prop} {track : Shared S → Shared S → Prop}
  (hkeeps : Keeps Change.exec note outline k good fine track)
include hkeeps

theorem sound_convertAll_of_keeps {room : String} {evs : List RoomEvent} {msgs : List Message}
    {next : List Message → DaemonProc S} {s : Shared S}
    (hedit : ∀ e : Edit, good (.store login.number e.op))
    (h : ∀ s' msgs', track s s' → Sound rules Change.exec note outline k (next msgs') s') :
    Sound rules Change.exec note outline k (convertAll serde login room evs msgs next) s := by
  induction evs generalizing msgs s with
  | nil => exact h s msgs (hkeeps.refl s)
  | cons ev evs ih =>
    refine sound_read fun s₁ hs₁ _ => ?_
    have ht₁ := hkeeps.rely hs₁
    dsimp only
    split
    · next e _ =>
      exact hkeeps.write (by simpa using hedit e) fun s₂ os ht₂ _ ht₃ => ih fun s₄ msgs' ht₄ =>
        h s₄ msgs' (hkeeps.trans (hkeeps.trans ht₁ ht₂) (hkeeps.trans ht₃ ht₄))
    · exact ih fun s₂ msgs' ht₂ => h s₂ msgs' (hkeeps.trans ht₁ ht₂)

theorem sound_handleSecrets_of_keeps {secrets : List String} {next : DaemonProc S} {s : Shared S}
    (hkeys : ∀ op, OfKeys op → good (.store login.number op)) (hfine : fine .backupVersion)
    (h : ∀ s', track s s' → Sound rules Change.exec note outline k next s') :
    Sound rules Change.exec note outline k (handleSecrets layer login secrets next) s := by
  induction secrets generalizing s with
  | nil => exact h s (hkeeps.refl s)
  | cons secret secrets ih =>
    refine hkeeps.ask hfine fun body s₁ ht₁ => hkeeps.section (fun s w hw => ?_) fun _ _ s₂ ht₂ =>
      ih fun s₃ ht₃ => h s₃ (hkeeps.trans (hkeeps.trans ht₁ ht₂) ht₃)
    obtain ⟨op, hop, rfl⟩ := List.mem_map.mp hw
    exact hkeys op (layer.ofKeys_adopt s secret body op hop)

end Keeps

/-! ### What the procedures write -/

/-- What a sync round may write: nothing is wiped, the session stays, and no edge is moved. -/
def OfSync (number : ℕ) : Change → Prop
  | .store n op => n = number ∧ match op with
    | .clear | .setBackToken _ _ _ | .saveSession _ | .upgradeMessage _ _ => False
    | _ => True
  | .storeRoom n _ _ _ => n = number
  | _ => False

/-- What a sync round may ask. -/
def AskedBySync : Request → Prop
  | .sync _ | .backupVersion | .keysUpload => True
  | _ => False

/-- What `do_load_older` may write. -/
def OfPaging (number : ℕ) (room : String) : Change → Prop
  | .store n op => n = number ∧ match op with
    | .recordEdit _ _ _ | .insertMessage _ => True
    | .setBackToken r _ _ => r = room
    | _ => False
  | _ => False

/-- What `do_load_older` may ask. -/
def AskedByPaging : Request → Prop
  | .messages _ _ _ => True
  | _ => False

section Only
variable {S : CipherSuite} {serde : SerdeJson} {layer : Layer S} {login : Login} {room : String}
  {good : Change → Prop} {fine : Request → Prop}

theorem only_convertEvent {ev : RoomEvent} {next : Option Message → DaemonProc S}
    (hedit : ∀ e : Edit, good (.store login.number e.op)) (h : ∀ m, (next m).Only good fine) :
    (convertEvent serde login room ev next).Only good fine := by
  refine Proc.only_read fun s => ?_
  dsimp only
  split
  · next e _ => exact Proc.only_write (by simpa using hedit e) (h _)
  · exact h _

theorem only_convertAll {evs : List RoomEvent} {msgs : List Message}
    {next : List Message → DaemonProc S} (hedit : ∀ e : Edit, good (.store login.number e.op))
    (h : ∀ msgs, (next msgs).Only good fine) : (convertAll serde login room evs msgs next).Only good fine := by
  induction evs generalizing msgs with
  | nil => exact h msgs
  | cons ev evs ih => exact only_convertEvent hedit fun _ => ih

theorem only_storeAll {evs : List RoomEvent} {next : DaemonProc S}
    (hedit : ∀ e : Edit, good (.store login.number e.op))
    (hinsert : ∀ m, good (.store login.number (.insertMessage m))) (h : next.Only good fine) :
    (storeAll serde login room evs next).Only good fine := by
  induction evs with
  | nil => exact h
  | cons ev evs ih =>
    refine only_convertEvent hedit fun m => ?_
    rcases m with _ | m
    · exact ih
    · exact Proc.only_write (by simpa using hinsert m) ih

theorem ofSync_roomWrites {jr : JoinedRoom} {msgs : List Message} {stored : Room} :
    ∀ w ∈ roomWrites login room jr msgs stored, OfSync login.number w := by
  intro w hw
  unfold roomWrites at hw
  simp only [List.mem_append, List.mem_map, List.mem_singleton] at hw
  rcases hw with (⟨m, -, rfl⟩ | rfl) | hw
  · exact ⟨rfl, trivial⟩
  · exact rfl
  · split at hw
    · rw [List.mem_singleton.mp hw]
      exact ⟨rfl, trivial⟩
    · simp at hw

theorem ofSync_key {number : ℕ} {op : StoreOp} (h : OfKeys op) : OfSync number (.store number op) := by
  rcases op with _ | _ | _ | _ | _ | _ | _ | _ | _ | _ | _
  all_goals first | exact ⟨rfl, trivial⟩ | exact h.elim

theorem ofSync_keys {number : ℕ} {ops : List StoreOp} (h : ∀ op ∈ ops, OfKeys op) :
    ∀ w ∈ ops.map (Change.store number), OfSync number w := by
  intro w hw
  obtain ⟨op, hop, rfl⟩ := List.mem_map.mp hw
  exact ofSync_key (h op hop)

theorem only_processRooms {join : List (String × JoinedRoom)} {next : DaemonProc S}
    (h : next.Only (OfSync login.number) AskedBySync) :
    (processRooms serde login join next).Only (OfSync login.number) AskedBySync := by
  induction join with
  | nil => exact h
  | cons p join ih =>
    refine Proc.only_read fun s => ?_
    split
    · trivial
    · next stored _ =>
      have hfinish : (convertAll serde login p.1 p.2.timeline [] fun msgs =>
          .write (roomWrites login p.1 p.2 msgs (stored.getD (Sync.Process.newRoom p.1)))
            (processRooms serde login join next)).Only (OfSync login.number) AskedBySync :=
        only_convertAll (fun _ => ⟨rfl, trivial⟩) fun _ => Proc.only_write ofSync_roomWrites ih
      unfold storeRoom
      dsimp only
      split_ifs
      · exact hfinish
      · exact Proc.only_write (by simp [OfSync]) hfinish

theorem only_maintainOtks {count : ℕ} (hfine : fine .keysUpload)
    (hkeys : ∀ op, OfKeys op → good (.store login.number op))
    (hmeta : good (.store login.number (.setMeta "device_keys_published" "1"))) :
    (maintainOtks layer login count).Only good fine := by
  refine Proc.only_read fun s => ?_
  split_ifs
  · refine ⟨hfine, fun r => ?_⟩
    rcases r with e | u
    · trivial
    · refine fun s => ⟨fun w hw => ?_, fun _ => trivial⟩
      rcases List.mem_append.mp hw with hw | hw
      · obtain ⟨op, hop, rfl⟩ := List.mem_map.mp hw
        exact hkeys op (layer.ofKeys_markPublished s op hop)
      · rw [List.mem_singleton.mp hw]
        exact hmeta
  · trivial

theorem only_handleSecrets {secrets : List String} {next : DaemonProc S}
    (h : next.Only (OfSync login.number) AskedBySync) :
    (handleSecrets layer login secrets next).Only (OfSync login.number) AskedBySync := by
  induction secrets with
  | nil => exact h
  | cons secret secrets ih =>
    exact ⟨trivial, fun body s => ⟨ofSync_keys (layer.ofKeys_adopt s secret body), fun _ => ih⟩⟩

theorem only_processSync {resp : SyncResponse} :
    (processSync serde layer login resp).Only (OfSync login.number) AskedBySync := by
  refine fun s => ⟨ofSync_keys (layer.ofKeys_toDevice s _), fun _ => only_handleSecrets ?_⟩
  · exact only_processRooms (Proc.only_write (by simp [OfSync])
      (only_maintainOtks trivial (fun _ => ofSync_key) ⟨rfl, trivial⟩))

/-- **A sync round writes what a sync round may write.** -/
theorem only_syncOnce : (syncOnce serde layer login).Only (OfSync login.number) AskedBySync := by
  refine Proc.only_read fun s => ?_
  split
  · trivial
  · refine ⟨trivial, fun r => ?_⟩
    rcases r with e | resp
    · trivial
    · exact only_processSync

/-- **`do_load_older` writes messages, edits, and the edge of its room.** -/
theorem only_loadOlder {limit : ℕ} :
    (loadOlder serde login room limit : DaemonProc S).Only (OfPaging login.number room) AskedByPaging := by
  refine Proc.only_read fun s => ?_
  dsimp only
  split_ifs
  · trivial
  · refine ⟨trivial, fun r => ?_⟩
    rcases r with e | page
    · trivial
    · exact only_storeAll (fun _ => ⟨rfl, trivial⟩) (fun _ => ⟨rfl, trivial⟩)
        (Proc.only_write (by simp [OfPaging]) trivial)

end Only

/-! ### A round whose rooms are looked at one by one -/

section Rounds
variable {S : CipherSuite} {serde : SerdeJson} {layer : Layer S} {login : Login} {κ : Type} {k : κ}
  {rules : Rules (Shared S) Change Request Reply κ} {outline : Outline (Shared S) κ}
  {good : Change → Prop} {fine : Request → Prop} {track : Shared S → Shared S → Prop}
  (hkeeps : Keeps Change.exec note outline k good fine track)
include hkeeps

/-- **One room of a batch** is sound if its last section is, with the row as it was read. -/
theorem sound_processRoom_of_keeps {room : String} {jr : JoinedRoom} {next : DaemonProc S} {s : Shared S}
    (hedit : ∀ e : Edit, good (.store login.number e.op))
    (hmembers : good (.store login.number (.rememberMembers room (memberNames jr))))
    (h : ∀ s₁ stored msgs s₂, Read.getRoom s₁.db room = .ok stored → outline.inv s₁ → track s₁ s₂ →
      Sound rules Change.exec note outline k
        (.write (roomWrites login room jr msgs (stored.getD (newRoom room))) next) s₂) :
    Sound rules Change.exec note outline k (processRoom serde login room jr next) s := by
  refine sound_read fun s₁ _ hinv₁ => ?_
  split
  · trivial
  · next stored hstored =>
    have hfinish : ∀ s₂, track s₁ s₂ → Sound rules Change.exec note outline k
        (convertAll serde login room jr.timeline [] fun msgs =>
          .write (roomWrites login room jr msgs (stored.getD (newRoom room))) next) s₂ := by
      intro s₂ hs₂
      exact sound_convertAll_of_keeps hkeeps hedit fun s₃ msgs hs₃ =>
        h s₁ stored msgs s₃ hstored hinv₁ (hkeeps.trans hs₂ hs₃)
    unfold storeRoom
    dsimp only
    split_ifs
    · exact hfinish s₁ (hkeeps.refl s₁)
    · exact hkeeps.write (by simpa using hmembers) fun s₂ os hs₂ _ hs₃ =>
        hfinish _ (hkeeps.trans hs₂ hs₃)

/-- **A sync round** is sound if each of its rooms is. -/
theorem sound_syncOnce_of_keeps (hkeys : ∀ op, OfKeys op → good (.store login.number op))
    (hmeta : ∀ key v, good (.store login.number (.setMeta key v))) (hfine : ∀ q, AskedBySync q → fine q)
    (hroom : ∀ room jr next, (∀ s, Sound rules Change.exec note outline k next s) →
      ∀ s, Sound rules Change.exec note outline k (processRoom serde login room jr next) s)
    (s : Shared S) : Sound rules Change.exec note outline k (syncOnce serde layer login) s := by
  have hrooms : ∀ (join : List (String × JoinedRoom)) (next : DaemonProc S),
      (∀ s, Sound rules Change.exec note outline k next s) →
      ∀ s, Sound rules Change.exec note outline k (processRooms serde login join next) s := by
    intro join next hnext
    induction join with
    | nil => exact hnext
    | cons p join ih => exact hroom p.1 p.2 _ ih
  have hotks : ∀ count, (maintainOtks layer login count : DaemonProc S).Only good fine :=
    fun count => only_maintainOtks (hfine .keysUpload trivial) hkeys (hmeta _ _)
  refine sound_read fun s₁ _ _ => ?_
  split
  · trivial
  · next since _ =>
    refine hkeeps.ask (hfine (.sync since) trivial) fun r s₂ _ => ?_
    rcases r with e | resp
    · trivial
    · refine hkeeps.section (fun s w hw => ?_) fun _ _ s₃ _ =>
        sound_handleSecrets_of_keeps hkeeps hkeys (hfine .backupVersion trivial) fun s₄ _ => ?_
      · obtain ⟨op, hop, rfl⟩ := List.mem_map.mp hw
        exact hkeys op (layer.ofKeys_toDevice s _ op hop)
      · refine hrooms _ _ (fun s₅ => ?_) s₄
        exact hkeeps.write (by simpa using hmeta _ _) fun _ _ _ _ _ => hkeeps.only (hotks _) _

end Rounds

end Kmatrix.Daemon.Procs
