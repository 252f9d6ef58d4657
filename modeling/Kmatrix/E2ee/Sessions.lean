import Kmatrix.E2ee.Effects
import Kmatrix.E2ee.Json
import Kmatrix.Sas.Machine
import Mathlib.Logic.Function.Basic

/-! # Keys and sessions

`Crypto` holds the account and the sessions in memory; every long-lived piece is also a pickle on disk:

| kind         | id                | extra             |
|--------------|-------------------|-------------------|
| `account`    | `self`            | (empty)           |
| `olm`        | olm session id    | sender curve25519 |
| `megolm_in`  | megolm session id | room id           |
| `megolm_out` | room id           | message index     |

`loadOrCreate` reads them back, `encryptRoomKeyToDevices` shares the key of a room's outbound session
and `encrypt` uses it. The entries of device verification are in `Sas.Machine`. The crypto library and
the JSON codec are parameters; what they make of fresh randomness is a function of the draw. -/

namespace Kmatrix.E2ee.Sessions

open Kmatrix.Lib Kmatrix.Lib.Crash Kmatrix.E2ee.Ratchets Kmatrix.E2ee.Json Kmatrix.E2ee.Effects
open Kmatrix.Storage.Seal Kmatrix.Storage.Schema Kmatrix.Storage.Write
open Kmatrix.Sas.Machine (Self DeviceInfo)

def olmAlgorithm : String := "m.olm.v1.curve25519-aes-sha2"

def megolmAlgorithm : String := "m.megolm.v1.aes-sha2"

def kindAccount : String := "account"

def kindOlm : String := "olm"

def kindMegolmIn : String := "megolm_in"

def kindMegolmOut : String := "megolm_out"

def pickleKeyMeta : String := "pickle_key"

def backupKeyMeta : String := "backup_key"

/-- **`vodozemac` and `serde_json`**, as far as the daemon uses them. Group sessions made from different
draws have different ids. -/
structure Vodozemac where
  /-- What is made of the `n`-th draw: a key, the identity keys of an account, a one-time key, the ids
  of an Olm and of a Megolm session. -/
  randomKey : ℕ → Key
  identityKeys : ℕ → String × String
  oneTimeKey : ℕ → String
  olmSessionId : ℕ → String
  groupSessionId : ℕ → String
  groupSessionId_injective : Function.Injective groupSessionId
  /-- `Curve25519PublicKey::from_base64`. -/
  validKey : String → Bool
  /-- `SessionKey::to_base64` and `from_base64`. -/
  sessionKey : GroupSession → String
  readSessionKey : String → Except String InboundGroupSession
  /-- `to_parts` and `base64_encode`; `base64_decode` and `OlmMessage::from_parts`. -/
  olmBody : OlmMessage → String
  readOlmMessage : ℕ → String → Except String OlmMessage
  /-- `PkDecryption::from_key(..).public_key()`. -/
  backupPublicKey : Key → String
  writeJson : Value → String
  readJson : String → Except String Value

/-- A library for evaluating examples, over the texts they read: keys are all alike, and the `n`-th draw
is named by `n` letters. -/
def plainVodozemac (json : List (String × Value)) (olm : List (String × OlmMessage)) : Vodozemac where
  randomKey _ := zeroKey
  identityKeys _ := ("our curve", "our ed")
  oneTimeKey n := String.ofList (List.replicate n 'k')
  olmSessionId n := String.ofList (List.replicate n 'o')
  groupSessionId n := String.ofList (List.replicate n 'm')
  groupSessionId_injective n n' h := by
    have hlen := congrArg (fun s => s.toList.length) h
    simpa using hlen
  validKey _ := true
  sessionKey s := s.id
  readSessionKey text := .ok ⟨text, 0⟩
  olmBody m := m.session
  readOlmMessage _ body := ((olm.find? fun t => t.1 = body).map Prod.snd).elim (.error "decode") .ok
  backupPublicKey _ := "public"
  writeJson := canonicalJsonVerbatim
  readJson text := ((json.find? fun t => t.1 = text).map Prod.snd).elim (.error "parse") .ok

/-- **The crypto state in memory.** -/
structure Crypto where
  account : Account
  pickleKey : Key
  /-- megolm session id -> inbound session -/
  inbound : String → Option InboundGroupSession
  /-- room id -> outbound session -/
  outbound : String → Option GroupSession
  /-- their curve25519 key -> the olm sessions with that device -/
  olmSessions : String → List OlmSession
  /-- their curve25519 key -> (user id, device id) -/
  knownDevices : String → Option (String × String)
  backupKey : Option Key
  /-- request id -> secret name -/
  secretRequests : String → Option String

/-- The state of a new login, for evaluating examples. -/
def newCrypto : Crypto where
  account := ⟨"our curve", "our ed", 0, []⟩
  pickleKey := zeroKey
  inbound _ := none
  outbound _ := none
  olmSessions _ := []
  knownDevices _ := none
  backupKey := none
  secretRequests _ := none

/-- The pickle key as it is written down. -/
def keyText (key : Key) : String := String.ofList (Base64.encode key.val)

/-- `pickle().encrypt(&self.pickle_key)`. -/
def Crypto.pickle (c : Crypto) (content : Pickled) : Pickle := ⟨keyText c.pickleKey, content⟩

section Code
variable {S : CipherSuite} {Q : Type} {R : Q → Type} (V : Vodozemac)

/-! ### Loading -/

/-- A key of 32 bytes, as `meta` holds it. -/
def decodeKey (encoded what : String) : Except String Key :=
  match Base64.decode encoded.toList with
  | none => .error ("decode " ++ what)
  | some raw =>
    if h : raw.length = 32 then .ok ⟨raw, h⟩
    else .error ("stored " ++ what ++ " is " ++ toString raw.length ++ " bytes, expected 32")

def loadPickleKey : Code S R Unit Key := do
  match ← getMeta pickleKeyMeta with
  | some encoded => Act.ofExcept (decodeKey encoded "pickle key")
  | none =>
    let key := V.randomKey (← draw 1)
    setMeta pickleKeyMeta (keyText key)
    return key

/-- The account on disk, or a new one. -/
def loadAccount (pickleKey : Key) : Code S R Unit Account := do
  match (← allPickles kindAccount).find? fun row => row.1 = "self" with
  | some (_, _, pickle) =>
    match pickle.fromEncrypted (keyText pickleKey) with
    | some (.account account) => return account
    | _ => Act.fail "unpickle olm account"
  | none =>
    let (curve25519, ed25519) := V.identityKeys (← draw 1)
    let account : Account := ⟨curve25519, ed25519, 0, []⟩
    putPickle kindAccount "self" "" ⟨keyText pickleKey, .account account⟩
    return account

/-- The rows are `(id, extra, pickle)`; unreadable ones are dropped. -/
def loadOlm (pickleKey : Key) (rows : List (String × String × Pickle)) : String → List OlmSession :=
  rows.foldl (fun sessions row =>
    match row.2.2.fromEncrypted (keyText pickleKey) with
    | some (.olm s) => Function.update sessions row.2.1 (sessions row.2.1 ++ [s])
    | _ => sessions) fun _ => []

def loadInbound (pickleKey : Key) (rows : List (String × String × Pickle)) :
    String → Option InboundGroupSession :=
  rows.foldl (fun inbound row =>
    match row.2.2.fromEncrypted (keyText pickleKey) with
    | some (.inbound s) => Function.update inbound row.1 (some s)
    | _ => inbound) fun _ => none

def loadOutbound (pickleKey : Key) (rows : List (String × String × Pickle)) :
    String → Option GroupSession :=
  rows.foldl (fun outbound row =>
    match row.2.2.fromEncrypted (keyText pickleKey) with
    | some (.outbound s) => Function.update outbound row.1 (some s)
    | _ => outbound) fun _ => none

/-- A stored backup key that cannot be read is ignored. -/
def loadBackupKey (stored : Option String) : Option Key :=
  stored.bind fun encoded => (decodeKey encoded "backup key").toOption

/-- **`load_or_create`.** Which devices are known, and what was asked of them, is not on disk. -/
def loadOrCreate : Code S R Unit Crypto := do
  let pickleKey ← loadPickleKey V
  let account ← loadAccount V pickleKey
  let olm ← allPickles kindOlm
  let inbound ← allPickles kindMegolmIn
  let outbound ← allPickles kindMegolmOut
  let backupKey ← getMeta backupKeyMeta
  return {
    account
    pickleKey
    inbound := loadInbound pickleKey inbound
    outbound := loadOutbound pickleKey outbound
    olmSessions := loadOlm pickleKey olm
    knownDevices := fun _ => none
    backupKey := loadBackupKey backupKey
    secretRequests := fun _ => none }

/-- The daemon's crypto state after a start: none if it could not be loaded. -/
def boot : Prog (Effect Q) (Answer S R) (Option Crypto) :=
  Prog.bind ((loadOrCreate V).run ()) fun r => .ret r.1.toOption

/-! ### Sending -/

def persistAccount : Code S R Crypto Unit := do
  let c ← Act.get
  putPickle kindAccount "self" "" (c.pickle (.account c.account))

/-- The outbound session of a room, created on first use. A new session is registered as an inbound
session too, so that our own messages are decryptable. -/
def getOrCreateOutbound (room : String) : Code S R Crypto GroupSession := do
  let c ← Act.get
  if (c.outbound room).isNone then
    let session : GroupSession := ⟨V.groupSessionId (← draw 1), 0⟩
    putPickle kindMegolmOut room "0" (c.pickle (.outbound session))
    let inbound := InboundGroupSession.ofGroupSession session
    putPickle kindMegolmIn inbound.id room (c.pickle (.inbound inbound))
    Act.modify fun c => { c with
      inbound := Function.update c.inbound inbound.id (some inbound)
      outbound := Function.update c.outbound room (some session) }
  let c ← Act.get
  match c.outbound room with
  | some session => return session
  | none => Act.fail ("outbound megolm session for " ++ room ++ " disappeared")

/-- The content of an `m.room.encrypted` room event. -/
structure EncryptedContent where
  algorithm : String
  ciphertext : MegolmMessage
  deviceId : String
  senderKey : String
  sessionId : String
  deriving DecidableEq, Repr

/-- **`encrypt`**: the ratchet on disk is moved on before the ciphertext is handed out. -/
def encrypt (room : String) (plaintext : Value) (ourDeviceId : String) :
    Code S R Crypto EncryptedContent := do
  let session ← getOrCreateOutbound V room
  let (session, message) := session.encrypt (V.writeJson plaintext)
  Act.modify fun c => { c with outbound := Function.update c.outbound room (some session) }
  let c ← Act.get
  putPickle kindMegolmOut room (toString session.index) (c.pickle (.outbound session))
  return ⟨megolmAlgorithm, message, ourDeviceId, c.account.curve25519Key, session.id⟩

def Crypto.hasOutbound (c : Crypto) (room : String) : Bool := (c.outbound room).isSome

/-- Encrypts with the last session held for the device. -/
def olmEncrypt (curveKey plaintext : String) : Code S R Crypto (ℕ × String) := do
  let c ← Act.get
  match (c.olmSessions curveKey).getLast? with
  | none => Act.fail ("no olm session for device key " ++ curveKey)
  | some session =>
    let (session, message) := session.encrypt plaintext
    Act.modify fun c => { c with
      olmSessions := Function.update c.olmSessions curveKey
        ((c.olmSessions curveKey).dropLast ++ [session]) }
    putPickle kindOlm session.id curveKey (c.pickle (.olm session))
    return (message.messageType, V.olmBody message)

def roomKeyEnvelope (content : Value) (self : Self) (ourEdKey : String) (device : DeviceInfo) : Value :=
  .obj [("content", content), ("keys", .obj [("ed25519", .str ourEdKey)]),
    ("recipient", .str device.userId),
    ("recipient_keys", .obj [("ed25519", .str device.edKey)]), ("sender", .str self.userId),
    ("sender_device", .str self.deviceId), ("type", .str "m.room_key")]

def olmToDeviceContent (ourCurve theirCurve : String) (messageType : ℕ) (body : String) : Value :=
  .obj [("algorithm", .str olmAlgorithm),
    ("ciphertext", .obj [(theirCurve, .obj [("body", .str body), ("type", .int messageType)])]),
    ("sender_key", .str ourCurve)]

/-- The `messages` of a `/sendToDevice` body: by user, by device. -/
abbrev Messages := List (String × List (String × Value))

def Messages.insert (messages : Messages) (device : DeviceInfo) (content : Value) : Messages :=
  insertMember device.userId
    (insertMember device.deviceId content ((member messages device.userId).getD [])) messages

/-- What is sent to a device. -/
def Messages.at (messages : Messages) (device : DeviceInfo) : Option Value :=
  (member messages device.userId).bind fun devices => member devices device.deviceId

theorem Messages.at_insert (messages : Messages) (d d' : DeviceInfo) (content : Value) :
    (messages.insert d content).at d' =
      if (d'.userId, d'.deviceId) = (d.userId, d.deviceId) then some content else messages.at d' := by
  unfold Messages.at Messages.insert
  rw [member_insertMember]
  by_cases hu : d'.userId = d.userId
  · rw [if_pos hu, Option.bind_some, member_insertMember]
    by_cases hd : d'.deviceId = d.deviceId
    · simp [hu, hd]
    · rw [if_neg hd, if_neg (fun h => hd (Prod.mk.inj h).2), hu]
      rcases member messages d.userId with _ | devices
      · rfl
      · rfl
  · rw [if_neg hu, if_neg (fun h => hu (Prod.mk.inj h).1)]

/-- What is shared of a session. -/
def roomKeyContent (room : String) (session : GroupSession) : Value :=
  .obj [("algorithm", .str megolmAlgorithm), ("chain_index", .int session.index),
    ("room_id", .str room), ("session_id", .str session.id),
    ("session_key", .str (V.sessionKey session))]

/-- One device of a share: ours is left out, and so is one we cannot encrypt for. -/
def shareWith (self : Self) (keyContent : Value) (messages : Messages) (device : DeviceInfo) :
    Code S R Crypto Messages := do
  let c ← Act.get
  if device.curveKey = c.account.curve25519Key then return messages
  let envelope := roomKeyEnvelope keyContent self c.account.ed25519Key device
  match ← Act.attempt (olmEncrypt V device.curveKey (V.writeJson envelope)) with
  | .error _ => return messages
  | .ok (messageType, body) =>
    Act.modify fun c => { c with
      knownDevices := Function.update c.knownDevices device.curveKey
        (some (device.userId, device.deviceId)) }
    return messages.insert device
      (olmToDeviceContent c.account.curve25519Key device.curveKey messageType body)

/-- **`encrypt_room_key_to_devices`.** -/
def encryptRoomKeyToDevices (room : String) (devices : List DeviceInfo) (self : Self) :
    Code S R Crypto Messages := do
  let session ← getOrCreateOutbound V room
  Act.fold (shareWith V self (roomKeyContent V room session)) [] devices

end Code

/-! ### What sharing keeps -/

section Keeping
variable {S : CipherSuite} {Q ω ο : Type} {R : Q → Type} {V : Vodozemac}
  {exec : ο → ω → (e : Effect Q) → Answer S R e × ω} {D : ω → Prop} {I : Crypto → ω → Prop}
  (hencrypt : ∀ curveKey plaintext,
    Act.Keeps exec D I (olmEncrypt V curveKey plaintext : Code S R Crypto (ℕ × String)))
  (hknown : ∀ c w known, I c w → I { c with knownDevices := known } w)
include hencrypt hknown

/-- What encrypting for a device keeps, and does not depend on the known devices, sharing keeps. -/
theorem shareWith_keeps (self : Self) (keyContent : Value) (messages : Messages) (device : DeviceInfo) :
    Act.Keeps exec D I (shareWith V self keyContent messages device : Code S R Crypto Messages) := by
  refine Act.keeps_bind Act.keeps_get fun c => ?_
  dsimp only
  split_ifs
  · exact Act.keeps_pure _
  · refine Act.keeps_bind (Act.keeps_attempt (hencrypt _ _)) fun r => ?_
    rcases r with e | ⟨messageType, body⟩
    · exact Act.keeps_pure _
    · exact Act.keeps_bind (Act.keeps_modify fun c w h => hknown c w _ h) fun _ => Act.keeps_pure _

theorem encryptRoomKeyToDevices_keeps {room : String}
    (houtbound : Act.Keeps exec D I (getOrCreateOutbound V room : Code S R Crypto GroupSession))
    (devices : List DeviceInfo) (self : Self) :
    Act.Keeps exec D I (encryptRoomKeyToDevices V room devices self : Code S R Crypto Messages) :=
  Act.keeps_bind houtbound fun _ =>
    Act.keeps_fold (fun messages device => shareWith_keeps hencrypt hknown self _ messages device) devices []

end Keeping

section Looking
variable {S : CipherSuite} {Q ω ο : Type} {R : Q → Type}
  {exec : ο → ω → (e : Effect Q) → Answer S R e × ω} {D : ω → Prop} {I : Crypto → ω → Prop}

/-- How `getOrCreateOutbound` ends: with the session that is there. -/
theorem safe_outbound {c : Crypto} {w : ω} (h : I c w) (room : String) :
    Safe exec D (fun r w' => I r.2 w' ∧ ∀ s, r.1 = .ok s → r.2.outbound room = some s)
      ((match c.outbound room with
        | some session => pure session
        | none => Act.fail ("outbound megolm session for " ++ room ++ " disappeared") :
          Code S R Crypto GroupSession).run c) w := by
  rcases hroom : c.outbound room with _ | session
  · exact ⟨h, fun s hs => by simp at hs⟩
  · refine ⟨h, fun s hs => ?_⟩
    rw [← Except.ok.inj hs]
    exact hroom

end Looking

end Kmatrix.E2ee.Sessions
