import Kmatrix.E2ee.Json
import Kmatrix.E2ee.Sha256
import Kmatrix.Lib.Trace
import Kmatrix.Storage.Seal
import Mathlib.Data.List.Sort

/-! # SAS verification

The state machine behind `handle_verification` and `confirm_verification`. We are always the responder:
request, ready, start, accept, key, key, emoji, and then, when the user has confirmed them, mac and done.

A handler only touches the entry of its own transaction, so each is a function on that entry, `none`
where there is none: it returns what is left of the entry and the `VerifyStep`. `handleSlot` picks the
handler by the kind of the event, and `step` is the whole machine. The SAS of the crypto library is a
parameter, and so is the ephemeral key a start draws. -/

namespace Kmatrix.Sas.Machine

open Kmatrix.E2ee.Json Kmatrix.E2ee.Sha256 Kmatrix.Lib Kmatrix.Storage.Seal

/-! ### Constants -/

def sasMethod : String := "m.sas.v1"

def keyAgreementProtocol : String := "curve25519-hkdf-sha256"

def sasHash : String := "sha256"

def macMethod : String := "hkdf-hmac-sha256.v2"

def sasEmojiString : String := "emoji"

/-- Ten minutes, in nanoseconds. -/
def verificationTimeout : ℕ := 600 * 10 ^ 9

def requestKind : String := "m.key.verification.request"

def readyKind : String := "m.key.verification.ready"

def startKind : String := "m.key.verification.start"

def acceptKind : String := "m.key.verification.accept"

def keyKind : String := "m.key.verification.key"

def macKind : String := "m.key.verification.mac"

def doneKind : String := "m.key.verification.done"

def cancelKind : String := "m.key.verification.cancel"

/-! ### The data -/

/-- `vodozemac::sas`. `verifyMac` also fails on a MAC that is no base64. -/
structure SasSuite where
  /-- `Sas`, an ephemeral key. -/
  Secret : Type
  /-- `EstablishedSas`, the shared secret. -/
  Established : Type
  publicKey : Secret → String
  diffieHellman : Secret → String → Except String Established
  emojiIndices : Established → String → Fin 7 → UInt8
  calculateMac : Established → String → String → String
  verifyMac : Established → String → String → String → Bool

/-- The device we are logged in as. -/
structure Self where
  userId : String
  deviceId : String
  deriving DecidableEq, Repr

/-- One remote device. -/
structure DeviceInfo where
  userId : String
  deviceId : String
  curveKey : String
  edKey : String
  deriving DecidableEq, Repr

/-- One in-flight SAS verification. -/
structure Verification (S : SasSuite) where
  theirUser : String
  theirDevice : String
  created : ℕ
  sas : Option S.Secret := none
  ourPublicKey : Option String := none
  start : Option Value := none
  theirPublicKey : Option String := none
  established : Option S.Established := none
  weSentMac : Bool := false
  theySentMac : Bool := false
  weSentDone : Bool := false
  theySentDone : Bool := false

/-- `Verification::new`. -/
def Verification.new {S : SasSuite} (theirUser theirDevice : String) (now : ℕ) : Verification S :=
  { theirUser, theirDevice, created := now }

/-- Both sides have MAC'd their keys and both have said `done`. -/
def Verification.complete {S : SasSuite} (e : Verification S) : Bool :=
  e.weSentMac && e.theySentMac && e.weSentDone && e.theySentDone

/-- A to-device event to send: its type, the target device, its content. -/
structure ToSend where
  kind : String
  device : String
  content : Value

/-- What the daemon must do next. -/
structure VerifyStep where
  send : List ToSend := []
  emoji : Option (String × String × (Fin 7 → UInt8)) := none
  done : Option String := none
  cancelled : Option String := none

/-! ### The texts that are hashed and MAC'd -/

/-- `vodozemac::base64_encode`: without padding. -/
def base64Encode (bytes : List UInt8) : String :=
  String.ofList ((Base64.encode bytes).filter fun c => c ≠ '=')

/-- The hash commitment to our key and their start. -/
def commitment (ourKey : String) (start : Value) : String :=
  base64Encode (sha256 (utf8 ourKey ++ utf8 (canonicalJsonVerbatim start)))

/-- The info string of a MAC: its sender comes first. -/
def macInfo (sender other : Self) (transaction : String) : String :=
  "MATRIX_KEY_VERIFICATION_MAC" ++ sender.userId ++ sender.deviceId ++ other.userId ++
    other.deviceId ++ transaction

/-- The info string of the emoji: the side that started comes first. -/
def sasInfo (their our : Self) (theirKey ourKey transaction : String) : String :=
  "MATRIX_KEY_VERIFICATION_SAS|" ++ their.userId ++ "|" ++ their.deviceId ++ "|" ++ theirKey ++
    "|" ++ our.userId ++ "|" ++ our.deviceId ++ "|" ++ ourKey ++ "|" ++ transaction

/-- The key id of a device key. -/
def edKeyId (deviceId : String) : String := "ed25519:" ++ deviceId

/-! ### The contents that are sent -/

section Contents
variable (transaction : String)

def readyContent (ourDevice : String) : Value :=
  .obj [("from_device", .str ourDevice), ("methods", .arr [.str sasMethod]),
    ("transaction_id", .str transaction)]

def acceptContent (commitment : String) : Value :=
  .obj [("commitment", .str commitment), ("hash", .str sasHash),
    ("key_agreement_protocol", .str keyAgreementProtocol),
    ("message_authentication_code", .str macMethod), ("method", .str sasMethod),
    ("short_authentication_string", .arr [.str sasEmojiString]), ("transaction_id", .str transaction)]

def keyContent (key : String) : Value :=
  .obj [("key", .str key), ("transaction_id", .str transaction)]

def macContent (keyId keyMac keysMac : String) : Value :=
  .obj [("keys", .str keysMac), ("mac", .obj [(keyId, .str keyMac)]),
    ("transaction_id", .str transaction)]

def doneContent : Value := .obj [("transaction_id", .str transaction)]

def cancelContent (code reason : String) : Value :=
  .obj [("code", .str code), ("reason", .str reason), ("transaction_id", .str transaction)]

/-- Tell the other side, and the user, that it ended. -/
def cancelStep (theirDevice code reason : String) : VerifyStep :=
  { send := [⟨cancelKind, theirDevice, cancelContent transaction code reason⟩]
    cancelled := some reason }

end Contents

/-! ### The handlers -/

section Handlers
variable {S : SasSuite} (transaction : String)

/-- **`verification_request`**: whatever entry there was is replaced. -/
def verificationRequest (now : ℕ) (sender ourDevice : String) (content : Value)
    (slot : Option (Verification S)) : Option (Verification S) × VerifyStep :=
  match content.getStr "from_device" with
  | none => (slot, {})
  | some fromDevice =>
    if content.offers "methods" sasMethod then
      (some (Verification.new sender fromDevice now),
        { send := [⟨readyKind, fromDevice, readyContent transaction ourDevice⟩] })
    else
      (none, cancelStep transaction fromDevice "m.unknown_method" "this device only speaks m.sas.v1")

/-- Everything the start must offer. -/
def negotiated (content : Value) : Bool :=
  content.offers "key_agreement_protocols" keyAgreementProtocol && content.offers "hashes" sasHash &&
    content.offers "message_authentication_codes" macMethod &&
    content.offers "short_authentication_string" sasEmojiString

/-- The entry a start goes to: a bare one is adopted. -/
def adopted (now : ℕ) (sender : String) (content : Value) (slot : Option (Verification S)) :
    Option (Verification S) :=
  match slot with
  | some entry => some entry
  | none => (content.getStr "from_device").map fun device => Verification.new sender device now

/-- **`verification_start`**, drawing the ephemeral key `fresh`. -/
def verificationStart (now : ℕ) (fresh : S.Secret) (sender : String) (content : Value)
    (slot : Option (Verification S)) : Option (Verification S) × VerifyStep :=
  match adopted now sender content slot with
  | none => (none, {})
  | some entry =>
    -- a second start would move our key from under a commitment that was seen
    if entry.start.isSome then (some entry, {})
    else if content.getStr "method" ≠ some sasMethod then
      (none, cancelStep transaction entry.theirDevice "m.unknown_method"
        "this device only speaks m.sas.v1")
    else if !negotiated content then
      (none, cancelStep transaction entry.theirDevice "m.unknown_method"
        "no shared key agreement, hash, MAC or SAS method")
    else
      let ourPublicKey := S.publicKey fresh
      (some { entry with
          sas := some fresh
          ourPublicKey := some ourPublicKey
          start := some content },
        { send := [⟨acceptKind, entry.theirDevice,
            acceptContent transaction (commitment ourPublicKey content)⟩] })

/-- **`verification_key`**: our ephemeral key is used up. -/
def verificationKey (self : Self) (content : Value) (slot : Option (Verification S)) :
    Option (Verification S) × VerifyStep :=
  match slot with
  | none => (none, {})
  | some entry =>
    match content.getStr "key" with
    | none =>
      (none, cancelStep transaction entry.theirDevice "m.invalid_message"
        "m.key.verification.key without a key")
    | some theirKey =>
      match entry.sas, entry.ourPublicKey with
      | some sas, some ourKey =>
        match S.diffieHellman sas theirKey with
        | .error e =>
          (none, cancelStep transaction entry.theirDevice "m.invalid_message"
            ("their SAS key is unusable: " ++ e))
        | .ok established =>
          let info :=
            sasInfo ⟨entry.theirUser, entry.theirDevice⟩ self theirKey ourKey transaction
          (some { entry with
              sas := none
              theirPublicKey := some theirKey
              established := some established },
            { send := [⟨keyKind, entry.theirDevice, keyContent transaction ourKey⟩]
              emoji := some (transaction, entry.theirDevice, S.emojiIndices established info) })
      | _, _ =>
        (none, cancelStep transaction entry.theirDevice "m.unexpected_message"
          "a key arrived before the start was accepted")

/-- One entry of the MAC map. -/
def checkMac (established : S.Established) (edKey : String → Option String) (info : String)
    (macs : Value) (keyId : String) : Except (String × String) Unit :=
  match macs.getStr keyId with
  | none => .error ("m.invalid_message", "a MAC entry was not a string")
  | some mac =>
    match stripPrefix keyId "ed25519:" with
    | none => .ok ()
    | some deviceId =>
      match edKey deviceId with
      | none => .ok ()
      | some theirEd =>
        if S.verifyMac established theirEd (info ++ keyId) mac then .ok ()
        else .error ("m.key_mismatch", "the MAC over " ++ keyId ++ " did not verify")

/-- Every entry of the MAC map, in the order of the key ids. -/
def checkMacs (established : S.Established) (edKey : String → Option String) (info : String)
    (macs : Value) : List String → Except (String × String) Unit
  | [] => .ok ()
  | keyId :: rest =>
    match checkMac established edKey info macs keyId with
    | .error e => .error e
    | .ok () => checkMacs established edKey info macs rest

/-- The key ids of the MAC map, sorted. -/
def keyIds (macs : List (String × Value)) : List String :=
  (macs.map Prod.fst).insertionSort (· ≤ ·)

/-- An entry that has made progress: finished where nothing is missing, else kept. -/
def settle (entry : Verification S) (step : VerifyStep) : Option (Verification S) × VerifyStep :=
  if entry.complete then (none, { step with done := some entry.theirDevice })
  else (some entry, step)

/-- **`verification_mac`**. `edKey` are the keys recorded for devices of their user. -/
def verificationMac (self : Self) (deviceEdKeys : String × String → Option String) (content : Value)
    (slot : Option (Verification S)) : Option (Verification S) × VerifyStep :=
  match slot with
  | none => (none, {})
  | some entry =>
    let cancel (code reason : String) : Option (Verification S) × VerifyStep :=
      (none, cancelStep transaction entry.theirDevice code reason)
    match entry.established with
    | none => cancel "m.unexpected_message" "a MAC arrived before the key exchange"
    | some established =>
      match (content.get "mac").bind Value.asObject, content.getStr "keys" with
      | some macs, some keysMac =>
        let info := macInfo ⟨entry.theirUser, entry.theirDevice⟩ self transaction
        let joined := ",".intercalate (keyIds macs)
        if S.verifyMac established joined (info ++ "KEY_IDS") keysMac then
          match checkMacs established (fun d => deviceEdKeys (entry.theirUser, d)) info (.obj macs)
              (keyIds macs) with
          | .error (code, reason) => cancel code reason
          | .ok () => settle { entry with theySentMac := true } {}
        else cancel "m.key_mismatch" "the MAC over their key ids did not verify"
      | _, _ => cancel "m.invalid_message" "m.key.verification.mac without mac and keys"

/-- **`verification_done`.** -/
def verificationDone (slot : Option (Verification S)) : Option (Verification S) × VerifyStep :=
  match slot with
  | none => (none, {})
  | some entry => settle { entry with theySentDone := true } {}

/-- **`verification_cancel`.** -/
def verificationCancel (content : Value) (slot : Option (Verification S)) :
    Option (Verification S) × VerifyStep :=
  match slot with
  | none => (none, {})
  | some _ =>
    let reason :=
      match content.getStr "reason" with
      | some reason => reason
      | none => (content.getStr "code").getD "the other device cancelled the verification"
    (none, { cancelled := some reason })

/-- **`confirm_verification`**, `ourEd` being our device key. -/
def confirmVerification (self : Self) (ourEd : String) (confirm : Bool)
    (slot : Option (Verification S)) : Option (Verification S) × VerifyStep :=
  match slot with
  | none =>
    (none, { cancelled := some ("verification " ++ transaction ++ " is no longer in progress") })
  | some entry =>
    if !confirm then
      (none, cancelStep transaction entry.theirDevice "m.mismatched_sas" "the emoji did not match")
    else
      match entry.established with
      | none =>
        (none, cancelStep transaction entry.theirDevice "m.unexpected_message"
          "confirmed before the key exchange finished")
      | some established =>
        let info := macInfo self ⟨entry.theirUser, entry.theirDevice⟩ transaction
        let keyId := edKeyId self.deviceId
        let keyMac := S.calculateMac established ourEd (info ++ keyId)
        let keysMac := S.calculateMac established keyId (info ++ "KEY_IDS")
        settle { entry with weSentMac := true, weSentDone := true }
          { send := [⟨macKind, entry.theirDevice, macContent transaction keyId keyMac keysMac⟩,
              ⟨doneKind, entry.theirDevice, doneContent transaction⟩] }

end Handlers

/-! ### The machine -/

section Machine
variable {S : SasSuite}

/-- What the state machine keeps: the verifications in flight by transaction id, the ed25519 keys known
by user and device, our own device key. -/
structure Verifier (S : SasSuite) where
  verifications : String → Option (Verification S)
  deviceEdKeys : String × String → Option String
  ed25519Key : String

/-- `remember_devices`, as far as it concerns verification. -/
def Verifier.rememberDevices (m : Verifier S) (devices : List DeviceInfo) : Verifier S :=
  { m with
    deviceEdKeys := devices.foldl
      (fun keys d => Function.update keys (d.userId, d.deviceId) (some d.edKey)) m.deviceEdKeys }

/-- The entry has not timed out. -/
def alive (now : ℕ) (e : Verification S) : Bool := now - e.created < verificationTimeout

/-- `expire_verifications`. -/
def expireVerifications (now : ℕ) (verifications : String → Option (Verification S)) :
    String → Option (Verification S) :=
  fun transaction => (verifications transaction).filter (alive now)

/-- A call to the state machine: an event, with the time and the ephemeral key it would draw; the
user's answer; an answer to `/keys/query`. -/
inductive Call (S : SasSuite) where
  | handle (now : ℕ) (fresh : S.Secret) (self : Self) (sender kind : String) (content : Value)
  | confirm (self : Self) (transaction : String) (confirm : Bool)
  | remember (devices : List DeviceInfo)

/-- The transaction a call is about. -/
def Call.transaction : Call S → Option String
  | .handle _ _ _ _ _ content => content.getStr "transaction_id"
  | .confirm _ transaction _ => some transaction
  | .remember _ => none

/-- Who sent the event. -/
def Call.sender : Call S → Option String
  | .handle _ _ _ sender _ _ => some sender
  | _ => none

/-- The account a call is made for. -/
def Call.self : Call S → Option Self
  | .handle _ _ self _ _ _ => some self
  | .confirm self _ _ => some self
  | .remember _ => none

/-- The handler of an event. `ready` and `accept` are what an initiator receives. -/
def handleSlot (m : Verifier S) (transaction : String) (now : ℕ) (fresh : S.Secret) (self : Self)
    (sender kind : String) (content : Value) (slot : Option (Verification S)) :
    Option (Verification S) × VerifyStep :=
  if kind = requestKind then verificationRequest transaction now sender self.deviceId content slot
  else if kind = startKind then verificationStart transaction now fresh sender content slot
  else if kind = keyKind then verificationKey transaction self content slot
  else if kind = macKind then verificationMac transaction self m.deviceEdKeys content slot
  else if kind = doneKind then verificationDone slot
  else if kind = cancelKind then verificationCancel content slot
  else (slot, {})

/-- The entry of a transaction replaced. -/
def Verifier.set (m : Verifier S) (transaction : String) (slot : Option (Verification S)) :
    Verifier S := { m with verifications := Function.update m.verifications transaction slot }

/-- **`handle_verification`.** -/
def handleVerification (m : Verifier S) (now : ℕ) (fresh : S.Secret) (self : Self)
    (sender kind : String) (content : Value) : Verifier S × VerifyStep :=
  let m := { m with verifications := expireVerifications now m.verifications }
  match content.getStr "transaction_id" with
  | none => (m, {})
  | some transaction =>
    let (slot, step) := handleSlot m transaction now fresh self sender kind content
      (m.verifications transaction)
    (m.set transaction slot, step)

/-- **The machine.** -/
def step (m : Verifier S) : Call S → Verifier S × VerifyStep
  | .handle now fresh self sender kind content =>
    handleVerification m now fresh self sender kind content
  | .confirm self transaction confirm =>
    let (slot, step) := confirmVerification transaction self m.ed25519Key confirm
      (m.verifications transaction)
    (m.set transaction slot, step)
  | .remember devices => (m.rememberDevices devices, {})

/-- Freshly loaded: no verification is in flight, no device known. -/
def Verifier.fresh (ed25519Key : String) : Verifier S := ⟨fun _ => none, fun _ => none, ed25519Key⟩

end Machine

end Kmatrix.Sas.Machine
