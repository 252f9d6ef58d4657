import Kmatrix.E2ee.Sessions
import Kmatrix.Sync.Events

/-! # Shared secrets

Our other devices answer an `m.secret.request` with an `m.secret.send`. `handleSecretSend` is what is
checked of the answer, `setBackupKeyBase64` how a backup key is adopted. -/

namespace Kmatrix.E2ee.Secrets

open Kmatrix.Lib Kmatrix.Lib.Crash Kmatrix.E2ee.Json Kmatrix.E2ee.Effects Kmatrix.E2ee.Sessions
open Kmatrix.Storage.Seal Kmatrix.Storage.Schema
open Kmatrix.Sync.Events (isWhitespace)

/-- The one secret the daemon asks for. -/
def megolmBackupSecret : String := "m.megolm_backup.v1"

/-- `ToDeviceOutcome::Secret`. -/
structure Secret where
  name : String
  secret : String
  requestId : String
  deriving DecidableEq, Repr

/-! ### Asking -/

/-- `{:016x}`. -/
def hex16 (n : UInt64) : String :=
  String.ofList (((List.range 16).reverse).map fun digit => hexDigit (n.toNat / 16 ^ digit % 16))

/-- **`secret_request`**, with the random halves of its id. -/
def Crypto.secretRequest (c : Crypto) (high low : UInt64) (ourDevice name : String) :
    Crypto × String × Value :=
  let requestId := hex16 high ++ hex16 low
  ({ c with secretRequests := Function.update c.secretRequests requestId (some name) }, requestId,
    .obj [("action", .str "request"), ("name", .str name), ("request_id", .str requestId),
      ("requesting_device_id", .str ourDevice)])

/-- The id stays known, so that a second answer on its way is no forgery. -/
def secretCancellation (ourDevice requestId : String) : Value :=
  .obj [("action", .str "request_cancellation"), ("request_id", .str requestId),
    ("requesting_device_id", .str ourDevice)]

/-! ### Answers -/

/-- The sender an Olm event names is not the owner of its session, if that is known. -/
def Crypto.spoofed (c : Crypto) (kind senderKey : String) (event : Value) : Option String :=
  match c.knownDevices senderKey with
  | none => none
  | some (userId, deviceId) =>
    if event.getStr "sender" = some userId then none
    else some (kind ++ " over the olm channel with " ++ userId ++ "/" ++ deviceId ++
      " claims sender " ++ (event.getStr "sender").getD "<missing>")

/-- **`handle_secret_send`.** -/
def Crypto.handleSecretSend (c : Crypto) (senderKey : String) (event : Value) :
    Except String (Option Secret) := do
  let content ← ((event.get "content").elim (.error "m.secret.send without content") .ok :
    Except String Value)
  let requestId ← (content.getStr "request_id").elim (.error "m.secret.send without request_id") .ok
  let secret ← (content.getStr "secret").elim (.error "m.secret.send without secret") .ok
  match c.secretRequests requestId with
  | none => return none
  | some name =>
    match Crypto.spoofed c "m.secret.send" senderKey event with
    | some e => .error e
    | none => return some ⟨name, secret, requestId⟩

/-! ### The backup key -/

/-- Without a run of characters at its end. -/
def trimEnd (p : Char → Bool) (cs : List Char) : List Char := (cs.reverse.dropWhile p).reverse

/-- `trim().trim_end_matches('=')`. -/
def unpadded (s : String) : List Char :=
  trimEnd (fun c => c = '=') (trimEnd isWhitespace (s.toList.dropWhile isWhitespace))

/-- The 32 bytes a shared backup key is made of. -/
def decodeSharedKey (secret : String) : Except String Key :=
  match Base64.decodeNoPad (unpadded secret) with
  | none => .error "decode shared backup key"
  | some raw =>
    if h : raw.length = 32 then .ok ⟨raw, h⟩
    else .error ("shared backup key is " ++ toString raw.length ++ " bytes, expected 32")

section Code
variable {S : CipherSuite} {Q : Type} {R : Q → Type} (V : Vodozemac)

/-- The comparison with the public key of the backup, if there is one. -/
def comparePublicKey (key : Key) (expectedPublicKey : Option String) : Except String Unit :=
  match expectedPublicKey with
  | none => .ok ()
  | some expected =>
    if (V.backupPublicKey key).toList = unpadded expected then .ok ()
    else .error ("the shared backup key does not match this backup: it unlocks " ++
      V.backupPublicKey key ++ ", but the backup was made for " ++ expected)

/-- **`set_backup_key_base64`.** -/
def setBackupKeyBase64 (secret : String) (expectedPublicKey : Option String) :
    Code S R Crypto Unit := do
  let key ← Act.ofExcept (decodeSharedKey secret)
  Act.ofExcept (comparePublicKey V key expectedPublicKey)
  setMeta backupKeyMeta (keyText key)
  Act.modify fun c => { c with backupKey := some key }

variable {V}

theorem comparePublicKey_ok {key : Key} {expected : String} {u : Unit}
    (h : comparePublicKey V key (some expected) = .ok u) :
    (V.backupPublicKey key).toList = unpadded expected := by
  by_contra hne
  simp [comparePublicKey, hne] at h

end Code

example : hex16 0xdeadbeef = "00000000deadbeef" := by decide +kernel

end Kmatrix.E2ee.Secrets
