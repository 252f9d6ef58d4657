import Kmatrix.E2ee.Sessions

/-! # Devices and Olm sessions

What `/keys/query` and `/keys/claim` answer, and the Olm sessions made from it. Devices are listed in
the order of the answer; one that lacks a key, or that nothing was claimed for, is passed over. -/

namespace Kmatrix.E2ee.Devices

open Kmatrix.Lib.Crash Kmatrix.E2ee.Ratchets Kmatrix.E2ee.Json Kmatrix.E2ee.Effects
open Kmatrix.E2ee.Sessions Kmatrix.Storage.Seal
open Kmatrix.Sas.Machine (Self DeviceInfo)

/-- One device of a `/keys/query` answer. -/
def parseDevice (userId deviceId : String) (info : Value) : Option DeviceInfo := do
  let keys ← info.get "keys"
  let curveKey ← keys.getStr ("curve25519:" ++ deviceId)
  let edKey ← keys.getStr ("ed25519:" ++ deviceId)
  return ⟨userId, deviceId, curveKey, edKey⟩

/-- **`parse_device_keys`.** -/
def parseDeviceKeys (keysQuery : Value) : List DeviceInfo :=
  match (keysQuery.get "device_keys").bind Value.asObject with
  | none => []
  | some users => users.flatMap fun user =>
    match user.2.asObject with
    | none => []
    | some devices => devices.filterMap fun device => parseDevice user.1 device.1 device.2

/-- `remember_devices`, as far as it concerns who holds which curve25519 key. -/
def Crypto.rememberDevices (c : Crypto) (devices : List DeviceInfo) : Crypto :=
  { c with
    knownDevices := devices.foldl
      (fun known d => Function.update known d.curveKey (some (d.userId, d.deviceId))) c.knownDevices }

/-- The devices we cannot yet talk to, ours left out. -/
def Crypto.devicesNeedingSession (c : Crypto) (all : List DeviceInfo) : List DeviceInfo :=
  all.filter fun d => d.curveKey ≠ c.account.curve25519Key && (c.olmSessions d.curveKey).isEmpty

/-- The body of `/keys/claim`. -/
def claimBody (devices : List DeviceInfo) : Value :=
  let users := devices.foldl
    (fun (users : Messages) d => users.insert d (.str "signed_curve25519")) []
  .obj [("one_time_keys", .obj (users.map fun user => (user.1, .obj user.2)))]

/-- The public key of a claimed entry: an object, or a bare text. -/
def oneTimeKeyValue : Value → Option String
  | .str s => some s
  | v => v.getStr "key"

/-- The one-time key claimed for a device. -/
def claimedKey (claimResponse : Value) (device : DeviceInfo) : Option String := do
  let users ← claimResponse.get "one_time_keys"
  let devices ← users.get device.userId
  let entries ← (← devices.get device.deviceId).asObject
  let entry ← entries.find? fun e => startsWith e.1 "signed_curve25519"
  oneTimeKeyValue entry.2

section Code
variable {S : CipherSuite} {Q : Type} {R : Q → Type} (V : Vodozemac)

def startOlmSession (device : DeviceInfo) (otk : String) : Code S R Crypto Unit := do
  if !V.validKey device.curveKey then Act.fail "bad device curve key"
  if !V.validKey otk then Act.fail "bad one-time key"
  let session : OlmSession := ⟨V.olmSessionId (← draw 1), [], 0, some otk⟩
  let c ← Act.get
  putPickle kindOlm session.id device.curveKey (c.pickle (.olm session))
  Act.modify fun c => { c with
    olmSessions := Function.update c.olmSessions device.curveKey
      (c.olmSessions device.curveKey ++ [session])
    knownDevices := Function.update c.knownDevices device.curveKey
      (some (device.userId, device.deviceId)) }

/-- One device: a session that fails is only reported. -/
def createSession (claimResponse : Value) (device : DeviceInfo) : Code S R Crypto Unit := do
  let c ← Act.get
  if (c.olmSessions device.curveKey).isEmpty then
    match claimedKey claimResponse device with
    | none => return ()
    | some key =>
      let _ ← Act.attempt (startOlmSession V device key)

/-- **`create_outbound_olm`.** -/
def createOutboundOlm (claimResponse : Value) (devices : List DeviceInfo) : Code S R Crypto Unit :=
  Act.fold (fun _ device => createSession V claimResponse device) () devices

end Code

/-- What starting a session keeps, `create_outbound_olm` keeps. -/
theorem createOutboundOlm_keeps {S : CipherSuite} {Q ω ο : Type} {R : Q → Type} {V : Vodozemac}
    {exec : ο → ω → (e : Effect Q) → Answer S R e × ω} {D : ω → Prop} {I : Crypto → ω → Prop}
    (hstart : ∀ device otk, Act.Keeps exec D I (startOlmSession V device otk : Code S R Crypto Unit))
    (claimResponse : Value) (devices : List DeviceInfo) :
    Act.Keeps exec D I (createOutboundOlm V claimResponse devices : Code S R Crypto Unit) := by
  refine Act.keeps_fold (fun _ device => Act.keeps_bind Act.keeps_get fun c => ?_) devices ()
  split_ifs
  · rcases claimedKey claimResponse device with _ | key
    · exact Act.keeps_pure _
    · exact Act.keeps_bind (Act.keeps_attempt (hstart device key)) fun _ => Act.keeps_pure _
  · exact Act.keeps_pure _

end Kmatrix.E2ee.Devices
