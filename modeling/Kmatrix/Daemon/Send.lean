import Kmatrix.E2ee.Devices

/-! # Sending a message

`do_send`, with the requests it makes. In an encrypted room without an outbound session the key is
shared first: the devices of the members are looked up, Olm sessions are made with those that lack one,
and the room's new session is sent to all of them; then the message is encrypted with it and posted.

`serve` is the server as the daemon can tell it: a fixed directory of devices, and the `Deed`s, which are
the shares it acknowledged and the events it took, in order. An event may be taken and the request fail
all the same. -/

namespace Kmatrix.Daemon.Send

open Kmatrix.Lib.Crash Kmatrix.E2ee.Json Kmatrix.E2ee.Effects Kmatrix.E2ee.Sessions Kmatrix.E2ee.Devices
open Kmatrix.Storage Kmatrix.Storage.Seal Kmatrix.Storage.Schema
open Kmatrix.Sas.Machine (Self)

/-- The content of a room event. -/
inductive Content where
  | plain (content : Value)
  | encrypted (content : EncryptedContent)

/-- The requests of `do_send`. -/
inductive Request where
  | joinedMembers (room : String)
  | keysQuery (users : List String)
  | keysClaim (body : Value)
  | sendToDevice (kind txn : String) (messages : Messages)
  | sendEvent (room kind txn : String) (content : Content)

def Reply : Request → Type
  | .joinedMembers _ => Except String (List String)
  | .keysQuery _ => Except String Value
  | .keysClaim _ => Except String Value
  | .sendToDevice _ _ _ => Except String Unit
  | .sendEvent _ _ _ _ => Except String String

/-! ### The server -/

/-- What the server did for us. -/
inductive Deed where
  | shared (messages : Messages)
  | posted (room kind : String) (content : Content)

/-- What becomes of a request: its error if it fails, whether an event that failed was taken all the
same, and the answer if it succeeds. -/
structure Net where
  fault : Option String
  taken : Bool
  members : List String
  claimed : Value
  eventId : String

/-- **The server**, with the directory that answers `/keys/query`. -/
def serve (directory : Value) (net : Net) (deeds : List Deed) : (q : Request) → Reply q × List Deed
  | .joinedMembers _ =>
    match net.fault with
    | some e => (.error e, deeds)
    | none => (.ok net.members, deeds)
  | .keysQuery _ =>
    match net.fault with
    | some e => (.error e, deeds)
    | none => (.ok directory, deeds)
  | .keysClaim _ =>
    match net.fault with
    | some e => (.error e, deeds)
    | none => (.ok net.claimed, deeds)
  | .sendToDevice _ _ messages =>
    match net.fault with
    | some e => (.error e, deeds)
    | none => (.ok (), deeds ++ [.shared messages])
  | .sendEvent room kind _ content =>
    match net.fault with
    | some e => (.error e, if net.taken then deeds ++ [.posted room kind content] else deeds)
    | none => (.ok net.eventId, deeds ++ [.posted room kind content])

/-! ### The code -/

section Code
variable {S : CipherSuite} {σ : Type}

def joinedMembers (room : String) : Code S Reply σ (List String) :=
  ⟨fun s => .act (.ask (.joinedMembers room)) fun answer => .ret (answer, s)⟩

def keysQuery (users : List String) : Code S Reply σ Value :=
  ⟨fun s => .act (.ask (.keysQuery users)) fun answer => .ret (answer, s)⟩

def keysClaim (body : Value) : Code S Reply σ Value :=
  ⟨fun s => .act (.ask (.keysClaim body)) fun answer => .ret (answer, s)⟩

def sendToDevice (kind txn : String) (messages : Messages) : Code S Reply σ Unit :=
  ⟨fun s => .act (.ask (.sendToDevice kind txn messages)) fun answer => .ret (answer, s)⟩

def sendEvent (room kind txn : String) (content : Content) : Code S Reply σ String :=
  ⟨fun s => .act (.ask (.sendEvent room kind txn content)) fun answer => .ret (answer, s)⟩

/-- A message to send: its text, and the clock when its two transaction ids are made. -/
structure Outgoing where
  body : String
  now : ℕ
  keyNow : ℕ
  deriving DecidableEq, Repr

variable (V : Vodozemac) (room : String) (self : Self)

/-- Olm sessions with the devices that need one. -/
def reachDevices (kq : Value) : Code S Reply Crypto Unit := do
  let c ← Act.get
  let devices := parseDeviceKeys kq
  let need := Crypto.devicesNeedingSession c devices
  Act.modify fun c => Crypto.rememberDevices c devices
  if !need.isEmpty then
    let claim ← keysClaim (claimBody need)
    createOutboundOlm V claim need

/-- The part of `do_send` that shares the room key. -/
def shareRoomKey (keyNow : ℕ) : Code S Reply Crypto Unit := do
  let members ← joinedMembers room
  let kq ← keysQuery members
  reachDevices V kq
  let messages ← encryptRoomKeyToDevices V room (parseDeviceKeys kq) self
  sendToDevice "m.room.encrypted" ("kmatrixkey" ++ toString keyNow) messages

/-- **`do_send`.** -/
def doSend (m : Outgoing) : Code S Reply Crypto String := do
  let rooms ← query Read.listRooms
  let encrypted := ((rooms.find? fun r => r.id = room).map Room.encrypted).getD false
  let txn := "kmatrix" ++ toString m.now
  let content : Value := .obj [("body", .str m.body), ("msgtype", .str "m.text")]
  if !encrypted then
    sendEvent room "m.room.message" txn (.plain content)
  else
    let c ← Act.get
    if !c.hasOutbound room then shareRoomKey V room self m.keyNow
    let envelope : Value :=
      .obj [("content", content), ("room_id", .str room), ("type", .str "m.room.message")]
    let enc ← encrypt V room envelope self.deviceId
    sendEvent room "m.room.encrypted" txn (.encrypted enc)

end Code

end Kmatrix.Daemon.Send
