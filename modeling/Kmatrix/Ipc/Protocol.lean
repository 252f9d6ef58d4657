import Kmatrix.E2ee.Json
import Kmatrix.Sync.Plaintext

/-! # Requests and responses

A client sends one JSON object a line. `Envelope.ofJson` is its derived decoder: `id` is taken out, the
rest is kept as it is and then read as a `Request`, internally tagged by `cmd`. The tag is a name in
snake case or, because the rest has been buffered, the position of the variant; a variant with fields
finds them by name, none of them twice, and passes over the others.

A response is a map with the request's `id` and `ok`; `Reply` lists what a handler has to say on
success. -/

namespace Kmatrix.Ipc.Protocol

open Kmatrix.E2ee.Json (Value insertMember)
open Kmatrix.Sync.Plaintext

/-- `CLIENT_VERSION`. -/
def clientVersion : String := "kmatrix 0.1.0"

/-- `State`. -/
inductive State where
  | loggedOut
  | connecting
  | syncing
  | offline
  deriving DecidableEq, Repr

def State.asStr : State → String
  | .loggedOut => "logged_out"
  | .connecting => "connecting"
  | .syncing => "syncing"
  | .offline => "offline"

/-- **`Request`**: the commands of the protocol. -/
inductive Request where
  | hello (token : String)
  | status
  | login (homeserver user password : String)
  | logout
  | rooms
  | messages (room : String) (limit : ℕ)
  | send (room body : String)
  | markRead (room eventId : String)
  | syncNow
  | loadOlder (room : String) (limit : ℕ)
  | backupKey (key : String)
  | verifyConfirm (transaction : String) (confirm : Bool)
  | shutdown
  deriving DecidableEq, Repr

/-- **`Envelope`.** -/
structure Envelope where
  id : ℕ
  cmd : Request
  deriving DecidableEq, Repr

/-! ### Decoding -/

/-- The value of a literal that is digits only: no sign, no fraction, no exponent. -/
def digits (literal : String) : Option ℕ :=
  if literal.toList.all Char.isDigit && !literal.isEmpty then
    some (literal.toList.foldl (fun n c => 10 * n + (c.toNat - 48)) 0)
  else none

/-- An unsigned integer of `bits` bits. -/
def asUnsigned (bits : ℕ) : Json → Option ℕ
  | .num literal => (digits literal).bind fun n => if n < 2 ^ bits then some n else none
  | _ => none

/-- `Value::as_u64`. -/
def asU64 : Json → Option ℕ := asUnsigned 64

/-- A member that must be there, and once. -/
def only (key : String) (members : List (String × Json)) : Option Json :=
  match members.filter fun m => m.1 = key with
  | [m] => some m.2
  | _ => none

def without (key : String) (members : List (String × Json)) : List (String × Json) :=
  members.filter fun m => m.1 ≠ key

/-- A `String` field. -/
def text : Option Json → Option String
  | some (.str s) => some s
  | _ => none

/-- A `bool` field. -/
def flag : Option Json → Option Bool
  | some (.bool b) => some b
  | _ => none

/-- A `u32` field with a default. -/
def limitOr (default : ℕ) : Option Json → Option ℕ
  | none => some default
  | some j => asUnsigned 32 j

def defaultLimit : ℕ := 50
def defaultBackfill : ℕ := 50

/-- The variants of `Request` under their names, in the order they are declared. -/
def variants : List String :=
  ["hello", "status", "login", "logout", "rooms", "messages", "send", "mark_read", "sync_now",
    "load_older", "backup_key", "verify_confirm", "shutdown"]

/-- The variant a tag names, or counts. -/
def variant : Json → Option String
  | .str s => if s ∈ variants then some s else none
  | j => (asU64 j).bind fun n => variants[n]?

def Request.ofMembers (members : List (String × Json)) : Option Request := do
  let tag ← only "cmd" members
  let rest := Json.obj (without "cmd" members)
  match ← variant tag with
  | "hello" =>
    let get ← fields ["token"] rest
    return .hello (← text (get "token"))
  | "status" => return .status
  | "login" =>
    let get ← fields ["homeserver", "user", "password"] rest
    return .login (← text (get "homeserver")) (← text (get "user")) (← text (get "password"))
  | "logout" => return .logout
  | "rooms" => return .rooms
  | "messages" =>
    let get ← fields ["room", "limit"] rest
    return .messages (← text (get "room")) (← limitOr defaultLimit (get "limit"))
  | "send" =>
    let get ← fields ["room", "body"] rest
    return .send (← text (get "room")) (← text (get "body"))
  | "mark_read" =>
    let get ← fields ["room", "event_id"] rest
    return .markRead (← text (get "room")) (← text (get "event_id"))
  | "sync_now" => return .syncNow
  | "load_older" =>
    let get ← fields ["room", "limit"] rest
    return .loadOlder (← text (get "room")) (← limitOr defaultBackfill (get "limit"))
  | "backup_key" =>
    let get ← fields ["key"] rest
    return .backupKey (← text (get "key"))
  | "verify_confirm" =>
    let get ← fields ["transaction", "confirm"] rest
    return .verifyConfirm (← text (get "transaction")) (← flag (get "confirm"))
  | _ => return .shutdown

/-- The rest of the members is buffered before it is read, so every literal must have a value. -/
def Envelope.ofJson : Json → Option Envelope
  | .obj members => do
    guard ((Json.obj members).depth ≤ nestingLimit)
    let id ← asU64 (← only "id" members)
    let rest := without "id" members
    guard (hasValueMembers rest)
    return { id := id, cmd := ← Request.ofMembers rest }
  | _ => none

/-- `serde_json::from_str::<Envelope>`. -/
def envelope (serde : SerdeJson) (line : String) : Except String Envelope :=
  match (serde.parse line).bind Envelope.ofJson with
  | some env => .ok env
  | none => .error (serde.describe line)

/-- The `id` of a line that did not decode, or zero. -/
def recoveredId (serde : SerdeJson) (line : String) : ℕ :=
  ((serde.value line).bind fun v => (v.get "id").bind asU64).getD 0

example : Envelope.ofJson (.obj [("token", .str "t"), ("cmd", .num "0"), ("x", .arr []), ("id", .num "7")])
    = some ⟨7, .hello "t"⟩ := by decide +kernel

example : Envelope.ofJson (.obj [("id", .num "7"), ("cmd", .str "reboot")]) = none := by decide +kernel

/-! ### Responses -/

/-- `json!` of an object: the members go into a map one after the other. -/
def object (members : List (String × Value)) : Value :=
  .obj (members.foldl (fun map m => insertMember m.1 m.2 map) [])

/-- What a handler answers on success. -/
inductive Reply where
  | status (state : State) (backup : Bool) (clockSkewMs : ℤ)
      (session : Option (String × String × String)) (error : Option String)
  | login (userId deviceId : String)
  | rooms (list : Value)
  | messages (room : String) (list : Value)
  | sent (eventId : String)
  | older (added : ℕ) (exhausted : Bool)
  | restored (n : ℕ)
  | done

def Reply.members : Reply → List (String × Value)
  | .status state backup clockSkewMs session error =>
    [("state", .str state.asStr), ("backup", .bool backup), ("clock_skew_ms", .int clockSkewMs)] ++
      (match session with
        | some (userId, deviceId, homeserver) =>
          [("user_id", .str userId), ("device_id", .str deviceId), ("homeserver", .str homeserver)]
        | none => []) ++
      (match error with
        | some e => [("error", .str e)]
        | none => [])
  | .login userId deviceId => [("user_id", .str userId), ("device_id", .str deviceId)]
  | .rooms list => [("rooms", list)]
  | .messages room list => [("room", .str room), ("messages", list)]
  | .sent eventId => [("event_id", .str eventId)]
  | .older added exhausted => [("added", .int added), ("exhausted", .bool exhausted)]
  | .restored n => [("restored", .int n)]
  | .done => []

/-- `json!` of a response that says `"ok": true`. -/
def okWith (id : ℕ) (members : List (String × Value)) : Value :=
  object ([("id", .int id), ("ok", .bool true)] ++ members)

/-- `err`. -/
def err (id : ℕ) (e : String) : Value :=
  object [("id", .int id), ("ok", .bool false), ("error", .str e)]

def helloOk (id : ℕ) : Value := okWith id [("version", .str clientVersion)]

/-- **`dispatch`**, by what the handler of the command came to. -/
def dispatch (answer : Except String Reply) (id : ℕ) : Request → Value
  | .hello _ => helloOk id
  | .shutdown => okWith id [("__shutdown", .bool true)]
  | _ =>
    match answer with
    | .ok reply => okWith id reply.members
    | .error e => err id e

/-- What a command is answered with. -/
theorem dispatch_cases (answer : Except String Reply) (id : ℕ) (cmd : Request) :
    (∃ token, cmd = .hello token ∧ dispatch answer id cmd = helloOk id) ∨
    (cmd = .shutdown ∧ dispatch answer id cmd = okWith id [("__shutdown", .bool true)]) ∨
    (cmd ≠ .shutdown ∧ ∃ e, answer = .error e ∧ dispatch answer id cmd = err id e) ∨
    (cmd ≠ .shutdown ∧ ∃ reply, answer = .ok reply ∧ dispatch answer id cmd = okWith id reply.members) := by
  cases cmd with
  | hello token => exact .inl ⟨token, rfl, rfl⟩
  | shutdown => exact .inr (.inl ⟨rfl, rfl⟩)
  | _ =>
    rcases answer with e | reply
    · exact .inr (.inr (.inl ⟨by simp, e, rfl, rfl⟩))
    · exact .inr (.inr (.inr ⟨by simp, reply, rfl, rfl⟩))

end Kmatrix.Ipc.Protocol
