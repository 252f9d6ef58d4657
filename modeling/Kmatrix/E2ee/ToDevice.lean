import Kmatrix.E2ee.Secrets

/-! # To-device events

`handleToDevice` decrypts the Olm events of a batch, one after the other: room keys are stored, and the
answers to our secret requests are returned. An event that cannot be read, or a write that fails, costs
that event only. -/

namespace Kmatrix.E2ee.ToDevice

open Kmatrix.Lib.Crash Kmatrix.E2ee.Ratchets Kmatrix.E2ee.Json Kmatrix.E2ee.Effects
open Kmatrix.E2ee.Sessions Kmatrix.E2ee.Secrets Kmatrix.Storage.Seal

/-- A to-device event as it comes in. -/
structure ToDeviceEvent where
  kind : String
  sender : String
  content : Value

/-- `ok_or_else(|| anyhow!(e))?`. -/
def orElse {α : Type} (found : Option α) (e : String) : Except String α := found.elim (.error e) .ok

/-! ### Reading -/

section Read
variable (V : Vodozemac) (c : Crypto)

/-- **The Olm message of an event** and the key of its sender; an event under another algorithm has
none. -/
def olmMessage (content : Value) : Except String (Option (String × OlmMessage)) := do
  if content.getStr "algorithm" ≠ some olmAlgorithm then return none
  let senderKey ← orElse (content.getStr "sender_key") "olm event without sender_key"
  let ciphertext ← orElse
    ((content.get "ciphertext").bind fun texts => texts.get c.account.curve25519Key)
    "olm event not addressed to this device"
  let messageType ← orElse ((ciphertext.get "type").bind Value.asU64) "olm ciphertext without type"
  let body ← orElse (ciphertext.getStr "body") "olm ciphertext without body"
  let message ← V.readOlmMessage messageType body
  return some (senderKey, message)

/-- **The room key in an event** that arrived from `senderKey`: the room and the session. One under
another algorithm is ignored. -/
def roomKey (senderKey : String) (event : Value) :
    Except String (Option (String × InboundGroupSession)) := do
  let content ← orElse (event.get "content") "m.room_key without content"
  if content.getStr "algorithm" ≠ some megolmAlgorithm then return none
  if let some e := Crypto.spoofed c "m.room_key" senderKey event then .error e
  if let some recipientKey := (event.get "recipient_keys").bind fun keys => keys.getStr "ed25519" then
    if recipientKey ≠ c.account.ed25519Key then .error "m.room_key was addressed to a different device"
  let roomId ← orElse (content.getStr "room_id") "m.room_key without room_id"
  let sessionKey ← orElse (content.getStr "session_key") "m.room_key without session_key"
  let session ← V.readSessionKey sessionKey
  return some (roomId, session)

end Read

/-- The first session that decrypts the message, and the sessions after it did. -/
def trySessions (m : OlmMessage) : List OlmSession → Option (OlmSession × String × List OlmSession)
  | [] => none
  | s :: sessions =>
    match s.decrypt m with
    | some (s', plaintext) => some (s', plaintext, s' :: sessions)
    | none =>
      (trySessions m sessions).map fun (s', plaintext, sessions') => (s', plaintext, s :: sessions')

theorem decrypt_eq_some {s s' : OlmSession} {m : OlmMessage} {plaintext : String} :
    s.decrypt m = some (s', plaintext) ↔ m.session = s.id ∧ m.index ∉ s.used ∧
      s' = { s with used := m.index :: s.used, preKey := none } ∧ plaintext = m.plaintext := by
  unfold OlmSession.decrypt
  split_ifs with h
  · simp [h, eq_comm]
  · simp only [false_iff]
    exact fun h' => h ⟨h'.1, h'.2.1⟩

/-- No session decrypts. -/
theorem trySessions_none {m : OlmMessage} {sessions : List OlmSession} :
    trySessions m sessions = none ↔ ∀ s ∈ sessions, m.session = s.id → m.index ∈ s.used := by
  induction sessions with
  | nil => simp [trySessions]
  | cons s sessions ih =>
    unfold trySessions
    rcases hs : s.decrypt m with _ | ⟨s', plaintext⟩
    · have hused : m.session = s.id → m.index ∈ s.used := by
        intro hid
        by_contra hnew
        simp [OlmSession.decrypt, hid, hnew] at hs
      simp only [Option.map_eq_none_iff, ih, List.forall_mem_cons]
      exact ⟨fun h => ⟨hused, h⟩, fun h => h.2⟩
    · obtain ⟨hid, hnew, -⟩ := decrypt_eq_some.mp hs
      simp only [List.forall_mem_cons, reduceCtorEq, false_iff]
      exact fun h => hnew (h.1 hid)

/-- The one that does is in the list, and moves on there. -/
theorem trySessions_split {m : OlmMessage} {sessions sessions' : List OlmSession} {s' : OlmSession}
    {plaintext : String} (h : trySessions m sessions = some (s', plaintext, sessions')) :
    ∃ l s r, sessions = l ++ s :: r ∧ sessions' = l ++ s' :: r ∧ s.decrypt m = some (s', plaintext) := by
  induction sessions generalizing sessions' with
  | nil => simp [trySessions] at h
  | cons s sessions ih =>
    unfold trySessions at h
    rcases hs : s.decrypt m with _ | ⟨s₁, text⟩
    · rw [hs] at h
      obtain ⟨⟨s₂, text', sessions₂⟩, htry, heq⟩ := Option.map_eq_some_iff.mp h
      obtain ⟨rfl, rfl, rfl⟩ : s₂ = s' ∧ text' = plaintext ∧ s :: sessions₂ = sessions' := by
        simpa using heq
      obtain ⟨l, s₀, r, rfl, rfl, hdec⟩ := ih htry
      exact ⟨s :: l, s₀, r, rfl, rfl, hdec⟩
    · rw [hs] at h
      obtain ⟨rfl, rfl, rfl⟩ : s₁ = s' ∧ text = plaintext ∧ s₁ :: sessions = sessions' := by
        simpa using h
      exact ⟨[], s, sessions, rfl, rfl, hs⟩

/-! ### Handling -/

section Code
variable {S : CipherSuite} {Q : Type} {R : Q → Type} (V : Vodozemac)

/-- **`decrypt_with_existing`.** The advanced session is written back; a failure is only reported. -/
def decryptWithExisting (senderKey : String) (message : OlmMessage) :
    Code S R Crypto (Option String) := do
  let c ← Act.get
  match trySessions message (c.olmSessions senderKey) with
  | none => return none
  | some (session, plaintext, sessions) =>
    Act.modify fun c => { c with
      olmSessions := Function.update c.olmSessions senderKey sessions }
    let _ ← Act.attempt (putPickle kindOlm session.id senderKey (c.pickle (.olm session)))
    return some plaintext

/-- A pre-key message starts a session, and uses up the one-time key it names. The session is in memory
once it and the account are on disk. -/
def createInboundOlm (senderKey : String) (message : OlmMessage) : Code S R Crypto String := do
  if !V.validKey senderKey then Act.fail "bad sender curve25519 key"
  let c ← Act.get
  match c.account.createInboundSession message with
  | none => Act.fail "create inbound olm session"
  | some (account, session, plaintext) =>
    Act.modify fun c => { c with account }
    putPickle kindOlm session.id senderKey (c.pickle (.olm session))
    persistAccount
    Act.modify fun c => { c with
      olmSessions := Function.update c.olmSessions senderKey (c.olmSessions senderKey ++ [session]) }
    return plaintext

def decryptOlm (senderKey : String) (message : OlmMessage) : Code S R Crypto String := do
  match ← decryptWithExisting senderKey message with
  | some plaintext => return plaintext
  | none =>
    if message.preKey.isSome then createInboundOlm V senderKey message
    else Act.fail ("no olm session for sender key " ++ senderKey ++ " and message is not a pre-key")

/-- A room key is stored, and then held. -/
def storeRoomKey (senderKey : String) (event : Value) : Code S R Crypto Unit := do
  let c ← Act.get
  match ← Act.ofExcept (roomKey V c senderKey event) with
  | none => return ()
  | some (roomId, session) =>
    putPickle kindMegolmIn session.id roomId (c.pickle (.inbound session))
    Act.modify fun c => { c with inbound := Function.update c.inbound session.id (some session) }

/-- **`handle_olm_plaintext`.** Only room keys and secrets are acted on. -/
def handleOlmPlaintext (senderKey plaintext : String) : Code S R Crypto (Option Secret) := do
  let event ← Act.ofExcept (V.readJson plaintext)
  match event.getStr "type" with
  | some "m.room_key" =>
    storeRoomKey V senderKey event
    return none
  | some "m.secret.send" =>
    let c ← Act.get
    Act.ofExcept (Crypto.handleSecretSend c senderKey event)
  | _ => return none

/-- **`handle_olm_event`.** -/
def handleOlmEvent (event : ToDeviceEvent) : Code S R Crypto (Option Secret) := do
  let c ← Act.get
  match ← Act.ofExcept (olmMessage V c event.content) with
  | none => return none
  | some (senderKey, message) =>
    let plaintext ← decryptOlm V senderKey message
    handleOlmPlaintext V senderKey plaintext

/-- One event of a batch: it is dropped where it fails. -/
def handleEvent (event : ToDeviceEvent) : Code S R Crypto (List Secret) := do
  if event.kind ≠ "m.room.encrypted" then return []
  match ← Act.attempt (handleOlmEvent V event) with
  | .ok (some outcome) => return [outcome]
  | _ => return []

/-- **`handle_to_device`.** -/
def handleToDevice (events : List ToDeviceEvent) : Code S R Crypto (List Secret) :=
  Act.collect (handleEvent V) events

/-- A batch is its events, one after the other. -/
theorem handleToDevice_cons (event : ToDeviceEvent) (events : List ToDeviceEvent) :
    (handleToDevice V (event :: events) : Code S R Crypto (List Secret)) = do
      let found ← handleEvent V event
      let more ← handleToDevice V events
      return found ++ more := rfl

end Code

end Kmatrix.E2ee.ToDevice
