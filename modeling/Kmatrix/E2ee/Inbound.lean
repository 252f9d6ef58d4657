import Kmatrix.E2ee.ToDevice

/-! # Inbound sessions

Inbound Megolm sessions come from room keys (`ToDevice.storeRoomKey`), from our own outbound sessions
(`Sessions.getOrCreateOutbound`) and from the server's backup (`importBackupSession`). All three file
them under the session id, and `Crypto.decrypt` looks them up by it. -/

namespace Kmatrix.E2ee.Inbound

open Kmatrix.Lib.Crash Kmatrix.E2ee.Ratchets Kmatrix.E2ee.Json Kmatrix.E2ee.Effects
open Kmatrix.E2ee.Sessions Kmatrix.E2ee.Secrets Kmatrix.E2ee.ToDevice Kmatrix.Storage.Seal

/-- **What `vodozemac` reads** of a backup and of a timeline. -/
structure Archive where
  /-- `PkMessage::from_base64` and `PkDecryption::decrypt`: of a ciphertext, mac and ephemeral key. -/
  openSessionData : Key → String → String → String → Except String String
  /-- `ExportedSessionKey::from_base64` and `InboundGroupSession::import`. -/
  readExportedKey : String → Except String InboundGroupSession
  /-- `MegolmMessage::from_base64`. -/
  readMegolmMessage : String → Except String MegolmMessage

/-- An archive for evaluating examples: a ciphertext is what it decrypts to, and a session key stands for
a session that starts at the given index. -/
def plainArchive (index : String → ℕ) (messages : List (String × MegolmMessage)) : Archive where
  openSessionData _ ciphertext _ _ := .ok ciphertext
  readExportedKey text := .ok ⟨text, index text⟩
  readMegolmMessage text :=
    ((messages.find? fun t => t.1 = text).map Prod.snd).elim (.error "decode") .ok

/-! ### Decrypting -/

/-- **`decrypt`**: with the session held under the id. -/
def Crypto.decrypt (A : Archive) (c : Crypto) (sessionId ciphertext : String) :
    Except String String := do
  let session ← orElse (c.inbound sessionId) ("unknown session " ++ sessionId)
  let message ← A.readMegolmMessage ciphertext
  orElse (session.decrypt message) "megolm decrypt"

theorem Crypto.decrypt_ok {A : Archive} {c : Crypto} {sessionId ciphertext text : String} :
    Crypto.decrypt A c sessionId ciphertext = .ok text ↔ ∃ session message,
      c.inbound sessionId = some session ∧ A.readMegolmMessage ciphertext = .ok message ∧
        session.decrypt message = some text := by
  unfold Crypto.decrypt
  rcases hs : c.inbound sessionId with _ | session
  · simp [orElse, bind, Except.bind]
  · rcases hm : A.readMegolmMessage ciphertext with e | message
    · simp [orElse, bind, Except.bind]
    · rcases hd : session.decrypt message with _ | text'
      · simp [orElse, bind, Except.bind, hd]
      · simp [orElse, bind, Except.bind, hd]

/-! ### The backup -/

/-- We hold the session, from this index or an earlier one. -/
def Crypto.holdsFrom (c : Crypto) (sessionId : String) (index : ℕ) : Bool :=
  (c.inbound sessionId).any fun existing => existing.firstKnownIndex ≤ index

/-- `trim_end_matches('=')`. -/
def trimPadding (s : String) : String := String.ofList (trimEnd (fun c => c = '=') s.toList)

/-- One part of the session data. -/
def sessionDataPart (sessionId : String) (data : Value) (name : String) : Except String String :=
  match data.getStr name with
  | some s => .ok (trimPadding s)
  | none => .error ("backup session_data for " ++ sessionId ++ " has no " ++ name)

section Import
variable {S : CipherSuite} {Q : Type} {R : Q → Type} (V : Vodozemac) (A : Archive)

/-- **The session in a backup entry**; one under another algorithm is of no use. -/
def openEntry (c : Crypto) (sessionId : String) (entry : Value) :
    Except String (Option InboundGroupSession) := do
  let backupKey ← orElse c.backupKey "no backup recovery key has been entered"
  let data ← orElse (entry.get "session_data")
    ("backup entry for " ++ sessionId ++ " has no session_data")
  let ciphertext ← sessionDataPart sessionId data "ciphertext"
  let mac ← sessionDataPart sessionId data "mac"
  let ephemeral ← sessionDataPart sessionId data "ephemeral"
  let plaintext ← A.openSessionData backupKey ciphertext mac ephemeral
  let decoded ← V.readJson plaintext
  if decoded.getStr "algorithm" ≠ some megolmAlgorithm then return none
  let sessionKey ← orElse (decoded.getStr "session_key")
    ("backed up session " ++ sessionId ++ " has no session_key")
  let session ← A.readExportedKey (trimPadding sessionKey)
  return some session

/-- **`import_backup_session`.** The index an entry advertises is a hint; the ratchet itself decides. -/
def importBackupSession (room sessionId : String) (entry : Value) : Code S R Crypto Bool := do
  let c ← Act.get
  let firstMessageIndex := ((entry.get "first_message_index").bind Value.asU64).getD 0
  if Crypto.holdsFrom c sessionId firstMessageIndex then return false
  match ← Act.ofExcept (openEntry V A c sessionId entry) with
  | none => return false
  | some session =>
    if session.id ≠ sessionId then
      Act.fail ("backup entry filed under " ++ sessionId ++ " actually holds session " ++ session.id)
    else if Crypto.holdsFrom c session.id session.firstKnownIndex then return false
    else
      putPickle kindMegolmIn session.id room (c.pickle (.inbound session))
      Act.modify fun c => { c with inbound := Function.update c.inbound session.id (some session) }
      return true

end Import

end Kmatrix.E2ee.Inbound
