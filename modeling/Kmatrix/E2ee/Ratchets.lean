import Mathlib.Data.List.Basic
import Mathlib.Tactic.Common

/-! # Accounts, sessions and pickles

The key material the crypto library holds for the daemon, idealised: a session is known by its id
and its position, a ciphertext by the session and position it was made at.

* `Account`: the identity keys and the one-time keys whose private halves are held, oldest first.
  `generateOneTimeKeys` discards the oldest when more than `limit` are held.
* `OlmSession`: decrypts each message once (`used` are the positions consumed).
* `GroupSession`, `InboundGroupSession`: the sending and the receiving half of a Megolm session.
* `Pickle`: one of these four encrypted under the pickle key. -/

namespace Kmatrix.E2ee.Ratchets

/-- A one-time key whose private half is held. -/
structure OneTimeKey where
  id : ℕ
  key : String
  published : Bool
  deriving DecidableEq, Repr

/-- The Olm account. -/
structure Account where
  curve25519Key : String
  ed25519Key : String
  nextKeyId : ℕ
  oneTimeKeys : List OneTimeKey
  deriving DecidableEq, Repr

/-- An Olm message: the session and position it was made at, for a pre-key message the one-time key
it names, and what it decrypts to. -/
structure OlmMessage where
  session : String
  index : ℕ
  preKey : Option String
  plaintext : String
  deriving DecidableEq, Repr

/-- An Olm session: the message positions it has already decrypted, how many it has sent, and, until
the other side has answered, the one-time key its messages have to name. -/
structure OlmSession where
  id : String
  used : List ℕ
  sent : ℕ
  preKey : Option String
  deriving DecidableEq, Repr

/-- The sending half of a Megolm session, about to encrypt at `index`. -/
structure GroupSession where
  id : String
  index : ℕ
  deriving DecidableEq, Repr

/-- The receiving half, able to decrypt from `firstKnownIndex` on. -/
structure InboundGroupSession where
  id : String
  firstKnownIndex : ℕ
  deriving DecidableEq, Repr

/-- A room message: the session and position it was made at, and what it decrypts to. -/
structure MegolmMessage where
  session : String
  index : ℕ
  plaintext : String
  deriving DecidableEq, Repr

/-- What a pickle holds. -/
inductive Pickled where
  | account (a : Account)
  | olm (s : OlmSession)
  | inbound (s : InboundGroupSession)
  | outbound (s : GroupSession)
  deriving DecidableEq, Repr

/-- A pickle encrypted under a pickle key. -/
structure Pickle where
  pickleKey : String
  content : Pickled
  deriving DecidableEq, Repr

/-- `from_encrypted`: opens under the key it was encrypted with. -/
def Pickle.fromEncrypted (p : Pickle) (pickleKey : String) : Option Pickled :=
  if p.pickleKey = pickleKey then some p.content else none

namespace Pickled

def account? : Pickled → Option Account
  | .account a => some a
  | _ => none

def olm? : Pickled → Option OlmSession
  | .olm s => some s
  | _ => none

def inbound? : Pickled → Option InboundGroupSession
  | .inbound s => some s
  | _ => none

def outbound? : Pickled → Option GroupSession
  | .outbound s => some s
  | _ => none

end Pickled

namespace Account

/-- The keys the server has not been told about. -/
def unpublished (a : Account) : List OneTimeKey := a.oneTimeKeys.filter fun k => !k.published

/-- Holds the private half of the one-time key `key`. -/
def Holds (a : Account) (key : String) : Prop := ∃ k ∈ a.oneTimeKeys, k.key = key

instance (a : Account) (key : String) : Decidable (a.Holds key) := by
  unfold Holds; infer_instance

/-- One new key: at the limit the oldest is discarded. -/
def generateOne (limit : ℕ) (a : Account) (key : String) : Account :=
  let kept := if limit ≤ a.oneTimeKeys.length then a.oneTimeKeys.tail else a.oneTimeKeys
  { a with
    nextKeyId := a.nextKeyId + 1
    oneTimeKeys := kept ++ [⟨a.nextKeyId, key, false⟩] }

/-- `generate_one_time_keys`: the fresh public halves are given. -/
def generateOneTimeKeys (limit : ℕ) (a : Account) (keys : List String) : Account :=
  keys.foldl (generateOne limit) a

/-- `mark_keys_as_published`. -/
def markKeysAsPublished (a : Account) : Account :=
  { a with oneTimeKeys := a.oneTimeKeys.map fun k => { k with published := true } }

/-- The one-time key a pre-key message used is forgotten. -/
def removeOneTimeKey (a : Account) (key : String) : Account :=
  { a with oneTimeKeys := a.oneTimeKeys.filter fun k => k.key ≠ key }

/-- `create_inbound_session`: the one-time key must be held, and is used up. -/
def createInboundSession (a : Account) (m : OlmMessage) :
    Option (Account × OlmSession × String) :=
  match m.preKey with
  | none => none
  | some key =>
    if a.Holds key then
      some (a.removeOneTimeKey key, ⟨m.session, [m.index], 0, none⟩, m.plaintext)
    else none

end Account

/-- `Session::decrypt`: a message of this session, not decrypted before. -/
def OlmSession.decrypt (s : OlmSession) (m : OlmMessage) : Option (OlmSession × String) :=
  if m.session = s.id ∧ m.index ∉ s.used then
    some ({ s with used := m.index :: s.used, preKey := none }, m.plaintext)
  else none

/-- `Session::encrypt`. -/
def OlmSession.encrypt (s : OlmSession) (plaintext : String) : OlmSession × OlmMessage :=
  ({ s with sent := s.sent + 1 }, ⟨s.id, s.sent, s.preKey, plaintext⟩)

/-- The number that says whether a message is a pre-key message. -/
def OlmMessage.messageType (m : OlmMessage) : ℕ := if m.preKey.isSome then 0 else 1

/-- `GroupSession::encrypt`: the ratchet moves on. -/
def GroupSession.encrypt (s : GroupSession) (plaintext : String) : GroupSession × MegolmMessage :=
  ({ s with index := s.index + 1 }, ⟨s.id, s.index, plaintext⟩)

/-- `InboundGroupSession::from`. -/
def InboundGroupSession.ofGroupSession (s : GroupSession) : InboundGroupSession := ⟨s.id, s.index⟩

/-- `InboundGroupSession::decrypt`: a message of this session, from the first known index on. -/
def InboundGroupSession.decrypt (s : InboundGroupSession) (m : MegolmMessage) : Option String :=
  if m.session = s.id ∧ s.firstKnownIndex ≤ m.index then some m.plaintext else none

end Kmatrix.E2ee.Ratchets
