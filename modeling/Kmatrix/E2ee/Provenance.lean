import Kmatrix.E2ee.Devices
import Kmatrix.E2ee.Megolm
import Kmatrix.E2ee.ToDevice

/-! # Where a secret came from

A secret should only be returned for an `m.secret.send` over an Olm session with a device of our own
user. What `handle_secret_send` checks is that the event quotes one of our requests, and, where the owner
of the sender key is known, that it names that owner as its sender: an unknown key, or a foreign device
that tells the truth, passes. `proven_of_trusted` is the condition under which every secret of a run is
ours, `not_proven_stranger` a run that is refused nothing. -/

namespace Kmatrix.E2ee.Provenance

open Kmatrix.Lib.Crash Kmatrix.E2ee.Ratchets Kmatrix.E2ee.Json Kmatrix.E2ee.Effects
open Kmatrix.E2ee.Sessions Kmatrix.E2ee.Devices Kmatrix.E2ee.Secrets Kmatrix.E2ee.ToDevice
open Kmatrix.E2ee.Megolm (unserved)
open Kmatrix.Storage Kmatrix.Storage.Seal Kmatrix.Storage.Schema
open Kmatrix.Storage.Write (StoreOp)
open Kmatrix.Sas.Machine (Self DeviceInfo)

/-! ### The statement -/

section Statement
variable (V : Vodozemac) (us : Self) (c : Crypto)

/-- The `m.secret.send` an event carries, if it quotes one of our requests: the key of its sender, the
Olm message, the plaintext and the secret. -/
def quoted (event : ToDeviceEvent) : Option (String × OlmMessage × Value × Secret) := do
  if event.kind ≠ "m.room.encrypted" then none
  let (senderKey, message) ← (olmMessage V c event.content).toOption.join
  let send ← (V.readJson message.plaintext).toOption
  if send.getStr "type" ≠ some "m.secret.send" then none
  let content ← send.get "content"
  let requestId ← content.getStr "request_id"
  let secret ← content.getStr "secret"
  let name ← c.secretRequests requestId
  return (senderKey, message, send, ⟨name, secret, requestId⟩)

/-- A session with the sender decrypts the message, or the message starts one. -/
def opens (senderKey : String) (message : OlmMessage) : Bool :=
  ((c.olmSessions senderKey).any fun s => (s.decrypt message).isSome) ||
    (message.preKey.isSome && V.validKey senderKey && (c.account.createInboundSession message).isSome)

/-- The key is known, from `/keys/query`, to belong to a device of our own user. -/
def owned (senderKey : String) : Bool :=
  (c.knownDevices senderKey).any fun owner => owner.1 = us.userId

/-- **The condition on an event**: a secret that quotes a request of ours, can be decrypted, and does
not belie the known owner of its sender key, is from a device of our own user. -/
def trusted (event : ToDeviceEvent) : Bool :=
  match quoted V c event with
  | none => true
  | some (senderKey, message, send, _) =>
    !opens V c senderKey message || (Crypto.spoofed c "m.secret.send" senderKey send).isSome ||
      owned us c senderKey

end Statement

/-- The calls that fill the known devices, ask for secrets, or handle a to-device event. A batch is its
events one after the other (`handleToDevice_cons`). -/
inductive Call where
  | rememberDevices (keysQuery : Value)
  | createOutboundOlm (claimResponse : Value) (devices : List DeviceInfo)
  | encryptRoomKeyToDevices (room : String) (devices : List DeviceInfo)
  | secretRequest (high low : UInt64) (name : String)
  | toDevice (event : ToDeviceEvent)

section Runs
variable {S : CipherSuite} {Q : Type} {R : Q → Type} (V : Vodozemac) (us : Self)

/-- A call returns the state it found, and the secrets of `handle_to_device`. -/
def Call.code : Call → Crypto → Prog (Effect Q) (Answer S R) ((Crypto × List Secret) × Crypto)
  | .rememberDevices keysQuery, c =>
    .ret ((c, []), Crypto.rememberDevices c (parseDeviceKeys keysQuery))
  | .createOutboundOlm claimResponse devices, c =>
    ((Devices.createOutboundOlm V claimResponse devices).run c).bind fun r => .ret ((c, []), r.2)
  | .encryptRoomKeyToDevices room devices, c =>
    ((Sessions.encryptRoomKeyToDevices V room devices us).run c).bind fun r => .ret ((c, []), r.2)
  | .secretRequest high low name, c =>
    .ret ((c, []), (Crypto.secretRequest c high low us.deviceId name).1)
  | .toDevice event, c =>
    ((handleToDevice V [event]).run c).bind fun r => .ret ((c, (r.1.toOption).getD []), r.2)

/-- The condition on a call. -/
def Trusting (c : Crypto) : Call → Prop
  | .toDevice event => trusted V us c event = true
  | _ => True

instance (c : Crypto) (call : Call) : Decidable (Trusting V us c call) := by
  unfold Trusting
  split <;> infer_instance

/-- **Every secret a call returned** came with an event over a session whose sender key was known to
belong to our own user. -/
def Proven (returned : Call × Crypto × List Secret) : Prop :=
  ∀ secret ∈ returned.2.2, ∃ event senderKey message send, returned.1 = .toDevice event ∧
    quoted V returned.2.1 event = some (senderKey, message, send, secret) ∧
    opens V returned.2.1 senderKey message = true ∧ owned us returned.2.1 senderKey = true

end Runs

/-! ### What an event gets past the checks -/

section Checks
variable {S : CipherSuite} {Q Ω N : Type} {R : Q → Type} {serve : N → Ω → (q : Q) → R q × Ω}
  {V : Vodozemac} {w : World S Ω} {c : Crypto}

theorem trySessions_some {m : OlmMessage} {sessions sessions' : List OlmSession} {s : OlmSession}
    {plaintext : String} (h : trySessions m sessions = some (s, plaintext, sessions')) :
    plaintext = m.plaintext ∧ (sessions.any fun s => (s.decrypt m).isSome) = true := by
  induction sessions generalizing sessions' with
  | nil => simp [trySessions] at h
  | cons s₀ sessions ih =>
    unfold trySessions at h
    rcases hs : s₀.decrypt m with _ | ⟨s₁, p⟩
    · rw [hs] at h
      obtain ⟨⟨s₂, p, rest⟩, hrest, heq⟩ := Option.map_eq_some_iff.mp h
      obtain ⟨rfl, hp⟩ := Prod.mk.inj heq
      obtain ⟨rfl, -⟩ := Prod.mk.inj hp
      obtain ⟨hplain, hany⟩ := ih hrest
      exact ⟨hplain, by simp [hs, hany]⟩
    · rw [hs] at h
      obtain ⟨rfl, hp⟩ := Prod.mk.inj (Option.some.inj h)
      obtain ⟨rfl, -⟩ := Prod.mk.inj hp
      unfold OlmSession.decrypt at hs
      split_ifs at hs with hfits
      obtain ⟨-, rfl⟩ := Prod.mk.inj (Option.some.inj hs)
      refine ⟨rfl, ?_⟩
      simp [OlmSession.decrypt, hfits]

/-- What decrypting leaves alone. -/
def Alike (c c' : Crypto) : Prop :=
  c'.knownDevices = c.knownDevices ∧ c'.secretRequests = c.secretRequests

theorem safe_createInboundOlm {senderKey : String} {message : OlmMessage}
    (hpre : message.preKey.isSome = true) :
    Safe (exec serve) (fun _ => True)
      (fun r _ => Alike c r.2 ∧ ∀ plaintext, r.1 = .ok plaintext →
        plaintext = message.plaintext ∧ opens V c senderKey message = true)
      ((createInboundOlm V senderKey message : Code S R Crypto String).run c) w := by
  have hfail : ∀ (c' : Crypto) (e : String), Alike c c' → Alike c c' ∧ ∀ plaintext,
      (.error e : Except String String) = .ok plaintext →
        plaintext = message.plaintext ∧ opens V c senderKey message = true :=
    fun c' e h => ⟨h, fun p hp => by simp at hp⟩
  unfold createInboundOlm
  dsimp only
  split_ifs with hvalid
  · exact hfail c _ ⟨rfl, rfl⟩
  · rw [Act.safe_bind, Act.safe_get, Act.then_ok]
    rcases hcreate : c.account.createInboundSession message with _ | ⟨account, session, plaintext⟩
    · exact hfail c _ ⟨rfl, rfl⟩
    · have hplain : plaintext = message.plaintext := by
        unfold Account.createInboundSession at hcreate
        split at hcreate
        · simp at hcreate
        · split_ifs at hcreate
          simp only [Option.some.injEq, Prod.mk.injEq] at hcreate
          exact hcreate.2.2.symm
      have hopens : opens V c senderKey message = true := by
        simp only [Bool.not_eq_true', Bool.not_eq_false] at hvalid
        simp [opens, hpre, hvalid, hcreate]
      dsimp only
      simp only [Act.safe_bind, Act.safe_modify, Act.then_ok]
      refine safe_put trivial (fun e => hfail _ e ⟨rfl, rfl⟩) fun rng => ?_
      unfold persistAccount
      simp only [Act.then_ok, Act.safe_bind, Act.safe_get]
      refine safe_put trivial (fun e => hfail _ e ⟨rfl, rfl⟩) fun rng' => ?_
      refine ⟨⟨rfl, rfl⟩, fun p hp => ?_⟩
      rw [← Except.ok.inj hp]
      exact ⟨hplain, hopens⟩

/-- **Decrypting** needs a session with the sender, or a one-time key of ours. -/
theorem safe_decryptOlm (senderKey : String) (message : OlmMessage) :
    Safe (exec serve) (fun _ => True)
      (fun r _ => Alike c r.2 ∧ ∀ plaintext, r.1 = .ok plaintext →
        plaintext = message.plaintext ∧ opens V c senderKey message = true)
      ((decryptOlm V senderKey message : Code S R Crypto String).run c) w := by
  unfold decryptOlm decryptWithExisting
  simp only [Act.safe_bind, Act.safe_get, Act.then_ok]
  rcases htry : trySessions message (c.olmSessions senderKey) with _ | ⟨session, plaintext, sessions⟩
  · rw [Act.safe_pure, Act.then_ok]
    split_ifs with hpre
    · exact safe_createInboundOlm hpre
    · exact ⟨⟨rfl, rfl⟩, fun p hp => by simp at hp⟩
  · obtain ⟨hplain, hany⟩ := trySessions_some htry
    simp only [Act.safe_bind, Act.safe_modify, Act.then_ok, Act.safe_attempt]
    have hdone : ∀ p, (.ok plaintext : Except String String) = .ok p →
        p = message.plaintext ∧ opens V c senderKey message = true := by
      intro p hp
      rw [← Except.ok.inj hp]
      exact ⟨hplain, by simp [opens, hany]⟩
    exact safe_put trivial (fun e => ⟨⟨rfl, rfl⟩, hdone⟩) fun rng => ⟨⟨rfl, rfl⟩, hdone⟩

theorem handleSecretSend_some {senderKey : String} {send : Value} {secret : Secret}
    (h : Crypto.handleSecretSend c senderKey send = .ok (some secret)) :
    ∃ content, send.get "content" = some content ∧
      content.getStr "request_id" = some secret.requestId ∧
      content.getStr "secret" = some secret.secret ∧
      c.secretRequests secret.requestId = some secret.name ∧
      Crypto.spoofed c "m.secret.send" senderKey send = none := by
  unfold Crypto.handleSecretSend at h
  rcases hcontent : send.get "content" with _ | content
  · simp [hcontent, bind, Except.bind] at h
  · rcases hid : content.getStr "request_id" with _ | requestId
    · simp [hcontent, hid, bind, Except.bind] at h
    · rcases hsecret : content.getStr "secret" with _ | text
      · simp [hcontent, hid, hsecret, bind, Except.bind] at h
      · rcases hname : c.secretRequests requestId with _ | name
        · simp [hcontent, hid, hsecret, hname, bind, Except.bind, pure, Except.pure] at h
        · rcases hspoof : Crypto.spoofed c "m.secret.send" senderKey send with _ | e
          · simp [hcontent, hid, hsecret, hname, hspoof, bind, Except.bind, pure, Except.pure] at h
            subst h
            exact ⟨content, rfl, hid, hsecret, hname, rfl⟩
          · simp [hcontent, hid, hsecret, hname, hspoof, bind, Except.bind] at h

/-- **What `handle_olm_event` returns** was quoted, decrypted and not belied. -/
theorem safe_handleOlmEvent {event : ToDeviceEvent} (hkind : event.kind = "m.room.encrypted") :
    Safe (exec serve) (fun _ => True)
      (fun r _ => ∀ secret, r.1 = .ok (some secret) → ∃ senderKey message send,
        quoted V c event = some (senderKey, message, send, secret) ∧
        opens V c senderKey message = true ∧
        Crypto.spoofed c "m.secret.send" senderKey send = none)
      ((handleOlmEvent V event : Code S R Crypto (Option Secret)).run c) w := by
  unfold handleOlmEvent
  simp only [Act.safe_bind, Act.safe_get, Act.then_ok, Act.safe_ofExcept]
  rcases hread : olmMessage V c event.content with e | _ | ⟨senderKey, message⟩
  · exact fun secret h => by simp at h
  · exact fun secret h => by simp at h
  · simp only [Act.then_ok, Act.safe_bind]
    refine (safe_decryptOlm senderKey message).mono ?_
    rintro ⟨e | plaintext, c'⟩ w' ⟨⟨hknown, hrequests⟩, hplain⟩
    · exact fun secret h => by simp at h
    · obtain ⟨rfl, hopens⟩ := hplain plaintext rfl
      unfold handleOlmPlaintext
      simp only [Act.then_ok, Act.safe_bind, Act.safe_ofExcept]
      rcases hjson : V.readJson message.plaintext with e | send
      · exact fun secret h => by simp at h
      · rw [Act.then_ok]
        split
        · -- a room key is no secret
          unfold storeRoomKey
          simp only [Act.safe_bind, Act.safe_get, Act.then_ok, Act.safe_ofExcept]
          rcases roomKey V c' senderKey send with e | _ | ⟨roomId, session⟩
          · exact fun secret h => by simp at h
          · exact fun secret h => by simp at h
          · simp only [Act.then_ok, Act.safe_bind]
            refine safe_put trivial (fun e secret h => by simp at h) fun rng => ?_
            exact fun secret h => by simp at h
        · next htype =>
          simp only [Act.safe_bind, Act.safe_get, Act.then_ok, Act.safe_ofExcept]
          intro secret h
          obtain ⟨content, hcontent, hid, hsecret, hname, hspoof⟩ := handleSecretSend_some h
          rw [hrequests] at hname
          unfold Crypto.spoofed at hspoof
          rw [hknown] at hspoof
          refine ⟨senderKey, message, send, ?_, hopens, hspoof⟩
          simp [quoted, hkind, hread, hjson, htype, hcontent, hid, hsecret, hname, Except.toOption]
        · exact fun secret h => by simp at h

end Checks

section Proof
variable {S : CipherSuite} {Q Ω N : Type} {R : Q → Type} (serve : N → Ω → (q : Q) → R q × Ω)
  (V : Vodozemac) (us : Self)

/-- The daemon before its first start, over a database. -/
def cold (st : Store S) (server : Ω) :
    Process (World S Ω) Crypto Call (Crypto × List Secret) := ⟨⟨st, 0, server⟩, none, []⟩

/-- **Secrets are ours** in every run in which each event meets the condition, whatever fails and
wherever the process is killed. -/
theorem proven_of_trusted (st : Store S) (server : Ω) (events : List (Event Call (Outcome N)))
    (h : Process.Meets (exec (R := R) serve) (boot V) (Call.code V us) (Trusting V us)
      (cold st server) events) :
    ∀ returned ∈ (Process.runs (exec (R := R) serve) (boot V) (Call.code V us) (cold st server)
      events).returned, Proven V us returned := by
  refine Process.returned_of_meets ?_ (by simp [cold]) h
  intro c w call hcall
  have hnone : Proven V us (call, c, []) := fun secret h => by simp at h
  rcases call with keysQuery | ⟨claimResponse, devices⟩ | ⟨room, devices⟩ | ⟨high, low, name⟩ | event
  · exact hnone
  · exact safe_bind.mpr (Safe.of_forall (fun _ => trivial) fun _ _ => hnone)
  · exact safe_bind.mpr (Safe.of_forall (fun _ => trivial) fun _ _ => hnone)
  · exact hnone
  · have htrusted : trusted V us c event = true := hcall
    unfold Call.code handleToDevice Act.collect handleEvent
    dsimp only
    rw [safe_bind, Act.safe_bind]
    split_ifs with hkind
    · exact hnone
    · rw [not_not] at hkind
      rw [Act.safe_bind, Act.safe_attempt]
      refine (safe_handleOlmEvent hkind).mono ?_
      rintro ⟨e | _ | secret, c'⟩ w' h'
      · exact hnone
      · exact hnone
      · obtain ⟨senderKey, message, send, hquoted, hopens, hspoof⟩ := h' secret rfl
        intro s hs
        obtain rfl : s = secret := List.mem_singleton.mp hs
        refine ⟨event, senderKey, message, send, rfl, hquoted, hopens, ?_⟩
        unfold trusted at htrusted
        rw [hquoted] at htrusted
        simpa [hopens, hspoof] using htrusted

/-- A call that returned a secret over a session nobody of ours is known to hold. -/
def disowned (returned : Call × Crypto × List Secret) : Bool :=
  match returned.1 with
  | .toDevice event => !returned.2.2.isEmpty &&
      (quoted V returned.2.1 event).all fun found => !owned us returned.2.1 found.1
  | _ => false

variable {V us}

theorem not_proven_of_disowned {returned : Call × Crypto × List Secret}
    (h : disowned V us returned = true) : ¬ Proven V us returned := by
  intro hproven
  obtain ⟨call, c, secrets⟩ := returned
  unfold disowned at h
  split at h
  · next event hcall =>
    rw [Bool.and_eq_true, Bool.not_eq_true', List.isEmpty_eq_false_iff_exists_mem] at h
    obtain ⟨⟨secret, hsecret⟩, hall⟩ := h
    obtain ⟨event', senderKey, message, send, hcall', hquoted, -, howned⟩ := hproven secret hsecret
    obtain rfl : event = event' := Call.toDevice.inj (hcall.symm.trans hcall')
    rw [hquoted] at hall
    simp [howned] at hall
  · simp at h

end Proof

/-! ### Runs -/

/-- A device that has sent us an Olm message before. -/
def peerStore : Store copySuite :=
  (StoreOp.putPickle kindOlm "s" "peer" ⟨keyText zeroKey, .olm ⟨"s", [], 0, none⟩⟩).exec
    (fun _ => zeroSalt) blankStore

/-- The id of the request of the runs below. -/
def requestId : String := hex16 1 ++ hex16 2

/-- An `m.secret.send` that names no sender. -/
def secretSend : Value :=
  .obj [("content", .obj [("request_id", .str requestId), ("secret", .str "key")]),
    ("type", .str "m.secret.send")]

/-- It arrives over the session with the peer. -/
def secretEvent : ToDeviceEvent :=
  ⟨"m.room.encrypted", "@peer",
    .obj [("algorithm", .str olmAlgorithm),
      ("ciphertext", .obj [("our curve", .obj [("body", .str "body"), ("type", .int 1)])]),
      ("sender_key", .str "peer")]⟩

def peerVodozemac (send : Value) : Vodozemac :=
  plainVodozemac [("send", send)] [("body", ⟨"s", 0, none, "send"⟩)]

def us : Self := ⟨"@us", "DEVICE"⟩

/-- After a start, a secret is asked for, and answered over a session with a key nobody knows. -/
def strangerRun : List (Event Call (Outcome Unit)) :=
  [.boot (List.replicate 10 (calm ())), .call (.secretRequest 1 2 megolmBackupSecret) [],
    .call (.toDevice secretEvent) [calm ()]]

theorem not_proven_stranger :
    ¬ ∀ returned ∈ (Process.runs (exec unserved) (boot (peerVodozemac secretSend))
      (Call.code (peerVodozemac secretSend) us) (cold peerStore ()) strangerRun).returned,
      Proven (peerVodozemac secretSend) us returned := by
  intro h
  have hany : (Process.runs (exec unserved) (boot (peerVodozemac secretSend))
      (Call.code (peerVodozemac secretSend) us) (cold peerStore ()) strangerRun).returned.any
      (disowned (peerVodozemac secretSend) us) = true := by decide +kernel
  obtain ⟨returned, hmem, hdisowned⟩ := List.any_eq_true.mp hany
  exact not_proven_of_disowned hdisowned (h returned hmem)

/-- What `/keys/query` says of our other device. -/
def ourDevices : Value :=
  .obj [("device_keys", .obj [("@us", .obj [("PEER", .obj [("keys",
    .obj [("curve25519:PEER", .str "peer"), ("ed25519:PEER", .str "peer ed")])])])])]

/-- The same from our own device, whose keys were queried. -/
def ownRun : List (Event Call (Outcome Unit)) :=
  [.boot (List.replicate 10 (calm ())), .call (.rememberDevices ourDevices) [],
    .call (.secretRequest 1 2 megolmBackupSecret) [], .call (.toDevice secretEvent) [calm ()]]

/-- The answer names its sender. -/
def ownSend : Value :=
  .obj [("content", .obj [("request_id", .str requestId), ("secret", .str "key")]),
    ("sender", .str "@us"), ("type", .str "m.secret.send")]

theorem proven_of_trusted_own :
    ((Process.runs (exec unserved) (boot (peerVodozemac ownSend))
      (Call.code (peerVodozemac ownSend) us) (cold peerStore ()) ownRun).returned.map
      fun returned => returned.2.2.length) = [0, 0, 1] ∧
    ∀ returned ∈ (Process.runs (exec unserved) (boot (peerVodozemac ownSend))
      (Call.code (peerVodozemac ownSend) us) (cold peerStore ()) ownRun).returned,
      Proven (peerVodozemac ownSend) us returned :=
  ⟨by decide +kernel, proven_of_trusted _ _ _ _ _ _ (by decide +kernel)⟩

end Kmatrix.E2ee.Provenance
