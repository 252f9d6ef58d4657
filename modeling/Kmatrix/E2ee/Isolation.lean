import Kmatrix.E2ee.Redelivery

/-! # Events that are dropped

Anyone can send a device to-device events. One that `handle_olm_event` rejects before it decrypts
anything, and one that no session decrypts and that starts none, does no effect and leaves the memory as
it is (`handleEvent_dropped`); so a batch with such events anywhere in it is handled like the batch
without them (`handleToDevice_padded`). That a failed decryption changes no session, and a failed creation
no account, is what `OlmSession.decrypt` and `Account.createInboundSession` say of the crypto library. -/

namespace Kmatrix.E2ee.Isolation

open Kmatrix.Lib.Crash Kmatrix.E2ee.Ratchets Kmatrix.E2ee.Json Kmatrix.E2ee.Effects
open Kmatrix.E2ee.Sessions Kmatrix.E2ee.ToDevice
open Kmatrix.E2ee.Megolm (unserved)
open Kmatrix.Storage.Seal

section Dropped
variable (V : Vodozemac) (c : Crypto)

/-- **Decryption fails**: no session with the sender decrypts the message, and it starts none. -/
def Undecryptable (senderKey : String) (m : OlmMessage) : Prop :=
  trySessions m (c.olmSessions senderKey) = none ∧
    (V.validKey senderKey = false ∨ c.account.createInboundSession m = none)

instance (senderKey : String) (m : OlmMessage) : Decidable (Undecryptable V c senderKey m) := by
  unfold Undecryptable
  infer_instance

/-- **The event is dropped**: it is no Olm event, it is rejected before anything is decrypted, or
decryption fails. -/
def Dropped (event : ToDeviceEvent) : Prop :=
  event.kind = "m.room.encrypted" → match olmMessage V c event.content with
    | .ok (some (senderKey, m)) => Undecryptable V c senderKey m
    | _ => True

instance (event : ToDeviceEvent) : Decidable (Dropped V c event) := by
  unfold Dropped
  rcases olmMessage V c event.content with e | _ | ⟨senderKey, m⟩
  · infer_instance
  · infer_instance
  · infer_instance

end Dropped

section Code
variable {S : CipherSuite} {Q : Type} {R : Q → Type} {V : Vodozemac} {c : Crypto}

/-- The sender is told nothing, and nothing happened. -/
theorem decryptOlm_undecryptable {senderKey : String} {m : OlmMessage} (h : Undecryptable V c senderKey m) :
    ∃ e, (decryptOlm V senderKey m : Code S R Crypto String).run c = .ret (.error e, c) := by
  obtain ⟨htry, hcreate⟩ := h
  have hexisting : (decryptWithExisting senderKey m : Code S R Crypto (Option String)).run c =
      .ret (.ok none, c) := by
    unfold decryptWithExisting
    rw [Act.run_get_bind, htry]
    rfl
  have hcode : (decryptOlm V senderKey m : Code S R Crypto String).run c =
      (if m.preKey.isSome then createInboundOlm V senderKey m
        else Act.fail ("no olm session for sender key " ++ senderKey ++ " and message is not a pre-key") :
          Code S R Crypto String).run c := Act.run_bind_ret hexisting
  rw [hcode]
  split_ifs
  · unfold createInboundOlm
    rcases hkey : V.validKey senderKey with _ | _
    · exact ⟨"bad sender curve25519 key", rfl⟩
    · have hnone : c.account.createInboundSession m = none := by
        rcases hcreate with h | h
        · rw [hkey] at h
          cases h
        · exact h
      refine ⟨"create inbound olm session", ?_⟩
      show (Act.get >>= _ : Code S R Crypto String).run c = _
      rw [Act.run_get_bind, hnone]
      rfl
  · exact ⟨_, rfl⟩

/-- **A dropped event does no effect**, and leaves the memory as it is. -/
theorem handleEvent_dropped {event : ToDeviceEvent} (h : Dropped V c event) :
    (handleEvent V event : Code S R Crypto (List Secrets.Secret)).run c = .ret (.ok [], c) := by
  unfold handleEvent
  split_ifs with hkind
  · rfl
  · have h := h (not_not.mp hkind)
    suffices hevent : ∃ r, (∀ secret, r ≠ .ok (some secret)) ∧
        (handleOlmEvent V event : Code S R Crypto (Option Secrets.Secret)).run c = .ret (r, c) by
      obtain ⟨r, hr, hrun⟩ := hevent
      show (((handleOlmEvent V event : Code S R Crypto (Option Secrets.Secret)).run c).bind _).bind _ = _
      rw [hrun]
      rcases r with e | _ | secret
      · rfl
      · rfl
      · exact absurd rfl (hr secret)
    unfold handleOlmEvent
    rw [Act.run_get_bind, Act.run_ofExcept_bind]
    rcases hread : olmMessage V c event.content with e | _ | ⟨senderKey, m⟩
    · exact ⟨.error e, by simp, rfl⟩
    · exact ⟨.ok none, by simp, rfl⟩
    · rw [hread] at h
      obtain ⟨e, he⟩ := decryptOlm_undecryptable (S := S) (R := R) h
      exact ⟨.error e, by simp, Act.run_bind_ret he⟩

/-- **A batch with dropped events in it**, marked by `true`, is handled like the batch without them: the
secrets, the memory and the disk are the same, whatever fails and wherever the process is killed. -/
theorem handleToDevice_padded {Ω N : Type} {exec : Outcome N → World S Ω → (e : Effect Q) →
      Answer S R e × World S Ω} {w : World S Ω} {os : List (Outcome N)} {batch : List (Bool × ToDeviceEvent)}
    (h : Act.Padded exec (Dropped V) (handleEvent V) c w os batch) :
    run exec ((handleToDevice V (batch.map Prod.snd)).run c) w os =
      run exec ((handleToDevice V (Act.unpadded batch)).run c) w os :=
  Act.run_padded (f := handleEvent V) (fun _ _ => handleEvent_dropped) h

end Code

/-! ### A batch with noise -/

/-- A room key, between an event that is no Olm message and a copy of itself. -/
def noisyBatch : List (Bool × ToDeviceEvent) :=
  [(true, ⟨"m.room.encrypted", "@stranger", .obj [("algorithm", .str olmAlgorithm)]⟩),
    (false, Redelivery.roomKeyEvent), (true, Redelivery.roomKeyEvent)]

theorem handleToDevice_noisyBatch :
    run (exec unserved) ((handleToDevice (R := fun _ : Empty => Unit) Redelivery.peerVodozemac
        (noisyBatch.map Prod.snd)).run Redelivery.offeredCrypto) ⟨Redelivery.offeredStore, 0, ()⟩
        (List.replicate 3 (calm ())) =
      run (exec unserved) ((handleToDevice Redelivery.peerVodozemac
        (Act.unpadded noisyBatch)).run Redelivery.offeredCrypto) ⟨Redelivery.offeredStore, 0, ()⟩
        (List.replicate 3 (calm ())) :=
  handleToDevice_padded (by decide +kernel)

end Kmatrix.E2ee.Isolation
