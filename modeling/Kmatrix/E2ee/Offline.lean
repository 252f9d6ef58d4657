import Kmatrix.E2ee.Devices
import Kmatrix.E2ee.Megolm

/-! # Code that asks nobody

Sections of the encryption layer run under the lock and make no request, so the server stays as it is
(`Only.server`); and sessions with devices are no matter of the outbound sessions of rooms. -/

namespace Kmatrix.E2ee.Offline

open Kmatrix.Lib.Crash Kmatrix.E2ee.Ratchets Kmatrix.E2ee.Json Kmatrix.E2ee.Effects
open Kmatrix.E2ee.Sessions Kmatrix.E2ee.Devices Kmatrix.E2ee.Megolm
open Kmatrix.Storage Kmatrix.Storage.Seal Kmatrix.Storage.Schema
open Kmatrix.Sas.Machine (Self DeviceInfo)

/-- The effect is no request. -/
def Silent {Q : Type} : Effect Q → Prop
  | .ask _ => False
  | _ => True

section Server
variable {S : CipherSuite} {Q Ω N : Type} {R : Q → Type} {serve : N → Ω → (q : Q) → R q × Ω}

theorem exec_server {e : Effect Q} (he : Silent e) (o : Outcome N) (w : World S Ω) :
    (exec serve o w e).2.server = w.server := by
  unfold exec
  rcases e with _ | op | count | q
  · dsimp only
    rcases o.fault with _ | e
    · rfl
    · rfl
  · dsimp only
    rcases o.fault with _ | e
    · rfl
    · rfl
  · rfl
  · exact absurd he id

/-- **Where nobody is asked, the server stays as it is.** -/
theorem server_of_only {α : Type} {p : Prog (Effect Q) (Answer S R) α} (h : Only Silent p)
    (w : World S Ω) : Safe (exec serve) (fun w' => w'.server = w.server) (fun _ w' => w'.server = w.server)
      p w := by
  suffices hgen : ∀ w' : World S Ω, w'.server = w.server →
      Safe (exec serve) (fun w' => w'.server = w.server) (fun _ w' => w'.server = w.server) p w' from
    hgen w rfl
  induction p with
  | ret a => exact fun w' hw' => hw'
  | act e next ih =>
    exact fun w' hw' => ⟨hw', fun o => ih _ (h.2 _) _ ((exec_server h.1 o w').trans hw')⟩

end Server

section Code
variable {S : CipherSuite} {Q : Type} {R : Q → Type} (V : Vodozemac) (c : Crypto)

theorem only_olmEncrypt (curveKey plaintext : String) :
    Only Silent ((olmEncrypt V curveKey plaintext : Code S R Crypto (ℕ × String)).run c) := by
  refine Act.only_andThen trivial fun c _ => ?_
  rcases (c.olmSessions curveKey).getLast? with _ | session
  · trivial
  · refine Act.only_andThen trivial fun _ _ => Act.only_andThen ⟨trivial, fun _ => trivial⟩ fun _ _ => ?_
    trivial

theorem only_shareWith (self : Self) (keyContent : Value) (messages : Messages) (device : DeviceInfo) :
    Only Silent ((shareWith V self keyContent messages device : Code S R Crypto Messages).run c) := by
  refine Act.only_andThen trivial fun c s => ?_
  dsimp only
  split_ifs
  · trivial
  · refine Act.only_andThen (Act.only_attempt (only_olmEncrypt V s _ _)) fun r s => ?_
    rcases r with e | ⟨messageType, body⟩
    · trivial
    · exact Act.only_andThen trivial fun _ _ => trivial

theorem only_getOrCreateOutbound (room : String) :
    Only Silent ((getOrCreateOutbound V room : Code S R Crypto GroupSession).run c) := by
  refine Act.only_andThen trivial fun c s => ?_
  dsimp only
  split_ifs
  · refine Act.only_andThen ⟨trivial, fun _ => trivial⟩ fun n s => ?_
    refine Act.only_andThen ⟨trivial, fun _ => trivial⟩ fun _ s => ?_
    refine Act.only_andThen ⟨trivial, fun _ => trivial⟩ fun _ s => ?_
    refine Act.only_andThen trivial fun _ s => Act.only_andThen trivial fun c _ => ?_
    rcases c.outbound room with _ | session
    · trivial
    · trivial
  · refine Act.only_andThen trivial fun c _ => ?_
    rcases c.outbound room with _ | session
    · trivial
    · trivial

theorem only_encrypt (room : String) (plaintext : Value) (ourDeviceId : String) :
    Only Silent
      ((Sessions.encrypt V room plaintext ourDeviceId : Code S R Crypto EncryptedContent).run c) := by
  refine Act.only_andThen (only_getOrCreateOutbound V c room) fun session s => ?_
  refine Act.only_andThen trivial fun _ s => Act.only_andThen trivial fun c s => ?_
  exact Act.only_andThen ⟨trivial, fun _ => trivial⟩ fun _ s => trivial

theorem only_encryptRoomKeyToDevices (room : String) (devices : List DeviceInfo) (self : Self) :
    Only Silent ((encryptRoomKeyToDevices V room devices self : Code S R Crypto Messages).run c) :=
  Act.only_andThen (only_getOrCreateOutbound V c room) fun _ s =>
    Act.only_fold (fun messages device s => only_shareWith V s self _ messages device) devices [] s

theorem only_startOlmSession (device : DeviceInfo) (otk : String) :
    Only Silent ((startOlmSession V device otk : Code S R Crypto Unit).run c) := by
  have hrest : ∀ s : Crypto, Only Silent ((do
      let session : OlmSession := ⟨V.olmSessionId (← draw 1), [], 0, some otk⟩
      let c ← Act.get
      putPickle kindOlm session.id device.curveKey (c.pickle (.olm session))
      Act.modify fun c => { c with
        olmSessions := Function.update c.olmSessions device.curveKey
          (c.olmSessions device.curveKey ++ [session])
        knownDevices := Function.update c.knownDevices device.curveKey
          (some (device.userId, device.deviceId)) } : Code S R Crypto Unit).run s) := by
    intro s
    refine Act.only_andThen ⟨trivial, fun _ => trivial⟩ fun n s => ?_
    refine Act.only_andThen trivial fun c s => ?_
    exact Act.only_andThen ⟨trivial, fun _ => trivial⟩ fun _ s => trivial
  unfold startOlmSession
  dsimp only
  split_ifs
  · exact Act.only_andThen trivial fun _ s => Act.only_andThen trivial fun _ s => hrest s
  · exact Act.only_andThen trivial fun _ s => hrest s
  · exact Act.only_andThen trivial fun _ s => hrest s
  · exact hrest c

theorem only_createOutboundOlm (claimResponse : Value) (devices : List DeviceInfo) :
    Only Silent ((createOutboundOlm V claimResponse devices : Code S R Crypto Unit).run c) := by
  refine Act.only_fold (fun _ device s => ?_) devices () c
  refine Act.only_andThen trivial fun c s => ?_
  split_ifs
  · rcases claimedKey claimResponse device with _ | key
    · trivial
    · exact Act.only_andThen (Act.only_attempt (only_startOlmSession V s device key)) fun _ s => trivial
  · trivial

end Code

/-! ### Sessions with devices -/

section Sessions
variable {S : CipherSuite} {Q Ω N : Type} {R : Q → Type} {serve : N → Ω → (q : Q) → R q × Ω}
  {V : Vodozemac} {used : List (String × ℕ)} {w : World S Ω} {c : Crypto}

theorem safe_startOlmSession (h : Held V used w c) (device : DeviceInfo) (otk : String) :
    Safe (exec serve) (Kept V used) (fun r w' => Held V used w' r.2)
      ((startOlmSession V device otk : Code S R Crypto Unit).run c) w := by
  have hrest : Safe (exec serve) (Kept V used) (fun r w' => Held V used w' r.2) ((do
      let session : OlmSession := ⟨V.olmSessionId (← draw 1), [], 0, some otk⟩
      let c ← Act.get
      putPickle kindOlm session.id device.curveKey (c.pickle (.olm session))
      Act.modify fun c => { c with
        olmSessions := Function.update c.olmSessions device.curveKey
          (c.olmSessions device.curveKey ++ [session])
        knownDevices := Function.update c.knownDevices device.curveKey
          (some (device.userId, device.deviceId)) } : Code S R Crypto Unit).run c) w := by
    rw [Act.safe_bind]
    have hdrawn : Held V used { w with drawn := w.drawn + 1 } c := h.draw 1
    refine safe_draw h.kept ?_
    simp only [Act.then_ok, Act.safe_bind, Act.safe_get]
    refine safe_put hdrawn.kept (fun e => hdrawn) fun rng => ?_
    exact hdrawn.put (by decide) rng _ _ _
  unfold startOlmSession
  dsimp only
  split_ifs
  · exact h
  · exact h
  · exact h
  · exact hrest

/-- **`create_outbound_olm` hands out no position.** -/
theorem safe_createOutboundOlm (h : Held V used w c) (claimResponse : Value) (devices : List DeviceInfo) :
    Safe (exec serve) (Kept V used) (fun r w' => Held V used w' r.2)
      ((createOutboundOlm V claimResponse devices : Code S R Crypto Unit).run c) w :=
  createOutboundOlm_keeps (I := fun c w => Held V used w c)
    (fun device otk _ _ h => safe_startOlmSession h device otk) claimResponse devices c w h

end Sessions

end Kmatrix.E2ee.Offline
