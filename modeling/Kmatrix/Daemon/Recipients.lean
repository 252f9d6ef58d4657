import Kmatrix.Daemon.Sharing

/-! # Whom a share is for

`encrypt_room_key_to_devices` goes through the devices, leaves our own out and those we hold no session
with, and nests what it makes by user and device. `Complete` says what the map has to hold: an entry for
every other device of the list and no entry besides, each with the key of the room's one outbound session,
encrypted for that device. `covers_shares` is the one half of it; here is the other, that there is nothing
else (`Made`), and that the next event of the room is encrypted with the session that was shared. -/

namespace Kmatrix.Daemon.Recipients

open Kmatrix.Lib.Crash Kmatrix.E2ee.Ratchets Kmatrix.E2ee.Json Kmatrix.E2ee.Effects
open Kmatrix.E2ee.Sessions Kmatrix.E2ee.Steady Kmatrix.Daemon.Sharing
open Kmatrix.Storage.Seal
open Kmatrix.Sas.Machine (Self DeviceInfo)

section Statement
variable (V : Vodozemac) (room : String) (us : Self) (c : Crypto)

/-- The device is not ours, and a session with it is held. -/
def Reachable (d : DeviceInfo) : Prop :=
  d.curveKey ≠ c.account.curve25519Key ∧ c.olmSessions d.curveKey ≠ []

/-- **A share is complete**: there is an entry exactly for the devices of the list that are reachable, and
each is the key of `session`, encrypted for its device. -/
structure Complete (devices : List DeviceInfo) (session : GroupSession) (messages : Messages) : Prop where
  entry : ∀ d : DeviceInfo, (messages.at d).isSome ↔
    ∃ d' ∈ devices, (d'.userId, d'.deviceId) = (d.userId, d.deviceId) ∧ Reachable c d'
  keyed : ∀ d ∈ devices, Reachable c d → Keyed V room us c session messages d

/-- **The next event of the room** is encrypted with the session, where it stands. -/
def EncryptsWith (S : CipherSuite) {Q Ω N : Type} (R : Q → Type) (serve : N → Ω → (q : Q) → R q × Ω)
    (session : GroupSession) (c : Crypto) : Prop :=
  ∀ (w w' : World S Ω) (os : List (Outcome N)) (plaintext : Value) (ourDeviceId : String)
    (content : EncryptedContent) (c' : Crypto),
    run (exec serve) ((encrypt V room plaintext ourDeviceId : Code S R Crypto EncryptedContent).run c) w os =
      (some (.ok content, c'), w') →
    content.sessionId = session.id ∧ content.ciphertext = ⟨session.id, session.index, V.writeJson plaintext⟩

end Statement

/-! ### Nothing else is sent -/

section Made
variable {S : CipherSuite} {Q Ω N : Type} {R : Q → Type} {serve : N → Ω → (q : Q) → R q × Ω}
  {V : Vodozemac} {room : String} {us : Self} {c : Crypto} {w : World S Ω}

/-- What was made so far is for reachable devices of the list. -/
structure Made (c : Crypto) (devices : List DeviceInfo) (messages : Messages) (c' : Crypto) : Prop where
  account : c'.account = c.account
  sessions : ∀ k, c'.olmSessions k = [] ↔ c.olmSessions k = []
  entry : ∀ d : DeviceInfo, (messages.at d).isSome →
    ∃ d' ∈ devices, (d'.userId, d'.deviceId) = (d.userId, d.deviceId) ∧ Reachable c d'

/-- Without a session nothing is encrypted. -/
theorem safe_olmEncrypt (curveKey plaintext : String) :
    Safe (exec serve) (fun _ => True)
      (fun r _ => r.2.account = c.account ∧ (∀ k, r.2.olmSessions k = [] ↔ c.olmSessions k = []) ∧
        ∀ made, r.1 = .ok made → c.olmSessions curveKey ≠ [])
      ((olmEncrypt V curveKey plaintext : Code S R Crypto (ℕ × String)).run c) w := by
  unfold olmEncrypt
  simp only [Act.safe_bind, Act.safe_get, Act.then_ok]
  rcases hlast : (c.olmSessions curveKey).getLast? with _ | session
  · exact ⟨rfl, fun k => Iff.rfl, fun made hmade => by simp at hmade⟩
  · have hne : c.olmSessions curveKey ≠ [] := by
      intro hnil
      rw [hnil] at hlast
      cases hlast
    have hkept : ∀ k, Function.update c.olmSessions curveKey ((c.olmSessions curveKey).dropLast ++
        [(session.encrypt plaintext).1]) k = [] ↔ c.olmSessions k = [] := by
      intro k
      rw [Function.update_apply]
      split_ifs with hk
      · rw [hk]
        simp [hne]
      · exact Iff.rfl
    simp only [Act.safe_bind, Act.safe_modify, Act.then_ok]
    exact safe_put trivial (fun e => ⟨rfl, hkept, fun _ _ => hne⟩) fun rng => ⟨rfl, hkept, fun _ _ => hne⟩

theorem made_shareWith {keyContent : Value} {devices : List DeviceInfo} {messages : Messages} {c' : Crypto}
    (h : Made c devices messages c') {device : DeviceInfo} (hmem : device ∈ devices) :
    Safe (exec serve) (fun _ => True) (fun r _ => ∀ messages', r.1 = .ok messages' → Made c devices messages' r.2)
      ((shareWith V us keyContent messages device : Code S R Crypto Messages).run c') w := by
  unfold shareWith
  simp only [Act.safe_bind, Act.safe_get, Act.then_ok]
  split_ifs with hours
  · intro messages' hr
    rw [← Except.ok.inj hr]
    exact h
  · simp only [Act.safe_bind, Act.safe_attempt]
    refine (safe_olmEncrypt device.curveKey _).mono ?_
    rintro ⟨e | ⟨messageType, body⟩, c''⟩ w' ⟨haccount, hsessions, hmade⟩ messages' hr
    · rw [← Except.ok.inj hr]
      exact ⟨haccount.trans h.account, fun k => (hsessions k).trans (h.sessions k), h.entry⟩
    · rw [← Except.ok.inj hr]
      refine ⟨haccount.trans h.account, fun k => (hsessions k).trans (h.sessions k), fun d hd => ?_⟩
      rw [Messages.at_insert] at hd
      split_ifs at hd with heq
      · rw [h.account] at hours
        exact ⟨device, hmem, heq.symm, hours, fun hnil => hmade _ rfl ((h.sessions _).mpr hnil)⟩
      · exact h.entry d hd

/-- **The loop** sends to nobody else. -/
theorem made_shares {keyContent : Value} {devices : List DeviceInfo} :
    Safe (exec serve) (fun _ => True) (fun r _ => ∀ messages, r.1 = .ok messages → Made c devices messages r.2)
      ((Act.fold (shareWith V us keyContent) [] devices : Code S R Crypto Messages).run c) w := by
  suffices hloop : ∀ (rest : List DeviceInfo), (∀ d ∈ rest, d ∈ devices) →
      ∀ (messages : Messages) (c' : Crypto) (w' : World S Ω), Made c devices messages c' →
      Safe (exec serve) (fun _ => True) (fun r _ => ∀ messages, r.1 = .ok messages → Made c devices messages r.2)
        ((Act.fold (shareWith V us keyContent) messages rest : Code S R Crypto Messages).run c') w' from
    hloop devices (fun d hd => hd) [] c w ⟨rfl, fun k => Iff.rfl, fun d hd => by simp [Messages.at, member] at hd⟩
  intro rest
  induction rest with
  | nil =>
    intro _ messages c' w' h messages' hr
    rw [← Except.ok.inj hr]
    exact h
  | cons device rest ih =>
    intro hrest messages c' w' h
    refine Act.safe_bind.mpr ((made_shareWith h (hrest device List.mem_cons_self)).mono ?_)
    rintro ⟨e | messages', c₂⟩ w₂ hmade
    · exact fun messages hr => by simp at hr
    · exact ih (fun d hd => hrest d (List.mem_cons_of_mem _ hd)) messages' c₂ w₂ (hmade messages' rfl)

end Made

/-! ### The next event -/

section Next
variable {S : CipherSuite} {Q Ω N : Type} {R : Q → Type} {serve : N → Ω → (q : Q) → R q × Ω}
  {V : Vodozemac} {room : String} {c : Crypto}

theorem encryptsWith_outbound {session : GroupSession} (h : c.outbound room = some session) :
    EncryptsWith V room S R serve session c := by
  intro w w' os plaintext ourDeviceId content c' hrun
  have hsafe : Safe (exec serve) (fun _ => True) (fun r _ => ∀ content, r.1 = .ok content →
      content.sessionId = session.id ∧
        content.ciphertext = ⟨session.id, session.index, V.writeJson plaintext⟩)
      ((encrypt V room plaintext ourDeviceId : Code S R Crypto EncryptedContent).run c) w := by
    unfold encrypt getOrCreateOutbound
    simp only [Act.safe_bind, Act.safe_get, Act.then_ok, h, Option.isNone_some, Bool.false_eq_true, if_false,
      Act.safe_pure, Act.safe_modify]
    refine safe_put trivial (fun e content hr => by simp at hr) fun rng content hr => ?_
    rw [← Except.ok.inj hr]
    exact ⟨rfl, rfl⟩
  exact (hsafe.run os).1 _ _ hrun content rfl

end Next

/-! ### A share -/

section Share
variable {S : CipherSuite} {Q Ω N : Type} {R : Q → Type} {serve : N → Ω → (q : Q) → R q × Ω}
  {V : Vodozemac} {room : String} {us : Self} {c : Crypto} {w : World S Ω}

theorem safe_share {devices : List DeviceInfo}
    (hdevices : (devices.map fun d => (d.userId, d.deviceId)).Nodup) :
    Safe (steady serve) (fun _ => True)
      (fun r _ => ∃ messages session, r.1 = .ok messages ∧ r.2.outbound room = some session ∧
        Complete V room us c devices session messages)
      ((encryptRoomKeyToDevices V room devices us : Code S R Crypto Messages).run c) w := by
  unfold encryptRoomKeyToDevices
  rw [Act.safe_bind]
  refine opens_getOrCreateOutbound.mono ?_
  rintro ⟨r, c₁⟩ w₁ ⟨session, rfl, hroom, haccount, hsessions, -⟩
  rw [Act.then_ok]
  dsimp only at hroom haccount hsessions
  refine ((covers_shares hdevices).and (safe_steady made_shares)).weaken (fun _ _ => trivial) ?_
  rintro ⟨r, c₂⟩ w₂ ⟨⟨messages, rfl, hcovered⟩, hmade⟩
  have hreach : ∀ d, Reachable c d ↔ Reachable c₁ d := by
    intro d
    unfold Reachable
    rw [haccount, hsessions]
  have hkeyed : ∀ d ∈ devices, Reachable c d → Keyed V room us c session messages d := by
    intro d hd hr
    obtain ⟨m, hplain, hat⟩ := hcovered.keyed d hd ((hreach d).mp hr).1 ((hreach d).mp hr).2 trivial
    exact ⟨m, by rw [hplain, haccount], by rw [hat, haccount]⟩
  refine ⟨messages, session, rfl, hcovered.outbound.symm ▸ hroom, fun d => ⟨fun hd => ?_, ?_⟩, hkeyed⟩
  · obtain ⟨d', hd', hname, hr⟩ := (hmade messages rfl).entry d hd
    exact ⟨d', hd', hname, (hreach d').mpr hr⟩
  · rintro ⟨d', hd', hname, hr⟩
    obtain ⟨m, -, hat⟩ := hkeyed d' hd' hr
    obtain ⟨huser, hdevice⟩ := Prod.mk.inj hname
    unfold Messages.at at hat ⊢
    rw [← huser, ← hdevice, hat]
    rfl

/-- **`encrypt_room_key_to_devices` is complete**: it returns, and what it returns holds an entry exactly
for the reachable devices of the list, each the key of the session that the room's next event is
encrypted with. -/
theorem complete_share (serve : N → Ω → (q : Q) → R q × Ω) (V : Vodozemac) (room : String) (us : Self)
    (c : Crypto) (w : World S Ω) (devices : List DeviceInfo)
    (hdevices : (devices.map fun d => (d.userId, d.deviceId)).Nodup) (os : ℕ → Outcome N)
    (hos : ∀ i, (os i).fault = none) :
    ∃ k messages session c' w',
      run (exec serve) ((encryptRoomKeyToDevices V room devices us : Code S R Crypto Messages).run c) w
        ((List.range k).map os) = (some (.ok messages, c'), w') ∧
      Complete V room us c devices session messages ∧ EncryptsWith V room S R serve session c' := by
  obtain ⟨k, ⟨r, c'⟩, w', hrun⟩ := @run_returns _ _ _ _ _ (exec serve)
    ((encryptRoomKeyToDevices V room devices us : Code S R Crypto Messages).run c) w os
  have hsteady := hrun
  rw [run_steady serve _ w (by simpa using fun i _ => hos i)] at hsteady
  obtain ⟨messages, session, hr, hroom, hcomplete⟩ := ((safe_share hdevices).run _).1 _ _ hsteady
  dsimp only at hr hroom
  subst hr
  exact ⟨k, messages, session, c', w', hrun, hcomplete, encryptsWith_outbound hroom⟩

end Share

/-! ### Two devices -/

/-- A session is held with the key of Bob's phone. -/
def pairedCrypto : Crypto :=
  { newCrypto with
    olmSessions := Function.update newCrypto.olmSessions "bob curve" [⟨"o", [], 0, none⟩] }

/-- Bob's phone, and a tablet that nothing was claimed for. -/
def bobDevices : List DeviceInfo :=
  [⟨"@bob", "PHONE", "bob curve", "bob ed"⟩, ⟨"@bob", "TABLET", "tablet curve", "tablet ed"⟩]

theorem complete_share_bob : ∃ k messages session c' w',
    run (exec E2ee.Megolm.unserved) ((encryptRoomKeyToDevices (plainVodozemac [] []) "!r" bobDevices
        ⟨"@us", "US"⟩ : Code copySuite (fun _ => Unit) Crypto Messages).run pairedCrypto) ⟨blankStore, 0, ()⟩
        ((List.range k).map fun _ => calm ()) = (some (.ok messages, c'), w') ∧
      Complete (plainVodozemac [] []) "!r" ⟨"@us", "US"⟩ pairedCrypto bobDevices session messages ∧
      EncryptsWith (plainVodozemac [] []) "!r" copySuite (fun _ => Unit) E2ee.Megolm.unserved session c' :=
  complete_share E2ee.Megolm.unserved (plainVodozemac [] []) "!r" ⟨"@us", "US"⟩ pairedCrypto ⟨blankStore, 0, ()⟩
    bobDevices (by decide) (fun _ => calm ()) (fun _ => rfl)

end Kmatrix.Daemon.Recipients
