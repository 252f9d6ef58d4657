import Kmatrix.E2ee.Devices
import Kmatrix.E2ee.OneTimeKeys
import Kmatrix.E2ee.Recovery
import Kmatrix.E2ee.Redelivery
import Kmatrix.E2ee.Steady

/-! # What a restart forgets

All that the crypto state does is written down as it is done (`Mirrored`), so a start should come back to a
state that behaves alike: `Transparent`. Two things are lost. Who owns which key is in memory only, so a
room key that was rejected as spoofed is accepted after a restart; and Olm sessions come back in the order
of their ids, not in that of their making, so another one may be used (`not_transparent_restarted`).
`transparent_iff` says that this is all. -/

namespace Kmatrix.E2ee.Restart

open Kmatrix.Lib.Crash Kmatrix.Lib.Keyed Kmatrix.E2ee.Ratchets Kmatrix.E2ee.Json Kmatrix.E2ee.Effects
open Kmatrix.E2ee.Steady Kmatrix.E2ee.Sessions Kmatrix.E2ee.Devices Kmatrix.E2ee.Secrets
open Kmatrix.E2ee.ToDevice Kmatrix.E2ee.Inbound Kmatrix.E2ee.Recovery Kmatrix.E2ee.OneTimeKeys
open Kmatrix.E2ee.Stored Kmatrix.E2ee.Held
open Kmatrix.E2ee.Batches (storingOlm createInboundSession_eq_some)
open Kmatrix.Storage Kmatrix.Storage.Seal Kmatrix.Storage.Schema
open Kmatrix.Storage.Write (StoreOp)
open Kmatrix.Sas.Machine (Self DeviceInfo)

/-! ### Operations -/

/-- **What is done to the crypto state.** Device verification has its own. -/
inductive Op where
  | handleToDevice (events : List ToDeviceEvent)
  | rememberDevices (devices : List DeviceInfo)
  | createOutboundOlm (claimResponse : Value) (devices : List DeviceInfo)
  | encryptRoomKeyToDevices (room : String) (devices : List DeviceInfo) (self : Self)
  | encrypt (room : String) (plaintext : Value) (ourDeviceId : String)
  | setBackupKey (recoveryKey expectedPublicKey : String)
  | setBackupKeyBase64 (secret : String) (expectedPublicKey : Option String)
  | importBackupSession (room sessionId : String) (entry : Value)
  | keysUploadBody (session : Session) (have' : ℕ) (includeDeviceKeys : Bool)
  | markPublished
  | secretRequest (high low : UInt64) (ourDevice name : String)

section Code
variable {S : CipherSuite} {Q : Type} {R : Q → Type} (V : Vodozemac) (A : Archive) (most limit : ℕ)

def Op.code : Op → Code S R Crypto Unit
  | .handleToDevice events => do let _ ← ToDevice.handleToDevice V events
  | .rememberDevices devices => Act.modify fun c => Crypto.rememberDevices c devices
  | .createOutboundOlm claimResponse devices => Devices.createOutboundOlm V claimResponse devices
  | .encryptRoomKeyToDevices room devices self => do
    let _ ← Sessions.encryptRoomKeyToDevices V room devices self
  | .encrypt room plaintext ourDeviceId => do let _ ← Sessions.encrypt V room plaintext ourDeviceId
  | .setBackupKey recoveryKey expectedPublicKey => Recovery.setBackupKey V recoveryKey expectedPublicKey
  | .setBackupKeyBase64 secret expectedPublicKey => Secrets.setBackupKeyBase64 V secret expectedPublicKey
  | .importBackupSession room sessionId entry => do
    let _ ← Inbound.importBackupSession V A room sessionId entry
  | .keysUploadBody session have' includeDeviceKeys => do
    let _ ← OneTimeKeys.keysUploadBody V most limit session have' includeDeviceKeys
  | .markPublished => OneTimeKeys.markPublished
  | .secretRequest high low ourDevice name =>
    Act.modify fun c => (Crypto.secretRequest c high low ourDevice name).1

end Code

section Statement
variable {S : CipherSuite} {Q Ω N : Type} {R : Q → Type} (serve : N → Ω → (q : Q) → R q × Ω)
  (V : Vodozemac) (A : Archive) (most limit : ℕ)

/-- **A run** of operations, kills and restarts, over a database. -/
abbrev opRun (st : Store S) (server : Ω) (events : List (Event Op (Outcome N))) :
    Process (World S Ω) Crypto Op (Except String Unit) :=
  Process.runs (exec serve) (boot V) (fun op c => (op.code V A most limit).run c) ⟨⟨st, 0, server⟩, none, []⟩
    events

/-- No store access fails. -/
def Unfailing : Event Op (Outcome N) → Prop
  | .call _ os => ∀ o ∈ os, o.fault = none
  | .boot os => ∀ o ∈ os, o.fault = none

/-- `has_backup_key`. -/
def Crypto.hasBackupKey (c : Crypto) : Bool := c.backupKey.isSome

/-- The session that `olm_encrypt` takes. -/
def Crypto.picked (c : Crypto) (curveKey : String) : Option OlmSession := (c.olmSessions curveKey).getLast?

/-- The room key in an event is rejected because its sender is not the owner of the session. -/
def Rejects (c : Crypto) (senderKey : String) (event : Value) : Prop :=
  ∃ e, Crypto.spoofed c "m.room_key" senderKey event = some e ∧ roomKey V c senderKey event = .error e

/-- **The rebuilt state `c'` behaves as `c` did.** -/
structure Transparent (c c' : Crypto) : Prop where
  decrypt : ∀ sessionId ciphertext,
    Crypto.decrypt A c' sessionId ciphertext = Crypto.decrypt A c sessionId ciphertext
  hasOutbound : ∀ room, Crypto.hasOutbound c' room = Crypto.hasOutbound c room
  hasBackupKey : Crypto.hasBackupKey c' = Crypto.hasBackupKey c
  picked : ∀ curveKey, Crypto.picked c' curveKey = Crypto.picked c curveKey
  rejects : ∀ senderKey event, Rejects V c senderKey event → ∃ e, roomKey V c' senderKey event = .error e

/-- The Olm sessions have an id each. -/
structure Distinct (c : Crypto) : Prop where
  nodup : ∀ peer, ((c.olmSessions peer).map OlmSession.id).Nodup
  apart : ∀ peer peer' s s', s ∈ c.olmSessions peer → s' ∈ c.olmSessions peer' → s.id = s'.id → peer = peer'

/-- **The last session made with a device has the greatest id.** -/
def Ascending (c : Crypto) : Prop :=
  ∀ curveKey s, (c.olmSessions curveKey).getLast? = some s → ∀ t ∈ c.olmSessions curveKey, t.id ≤ s.id

/-- **No device is known.** -/
def Unacquainted (c : Crypto) : Prop := ∀ curveKey, c.knownDevices curveKey = none

end Statement

/-! ### Memory and disk -/

section Disk
variable {S : CipherSuite}

/-- Olm sessions are filed under their ids. -/
def Filed (st : Store S) : Prop :=
  ∀ id row t, st.db.pickles.lookup (kindOlm, id) = some row → row.pickle.content = .olm t → t.id = id

theorem Filed.id_eq {st : Store S} (h : Filed st) {peer id : String} {t : OlmSession}
    (ht : storedOlm st peer id = some t) : t.id = id := by
  unfold storedOlm at ht
  obtain ⟨key, -, ht⟩ := Option.bind_eq_some_iff.mp ht
  obtain ⟨row, hrow, ht⟩ := Option.bind_eq_some_iff.mp ht
  split_ifs at ht
  refine h id row t hrow ?_
  unfold opened Pickle.fromEncrypted at ht
  split_ifs at ht
  · rw [Option.bind_some] at ht
    rcases hcontent : row.pickle.content with a | t' | s | s
    · rw [hcontent] at ht
      cases ht
    · rw [hcontent] at ht
      rw [Option.some.inj ht]
    · rw [hcontent] at ht
      cases ht
    · rw [hcontent] at ht
      cases ht
  · cases ht

/-- **The memory is what is on disk**, as far as it is written down. -/
structure Mirrored (st : Store S) (c : Crypto) : Prop where
  mirrors : Mirrors st c
  outbound : ∀ room, c.outbound room = storedOutbound st room
  backupKey : ∃ found, Read.getMeta st backupKeyMeta = .ok found ∧ c.backupKey = loadBackupKey found
  filed : Filed st
  olm : Distinct c → ∀ peer id t, storedOlm st peer id = some t ↔ t.id = id ∧ t ∈ c.olmSessions peer

variable {st : Store S} {c c' : Crypto}

/-- What is not written down is no matter. -/
theorem Mirrored.congr (h : Mirrored st c) (hkey : c'.pickleKey = c.pickleKey)
    (hinbound : c'.inbound = c.inbound) (houtbound : c'.outbound = c.outbound)
    (hbackup : c'.backupKey = c.backupKey) (holm : c'.olmSessions = c.olmSessions) : Mirrored st c' where
  mirrors := h.mirrors.alike (.refl st) hkey hinbound
  outbound room := by rw [houtbound, h.outbound]
  backupKey := by rw [hbackup]; exact h.backupKey
  filed := h.filed
  olm hdistinct peer id t := by
    rw [holm]
    refine h.olm ⟨fun peer => ?_, fun peer peer' s s' hs hs' => ?_⟩ peer id t
    · rw [← holm]
      exact hdistinct.nodup peer
    · rw [← holm] at hs hs'
      exact hdistinct.apart peer peer' s s' hs hs'

theorem Filed.put {kind : String} (h : Filed st) (hkind : kindOlm ≠ kind) (rng : Salts) (id extra : String)
    (pickle : Pickle) : Filed ((StoreOp.putPickle kind id extra pickle).exec rng st) := by
  intro id' row t hrow
  rw [lookup_put, if_neg fun heq => hkind (Prod.mk.inj heq).1] at hrow
  exact h id' row t hrow

theorem Filed.putOlm (h : Filed st) (rng : Salts) (peer : String) (t : OlmSession) :
    Filed ((storingOlm c peer t).exec rng st) := by
  intro id row t' hrow hcontent
  rw [lookup_put] at hrow
  split_ifs at hrow with heq
  · rw [← Option.some.inj hrow] at hcontent
    rw [(Prod.mk.inj heq).2, Pickled.olm.inj hcontent]
  · exact h id row t' hrow hcontent

/-- The account is written. -/
theorem Mirrored.putAccount (h : Mirrored st c) (rng : Salts) (pickle : Pickle) :
    Mirrored ((StoreOp.putPickle kindAccount "self" "" pickle).exec rng st) c where
  mirrors := h.mirrors.alike (alike_put (by decide) rng st _ _ _) rfl rfl
  outbound room := by
    rw [h.outbound]
    exact (stored_putPickle_of_ne (by decide) rng _ _ _ _).symm
  backupKey := h.backupKey
  filed := h.filed.put (by decide) rng _ _ _
  olm hdistinct peer id t := by
    rw [storedOlm_put_of_ne (by decide)]
    exact h.olm hdistinct peer id t

/-- An inbound session is written, and held. -/
theorem Mirrored.putInbound (h : Mirrored st c) (rng : Salts) (s : InboundGroupSession) (room : String) :
    Mirrored ((storing c s room).exec rng st)
      { c with inbound := Function.update c.inbound s.id (some s) } where
  mirrors := h.mirrors.storing s rng room
  outbound room := by
    dsimp only
    rw [h.outbound]
    exact (stored_putPickle_of_ne (by decide) rng _ _ _ _).symm
  backupKey := h.backupKey
  filed := h.filed.put (by decide) rng _ _ _
  olm hdistinct peer id t := by
    rw [storedOlm_put_of_ne (by decide)]
    exact h.olm ⟨hdistinct.nodup, hdistinct.apart⟩ peer id t

/-- The session of a room is written, and held. -/
theorem Mirrored.putOutbound (h : Mirrored st c) (rng : Salts) (room extra : String) (s : GroupSession) :
    Mirrored ((StoreOp.putPickle kindMegolmOut room extra (c.pickle (.outbound s))).exec rng st)
      { c with outbound := Function.update c.outbound room (some s) } where
  mirrors := h.mirrors.alike (alike_put (by decide) rng st _ _ _) rfl rfl
  outbound room' := by
    unfold storedOutbound
    dsimp only
    rw [stored_putPickle h.mirrors.key, Function.update_apply, h.outbound]
    refine if_congr ?_ rfl rfl
    simp
  backupKey := h.backupKey
  filed := h.filed.put (by decide) rng _ _ _
  olm hdistinct peer id t := by
    rw [storedOlm_put_of_ne (by decide)]
    exact h.olm ⟨hdistinct.nodup, hdistinct.apart⟩ peer id t

/-- The key of the backup is written, and held. -/
theorem Mirrored.setBackupKey (h : Mirrored st c) (rng : Salts) (key : Key) :
    Mirrored ((StoreOp.setMeta backupKeyMeta (keyText key)).exec rng st) { c with backupKey := some key } where
  mirrors := h.mirrors.alike
    ⟨storedKey_congr (getMeta_setMeta_of_ne (by decide) rng st _), fun _ => rfl⟩ rfl rfl
  outbound room := by
    dsimp only
    rw [h.outbound]
    exact (stored_congr (getMeta_setMeta_of_ne (by decide) rng st _) rfl _ _).symm
  backupKey := by
    have hlabel : secretMetaLabel backupKeyMeta = some "meta.backup_key" := by decide
    refine ⟨_, getMeta_setMeta hlabel (startsWith_keyText key) rng st, ?_⟩
    unfold loadBackupKey
    rw [Option.bind_some, decodeKey_keyText]
    rfl
  filed := h.filed
  olm hdistinct peer id t := by
    refine Iff.trans ?_ (h.olm ⟨hdistinct.nodup, hdistinct.apart⟩ peer id t)
    unfold storedOlm
    rw [storedKey_congr (getMeta_setMeta_of_ne (by decide) rng st _)]
    exact Iff.rfl

/-- **An Olm session is written**, and held in the place of the one it was, or as a new one. -/
theorem Mirrored.putOlm (h : Mirrored st c) (rng : Salts) {peer : String} {l old r : List OlmSession}
    {t : OlmSession} (hsessions : c.olmSessions peer = l ++ old ++ r)
    (hold : (old.map OlmSession.id).Sublist [t.id]) :
    Mirrored ((storingOlm c peer t).exec rng st)
      { c with olmSessions := Function.update c.olmSessions peer (l ++ t :: r) } where
  mirrors := h.mirrors.alike (alike_put (by decide) rng st _ _ _) rfl rfl
  outbound room := by
    dsimp only
    rw [h.outbound]
    exact (stored_putPickle_of_ne (by decide) rng _ _ _ _).symm
  backupKey := h.backupKey
  filed := h.filed.putOlm rng peer t
  olm hdistinct := by
    obtain ⟨hnodups, hapart⟩ := hdistinct
    dsimp only at hnodups hapart ⊢
    have hnodup : ((l ++ t :: r).map OlmSession.id).Nodup := by
      have hpeer := hnodups peer
      rwa [Function.update_self] at hpeer
    have hids : ∀ peer', ((c.olmSessions peer').map OlmSession.id).Sublist
        ((Function.update c.olmSessions peer (l ++ t :: r) peer').map OlmSession.id) := by
      intro peer'
      rw [Function.update_apply]
      split_ifs with hpeer
      · rw [hpeer, hsessions, List.append_assoc, List.map_append, List.map_append, List.map_append]
        exact (List.Sublist.refl _).append (hold.append (List.Sublist.refl (r.map OlmSession.id)))
      · exact List.Sublist.refl _
    have hheld : ∀ peer' s, s ∈ c.olmSessions peer' →
        ∃ s' ∈ Function.update c.olmSessions peer (l ++ t :: r) peer', s'.id = s.id := by
      intro peer' s hs
      exact List.mem_map.mp ((hids peer').subset (List.mem_map_of_mem hs))
    have hbefore : Distinct c := by
      refine ⟨fun peer' => (hnodups peer').sublist (hids peer'), fun p p' s s' hs hs' hid => ?_⟩
      obtain ⟨x, hx, hxid⟩ := hheld p s hs
      obtain ⟨x', hx', hxid'⟩ := hheld p' s' hs'
      exact hapart p p' x x' hx hx' (by rw [hxid, hxid', hid])
    have ht : t ∈ Function.update c.olmSessions peer (l ++ t :: r) peer := by
      rw [Function.update_self]
      simp
    intro peer' id x
    rw [storedOlm_put h.mirrors.key]
    by_cases hid : id = t.id
    · rw [if_pos hid]
      by_cases hpeer : peer = peer'
      · rw [if_pos hpeer, ← hpeer, Function.update_self, hid]
        constructor
        · intro hx
          rw [← Option.some.inj hx]
          exact ⟨rfl, by simp⟩
        · rintro ⟨hxid, hx⟩
          rw [List.inj_on_of_nodup_map hnodup hx (by simp) hxid]
      · rw [if_neg hpeer]
        constructor
        · intro hx
          cases hx
        · rintro ⟨hxid, hx⟩
          exact absurd (hapart peer peer' t x ht hx (by rw [hxid, hid])) hpeer
    · rw [if_neg hid, h.olm hbefore peer' id x]
      refine and_congr_right fun hxid => ?_
      rw [Function.update_apply]
      split_ifs with hpeer
      · have hne : x.id ≠ t.id := by rwa [hxid]
        have hxold : x ∉ old := by
          intro hx
          have hmem := hold.subset (List.mem_map_of_mem hx)
          exact hne (List.mem_singleton.mp hmem)
        have hxt : x ≠ t := fun heq => hne (congrArg OlmSession.id heq)
        rw [hpeer, hsessions]
        simp [hxold, hxt]
      · exact Iff.rfl

end Disk

/-! ### What every operation keeps -/

section Keeps
variable {S : CipherSuite} {Q Ω N : Type} {R : Q → Type} {serve : N → Ω → (q : Q) → R q × Ω}

/-- **Code that keeps the memory on disk.** -/
def Keeps (serve : N → Ω → (q : Q) → R q × Ω) {α : Type} (m : Code S R Crypto α) : Prop :=
  ∀ (c : Crypto) (w : World S Ω), Mirrored w.disk c →
    Safe (steady serve) (fun w' => Filed w'.disk) (fun r w' => Mirrored w'.disk r.2) (m.run c) w

variable {α β : Type} {m : Code S R Crypto α} {f : α → Code S R Crypto β}

theorem keeps_pure (a : α) : Keeps serve (pure a : Code S R Crypto α) := fun _ _ h => h

theorem keeps_fail (e : String) : Keeps serve (Act.fail e : Code S R Crypto α) := fun _ _ h => h

theorem keeps_get : Keeps serve (Act.get : Code S R Crypto Crypto) := fun _ _ h => h

theorem keeps_ofExcept (r : Except String α) : Keeps serve (Act.ofExcept r : Code S R Crypto α) :=
  fun _ _ h => h

/-- What is not written down may change. -/
theorem keeps_modify {g : Crypto → Crypto} (hkey : ∀ c, (g c).pickleKey = c.pickleKey)
    (hinbound : ∀ c, (g c).inbound = c.inbound) (houtbound : ∀ c, (g c).outbound = c.outbound)
    (hbackup : ∀ c, (g c).backupKey = c.backupKey) (holm : ∀ c, (g c).olmSessions = c.olmSessions) :
    Keeps serve (Act.modify g : Code S R Crypto Unit) :=
  fun c _ h => h.congr (hkey c) (hinbound c) (houtbound c) (hbackup c) (holm c)

theorem keeps_bind (hm : Keeps serve m) (hf : ∀ a, Keeps serve (f a)) : Keeps serve (m >>= f) :=
  Act.keeps_bind (I := fun c (w : World S Ω) => Mirrored w.disk c) hm hf

theorem keeps_attempt (hm : Keeps serve m) : Keeps serve (Act.attempt m) :=
  Act.keeps_attempt (I := fun c (w : World S Ω) => Mirrored w.disk c) hm

theorem keeps_collect {g : β → Code S R Crypto (List α)} (hg : ∀ b, Keeps serve (g b)) (xs : List β) :
    Keeps serve (Act.collect g xs) :=
  Act.keeps_collect (I := fun c (w : World S Ω) => Mirrored w.disk c) hg xs

theorem keeps_draw (count : ℕ) : Keeps serve (draw count : Code S R Crypto ℕ) :=
  fun _ _ h => safe_draw_steady h.filed h

variable {V : Vodozemac} {A : Archive} {most limit : ℕ}

theorem keeps_persistAccount : Keeps serve (persistAccount : Code S R Crypto Unit) := by
  intro c w h
  unfold persistAccount
  rw [Act.safe_bind, Act.safe_get, Act.then_ok]
  exact safe_put_steady h.filed fun rng => h.putAccount rng _

theorem keeps_getOrCreateOutbound (room : String) :
    Keeps serve (getOrCreateOutbound V room : Code S R Crypto GroupSession) := by
  have hlast := fun (c' : Crypto) (w' : World S Ω) (h' : Mirrored w'.disk c') =>
    (@safe_outbound S Q _ _ R (steady serve) (fun w => Filed w.disk) (fun c w => Mirrored w.disk c) c' w' h'
      room).mono fun _ _ h => h.1
  intro c w h
  unfold getOrCreateOutbound
  simp only [Act.safe_bind, Act.safe_get, Act.then_ok]
  split_ifs
  · simp only [Act.safe_bind]
    refine safe_draw_steady h.filed ?_
    simp only [Act.then_ok, Act.safe_bind]
    refine safe_put_steady h.filed fun rng => ?_
    have hout := h.putOutbound rng room "0" ⟨V.groupSessionId w.drawn, 0⟩
    simp only [Act.then_ok, Act.safe_bind]
    refine safe_put_steady hout.filed fun rng' => ?_
    have hin := hout.putInbound rng' (.ofGroupSession ⟨V.groupSessionId w.drawn, 0⟩) room
    simp only [Act.then_ok]
    exact hlast _ _ hin
  · exact hlast c w h

theorem keeps_encrypt (room : String) (plaintext : Value) (ourDeviceId : String) :
    Keeps serve (encrypt V room plaintext ourDeviceId : Code S R Crypto EncryptedContent) := by
  refine keeps_bind (keeps_getOrCreateOutbound room) fun session c w h => ?_
  simp only [Act.safe_bind, Act.safe_modify, Act.then_ok, Act.safe_get]
  exact safe_put_steady h.filed fun rng => h.putOutbound rng room _ _

/-- The session that encrypts moves on, on disk too. -/
theorem keeps_olmEncrypt (curveKey plaintext : String) :
    Keeps serve (olmEncrypt V curveKey plaintext : Code S R Crypto (ℕ × String)) := by
  intro c w h
  unfold olmEncrypt
  simp only [Act.safe_bind, Act.safe_get, Act.then_ok]
  rcases hlast : (c.olmSessions curveKey).getLast? with _ | session
  · exact h
  · simp only [Act.safe_bind, Act.safe_modify, Act.then_ok]
    have hsessions : c.olmSessions curveKey =
        (c.olmSessions curveKey).dropLast ++ [session] ++ [] := by
      rw [List.append_nil, List.dropLast_append_getLast? session hlast]
    exact safe_put_steady h.filed fun rng =>
      h.putOlm rng (t := (session.encrypt plaintext).1) hsessions (List.Sublist.refl _)

theorem keeps_encryptRoomKeyToDevices (room : String) (devices : List DeviceInfo) (us : Self) :
    Keeps serve (encryptRoomKeyToDevices V room devices us : Code S R Crypto Messages) :=
  encryptRoomKeyToDevices_keeps (I := fun c (w : World S Ω) => Mirrored w.disk c) keeps_olmEncrypt
    (fun _ _ _ h => h.congr rfl rfl rfl rfl rfl) (keeps_getOrCreateOutbound room) devices us

theorem keeps_startOlmSession (device : DeviceInfo) (otk : String) :
    Keeps serve (startOlmSession V device otk : Code S R Crypto Unit) := by
  intro c w h
  unfold startOlmSession
  dsimp only
  split_ifs
  · exact h
  · exact h
  · exact h
  · simp only [Act.safe_bind]
    refine safe_draw_steady h.filed ?_
    simp only [Act.then_ok, Act.safe_bind, Act.safe_get]
    have hsessions : c.olmSessions device.curveKey = c.olmSessions device.curveKey ++ [] ++ [] := by simp
    refine safe_put_steady h.filed fun rng => ?_
    simp only [Act.then_ok]
    have hput := h.putOlm rng (t := ⟨V.olmSessionId w.drawn, [], 0, some otk⟩) hsessions
      (List.nil_sublist _)
    exact hput.congr rfl rfl rfl rfl rfl

theorem keeps_createOutboundOlm (claimResponse : Value) (devices : List DeviceInfo) :
    Keeps serve (createOutboundOlm V claimResponse devices : Code S R Crypto Unit) :=
  createOutboundOlm_keeps (I := fun c (w : World S Ω) => Mirrored w.disk c) keeps_startOlmSession claimResponse devices

/-- A session that decrypts moves on, on disk too. -/
theorem keeps_decryptWithExisting (senderKey : String) (message : OlmMessage) :
    Keeps serve (decryptWithExisting senderKey message : Code S R Crypto (Option String)) := by
  intro c w h
  unfold decryptWithExisting
  simp only [Act.safe_bind, Act.safe_get, Act.then_ok]
  rcases htry : trySessions message (c.olmSessions senderKey) with _ | ⟨session, plaintext, sessions⟩
  · exact h
  · obtain ⟨l, before, r, hsessions, rfl, hdecrypt⟩ := trySessions_split htry
    obtain ⟨-, -, rfl, -⟩ := decrypt_eq_some.mp hdecrypt
    simp only [Act.safe_bind, Act.safe_modify, Act.then_ok, Act.safe_attempt]
    have hold : c.olmSessions senderKey = l ++ [before] ++ r := by simp [hsessions]
    exact safe_put_steady h.filed fun rng => h.putOlm rng
      (t := { before with used := message.index :: before.used, preKey := none }) hold (List.Sublist.refl _)

theorem keeps_createInboundOlm (senderKey : String) (message : OlmMessage) :
    Keeps serve (createInboundOlm V senderKey message : Code S R Crypto String) := by
  intro c w h
  unfold createInboundOlm
  dsimp only
  split_ifs
  · exact h
  · rw [Act.safe_bind, Act.safe_get, Act.then_ok]
    rcases c.account.createInboundSession message with _ | ⟨account, session, plaintext⟩
    · exact h
    · simp only [Act.safe_bind, Act.safe_modify, Act.then_ok]
      have hsessions : c.olmSessions senderKey = c.olmSessions senderKey ++ [] ++ [] := by simp
      refine safe_put_steady h.filed fun rng => ?_
      have hput := h.putOlm rng (t := session) hsessions (List.nil_sublist _)
      unfold persistAccount
      simp only [Act.then_ok, Act.safe_bind, Act.safe_get]
      refine safe_put_steady hput.filed fun rng' => ?_
      exact (hput.putAccount rng' _).congr rfl rfl rfl rfl rfl

theorem keeps_decryptOlm (senderKey : String) (message : OlmMessage) :
    Keeps serve (decryptOlm V senderKey message : Code S R Crypto String) := by
  refine keeps_bind (keeps_decryptWithExisting senderKey message) fun found => ?_
  rcases found with _ | plaintext
  · dsimp only
    split_ifs
    · exact keeps_createInboundOlm senderKey message
    · exact keeps_fail _
  · exact keeps_pure _

theorem keeps_storeRoomKey (senderKey : String) (event : Value) :
    Keeps serve (storeRoomKey V senderKey event : Code S R Crypto Unit) := by
  intro c w h
  unfold storeRoomKey
  simp only [Act.safe_bind, Act.safe_get, Act.then_ok, Act.safe_ofExcept]
  rcases roomKey V c senderKey event with e | _ | ⟨roomId, session⟩
  · exact h
  · exact h
  · simp only [Act.then_ok, Act.safe_bind]
    exact safe_put_steady h.filed fun rng => h.putInbound rng session roomId

theorem keeps_handleOlmPlaintext (senderKey plaintext : String) :
    Keeps serve (handleOlmPlaintext V senderKey plaintext : Code S R Crypto (Option Secret)) := by
  refine keeps_bind (keeps_ofExcept _) fun event => ?_
  split
  · exact keeps_bind (keeps_storeRoomKey senderKey event) fun _ => keeps_pure _
  · exact keeps_bind keeps_get fun c => keeps_ofExcept _
  · exact keeps_pure _

theorem keeps_handleToDevice (events : List ToDeviceEvent) :
    Keeps serve (handleToDevice V events : Code S R Crypto (List Secret)) := by
  have holm : ∀ event, Keeps serve (handleOlmEvent V event : Code S R Crypto (Option Secret)) := by
    intro event
    refine keeps_bind keeps_get fun c => keeps_bind (keeps_ofExcept _) fun found => ?_
    rcases found with _ | ⟨senderKey, message⟩
    · exact keeps_pure _
    · exact keeps_bind (keeps_decryptOlm senderKey message) fun _ => keeps_handleOlmPlaintext senderKey _
  refine keeps_collect (fun event => ?_) events
  unfold handleEvent
  split_ifs
  · exact keeps_pure _
  · refine keeps_bind (keeps_attempt (holm event)) fun r => ?_
    rcases r with e | _ | secret
    · exact keeps_pure _
    · exact keeps_pure _
    · exact keeps_pure _

/-- A key is kept for the backup. -/
theorem keeps_adopt (key : Key) :
    Keeps serve (do
      setMeta backupKeyMeta (keyText key)
      Act.modify fun c => { c with backupKey := some key } : Code S R Crypto Unit) := by
  intro c w h
  rw [Act.safe_bind]
  exact safe_put_steady h.filed fun rng => h.setBackupKey rng key

theorem keeps_setBackupKey (recoveryKey expectedPublicKey : String) :
    Keeps serve (Recovery.setBackupKey V recoveryKey expectedPublicKey : Code S R Crypto Unit) :=
  keeps_bind (keeps_ofExcept _) fun key => keeps_bind (keeps_ofExcept _) fun _ => keeps_adopt key

theorem keeps_setBackupKeyBase64 (secret : String) (expectedPublicKey : Option String) :
    Keeps serve (setBackupKeyBase64 V secret expectedPublicKey : Code S R Crypto Unit) :=
  keeps_bind (keeps_ofExcept _) fun key => keeps_bind (keeps_ofExcept _) fun _ => keeps_adopt key

theorem keeps_importBackupSession (room sessionId : String) (entry : Value) :
    Keeps serve (Inbound.importBackupSession V A room sessionId entry : Code S R Crypto Bool) := by
  intro c w h
  unfold Inbound.importBackupSession
  simp only [Act.safe_bind, Act.safe_get, Act.then_ok]
  split_ifs
  · exact h
  · rw [Act.safe_bind, Act.safe_ofExcept]
    rcases openEntry V A c sessionId entry with e | _ | session
    · exact h
    · exact h
    · rw [Act.then_ok]
      dsimp only
      split_ifs
      · exact h
      · exact h
      · rw [Act.safe_bind]
        exact safe_put_steady h.filed fun rng => h.putInbound rng session room

theorem keeps_keysUploadBody (session : Session) (have' : ℕ) (includeDeviceKeys : Bool) :
    Keeps serve (keysUploadBody V most limit session have' includeDeviceKeys :
      Code S R Crypto (Option UploadBody)) := by
  have hbody : Keeps serve (do
      let c ← Act.get
      return uploadBody c session includeDeviceKeys : Code S R Crypto (Option UploadBody)) :=
    keeps_bind keeps_get fun c => keeps_pure _
  unfold keysUploadBody
  dsimp only
  split_ifs
  · refine keeps_bind (keeps_draw _) fun first => keeps_bind ?_ fun _ => hbody
    exact keeps_modify (fun _ => rfl) (fun _ => rfl) (fun _ => rfl) (fun _ => rfl) fun _ => rfl
  · exact hbody

theorem keeps_markPublished : Keeps serve (markPublished : Code S R Crypto Unit) :=
  keeps_bind (keeps_modify (fun _ => rfl) (fun _ => rfl) (fun _ => rfl) (fun _ => rfl) fun _ => rfl)
    fun _ => keeps_persistAccount

/-- **Every operation** keeps the memory on disk. -/
theorem keeps_code (op : Op) : Keeps serve (op.code V A most limit : Code S R Crypto Unit) := by
  cases op with
  | handleToDevice events => exact keeps_bind (keeps_handleToDevice events) fun _ => keeps_pure _
  | rememberDevices devices =>
    exact keeps_modify (fun _ => rfl) (fun _ => rfl) (fun _ => rfl) (fun _ => rfl) fun _ => rfl
  | createOutboundOlm claimResponse devices => exact keeps_createOutboundOlm claimResponse devices
  | encryptRoomKeyToDevices room devices us =>
    exact keeps_bind (keeps_encryptRoomKeyToDevices room devices us) fun _ => keeps_pure _
  | encrypt room plaintext ourDeviceId =>
    exact keeps_bind (keeps_encrypt room plaintext ourDeviceId) fun _ => keeps_pure _
  | setBackupKey recoveryKey expectedPublicKey => exact keeps_setBackupKey recoveryKey expectedPublicKey
  | setBackupKeyBase64 secret expectedPublicKey => exact keeps_setBackupKeyBase64 secret expectedPublicKey
  | importBackupSession room sessionId entry =>
    exact keeps_bind (keeps_importBackupSession room sessionId entry) fun _ => keeps_pure _
  | keysUploadBody session have' includeDeviceKeys =>
    exact keeps_bind (keeps_keysUploadBody session have' includeDeviceKeys) fun _ => keeps_pure _
  | markPublished => exact keeps_markPublished
  | secretRequest high low ourDevice name =>
    exact keeps_modify (fun _ => rfl) (fun _ => rfl) (fun _ => rfl) (fun _ => rfl) fun _ => rfl

end Keeps

/-! ### A start -/

section Start
variable {S : CipherSuite} {Q Ω N : Type} {R : Q → Type} {serve : N → Ω → (q : Q) → R q × Ω}
  {V : Vodozemac} {w : World S Ω} {st st' : Store S} {c : Crypto}

/-- The key of the backup is read from `meta`. -/
theorem safe_loadOrCreate_backupKey :
    Safe (exec serve) (fun _ => True)
      (fun r w' => ∀ c, r.1 = .ok c →
        ∃ found, Read.getMeta w'.disk backupKeyMeta = .ok found ∧ c.backupKey = loadBackupKey found)
      ((loadOrCreate V : Code S R Unit Crypto).run ()) w := by
  have herr : ∀ (e : String) (w' : World S Ω) (c : Crypto), (.error e : Except String Crypto) = .ok c →
      ∃ found, Read.getMeta w'.disk backupKeyMeta = .ok found ∧ c.backupKey = loadBackupKey found :=
    fun e w' c hc => by simp at hc
  unfold loadOrCreate
  rw [Act.safe_bind]
  refine Safe.of_forall (fun _ => trivial) ?_
  rintro ⟨e | pickleKey, u⟩ w₁
  · exact herr e w₁
  · rw [Act.then_ok, Act.safe_bind]
    refine Safe.of_forall (fun _ => trivial) ?_
    rintro ⟨e | account, u⟩ w₂
    · exact herr e w₂
    · rw [Act.then_ok, Act.safe_bind]
      refine safe_query trivial (fun e => herr e w₂) fun olm _ => ?_
      rw [Act.then_ok, Act.safe_bind]
      refine safe_query trivial (fun e => herr e w₂) fun inbound _ => ?_
      rw [Act.then_ok, Act.safe_bind]
      refine safe_query trivial (fun e => herr e w₂) fun outbound _ => ?_
      rw [Act.then_ok, Act.safe_bind]
      refine safe_query trivial (fun e => herr e w₂) fun found hfound => ?_
      rw [Act.then_ok, Act.safe_pure]
      intro c hc
      obtain rfl := Except.ok.inj hc
      exact ⟨found, hfound, rfl⟩

theorem Filed.primed (h : Filed st) (hprimed : Primed st st') : Filed st' := by
  intro id row t hrow
  rw [hprimed.pickles fun heq => absurd (Prod.mk.inj heq).1 (by decide)] at hrow
  exact h id row t hrow

/-- **A start** comes back to what is on disk. -/
theorem safe_boot_mirrored (h : Filed w.disk) :
    Safe (exec serve) (fun w' => Filed w'.disk)
      (fun m w' => After w w' ∧ ∀ c, m = some c → Mirrored w'.disk c ∧ Loaded w'.disk c)
      (boot V : Prog (Effect Q) (Answer S R) (Option Crypto)) w := by
  have hbackup : Safe (exec serve) (fun _ => True) (fun m w' => ∀ c, m = some c →
      ∃ found, Read.getMeta w'.disk backupKeyMeta = .ok found ∧ c.backupKey = loadBackupKey found)
      (boot V : Prog (Effect Q) (Answer S R) (Option Crypto)) w := by
    unfold boot
    rw [safe_bind]
    refine safe_loadOrCreate_backupKey.mono ?_
    rintro ⟨e | c, u⟩ w' hc
    · exact fun c hm => by simp [Except.toOption] at hm
    · rintro c' hm
      obtain rfl : c = c' := Option.some.inj hm
      exact hc c rfl
  refine (safe_boot_loaded.and hbackup).weaken (fun w' hw' => h.primed hw'.1.1) ?_
  rintro m w' ⟨⟨hafter, hloaded⟩, hfound⟩
  have hfiled := h.primed hafter.1
  refine ⟨hafter, fun c hc => ⟨?_, hloaded c hc⟩⟩
  have hload := hloaded c hc
  refine ⟨⟨hload.key, hload.inbound⟩, hload.outbound, hfound c hc, hfiled, fun _ peer id t => ?_⟩
  exact (Redelivery.inMemory_loaded hload (fun peer id t => hfiled.id_eq) id t).symm.trans and_comm

end Start

/-! ### The order of the sessions -/

section Order
variable {S : CipherSuite} {st : Store S} {c : Crypto}

theorem loadOlm_eq_filterMap (key : Key) (rows : List (String × String × Pickle)) (peer : String) :
    loadOlm key rows peer = rows.filterMap fun row =>
      if row.2.1 = peer then opened Pickled.olm? key row.2.2 else none := by
  unfold loadOlm
  induction rows using List.reverseRecOn with
  | nil => rfl
  | append_singleton rows row ih =>
    obtain ⟨id, extra, pickle⟩ := row
    rw [List.foldl_append, List.filterMap_append, ← ih]
    simp only [List.foldl_cons, List.foldl_nil, List.filterMap_cons, List.filterMap_nil]
    unfold opened
    rcases pickle.fromEncrypted (keyText key) with _ | ⟨a | s | i | o⟩
    · simp
    · simp [Pickled.olm?]
    · simp only [Option.bind_some, Pickled.olm?, Function.update_apply]
      by_cases hpeer : peer = extra
      · simp [hpeer]
      · simp [hpeer, Ne.symm hpeer]
    · simp [Pickled.olm?]
    · simp [Pickled.olm?]

/-- Rows come in the order of their ids. -/
theorem allPickles_pairwise (st : Store S) (kind : String) :
    (Read.allPickles st kind).Pairwise fun a b => a.1 ≤ b.1 := by
  have htotal : Std.Total Read.PickleOrder := ⟨fun a b => le_total a.1 b.1⟩
  have htrans : IsTrans _ Read.PickleOrder := ⟨fun a b c hab hbc => le_trans hab hbc⟩
  exact List.pairwise_insertionSort Read.PickleOrder _

/-- **What a start makes of two rows** in this order. -/
theorem pairwise_loaded (h : Loaded st c) (hfiled : Filed st) {r : String → String → Prop}
    (hrows : (Read.allPickles st kindOlm).Pairwise fun a b => r a.1 b.1) (peer : String) :
    (c.olmSessions peer).Pairwise fun s t => r s.id t.id := by
  have hid : ∀ (id extra : String) (pickle : Pickle) (t : OlmSession),
      (id, extra, pickle) ∈ Read.allPickles st kindOlm →
      (if extra = peer then opened Pickled.olm? c.pickleKey pickle else none) = some t → t.id = id := by
    intro id extra pickle t hmem ht
    have hstored : storedOlm st peer id = some t := by
      unfold storedOlm
      rw [h.key, Option.bind_some, mem_allPickles_iff.mp hmem]
      exact ht
    exact hfiled.id_eq hstored
  rw [h.olm, loadOlm_eq_filterMap, List.pairwise_filterMap]
  refine hrows.imp_of_mem ?_
  rintro ⟨id, extra, pickle⟩ ⟨id', extra', pickle'⟩ hmem hmem' hr s hs t ht
  rw [hid id extra pickle s hmem hs, hid id' extra' pickle' t hmem' ht]
  exact hr

/-- **A start lists the sessions in the order of their ids.** -/
theorem ascending_loaded (h : Loaded st c) (hfiled : Filed st) : Ascending c := by
  intro peer s hlast t ht
  have hsorted := pairwise_loaded h hfiled (allPickles_pairwise st kindOlm) peer
  obtain ⟨init, hinit⟩ := List.getLast?_eq_some_iff.mp hlast
  rw [hinit] at hsorted ht
  rcases List.mem_append.mp ht with ht | ht
  · exact (List.pairwise_append.mp hsorted).2.2 t ht s (by simp)
  · rw [List.mem_singleton.mp ht]

/-- After a start the sessions have an id each. -/
theorem distinct_loaded (h : Loaded st c) (hfiled : Filed st) : Distinct c where
  nodup peer := by
    have hrows := List.pairwise_map.mp (allPickles_nodup st kindOlm)
    exact List.pairwise_map.mpr (pairwise_loaded h hfiled hrows peer)
  apart peer peer' s s' hs hs' hid := by
    have hstored : ∀ peer s, s ∈ c.olmSessions peer → storedOlm st peer s.id = some s := fun peer s hs =>
      (Redelivery.inMemory_loaded h (fun peer id t => hfiled.id_eq) s.id s).mp ⟨hs, rfl⟩
    have hextra : ∀ peer s, s ∈ c.olmSessions peer →
        ∃ row, st.db.pickles.lookup (kindOlm, s.id) = some row ∧ row.extra = peer := by
      intro peer s hs
      have hrow := hstored peer s hs
      unfold storedOlm at hrow
      rw [h.key, Option.bind_some] at hrow
      obtain ⟨row, hlookup, hopened⟩ := Option.bind_eq_some_iff.mp hrow
      split_ifs at hopened with hpeer
      exact ⟨row, hlookup, hpeer⟩
    obtain ⟨row, hrow, hpeer⟩ := hextra peer s hs
    obtain ⟨row', hrow', hpeer'⟩ := hextra peer' s' hs'
    rw [hid, hrow'] at hrow
    rw [← hpeer, ← hpeer', Option.some.inj hrow]

end Order

/-! ### Runs -/

section Runs
variable {S : CipherSuite} {Q Ω N : Type} {R : Q → Type} {serve : N → Ω → (q : Q) → R q × Ω}
  {V : Vodozemac} {A : Archive} {most limit : ℕ}

/-- **Every event** without a fault keeps the memory on disk. -/
theorem mirrored_step {p : Process (World S Ω) Crypto Op (Except String Unit)}
    (h : p.Holds (fun _ w => Filed w.disk) fun _ w c => Mirrored w.disk c) {event : Event Op (Outcome N)}
    (hevent : Unfailing event) :
    (Process.step (exec serve) (boot V) (fun op c => (op.code V A most limit).run c) p event).Holds
      (fun _ w => Filed w.disk) fun _ w c => Mirrored w.disk c := by
  rcases event with ⟨op, os⟩ | os
  · obtain ⟨w, memory, returned⟩ := p
    rcases memory with _ | c
    · exact h
    · obtain ⟨hreturns, hkilled⟩ := (keeps_code (V := V) (A := A) op c w (h.2 c rfl)).run
        (os.map fun o => (o.salts, o.net))
      have hrun := run_steady serve ((op.code V A most limit).run c) w hevent
      rcases hr : run (exec serve) ((op.code V A most limit).run c) w os with ⟨_ | ⟨a, c'⟩, w'⟩
      · have hstep : Process.step (exec serve) (boot V) (fun op c => (op.code V A most limit).run c)
            ⟨w, some c, returned⟩ (.call op os) = ⟨w', none, returned⟩ := by
          simp only [Process.step, hr]
        rw [hstep]
        exact ⟨hkilled w' (hrun ▸ hr), fun c hc => by cases hc⟩
      · have hstep : Process.step (exec serve) (boot V) (fun op c => (op.code V A most limit).run c)
            ⟨w, some c, returned⟩ (.call op os) = ⟨w', some c', returned ++ [(op, a)]⟩ := by
          simp only [Process.step, hr]
        rw [hstep]
        have hmirrored := hreturns (a, c') w' (hrun ▸ hr)
        refine ⟨hmirrored.filed, fun c'' hc'' => ?_⟩
        obtain rfl := Option.some.inj hc''
        exact hmirrored
  · refine Process.Holds.booted (C := fun _ => True) ?_ trivial
    refine ((safe_boot_mirrored h.1).recorded []).weaken (fun x hx _ => hx.1) ?_
    rintro m x ⟨⟨hafter, hmirrored⟩, -⟩ -
    exact ⟨h.1.primed hafter.1, fun c hc => (hmirrored c hc).1⟩

theorem mirrored_run (st : Store S) (server : Ω) (hfiled : Filed st) (events : List (Event Op (Outcome N)))
    (hevents : ∀ event ∈ events, Unfailing event) :
    (opRun serve V A most limit st server events).Holds (fun _ w => Filed w.disk)
      fun _ w c => Mirrored w.disk c := by
  induction events using List.reverseRecOn with
  | nil => exact ⟨hfiled, fun c hc => by cases hc⟩
  | append_singleton events event ih =>
    unfold opRun
    rw [Process.runs_append]
    exact mirrored_step (ih fun e he => hevents e (List.mem_append_left _ he))
      (hevents event (List.mem_append_right _ (List.mem_singleton_self event)))

end Runs

/-! ### What is rebuilt -/

/-- After a start the memory is what was loaded. -/
theorem loaded_step {S : CipherSuite} {Q Ω N : Type} {R : Q → Type} {serve : N → Ω → (q : Q) → R q × Ω}
    {V : Vodozemac} {A : Archive} {most limit : ℕ} (p : Process (World S Ω) Crypto Op (Except String Unit))
    {os : List (Outcome N)} {c : Crypto}
    (hc : (Process.step (exec serve) (boot V) (fun op c => (op.code V A most limit).run c) p
      (.boot os)).memory = some c) :
    Loaded (Process.step (exec serve) (boot V) (fun op c => (op.code V A most limit).run c) p
      (.boot os)).world.disk c := by
  have hsafe : Safe (exec serve) (After p.world)
      (fun m w' => After p.world w' ∧ ∀ c, m = some c → Loaded w'.disk c)
      (boot V : Prog (Effect Q) (Answer S R) (Option Crypto)) p.world := safe_boot_loaded
  have hboot := hsafe.run os
  unfold Process.step at hc ⊢
  dsimp only at hc ⊢
  rcases hr : run (exec serve) (boot V) p.world os with ⟨_ | m, w'⟩
  · rw [hr] at hc
    cases hc
  · rw [hr] at hc
    rw [hr] at hboot
    exact (hboot.1 m w' rfl).2 c hc

section Rebuilt
variable {S : CipherSuite} {V : Vodozemac} {A : Archive} {c c' : Crypto}

/-- A room key without a sender. -/
def anonymousKey (sessionKey : String) : Value :=
  .obj [("content", .obj [("algorithm", .str megolmAlgorithm), ("room_id", .str ""),
    ("session_key", .str sessionKey)])]

/-- Where the owner of the session is known it is spoofed, -/
theorem spoofed_anonymousKey {senderKey : String} {owner : String × String}
    (h : c.knownDevices senderKey = some owner) (sessionKey : String) :
    ∃ e, Crypto.spoofed c "m.room_key" senderKey (anonymousKey sessionKey) = some e := by
  have hsender : (anonymousKey sessionKey).getStr "sender" = none := rfl
  unfold Crypto.spoofed
  rw [h, hsender]
  exact ⟨_, rfl⟩

/-- and rejected; -/
theorem roomKey_anonymousKey {senderKey sessionKey e : String}
    (h : Crypto.spoofed c "m.room_key" senderKey (anonymousKey sessionKey) = some e) :
    roomKey V c senderKey (anonymousKey sessionKey) = .error e := by
  unfold roomKey
  rw [h]
  rfl

/-- where not, it is accepted. -/
theorem accepts_anonymousKey {senderKey sessionKey : String} {s : InboundGroupSession}
    (h : c.knownDevices senderKey = none) (hreads : V.readSessionKey sessionKey = .ok s) :
    roomKey V c senderKey (anonymousKey sessionKey) = .ok (some ("", s)) := by
  have hkey : ((Value.obj [("algorithm", .str megolmAlgorithm), ("room_id", .str ""),
      ("session_key", .str sessionKey)]).getStr "session_key") = some sessionKey := rfl
  unfold roomKey Crypto.spoofed
  rw [h]
  show (do
    let sessionKey ← orElse ((Value.obj [("algorithm", .str megolmAlgorithm), ("room_id", .str ""),
      ("session_key", .str sessionKey)]).getStr "session_key") "m.room_key without session_key"
    let session ← V.readSessionKey sessionKey
    return some ("", session)) = Except.ok (some ("", s))
  rw [hkey]
  show (do
    let session ← V.readSessionKey sessionKey
    return some ("", session)) = Except.ok (some ("", s))
  rw [hreads]
  rfl

/-- **Nobody is told apart**, unless nobody was known. -/
theorem rejects_iff (hreads : ∃ text s, V.readSessionKey text = .ok s) (hnone : Unacquainted c') :
    (∀ senderKey event, Rejects V c senderKey event → ∃ e, roomKey V c' senderKey event = .error e) ↔
      Unacquainted c := by
  constructor
  · intro h senderKey
    by_contra hknown
    obtain ⟨owner, hknown⟩ := Option.ne_none_iff_exists'.mp hknown
    obtain ⟨text, s, htext⟩ := hreads
    obtain ⟨e, hspoofed⟩ := spoofed_anonymousKey hknown text
    obtain ⟨e', he⟩ := h senderKey (anonymousKey text) ⟨e, hspoofed, roomKey_anonymousKey hspoofed⟩
    rw [accepts_anonymousKey (hnone senderKey) htext] at he
    cases he
  · rintro h senderKey event ⟨e, hspoofed, -⟩
    unfold Crypto.spoofed at hspoofed
    rw [h senderKey] at hspoofed
    cases hspoofed

/-- **The same session is picked** for each device, if the last ones have the greatest ids. -/
theorem picked_iff (hdistinct : Distinct c) (hsame : ∀ peer t, t ∈ c'.olmSessions peer ↔ t ∈ c.olmSessions peer)
    (hascending : Ascending c') :
    (∀ curveKey, Crypto.picked c' curveKey = Crypto.picked c curveKey) ↔ Ascending c := by
  constructor
  · intro h curveKey s hlast t ht
    exact hascending curveKey s ((h curveKey).trans hlast) t ((hsame curveKey t).mpr ht)
  · intro h curveKey
    unfold Crypto.picked
    rcases hlast : (c.olmSessions curveKey).getLast? with _ | s
    · rw [List.getLast?_eq_none_iff] at hlast ⊢
      refine List.eq_nil_iff_forall_not_mem.mpr fun t ht => ?_
      have hmem := (hsame curveKey t).mp ht
      rw [hlast] at hmem
      cases hmem
    · have hs : s ∈ c.olmSessions curveKey := List.mem_of_getLast? hlast
      have hs' := (hsame curveKey s).mpr hs
      rcases hlast' : (c'.olmSessions curveKey).getLast? with _ | s'
      · rw [List.getLast?_eq_none_iff] at hlast'
        rw [hlast'] at hs'
        cases hs'
      · have hmem : s' ∈ c.olmSessions curveKey :=
          (hsame curveKey s').mp (List.mem_of_getLast? hlast')
        have hid : s'.id = s.id :=
          le_antisymm (h curveKey s hlast s' hmem) (hascending curveKey s' hlast' s hs')
        rw [List.inj_on_of_nodup_map (hdistinct.nodup curveKey) hmem hs hid]

/-- **A restart is transparent exactly if** no device was known, and the last session with each has the
greatest id: for the state at the end of any run of operations in which no store access fails, and the one
that a start rebuilds from the disk. -/
theorem transparent_iff {Q Ω N : Type} {R : Q → Type} (serve : N → Ω → (q : Q) → R q × Ω) (most limit : ℕ)
    (hreads : ∃ text s, V.readSessionKey text = .ok s) (st : Store S) (server : Ω) (hfiled : Filed st)
    (events : List (Event Op (Outcome N))) (hevents : ∀ event ∈ events, Unfailing event)
    (hc : (opRun serve V A most limit st server events).memory = some c) (hdistinct : Distinct c)
    {os : List (Outcome N)} {w' : World S Ω}
    (hrebuilt : run (exec serve) (boot V) (opRun serve V A most limit st server events).world os =
      (some (some c'), w')) :
    Transparent V A c c' ↔ Unacquainted c ∧ Ascending c := by
  have hmirrored := (mirrored_run st server hfiled events hevents).2 c hc
  obtain ⟨⟨hprimed, -⟩, hboot⟩ :=
    (safe_boot_mirrored (V := V) hmirrored.filed).run os |>.1 (some c') w' hrebuilt
  obtain ⟨hmirrored', hloaded⟩ := hboot c' rfl
  have hinbound : c'.inbound = c.inbound := by
    funext id
    rw [hloaded.inbound, hmirrored.mirrors.inbound]
    exact hprimed.stored_eq hmirrored.mirrors.key (fun heq => absurd (Prod.mk.inj heq).1 (by decide))
  have houtbound : c'.outbound = c.outbound := by
    funext room
    rw [hloaded.outbound, hmirrored.outbound]
    exact hprimed.stored_eq hmirrored.mirrors.key (fun heq => absurd (Prod.mk.inj heq).1 (by decide))
  have hbackupKey : c'.backupKey = c.backupKey := by
    obtain ⟨found, hfound, hc⟩ := hmirrored.backupKey
    obtain ⟨found', hfound', hc'⟩ := hmirrored'.backupKey
    rw [hprimed.getMeta_eq hmirrored.mirrors.key, hfound] at hfound'
    rw [hc, hc', Except.ok.inj hfound']
  have hsame : ∀ peer t, t ∈ c'.olmSessions peer ↔ t ∈ c.olmSessions peer := by
    intro peer t
    have hrow := hmirrored.olm hdistinct peer t.id t
    have hrow' : Ways.inMemory c' peer t.id t ↔ Ways.onDisk w'.disk peer t.id t :=
      Redelivery.inMemory_loaded hloaded (fun peer id t => hmirrored'.filed.id_eq) t.id t
    unfold Ways.inMemory Ways.onDisk at hrow'
    rw [hprimed.storedOlm_eq hmirrored.mirrors.key, hrow] at hrow'
    simpa using hrow'
  have hascending := ascending_loaded hloaded hmirrored'.filed
  have hnone : Unacquainted c' := fun senderKey => by rw [hloaded.knownDevices]
  constructor
  · intro h
    exact ⟨(rejects_iff hreads hnone).mp h.rejects, (picked_iff hdistinct hsame hascending).mp h.picked⟩
  · rintro ⟨hunacquainted, hlast⟩
    refine ⟨fun sessionId ciphertext => ?_, fun room => ?_, ?_,
      (picked_iff hdistinct hsame hascending).mpr hlast, (rejects_iff hreads hnone).mpr hunacquainted⟩
    · unfold Crypto.decrypt
      rw [hinbound]
    · unfold Crypto.hasOutbound
      rw [houtbound]
    · unfold Crypto.hasBackupKey
      rw [hbackupKey]

end Rebuilt

/-! ### A session of theirs -/

section Examples

def bobDevice : DeviceInfo := ⟨"@bob:h", "BOB", "bob curve", "bob ed"⟩

/-- A one-time key of his. -/
def bobClaim : Value :=
  .obj [("one_time_keys", .obj [("@bob:h", .obj [("BOB", .obj [("signed_curve25519:A",
    .obj [("key", .str "bob otk")])])])])]

/-- A message with which he starts a session. -/
def bobEvent : ToDeviceEvent :=
  ⟨"m.room.encrypted", "@bob:h",
    .obj [("algorithm", .str olmAlgorithm),
      ("ciphertext", .obj [("our curve", .obj [("body", .str "body"), ("type", .int 0)])]),
      ("sender_key", .str "bob curve")]⟩

def bobVodozemac : Vodozemac := plainVodozemac [] [("body", ⟨"a", 0, some "kk", "hello"⟩)]

def noArchive : Archive := plainArchive (fun _ => 0) []

/-- A start in which nothing fails. -/
def started : Event Op (Outcome Unit) := .boot (List.replicate 10 (calm ()))

/-- An operation in which nothing fails. -/
def done (op : Op) : Event Op (Outcome Unit) := .call op (List.replicate 10 (calm ()))

abbrev runHere (events : List (Event Op (Outcome Unit))) :
    Process (World copySuite Unit) Crypto Op (Except String Unit) :=
  opRun Megolm.unserved bobVodozemac noArchive 50 100 blankStore () events

/-- Another start, over what the run left. -/
abbrev rebuilt (events : List (Event Op (Outcome Unit))) :
    Option (Option Crypto) × World copySuite Unit :=
  run (exec Megolm.unserved) (boot bobVodozemac) (runHere events).world (List.replicate 10 (calm ()))

theorem unfailing_started : Unfailing started := by
  intro o ho
  rw [List.eq_of_mem_replicate ho]
  rfl

theorem unfailing_done (op : Op) : Unfailing (done op) := by
  intro o ho
  rw [List.eq_of_mem_replicate ho]
  rfl

/-- A session with Bob, and a restart. -/
def quietRun : List (Event Op (Outcome Unit)) :=
  [started, done (.createOutboundOlm bobClaim [bobDevice]), started]

theorem unfailing_quietRun : ∀ event ∈ quietRun, Unfailing event := by
  intro event hevent
  simp only [quietRun, List.mem_cons, List.not_mem_nil, or_false] at hevent
  rcases hevent with rfl | rfl | rfl
  · exact unfailing_started
  · exact unfailing_done _
  · exact unfailing_started

theorem filed_blankStore : Filed blankStore := by
  intro id row t hrow
  cases hrow

/-- What the restart of the run loaded. -/
theorem loaded_quietRun {c : Crypto} (hc : (runHere quietRun).memory = some c) :
    Loaded (runHere quietRun).world.disk c ∧ Filed (runHere quietRun).world.disk := by
  have hfiled : Filed (runHere quietRun).world.disk :=
    (mirrored_run blankStore () filed_blankStore quietRun unfailing_quietRun).1
  have hlast : runHere quietRun = Process.step (exec Megolm.unserved) (boot bobVodozemac)
      (fun op c => (op.code bobVodozemac noArchive 50 100).run c)
      (runHere [started, done (.createOutboundOlm bobClaim [bobDevice])])
      (.boot (List.replicate 10 (calm ()))) := rfl
  rw [hlast] at hc hfiled ⊢
  exact ⟨loaded_step _ hc, hfiled⟩

theorem transparent_iff_quiet :
    ∃ c c' w', (runHere quietRun).memory = some c ∧ (c.olmSessions "bob curve").length = 1 ∧
      rebuilt quietRun = (some (some c'), w') ∧ Transparent bobVodozemac noArchive c c' := by
  have hmemory : (runHere quietRun).memory.any
      (fun c => (c.olmSessions "bob curve").length = 1) = true := by decide +kernel
  have hrebuilt : (rebuilt quietRun).1.any (fun found => found.isSome) = true := by decide +kernel
  simp only [Option.any_eq_true, decide_eq_true_eq] at hmemory hrebuilt
  obtain ⟨c, hc, hlength⟩ := hmemory
  obtain ⟨found, hfound, hsome⟩ := hrebuilt
  obtain ⟨c', rfl⟩ := Option.isSome_iff_exists.mp hsome
  have hpair : rebuilt quietRun = (some (some c'), (rebuilt quietRun).2) := by
    rw [← hfound]
  obtain ⟨hloaded, hfiled⟩ := loaded_quietRun hc
  refine ⟨c, c', _, hc, hlength, hpair, ?_⟩
  refine (transparent_iff Megolm.unserved 50 100 ⟨"m", ⟨"m", 0⟩, rfl⟩ blankStore () filed_blankStore quietRun
    unfailing_quietRun hc (distinct_loaded hloaded hfiled) hpair).mpr ⟨fun senderKey => ?_, ?_⟩
  · rw [hloaded.knownDevices]
  · exact ascending_loaded hloaded hfiled

/-- A session with Bob, and one that Bob starts. -/
def crossedRun : List (Event Op (Outcome Unit)) :=
  [started, done (.keysUploadBody ⟨"https://h", "@me:h", "ME", "token"⟩ 49 false),
    done (.createOutboundOlm bobClaim [bobDevice]), done (.handleToDevice [bobEvent])]

/-- **Both are lost**: Bob's session is not the last any more, and a room key under another name is
accepted. -/
theorem not_transparent_restarted :
    (∀ event ∈ crossedRun, Unfailing event) ∧
    ∃ c c' w', (runHere crossedRun).memory = some c ∧ rebuilt crossedRun = (some (some c'), w') ∧
      (Crypto.picked c "bob curve").map OlmSession.id = some "a" ∧
      (Crypto.picked c' "bob curve").map OlmSession.id = some "ooo" ∧
      Rejects bobVodozemac c "bob curve" (anonymousKey "m") ∧
      roomKey bobVodozemac c' "bob curve" (anonymousKey "m") = .ok (some ("", ⟨"m", 0⟩)) ∧
      ¬ Transparent bobVodozemac noArchive c c' := by
  have hunfailing : ∀ event ∈ crossedRun, Unfailing event := by
    intro event hevent
    simp only [crossedRun, List.mem_cons, List.not_mem_nil, or_false] at hevent
    rcases hevent with rfl | rfl | rfl | rfl
    · exact unfailing_started
    · exact unfailing_done _
    · exact unfailing_done _
    · exact unfailing_done _
  have hmemory : (runHere crossedRun).memory.any (fun c =>
      (Crypto.picked c "bob curve").map OlmSession.id = some "a" ∧
        c.knownDevices "bob curve" = some ("@bob:h", "BOB")) = true := by decide +kernel
  have hrebuilt : (rebuilt crossedRun).1.any (fun found => found.any fun c' =>
      (Crypto.picked c' "bob curve").map OlmSession.id = some "ooo" ∧
        c'.knownDevices "bob curve" = none) = true := by decide +kernel
  simp only [Option.any_eq_true, decide_eq_true_eq] at hmemory hrebuilt
  obtain ⟨c, hc, hpicked, hknown⟩ := hmemory
  obtain ⟨found, hfound, c', rfl, hpicked', hknown'⟩ := hrebuilt
  have hpair : rebuilt crossedRun = (some (some c'), (rebuilt crossedRun).2) := by
    rw [← hfound]
  obtain ⟨e, hspoofed⟩ := spoofed_anonymousKey hknown "m"
  refine ⟨hunfailing, c, c', _, hc, hpair, hpicked, hpicked', ⟨e, hspoofed, roomKey_anonymousKey hspoofed⟩,
    accepts_anonymousKey hknown' rfl, fun h => ?_⟩
  rw [h.picked, hpicked] at hpicked'
  exact absurd hpicked' (by decide)

end Examples

end Kmatrix.E2ee.Restart
