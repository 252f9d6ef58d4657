import Kmatrix.E2ee.Inbound
import Kmatrix.E2ee.Provenance
import Kmatrix.E2ee.Stored

/-! # The sessions held

While the process runs, the inbound sessions in memory are those on disk (`Mirrors`). A condition `D` on
the disk survives the calls that store sessions if it survives the storing of each session they admit
(`Kept`): a room key is admitted where the caller says so, a backup entry where it starts earlier than
the session held, a session of our own always. One lemma for each call. -/

namespace Kmatrix.E2ee.Held

open Kmatrix.Lib.Crash Kmatrix.Lib.Keyed Kmatrix.E2ee.Ratchets Kmatrix.E2ee.Json Kmatrix.E2ee.Effects
open Kmatrix.E2ee.Sessions Kmatrix.E2ee.Secrets Kmatrix.E2ee.ToDevice Kmatrix.E2ee.Inbound
open Kmatrix.E2ee.Provenance Kmatrix.E2ee.Stored
open Kmatrix.Storage Kmatrix.Storage.Seal Kmatrix.Storage.Schema
open Kmatrix.Storage.Write (StoreOp)

/-- Sessions under their ids. -/
abbrev Holding := String → Option InboundGroupSession

/-! ### The condition -/

section Condition
variable {S : CipherSuite}

/-- **The sessions in memory are those on disk.** -/
structure Mirrors (st : Store S) (c : Crypto) : Prop where
  key : storedKey st = some c.pickleKey
  inbound : ∀ id, c.inbound id = storedInbound st id

/-- The inbound sessions of both are the same. -/
structure Alike (st st' : Store S) : Prop where
  key : storedKey st' = storedKey st
  rows : ∀ id, st'.db.pickles.lookup (kindMegolmIn, id) = st.db.pickles.lookup (kindMegolmIn, id)

theorem Alike.refl (st : Store S) : Alike st st := ⟨rfl, fun _ => rfl⟩

theorem Alike.trans {st st' st'' : Store S} (h : Alike st st') (h' : Alike st' st'') : Alike st st'' :=
  ⟨h'.key.trans h.key, fun id => (h'.rows id).trans (h.rows id)⟩

/-- A session is stored. -/
abbrev storing (c : Crypto) (s : InboundGroupSession) (room : String) : StoreOp :=
  .putPickle kindMegolmIn s.id room (c.pickle (.inbound s))

/-- **A condition on the disk** that the storing of admitted sessions keeps. -/
structure Kept (D : Store S → Prop) (Admit : Holding → InboundGroupSession → Prop) : Prop where
  alike : ∀ {st st' : Store S}, D st → Alike st st' → D st'
  primed : ∀ {st st' : Store S}, D st → Primed st st' → D st'
  store : ∀ {st : Store S} {c : Crypto} {s : InboundGroupSession}, D st → Mirrors st c →
    Admit c.inbound s → ∀ rng room, D ((storing c s room).exec rng st)
  imported : ∀ {held : Holding} {s : InboundGroupSession},
    (∀ s', held s.id = some s' → s.firstKnownIndex < s'.firstKnownIndex) → Admit held s
  created : ∀ (held : Holding) (id : String), Admit held ⟨id, 0⟩

/-- Nothing is asked. -/
theorem kept_trivial : Kept (fun _ : Store S => True) fun _ _ => True :=
  ⟨fun _ _ => trivial, fun _ _ => trivial, fun _ _ _ _ _ => trivial, fun _ => trivial,
    fun _ _ => trivial⟩

theorem alike_put {kind : String} (hkind : kindMegolmIn ≠ kind) (rng : Salts) (st : Store S)
    (id extra : String) (pickle : Pickle) :
    Alike st ((StoreOp.putPickle kind id extra pickle).exec rng st) where
  key := storedKey_putPickle rng st kind id extra pickle
  rows id' := by rw [lookup_put, if_neg fun h => hkind (Prod.mk.inj h).1]

theorem Alike.storedInbound {st st' : Store S} (h : Alike st st') (id : String) :
    storedInbound st' id = Stored.storedInbound st id := by
  unfold Stored.storedInbound stored
  rw [h.key, h.rows]

theorem Mirrors.alike {st st' : Store S} {c c' : Crypto} (h : Mirrors st c) (hst : Alike st st')
    (hkey : c'.pickleKey = c.pickleKey) (hinbound : c'.inbound = c.inbound) : Mirrors st' c' where
  key := by rw [hst.key, h.key, hkey]
  inbound id := by rw [hinbound, h.inbound, hst.storedInbound]

/-- What is stored once a session is. -/
theorem storedInbound_storing {st : Store S} {c : Crypto} (h : Mirrors st c) (s : InboundGroupSession)
    (rng : Salts) (room id : String) :
    storedInbound ((storing c s room).exec rng st) id =
      if id = s.id then some s else storedInbound st id := by
  refine (stored_putPickle h.key rng kindMegolmIn s.id room (.inbound s) kindMegolmIn id).trans ?_
  simp [Pickled.inbound?, storedInbound]

theorem Mirrors.storing {st : Store S} {c : Crypto} (h : Mirrors st c) (s : InboundGroupSession)
    (rng : Salts) (room : String) :
    Mirrors ((Held.storing c s room).exec rng st)
      { c with inbound := Function.update c.inbound s.id (some s) } where
  key := (storedKey_putPickle rng st _ _ _ _).trans h.key
  inbound id := by
    rw [storedInbound_storing h, ← h.inbound]
    exact Function.update_apply _ _ _ _

end Condition

/-! ### Reading an event -/

/-- **The room key an event brings**, if it can be read. -/
def sharedSession (V : Vodozemac) (c : Crypto) (event : ToDeviceEvent) : Option InboundGroupSession := do
  if event.kind ≠ "m.room.encrypted" then none
  let (senderKey, message) ← (olmMessage V c event.content).toOption.join
  if opens V c senderKey message = false then none
  let share ← (V.readJson message.plaintext).toOption
  if share.getStr "type" ≠ some "m.room_key" then none
  let (_, session) ← (roomKey V c senderKey share).toOption.join
  return session

/-! ### The calls -/

/-- The calls that touch inbound sessions. A batch of to-device events is its events one after the other
(`handleToDevice_cons`). -/
inductive Call where
  | toDevice (event : ToDeviceEvent)
  | importBackupSession (room sessionId : String) (entry : Value)
  | getOrCreateOutbound (room : String)
  | setBackupKey (secret : String) (expectedPublicKey : Option String)

def Call.code {S : CipherSuite} {Q : Type} {R : Q → Type} (V : Vodozemac) (A : Archive) :
    Call → Crypto → Prog (Effect Q) (Answer S R) (Unit × Crypto)
  | .toDevice event, c => ((handleToDevice V [event]).run c).bind fun r => .ret ((), r.2)
  | .importBackupSession room sessionId entry, c =>
    ((Inbound.importBackupSession V A room sessionId entry).run c).bind fun r => .ret ((), r.2)
  | .getOrCreateOutbound room, c =>
    ((Sessions.getOrCreateOutbound V room).run c).bind fun r => .ret ((), r.2)
  | .setBackupKey secret expectedPublicKey, c =>
    ((setBackupKeyBase64 V secret expectedPublicKey).run c).bind fun r => .ret ((), r.2)

/-- A room key that comes in is admitted. -/
def Admitted (V : Vodozemac) (Admit : Holding → InboundGroupSession → Prop) (c : Crypto) : Call → Prop
  | .toDevice event => ∀ s, sharedSession V c event = some s → Admit c.inbound s
  | _ => True

section Rules
variable {S : CipherSuite} {Q Ω N : Type} {R : Q → Type} {serve : N → Ω → (q : Q) → R q × Ω}
  {V : Vodozemac} {A : Archive} {D : Store S → Prop} {Admit : Holding → InboundGroupSession → Prop}
  {w : World S Ω} {c : Crypto}

/-- **What holds while the process runs.** -/
structure Ready (D : Store S → Prop) (w : World S Ω) (c : Crypto) : Prop where
  mirrors : Mirrors w.disk c
  disk : D w.disk

/-- A write of another kind. -/
theorem Ready.put (hD : Kept D Admit) (h : Ready D w c) {kind : String} (hkind : kindMegolmIn ≠ kind)
    (rng : Salts) (id extra : String) (pickle : Pickle) :
    Ready D { w with disk := (StoreOp.putPickle kind id extra pickle).exec rng w.disk } c :=
  have halike := alike_put hkind rng w.disk id extra pickle
  ⟨h.mirrors.alike halike rfl rfl, hD.alike h.disk halike⟩

/-- A memory with the same inbound sessions. -/
theorem Ready.congr (h : Ready D w c) {c' : Crypto} (hkey : c'.pickleKey = c.pickleKey)
    (hinbound : c'.inbound = c.inbound) : Ready D w c' :=
  ⟨h.mirrors.alike ⟨rfl, fun _ => rfl⟩ hkey hinbound, h.disk⟩

/-- **An admitted session is stored**, and then held. -/
theorem Ready.storing (hD : Kept D Admit) (h : Ready D w c) {s : InboundGroupSession}
    (hs : Admit c.inbound s) (rng : Salts) (room : String) :
    Ready D { w with disk := (Held.storing c s room).exec rng w.disk }
      { c with inbound := Function.update c.inbound s.id (some s) } :=
  ⟨h.mirrors.storing s rng room, hD.store h.disk h.mirrors hs rng room⟩

/-- What decrypting an Olm message leaves alone. -/
structure Same (c c' : Crypto) : Prop where
  inbound : c'.inbound = c.inbound
  pickleKey : c'.pickleKey = c.pickleKey
  ed25519Key : c'.account.ed25519Key = c.account.ed25519Key
  knownDevices : c'.knownDevices = c.knownDevices

theorem ed25519Key_createInboundSession {account account' : Account} {m : OlmMessage}
    {session : OlmSession} {plaintext : String}
    (h : account.createInboundSession m = some (account', session, plaintext)) :
    account'.ed25519Key = account.ed25519Key := by
  unfold Account.createInboundSession at h
  split at h
  · simp at h
  · split_ifs at h
    obtain ⟨rfl, -⟩ := Prod.mk.inj (Option.some.inj h)
    rfl

theorem roomKey_congr {c' : Crypto} (h : Same c c') (senderKey : String) (event : Value) :
    roomKey V c' senderKey event = roomKey V c senderKey event := by
  unfold roomKey Crypto.spoofed
  rw [h.ed25519Key, h.knownDevices]

theorem safe_createInboundOlm_kept (hD : Kept D Admit) (h : Ready D w c) (senderKey : String)
    (message : OlmMessage) :
    Safe (exec serve) (fun w => D w.disk) (fun r w' => Ready D w' r.2 ∧ Same c r.2)
      ((createInboundOlm V senderKey message : Code S R Crypto String).run c) w := by
  unfold createInboundOlm
  dsimp only
  split_ifs with hvalid
  · exact ⟨h, rfl, rfl, rfl, rfl⟩
  · rw [Act.safe_bind, Act.safe_get, Act.then_ok]
    rcases hcreate : c.account.createInboundSession message with _ | ⟨account, session, plaintext⟩
    · exact ⟨h, rfl, rfl, rfl, rfl⟩
    · have hed := ed25519Key_createInboundSession hcreate
      simp only [Act.safe_bind, Act.safe_modify, Act.then_ok]
      refine safe_put h.disk (fun e => ⟨h.congr rfl rfl, rfl, rfl, hed, rfl⟩) fun rng => ?_
      have h₁ := h.put hD (show kindMegolmIn ≠ kindOlm by decide) rng session.id senderKey
        (c.pickle (.olm session))
      unfold persistAccount
      simp only [Act.then_ok, Act.safe_bind, Act.safe_get]
      refine safe_put h₁.disk (fun e => ⟨h₁.congr rfl rfl, rfl, rfl, hed, rfl⟩) fun rng' => ?_
      have h₂ := h₁.put hD (show kindMegolmIn ≠ kindAccount by decide) rng' "self" ""
        (c.pickle (.account account))
      exact ⟨h₂.congr rfl rfl, rfl, rfl, hed, rfl⟩

theorem safe_decryptOlm_kept (hD : Kept D Admit) (h : Ready D w c) (senderKey : String)
    (message : OlmMessage) :
    Safe (exec serve) (fun w => D w.disk) (fun r w' => Ready D w' r.2 ∧ Same c r.2)
      ((decryptOlm V senderKey message : Code S R Crypto String).run c) w := by
  unfold decryptOlm decryptWithExisting
  simp only [Act.safe_bind, Act.safe_get, Act.then_ok]
  rcases trySessions message (c.olmSessions senderKey) with _ | ⟨session, plaintext, sessions⟩
  · rw [Act.safe_pure, Act.then_ok]
    split_ifs
    · exact safe_createInboundOlm_kept hD h senderKey message
    · exact ⟨h, rfl, rfl, rfl, rfl⟩
  · simp only [Act.safe_bind, Act.safe_modify, Act.then_ok, Act.safe_attempt]
    refine safe_put h.disk (fun e => ⟨h.congr rfl rfl, rfl, rfl, rfl, rfl⟩) fun rng => ?_
    have h₁ := h.put hD (show kindMegolmIn ≠ kindOlm by decide) rng session.id senderKey
      (c.pickle (.olm session))
    exact ⟨h₁.congr rfl rfl, rfl, rfl, rfl, rfl⟩

/-- **An event** stores its room key. -/
theorem safe_handleOlmEvent_kept (hD : Kept D Admit) (h : Ready D w c) {event : ToDeviceEvent}
    (hkind : event.kind = "m.room.encrypted")
    (hadm : ∀ s, sharedSession V c event = some s → Admit c.inbound s) :
    Safe (exec serve) (fun w => D w.disk) (fun r w' => Ready D w' r.2)
      ((handleOlmEvent V event : Code S R Crypto (Option Secret)).run c) w := by
  unfold handleOlmEvent
  simp only [Act.safe_bind, Act.safe_get, Act.then_ok, Act.safe_ofExcept]
  rcases hread : olmMessage V c event.content with e | _ | ⟨senderKey, message⟩
  · exact h
  · exact h
  · simp only [Act.then_ok, Act.safe_bind]
    refine ((safe_decryptOlm senderKey message).and
      (safe_decryptOlm_kept hD h senderKey message)).weaken (fun _ h => h.2) ?_
    rintro ⟨e | plaintext, c'⟩ w' ⟨⟨-, hplain⟩, h', hsame⟩
    · exact h'
    · obtain ⟨rfl, hopens⟩ := hplain plaintext rfl
      unfold handleOlmPlaintext
      simp only [Act.then_ok, Act.safe_bind, Act.safe_ofExcept]
      rcases hjson : V.readJson message.plaintext with e | share
      · exact h'
      · rw [Act.then_ok]
        split
        · next htype =>
          unfold storeRoomKey
          simp only [Act.safe_bind, Act.safe_get, Act.then_ok, Act.safe_ofExcept]
          dsimp only at h' hsame
          rw [roomKey_congr hsame]
          rcases hroom : roomKey V c senderKey share with e | _ | ⟨roomId, session⟩
          · exact h'
          · exact h'
          · have hshared : sharedSession V c event = some session := by
              simp [sharedSession, hkind, hread, hopens, hjson, htype, hroom, Except.toOption]
            have hs : Admit c'.inbound session := by
              rw [hsame.inbound]
              exact hadm session hshared
            simp only [Act.then_ok, Act.safe_bind]
            exact safe_put h'.disk (fun e => h') fun rng => h'.storing hD hs rng roomId
        · exact h'
        · exact h'

theorem safe_handleEvent_kept (hD : Kept D Admit) (h : Ready D w c) {event : ToDeviceEvent}
    (hadm : ∀ s, sharedSession V c event = some s → Admit c.inbound s) :
    Safe (exec serve) (fun w => D w.disk) (fun r w' => Ready D w' r.2)
      ((handleEvent V event : Code S R Crypto (List Secret)).run c) w := by
  unfold handleEvent
  split_ifs with hkind
  · exact h
  · rw [not_not] at hkind
    rw [Act.safe_bind, Act.safe_attempt]
    refine (safe_handleOlmEvent_kept hD h hkind hadm).mono ?_
    rintro ⟨e | _ | secret, c'⟩ w' h'
    · exact h'
    · exact h'
    · exact h'

theorem safe_importBackupSession (hD : Kept D Admit) (h : Ready D w c) (room sessionId : String)
    (entry : Value) :
    Safe (exec serve) (fun w => D w.disk) (fun r w' => Ready D w' r.2)
      ((Inbound.importBackupSession V A room sessionId entry : Code S R Crypto Bool).run c) w := by
  unfold Inbound.importBackupSession
  simp only [Act.safe_bind, Act.safe_get, Act.then_ok]
  split_ifs
  · exact h
  · rw [Act.safe_bind, Act.safe_ofExcept]
    rcases openEntry V A c sessionId entry with e | _ | session
    · exact h
    · exact h
    · rw [Act.then_ok]
      dsimp only
      split_ifs with hid hheld
      · exact h
      · exact h
      · have hs : Admit c.inbound session := by
          refine hD.imported fun s' hs' => ?_
          unfold Crypto.holdsFrom at hheld
          rw [hs'] at hheld
          simpa using hheld
        rw [Act.safe_bind]
        exact safe_put h.disk (fun e => h) fun rng => h.storing hD hs rng room

/-- A new session of our own starts at its first message. -/
theorem safe_getOrCreateOutbound_kept (hD : Kept D Admit) (h : Ready D w c) (room : String) :
    Safe (exec serve) (fun w => D w.disk) (fun r w' => Ready D w' r.2)
      ((Sessions.getOrCreateOutbound V room : Code S R Crypto GroupSession).run c) w := by
  unfold Sessions.getOrCreateOutbound
  simp only [Act.safe_bind, Act.safe_get, Act.then_ok]
  have hlast := fun (c' : Crypto) (w' : World S Ω) (h' : Ready D w' c') =>
    (@Sessions.safe_outbound S Q _ _ R (exec serve) (fun w => D w.disk) (fun c w => Ready D w c) c' w' h'
      room).mono fun _ _ h => h.1
  split_ifs
  · simp only [Act.safe_bind]
    have hd : Ready D { w with drawn := w.drawn + 1 } c := ⟨h.mirrors, h.disk⟩
    refine safe_draw h.disk ?_
    simp only [Act.then_ok, Act.safe_bind]
    refine safe_put hd.disk (fun e => hd) fun rng => ?_
    have hout := hd.put hD (show kindMegolmIn ≠ kindMegolmOut by decide) rng room "0"
      (c.pickle (.outbound ⟨V.groupSessionId w.drawn, 0⟩))
    simp only [Act.then_ok, Act.safe_bind]
    refine safe_put hout.disk (fun e => hout) fun rng' => ?_
    simp only [Act.then_ok]
    refine hlast _ _ ?_
    have hin := hout.storing hD (s := .ofGroupSession ⟨V.groupSessionId w.drawn, 0⟩)
      (hD.created _ _) rng' room
    exact hin.congr rfl rfl
  · exact hlast c w h

theorem safe_setBackupKey (hD : Kept D Admit) (h : Ready D w c) (secret : String)
    (expected : Option String) :
    Safe (exec serve) (fun w => D w.disk) (fun r w' => Ready D w' r.2)
      ((setBackupKeyBase64 V secret expected : Code S R Crypto Unit).run c) w := by
  unfold setBackupKeyBase64
  rw [Act.safe_bind, Act.safe_ofExcept]
  rcases decodeSharedKey secret with e | key
  · exact h
  · rw [Act.then_ok, Act.safe_bind, Act.safe_ofExcept]
    rcases comparePublicKey V key expected with e | u
    · exact h
    · rw [Act.then_ok, Act.safe_bind]
      refine safe_put h.disk (fun e => h) fun rng => ?_
      have halike : Alike w.disk ((StoreOp.setMeta backupKeyMeta (keyText key)).exec rng w.disk) :=
        ⟨storedKey_congr (getMeta_setMeta_of_ne (by decide) rng w.disk _), fun id => rfl⟩
      exact ⟨h.mirrors.alike halike rfl rfl, hD.alike h.disk halike⟩

/-- **Every call** keeps the condition, where the room key it brings is admitted. -/
theorem safe_call (hD : Kept D Admit) (h : Ready D w c) (call : Call)
    (hadm : Admitted V Admit c call) :
    Safe (exec serve) (fun w => D w.disk) (fun r w' => Ready D w' r.2)
      (call.code V A c : Prog (Effect Q) (Answer S R) (Unit × Crypto)) w := by
  rcases call with event | ⟨room, sessionId, entry⟩ | room | ⟨secret, expected⟩
  · unfold Call.code handleToDevice Act.collect
    dsimp only
    rw [safe_bind, Act.safe_bind]
    refine (safe_handleEvent_kept hD h hadm).mono ?_
    rintro ⟨e | secrets, c'⟩ w' h'
    · exact h'
    · exact h'
  · unfold Call.code
    dsimp only
    rw [safe_bind]
    exact safe_importBackupSession hD h room sessionId entry
  · unfold Call.code
    dsimp only
    rw [safe_bind]
    exact safe_getOrCreateOutbound_kept hD h room
  · unfold Call.code
    dsimp only
    rw [safe_bind]
    exact safe_setBackupKey hD h secret expected

/-- **A start** comes back to the sessions on disk. -/
theorem safe_boot_kept (hD : Kept D Admit) (h : D w.disk) :
    Safe (exec serve) (fun w => D w.disk)
      (fun m w' => D w'.disk ∧ ∀ c, m = some c → Ready D w' c)
      (boot V : Prog (Effect Q) (Answer S R) (Option Crypto)) w := by
  have hafter : ∀ w' : World S Ω, After w w' → D w'.disk := fun w' hw' => hD.primed h hw'.1
  refine safe_boot_loaded.weaken hafter ?_
  rintro m w' ⟨h', hload⟩
  refine ⟨hafter w' h', fun c hc => ⟨⟨(hload c hc).key, (hload c hc).inbound⟩, hafter w' h'⟩⟩

end Rules

end Kmatrix.E2ee.Held
