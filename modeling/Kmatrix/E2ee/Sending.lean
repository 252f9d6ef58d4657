import Kmatrix.E2ee.Held
import Kmatrix.E2ee.Megolm

/-! # Sending after a key was shared

A sender has shared the key of a room's session `s`, from the index it was at. From then on, through failed
writes, kills and restarts, the room's session is `s` at that index or later, in memory and on disk: so what
`encrypt` returns for the room is of `s`, not before that index (`sent_run`). Our own inbound copy reads from
there where it was there before the share, or the share made the session (`Sends`). `safe_share` is the share
itself, and what it holds for one of the devices. -/

namespace Kmatrix.E2ee.Sending

open Kmatrix.Lib.Crash Kmatrix.E2ee.Ratchets Kmatrix.E2ee.Json Kmatrix.E2ee.Effects
open Kmatrix.E2ee.Sessions Kmatrix.E2ee.Stored
open Kmatrix.E2ee.Held hiding Call
open Kmatrix.E2ee.Megolm (Call)
open Kmatrix.Storage Kmatrix.Storage.Seal Kmatrix.Storage.Schema
open Kmatrix.Storage.Write (StoreOp)
open Kmatrix.Sas.Machine (Self DeviceInfo)

/-! ### From an index on -/

/-- An inbound session reads `s` from its index on. -/
def Reads (s : GroupSession) (found : Option InboundGroupSession) : Prop :=
  ∃ u, found = some u ∧ u.id = s.id ∧ u.firstKnownIndex ≤ s.index

/-- An outbound session is `s`, at its index or later. -/
def Onward (s : GroupSession) (found : Option GroupSession) : Prop :=
  ∃ s', found = some s' ∧ s'.id = s.id ∧ s.index ≤ s'.index

/-- **What is read** is every message of `s` from its index on. -/
theorem Reads.decrypt {s : GroupSession} {found : Option InboundGroupSession} (h : Reads s found)
    {m : MegolmMessage} (hid : m.session = s.id) (hindex : s.index ≤ m.index) :
    ∃ u, found = some u ∧ u.decrypt m = some m.plaintext := by
  obtain ⟨u, hu, huid, hfirst⟩ := h
  refine ⟨u, hu, ?_⟩
  unfold InboundGroupSession.decrypt
  rw [if_pos ⟨hid.trans huid.symm, hfirst.trans hindex⟩]

theorem Reads.ofGroupSession (s : GroupSession) : Reads s (some (.ofGroupSession s)) := ⟨_, rfl, rfl, le_rfl⟩

/-- A session that does not take `s` away from its index. -/
def Spared (s : GroupSession) (held : Holding) (x : InboundGroupSession) : Prop :=
  ∀ u, held s.id = some u → u.firstKnownIndex ≤ s.index → x.id = s.id → x.firstKnownIndex ≤ s.index

section Readers
variable {S : CipherSuite} {s : GroupSession} {own : Prop}

/-- **The storing of other sessions** leaves `s` readable. -/
theorem kept_reads : Kept (fun st : Store S => Reads s (storedInbound st s.id)) (Spared s) where
  alike {st st'} h halike := by rwa [halike.storedInbound]
  primed h hprimed := by
    obtain ⟨u, hu, hread⟩ := h
    exact ⟨u, hprimed.stored hu, hread⟩
  store {st c x} h hmirrors hx rng room := by
    rw [storedInbound_storing hmirrors]
    split_ifs with hid
    · obtain ⟨u, hu, -, hfirst⟩ := h
      rw [← hmirrors.inbound] at hu
      exact ⟨x, rfl, hid.symm, hx u hu hfirst hid.symm⟩
    · exact h
  imported {held x} h u hu hfirst hid := by
    rw [← hid] at hu
    exact (h u hu).le.trans hfirst
  created _ _ _ _ _ _ := Nat.zero_le _

/-- The same, where it was readable only under a condition. -/
theorem kept_owns : Kept (fun st : Store S => own → Reads s (storedInbound st s.id)) (Spared s) where
  alike h halike hown := kept_reads.alike (h hown) halike
  primed h hprimed hown := kept_reads.primed (h hown) hprimed
  store h hmirrors hx rng room hown := kept_reads.store (h hown) hmirrors hx rng room
  imported := (kept_reads (S := S)).imported
  created := (kept_reads (S := S)).created

end Readers

/-! ### The invariant -/

section Invariant
variable {S : CipherSuite} {Q Ω N : Type} {R : Q → Type} {serve : N → Ω → (q : Q) → R q × Ω}
  {V : Vodozemac} {own : Prop} {room : String} {s : GroupSession} {w : World S Ω} {c : Crypto}

/-- **What holds of the disk**: under `own`, we read our own messages too. -/
def OnDisk (own : Prop) (room : String) (s : GroupSession) (st : Store S) : Prop :=
  Onward s (storedOutbound st room) ∧ (own → Reads s (storedInbound st s.id))

/-- **What holds while the process runs.** -/
structure Sends (own : Prop) (room : String) (s : GroupSession) (w : World S Ω) (c : Crypto) : Prop where
  ready : Ready (fun st => own → Reads s (storedInbound st s.id)) w c
  stored : Onward s (storedOutbound w.disk room)
  held : Onward s (c.outbound room)

theorem Sends.onDisk (h : Sends own room s w c) : OnDisk own room s w.disk := ⟨h.stored, h.ready.disk⟩

/-- Another memory with the same sessions of rooms. -/
theorem Sends.congr (h : Sends own room s w c) {c' : Crypto} (hkey : c'.pickleKey = c.pickleKey)
    (hinbound : c'.inbound = c.inbound) (houtbound : c'.outbound = c.outbound) : Sends own room s w c' :=
  ⟨h.ready.congr hkey hinbound, h.stored, by
    rw [houtbound]
    exact h.held⟩

/-- A write of another kind. -/
theorem Sends.put (h : Sends own room s w c) {kind : String} (hin : kindMegolmIn ≠ kind)
    (hout : kindMegolmOut ≠ kind) (rng : Salts) (id extra : String) (pickle : Pickle) :
    Sends own room s { w with disk := (StoreOp.putPickle kind id extra pickle).exec rng w.disk } c :=
  ⟨h.ready.put kept_owns hin rng id extra pickle, by
    unfold storedOutbound
    rw [stored_putPickle_of_ne hout]
    exact h.stored, h.held⟩

/-- **The outbound session of a room is written**: of another room, or the session moved on. -/
theorem Sends.putOutbound (h : Sends own room s w c) (rng : Salts) (room' extra : String)
    {s' : GroupSession} (hs' : room' = room → s'.id = s.id ∧ s.index ≤ s'.index) :
    Sends own room s { w with
      disk := (StoreOp.putPickle kindMegolmOut room' extra (c.pickle (.outbound s'))).exec rng w.disk }
      c where
  ready := h.ready.put kept_owns (by decide) rng room' extra _
  stored := by
    unfold storedOutbound
    dsimp only
    rw [stored_putPickle h.ready.mirrors.key]
    split_ifs with heq
    · obtain ⟨hid, hindex⟩ := hs' (Prod.mk.inj heq).2.symm
      exact ⟨s', rfl, hid, hindex⟩
    · exact h.stored
  held := h.held

/-! ### The calls -/

/-- The room has its session, so that only another room gets a new one. -/
theorem safe_getOrCreateOutbound (h : Sends own room s w c) (room' : String) :
    Safe (exec serve) (fun w => OnDisk own room s w.disk)
      (fun r w' => Sends own room s w' r.2 ∧ ∀ made, r.1 = .ok made → r.2.outbound room' = some made)
      ((getOrCreateOutbound V room' : Code S R Crypto GroupSession).run c) w := by
  unfold getOrCreateOutbound
  simp only [Act.safe_bind, Act.safe_get, Act.then_ok]
  have hlast := fun (c' : Crypto) (w' : World S Ω) (h' : Sends own room s w' c') =>
    @safe_outbound S Q _ _ R (exec serve) (fun w => OnDisk own room s w.disk) (fun c w => Sends own room s w c) c' w'
      h' room'
  split_ifs with hnone
  · have hne : room' ≠ room := by
      rintro rfl
      obtain ⟨s', hs', -⟩ := h.held
      simp [hs'] at hnone
    have herr : ∀ (e : String) (w' : World S Ω) (c' : Crypto), Sends own room s w' c' →
        Sends own room s w' c' ∧ ∀ made, (.error e : Except String GroupSession) = .ok made →
          c'.outbound room' = some made := fun e w' c' h' => ⟨h', fun made hmade => by simp at hmade⟩
    simp only [Act.safe_bind]
    have hd : Sends own room s { w with drawn := w.drawn + 1 } c :=
      ⟨⟨h.ready.mirrors, h.ready.disk⟩, h.stored, h.held⟩
    refine safe_draw h.onDisk ?_
    simp only [Act.then_ok, Act.safe_bind]
    refine safe_put hd.onDisk (fun e => herr e _ _ hd) fun rng => ?_
    have hother : room' = room → (GroupSession.mk (V.groupSessionId w.drawn) 0).id = s.id ∧
        s.index ≤ (GroupSession.mk (V.groupSessionId w.drawn) 0).index := fun heq => absurd heq hne
    have hout := hd.putOutbound rng room' "0" hother
    simp only [Act.then_ok, Act.safe_bind]
    refine safe_put hout.onDisk (fun e => herr e _ _ hout) fun rng' => ?_
    simp only [Act.then_ok]
    refine hlast _ _ ⟨?_, ?_, ?_⟩
    · have hin := hout.ready.storing kept_owns (s := .ofGroupSession ⟨V.groupSessionId w.drawn, 0⟩)
        ((kept_reads (S := S)).created _ _) rng' room'
      exact hin.congr rfl rfl
    · unfold storedOutbound
      rw [stored_putPickle_of_ne (by decide)]
      exact hout.stored
    · dsimp only
      rw [Function.update_of_ne hne.symm]
      exact h.held
  · exact hlast c w h

theorem safe_olmEncrypt (h : Sends own room s w c) (curveKey plaintext : String) :
    Safe (exec serve) (fun w => OnDisk own room s w.disk) (fun r w' => Sends own room s w' r.2)
      ((olmEncrypt V curveKey plaintext : Code S R Crypto (ℕ × String)).run c) w := by
  unfold olmEncrypt
  simp only [Act.safe_bind, Act.safe_get, Act.then_ok]
  rcases (c.olmSessions curveKey).getLast? with _ | session
  · exact h
  · simp only [Act.safe_bind, Act.safe_modify, Act.then_ok]
    refine safe_put h.onDisk (fun e => h.congr rfl rfl rfl) fun rng => ?_
    exact (h.put (by decide) (by decide) rng _ _ _).congr rfl rfl rfl

theorem safe_encryptRoomKeyToDevices (h : Sends own room s w c) (room' : String) (devices : List DeviceInfo)
    (self : Self) :
    Safe (exec serve) (fun w => OnDisk own room s w.disk) (fun r w' => Sends own room s w' r.2)
      ((encryptRoomKeyToDevices V room' devices self : Code S R Crypto Messages).run c) w :=
  encryptRoomKeyToDevices_keeps (I := fun c w => Sends own room s w c)
    (fun curveKey plaintext _ _ h => safe_olmEncrypt h curveKey plaintext)
    (fun _ _ _ h => h.congr rfl rfl rfl)
    (fun _ _ h => (safe_getOrCreateOutbound h room').mono fun _ _ h => h.1) devices self c w h

/-- **What a ciphertext for the room is**: of the session, not before its index, of the text. -/
structure Sent (V : Vodozemac) (s : GroupSession) (plaintext : Value) (content : EncryptedContent) :
    Prop where
  sessionId : content.sessionId = s.id
  session : content.ciphertext.session = s.id
  index : s.index ≤ content.ciphertext.index
  plaintext : content.ciphertext.plaintext = V.writeJson plaintext

theorem safe_encrypt (h : Sends own room s w c) (room' : String) (plaintext : Value) (ourDeviceId : String) :
    Safe (exec serve) (fun w => OnDisk own room s w.disk)
      (fun r w' => Sends own room s w' r.2 ∧
        ∀ content, r.1 = .ok content → room' = room → Sent V s plaintext content)
      ((encrypt V room' plaintext ourDeviceId : Code S R Crypto EncryptedContent).run c) w := by
  have herr : ∀ (e : String) (w' : World S Ω) (c' : Crypto), Sends own room s w' c' →
      Sends own room s w' c' ∧ ∀ content, (.error e : Except String EncryptedContent) = .ok content →
        room' = room → Sent V s plaintext content :=
    fun e w' c' h' => ⟨h', fun content hcontent => by simp at hcontent⟩
  unfold encrypt
  rw [Act.safe_bind]
  refine (safe_getOrCreateOutbound h room').mono ?_
  rintro ⟨e | session, c'⟩ w' ⟨h', hroom⟩
  · exact herr e w' c' h'
  · have hroom := hroom session rfl
    have hsession : room' = room → session.id = s.id ∧ s.index ≤ session.index := by
      rintro rfl
      obtain ⟨s', hs', hid, hindex⟩ := h'.held
      obtain rfl := Option.some.inj (hroom.symm.trans hs')
      exact ⟨hid, hindex⟩
    simp only [Act.then_ok, Act.safe_bind, Act.safe_modify, Act.safe_get]
    -- the session in memory moves on, whether or not the write succeeds
    have hmoved : Sends own room s w' { c' with
        outbound := Function.update c'.outbound room' (some (session.encrypt (V.writeJson plaintext)).1) } := by
      refine ⟨h'.ready.congr rfl rfl, h'.stored, ?_⟩
      dsimp only
      by_cases heq : room = room'
      · subst heq
        obtain ⟨hid, hindex⟩ := hsession rfl
        rw [Function.update_self]
        exact ⟨_, rfl, hid, hindex.trans (Nat.le_succ _)⟩
      · rw [Function.update_of_ne heq]
        exact h'.held
    refine safe_put h'.onDisk (fun e => herr e _ _ hmoved) fun rng => ?_
    refine ⟨hmoved.putOutbound rng room' _ fun heq => ?_, fun content hcontent heq => ?_⟩
    · obtain ⟨hid, hindex⟩ := hsession heq
      exact ⟨hid, hindex.trans (Nat.le_succ _)⟩
    · obtain rfl := Except.ok.inj hcontent
      obtain ⟨hid, hindex⟩ := hsession heq
      exact ⟨hid, hid, hindex, rfl⟩

end Invariant

/-! ### The share -/

section Share
variable {S : CipherSuite} {Q Ω N : Type} {R : Q → Type} {serve : N → Ω → (q : Q) → R q × Ω}
  {V : Vodozemac} {room : String} {s : GroupSession} {w : World S Ω} {c : Crypto}

/-- **The sender before it**: the inbound sessions are those on disk, and the room's is not behind there. -/
structure Sender (room : String) (st : Store S) (c : Crypto) : Prop where
  mirrors : Mirrors st c
  outbound : ∀ s, c.outbound room = some s → Onward s (storedOutbound st room)

/-- **We read our own messages**: a session of the room has its inbound copy. -/
def Owned (room : String) (c : Crypto) : Prop := ∀ s, c.outbound room = some s → Reads s (c.inbound s.id)

/-- **The session is there**, as it is, or made, with its inbound copy. -/
theorem safe_open (h : Sender room w.disk c) :
    Safe (exec serve) (fun _ => True)
      (fun r w' => ∀ s, r.1 = .ok s → Sends (Owned room c) room s w' r.2 ∧ r.2.outbound room = some s ∧
        r.2.account = c.account ∧ r.2.olmSessions = c.olmSessions ∧
        ∀ s₀, c.outbound room = some s₀ → s = s₀ ∧ r.2.inbound = c.inbound)
      ((getOrCreateOutbound V room : Code S R Crypto GroupSession).run c) w := by
  unfold getOrCreateOutbound
  simp only [Act.safe_bind, Act.safe_get, Act.then_ok]
  rcases hroom : c.outbound room with _ | s
  · rw [Option.isNone_none, if_pos rfl]
    simp only [Act.safe_bind]
    refine safe_draw trivial ?_
    simp only [Act.then_ok, Act.safe_bind]
    refine safe_put trivial (fun e s hs => by simp at hs) fun rng => ?_
    simp only [Act.then_ok, Act.safe_bind]
    refine safe_put trivial (fun e s hs => by simp at hs) fun rng' => ?_
    simp only [Act.then_ok, Function.update_self, Act.safe_bind, Act.safe_modify, Act.safe_get,
      Act.safe_pure]
    intro s hs
    obtain rfl := Except.ok.inj hs
    have hkey := h.mirrors.key
    have halike := alike_put (show kindMegolmIn ≠ kindMegolmOut by decide) rng w.disk room "0"
      (c.pickle (.outbound ⟨V.groupSessionId w.drawn, 0⟩))
    have hmirrors := (h.mirrors.alike halike rfl rfl).storing (.ofGroupSession ⟨V.groupSessionId w.drawn, 0⟩)
      rng' room
    refine ⟨⟨⟨⟨hmirrors.key, hmirrors.inbound⟩, fun _ => ?_⟩, ?_, ?_⟩, rfl, trivial, trivial,
      fun s₀ hs₀ => by cases hs₀⟩
    · have hin := storedInbound_storing (h.mirrors.alike halike rfl rfl)
        (.ofGroupSession ⟨V.groupSessionId w.drawn, 0⟩) rng' room (V.groupSessionId w.drawn)
      refine ⟨_, hin.trans (if_pos rfl), rfl, le_rfl⟩
    · refine ⟨⟨V.groupSessionId w.drawn, 0⟩, ?_, rfl, le_rfl⟩
      unfold storedOutbound
      rw [stored_putPickle_of_ne (by decide), stored_putPickle hkey, if_pos rfl]
      rfl
    · exact ⟨_, Function.update_self _ _ _, rfl, le_rfl⟩
  · simp only [Option.isNone_some, Bool.false_eq_true, if_false, Act.safe_bind, Act.safe_pure, Act.then_ok,
      Act.safe_get, hroom]
    intro s' hs'
    obtain rfl := Except.ok.inj hs'
    refine ⟨⟨⟨h.mirrors, fun hown => ?_⟩, h.outbound s hroom, ⟨s, hroom, rfl, le_rfl⟩⟩, rfl, trivial,
      trivial, fun s₀ hs₀ => ⟨Option.some.inj hs₀, trivial⟩⟩
    rw [← h.mirrors.inbound]
    exact hown s hroom

/-- What a device is sent: the key, in a message of the Olm session `t` not made before. -/
def SentTo (V : Vodozemac) (c : Crypto) (device : DeviceInfo) (t : OlmSession) (envelope content : Value) :
    Prop :=
  ∃ n, t.sent ≤ n ∧ content = olmToDeviceContent c.account.curve25519Key device.curveKey
    (OlmMessage.messageType ⟨t.id, n, t.preKey, V.writeJson envelope⟩)
    (V.olmBody ⟨t.id, n, t.preKey, V.writeJson envelope⟩)

/-- **Within a share** by the memory `c₀`: the device's session is in use, and what is made for the device
so far is the key. -/
structure Sharing (V : Vodozemac) (us : Self) (c₀ : Crypto) (room : String) (s : GroupSession)
    (device : DeviceInfo) (t : OlmSession) (messages : Messages) (w : World S Ω) (c : Crypto) : Prop where
  sends : Sends (Owned room c₀) room s w c
  outbound : c.outbound room = some s
  before : ∀ s₀, c₀.outbound room = some s₀ → s = s₀ ∧ c.inbound = c₀.inbound
  account : c.account = c₀.account
  session : ∃ t', (c.olmSessions device.curveKey).getLast? = some t' ∧ t'.id = t.id ∧
    t'.preKey = t.preKey ∧ t.sent ≤ t'.sent
  made : ∀ content, messages.at device = some content → SentTo V c₀ device t
    (roomKeyEnvelope (roomKeyContent V room s) us c₀.account.ed25519Key device) content

variable {us : Self} {c₀ : Crypto} {device : DeviceInfo} {t : OlmSession} {messages : Messages}

/-- **Encrypting for a device** moves its session on. -/
theorem sharing_olmEncrypt (h : Sharing V us c₀ room s device t messages w c) (curveKey plaintext : String) :
    Safe (exec serve) (fun _ => True)
      (fun r w' => Sharing V us c₀ room s device t messages w' r.2 ∧
        ∀ messageType body, r.1 = .ok (messageType, body) → curveKey = device.curveKey →
          ∃ n, t.sent ≤ n ∧ messageType = OlmMessage.messageType ⟨t.id, n, t.preKey, plaintext⟩ ∧
            body = V.olmBody ⟨t.id, n, t.preKey, plaintext⟩)
      ((olmEncrypt V curveKey plaintext : Code S R Crypto (ℕ × String)).run c) w := by
  unfold olmEncrypt
  simp only [Act.safe_bind, Act.safe_get, Act.then_ok]
  rcases hlast : (c.olmSessions curveKey).getLast? with _ | session
  · exact ⟨h, fun messageType body hr => by simp at hr⟩
  · have hmine : curveKey = device.curveKey → session.id = t.id ∧ session.preKey = t.preKey ∧
        t.sent ≤ session.sent := by
      rintro rfl
      obtain ⟨t', ht', hid, hpre, hsent⟩ := h.session
      obtain rfl := Option.some.inj (hlast.symm.trans ht')
      exact ⟨hid, hpre, hsent⟩
    have hsession : ∃ t', ((Function.update c.olmSessions curveKey
        ((c.olmSessions curveKey).dropLast ++ [(session.encrypt plaintext).1])) device.curveKey).getLast? =
          some t' ∧ t'.id = t.id ∧ t'.preKey = t.preKey ∧ t.sent ≤ t'.sent := by
      by_cases heq : device.curveKey = curveKey
      · subst heq
        obtain ⟨hid, hpre, hsent⟩ := hmine rfl
        refine ⟨(session.encrypt plaintext).1, ?_, hid, hpre, hsent.trans (Nat.le_succ _)⟩
        rw [Function.update_self, List.getLast?_append]
        rfl
      · rw [Function.update_of_ne heq]
        exact h.session
    simp only [Act.safe_bind, Act.safe_modify, Act.then_ok]
    have hmoved : Sharing V us c₀ room s device t messages w { c with
        olmSessions := Function.update c.olmSessions curveKey
          ((c.olmSessions curveKey).dropLast ++ [(session.encrypt plaintext).1]) } :=
      ⟨h.sends.congr rfl rfl rfl, h.outbound, h.before, h.account, hsession,
        h.made⟩
    refine safe_put trivial (fun e => ⟨hmoved, fun messageType body hr => by simp at hr⟩) fun rng => ?_
    refine ⟨⟨hmoved.sends.put (by decide) (by decide) rng _ _ _, h.outbound, h.before, h.account, hsession,
        h.made⟩, ?_⟩
    intro messageType body hr heq
    obtain ⟨rfl, rfl⟩ := Prod.mk.inj (Except.ok.inj hr)
    obtain ⟨hid, hpre, hsent⟩ := hmine heq
    refine ⟨session.sent, hsent, ?_, ?_⟩
    · rw [← hid, ← hpre]
      rfl
    · rw [← hid, ← hpre]
      rfl

/-- **One device of the list**: the one, or one under another name. -/
theorem sharing_shareWith (h : Sharing V us c₀ room s device t messages w c) {d : DeviceInfo}
    (hd : (d.userId, d.deviceId) = (device.userId, device.deviceId) → d = device) :
    Safe (exec serve) (fun _ => True)
      (fun r w' => ∀ messages', r.1 = .ok messages' → Sharing V us c₀ room s device t messages' w' r.2)
      ((shareWith V us (roomKeyContent V room s) messages d : Code S R Crypto Messages).run c) w := by
  unfold shareWith
  simp only [Act.safe_bind, Act.safe_get, Act.then_ok]
  split_ifs
  · intro messages' hr
    rw [← Except.ok.inj hr]
    exact h
  · simp only [Act.safe_bind, Act.safe_attempt]
    refine (sharing_olmEncrypt h d.curveKey _).mono ?_
    rintro ⟨e | ⟨messageType, body⟩, c'⟩ w' ⟨h', hmade⟩
    · intro messages' hr
      rw [← Except.ok.inj hr]
      exact h'
    · intro messages' hr
      rw [← Except.ok.inj hr]
      refine ⟨h'.sends.congr rfl rfl rfl, h'.outbound, h'.before, h'.account, h'.session,
        fun content hcontent => ?_⟩
      rw [Messages.at_insert] at hcontent
      split_ifs at hcontent with heq
      · obtain rfl := hd heq.symm
        obtain rfl := Option.some.inj hcontent
        obtain ⟨n, hn, rfl, rfl⟩ := hmade messageType body rfl rfl
        rw [h.account]
        exact ⟨n, hn, rfl⟩
      · exact h.made content hcontent

/-- **A share.** What it makes for a device is the key of the room's session, in a message of the device's
Olm session. -/
theorem safe_share (h : Sender room w.disk c) (devices : List DeviceInfo)
    (hone : ∀ d ∈ devices, (d.userId, d.deviceId) = (device.userId, device.deviceId) → d = device)
    (ht : (c.olmSessions device.curveKey).getLast? = some t) :
    Safe (exec serve) (fun _ => True)
      (fun r w' => ∀ messages, r.1 = .ok messages → ∃ s, Sharing V us c room s device t messages w' r.2)
      ((encryptRoomKeyToDevices V room devices us : Code S R Crypto Messages).run c) w := by
  unfold encryptRoomKeyToDevices
  rw [Act.safe_bind]
  refine (safe_open h).mono ?_
  rintro ⟨e | s, c'⟩ w' hopen
  · exact fun messages hr => by simp at hr
  · obtain ⟨hsends, hroom, haccount, hsessions, hbefore⟩ := hopen s rfl
    have hstart : Sharing V us c room s device t [] w' c' := by
      refine ⟨hsends, hroom, hbefore, haccount, ⟨t, ?_, rfl, rfl, le_rfl⟩, fun content hcontent => ?_⟩
      · rw [hsessions]
        exact ht
      · simp [Messages.at, member] at hcontent
    suffices hall : ∀ (rest : List DeviceInfo) (messages : Messages) (c' : Crypto) (w' : World S Ω),
        (∀ d ∈ rest, d ∈ devices) → Sharing V us c room s device t messages w' c' →
        Safe (exec serve) (fun _ => True)
          (fun r w' => ∀ messages, r.1 = .ok messages →
            ∃ s, Sharing V us c room s device t messages w' r.2)
          ((Act.fold (shareWith V us (roomKeyContent V room s)) messages rest :
            Code S R Crypto Messages).run c') w' from hall devices [] c' w' (fun d hd => hd) hstart
    intro rest
    induction rest with
    | nil =>
      intro messages c' w' _ h' messages' hr
      rw [← Except.ok.inj hr]
      exact ⟨s, h'⟩
    | cons d rest ih =>
      intro messages c' w' hrest h'
      refine Act.safe_bind.mpr ((sharing_shareWith h' (hone d (hrest d (by simp)))).mono ?_)
      rintro ⟨e | messages', c''⟩ w'' hshared
      · exact fun messages hr => by simp at hr
      · exact ih messages' c'' w'' (fun d hd => hrest d (by simp [hd])) (hshared messages' rfl)

end Share

/-! ### Runs -/

section Runs
variable {S : CipherSuite} {Q Ω N : Type} {R : Q → Type} {serve : N → Ω → (q : Q) → R q × Ω}
  {V : Vodozemac} {own : Prop} {room : String} {s : GroupSession} {w : World S Ω} {c : Crypto}

/-- All that was sent for the room. -/
def SentAll (V : Vodozemac) (room : String) (s : GroupSession)
    (past : List (Call × Option EncryptedContent)) : Prop :=
  ∀ plaintext ourDeviceId content, (.encrypt room plaintext ourDeviceId, some content) ∈ past →
    Sent V s plaintext content

theorem SentAll.concat {past : List (Call × Option EncryptedContent)} (h : SentAll V room s past) {call : Call}
    {r : Option EncryptedContent} (hr : ∀ plaintext ourDeviceId content,
      call = .encrypt room plaintext ourDeviceId → r = some content → Sent V s plaintext content) :
    SentAll V room s (past ++ [(call, r)]) := by
  intro plaintext ourDeviceId content hmem
  rcases List.mem_append.mp hmem with hmem | hmem
  · exact h plaintext ourDeviceId content hmem
  · obtain ⟨hcall, hcontent⟩ := Prod.mk.inj (List.mem_singleton.mp hmem)
    exact hr plaintext ourDeviceId content hcall.symm hcontent.symm

end Runs

end Kmatrix.E2ee.Sending
