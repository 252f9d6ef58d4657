import Kmatrix.E2ee.Held

/-! # Batches of to-device events

The Olm messages of a batch and the room keys in them, and what `handleToDevice` can come to with one
event: `safe_decryptOlm_rule` and `safe_handleOlmPlaintext_rule` say all of it once, with the trail of the
writes. Every event keeps what is sound on disk, and a room key that has arrived
(`safe_handleEvent_base`). -/

namespace Kmatrix.E2ee.Batches

open Kmatrix.Lib.Crash Kmatrix.Lib.Keyed Kmatrix.E2ee.Ratchets Kmatrix.E2ee.Json Kmatrix.E2ee.Effects
open Kmatrix.E2ee.Sessions Kmatrix.E2ee.Secrets Kmatrix.E2ee.ToDevice Kmatrix.E2ee.Stored
open Kmatrix.E2ee.Held (storing)
open Kmatrix.Storage Kmatrix.Storage.Seal Kmatrix.Storage.Schema
open Kmatrix.Storage.Write (StoreOp)

/-! ### What a batch carries -/

section Batch
variable (V : Vodozemac) (c : Crypto)

/-- The Olm message of an event, with the key of its sender. -/
def olmOf (event : ToDeviceEvent) : Option (String × OlmMessage) :=
  if event.kind = "m.room.encrypted" then (olmMessage V c event.content).toOption.join else none

/-- The Olm messages of a batch. -/
def messages (batch : List ToDeviceEvent) : List (String × OlmMessage) := batch.filterMap (olmOf V c)

/-- **The room key in a decrypted text**, if it is accepted. -/
def shared (senderKey plaintext : String) : Option InboundGroupSession := do
  let share ← (V.readJson plaintext).toOption
  if share.getStr "type" ≠ some "m.room_key" then none
  let (_, session) ← (roomKey V c senderKey share).toOption.join
  return session

/-- **What Olm guarantees** of the messages of a batch: a session has one sender, a position in it one
text, and a one-time key starts one session. -/
structure Genuine (batch : List ToDeviceEvent) : Prop where
  sender : ∀ x ∈ messages V c batch, ∀ y ∈ messages V c batch,
    x.2.session = y.2.session → x.1 = y.1
  text : ∀ x ∈ messages V c batch, ∀ y ∈ messages V c batch,
    x.2.session = y.2.session → x.2.index = y.2.index → x.2.plaintext = y.2.plaintext
  oneTime : ∀ x ∈ messages V c batch, ∀ y ∈ messages V c batch, ∀ key,
    x.2.preKey = some key → y.2.preKey = some key → x.2.session = y.2.session

/-- The message starts its session: it names a one-time key that the account holds. -/
def Startable (account : Account) (session : String) (event : ToDeviceEvent) : Prop :=
  ∃ x ∈ olmOf V c event, x.2.session = session ∧ ∃ key ∈ x.2.preKey, account.Holds key

/-- Before the server has told whose device is whose. -/
def Crypto.unacquainted : Crypto := { c with knownDevices := fun _ => none }

/-- **The room key is stored**: under its id is a session that an event of the batch brings. -/
def Arrived {S : CipherSuite} (batch : List ToDeviceEvent) (s : InboundGroupSession) (st : Store S) : Prop :=
  ∃ x ∈ messages V c batch, ∃ s', shared V (Crypto.unacquainted c) x.1 x.2.plaintext = some s' ∧
    s'.id = s.id ∧ storedInbound st s.id = some s'

end Batch

/-! ### Reading -/

section Reading
variable {V : Vodozemac} {c c' : Crypto}

/-- The same device: what is addressed to it, and where a room key is accepted once. -/
structure SameDevice (c c' : Crypto) : Prop where
  curve25519Key : c'.account.curve25519Key = c.account.curve25519Key
  ed25519Key : c'.account.ed25519Key = c.account.ed25519Key
  knownDevices : c'.knownDevices = c.knownDevices ∨ c'.knownDevices = fun _ => none

theorem SameDevice.olmOf (h : SameDevice c c') (event : ToDeviceEvent) :
    olmOf V c' event = Batches.olmOf V c event := by
  unfold Batches.olmOf olmMessage
  rw [h.curve25519Key]

/-- A room key is not accepted from one who belies the known owner of the key. -/
theorem spoofed_of_roomKey {senderKey : String} {share : Value} {x : String × InboundGroupSession}
    (h : roomKey V c senderKey share = .ok (some x)) :
    Crypto.spoofed c "m.room_key" senderKey share = none := by
  unfold roomKey at h
  rcases hspoofed : Crypto.spoofed c "m.room_key" senderKey share with _ | e
  · rfl
  · simp only [hspoofed, orElse, bind, Except.bind] at h
    rcases hcontent : share.get "content" with _ | content
    · simp [hcontent] at h
    · by_cases halg : content.getStr "algorithm" = some megolmAlgorithm
      · simp [hcontent, halg] at h
      · simp [hcontent, halg, pure, Except.pure] at h

theorem SameDevice.roomKey (h : SameDevice c c') {senderKey : String} {share : Value}
    {x : String × InboundGroupSession} (hx : roomKey V c senderKey share = .ok (some x)) :
    roomKey V c' senderKey share = .ok (some x) := by
  have hspoofed : Crypto.spoofed c' "m.room_key" senderKey share =
      Crypto.spoofed c "m.room_key" senderKey share := by
    rcases h.knownDevices with hknown | hknown
    · unfold Crypto.spoofed
      rw [hknown]
    · rw [spoofed_of_roomKey hx]
      unfold Crypto.spoofed
      rw [hknown]
  rw [← hx]
  unfold ToDevice.roomKey
  rw [hspoofed, h.ed25519Key]

theorem shared_eq_some {senderKey plaintext : String} {s : InboundGroupSession} :
    shared V c senderKey plaintext = some s ↔ ∃ share room, V.readJson plaintext = .ok share ∧
      share.getStr "type" = some "m.room_key" ∧ roomKey V c senderKey share = .ok (some (room, s)) := by
  unfold shared
  rcases V.readJson plaintext with e | share
  · simp [Except.toOption]
  · by_cases htype : share.getStr "type" = some "m.room_key"
    · rcases hroom : roomKey V c senderKey share with e | _ | ⟨room, session⟩
      · simp [Except.toOption, htype, hroom]
      · simp [Except.toOption, htype, hroom]
      · simp [Except.toOption, htype, hroom]
    · simp [Except.toOption, htype]

/-- **What was accepted is accepted again**, also after a restart. -/
theorem SameDevice.shared (h : SameDevice c c') {senderKey plaintext : String} {s : InboundGroupSession}
    (hs : shared V c senderKey plaintext = some s) : shared V c' senderKey plaintext = some s := by
  obtain ⟨share, room, hjson, htype, hroom⟩ := shared_eq_some.mp hs
  exact shared_eq_some.mpr ⟨share, room, hjson, htype, h.roomKey hroom⟩

theorem mem_messages {batch : List ToDeviceEvent} {event : ToDeviceEvent} {x : String × OlmMessage}
    (hmem : event ∈ batch) (hx : olmOf V c event = some x) : x ∈ messages V c batch :=
  List.mem_filterMap.mpr ⟨event, hmem, hx⟩

end Reading

/-! ### Olm, said once -/

section Rules
variable {S : CipherSuite} {Q Ω N : Type} {R : Q → Type} {serve : N → Ω → (q : Q) → R q × Ω}
  {V : Vodozemac} {w : World S Ω} {c : Crypto} {tr : List (Effect Q × Outcome N)}
  {D : World S Ω × List (Effect Q × Outcome N) → Prop}

theorem createInboundSession_eq_some {account account' : Account} {m : OlmMessage} {t : OlmSession}
    {text : String} : account.createInboundSession m = some (account', t, text) ↔
      ∃ key, m.preKey = some key ∧ account.Holds key ∧ account' = account.removeOneTimeKey key ∧
        t = ⟨m.session, [m.index], 0, none⟩ ∧ text = m.plaintext := by
  unfold Account.createInboundSession
  rcases m.preKey with _ | key
  · simp
  · by_cases hholds : account.Holds key
    · simp [hholds, eq_comm]
    · simp [hholds]

/-- The memory with other sessions with a device. -/
def Crypto.withOlm (c : Crypto) (peer : String) (sessions : List OlmSession) : Crypto :=
  { c with olmSessions := Function.update c.olmSessions peer sessions }

/-- A session is written. -/
abbrev storingOlm (c : Crypto) (peer : String) (t : OlmSession) : StoreOp :=
  .putPickle kindOlm t.id peer (c.pickle (.olm t))

/-- The account is written. -/
abbrev storingAccount (c : Crypto) (account : Account) : StoreOp :=
  .putPickle kindAccount "self" "" (c.pickle (.account account))

/-- The world after a write. -/
abbrev written (w : World S Ω) (op : StoreOp) (o : Outcome N) : World S Ω :=
  { w with disk := op.exec o.salts w.disk }

/-- **All that decrypting can come to**: a session decrypts and is written, or not; nothing decrypts; or
the message starts a session, which is written and then the account. -/
theorem safe_decryptOlm_rule {peer : String} {m : OlmMessage}
    {T : Except String String × Crypto → World S Ω × List (Effect Q × Outcome N) → Prop}
    (hD : D (w, tr))
    (hsession : ∀ t text sessions, trySessions m (c.olmSessions peer) = some (t, text, sessions) →
      (∀ o, o.fault ≠ none → T (.ok text, Crypto.withOlm c peer sessions)
        (w, tr ++ [(.write (storingOlm c peer t), o)])) ∧
      ∀ o, o.fault = none → T (.ok text, Crypto.withOlm c peer sessions)
        (written w (storingOlm c peer t) o, tr ++ [(.write (storingOlm c peer t), o)]))
    (hnone : trySessions m (c.olmSessions peer) = none →
      (V.validKey peer = true → c.account.createInboundSession m = none) →
      ∀ e, T (.error e, c) (w, tr))
    (hcreate : ∀ account t text, trySessions m (c.olmSessions peer) = none → V.validKey peer = true →
      c.account.createInboundSession m = some (account, t, text) →
      (∀ o e, o.fault ≠ none → T (.error e, { c with account })
        (w, tr ++ [(.write (storingOlm c peer t), o)])) ∧
      ∀ o, o.fault = none →
        D (written w (storingOlm c peer t) o, tr ++ [(.write (storingOlm c peer t), o)]) ∧
        (∀ o' e, o'.fault ≠ none → T (.error e, { c with account })
          (written w (storingOlm c peer t) o,
            tr ++ [(.write (storingOlm c peer t), o)] ++ [(.write (storingAccount c account), o')])) ∧
        ∀ o', o'.fault = none →
          T (.ok text, Crypto.withOlm { c with account } peer (c.olmSessions peer ++ [t]))
            (written (written w (storingOlm c peer t) o) (storingAccount c account) o',
              tr ++ [(.write (storingOlm c peer t), o)] ++ [(.write (storingAccount c account), o')])) :
    Safe (recording (exec serve)) D T ((decryptOlm V peer m : Code S R Crypto String).run c) (w, tr) := by
  have hfault : ∀ {o : Outcome N} {e : String}, o.fault = some e → o.fault ≠ none := by
    intro o e h
    rw [h]
    exact Option.some_ne_none e
  unfold decryptOlm decryptWithExisting
  simp only [Act.safe_bind, Act.safe_get, Act.then_ok]
  rcases htry : trySessions m (c.olmSessions peer) with _ | ⟨t, text, sessions⟩
  · rw [Act.safe_pure, Act.then_ok]
    dsimp only
    split_ifs with hpre
    · unfold createInboundOlm
      dsimp only
      split_ifs with hvalid
      · refine hnone htry (fun h => ?_) _
        simp [h] at hvalid
      · have hkey : V.validKey peer = true := by simpa using hvalid
        rw [Act.safe_bind, Act.safe_get, Act.then_ok]
        rcases hnew : c.account.createInboundSession m with _ | ⟨account, t, text⟩
        · exact hnone htry (fun _ => hnew) _
        · obtain ⟨hfailed, hdone⟩ := hcreate account t text htry hkey hnew
          simp only [Act.safe_bind, Act.safe_modify, Act.then_ok]
          refine safe_put_recorded hD (fun o e ho => hfailed o e (hfault ho)) fun o ho => ?_
          obtain ⟨hD', hfailed', hdone'⟩ := hdone o ho
          unfold persistAccount
          simp only [Act.then_ok, Act.safe_bind, Act.safe_get]
          refine safe_put_recorded hD' (fun o' e ho' => hfailed' o' e (hfault ho')) fun o' ho' => ?_
          exact hdone' o' ho'
    · refine hnone htry (fun _ => ?_) _
      rcases hnew : c.account.createInboundSession m with _ | ⟨account, t, text⟩
      · rfl
      · obtain ⟨key, hkey, -⟩ := createInboundSession_eq_some.mp hnew
        simp [hkey] at hpre
  · obtain ⟨hfailed, hdone⟩ := hsession t text sessions htry
    simp only [Act.safe_bind, Act.safe_modify, Act.then_ok, Act.safe_attempt]
    exact safe_put_recorded hD (fun o e ho => hfailed o (hfault ho)) fun o ho => hdone o ho

/-- **All that a decrypted text can come to**: its room key is written and held, if there is one. -/
theorem safe_handleOlmPlaintext_rule {peer text : String}
    {T : Except String (Option Secret) × Crypto → World S Ω × List (Effect Q × Outcome N) → Prop}
    (hD : D (w, tr)) (hnone : shared V c peer text = none → ∀ r, T (r, c) (w, tr))
    (hsome : ∀ s room, shared V c peer text = some s →
      (∀ o e, o.fault ≠ none → T (.error e, c) (w, tr ++ [(.write (storing c s room), o)])) ∧
      ∀ o, o.fault = none →
        T (.ok none, { c with inbound := Function.update c.inbound s.id (some s) })
          (written w (storing c s room) o, tr ++ [(.write (storing c s room), o)])) :
    Safe (recording (exec serve)) D T
      ((handleOlmPlaintext V peer text : Code S R Crypto (Option Secret)).run c) (w, tr) := by
  unfold handleOlmPlaintext
  rw [Act.safe_bind, Act.safe_ofExcept]
  rcases hjson : V.readJson text with e | share
  · refine hnone ?_ _
    simp [shared, hjson, Except.toOption]
  · rw [Act.then_ok]
    split
    · next htype =>
      unfold storeRoomKey
      simp only [Act.safe_bind, Act.safe_get, Act.then_ok, Act.safe_ofExcept]
      rcases hroom : roomKey V c peer share with e | _ | ⟨room, s⟩
      · refine hnone ?_ _
        simp [shared, hjson, htype, hroom, Except.toOption]
      · refine hnone ?_ _
        simp [shared, hjson, htype, hroom, Except.toOption]
      · obtain ⟨hfailed, hdone⟩ := hsome s room (shared_eq_some.mpr ⟨share, room, hjson, htype, hroom⟩)
        simp only [Act.then_ok, Act.safe_bind]
        refine safe_put_recorded hD (fun o e ho => hfailed o e ?_) fun o ho => hdone o ho
        rw [ho]
        exact Option.some_ne_none e
    · next htype =>
      have hshared : shared V c peer text = none := by
        simp [shared, hjson, htype, Except.toOption]
      rw [Act.safe_bind, Act.safe_get, Act.then_ok, Act.safe_ofExcept]
      exact hnone hshared _
    · next hkey hsecret =>
      refine hnone ?_ _
      have htype : share.getStr "type" ≠ some "m.room_key" := fun h => hkey h
      simp [shared, hjson, htype, Except.toOption]

/-- **An event** is decrypted, and its text handled; what that returns is no matter here. -/
theorem safe_handleEvent_rule {event : ToDeviceEvent}
    {T : Crypto → World S Ω × List (Effect Q × Outcome N) → Prop}
    (hnone : olmOf V c event = none → T c (w, tr))
    (hsome : ∀ peer m, olmOf V c event = some (peer, m) → Safe (recording (exec serve)) D
      (fun r x => match r with
        | (.error _, c') => T c' x
        | (.ok text, c') => Safe (recording (exec serve)) D (fun r' x' => T r'.2 x')
          ((handleOlmPlaintext V peer text : Code S R Crypto (Option Secret)).run c') x)
      ((decryptOlm V peer m : Code S R Crypto String).run c) (w, tr)) :
    Safe (recording (exec serve)) D (fun r x => T r.2 x)
      ((handleEvent V event : Code S R Crypto (List Secret)).run c) (w, tr) := by
  unfold handleEvent
  split_ifs with hkind
  · exact hnone (by unfold olmOf; rw [if_neg hkind])
  · rw [not_not] at hkind
    rw [Act.safe_bind, Act.safe_attempt]
    suffices hall : Safe (recording (exec serve)) D (fun r x => T r.2 x)
        ((handleOlmEvent V event : Code S R Crypto (Option Secret)).run c) (w, tr) by
      refine hall.mono ?_
      rintro ⟨e | _ | secret, c'⟩ x hx
      · exact hx
      · exact hx
      · exact hx
    unfold handleOlmEvent
    simp only [Act.safe_bind, Act.safe_get, Act.then_ok, Act.safe_ofExcept]
    rcases hread : olmMessage V c event.content with e | _ | ⟨peer, m⟩
    · exact hnone (by simp [olmOf, hread, Except.toOption])
    · exact hnone (by simp [olmOf, hread, Except.toOption])
    · simp only [Act.then_ok, Act.safe_bind]
      refine (hsome peer m (by simp [olmOf, hkind, hread, Except.toOption])).mono ?_
      rintro ⟨e | text, c'⟩ x hx
      · exact hx
      · exact hx

end Rules

/-! ### What every event keeps -/

section Base
variable {S : CipherSuite} {Q Ω N : Type} {R : Q → Type} {serve : N → Ω → (q : Q) → R q × Ω}
  {V : Vodozemac} {w : World S Ω} {st : Store S} {c₀ c : Crypto} {batch : List ToDeviceEvent}
  {s : InboundGroupSession}

/-- The account on disk is ours, and the sessions are filed under their ids. -/
structure Sound (c₀ : Crypto) (st : Store S) : Prop where
  account : ∃ a, storedAccount st = some a ∧ a.curve25519Key = c₀.account.curve25519Key ∧
    a.ed25519Key = c₀.account.ed25519Key
  filed : ∀ peer id t, storedOlm st peer id = some t → t.id = id

/-- So it is while the process runs. -/
structure Base (c₀ : Crypto) (st : Store S) (c : Crypto) : Prop where
  key : storedKey st = some c.pickleKey
  device : SameDevice c₀ c
  sound : Sound c₀ st

theorem Base.congr (h : Base c₀ st c) {c' : Crypto} (hkey : c'.pickleKey = c.pickleKey)
    (hcurve : c'.account.curve25519Key = c.account.curve25519Key)
    (hed : c'.account.ed25519Key = c.account.ed25519Key) (hknown : c'.knownDevices = c.knownDevices) :
    Base c₀ st c' where
  key := h.key.trans (congrArg some hkey.symm)
  device := ⟨hcurve.trans h.device.curve25519Key, hed.trans h.device.ed25519Key, by
    rw [hknown]
    exact h.device.knownDevices⟩
  sound := h.sound

theorem storedAccount_put_of_ne {kind : String} (hkind : kindAccount ≠ kind) (rng : Salts)
    (id extra : String) (pickle : Pickle) :
    storedAccount ((StoreOp.putPickle kind id extra pickle).exec rng st) = storedAccount st :=
  stored_putPickle_of_ne hkind rng id extra pickle "self"

theorem storedAccount_put (hkey : storedKey st = some c.pickleKey) (rng : Salts) (account : Account) :
    storedAccount ((storingAccount c account).exec rng st) = some account := by
  unfold storedAccount
  rw [stored_putPickle hkey, if_pos rfl]
  rfl

/-- A session is filed under its id. -/
theorem Base.putOlm (h : Base c₀ st c) (rng : Salts) (peer : String) (t : OlmSession) :
    Base c₀ ((storingOlm c peer t).exec rng st) c where
  key := (storedKey_putPickle rng st _ _ _ _).trans h.key
  device := h.device
  sound.account := by
    rw [storedAccount_put_of_ne (by decide)]
    exact h.sound.account
  sound.filed peer' id t' ht' := by
    rw [storedOlm_put h.key] at ht'
    split_ifs at ht' with hid hpeer
    · rw [← Option.some.inj ht', hid]
    · exact h.sound.filed peer' id t' ht'

/-- An account of the same device is written. -/
theorem Base.putAccount (h : Base c₀ st c) (rng : Salts) (account : Account)
    (hcurve : account.curve25519Key = c.account.curve25519Key)
    (hed : account.ed25519Key = c.account.ed25519Key) :
    Base c₀ ((storingAccount c account).exec rng st) { c with account } where
  key := (storedKey_putPickle rng st _ _ _ _).trans h.key
  device := ⟨hcurve.trans h.device.curve25519Key, hed.trans h.device.ed25519Key, h.device.knownDevices⟩
  sound.account := ⟨account, storedAccount_put h.key rng account, hcurve.trans h.device.curve25519Key,
    hed.trans h.device.ed25519Key⟩
  sound.filed peer id t ht := by
    rw [storedOlm_put_of_ne (by decide)] at ht
    exact h.sound.filed peer id t ht

theorem Base.putInbound (h : Base c₀ st c) (rng : Salts) (s' : InboundGroupSession) (room : String) :
    Base c₀ ((storing c s' room).exec rng st) c where
  key := (storedKey_putPickle rng st _ _ _ _).trans h.key
  device := h.device
  sound.account := by
    rw [storedAccount_put_of_ne (by decide)]
    exact h.sound.account
  sound.filed peer id t ht := by
    rw [storedOlm_put_of_ne (by decide)] at ht
    exact h.sound.filed peer id t ht

theorem SameDevice.unacquainted (h : SameDevice c₀ c) : SameDevice c (Crypto.unacquainted c₀) :=
  ⟨h.curve25519Key.symm, h.ed25519Key.symm, Or.inr rfl⟩

/-- A write of another kind. -/
theorem Arrived.put (h : Arrived V c₀ batch s st) {kind : String} (hkind : kindMegolmIn ≠ kind)
    (rng : Salts) (id extra : String) (pickle : Pickle) :
    Arrived V c₀ batch s ((StoreOp.putPickle kind id extra pickle).exec rng st) := by
  obtain ⟨x, hx, s', hs', hid, hst⟩ := h
  refine ⟨x, hx, s', hs', hid, ?_⟩
  rw [← hst]
  exact stored_putPickle_of_ne hkind rng id extra pickle s.id

/-- **A room key of the batch is written**: it is the one, or another. -/
theorem arrived_storing (h : Base c₀ st c) {x : String × OlmMessage} (hx : x ∈ messages V c₀ batch)
    {s' : InboundGroupSession} (hs' : shared V c x.1 x.2.plaintext = some s') (rng : Salts)
    (room : String) (hor : s'.id = s.id ∨ Arrived V c₀ batch s st) :
    Arrived V c₀ batch s ((storing c s' room).exec rng st) := by
  have hstored : storedInbound ((storing c s' room).exec rng st) s.id =
      if s.id = s'.id then some s' else storedInbound st s.id := by
    refine (stored_putPickle h.key rng kindMegolmIn s'.id room (.inbound s') kindMegolmIn s.id).trans ?_
    simp [Pickled.inbound?, storedInbound]
  by_cases hid : s'.id = s.id
  · refine ⟨x, hx, s', h.device.unacquainted.shared hs', hid, ?_⟩
    rw [hstored, if_pos hid.symm]
  · obtain ⟨y, hy, s'', hs'', hid', hst⟩ := hor.resolve_left hid
    refine ⟨y, hy, s'', hs'', hid', ?_⟩
    rw [hstored, if_neg (Ne.symm hid)]
    exact hst

/-- **Every event** of the batch keeps what is sound, and a room key that is stored. -/
theorem safe_handleEvent_base (h : Base c₀ w.disk c) {event : ToDeviceEvent} (hmem : event ∈ batch)
    (tr : List (Effect Q × Outcome N)) :
    Safe (recording (exec serve))
      (fun x => Sound c₀ x.1.disk ∧ (Arrived V c₀ batch s w.disk → Arrived V c₀ batch s x.1.disk))
      (fun r x => Base c₀ x.1.disk r.2 ∧
        (Arrived V c₀ batch s w.disk → Arrived V c₀ batch s x.1.disk))
      ((handleEvent V event : Code S R Crypto (List Secret)).run c) (w, tr) := by
  refine safe_handleEvent_rule (T := fun c' x => Base c₀ x.1.disk c' ∧
    (Arrived V c₀ batch s w.disk → Arrived V c₀ batch s x.1.disk)) (fun _ => ⟨h, id⟩) fun peer m hm => ?_
  have hx : (peer, m) ∈ messages V c₀ batch := by
    rw [h.device.olmOf] at hm
    exact mem_messages hmem hm
  -- the text of the message is handled, whatever has been written by then
  have htext : ∀ (c' : Crypto) (w' : World S Ω) (tr' : List (Effect Q × Outcome N)), Base c₀ w'.disk c' →
      (Arrived V c₀ batch s w.disk → Arrived V c₀ batch s w'.disk) →
      Safe (recording (exec serve))
        (fun x => Sound c₀ x.1.disk ∧ (Arrived V c₀ batch s w.disk → Arrived V c₀ batch s x.1.disk))
        (fun r x => Base c₀ x.1.disk r.2 ∧
          (Arrived V c₀ batch s w.disk → Arrived V c₀ batch s x.1.disk))
        ((handleOlmPlaintext V peer m.plaintext : Code S R Crypto (Option Secret)).run c') (w', tr') := by
    intro c' w' tr' h' harrived
    refine safe_handleOlmPlaintext_rule ⟨h'.sound, harrived⟩ (fun _ _ => ⟨h', harrived⟩)
      fun s' room hs' => ⟨fun _ _ _ => ⟨h', harrived⟩, fun o _ => ⟨?_, fun ha => ?_⟩⟩
    · exact (h'.putInbound o.salts s' room).congr rfl rfl rfl rfl
    · exact arrived_storing h' hx hs' o.salts room (Or.inr (harrived ha))
  refine safe_decryptOlm_rule ⟨h.sound, id⟩ (fun t text sessions htry => ?_) (fun _ _ _ => ⟨h, id⟩)
    fun account t text _ _ hnew => ?_
  · obtain ⟨l, t₀, r, -, -, hdec⟩ := trySessions_split htry
    obtain ⟨-, -, -, rfl⟩ := decrypt_eq_some.mp hdec
    refine ⟨fun o _ => ?_, fun o _ => ?_⟩
    · exact htext _ w _ (h.congr rfl rfl rfl rfl) id
    · exact htext _ _ _ ((h.putOlm o.salts peer t).congr rfl rfl rfl rfl)
        fun ha => ha.put (by decide) o.salts _ _ _
  · obtain ⟨key, -, -, rfl, -, rfl⟩ := createInboundSession_eq_some.mp hnew
    refine ⟨fun o e _ => ⟨h.congr rfl rfl rfl rfl, id⟩, fun o _ => ?_⟩
    have h₁ := h.putOlm o.salts peer t
    have ha₁ : Arrived V c₀ batch s w.disk →
        Arrived V c₀ batch s (written w (storingOlm c peer t) o).disk :=
      fun ha => ha.put (by decide) o.salts _ _ _
    refine ⟨⟨h₁.sound, ha₁⟩, fun o' e _ => ⟨h₁.congr rfl rfl rfl rfl, ha₁⟩, fun o' _ => ?_⟩
    have h₂ := h₁.putAccount o'.salts (c.account.removeOneTimeKey key) rfl rfl
    exact htext _ _ _ (h₂.congr rfl rfl rfl rfl) fun ha => (ha₁ ha).put (by decide) o'.salts _ _ _

end Base

end Kmatrix.E2ee.Batches
