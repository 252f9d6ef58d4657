import Kmatrix.E2ee.Megolm
import Kmatrix.E2ee.Ways

/-! # Batches that are delivered again

The server delivers the to-device events of a sync until the sync is through: a daemon that is killed over
them finds them again after its restart. An Olm message is decrypted once, and what it uses up is written
before the room key in it is. So between these two writes a kill loses the key, and so does a failed write
after which the daemon goes on. -/

namespace Kmatrix.E2ee.Redelivery

open Kmatrix.Lib.Crash Kmatrix.Lib.Keyed Kmatrix.E2ee.Ratchets Kmatrix.E2ee.Json Kmatrix.E2ee.Effects
open Kmatrix.E2ee.Sessions Kmatrix.E2ee.Secrets Kmatrix.E2ee.ToDevice Kmatrix.E2ee.Stored
open Kmatrix.E2ee.Batches Kmatrix.E2ee.Ways Kmatrix.Storage Kmatrix.Storage.Seal
open Kmatrix.Storage.Schema
open Kmatrix.Storage.Write (StoreOp)

/-! ### What a batch carries -/

/-- The memory is what is on disk, as after a start. -/
structure Settled {S : CipherSuite} (st : Store S) (c : Crypto) : Prop where
  key : storedKey st = some c.pickleKey
  account : storedAccount st = some c.account
  olm : ∀ peer id t, storedOlm st peer id = some t ↔ t.id = id ∧ t ∈ c.olmSessions peer

/-! ### Deliveries -/

section Deliveries
variable {S : CipherSuite} {Q Ω N : Type} {R : Q → Type} (serve : N → Ω → (q : Q) → R q × Ω)
  (V : Vodozemac)

/-- What one event of a delivery does. -/
abbrev eventTrail (c : Crypto) (w : World S Ω) (event : ToDeviceEvent) (os : List (Outcome N)) :
    List (Effect Q × Outcome N) :=
  trail (exec serve) ((handleEvent V event : Code S R Crypto (List Secret)).run c) w os

/-- **The condition on a delivery**, event by event. -/
def SparesAll (m : OlmMessage) : List ToDeviceEvent → Crypto → World S Ω → List (Outcome N) → Prop
  | [], _, _, _ => True
  | event :: events, c, w, os =>
    match run (exec serve) ((handleEvent V event : Code S R Crypto (List Secret)).run c) w os with
    | (some r, w') => Spares V m c event false (eventTrail serve V c w event os) ∧
        SparesAll m events r.2 w' (os.drop (eventTrail serve V c w event os).length)
    | (none, _) => Spares V m c event true (eventTrail serve V c w event os)

/-- The batch is delivered. -/
def deliver (batch : List ToDeviceEvent) (_ : Unit) (c : Crypto) :
    Prog (Effect Q) (Answer S R) (Unit × Crypto) :=
  ((handleToDevice V batch).run c).bind fun r => .ret ((), r.2)

/-- **A run**: the batch is delivered again and again, and the daemon killed and started in between. -/
abbrev deliveries (batch : List ToDeviceEvent) (p : Process (World S Ω) Crypto Unit Unit)
    (events : List (Event Unit (Outcome N))) : Process (World S Ω) Crypto Unit Unit :=
  Process.runs (exec serve) (boot V) (deliver V batch) p events

/-- The condition on one event of a run. -/
def SparesEvent (batch : List ToDeviceEvent) (m : OlmMessage) (p : Process (World S Ω) Crypto Unit Unit) :
    Event Unit (Outcome N) → Prop
  | .call _ os => ∀ c ∈ p.memory, SparesAll serve V m batch c p.world os
  | .boot _ => True

instance decidableSparesAll {m : OlmMessage} : ∀ (events : List ToDeviceEvent) (c : Crypto) (w : World S Ω)
    (os : List (Outcome N)), Decidable (SparesAll serve V m events c w os)
  | [], _, _, _ => isTrue trivial
  | event :: events, c, w, os =>
    show Decidable (match run (exec serve) ((handleEvent V event : Code S R Crypto (List Secret)).run c) w
        os with
      | (some r, w') => Spares V m c event false (eventTrail serve V c w event os) ∧
          SparesAll serve V m events r.2 w' (os.drop (eventTrail serve V c w event os).length)
      | (none, _) => Spares V m c event true (eventTrail serve V c w event os)) from
    match run (exec serve) ((handleEvent V event : Code S R Crypto (List Secret)).run c) w os with
    | (some r, w') =>
      have : Decidable (SparesAll serve V m events r.2 w'
          (os.drop (eventTrail serve V c w event os).length)) := decidableSparesAll events r.2 w' _
      instDecidableAnd
    | (none, _) => inferInstanceAs (Decidable (Spares V m c event true (eventTrail serve V c w event os)))

instance {batch : List ToDeviceEvent} {m : OlmMessage} {p : Process (World S Ω) Crypto Unit Unit} :
    ∀ event : Event Unit (Outcome N), Decidable (SparesEvent serve V batch m p event)
  | .call _ os => inferInstanceAs (Decidable (∀ c ∈ p.memory, SparesAll serve V m batch c p.world os))
  | .boot _ => isTrue trivial

/-- The daemon with this disk and memory. -/
def started (w : World S Ω) (c : Crypto) : Process (World S Ω) Crypto Unit Unit := ⟨w, some c, []⟩

end Deliveries

section Runs
variable {S : CipherSuite} {Q Ω N : Type} {R : Q → Type} {serve : N → Ω → (q : Q) → R q × Ω}
  {V : Vodozemac} {c₀ c : Crypto} {peer : String} {m : OlmMessage} {w : World S Ω} {st : Store S}
  {done rest batch : List ToDeviceEvent} {event : ToDeviceEvent} {s : InboundGroupSession} {P : Prop}

/-- The key is stored, or, as long as `P`, there is a way to it: on disk, for a start. -/
def Safekept (V : Vodozemac) (c₀ : Crypto) (peer : String) (m : OlmMessage) (s : InboundGroupSession)
    (batch : List ToDeviceEvent) (P : Prop) (st : Store S) : Prop :=
  Sound c₀ st ∧ (Arrived V c₀ batch s st ∨ (P ∧ OnWay V c₀ peer m batch st))

/-- In memory, within a delivery. -/
def Pending (V : Vodozemac) (c₀ : Crypto) (peer : String) (m : OlmMessage) (s : InboundGroupSession)
    (batch done rest : List ToDeviceEvent) (P : Prop) (st : Store S) (c : Crypto) : Prop :=
  Base c₀ st c ∧ (Arrived V c₀ batch s st ∨ (P ∧ Underway V c₀ peer m done rest st c))

/-- **An event on the way**, if it is spared. -/
theorem safe_onWay (hgenuine : Genuine V c₀ batch) (hbatch : batch = done ++ event :: rest)
    (hmem : (peer, m) ∈ messages V c₀ batch) (hkey : shared V c₀ peer m.plaintext = some s)
    (hbase : Base c₀ w.disk c) (hway : Underway V c₀ peer m done (event :: rest) w.disk c) :
    Safe (recording (exec serve))
      (fun x => Spares V m c event true x.2 → OnWay V c₀ peer m batch x.1.disk)
      (fun r x => Spares V m c event false x.2 → Arrived V c₀ batch s x.1.disk ∨
        Underway V c₀ peer m (done ++ [event]) rest x.1.disk r.2)
      ((handleEvent V event : Code S R Crypto (List Secret)).run c) (w, []) := by
  subst hbatch
  by_cases hm : ∃ x ∈ olmOf V c event, x.2.session = m.session
  · obtain ⟨⟨sender, m'⟩, hm, hid⟩ := hm
    have hm' : (sender, m') ∈ messages V c₀ (done ++ event :: rest) := by
      rw [hbase.device.olmOf] at hm
      exact mem_messages (by simp) hm
    obtain rfl : sender = peer := hgenuine.sender _ hm' _ hmem hid
    by_cases hindex : m'.index = m.index
    · have htext : m'.plaintext = m.plaintext := hgenuine.text _ hm' _ hmem hid hindex
      exact safe_target hbase hway hm hid hindex (by rw [htext, hkey])
    · exact (safe_earlier hbase hway hm hid hindex).mono fun r x h hspares => Or.inr (h hspares)
  · refine (safe_elsewhere hgenuine hbase hway fun x hx hid => hm ⟨x, hx, hid⟩).weaken
      (fun _ h _ => h) fun _ _ h _ => Or.inr h

/-- **Every spared event** of a delivery. -/
theorem safe_pending (hgenuine : Genuine V c₀ batch) (hbatch : batch = done ++ event :: rest)
    (hmem : (peer, m) ∈ messages V c₀ batch) (hkey : shared V c₀ peer m.plaintext = some s)
    (h : Pending V c₀ peer m s batch done (event :: rest) P w.disk c) :
    Safe (recording (exec serve))
      (fun x => Spares V m c event true x.2 → Safekept V c₀ peer m s batch P x.1.disk)
      (fun r x => Spares V m c event false x.2 →
        Pending V c₀ peer m s batch (done ++ [event]) rest P x.1.disk r.2)
      ((handleEvent V event : Code S R Crypto (List Secret)).run c) (w, []) := by
  obtain ⟨hbase, hway⟩ := h
  have hevent : event ∈ batch := by simp [hbatch]
  rcases hway with harrived | ⟨hP, hway⟩
  · exact (safe_handleEvent_base (V := V) (s := s) hbase hevent []).weaken
      (fun x hx _ => ⟨hx.1, Or.inl (hx.2 harrived)⟩) fun r x hx _ => ⟨hx.1, Or.inl (hx.2 harrived)⟩
  · refine ((safe_handleEvent_base (V := V) (s := s) hbase hevent []).and
      (safe_onWay hgenuine hbatch hmem hkey hbase hway)).weaken ?_ ?_
    · exact fun x hx hspares => ⟨hx.1.1, Or.inr ⟨hP, hx.2 hspares⟩⟩
    · exact fun r x hx hspares => ⟨hx.1.1, (hx.2 hspares).imp_right fun hway => ⟨hP, hway⟩⟩

/-- What fails in an event costs that event only. -/
theorem handleEvent_ok {os : List (Outcome N)} {r : Except String (List Secret) × Crypto} {w' : World S Ω}
    (h : run (exec serve) ((handleEvent V event : Code S R Crypto (List Secret)).run c) w os =
      (some r, w')) : ∃ found, r.1 = .ok found := by
  have hok : Safe (exec serve) (fun _ => True) (fun r _ => ∃ found, r.1 = .ok found)
      ((handleEvent V event : Code S R Crypto (List Secret)).run c) w := by
    unfold handleEvent
    split_ifs
    · exact ⟨_, rfl⟩
    · rw [Act.safe_bind, Act.safe_attempt]
      refine Safe.of_forall (fun _ => trivial) ?_
      rintro ⟨e | _ | secret, c'⟩ w'
      · exact ⟨_, rfl⟩
      · exact ⟨_, rfl⟩
      · exact ⟨_, rfl⟩
  exact (hok.run os).1 r w' h

/-- What is known of the end of a delivery. -/
def Ended (V : Vodozemac) (c₀ : Crypto) (peer : String) (m : OlmMessage) (s : InboundGroupSession)
    (batch : List ToDeviceEvent) (P : Prop) :
    Option (Except String (List Secret) × Crypto) × World S Ω → Prop
  | (some r, w) => Base c₀ w.disk r.2 ∧ Arrived V c₀ batch s w.disk
  | (none, w) => Safekept V c₀ peer m s batch P w.disk

/-- **A delivery** comes to the key, or is killed on the way to it. -/
theorem deliver_ends (hgenuine : Genuine V c₀ batch) (hmem : (peer, m) ∈ messages V c₀ batch)
    (hkey : shared V c₀ peer m.plaintext = some s) (hbatch : batch = done ++ rest)
    (h : Pending V c₀ peer m s batch done rest P w.disk c) {os : List (Outcome N)}
    (hspares : SparesAll serve V m rest c w os) :
    Ended V c₀ peer m s batch P
      (run (exec serve) ((handleToDevice V rest : Code S R Crypto (List Secret)).run c) w os) := by
  induction rest generalizing done c w os with
  | nil =>
    obtain ⟨hbase, harrived | ⟨-, hway⟩⟩ := h
    · exact ⟨hbase, harrived⟩
    · exact hway.2.not_nil.elim
  | cons event rest ih =>
    unfold SparesAll at hspares
    obtain ⟨hret, hkill⟩ := (safe_pending hgenuine hbatch hmem hkey h).run_trail os
    have hcons : (handleToDevice V (event :: rest) : Code S R Crypto (List Secret)).run c =
        ((handleEvent V event : Code S R Crypto (List Secret)).run c).bind (Act.andThen fun found =>
          (handleToDevice V rest >>= fun more => pure (found ++ more) :
            Code S R Crypto (List Secret))) := by
      rw [handleToDevice_cons]
      rfl
    rw [hcons, run_bind]
    rcases hr : run (exec serve) ((handleEvent V event : Code S R Crypto (List Secret)).run c) w os with
      ⟨_ | ⟨found, c'⟩, w'⟩
    · rw [hr] at hspares
      exact hkill w' hr hspares
    · rw [hr] at hspares
      obtain ⟨hspares, hrest⟩ := hspares
      have hpending := hret (found, c') w' hr hspares
      obtain ⟨secrets, rfl⟩ := handleEvent_ok hr
      have hih := ih (by rw [hbatch]; simp) hpending hrest
      have hnext : Act.andThen (fun found => (handleToDevice V rest >>= fun more => pure (found ++ more) :
            Code S R Crypto (List Secret))) (.ok secrets, c') =
          ((handleToDevice V rest : Code S R Crypto (List Secret)).run c').bind
            (Act.andThen fun more => pure (secrets ++ more)) := rfl
      dsimp only
      rw [hnext, run_bind]
      rcases hr' : run (exec serve) ((handleToDevice V rest : Code S R Crypto (List Secret)).run c') w'
          (os.drop (eventTrail serve V c w event os).length) with ⟨_ | ⟨e | more, c''⟩, w''⟩
      · rw [hr'] at hih
        exact hih
      · rw [hr'] at hih
        exact hih
      · rw [hr'] at hih
        exact hih

/-- **A start** leaves what is on disk, where there is an account. -/
theorem eq_of_primed {st' : Store S} (h : Primed st st') {a : Account} (ha : storedAccount st = some a) :
    st' = st := by
  induction h with
  | same => rfl
  | key rng key hnone =>
    have hkey : storedKey st = none := by
      unfold storedKey
      rw [hnone]
    unfold storedAccount at ha
    rw [stored_of_no_key hkey] at ha
    cases ha
  | account hprimed hnone rng pickle ih =>
    unfold storedAccount stored at ha
    rw [hnone] at ha
    simp at ha

/-- **What is loaded** are the sessions on disk. -/
theorem inMemory_loaded (h : Loaded st c) (hfiled : ∀ peer id t, storedOlm st peer id = some t → t.id = id)
    (id : String) (t : OlmSession) : inMemory c peer id t ↔ onDisk st peer id t := by
  have hrow : ∀ id' pickle, (id', peer, pickle) ∈ Read.allPickles st kindOlm →
      opened Pickled.olm? c.pickleKey pickle = some t → storedOlm st peer id' = some t := by
    intro id' pickle hmem hopen
    unfold storedOlm
    rw [h.key, Option.bind_some, mem_allPickles_iff.mp hmem, Option.bind_some, if_pos rfl]
    exact hopen
  unfold inMemory onDisk
  rw [h.olm, mem_loadOlm]
  constructor
  · rintro ⟨⟨id', pickle, hmem, hopen⟩, hid⟩
    have hstored := hrow id' pickle hmem hopen
    rw [← hid, hfiled peer id' t hstored]
    exact hstored
  · intro hstored
    refine ⟨?_, hfiled peer id t hstored⟩
    unfold storedOlm at hstored
    rw [h.key, Option.bind_some] at hstored
    obtain ⟨⟨extra, pickle⟩, hlookup, hopen⟩ := Option.bind_eq_some_iff.mp hstored
    split_ifs at hopen with hpeer
    dsimp only at hpeer
    subst hpeer
    exact ⟨id, pickle, mem_allPickles_iff.mpr hlookup, hopen⟩

/-- **A start** comes back to the way on disk. -/
theorem safe_boot_pending (h : Safekept V c₀ peer m s batch P w.disk) :
    Safe (exec serve) (fun w => Safekept V c₀ peer m s batch P w.disk)
      (fun m' w' => Safekept V c₀ peer m s batch P w'.disk ∧
        ∀ c, m' = some c → Pending V c₀ peer m s batch [] batch P w'.disk c)
      (boot V : Prog (Effect Q) (Answer S R) (Option Crypto)) w := by
  obtain ⟨a, ha, hcurve, hed⟩ := h.1.account
  have hafter : ∀ w', After w w' → w'.disk = w.disk := fun w' hw' => eq_of_primed hw'.1 ha
  refine safe_boot_loaded.weaken (fun w' hw' => by rwa [hafter w' hw']) ?_
  rintro m' w' ⟨hw', hloaded⟩
  refine ⟨by rwa [hafter w' hw'], fun c hc => ?_⟩
  have hload := hloaded c hc
  rw [hafter w' hw'] at hload ⊢
  obtain rfl : a = c.account := Option.some.inj (ha.symm.trans hload.account)
  refine ⟨⟨hload.key, ⟨hcurve, hed, Or.inr hload.knownDevices⟩, h.1⟩, h.2.imp_right ?_⟩
  rintro ⟨hP, a', ha', hway⟩
  obtain rfl : a' = c.account := Option.some.inj (ha'.symm.trans hload.account)
  refine ⟨hP, ⟨c.account, ha', fun _ _ => Iff.rfl⟩, ?_⟩
  have hheld : inMemory c peer m.session = onDisk w.disk peer m.session :=
    funext fun t => propext (inMemory_loaded hload h.1.filed m.session t)
  rw [hheld]
  exact hway

/-- **Every spared step of a run** keeps the way, until a delivery is through. -/
theorem holds_step (hgenuine : Genuine V c₀ batch) (hmem : (peer, m) ∈ messages V c₀ batch)
    (hkey : shared V c₀ peer m.plaintext = some s) (p : Process (World S Ω) Crypto Unit Unit)
    (event : Event Unit (Outcome N))
    (hp : p.Holds (fun past w => Safekept V c₀ peer m s batch (past = []) w.disk)
      fun past w c => Pending V c₀ peer m s batch [] batch (past = []) w.disk c)
    (hspares : SparesEvent serve V batch m p event) :
    (Process.step (exec serve) (boot V) (deliver V batch) p event).Holds
      (fun past w => Safekept V c₀ peer m s batch (past = []) w.disk)
      fun past w c => Pending V c₀ peer m s batch [] batch (past = []) w.disk c := by
  rcases event with ⟨u, os⟩ | os
  · obtain ⟨w, memory, returned⟩ := p
    rcases memory with _ | c
    · exact hp
    · have hends := deliver_ends hgenuine hmem hkey (List.nil_append batch).symm (hp.2 c rfl)
        (hspares c rfl)
      unfold Process.step deliver
      dsimp only
      rw [run_bind]
      dsimp only at hends
      rcases hr : run (exec serve) ((handleToDevice V batch : Code S R Crypto (List Secret)).run c) w os with
        ⟨_ | ⟨secrets, c'⟩, w'⟩
      · rw [hr] at hends
        exact ⟨hends, fun m hm => by simp at hm⟩
      · rw [hr] at hends
        obtain ⟨hbase, harrived⟩ := hends
        refine ⟨⟨hbase.sound, Or.inl harrived⟩, fun c'' hc => ?_⟩
        obtain rfl := Option.some.inj hc
        exact ⟨hbase, Or.inl harrived⟩
  · refine Process.Holds.booted (C := fun _ => True) ?_ trivial
    exact ((safe_boot_pending hp.1).recorded []).weaken (fun x hx _ => hx.1) fun m x hx _ => hx.1

end Runs

/-! ### Killed before the room key is written -/

section Examples

/-- The account holds a one-time key that the peer has. -/
def offered : Account := ⟨"our curve", "our ed", 1, [⟨0, "one-time", true⟩]⟩

def offeredCrypto : Crypto := { newCrypto with account := offered }

def offeredStore : Store copySuite :=
  (StoreOp.putPickle kindAccount "self" "" ⟨keyText zeroKey, .account offered⟩).exec (fun _ => zeroSalt)
    ((StoreOp.setMeta pickleKeyMeta (keyText zeroKey)).exec (fun _ => zeroSalt) blankStore)

/-- A room key of the session `m`, in a pre-key message. -/
def roomKeyShare : Value :=
  .obj [("content", .obj [("algorithm", .str megolmAlgorithm), ("room_id", .str "!r"),
    ("session_key", .str "m")]), ("type", .str "m.room_key")]

def peerVodozemac : Vodozemac :=
  plainVodozemac [("key", roomKeyShare)] [("body", ⟨"s", 0, some "one-time", "key"⟩)]

def roomKeyEvent : ToDeviceEvent :=
  ⟨"m.room.encrypted", "@peer",
    .obj [("algorithm", .str olmAlgorithm),
      ("ciphertext", .obj [("our curve", .obj [("body", .str "body"), ("type", .int 0)])]),
      ("sender_key", .str "peer")]⟩

/-- The room key is delivered, and the process killed after so many writes: of the Olm session, of the
account, and of the key. -/
def delivered (writes : ℕ) : Event Unit (Outcome Unit) := .call () (List.replicate writes (calm ()))

end Examples

end Kmatrix.E2ee.Redelivery
