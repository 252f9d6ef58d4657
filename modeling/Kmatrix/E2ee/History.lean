import Kmatrix.E2ee.Held

/-! # Sessions keep their history

An inbound session reads from its first known index on, so a session that is replaced by a later copy of
itself loses messages. `importBackupSession` keeps the earlier copy, and our own sessions start at their
first message; a room key is stored whatever is held.

`KeepsHistory` says that nothing held at one moment of a run, in memory or on disk, is lost or shortened
at a later one. `keepsHistory_of_keeping` is the condition on the room keys under which it holds, through
failed writes, kills and restarts; `not_keepsHistory_laterKey` is a room key that is shared again. -/

namespace Kmatrix.E2ee.History

open Kmatrix.Lib.Crash Kmatrix.Lib.Keyed Kmatrix.E2ee.Ratchets Kmatrix.E2ee.Json Kmatrix.E2ee.Effects
open Kmatrix.E2ee.Sessions Kmatrix.E2ee.Secrets Kmatrix.E2ee.ToDevice Kmatrix.E2ee.Inbound
open Kmatrix.E2ee.Stored Kmatrix.E2ee.Held
open Kmatrix.E2ee.Megolm (unserved)
open Kmatrix.E2ee.Provenance (peerStore)
open Kmatrix.Storage Kmatrix.Storage.Seal Kmatrix.Storage.Schema
open Kmatrix.Storage.Write (StoreOp)

/-! ### What is kept -/

/-- The same session, from no later index. -/
def Covers (s' s : InboundGroupSession) : Prop :=
  s'.id = s.id ∧ s'.firstKnownIndex ≤ s.firstKnownIndex

theorem Covers.refl (s : InboundGroupSession) : Covers s s := ⟨rfl, le_rfl⟩

theorem Covers.trans {s s' s'' : InboundGroupSession} (h' : Covers s'' s') (h : Covers s' s) :
    Covers s'' s := ⟨h'.1.trans h.1, h'.2.trans h.2⟩

/-- What one decrypts, the other does. -/
theorem Covers.decrypt {s s' : InboundGroupSession} (h : Covers s' s) {m : MegolmMessage}
    {text : String} (hs : s.decrypt m = some text) : s'.decrypt m = some text := by
  unfold InboundGroupSession.decrypt at hs ⊢
  split_ifs at hs with hfits
  rw [if_pos ⟨hfits.1.trans h.1.symm, h.2.trans hfits.2⟩]
  exact hs

/-- **Nothing is lost or shortened.** -/
def Keeps (f f' : Holding) : Prop := ∀ id s, f id = some s → ∃ s', f' id = some s' ∧ Covers s' s

theorem Keeps.refl (f : Holding) : Keeps f f := fun _ s h => ⟨s, h, .refl s⟩

theorem Keeps.trans {f f' f'' : Holding} (h : Keeps f f') (h' : Keeps f' f'') : Keeps f f'' := by
  intro id s hs
  obtain ⟨s', hs', hcov⟩ := h id s hs
  obtain ⟨s'', hs'', hcov'⟩ := h' id s' hs'
  exact ⟨s'', hs'', hcov'.trans hcov⟩

section Statement
variable {S : CipherSuite} {Ω κ α : Type}

/-- **The history of `p` is there in `p'`.** -/
structure KeepsHistory (A : Archive) (p p' : Process (World S Ω) Crypto κ α) : Prop where
  disk : Keeps (storedInbound p.world.disk) (storedInbound p'.world.disk)
  toDisk : ∀ c, p.memory = some c → Keeps c.inbound (storedInbound p'.world.disk)
  fromDisk : ∀ c', p'.memory = some c' → Keeps (storedInbound p.world.disk) c'.inbound
  memory : ∀ c c', p.memory = some c → p'.memory = some c' → Keeps c.inbound c'.inbound
  decrypts : ∀ c c', p.memory = some c → p'.memory = some c' → ∀ sessionId ciphertext text,
    Crypto.decrypt A c sessionId ciphertext = .ok text →
      Crypto.decrypt A c' sessionId ciphertext = .ok text

/-- Sessions on disk are filed under their own ids. -/
def Filed (st : Store S) : Prop := ∀ id row s,
  st.db.pickles.lookup (kindMegolmIn, id) = some row → row.pickle.content = .inbound s → s.id = id

end Statement

/-! ### The condition -/

/-- **The condition on a call**: a room key is not of a session that is held from an earlier index. -/
def keeping (V : Vodozemac) (c : Crypto) : Call → Bool
  | .toDevice event =>
    match sharedSession V c event with
    | none => true
    | some s => (c.inbound s.id).all fun held => s.firstKnownIndex ≤ held.firstKnownIndex
  | _ => true

/-- What it admits. -/
def NoLater (held : Holding) (s : InboundGroupSession) : Prop :=
  ∀ s', held s.id = some s' → s.firstKnownIndex ≤ s'.firstKnownIndex

theorem admitted_of_keeping {V : Vodozemac} {c : Crypto} {call : Call} (h : keeping V c call = true) :
    Admitted V NoLater c call := by
  rcases call with event | ⟨room, sessionId, entry⟩ | room | ⟨secret, expected⟩
  · intro s hs s' hs'
    unfold keeping at h
    simpa [hs, hs'] using h
  · trivial
  · trivial
  · trivial

section Invariant
variable {S : CipherSuite} {base : Holding}

/-- **What holds of the disk**: what was held once is there. -/
def OnDisk (base : Holding) (st : Store S) : Prop := Keeps base (storedInbound st) ∧ Filed st

theorem Filed.id {st : Store S} (h : Filed st) {id : String} {s : InboundGroupSession}
    (hs : storedInbound st id = some s) : s.id = id := by
  obtain ⟨key, -, hs⟩ := Option.bind_eq_some_iff.mp hs
  obtain ⟨row, hrow, hs⟩ := Option.bind_eq_some_iff.mp hs
  obtain ⟨content, hopen, hs⟩ := Option.bind_eq_some_iff.mp hs
  unfold Pickle.fromEncrypted at hopen
  split_ifs at hopen
  obtain rfl := Option.some.inj hopen
  unfold Pickled.inbound? at hs
  split at hs
  · next s' hcontent =>
    obtain rfl := Option.some.inj hs
    exact h id row s' hrow hcontent
  · simp at hs

theorem Filed.congr {st st' : Store S} (h : Filed st)
    (hrows : ∀ id, st'.db.pickles.lookup (kindMegolmIn, id) = st.db.pickles.lookup (kindMegolmIn, id)) :
    Filed st' := fun id row s hrow => h id row s ((hrows id).symm.trans hrow)

/-- **A session is stored**: the disk keeps what it had, where the session is held from no earlier
index. -/
theorem OnDisk.store {st : Store S} {c : Crypto} {s : InboundGroupSession} (h : OnDisk base st)
    (hmirrors : Mirrors st c) (hs : NoLater c.inbound s) (rng : Salts) (room : String) :
    OnDisk base ((storing c s room).exec rng st) := by
  refine ⟨h.1.trans fun id held hheld => ?_, fun id row s' hrow hs' => ?_⟩
  · rw [storedInbound_storing hmirrors]
    split_ifs with hid
    · subst hid
      refine ⟨s, rfl, (h.2.id hheld).symm, hs held ?_⟩
      rw [hmirrors.inbound]
      exact hheld
    · exact ⟨held, hheld, .refl held⟩
  · rw [lookup_put] at hrow
    split_ifs at hrow with hid
    · rw [← Option.some.inj hrow] at hs'
      rw [← Pickled.inbound.inj hs']
      exact (Prod.mk.inj hid).2.symm
    · exact h.2 id row s' hrow hs'

theorem kept_onDisk : Kept (OnDisk base : Store S → Prop) NoLater where
  alike h halike :=
    ⟨h.1.trans fun id s hs => ⟨s, (halike.storedInbound id).trans hs, .refl s⟩, h.2.congr halike.rows⟩
  primed h hprimed :=
    ⟨h.1.trans fun id s hs => ⟨s, hprimed.stored hs, .refl s⟩,
      h.2.congr fun id => hprimed.pickles (by simp [kindMegolmIn, kindAccount])⟩
  store h hmirrors hs rng room := h.store hmirrors hs rng room
  imported h s' hs' := le_of_lt (h s' hs')
  created _ _ _ _ := Nat.zero_le _

end Invariant

/-! ### Runs -/

section Runs
variable {S : CipherSuite} {Q Ω N : Type} {R : Q → Type} (serve : N → Ω → (q : Q) → R q × Ω)
  (V : Vodozemac) (A : Archive)

/-- The daemon before its first start, over a database. -/
def cold (st : Store S) (server : Ω) : Process (World S Ω) Crypto Call Unit :=
  ⟨⟨st, 0, server⟩, none, []⟩

/-- The calls of a run meet the condition. -/
abbrev Keeping (p : Process (World S Ω) Crypto Call Unit) (events : List (Event Call (Outcome N))) :
    Prop :=
  Process.Meets (exec (R := R) serve) (boot V) (Call.code V A) (fun c call => keeping V c call = true)
    p events

/-- A run. -/
abbrev run (p : Process (World S Ω) Crypto Call Unit) (events : List (Event Call (Outcome N))) :
    Process (World S Ω) Crypto Call Unit :=
  Process.runs (exec (R := R) serve) (boot V) (Call.code V A) p events

variable {serve V A}

theorem holds_run {base : Holding} {p : Process (World S Ω) Crypto Call Unit}
    (hp : p.Holds (fun _ w => OnDisk base w.disk) fun _ => Ready (OnDisk base))
    {events : List (Event Call (Outcome N))} (h : Keeping (R := R) serve V A p events) :
    (run (R := R) serve V A p events).Holds (fun _ w => OnDisk base w.disk) fun _ =>
      Ready (OnDisk base) :=
  Process.Holds.meets (fun _ _ _ hm => hm.disk) (fun _ _ hw => safe_boot_kept kept_onDisk hw)
    (fun _ _ _ call hc hkeep => safe_call kept_onDisk hc call (admitted_of_keeping hkeep)) hp h

/-- From any moment of a run the history is there ever after. -/
theorem keepsHistory_of_holds {p p' : Process (World S Ω) Crypto Call Unit}
    (hp : p.Holds (fun _ w => OnDisk (storedInbound p.world.disk) w.disk) fun _ =>
      Ready (OnDisk (storedInbound p.world.disk)))
    (hp' : p'.Holds (fun _ w => OnDisk (storedInbound p.world.disk) w.disk) fun _ =>
      Ready (OnDisk (storedInbound p.world.disk))) : KeepsHistory A p p' := by
  have hdisk : Keeps (storedInbound p.world.disk) (storedInbound p'.world.disk) := hp'.1.1
  have hsame : ∀ c, p.memory = some c → c.inbound = storedInbound p.world.disk :=
    fun c hc => funext (hp.2 c hc).mirrors.inbound
  have hsame' : ∀ c', p'.memory = some c' → c'.inbound = storedInbound p'.world.disk :=
    fun c' hc' => funext (hp'.2 c' hc').mirrors.inbound
  have hmemory : ∀ c c', p.memory = some c → p'.memory = some c' → Keeps c.inbound c'.inbound := by
    intro c c' hc hc'
    rw [hsame c hc, hsame' c' hc']
    exact hdisk
  refine ⟨hdisk, fun c hc => ?_, fun c' hc' => ?_, hmemory, ?_⟩
  · rw [hsame c hc]
    exact hdisk
  · rw [hsame' c' hc']
    exact hdisk
  · intro c c' hc hc' sessionId ciphertext text htext
    obtain ⟨s, m, hs, hm, hopen⟩ := Crypto.decrypt_ok.mp htext
    obtain ⟨s', hs', hcov⟩ := hmemory c c' hc hc' sessionId s hs
    exact Crypto.decrypt_ok.mpr ⟨s', m, hs', hm, hcov.decrypt hopen⟩

end Runs

section Proof
variable {S : CipherSuite} {Q Ω N : Type} {R : Q → Type} (serve : N → Ω → (q : Q) → R q × Ω)
  (V : Vodozemac) (A : Archive)

/-- **Sessions keep their history** in every run in which no room key is of a session that is held from
an earlier index, whatever fails and wherever the process is killed. -/
theorem keepsHistory_of_keeping (st : Store S) (server : Ω) (hst : Filed st)
    (events later : List (Event Call (Outcome N)))
    (h : Keeping (R := R) serve V A (cold st server) (events ++ later)) :
    KeepsHistory A (run (R := R) serve V A (cold st server) events)
      (run (R := R) serve V A (run (R := R) serve V A (cold st server) events) later) := by
  obtain ⟨hevents, hlater⟩ := Process.meets_append.mp h
  have hcold : (cold st server).Holds (fun _ w => OnDisk (fun _ => none) w.disk) fun _ =>
      Ready (OnDisk fun _ => none) :=
    ⟨⟨fun id s hs => by simp at hs, hst⟩, fun m hm => by simp [cold] at hm⟩
  have hmid := holds_run hcold hevents
  -- what is held now is what has to be there ever after
  have hbase : (run (R := R) serve V A (cold st server) events).Holds
      (fun _ w =>
        OnDisk (storedInbound (run (R := R) serve V A (cold st server) events).world.disk) w.disk)
      fun _ =>
        Ready (OnDisk (storedInbound (run (R := R) serve V A (cold st server) events).world.disk)) :=
    ⟨⟨.refl _, hmid.1.2⟩, fun m hm => ⟨(hmid.2 m hm).mirrors, .refl _, hmid.1.2⟩⟩
  exact keepsHistory_of_holds hbase (holds_run hbase hlater)

end Proof

/-- A room key of the session `m`, which the peer exports at two indices. -/
def share (sessionKey : String) : Value :=
  .obj [("content", .obj [("algorithm", .str megolmAlgorithm), ("room_id", .str "!r"),
    ("session_key", .str sessionKey)]), ("type", .str "m.room_key")]

def sharingVodozemac : Vodozemac :=
  { plainVodozemac [("first", share "first"), ("later", share "later")]
      [("first", ⟨"s", 0, none, "first"⟩), ("later", ⟨"s", 1, none, "later"⟩)] with
    readSessionKey := fun text => .ok ⟨"m", if text = "first" then 0 else 5⟩ }

/-- It arrives over the session with the peer. -/
def shareEvent (body : String) : ToDeviceEvent :=
  ⟨"m.room.encrypted", "@peer",
    .obj [("algorithm", .str olmAlgorithm),
      ("ciphertext", .obj [("our curve", .obj [("body", .str body), ("type", .int 1)])]),
      ("sender_key", .str "peer")]⟩

/-- After a start the key is shared at one index. -/
def sharedRun (body : String) : List (Event Call (Outcome Unit)) :=
  [.boot (List.replicate 10 (calm ())), .call (.toDevice (shareEvent body)) (List.replicate 2 (calm ()))]

/-- Then at the other. -/
def sharedAgain (body : String) : List (Event Call (Outcome Unit)) :=
  [.call (.toDevice (shareEvent body)) (List.replicate 2 (calm ())),
    .boot (List.replicate 10 (calm ()))]

theorem filed_peerStore : Filed peerStore := by
  intro id row s hrow hs
  unfold peerStore at hrow
  rw [lookup_put] at hrow
  split_ifs at hrow with hid
  · exact absurd (Prod.mk.inj hid).1 (by decide)
  · simp [blankStore, Tables.empty] at hrow

/-- The key comes late, and then from its start. -/
theorem keepsHistory_of_keeping_earlier :
    (storedInbound (run unserved sharingVodozemac (plainArchive (fun _ => 0) [])
      (cold peerStore ()) (sharedRun "later")).world.disk "m" = some ⟨"m", 5⟩) ∧
    KeepsHistory (plainArchive (fun _ => 0) [])
      (run unserved sharingVodozemac (plainArchive (fun _ => 0) []) (cold peerStore ())
        (sharedRun "later"))
      (run unserved sharingVodozemac (plainArchive (fun _ => 0) [])
        (run unserved sharingVodozemac (plainArchive (fun _ => 0) []) (cold peerStore ())
          (sharedRun "later")) (sharedAgain "first")) :=
  ⟨by decide +kernel,
    keepsHistory_of_keeping unserved sharingVodozemac (plainArchive (fun _ => 0) []) peerStore ()
      filed_peerStore (sharedRun "later") (sharedAgain "first") (by decide +kernel)⟩

/-- The key comes from its start, and then late. -/
theorem not_keepsHistory_laterKey :
    ¬ KeepsHistory (plainArchive (fun _ => 0) [])
      (run unserved sharingVodozemac (plainArchive (fun _ => 0) []) (cold peerStore ())
        (sharedRun "first"))
      (run unserved sharingVodozemac (plainArchive (fun _ => 0) [])
        (run unserved sharingVodozemac (plainArchive (fun _ => 0) []) (cold peerStore ())
          (sharedRun "first")) (sharedAgain "later")) := by
  intro h
  obtain ⟨s, hs, hcov⟩ := h.disk "m" ⟨"m", 0⟩ (by decide +kernel)
  have hlate : storedInbound (run unserved sharingVodozemac (plainArchive (fun _ => 0) [])
      (run unserved sharingVodozemac (plainArchive (fun _ => 0) []) (cold peerStore ())
        (sharedRun "first")) (sharedAgain "later")).world.disk "m" = some ⟨"m", 5⟩ := by
    decide +kernel
  rw [hlate] at hs
  obtain rfl := Option.some.inj hs
  exact absurd hcov.2 (by decide)

end Kmatrix.E2ee.History
