import Kmatrix.E2ee.Megolm
import Kmatrix.E2ee.Stored
import Kmatrix.E2ee.Inbound

/-! # Importing what helps

A session in the backup helps where none is held, or one that starts later. `importBackupSession` looks at
two indexes: the one the entry advertises, before it decrypts, and the one of the ratchet. Where the first
is too high it turns away a session that would have helped. -/

namespace Kmatrix.E2ee.Imports

open Kmatrix.Lib.Crash Kmatrix.E2ee.Ratchets Kmatrix.E2ee.Json Kmatrix.E2ee.Effects
open Kmatrix.E2ee.Sessions Kmatrix.E2ee.Inbound Kmatrix.Storage Kmatrix.Storage.Seal
open Kmatrix.Storage.Schema
open Kmatrix.Storage.Write (StoreOp)

/-! ### What is claimed, and when it holds -/

section Claim
variable {S : CipherSuite} {Q Ω N : Type} {R : Q → Type} (serve : N → Ω → (q : Q) → R q × Ω)
  (V : Vodozemac) (A : Archive)

/-- **The session helps**: none is held under its id, or one that starts later. -/
def Helps (c : Crypto) (s : InboundGroupSession) : Prop :=
  ∀ held, c.inbound s.id = some held → s.firstKnownIndex < held.firstKnownIndex

instance (c : Crypto) (s : InboundGroupSession) : Decidable (Helps c s) := by
  unfold Helps
  infer_instance

/-- The index an entry advertises. -/
def advertised (entry : Value) : ℕ := ((entry.get "first_message_index").bind Value.asU64).getD 0

/-- The session is stored for the room. -/
abbrev storing (c : Crypto) (room : String) (s : InboundGroupSession) : StoreOp :=
  .putPickle kindMegolmIn s.id room (c.pickle (.inbound s))

/-- **What a call should come to**, in a memory and a world: an error leaves both alone, and is only the
store's where the entry opens to the session asked for; that is held afterwards if it helps, and otherwise
nothing is changed. -/
structure Exact (c : Crypto) (w : World S Ω) (room sessionId : String) (entry : Value)
    (os : List (Outcome N)) (r : Except String Bool × Crypto) (w' : World S Ω) : Prop where
  error : ∀ e, r.1 = .error e → r.2 = c ∧ w' = w
  opened : ∀ s, openEntry V A c sessionId entry = .ok (some s) → s.id = sessionId →
    ((∀ o ∈ os, o.fault = none) → ∃ imported, r.1 = .ok imported) ∧
    ∀ imported, r.1 = .ok imported →
      if Helps c s then imported = true ∧
        r.2 = { c with inbound := Function.update c.inbound s.id (some s) } ∧
        ∃ rng, w' = { w with disk := (storing c room s).exec rng w.disk }
      else imported = false ∧ r.2 = c ∧ w' = w

/-- **Every call** from this memory and world comes to that, if it comes to its end. -/
def ImportsExactly (c : Crypto) (w : World S Ω) (room sessionId : String) (entry : Value) : Prop :=
  ∀ os r w', run (exec serve) ((importBackupSession V A room sessionId entry :
    Code S R Crypto Bool).run c) w os = (some r, w') → Exact V A c w room sessionId entry os r w'

/-- **The condition**: a session that helps is not advertised as starting no earlier than the one held. -/
def Advertised (c : Crypto) (sessionId : String) (entry : Value) : Prop :=
  ∀ s held, openEntry V A c sessionId entry = .ok (some s) → s.id = sessionId →
    c.inbound sessionId = some held → s.firstKnownIndex < held.firstKnownIndex →
      advertised entry < held.firstKnownIndex

end Claim

/-! ### The calls -/

section Calls
variable {S : CipherSuite} {Q Ω N : Type} {R : Q → Type} {serve : N → Ω → (q : Q) → R q × Ω}
  {V : Vodozemac} {A : Archive} {c : Crypto} {w : World S Ω} {sessionId : String} {entry : Value}

theorem holdsFrom_iff {s : InboundGroupSession} :
    Crypto.holdsFrom c s.id s.firstKnownIndex = true ↔ ¬ Helps c s := by
  unfold Crypto.holdsFrom Helps
  rcases c.inbound s.id with _ | held
  · simp
  · simp

/-- **One call**, with what it writes. -/
theorem safe_import_recorded (room : String) (hadv : Advertised V A c sessionId entry) :
    Safe (recording (exec serve)) (fun _ => True)
      (fun r x => (∀ e, r.1 = .error e → r.2 = c ∧ x.1 = w) ∧
        ∀ s, openEntry V A c sessionId entry = .ok (some s) → s.id = sessionId →
          ((∀ y ∈ x.2, y.2.fault = none) → ∃ imported, r.1 = .ok imported) ∧
          ∀ imported, r.1 = .ok imported →
            if Helps c s then imported = true ∧
              r.2 = { c with inbound := Function.update c.inbound s.id (some s) } ∧
              ∃ rng, x.1 = { w with disk := (storing c room s).exec rng w.disk }
            else imported = false ∧ r.2 = c ∧ x.1 = w)
      ((importBackupSession V A room sessionId entry : Code S R Crypto Bool).run c) (w, []) := by
  -- nothing is imported, and nothing changed
  have hfalse : ∀ s : InboundGroupSession, ¬ Helps c s → ∀ imported,
      (.ok false : Except String Bool) = .ok imported →
        if Helps c s then imported = true ∧
          c = { c with inbound := Function.update c.inbound s.id (some s) } ∧
          ∃ rng, w = { w with disk := (storing c room s).exec rng w.disk }
        else imported = false ∧ c = c ∧ w = w := by
    intro s hs imported hr
    rw [if_neg hs]
    exact ⟨(Except.ok.inj hr).symm, rfl, rfl⟩
  unfold importBackupSession
  simp only [Act.safe_bind, Act.safe_get, Act.then_ok]
  split_ifs with hearly
  · -- turned away by the advertised index
    refine ⟨fun e hr => by simp at hr, fun s hopen hid => ⟨fun _ => ⟨false, rfl⟩, hfalse s fun hhelps => ?_⟩⟩
    unfold Crypto.holdsFrom at hearly
    rcases hheld : c.inbound sessionId with _ | held
    · simp [hheld] at hearly
    · rw [hheld] at hearly
      have hle : held.firstKnownIndex ≤ advertised entry := by simpa [advertised] using hearly
      have hlater := hhelps held (by rw [hid, hheld])
      exact absurd (hadv s held hopen hid hheld hlater) hle.not_gt
  · rw [Act.safe_bind, Act.safe_ofExcept]
    rcases hopen : openEntry V A c sessionId entry with e | _ | session
    · exact ⟨fun e _ => ⟨rfl, rfl⟩, fun s hs => by cases hs⟩
    · exact ⟨fun e hr => (by simp at hr), fun s hs => by cases hs⟩
    · rw [Act.then_ok]
      dsimp only
      split_ifs with hid hheld
      · -- filed under another id
        refine ⟨fun e _ => ⟨rfl, rfl⟩, fun s hs hs' => ?_⟩
        obtain rfl := Option.some.inj (Except.ok.inj hs)
        exact absurd hs' hid
      · refine ⟨fun e hr => by simp at hr, fun s hs _ => ⟨fun _ => ⟨false, rfl⟩, hfalse s ?_⟩⟩
        obtain rfl := Option.some.inj (Except.ok.inj hs)
        exact holdsFrom_iff.mp hheld
      · have hhelps : Helps c session := by
          by_contra h
          exact hheld (holdsFrom_iff.mpr h)
        rw [Act.safe_bind]
        refine safe_put_recorded trivial (fun o e ho => ?_) fun o ho => ?_
        · refine ⟨fun e _ => ⟨rfl, rfl⟩, fun s hs _ => ⟨fun hall => ?_, fun imported hr => by simp at hr⟩⟩
          have hnone := hall _ (List.mem_append_right _ (List.mem_singleton_self _))
          rw [ho] at hnone
          cases hnone
        · refine ⟨fun e hr => by simp at hr, fun s hs _ => ⟨fun _ => ⟨true, rfl⟩, fun imported hr => ?_⟩⟩
          obtain rfl := Option.some.inj (Except.ok.inj hs)
          rw [if_pos hhelps]
          exact ⟨(Except.ok.inj hr).symm, rfl, o.salts, rfl⟩

/-- An entry that advertises too high an index is turned away. -/
theorem run_import_early (room : String) (h : Crypto.holdsFrom c sessionId (advertised entry) = true) :
    run (exec serve) ((importBackupSession V A room sessionId entry : Code S R Crypto Bool).run c) w
      ([] : List (Outcome N)) = (some (.ok false, c), w) := by
  have hsafe : Safe (exec serve) (fun _ => False) (fun r w' => r = (.ok false, c) ∧ w' = w)
      ((importBackupSession V A room sessionId entry : Code S R Crypto Bool).run c) w := by
    unfold importBackupSession
    simp only [Act.safe_bind, Act.safe_get, Act.then_ok]
    unfold advertised at h
    rw [if_pos h]
    exact ⟨rfl, rfl⟩
  obtain ⟨hret, hkill⟩ := hsafe.run []
  rcases hr : run (exec serve) ((importBackupSession V A room sessionId entry :
    Code S R Crypto Bool).run c) w ([] : List (Outcome N)) with ⟨_ | r, w'⟩
  · exact (hkill w' hr).elim
  · obtain ⟨rfl, rfl⟩ := hret r w' hr
    rfl

/-- **An entry is imported exactly when it helps**, whatever the call finds and the store does, if and only
if the index it advertises is no excuse. -/
theorem importsExactly_iff (serve : N → Ω → (q : Q) → R q × Ω) (V : Vodozemac) (A : Archive) (c : Crypto)
    (w : World S Ω) (room sessionId : String) (entry : Value) :
    ImportsExactly serve V A c w room sessionId entry ↔ Advertised V A c sessionId entry := by
  constructor
  · intro h s held hopen hid hheld hlater
    by_contra hle
    have hhelps : Helps c s := by
      intro held' hheld'
      rw [hid, hheld] at hheld'
      rwa [← Option.some.inj hheld']
    have hearly : Crypto.holdsFrom c sessionId (advertised entry) = true := by
      unfold Crypto.holdsFrom
      rw [hheld]
      exact decide_eq_true (not_lt.mp hle)
    have hexact := ((h [] _ _ (run_import_early room hearly)).opened s hopen hid).2 false rfl
    rw [if_pos hhelps] at hexact
    exact absurd hexact.1 (by decide)
  · intro hadv os r w' hr
    obtain ⟨herror, hopened⟩ := ((safe_import_recorded room hadv).run_trail os).1 r w' hr
    refine ⟨herror, fun s hopen hid => ⟨fun hall => ?_, (hopened s hopen hid).2⟩⟩
    exact (hopened s hopen hid).1 fun y hy => hall y.2 (mem_trail hy)

end Calls

/-! ### An index that is too high -/

/-- We hold the session from its message 5 on, and have the backup key. -/
def holdingCrypto : Crypto :=
  { newCrypto with
    inbound := Function.update (fun _ => none) "m" (some ⟨"m", 5⟩)
    backupKey := some zeroKey }

/-- The backup has it from message 3 on, and says 7. -/
def boastingEntry : Value :=
  .obj [("first_message_index", .int 7), ("session_data", .obj [("ciphertext", .str "key"),
    ("ephemeral", .str "e"), ("mac", .str "m")])]

def backupVodozemac : Vodozemac :=
  plainVodozemac [("key", .obj [("algorithm", .str megolmAlgorithm), ("session_key", .str "m")])] []

def backupArchive : Archive := plainArchive (fun _ => 3) []

/-- **It is turned away**, though it would help. -/
theorem not_importsExactly_boasting :
    openEntry backupVodozemac backupArchive holdingCrypto "m" boastingEntry = .ok (some ⟨"m", 3⟩) ∧
    ¬ ImportsExactly Megolm.unserved backupVodozemac backupArchive holdingCrypto
      (⟨blankStore, 0, ()⟩ : World copySuite Unit) "!r" "m" boastingEntry := by
  have hopen : openEntry backupVodozemac backupArchive holdingCrypto "m" boastingEntry =
      .ok (some ⟨"m", 3⟩) := by decide +kernel
  refine ⟨hopen, fun h => ?_⟩
  have hearly : Crypto.holdsFrom holdingCrypto "m" (advertised boastingEntry) = true := by decide +kernel
  have hexact := ((h [] _ _ (run_import_early "!r" hearly)).opened ⟨"m", 3⟩ hopen rfl).2 false rfl
  have hhelps : Helps holdingCrypto ⟨"m", 3⟩ := by decide +kernel
  rw [if_pos hhelps] at hexact
  exact absurd hexact.1 (by decide)

end Kmatrix.E2ee.Imports
