import Kmatrix.E2ee.Imports
import Kmatrix.E2ee.Steady
import Kmatrix.Sync.Binding

/-! # What a restore unlocks

`restore_room` lists the locked rows of a room, imports sessions for them from the backup, and tries the
rows again, but only if it imported something. Where it did, no row is left that it could read; where it
did not, rows whose key came another way stay locked (`not_noneLeft_keyCame`). `noneLeft_iff` is both. -/

namespace Kmatrix.Sync.Unlocked

open Kmatrix.Lib.Crash Kmatrix.Lib.Keyed Kmatrix.E2ee.Ratchets Kmatrix.E2ee.Effects Kmatrix.E2ee.Steady
open Kmatrix.E2ee.Sessions Kmatrix.E2ee.Inbound
open Kmatrix.E2ee.Imports (backupVodozemac boastingEntry)
open Kmatrix.Storage Kmatrix.Storage.Seal Kmatrix.Storage.Schema
open Kmatrix.Storage.Write (StoreOp)
open Kmatrix.Sync.Plaintext Kmatrix.Sync.Binding
open Kmatrix.Sync.Restore (Retry retryText backupRestoreWindow)

/-! ### The statement -/

section Statement
variable {S : CipherSuite}

/-- The row is there, and cannot be read. -/
def Locked (st : Store S) (eventId : String) : Prop :=
  ∃ row, st.db.messages.lookup eventId = some row ∧ row.decrypted = 0

/-- **Nothing is left that could be read**: of the rows that were listed, none is locked that the keys
held now decrypt to a text. -/
def NoneLeft (A : Archive) (serde : SerdeJson) (c : Crypto) (st : Store S) (pending : List Retry) : Prop :=
  ∀ p ∈ pending, retryText serde (keysOf A c) p ≠ "" → ¬ Locked st p.1

end Statement

section Condition
variable (V : Vodozemac) (A : Archive) (serde : SerdeJson) (c : Crypto)

/-- **What `import_backup_session` takes** of an entry. -/
def takes (sessionId : String) (entry : E2ee.Json.Value) : Option InboundGroupSession :=
  if Crypto.holdsFrom c sessionId (((entry.get "first_message_index").bind E2ee.Json.Value.asU64).getD 0) then
    none
  else match openEntry V A c sessionId entry with
    | .ok (some session) =>
      if session.id = sessionId ∧ ¬ Crypto.holdsFrom c session.id session.firstKnownIndex then some session
      else none
    | _ => none

/-- The backup has a session for one of the rows. -/
def Supplies (entries : String → Option E2ee.Json.Value) (sessionId : String) : Prop :=
  ∃ entry session, entries sessionId = some entry ∧ takes V A c sessionId entry = some session

/-- **The condition**: the backup supplies a session, or nothing listed could be read anyway. -/
def Helps (entries : String → Option E2ee.Json.Value) (pending : List Retry) : Prop :=
  (∃ p ∈ pending, Supplies V A c entries p.2.1) ∨
    ∀ p ∈ pending, retryText serde (keysOf A c) p = ""

end Condition

/-! ### The imports -/

section Imports
variable {S : CipherSuite} {Q Ω N : Type} {R : Q → Type} {serve : N → Ω → (q : Q) → R q × Ω}
  {V : Vodozemac} {A : Archive} {serde : SerdeJson} {w : World S Ω} {c : Crypto} {room : String}
  {entries : String → Option E2ee.Json.Value}

/-- **An import** succeeds with a session that is taken, and else changes nothing. -/
theorem safe_import (sessionId : String) (entry : E2ee.Json.Value) :
    Safe (steady serve) (fun _ => True)
      (fun r w' => match takes V A c sessionId entry with
        | some _ => r.1 = .ok true
        | none => r.1 ≠ .ok true ∧ r.2 = c ∧ w' = w)
      ((importBackupSession V A room sessionId entry : Code S R Crypto Bool).run c) w := by
  unfold importBackupSession takes
  simp only [Act.safe_bind, Act.safe_get, Act.then_ok]
  split_ifs with hheld
  · exact ⟨by simp, rfl, rfl⟩
  · rw [Act.safe_bind, Act.safe_ofExcept]
    rcases openEntry V A c sessionId entry with e | _ | session
    · exact ⟨by simp, rfl, rfl⟩
    · exact ⟨by simp, rfl, rfl⟩
    · rw [Act.then_ok]
      dsimp only
      by_cases hid : session.id = sessionId
      · rw [if_neg (not_not.mpr hid)]
        by_cases hfrom : Crypto.holdsFrom c session.id session.firstKnownIndex = true
        · rw [if_pos hfrom, if_neg fun h => h.2 hfrom]
          exact ⟨by simp, rfl, rfl⟩
        · rw [if_neg hfrom, if_pos ⟨hid, hfrom⟩, Act.safe_bind]
          exact safe_put_steady trivial fun rng => rfl
      · rw [if_pos hid, if_neg fun h => hid h.1]
        exact ⟨by simp, rfl, rfl⟩

/-- One session: it counts if the backup supplies it, and else changes nothing. -/
theorem safe_importOne (imported : ℕ) (sessionId : String) :
    Safe (steady serve) (fun _ => True)
      (fun r w' => (Supplies V A c entries sessionId ∧ r.1 = .ok (imported + 1)) ∨
        (¬ Supplies V A c entries sessionId ∧ r.1 = .ok imported ∧ r.2 = c ∧ w' = w))
      ((importOne V A room entries imported sessionId : Code S R Crypto ℕ).run c) w := by
  unfold importOne Supplies
  rcases hentry : entries sessionId with _ | entry
  · refine Or.inr ⟨?_, rfl, rfl, rfl⟩
    rintro ⟨entry, session, h, -⟩
    cases h
  · rw [Act.safe_bind, Act.safe_attempt]
    refine (safe_import sessionId entry).mono ?_
    rintro ⟨r, c'⟩ w' h
    rcases htakes : takes V A c sessionId entry with _ | session
    · rw [htakes] at h
      obtain ⟨hne, rfl, rfl⟩ := h
      have hnone : ¬ ∃ entry' session, some entry = some entry' ∧
          takes V A c' sessionId entry' = some session := by
        rintro ⟨entry', session, heq, h⟩
        rw [← Option.some.inj heq, htakes] at h
        cases h
      rcases r with e | _ | _
      · exact Or.inr ⟨hnone, rfl, rfl, rfl⟩
      · exact Or.inr ⟨hnone, rfl, rfl, rfl⟩
      · exact absurd rfl hne
    · rw [htakes] at h
      dsimp only at h
      rw [h]
      exact Or.inl ⟨⟨entry, session, rfl, htakes⟩, rfl⟩

/-- **The imports**: none counts, and nothing has changed, or one was supplied. -/
theorem safe_imports (wanted : List String) :
    Safe (steady serve) (fun _ => True)
      (fun r w' => ∃ imported, r.1 = .ok imported ∧
        ((imported = 0 ∧ r.2 = c ∧ w' = w ∧ ∀ sid ∈ wanted, ¬ Supplies V A c entries sid) ∨
          (0 < imported ∧ ∃ sid ∈ wanted, Supplies V A c entries sid)))
      ((Act.fold (importOne V A room entries) 0 wanted : Code S R Crypto ℕ).run c) w := by
  refine (Act.safe_fold
    (I := fun done imported c' w' =>
      (imported = 0 ∧ c' = c ∧ w' = w ∧ ∀ sid ∈ done, ¬ Supplies V A c entries sid) ∨
        (0 < imported ∧ ∃ sid ∈ done, Supplies V A c entries sid))
    (J := fun _ _ _ => False) (fun done imported sid c' w' h => ?_) wanted [] 0
    (Or.inl ⟨rfl, rfl, rfl, by simp⟩)).mono ?_
  · refine (safe_importOne imported sid).mono ?_
    rintro ⟨r, c''⟩ w'' hone
    rcases h with ⟨rfl, rfl, rfl, hnone⟩ | ⟨hpos, sid', hsid', hsupplied⟩
    · rcases hone with ⟨hsupplies, hr⟩ | ⟨hnot, hr, rfl, rfl⟩
      · obtain rfl : r = .ok (0 + 1) := hr
        exact Or.inr ⟨Nat.succ_pos _, sid, by simp, hsupplies⟩
      · obtain rfl : r = .ok 0 := hr
        refine Or.inl ⟨rfl, rfl, rfl, fun sid' hsid' => ?_⟩
        rcases List.mem_append.mp hsid' with hold | hnew
        · exact hnone sid' hold
        · rw [List.mem_singleton.mp hnew]
          exact hnot
    · -- one was supplied before
      have hmem : sid' ∈ done ++ [sid] := List.mem_append_left _ hsid'
      rcases hone with ⟨-, hr⟩ | ⟨-, hr, -, -⟩
      · obtain rfl : r = .ok (imported + 1) := hr
        exact Or.inr ⟨Nat.succ_pos _, sid', hmem, hsupplied⟩
      · obtain rfl : r = .ok imported := hr
        exact Or.inr ⟨hpos, sid', hmem, hsupplied⟩
  · rintro ⟨e | imported, c'⟩ w' h
    · exact absurd h id
    · exact ⟨imported, rfl, h⟩

/-! ### The retries -/

/-- An upgrade locks nothing, and unlocks its own row. -/
theorem locked_upgrade {rng : Salts} {st : Store S} {eventId body e : String}
    (h : Locked ((StoreOp.upgradeMessage eventId body).exec rng st) e) : Locked st e ∧ e ≠ eventId := by
  obtain ⟨row, hrow, hlocked⟩ := h
  simp only [StoreOp.exec, Write.upgradeMessage, Write.upgradeMessageStmt, Table.lookup_modify] at hrow
  split_ifs at hrow with he
  · obtain ⟨row', -, rfl⟩ := Option.map_eq_some_iff.mp hrow
    simp at hlocked
  · exact ⟨⟨row, hrow, hlocked⟩, he⟩

/-- **The retries** leave nothing locked that could be read. -/
theorem safe_retries (pending : List Retry) :
    Safe (steady serve) (fun _ => True)
      (fun r w' => r.2 = c ∧ NoneLeft A serde c w'.disk pending)
      ((Act.fold (retryOne A serde) 0 pending : Code S R Crypto ℕ).run c) w := by
  refine (Act.safe_fold
    (I := fun done _ c' w' => c' = c ∧ NoneLeft A serde c w'.disk done)
    (J := fun _ _ _ => False) (fun done upgraded p c' w' h => ?_) pending [] 0
    ⟨rfl, fun p hp => by cases hp⟩).mono ?_
  · obtain ⟨rfl, hnone⟩ := h
    unfold retryOne
    simp only [Act.safe_bind, Act.safe_get, Act.then_ok]
    split_ifs with hempty
    · refine ⟨rfl, fun q hq htext => ?_⟩
      rcases List.mem_append.mp hq with hold | hnew
      · exact hnone q hold htext
      · rw [List.mem_singleton.mp hnew] at htext
        exact absurd hempty htext
    · rw [Act.safe_bind]
      refine safe_put_steady trivial fun rng => ⟨rfl, fun q hq htext hlocked => ?_⟩
      obtain ⟨hbefore, hne⟩ := locked_upgrade hlocked
      rcases List.mem_append.mp hq with hold | hnew
      · exact hnone q hold htext hbefore
      · rw [List.mem_singleton.mp hnew] at hne
        exact hne rfl
  · rintro ⟨e | upgraded, c'⟩ w' h
    · exact absurd h id
    · exact h

end Imports

/-! ### The restore -/

section Restore
variable {S : CipherSuite} {Q Ω N : Type} {R : Q → Type} (serve : N → Ω → (q : Q) → R q × Ω)
  (V : Vodozemac) (A : Archive) (serde : SerdeJson)

/-- What is listed is locked. -/
theorem locked_of_pending {st : Store S} {room : String} {pending : List Retry}
    (h : Read.undecryptedInRoom st room backupRestoreWindow = .ok pending) :
    ∀ p ∈ pending, Locked st p.1 := by
  intro p hp
  obtain ⟨-, hmem⟩ := Restore.of_mapM_readRetry h
  obtain ⟨m, hm, hid, -, -⟩ := hmem p hp
  obtain ⟨hlook, hretry⟩ := Read.of_mem_newest hm
  unfold Read.retryable at hretry
  simp only [Bool.and_eq_true, decide_eq_true_eq] at hretry
  exact ⟨m.2, hid ▸ hlook, hretry.1.1.2⟩

/-- **When a restore leaves nothing it could read.** -/
theorem noneLeft_iff (w : World S Ω) (c : Crypto) (room : String)
    (entries : String → Option E2ee.Json.Value) (pending : List Retry)
    (hpending : Read.undecryptedInRoom w.disk room backupRestoreWindow = .ok pending)
    (os : List (Outcome N)) (hos : ∀ o ∈ os, o.fault = none) (r : Except String ℕ) (c' : Crypto)
    (w' : World S Ω)
    (hrun : Lib.Crash.run (exec (R := R) serve) ((restoreRoom V A serde room entries).run c) w os =
      (some (r, c'), w')) :
    NoneLeft A serde c' w'.disk pending ↔ Helps V A serde c entries pending := by
  rw [run_steady serve _ w hos] at hrun
  suffices h : Safe (steady (R := R) serve) (fun _ => True)
      (fun r w' => NoneLeft A serde r.2 w'.disk pending ↔ Helps V A serde c entries pending)
      ((restoreRoom V A serde room entries).run c) w from (h.run _).1 (r, c') w' hrun
  unfold restoreRoom
  rw [Act.safe_bind]
  refine safe_query_steady trivial ?_
  rw [hpending, Act.then_ok, Act.safe_bind]
  refine Safe.mono (safe_imports (pending.map fun p => p.2.1).eraseDups) ?_
  rintro ⟨_, c₁⟩ w₁ ⟨imported, rfl, ⟨rfl, rfl, rfl, hnone⟩ | ⟨hpos, sid, hsid, hsupplied⟩⟩
  · -- nothing came, and everything is as it was
    refine ⟨fun hleft => Or.inr fun p hp => ?_, ?_⟩
    · by_contra htext
      exact hleft p hp htext (locked_of_pending hpending p hp)
    · rintro (⟨p, hp, hsupplies⟩ | hempty)
      · refine absurd hsupplies (hnone p.2.1 ?_)
        rw [List.mem_eraseDups]
        exact List.mem_map_of_mem hp
      · exact fun p hp htext => absurd (hempty p hp) htext
  · rw [Act.then_ok, if_neg hpos.ne']
    refine Safe.mono (safe_retries pending) ?_
    rintro ⟨r, c₂⟩ w₂ ⟨hc, hleft⟩
    obtain rfl : c₂ = c₁ := hc
    refine ⟨fun _ => Or.inl ?_, fun _ => hleft⟩
    rw [List.mem_eraseDups] at hsid
    obtain ⟨p, hp, rfl⟩ := List.mem_map.mp hsid
    exact ⟨p, hp, hsupplied⟩

end Restore

/-! ### A key that came another way -/

section Examples

/-- A message of the session `m` that could not be read. -/
def lockedWorld : World copySuite Unit :=
  ⟨(StoreOp.insertMessage ⟨"$e", "!r", "@peer", 1, none, Convert.noKeyText, true, false, false, some "m",
    some "AA"⟩).exec (fun _ => zeroSalt) blankStore, 0, ()⟩

/-- Since then its key has come. -/
def keyCame : Crypto := { newCrypto with inbound := fun id => if id = "m" then some ⟨"m", 0⟩ else none }

/-- **The message stays locked**: the backup does not have its session. -/
theorem not_noneLeft_keyCame :
    Read.undecryptedInRoom lockedWorld.disk "!r" backupRestoreWindow = .ok [("$e", "m", "AA")] ∧
    ∃ c' w', Lib.Crash.run (exec E2ee.Megolm.unserved)
        ((restoreRoom (plainVodozemac [] []) hiArchive Restore.twoTexts "!r" fun _ => none).run keyCame)
        lockedWorld [calm ()] = (some (.ok 0, c'), w') ∧
      ¬ NoneLeft hiArchive Restore.twoTexts c' w'.disk [("$e", "m", "AA")] := by
  refine ⟨by decide +kernel, keyCame, lockedWorld, rfl, fun h => ?_⟩
  refine h ("$e", "m", "AA") (List.mem_singleton_self _) (by decide +kernel) ⟨_, rfl, rfl⟩

/-- Nothing is held, but the backup can be opened. -/
def withBackup : Crypto := { newCrypto with backupKey := some zeroKey }

/-- A restore for which the backup has an entry. -/
abbrev suppliedRun : Option (Except String ℕ × Crypto) × World copySuite Unit :=
  Lib.Crash.run (exec E2ee.Megolm.unserved)
    ((restoreRoom backupVodozemac hiArchive Restore.twoTexts "!r" fun _ => some boastingEntry).run
      withBackup) lockedWorld (List.replicate 3 (calm ()))

/-- The backup supplies the session, and the message is read. -/
theorem noneLeft_supplied :
    ∃ c' w', suppliedRun = (some (.ok 1, c'), w') ∧
      NoneLeft hiArchive Restore.twoTexts c' w'.disk [("$e", "m", "AA")] := by
  have hone : suppliedRun.1.map (fun r => r.1.toOption) = some (some 1) := by decide +kernel
  rcases hrun : suppliedRun with ⟨_ | ⟨e | n, c'⟩, w'⟩
  · rw [hrun] at hone
    cases hone
  · rw [hrun] at hone
    cases hone
  · rw [hrun] at hone
    obtain rfl : n = 1 := Option.some.inj (Option.some.inj hone)
    refine ⟨c', w', rfl, (noneLeft_iff _ _ _ _ lockedWorld withBackup "!r" (fun _ => some boastingEntry) _
      (by decide +kernel) (List.replicate 3 (calm ())) (by simp [calm]) _ c' w' hrun).mpr (Or.inl ?_)⟩
    exact ⟨("$e", "m", "AA"), List.mem_singleton_self _, boastingEntry, ⟨"m", 0⟩, rfl, by decide +kernel⟩

end Examples

end Kmatrix.Sync.Unlocked
