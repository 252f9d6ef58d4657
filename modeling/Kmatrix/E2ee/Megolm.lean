import Kmatrix.E2ee.Sessions
import Kmatrix.Lib.Positions
import Mathlib.Data.List.Induction

/-! # Ratchet positions are used once

A room's outbound session is held in memory and on disk, each copy at an index of its own; the copy on
disk is the one a restart comes back to. `Kept` is the ledger of the copies on disk, `Held` of those on
disk and in memory, over the positions already handed out. `encrypt` moves both copies past a position
before it hands out the ciphertext, and where the write fails it hands out nothing: `nodup_positions`
says that no position is ever handed out twice, whatever fails and wherever the process is killed. -/

namespace Kmatrix.E2ee.Megolm

open Kmatrix.Lib.Crash Kmatrix.Lib.Positions Kmatrix.Lib.Keyed
open Kmatrix.E2ee.Ratchets Kmatrix.E2ee.Json Kmatrix.E2ee.Effects Kmatrix.E2ee.Sessions
open Kmatrix.Storage Kmatrix.Storage.Seal Kmatrix.Storage.Schema
open Kmatrix.Storage.Write (StoreOp)
open Kmatrix.Sas.Machine (Self DeviceInfo)

/-- The session and index a ciphertext was made at. -/
def position (content : EncryptedContent) : String × ℕ := (content.sessionId, content.ciphertext.index)

section Copies
variable {S : CipherSuite}

/-- The outbound sessions on disk, each for its room. -/
def diskCopies (st : Store S) : Set (Copy String String) := fun copy =>
  ∃ row, st.db.pickles.lookup (kindMegolmOut, copy.1) = some row ∧
    row.pickle.content = .outbound ⟨copy.2.1, copy.2.2⟩

/-- The outbound sessions in memory. -/
def memCopies (c : Crypto) : Set (Copy String String) := fun copy =>
  c.outbound copy.1 = some ⟨copy.2.1, copy.2.2⟩

/-- Only a write of a room's outbound session changes the copies on disk. -/
theorem diskCopies_putPickle {kind : String} (hkind : kind ≠ kindMegolmOut) (rng : Salts)
    (st : Store S) (id extra : String) (pickle : Pickle) :
    diskCopies ((StoreOp.putPickle kind id extra pickle).exec rng st) = diskCopies st := by
  funext copy
  have hne : ¬ (kindMegolmOut, copy.1) = (kind, id) := fun h => hkind (Prod.mk.inj h).1.symm
  unfold diskCopies
  rw [lookup_put, if_neg hne]

/-- **A write of a room's outbound session** replaces the copy of that room. -/
theorem mem_diskCopies_put (rng : Salts) (st : Store S) {room extra : String} {pickle : Pickle}
    {s : GroupSession} (hp : pickle.content = .outbound s) {copy : Copy String String}
    (h : copy ∈ diskCopies ((StoreOp.putPickle kindMegolmOut room extra pickle).exec rng st)) :
    copy = (room, s.id, s.index) ∨ (copy ∈ diskCopies st ∧ copy.1 ≠ room) := by
  obtain ⟨room', id, i⟩ := copy
  obtain ⟨row, hrow, hcontent⟩ := h
  rw [lookup_put] at hrow
  split_ifs at hrow with hroom
  · left
    rw [← Option.some.inj hrow, hp] at hcontent
    obtain rfl := Pickled.outbound.inj hcontent
    obtain rfl : room' = room := (Prod.mk.inj hroom).2
    rfl
  · exact Or.inr ⟨⟨row, hrow, hcontent⟩, fun h => hroom (by rw [← h])⟩

theorem mem_loadOutbound {pickleKey : Key} {rows : List (String × String × Pickle)} {room : String}
    {s : GroupSession} (h : loadOutbound pickleKey rows room = some s) :
    ∃ extra pickle, (room, extra, pickle) ∈ rows ∧ pickle.content = .outbound s := by
  unfold loadOutbound at h
  induction rows using List.reverseRecOn with
  | nil => simp at h
  | append_singleton rows row ih =>
    obtain ⟨id, extra, pickle⟩ := row
    rw [List.foldl_append] at h
    simp only [List.foldl_cons, List.foldl_nil] at h
    split at h
    · next s' hopen =>
      rw [Function.update_apply] at h
      split_ifs at h with hid
      · obtain rfl := Option.some.inj h
        refine ⟨extra, pickle, by simp [hid], ?_⟩
        unfold Pickle.fromEncrypted at hopen
        split_ifs at hopen
        exact Option.some.inj hopen
      · obtain ⟨extra', pickle', hmem, hc⟩ := ih h
        exact ⟨extra', pickle', List.mem_append_left _ hmem, hc⟩
    · obtain ⟨extra', pickle', hmem, hc⟩ := ih h
      exact ⟨extra', pickle', List.mem_append_left _ hmem, hc⟩

/-- **A restart comes back to the copies on disk.** -/
theorem memCopies_load {st : Store S} {c : Crypto} {pickleKey : Key}
    (hc : c.outbound = loadOutbound pickleKey (Read.allPickles st kindMegolmOut))
    {copy : Copy String String} (h : copy ∈ memCopies c) : copy ∈ diskCopies st := by
  have hload : c.outbound copy.1 = some ⟨copy.2.1, copy.2.2⟩ := h
  rw [hc] at hload
  obtain ⟨extra, pickle, hmem, hcontent⟩ := mem_loadOutbound hload
  exact ⟨⟨extra, pickle⟩, mem_allPickles hmem, hcontent⟩

end Copies

section Invariant
variable {S : CipherSuite} {Q Ω N : Type} {R : Q → Type} {serve : N → Ω → (q : Q) → R q × Ω}
  {V : Vodozemac} {used : List (String × ℕ)} {w : World S Ω} {c : Crypto}

/-- **What holds of the disk**: every copy there is past the positions handed out. -/
def Kept (V : Vodozemac) (used : List (String × ℕ)) (w : World S Ω) : Prop :=
  Ledger V.groupSessionId w.drawn (diskCopies w.disk) used

/-- **What holds while the process runs**: so is every copy in memory. -/
def Held (V : Vodozemac) (used : List (String × ℕ)) (w : World S Ω) (c : Crypto) : Prop :=
  Ledger V.groupSessionId w.drawn (diskCopies w.disk ∪ memCopies c) used

theorem Held.kept (h : Held V used w c) : Kept V used w := Ledger.mono h fun _ => Or.inl

/-- A write that is no outbound session, and a change of memory elsewhere, keep the ledger. -/
theorem Held.put {kind : String} (h : Held V used w c) (hkind : kind ≠ kindMegolmOut) (rng : Salts)
    (id extra : String) (pickle : Pickle) :
    Held V used { w with disk := (StoreOp.putPickle kind id extra pickle).exec rng w.disk } c := by
  unfold Held
  dsimp only
  rw [diskCopies_putPickle hkind]
  exact h

theorem Kept.put {kind : String} (h : Kept V used w) (hkind : kind ≠ kindMegolmOut) (rng : Salts)
    (id extra : String) (pickle : Pickle) :
    Kept V used { w with disk := (StoreOp.putPickle kind id extra pickle).exec rng w.disk } := by
  unfold Kept
  dsimp only
  rw [diskCopies_putPickle hkind]
  exact h

/-! ### The operations -/

theorem safe_olmEncrypt (h : Held V used w c) (curveKey plaintext : String) :
    Safe (exec serve) (Kept V used) (fun r w' => Held V used w' r.2)
      ((olmEncrypt V curveKey plaintext : Code S R Crypto (ℕ × String)).run c) w := by
  unfold olmEncrypt
  simp only [Act.safe_bind, Act.safe_get, Act.then_ok]
  rcases (c.olmSessions curveKey).getLast? with _ | session
  · exact h
  · simp only [Act.safe_bind, Act.safe_modify, Act.then_ok]
    refine safe_put h.kept (fun e => h) fun rng => ?_
    exact h.put (by decide) rng _ _ _

/-- **A new session** is not in memory before both its halves are on disk. -/
theorem safe_getOrCreateOutbound (h : Held V used w c) (room : String) :
    Safe (exec serve) (Kept V used)
      (fun r w' => Held V used w' r.2 ∧ ∀ s, r.1 = .ok s → r.2.outbound room = some s)
      ((getOrCreateOutbound V room : Code S R Crypto GroupSession).run c) w := by
  unfold getOrCreateOutbound
  simp only [Act.safe_bind, Act.safe_get, Act.then_ok]
  have hlast := fun (c' : Crypto) (w' : World S Ω) (h' : Held V used w' c') =>
    @safe_outbound S Q _ _ R (exec serve) (Kept V used) (fun c w => Held V used w c) c' w' h' room
  split_ifs with hnone
  · simp only [Act.safe_bind]
    refine safe_draw h.kept ?_
    have hcreate := Ledger.create V.groupSessionId_injective h room
    -- a failed write leaves the copies as they were
    have hfail : Held V used { w with drawn := w.drawn + 1 } c := hcreate.mono fun _ => Or.inr
    simp only [Act.then_ok, Act.safe_bind]
    refine safe_put hfail.kept (fun e => ⟨hfail, fun s hs => by simp at hs⟩) fun rng => ?_
    have hout : Held V used
        { w with
          drawn := w.drawn + 1
          disk := (StoreOp.putPickle kindMegolmOut room "0"
            (c.pickle (.outbound ⟨V.groupSessionId w.drawn, 0⟩))).exec rng w.disk } c := by
      refine hcreate.mono ?_
      rintro copy (hdisk | hmem)
      · rcases mem_diskCopies_put rng w.disk rfl hdisk with rfl | ⟨hold, -⟩
        · exact Or.inl rfl
        · exact Or.inr (Or.inl hold)
      · exact Or.inr (Or.inr hmem)
    simp only [Act.then_ok, Act.safe_bind]
    refine safe_put hout.kept (fun e => ⟨hout, fun s hs => by simp at hs⟩) fun rng' => ?_
    simp only [Act.then_ok]
    refine hlast _ _ ?_
    -- both halves are on disk, and now in memory
    refine hcreate.mono ?_
    rintro ⟨room', id, i⟩ (hdisk | hmem)
    · dsimp only at hdisk
      rw [diskCopies_putPickle (by decide)] at hdisk
      rcases mem_diskCopies_put rng w.disk rfl hdisk with heq | ⟨hold, -⟩
      · exact Or.inl heq
      · exact Or.inr (Or.inl hold)
    · have hupd : Function.update c.outbound room (some ⟨V.groupSessionId w.drawn, 0⟩) room' =
          some ⟨id, i⟩ := hmem
      rw [Function.update_apply] at hupd
      split_ifs at hupd with hroom
      · obtain ⟨rfl, rfl⟩ := GroupSession.mk.inj (Option.some.inj hupd)
        rw [hroom]
        exact Or.inl rfl
      · exact Or.inr (Or.inr hupd)
  · exact hlast c w h

theorem safe_encryptRoomKeyToDevices (h : Held V used w c) (room : String) (devices : List DeviceInfo)
    (self : Self) :
    Safe (exec serve) (Kept V used) (fun r w' => Held V used w' r.2)
      ((encryptRoomKeyToDevices V room devices self : Code S R Crypto Messages).run c) w :=
  encryptRoomKeyToDevices_keeps (I := fun c w => Held V used w c)
    (fun curveKey plaintext _ _ h => safe_olmEncrypt h curveKey plaintext) (fun _ _ _ h => h)
    (fun _ _ h => (safe_getOrCreateOutbound h room).mono fun _ _ h => h.1) devices self c w h

/-- **A ciphertext is handed out** only after both copies are past its position. -/
theorem safe_encrypt (h : Held V used w c) (room : String) (plaintext : Value) (ourDeviceId : String) :
    Safe (exec serve) (Kept V used) (fun r w' => match r.1 with
        | .ok content => Held V (used ++ [position content]) w' r.2
        | .error _ => Held V used w' r.2)
      ((encrypt V room plaintext ourDeviceId : Code S R Crypto EncryptedContent).run c) w := by
  unfold encrypt
  rw [Act.safe_bind]
  refine (safe_getOrCreateOutbound h room).mono ?_
  rintro ⟨e | session, c'⟩ w' ⟨h', hroom⟩
  · exact h'
  · have hroom := hroom session rfl
    simp only [Act.then_ok, Act.safe_bind, Act.safe_modify, Act.safe_get]
    -- the copy in memory moves on, whether or not the write succeeds
    have hnow : (room, session.id, session.index) ∈ diskCopies w'.disk ∪ memCopies c' := Or.inr hroom
    have hmoved := Ledger.advance h' hnow (Nat.le_succ session.index)
    have hmem : ∀ copy ∈ memCopies { c' with
          outbound := Function.update c'.outbound room
            (some (session.encrypt (V.writeJson plaintext)).1) },
        copy = (room, session.id, session.index + 1) ∨ (copy ∈ memCopies c' ∧ copy.1 ≠ room) := by
      rintro ⟨room', id, i⟩ hcopy
      have hupd : Function.update c'.outbound room
          (some (session.encrypt (V.writeJson plaintext)).1) room' = some ⟨id, i⟩ := hcopy
      rw [Function.update_apply] at hupd
      split_ifs at hupd with heq
      · obtain ⟨rfl, rfl⟩ := GroupSession.mk.inj (Option.some.inj hupd)
        rw [heq]
        exact Or.inl rfl
      · exact Or.inr ⟨hupd, heq⟩
    refine safe_put h'.kept (fun e => ?_) fun rng => ?_
    · refine hmoved.mono ?_
      rintro copy (hdisk | hcopy)
      · exact Or.inr (Or.inl hdisk)
      · rcases hmem copy hcopy with rfl | ⟨hold, -⟩
        · exact Or.inl rfl
        · exact Or.inr (Or.inr hold)
    · have hleft : ∀ copy ∈ diskCopies ((StoreOp.putPickle kindMegolmOut room
            (toString (session.encrypt (V.writeJson plaintext)).1.index)
            (c'.pickle (.outbound (session.encrypt (V.writeJson plaintext)).1))).exec rng w'.disk) ∪
            memCopies { c' with
              outbound := Function.update c'.outbound room
                (some (session.encrypt (V.writeJson plaintext)).1) },
          copy = (room, session.id, session.index + 1) ∨
            (copy ∈ diskCopies w'.disk ∪ memCopies c' ∧ copy.1 ≠ room) := by
        rintro copy (hdisk | hcopy)
        · rcases mem_diskCopies_put rng w'.disk rfl hdisk with rfl | ⟨hold, hne⟩
          · exact Or.inl rfl
          · exact Or.inr ⟨Or.inl hold, hne⟩
        · rcases hmem copy hcopy with rfl | ⟨hold, hne⟩
          · exact Or.inl rfl
          · exact Or.inr ⟨Or.inr hold, hne⟩
      refine Ledger.use hmoved (Or.inr hnow) (fun copy hcopy => ?_) fun copy hcopy hid => ?_
      · rcases hleft copy hcopy with rfl | ⟨hold, -⟩
        · exact Or.inl rfl
        · exact Or.inr hold
      · rcases hleft copy hcopy with rfl | ⟨hold, hne⟩
        · exact Nat.lt_succ_self _
        · exact absurd (Ledger.own h' copy hold _ hnow hid) hne

/-! ### Loading -/

/-- A condition on the outbound sessions on disk and the server, which drawing more leaves true. -/
def Stable (D : World S Ω → Prop) : Prop :=
  ∀ w w', D w → diskCopies w'.disk = diskCopies w.disk → w'.server = w.server → w.drawn ≤ w'.drawn → D w'

theorem stable_kept : Stable (Kept V used : World S Ω → Prop) := by
  intro w w' h hcopies _ hdrawn
  unfold Kept
  rw [hcopies, show w'.drawn = w.drawn + (w'.drawn - w.drawn) by omega]
  exact Ledger.draw h _

section Load
variable {D : World S Ω → Prop}

theorem safe_loadPickleKey (hD : Stable D) (h : D w) :
    Safe (exec serve) D (fun _ w' => D w') ((loadPickleKey V : Code S R Unit Key).run ()) w := by
  unfold loadPickleKey
  rw [Act.safe_bind]
  refine safe_query h (fun e => h) fun stored _ => ?_
  rcases stored with _ | encoded
  · simp only [Act.then_ok, Act.safe_bind]
    have hd : D { w with drawn := w.drawn + 1 } := hD _ _ h rfl rfl (Nat.le_succ _)
    refine safe_draw h ?_
    simp only [Act.then_ok, Act.safe_bind]
    refine safe_put hd (fun e => hd) fun rng => ?_
    exact hD _ _ hd rfl rfl le_rfl
  · exact h

theorem safe_loadAccount (hD : Stable D) (h : D w) (pickleKey : Key) :
    Safe (exec serve) D (fun _ w' => D w')
      ((loadAccount V pickleKey : Code S R Unit Account).run ()) w := by
  unfold loadAccount
  rw [Act.safe_bind]
  refine safe_query h (fun e => h) fun rows _ => ?_
  rw [Act.then_ok]
  split
  · split
    · exact h
    · exact h
  · rw [Act.safe_bind]
    have hd : D { w with drawn := w.drawn + 1 } := hD _ _ h rfl rfl (Nat.le_succ _)
    refine safe_draw h ?_
    simp only [Act.then_ok, Act.safe_bind]
    refine safe_put hd (fun e => hd) fun rng => ?_
    exact hD _ _ hd (diskCopies_putPickle (by decide) rng w.disk _ _ _) rfl le_rfl

/-- **A restart** comes back to the outbound sessions on disk. -/
theorem safe_loadOrCreate (hD : Stable D) (h : D w) :
    Safe (exec serve) D
      (fun r w' => D w' ∧ ∀ c, r.1 = .ok c → ∀ copy ∈ memCopies c, copy ∈ diskCopies w'.disk)
      ((loadOrCreate V : Code S R Unit Crypto).run ()) w := by
  have herr : ∀ (e : String) (w' : World S Ω), D w' → D w' ∧ ∀ c : Crypto,
      (.error e : Except String Crypto) = .ok c → ∀ copy ∈ memCopies c, copy ∈ diskCopies w'.disk :=
    fun e w' h' => ⟨h', fun c hc => by simp at hc⟩
  unfold loadOrCreate
  rw [Act.safe_bind]
  refine (safe_loadPickleKey hD h).mono ?_
  rintro ⟨e | pickleKey, -⟩ w₁ h₁
  · exact herr e w₁ h₁
  · rw [Act.then_ok, Act.safe_bind]
    refine (safe_loadAccount hD h₁ pickleKey).mono ?_
    rintro ⟨e | account, -⟩ w₂ h₂
    · exact herr e w₂ h₂
    · rw [Act.then_ok, Act.safe_bind]
      refine safe_query h₂ (fun e => herr e w₂ h₂) fun olm _ => ?_
      rw [Act.then_ok, Act.safe_bind]
      refine safe_query h₂ (fun e => herr e w₂ h₂) fun inbound _ => ?_
      rw [Act.then_ok, Act.safe_bind]
      refine safe_query h₂ (fun e => herr e w₂ h₂) fun outbound hout => ?_
      rw [Act.then_ok, Act.safe_bind]
      refine safe_query h₂ (fun e => herr e w₂ h₂) fun backupKey _ => ?_
      rw [Act.then_ok, Act.safe_pure]
      refine ⟨h₂, fun c hc copy hcopy => ?_⟩
      obtain rfl := Except.ok.inj hc
      obtain rfl := Except.ok.inj hout
      exact memCopies_load rfl hcopy

/-- **A start of the daemon.** -/
theorem safe_boot (hD : Stable D) (h : D w) :
    Safe (exec serve) D
      (fun m w' => D w' ∧ ∀ c, m = some c → ∀ copy ∈ memCopies c, copy ∈ diskCopies w'.disk)
      (boot V : Prog (Effect Q) (Answer S R) (Option Crypto)) w := by
  unfold boot
  rw [safe_bind]
  refine (safe_loadOrCreate hD h).mono ?_
  rintro ⟨e | c, u⟩ w' ⟨h', hc⟩
  · exact ⟨h', fun c hm => by simp [Except.toOption] at hm⟩
  · refine ⟨h', fun c' hm => ?_⟩
    obtain rfl : c = c' := Option.some.inj hm
    exact hc c rfl

end Load

end Invariant

/-! ### Runs -/

/-- The calls that use outbound sessions. -/
inductive Call where
  | encrypt (room : String) (plaintext : Value) (ourDeviceId : String)
  | encryptRoomKeyToDevices (room : String) (devices : List DeviceInfo) (self : Self)

section Runs
variable {S : CipherSuite} {Q Ω N : Type} {R : Q → Type} (serve : N → Ω → (q : Q) → R q × Ω)
  (V : Vodozemac)

/-- A call, with the ciphertext it returns. -/
def Call.code : Call → Crypto → Prog (Effect Q) (Answer S R) (Option EncryptedContent × Crypto)
  | .encrypt room plaintext ourDeviceId, c =>
    Prog.bind ((Sessions.encrypt V room plaintext ourDeviceId).run c) fun r => .ret (r.1.toOption, r.2)
  | .encryptRoomKeyToDevices room devices self, c =>
    Prog.bind ((Sessions.encryptRoomKeyToDevices V room devices self).run c) fun r => .ret (none, r.2)

/-- The daemon before its first start, over a database. -/
def cold (st : Store S) (server : Ω) :
    Process (World S Ω) Crypto Call (Option EncryptedContent) := ⟨⟨st, 0, server⟩, none, []⟩

/-- The ciphertexts the calls of a run returned, in order. -/
def ciphertexts (p : Process (World S Ω) Crypto Call (Option EncryptedContent)) :
    List EncryptedContent := p.returned.filterMap Prod.snd

theorem kept_cold {st : Store S} (server : Ω)
    (hst : ∀ room, st.db.pickles.lookup (kindMegolmOut, room) = none) :
    Kept V [] (⟨st, 0, server⟩ : World S Ω) := by
  have hnone : ∀ copy, copy ∉ diskCopies st := by
    rintro copy ⟨row, hrow, -⟩
    exact absurd hrow (by simp [hst])
  exact ⟨fun copy hcopy => absurd hcopy (hnone copy), by simp,
    fun copy hcopy => absurd hcopy (hnone copy), fun copy hcopy => absurd hcopy (hnone copy),
    List.nodup_nil⟩

/-- **Ratchet positions are never reused**: over a database without outbound sessions, whatever fails
and wherever the process is killed, no two ciphertexts have the same session and index. -/
theorem nodup_positions (st : Store S) (server : Ω)
    (hst : ∀ room, st.db.pickles.lookup (kindMegolmOut, room) = none)
    (events : List (Event Call (Outcome N))) :
    ((ciphertexts (Process.runs (exec (R := R) serve) (boot V) (Call.code V) (cold st server)
      events)).map position).Nodup := by
  let used := fun past : List (Call × Option EncryptedContent) => (past.filterMap Prod.snd).map position
  suffices h : (Process.runs (exec (R := R) serve) (boot V) (Call.code V) (cold st server)
      events).Holds (fun past w => Kept V (used past) w) fun past w c => Held V (used past) w c from
    h.1.nodup
  refine Process.Holds.runs (fun past w m hm => hm.kept) ?_ ?_
    ⟨kept_cold V server hst, fun m hm => by simp [cold] at hm⟩ events
  · intro past w hw
    refine (safe_boot stable_kept hw).mono ?_
    rintro m w' ⟨h', hm⟩
    refine ⟨h', fun c hc => h'.mono ?_⟩
    rintro copy (hdisk | hmem)
    · exact hdisk
    · exact hm c hc copy hmem
  · intro past w c call hc
    rcases call with ⟨room, plaintext, ourDeviceId⟩ | ⟨room, devices, self⟩
    · unfold Call.code
      rw [safe_bind]
      refine (safe_encrypt hc room plaintext ourDeviceId).mono ?_
      rintro ⟨e | content, c'⟩ w' h'
      · simpa [used, Except.toOption] using h'
      · simpa [used, Except.toOption] using h'
    · unfold Call.code
      rw [safe_bind]
      refine (safe_encryptRoomKeyToDevices hc room devices self).mono ?_
      rintro ⟨r, c'⟩ w' h'
      simpa [used] using h'

end Runs

/-- A message is sent, another is lost because its write fails, and a third after a restart. -/
def resentRun : List (Event Call (Outcome Unit)) :=
  [.boot (List.replicate 10 (calm ())),
    .call (.encrypt "!r" (.str "one") "DEVICE") (List.replicate 4 (calm ())),
    .call (.encrypt "!r" (.str "two") "DEVICE") [faulty ()],
    .call (.encrypt "!r" (.str "three") "DEVICE") [calm ()],
    .boot (List.replicate 10 (calm ())),
    .call (.encrypt "!r" (.str "four") "DEVICE") [calm ()]]

/-- No server. -/
def unserved (_ _ : Unit) (q : Empty) : Unit × Unit := nomatch q

theorem nodup_positions_resent :
    ((ciphertexts (Process.runs (exec unserved) (boot (plainVodozemac [] []))
        (Call.code (plainVodozemac [] [])) (cold blankStore ()) resentRun)).map fun c => c.ciphertext.index)
      = [0, 2, 3] ∧
    ((ciphertexts (Process.runs (exec unserved) (boot (plainVodozemac [] []))
      (Call.code (plainVodozemac [] [])) (cold blankStore ()) resentRun)).map position).Nodup :=
  ⟨by decide +kernel, nodup_positions _ _ _ _ (fun _ => rfl) _⟩

end Kmatrix.E2ee.Megolm
