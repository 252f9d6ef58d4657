import Kmatrix.E2ee.Secrets

/-! # Adopting the backup key

`handle_secret`: a shared secret is compared with the public key of the server's backup and adopted. The
comparison is guarded by `api.backup_version().ok().flatten()`, which is `none` for an account without a
backup and for a request that failed alike, and then nothing is compared. `guarded_iff` says exactly when
a key is only adopted that the server's backup was made for. -/

namespace Kmatrix.Daemon.Secrets

open Kmatrix.Lib.Crash Kmatrix.E2ee.Json Kmatrix.E2ee.Effects Kmatrix.E2ee.Sessions
open Kmatrix.E2ee.Secrets Kmatrix.Storage Kmatrix.Storage.Seal Kmatrix.Storage.Schema
open Kmatrix.Sas.Machine (Self)

/-! ### Requests -/

/-- What a request that reached the server was answered. -/
structure Response where
  status : ℕ
  body : String
  deriving DecidableEq, Repr

/-- The requests of `handle_secret`, and what it tells the clients on the bus. -/
inductive Request where
  | backupVersion
  | keysQuery (users : List String)
  | sendToDevice (kind txn : String) (messages : Messages)
  | publish (event : Value)

def Reply : Request → Type
  | .backupVersion => Except String Response
  | .keysQuery _ => Except String Value
  | .sendToDevice _ _ _ => Except String Unit
  | .publish _ => Unit

/-- What becomes of the other requests. -/
structure Net where
  devices : Except String Value
  sent : Except String Unit

/-- Nobody can be reached. -/
def offline : Net := ⟨.error "offline", .error "offline"⟩

/-- **The server**, with what `/room_keys/version` comes to. -/
def serve (version : Except String Response) (net : Net) (server : Unit) :
    (q : Request) → Reply q × Unit
  | .backupVersion => (version, server)
  | .keysQuery _ => (net.devices, server)
  | .sendToDevice _ _ _ => (net.sent, server)
  | .publish _ => ((), server)

/-! ### The code -/

/-- `BackupInfo`. -/
structure BackupInfo where
  version : String
  algorithm : String
  publicKey : String
  deriving DecidableEq, Repr

/-- The answer of `/room_keys/version`. -/
def readBackup (v : Value) : Option BackupInfo := do
  let version ← v.getStr "version"
  let algorithm ← v.getStr "algorithm"
  let authData ← v.get "auth_data"
  let publicKey ← authData.getStr "public_key"
  return ⟨version, algorithm, publicKey⟩

section Code
variable {S : CipherSuite} (V : Vodozemac)

/-- `backup_version`, on what the request came to: no backup is no error. -/
def backupVersion (answer : Except String Response) : Except String (Option BackupInfo) := do
  let res ← answer
  if res.status = 404 then return none
  -- the text of the error goes nowhere: the caller drops it
  if ¬(200 ≤ res.status ∧ res.status < 300) then
    .error ("backup_version: HTTP " ++ toString res.status ++ " " ++ res.body)
  match (V.readJson res.body).toOption.bind readBackup with
  | some info => return some info
  | none => .error "backup_version: malformed response body"

/-- Our other devices, each with the content it is to be sent. -/
def targets (us : Self) (devices content : Value) : List (String × Value) :=
  match ((devices.get "device_keys").bind fun users => users.get us.userId).bind Value.asObject with
  | none => []
  | some list => (list.filter fun device => device.1 ≠ us.deviceId).map fun device => (device.1, content)

/-- Stops the other devices from answering the same request. -/
def cancelRequest (us : Self) (now : ℕ) (requestId : String) : Code S Reply (Option Crypto) Unit := do
  match ← Act.get with
  | none => return ()
  | some _ =>
    match ← ask (R := Reply) (.keysQuery [us.userId]) with
    | .error _ => return ()
    | .ok devices =>
      let targets := targets us devices (secretCancellation us.deviceId requestId)
      if targets.isEmpty then return ()
      let _ ← ask (R := Reply)
        (.sendToDevice "m.secret.request" ("kmxc" ++ toString now) [(us.userId, targets)])

/-- The adopted key is stored with the version of the backup it belongs to. -/
def adopt (secret : String) (expected : Option BackupInfo) : Code S Reply Crypto (Except String Unit) := do
  let stored ← Act.attempt (setBackupKeyBase64 V secret (expected.map BackupInfo.publicKey))
  match stored, expected with
  | .ok (), some info =>
    let _ ← Act.attempt (setMeta "backup_version" info.version)
    return stored
  | _, _ => return stored

/-- **`handle_secret`.** -/
def handleSecret (us : Self) (now : ℕ) (outcome : Secret) : Code S Reply (Option Crypto) Unit := do
  if outcome.name ≠ megolmBackupSecret then return ()
  let answer ← ask (R := Reply) .backupVersion
  let expected := (backupVersion V answer).toOption.join
  match ← Act.onSome (adopt V outcome.secret expected) with
  | some (.ok (.ok ())) =>
    ask (R := Reply) (.publish (.obj [("event", .str "verification"), ("name", .str outcome.name),
      ("phase", .str "secret")]))
    cancelRequest us now outcome.requestId
  | _ => return ()

end Code

/-! ### What is adopted -/

/-- One effect of the call, with its outcome. -/
abbrev Entry := Effect Request × Outcome Net

/-- A backup key is stored. -/
def storesKey : Entry → Bool
  | (.write (.setMeta k _), o) => k = backupKeyMeta && o.fault.isNone
  | _ => false

section Statement
variable {S : CipherSuite} (V : Vodozemac) (version : Except String Response) (us : Self) (now : ℕ)
  (outcome : Secret)

/-- **The server advertises a backup** whose public key is that of the secret, up to padding. -/
def Pinned : Prop :=
  ∃ info key, backupVersion V version = .ok (some info) ∧ decodeSharedKey outcome.secret = .ok key ∧
    (V.backupPublicKey key).toList = unpadded info.publicKey

/-- The backup key and the backup's version on disk are as they were. -/
def SameRows (w w' : World S Unit) : Prop :=
  ∀ k, k = backupKeyMeta ∨ k = "backup_version" → w'.disk.db.metas.lookup k = w.disk.db.metas.lookup k

/-- **What is asked of a call**, run from `c` and `w` over the outcomes `os`, however far that gets: a
key is stored only if the server's backup was made for it, and is then the one in memory; where none is
stored nothing changes, neither on disk nor in memory. -/
structure Guarded (c : Option Crypto) (w : World S Unit) (os : List (Outcome Net)) : Prop where
  pinned : (∃ y ∈ trail (exec (serve version)) ((handleSecret V us now outcome).run c) w os,
    storesKey y = true) → Pinned V version outcome
  held : (∃ y ∈ trail (exec (serve version)) ((handleSecret V us now outcome).run c) w os,
    storesKey y = true) → ∀ r, (run (exec (serve version)) ((handleSecret V us now outcome).run c) w os).1
      = some r → ∃ key, decodeSharedKey outcome.secret = .ok key ∧
        r.2.bind Crypto.backupKey = some key
  kept : (∀ y ∈ trail (exec (serve version)) ((handleSecret V us now outcome).run c) w os,
    storesKey y = false) →
      SameRows w (run (exec (serve version)) ((handleSecret V us now outcome).run c) w os).2 ∧
      ∀ r, (run (exec (serve version)) ((handleSecret V us now outcome).run c) w os).1 = some r →
        r.2.bind Crypto.backupKey = c.bind Crypto.backupKey

end Statement

section Proof
variable {S : CipherSuite} {V : Vodozemac} {version : Except String Response} {us : Self} {now : ℕ}
  {outcome : Secret}

/-- What holds of the world and its record while the call runs. -/
structure Fine (V : Vodozemac) (version : Except String Response) (outcome : Secret)
    (w : World S Unit) (x : World S Unit × List Entry) : Prop where
  pinned : (∃ y ∈ x.2, storesKey y = true) → Pinned V version outcome
  kept : (∀ y ∈ x.2, storesKey y = false) → SameRows w x.1

/-- What holds when it returns. -/
structure Settled (V : Vodozemac) (version : Except String Response) (outcome : Secret)
    (c : Option Crypto) (w : World S Unit) (c' : Option Crypto) (x : World S Unit × List Entry) :
    Prop where
  fine : Fine V version outcome w x
  held : (∃ y ∈ x.2, storesKey y = true) → ∃ key, decodeSharedKey outcome.secret = .ok key ∧
    c'.bind Crypto.backupKey = some key
  kept : (∀ y ∈ x.2, storesKey y = false) → c'.bind Crypto.backupKey = c.bind Crypto.backupKey

variable {c : Option Crypto} {w : World S Unit}

/-- Nothing was stored so far. -/
theorem fine_of_same {x : World S Unit × List Entry} (hx : ∀ y ∈ x.2, storesKey y = false)
    (hw : x.1.disk = w.disk) : Fine V version outcome w x := by
  refine ⟨?_, fun _ k _ => by rw [hw]⟩
  rintro ⟨y, hy, hs⟩
  rw [hx y hy] at hs
  simp at hs

theorem settled_of_same {x : World S Unit × List Entry} {c' : Option Crypto}
    (hx : ∀ y ∈ x.2, storesKey y = false) (hw : x.1.disk = w.disk)
    (hc : c'.bind Crypto.backupKey = c.bind Crypto.backupKey) :
    Settled V version outcome c w c' x := by
  refine ⟨fine_of_same hx hw, ?_, fun _ => hc⟩
  rintro ⟨y, hy, hs⟩
  rw [hx y hy] at hs
  simp at hs

/-- The key was stored, and it was right to. -/
theorem fine_of_stored {x : World S Unit × List Entry} (hpin : Pinned V version outcome)
    (hx : ∃ y ∈ x.2, storesKey y = true) : Fine V version outcome w x := by
  refine ⟨fun _ => hpin, fun hnone => ?_⟩
  obtain ⟨y, hy, hs⟩ := hx
  rw [hnone y hy] at hs
  simp at hs

theorem settled_of_stored {x : World S Unit × List Entry} {c' : Option Crypto} {key : Key}
    (hpin : Pinned V version outcome) (hx : ∃ y ∈ x.2, storesKey y = true)
    (hkey : decodeSharedKey outcome.secret = .ok key) (hc : c'.bind Crypto.backupKey = some key) :
    Settled V version outcome c w c' x := by
  refine ⟨fine_of_stored hpin hx, fun _ => ⟨key, hkey, hc⟩, fun hnone => ?_⟩
  obtain ⟨y, hy, hs⟩ := hx
  rw [hnone y hy] at hs
  simp at hs

/-- The cancellation touches neither disk nor memory. -/
theorem safe_cancelRequest (requestId : String) {c : Option Crypto} {w : World S Unit}
    {tr : List Entry} :
    Safe (recording (exec (serve version))) (fun x => tr <+: x.2) (fun r x => r.2 = c ∧ tr <+: x.2)
      ((cancelRequest us now requestId : Code S Reply (Option Crypto) Unit).run c) (w, tr) := by
  unfold cancelRequest
  rw [Act.safe_bind, Act.safe_get, Act.then_ok]
  rcases c with _ | c
  · exact ⟨rfl, List.prefix_refl _⟩
  · rw [Act.safe_bind]
    refine safe_ask_recorded (List.prefix_refl _) fun o => ?_
    rw [Act.then_ok]
    split
    · exact ⟨rfl, List.prefix_append _ _⟩
    · dsimp only
      split_ifs
      · exact ⟨rfl, List.prefix_append _ _⟩
      · rw [Act.safe_bind]
        refine safe_ask_recorded (List.prefix_append _ _) fun o' => ?_
        refine ⟨rfl, ?_⟩
        rw [List.append_assoc]
        exact List.prefix_append _ _

/-- How the adoption ends: with the key stored, or with nothing changed. -/
inductive Ended (V : Vodozemac) (version : Except String Response) (outcome : Secret) (c : Crypto)
    (w : World S Unit) (r : Except String (Except String Unit) × Crypto)
    (x : World S Unit × List Entry) : Prop where
  | same (hc : r.2 = c) (hw : x.1.disk = w.disk) (hx : ∀ y ∈ x.2, storesKey y = false)
      (hr : r.1 ≠ .ok (.ok ()))
  | stored (key : Key) (hkey : decodeSharedKey outcome.secret = .ok key)
      (hc : r.2.backupKey = some key) (hx : ∃ y ∈ x.2, storesKey y = true)

-- no proof below looks inside
seal decodeSharedKey

/-- **A key is stored** only after it passed the comparison. -/
theorem safe_adopt {expected : Option BackupInfo} {c : Crypto} {w : World S Unit} {tr : List Entry}
    (htr : ∀ y ∈ tr, storesKey y = false)
    (hpin : ∀ key, decodeSharedKey outcome.secret = .ok key → (∀ info, expected = some info →
      (V.backupPublicKey key).toList = unpadded info.publicKey) → Pinned V version outcome) :
    Safe (recording (exec (serve version))) (Fine V version outcome w)
      (fun r x => Ended V version outcome c w r x ∧
        ((∃ y ∈ x.2, storesKey y = true) → Pinned V version outcome))
      ((adopt V outcome.secret expected).run c) (w, tr) := by
  have hsame : ∀ (e : String) (tr' : List Entry), (∀ y ∈ tr', storesKey y = false) →
      Ended V version outcome c w (.ok (.error e), c) (w, tr') ∧
        ((∃ y ∈ tr', storesKey y = true) → Pinned V version outcome) := by
    intro e tr' h'
    refine ⟨.same rfl rfl h' (by simp), ?_⟩
    rintro ⟨y, hy, hs⟩
    rw [h' y hy] at hs
    simp at hs
  unfold adopt setBackupKeyBase64
  simp only [Act.safe_bind, Act.safe_attempt, Act.safe_ofExcept]
  rcases hkey : decodeSharedKey outcome.secret with e | key
  · exact hsame e tr htr
  · rw [Act.then_ok]
    simp only [Act.safe_bind, Act.safe_ofExcept]
    rcases hmatch : comparePublicKey V key (expected.map BackupInfo.publicKey) with e | u
    · exact hsame e tr htr
    · have hpinned : Pinned V version outcome := by
        refine hpin key hkey fun info hinfo => ?_
        rw [hinfo, Option.map_some] at hmatch
        exact comparePublicKey_ok hmatch
      simp only [Act.then_ok, Act.safe_bind]
      refine safe_put_recorded (fine_of_same htr rfl) (fun o e ho => ?_) fun o ho => ?_
      · refine hsame e _ fun y hy => ?_
        rcases List.mem_append.mp hy with hy | hy
        · exact htr y hy
        · simp [List.mem_singleton.mp hy, storesKey, ho]
      · have hstored : ∃ y ∈ tr ++ [(Effect.write (.setMeta backupKeyMeta (keyText key)), o)],
            storesKey y = true := by
          refine ⟨_, List.mem_append_right _ List.mem_cons_self, ?_⟩
          simp [storesKey, ho]
        rw [Act.then_ok, Act.safe_modify]
        rcases expected with _ | info
        · exact ⟨.stored key hkey rfl hstored, fun _ => hpinned⟩
        · simp only [Act.safe_bind, Act.safe_attempt]
          have hmore : ∀ z, ∃ y ∈ tr ++ [(Effect.write (.setMeta backupKeyMeta (keyText key)), o)] ++ [z],
              storesKey y = true := by
            intro z
            obtain ⟨y, hy, hs⟩ := hstored
            exact ⟨y, List.mem_append_left _ hy, hs⟩
          refine safe_put_recorded (fine_of_stored hpinned hstored) (fun o' e _ => ?_) fun o' _ => ?_
          · exact ⟨.stored key hkey rfl (hmore _), fun _ => hpinned⟩
          · exact ⟨.stored key hkey rfl (hmore _), fun _ => hpinned⟩

theorem safe_handleSecret {c : Option Crypto} {w : World S Unit}
    (h : outcome.name ≠ megolmBackupSecret ∨ c = none ∨
      (∀ key, decodeSharedKey outcome.secret ≠ .ok key) ∨
      ∃ info, backupVersion V version = .ok (some info)) :
    Safe (recording (exec (serve version))) (Fine V version outcome w)
      (fun r x => Settled V version outcome c w r.2 x)
      ((handleSecret V us now outcome).run c) (w, []) := by
  unfold handleSecret
  split_ifs with hname
  · exact settled_of_same (by simp) rfl rfl
  · rw [Act.safe_bind]
    refine safe_ask_recorded (fine_of_same (by simp) rfl) fun o => ?_
    have hasked : ∀ y ∈ ([] ++ [(Effect.ask Request.backupVersion, o)] : List Entry),
        storesKey y = false := by simp [storesKey]
    rw [Act.then_ok, Act.safe_bind]
    rcases c with _ | c
    · exact settled_of_same hasked rfl rfl
    · rw [Act.safe_onSome_some]
      have hpin : ∀ key, decodeSharedKey outcome.secret = .ok key →
          (∀ info, (backupVersion V version).toOption.join = some info →
            (V.backupPublicKey key).toList = unpadded info.publicKey) →
          Pinned V version outcome := by
        intro key hkey hexpected
        rcases h with h | h | h | ⟨info, hinfo⟩
        · exact absurd h hname
        · simp at h
        · exact absurd hkey (h key)
        · exact ⟨info, key, hinfo, hkey, hexpected info (by rw [hinfo]; rfl)⟩
      refine (safe_adopt hasked hpin).mono ?_
      · rintro ⟨r, c'⟩ x ⟨hended, hpinned⟩
        rcases hended with ⟨hc, hw, hx, hr⟩ | ⟨key, hkey, hc, hx⟩
        · obtain rfl : c' = c := hc
          have hdone : Settled V version outcome (some c') w (some c') x := settled_of_same hx hw rfl
          rcases r with e | e | u
          · exact hdone
          · exact hdone
          · exact absurd rfl hr
        · have hdone : ∀ x', x.2 <+: x'.2 → Settled V version outcome (some c) w (some c') x' := by
            intro x' hx'
            obtain ⟨y, hy, hs⟩ := hx
            exact settled_of_stored (hpinned ⟨y, hy, hs⟩) ⟨y, hx'.subset hy, hs⟩ hkey hc
          rw [Act.then_ok]
          rcases r with e | e | u
          · exact hdone x (List.prefix_refl _)
          · exact hdone x (List.prefix_refl _)
          · obtain ⟨w', tr⟩ := x
            refine Act.safe_bind.mpr ?_
            refine safe_ask_recorded (hdone (w', tr) (List.prefix_refl _)).fine fun o' => ?_
            refine Act.then_ok.mpr ?_
            refine (safe_cancelRequest outcome.requestId).weaken (fun x' hx' => ?_) ?_
            · exact (hdone x' ((List.prefix_append _ _).trans hx')).fine
            · rintro ⟨r', c''⟩ x' ⟨rfl, hx'⟩
              exact hdone x' ((List.prefix_append _ _).trans hx')

/-- **A key is adopted** where there is nothing to compare it with, and no store access fails. -/
theorem pinned_of_safe {c : Crypto} {w : World S Unit} {key : Key}
    (h : Safe (recording (exec (serve version)))
      (fun x => (∃ y ∈ x.2, storesKey y = true) → Pinned V version outcome)
      (fun _ x => (∃ y ∈ x.2, storesKey y = true) → Pinned V version outcome)
      ((handleSecret V us now outcome).run (some c)) (w, []))
    (hname : outcome.name = megolmBackupSecret) (hkey : decodeSharedKey outcome.secret = .ok key)
    (hversion : ∀ info, backupVersion V version ≠ .ok (some info)) : Pinned V version outcome := by
  have hnone : (backupVersion V version).toOption.join = none := by
    rcases hb : backupVersion V version with e | _ | info
    · rfl
    · rfl
    · exact absurd hb (hversion info)
  unfold handleSecret at h
  rw [if_neg (not_not.mpr hname), Act.safe_bind] at h
  have hasked := of_safe_ask h (calm offline)
  rw [Act.then_ok, Act.safe_bind, Act.safe_onSome_some] at hasked
  unfold adopt setBackupKeyBase64 at hasked
  simp only [Act.safe_bind, Act.safe_attempt, Act.safe_ofExcept, hkey, Act.then_ok, serve, hnone,
    Option.map_none, comparePublicKey] at hasked
  have hput := of_safe_put hasked (rfl : (calm offline).fault = none)
  rw [Act.then_ok, Act.safe_modify] at hput
  -- the key is on disk: what comes next already answers for it
  exact (Act.safe_bind.mp hput).1 ⟨_, List.mem_append_right _ List.mem_cons_self, rfl⟩

/-- If every call is guarded, so is one with nothing to compare. -/
theorem pinned_of_guarded {c : Crypto} {w : World S Unit} {key : Key}
    (h : ∀ os, Guarded V version us now outcome (some c) w os)
    (hname : outcome.name = megolmBackupSecret) (hkey : decodeSharedKey outcome.secret = .ok key)
    (hversion : ∀ info, backupVersion V version ≠ .ok (some info)) : Pinned V version outcome := by
  have hsafe : Safe (recording (exec (serve version)))
      (fun x => (∃ y ∈ x.2, storesKey y = true) → Pinned V version outcome)
      (fun _ x => (∃ y ∈ x.2, storesKey y = true) → Pinned V version outcome)
      ((handleSecret V us now outcome).run (some c)) (w, []) := Safe.of_run fun os => ?_
  · exact pinned_of_safe hsafe hname hkey hversion
  rw [run_recording]
  refine ⟨fun r x hr => ?_, fun x hr => ?_⟩
  · rw [← (Prod.mk.inj hr).2]
    exact (h os).pinned
  · rw [← (Prod.mk.inj hr).2]
    exact (h os).pinned

/-- **When only the right key is adopted**: exactly when the secret is not a backup key, or there is
nobody to adopt it, or the server has answered with a backup. -/
theorem guarded_iff (c : Option Crypto) (w : World S Unit) :
    (∀ os, Guarded V version us now outcome c w os) ↔
      outcome.name ≠ megolmBackupSecret ∨ c = none ∨
        (∀ key, decodeSharedKey outcome.secret ≠ .ok key) ∨
        ∃ info, backupVersion V version = .ok (some info) := by
  constructor
  · intro h
    by_contra hcond
    push Not at hcond
    obtain ⟨hname, hc, ⟨key, hkey⟩, hversion⟩ := hcond
    obtain ⟨c, rfl⟩ := Option.ne_none_iff_exists'.mp hc
    obtain ⟨info, key', hinfo, -⟩ := pinned_of_guarded h hname hkey hversion
    exact hversion info hinfo
  · intro h os
    have hsafe : Safe (recording (exec (serve version))) (Fine V version outcome w)
        (fun r x => Settled V version outcome c w r.2 x)
        ((handleSecret V us now outcome).run c) (w, []) := safe_handleSecret h
    obtain ⟨hret, hkill⟩ := hsafe.run_trail os
    rcases hr : run (exec (serve version)) ((handleSecret V us now outcome).run c) w os with
      ⟨_ | r, w'⟩
    · have hfine := hkill w' hr
      refine ⟨hfine.pinned, fun _ r hr' => ?_, fun hnone => ⟨?_, fun r hr' => ?_⟩⟩
      · simp [hr] at hr'
      · rw [hr]
        exact hfine.kept hnone
      · simp [hr] at hr'
    · have hsettled := hret r w' hr
      refine ⟨hsettled.fine.pinned, fun hsome r' hr' => ?_, fun hnone => ⟨?_, fun r' hr' => ?_⟩⟩
      · obtain rfl : r = r' := by simpa [hr] using hr'
        exact hsettled.held hsome
      · rw [hr]
        exact hsettled.fine.kept hnone
      · obtain rfl : r = r' := by simpa [hr] using hr'
        exact hsettled.kept hnone

end Proof

/-- A secret that is a key, the answer to a request of ours. -/
def sharedKey : Secret := ⟨megolmBackupSecret, keyText zeroKey, "request"⟩

theorem decode_sharedKey : decodeSharedKey sharedKey.secret = .ok zeroKey := by decide +kernel

/-- **The request fails, and the key is adopted** without a comparison. -/
theorem not_guarded_timeout :
    ¬ ∀ os, Guarded (plainVodozemac [] []) (.error "timeout") ⟨"@us", "DEVICE"⟩ 0 sharedKey
      (some newCrypto) (⟨blankStore, 0, ()⟩ : World copySuite Unit) os := by
  intro h
  obtain ⟨info, key, hinfo, -⟩ := pinned_of_guarded h rfl decode_sharedKey fun info hinfo => by
    simp [backupVersion, bind, Except.bind] at hinfo
  simp [backupVersion, bind, Except.bind] at hinfo

end Kmatrix.Daemon.Secrets
