import Kmatrix.E2ee.Stored

/-! # One-time keys

`maintain_otks` makes one-time keys in memory, offers them to the server, and writes the account with
their private halves only after the server has agreed. Between the two the server has keys that nothing
on disk can use. The process may be killed there, or the answer lost, or the write fail.

The server has the keys it has accepted and not yet handed out. The signatures in the body of an upload
are left out. -/

namespace Kmatrix.E2ee.OneTimeKeys

open Kmatrix.Lib.Crash Kmatrix.E2ee.Ratchets Kmatrix.E2ee.Effects Kmatrix.E2ee.Sessions
open Kmatrix.E2ee.Stored Kmatrix.Storage Kmatrix.Storage.Seal Kmatrix.Storage.Schema
open Kmatrix.Storage.Write (StoreOp)

def otkTarget : ℕ := 50

def devicePublishedMeta : String := "device_keys_published"

/-! ### The server -/

/-- The device keys of a body. -/
structure DeviceKeys where
  userId : String
  deviceId : String
  curve25519Key : String
  ed25519Key : String
  deriving DecidableEq, Repr

/-- The body of a `/keys/upload`; the one-time keys are in the order of their ids. -/
structure UploadBody where
  deviceKeys : Option DeviceKeys
  oneTimeKeys : List (ℕ × String)
  deriving DecidableEq, Repr

inductive Request where
  | keysUpload (body : UploadBody)
  deriving DecidableEq, Repr

def Reply : Request → Type
  | .keysUpload _ => Except String Unit

/-- **The one-time keys at the server**, accepted and not yet handed out. -/
structure Server where
  available : List String

/-- What becomes of an upload: the keys the server accepts, those it has handed out by then, and whether
its answer arrives. -/
structure Net where
  accepts : String → Bool
  handsOut : String → Bool
  answered : Bool

def serve (net : Net) (s : Server) : (q : Request) → Reply q × Server
  | .keysUpload body =>
    (if net.answered then .ok () else .error "timeout",
      ⟨(s.available ++ (body.oneTimeKeys.map Prod.snd).filter net.accepts).filter
        fun key => !net.handsOut key⟩)

/-! ### The code -/

section Code
variable {S : CipherSuite} {Q : Type} {R : Q → Type} (V : Vodozemac) (most limit : ℕ)

/-- How many keys are made, of which the library recommends to have at most `most`. -/
def wanted (have' : ℕ) : ℕ := min (otkTarget - have') most

/-- The body for the keys that are not marked as published, if there is anything in it. -/
def uploadBody (c : Crypto) (session : Session) (includeDeviceKeys : Bool) : Option UploadBody :=
  let unpublished := c.account.unpublished.insertionSort fun k k' => k.id ≤ k'.id
  let body : UploadBody :=
    { deviceKeys :=
        if includeDeviceKeys then
          some ⟨session.userId, session.deviceId, c.account.curve25519Key, c.account.ed25519Key⟩
        else none
      oneTimeKeys := unpublished.map fun k => (k.id, k.key) }
  if body.deviceKeys.isNone && body.oneTimeKeys.isEmpty then none else some body

/-- **`keys_upload_body`**: the library keeps at most `limit` keys. -/
def keysUploadBody (session : Session) (have' : ℕ) (includeDeviceKeys : Bool) :
    Code S R Crypto (Option UploadBody) := do
  if 0 < wanted most have' then
    let first ← draw (wanted most have')
    Act.modify fun c => { c with
      account := c.account.generateOneTimeKeys limit
        ((List.range (wanted most have')).map fun i => V.oneTimeKey (first + i)) }
  let c ← Act.get
  return uploadBody c session includeDeviceKeys

/-- `mark_published`. -/
def markPublished : Code S R Crypto Unit := do
  Act.modify fun c => { c with account := c.account.markKeysAsPublished }
  persistAccount

/-- **`maintain_otks`.** -/
def maintainOtks (session : Session) (have' : ℕ) : Code S Reply Crypto Unit := do
  let published := (← getMeta devicePublishedMeta).isSome
  if otkTarget ≤ have' && published then return ()
  match ← keysUploadBody V most limit session have' (!published) with
  | none => return ()
  | some body =>
    Act.ofExcept (← ask (.keysUpload body))
    markPublished
    setMeta devicePublishedMeta "1"

/-- A call of `maintain_otks`. -/
structure Call where
  session : Session
  have' : ℕ

/-- The code of a call; an error is only logged. -/
def Call.code (call : Call) (c : Crypto) : Prog (Effect Request) (Answer S Reply) (Unit × Crypto) :=
  ((maintainOtks V most limit call.session call.have').run c).bind fun r => .ret ((), r.2)

end Code

/-! ### What is claimed, and when it holds -/

section Claim
variable {S : CipherSuite}

/-- The private half of a one-time key is in the account a start loads, and opens the pre-key messages
that name it. -/
def OnDisk (st : Store S) (key : String) : Prop :=
  ∃ account, storedAccount st = some account ∧ account.Holds key ∧
    ∀ m : OlmMessage, m.preKey = some key → (account.createInboundSession m).isSome

/-- **The one-time keys survive**: every one the server has to hand out is on disk. -/
def Survive (w : World S Server) : Prop := ∀ key ∈ w.server.available, OnDisk w.disk key

/-- The library discards these of its keys when it makes `n` more. -/
def discarded (limit : ℕ) (account : Account) (n : ℕ) : List OneTimeKey :=
  account.oneTimeKeys.take (min n (account.oneTimeKeys.length + n - limit))

/-- **The condition on what happens in a call**: where the server keeps a key of an upload, its answer
arrives, and the account is written. -/
def Answered (trail : List (Effect Request × Outcome Net)) : Prop :=
  ∀ body o, (.ask (.keysUpload body), o) ∈ trail →
    (∃ k ∈ body.oneTimeKeys, o.net.accepts k.2 = true ∧ o.net.handsOut k.2 = false) →
    o.net.answered = true ∧
      ∃ pickle o', (.write (.putPickle kindAccount "self" "" pickle), o') ∈ trail ∧ o'.fault = none

variable (V : Vodozemac) (most limit : ℕ)

/-- **The condition on an event** of a run: and the library discards no key the server still has. -/
def Heeds (p : Process (World S Server) Crypto Call Unit) (event : Event Call (Outcome Net)) : Prop :=
  Answered (Process.trailOf (exec serve) (boot V) (Call.code V most limit) p event) ∧
    ∀ call os c, event = .call call os → p.memory = some c →
      ∀ k ∈ discarded limit c.account (wanted most call.have'), k.key ∉ p.world.server.available

/-- A run. -/
abbrev run (p : Process (World S Server) Crypto Call Unit) (events : List (Event Call (Outcome Net))) :
    Process (World S Server) Crypto Call Unit :=
  Process.runs (exec serve) (boot V) (Call.code V most limit) p events

/-- A run whose events all meet the condition. -/
abbrev HeedsAll (p : Process (World S Server) Crypto Call Unit)
    (events : List (Event Call (Outcome Net))) : Prop :=
  Process.Within (exec serve) (boot V) (Call.code V most limit) (Heeds V most limit) p events

/-- The daemon before its first start, over a database, and a server that has nothing. -/
def cold (st : Store S) : Process (World S Server) Crypto Call Unit := ⟨⟨st, 0, ⟨[]⟩⟩, none, []⟩

end Claim

/-! ### Accounts -/

section Accounts
variable {account : Account} {limit : ℕ}

/-- **One key of several**: what the others leave of the keys then is what all of them leave of the keys
now, and the new key or nothing. -/
theorem drop_generateOne (key : String) (n : ℕ) : ∃ e,
    (account.generateOne limit key).oneTimeKeys.drop
        (min n ((account.generateOne limit key).oneTimeKeys.length + n - limit)) =
      account.oneTimeKeys.drop (min (n + 1) (account.oneTimeKeys.length + (n + 1) - limit)) ++
        [(⟨account.nextKeyId, key, false⟩ : OneTimeKey)].drop e := by
  unfold Account.generateOne
  dsimp only
  by_cases hfull : limit ≤ account.oneTimeKeys.length
  · rw [if_pos hfull]
    rcases hkeys : account.oneTimeKeys with _ | ⟨oldest, rest⟩
    · refine ⟨min n (1 + n - limit), ?_⟩
      rw [List.drop_nil]
      rfl
    · rw [hkeys, List.length_cons] at hfull
      have hdrop : min (n + 1) ((oldest :: rest).length + (n + 1) - limit) = n + 1 := by
        rw [List.length_cons]
        omega
      have hdrop' : min n ((rest ++ [(⟨account.nextKeyId, key, false⟩ : OneTimeKey)]).length +
          n - limit) = n := by
        simp only [List.length_append, List.length_cons, List.length_nil]
        omega
      refine ⟨n - rest.length, ?_⟩
      rw [hdrop, List.drop_succ_cons, List.tail_cons, hdrop', List.drop_append]
  · rw [if_neg hfull]
    have hdrop : min n ((account.oneTimeKeys ++
        [(⟨account.nextKeyId, key, false⟩ : OneTimeKey)]).length + n - limit) =
        min (n + 1) (account.oneTimeKeys.length + (n + 1) - limit) := by
      simp only [List.length_append, List.length_cons, List.length_nil]
      omega
    rw [hdrop, List.drop_append]
    exact ⟨_, rfl⟩

/-- What is not among the oldest is kept. -/
theorem mem_generate (keys : List String) {k : OneTimeKey}
    (h : k ∈ account.oneTimeKeys.drop
      (min keys.length (account.oneTimeKeys.length + keys.length - limit))) :
    k ∈ (account.generateOneTimeKeys limit keys).oneTimeKeys := by
  induction keys generalizing account with
  | nil =>
    rw [List.length_nil, Nat.zero_min, List.drop_zero] at h
    exact h
  | cons key keys ih =>
    obtain ⟨e, he⟩ := @drop_generateOne account limit key keys.length
    refine @ih (account.generateOne limit key) ?_
    rw [he]
    exact List.mem_append_left _ h

/-- **What the library does not discard, the account still holds.** -/
theorem holds_generate {keys : List String} {key : String} (h : account.Holds key)
    (hkept : ∀ k ∈ discarded limit account keys.length, k.key ≠ key) :
    (account.generateOneTimeKeys limit keys).Holds key := by
  obtain ⟨k, hk, rfl⟩ := h
  refine ⟨k, mem_generate keys ?_, rfl⟩
  rw [← List.take_append_drop (min keys.length (account.oneTimeKeys.length + keys.length - limit))
    account.oneTimeKeys] at hk
  rcases List.mem_append.mp hk with hk | hk
  · exact absurd rfl (hkept k hk)
  · exact hk

theorem holds_markPublished {key : String} : account.markKeysAsPublished.Holds key ↔ account.Holds key := by
  unfold Account.Holds Account.markKeysAsPublished
  simp

/-- A key that is held opens the pre-key messages that name it. -/
theorem isSome_createInboundSession {key : String} (h : account.Holds key) {m : OlmMessage}
    (hm : m.preKey = some key) : (account.createInboundSession m).isSome := by
  unfold Account.createInboundSession
  rw [hm]
  dsimp only
  rw [if_pos h]
  rfl

end Accounts

/-! ### A call -/

section Calls
variable {S : CipherSuite} {V : Vodozemac} {most limit : ℕ} {w : World S Server} {c : Crypto}

/-- What holds of the memory between calls: it writes under the key on disk, and holds what the server
has to hand out, as the disk does. -/
structure Held (w : World S Server) (c : Crypto) : Prop where
  disk : Survive w
  key : storedKey w.disk = some c.pickleKey
  account : ∀ key ∈ w.server.available, c.account.Holds key

/-- Nothing is asked or written yet. -/
def Early (trail : List (Effect Request × Outcome Net)) : Prop :=
  ∀ y ∈ trail, y.1 = .look ∨ ∃ n, y.1 = .draw n

theorem Early.concat {trail : List (Effect Request × Outcome Net)} (h : Early trail)
    {e : Effect Request} (he : e = .look ∨ ∃ n, e = .draw n) (o : Outcome Net) :
    Early (trail ++ [(e, o)]) := by
  intro y hy
  rcases List.mem_append.mp hy with hy | hy
  · exact h y hy
  · rw [List.mem_singleton.mp hy]
    exact he

/-- **The keys the server has after an upload**: those it had, and those of the body it keeps. -/
theorem mem_available {net : Net} {server : Server} {body : UploadBody} {key : String}
    (h : key ∈ (serve net server (.keysUpload body)).2.available) :
    key ∈ server.available ∨
      ∃ k ∈ body.oneTimeKeys, k.2 = key ∧ net.accepts k.2 = true ∧ net.handsOut k.2 = false := by
  unfold serve at h
  simp only [List.mem_filter, List.mem_append, List.mem_map] at h
  obtain ⟨h | ⟨⟨k, hk, rfl⟩, haccepts⟩, hkept⟩ := h
  · exact Or.inl h
  · exact Or.inr ⟨k, hk, rfl, haccepts, by simpa using hkept⟩

/-- **The account on disk** after a successful write holds what the memory holds. -/
theorem Survive.persisted {account : Account} (hkey : storedKey w.disk = some c.pickleKey)
    (hheld : ∀ key ∈ w.server.available, account.Holds key) (rng : Salts) :
    Survive { w with
      disk := (StoreOp.putPickle kindAccount "self" "" (c.pickle (.account account))).exec rng w.disk } := by
  intro key hmem
  refine ⟨account, ?_, hheld key hmem, fun m hm => isSome_createInboundSession (hheld key hmem) hm⟩
  unfold storedAccount
  dsimp only
  rw [stored_putPickle hkey, if_pos rfl]
  rfl

/-- The flag of the device keys is no matter of the account. -/
theorem Held.published (h : Held w c) (rng : Salts) :
    Held { w with disk := (StoreOp.setMeta devicePublishedMeta "1").exec rng w.disk } c where
  disk key hmem := by
    obtain ⟨account, haccount, hholds⟩ := h.disk key hmem
    refine ⟨account, ?_, hholds⟩
    rw [← haccount]
    exact stored_congr (getMeta_setMeta_of_ne (by decide) rng w.disk _) rfl _ _
  key := by
    rw [← h.key]
    exact storedKey_congr (getMeta_setMeta_of_ne (by decide) rng w.disk _)
  account := h.account

/-- A body is of keys the account holds. -/
theorem holds_uploadBody {session : Session} {includeDeviceKeys : Bool} {body : UploadBody}
    (h : uploadBody c session includeDeviceKeys = some body) :
    ∀ k ∈ body.oneTimeKeys, c.account.Holds k.2 := by
  intro k hk
  unfold uploadBody at h
  dsimp only at h
  rw [Option.ite_none_left_eq_some] at h
  rw [← Option.some.inj h.2] at hk
  obtain ⟨k', hk', rfl⟩ := List.mem_map.mp hk
  rw [List.mem_insertionSort] at hk'
  exact ⟨k', (List.mem_filter.mp hk').1, rfl⟩

/-- **No key the server still has is lost** over the making of new ones. -/
theorem Held.generate (h : Held w c) {keys : List String}
    (hkept : ∀ k ∈ discarded limit c.account keys.length, k.key ∉ w.server.available) :
    Held w { c with account := c.account.generateOneTimeKeys limit keys } where
  disk := h.disk
  key := h.key
  account key hmem := by
    refine holds_generate (h.account key hmem) fun k hk heq => hkept k hk ?_
    rw [heq]
    exact hmem

theorem safe_keysUploadBody (h : Held w c) (session : Session) {have' : ℕ} (includeDeviceKeys : Bool)
    (hkept : ∀ k ∈ discarded limit c.account (wanted most have'), k.key ∉ w.server.available)
    {tr : List (Effect Request × Outcome Net)} (htr : Early tr) :
    Safe (recording (exec serve)) (fun x => Survive x.1)
      (fun r x => Early x.2 ∧ Held x.1 r.2 ∧ ∀ body, r.1 = .ok (some body) →
        ∀ k ∈ body.oneTimeKeys, r.2.account.Holds k.2)
      ((keysUploadBody V most limit session have' includeDeviceKeys :
        Code S Reply Crypto (Option UploadBody)).run c) (w, tr) := by
  have hbody : ∀ (c' : Crypto) (body : UploadBody),
      (.ok (uploadBody c' session includeDeviceKeys) : Except String (Option UploadBody)) =
        .ok (some body) → ∀ k ∈ body.oneTimeKeys, c'.account.Holds k.2 :=
    fun c' body hb => holds_uploadBody (Except.ok.inj hb)
  unfold keysUploadBody
  dsimp only
  split_ifs with hwanted
  · simp only [Act.safe_bind]
    refine safe_draw_recorded h.disk fun o => ?_
    simp only [Act.then_ok, Act.safe_bind, Act.safe_modify, Act.safe_get, Act.safe_pure]
    have hw : Held { w with drawn := w.drawn + wanted most have' } c := ⟨h.disk, h.key, h.account⟩
    refine ⟨htr.concat (Or.inr ⟨_, rfl⟩) o, hw.generate ?_, hbody _⟩
    rw [List.length_map, List.length_range]
    exact hkept
  · simp only [Act.safe_bind, Act.then_ok, Act.safe_get, Act.safe_pure]
    exact ⟨htr, h, hbody c⟩

/-- **Until the account is written**, all that was to hand out before is still on disk: so where the
condition holds, nothing was added. -/
theorem survive_of_unwritten (h : Survive w) {body : UploadBody} {o : Outcome Net}
    {tr : List (Effect Request × Outcome Net)} (hask : (.ask (.keysUpload body), o) ∈ tr)
    (hno : ∀ pickle o', (.write (.putPickle kindAccount "self" "" pickle), o') ∈ tr → o'.fault ≠ none)
    (hanswered : Answered tr) :
    Survive { w with server := (serve o.net w.server (.keysUpload body)).2 } := by
  intro key hmem
  rcases mem_available hmem with hold | ⟨k, hk, rfl, hkeeps⟩
  · exact h key hold
  · obtain ⟨-, pickle, o', hwrite, hok⟩ := hanswered body o hask ⟨k, hk, hkeeps⟩
    exact absurd hok (hno pickle o' hwrite)

/-- An upload has nothing written before it. -/
theorem Early.no_write {tr : List (Effect Request × Outcome Net)} (h : Early tr) {body : UploadBody}
    {o : Outcome Net} : ∀ pickle o', (.write (.putPickle kindAccount "self" "" pickle), o') ∈
      tr ++ [((.ask (.keysUpload body) : Effect Request), o)] → o'.fault ≠ none := by
  intro pickle o' hmem
  rcases List.mem_append.mp hmem with hmem | hmem
  · rcases h _ hmem with hlook | ⟨n, hdraw⟩
    · simp at hlook
    · simp at hdraw
  · simp at hmem

/-- **An upload, and what follows a good answer.** -/
theorem safe_upload (h : Held w c) {body : UploadBody} (hbody : ∀ k ∈ body.oneTimeKeys, c.account.Holds k.2)
    {tr : List (Effect Request × Outcome Net)} (htr : Early tr) :
    Safe (recording (exec serve)) (fun x => Answered x.2 → Survive x.1)
      (fun r x => Answered x.2 → Held x.1 r.2)
      (((do
        Act.ofExcept (← ask (.keysUpload body))
        markPublished
        setMeta devicePublishedMeta "1") : Code S Reply Crypto Unit).run c) (w, tr) := by
  rw [Act.safe_bind]
  refine safe_ask_recorded (fun _ => h.disk) fun o => ?_
  -- the memory holds all the server has by now; the disk does if nothing came to it, or once it is written
  have hheld : ∀ key ∈ (serve o.net w.server (.keysUpload body)).2.available, c.account.Holds key := by
    intro key hmem
    rcases mem_available hmem with hold | ⟨k, hk, rfl, -⟩
    · exact h.account key hold
    · exact hbody k hk
  have hask : ((.ask (.keysUpload body) : Effect Request), o) ∈ tr ++ [(.ask (.keysUpload body), o)] :=
    List.mem_append_right _ (List.mem_singleton_self _)
  have hunwritten : Answered (tr ++ [(.ask (.keysUpload body), o)]) →
      Survive { w with server := (serve o.net w.server (.keysUpload body)).2 } :=
    survive_of_unwritten h.disk hask htr.no_write
  rw [Act.then_ok, Act.safe_bind]
  refine Act.safe_ofExcept.mpr ?_
  rcases (serve o.net w.server (.keysUpload body)).1 with e | u
  · exact fun hanswered => ⟨hunwritten hanswered, h.key, hheld⟩
  · unfold markPublished persistAccount
    simp only [Act.then_ok, Act.safe_bind, Act.safe_modify, Act.safe_get]
    have hmarked : ∀ key ∈ (serve o.net w.server (.keysUpload body)).2.available,
        c.account.markKeysAsPublished.Holds key := fun key hmem => holds_markPublished.mpr (hheld key hmem)
    refine safe_put_recorded hunwritten (fun o' e hfault hanswered => ⟨?_, h.key, hmarked⟩) fun o' _ => ?_
    · refine survive_of_unwritten h.disk (List.mem_append_left _ hask) (fun pickle o'' hmem => ?_) hanswered
      rcases List.mem_append.mp hmem with hmem | hmem
      · exact htr.no_write pickle o'' hmem
      · rw [(Prod.mk.inj (List.mem_singleton.mp hmem)).2, hfault]
        simp
    · -- the account is on disk
      have hw : Held { w with
          disk := (StoreOp.putPickle kindAccount "self" ""
            (c.pickle (.account c.account.markKeysAsPublished))).exec o'.salts w.disk
          server := (serve o.net w.server (.keysUpload body)).2 }
          { c with account := c.account.markKeysAsPublished } :=
        ⟨Survive.persisted (w := { w with server := (serve o.net w.server (.keysUpload body)).2 }) h.key
          hmarked o'.salts, (storedKey_putPickle o'.salts _ _ _ _ _).trans h.key,
          hmarked⟩
      rw [Act.then_ok]
      refine safe_put_recorded (fun _ => hw.disk) (fun _ _ _ _ => hw) fun o'' _ _ => ?_
      exact hw.published o''.salts

/-- **A call of `maintain_otks`.** -/
theorem safe_maintainOtks (h : Held w c) (call : Call)
    (hkept : ∀ k ∈ discarded limit c.account (wanted most call.have'), k.key ∉ w.server.available) :
    Safe (recording (exec serve)) (fun x => Answered x.2 → Survive x.1)
      (fun r x => Answered x.2 → Held x.1 r.2) (call.code V most limit c) (w, []) := by
  unfold Call.code
  rw [safe_bind]
  suffices hall : Safe (recording (exec serve)) (fun x => Answered x.2 → Survive x.1)
      (fun r x => Answered x.2 → Held x.1 r.2)
      ((maintainOtks V most limit call.session call.have' : Code S Reply Crypto Unit).run c) (w, []) from
    hall.mono fun r x hx => hx
  have hnil : Early [] := fun y hy => absurd hy List.not_mem_nil
  unfold maintainOtks
  rw [Act.safe_bind]
  refine safe_query_recorded (fun _ => h.disk) (fun o e _ => h) fun o published _ => ?_
  have htr : Early [((.look : Effect Request), o)] := hnil.concat (Or.inl rfl) o
  rw [Act.then_ok]
  dsimp only
  split_ifs
  · exact fun _ => h
  · rw [Act.safe_bind]
    refine (safe_keysUploadBody h call.session (!published.isSome) hkept htr).weaken
      (fun x hx _ => hx) ?_
    rintro ⟨e | _ | body, c'⟩ ⟨w', tr'⟩ ⟨htr', h', hbody⟩
    · exact fun _ => h'
    · exact fun _ => h'
    · rw [Act.then_ok]
      exact safe_upload h' (hbody body rfl) htr'

end Calls

/-! ### Runs -/

section Runs
variable {S : CipherSuite} (V : Vodozemac) (most limit : ℕ)

/-- **Every event that heeds keeps the invariant.** -/
theorem holds_step {V : Vodozemac} {most limit : ℕ} (p : Process (World S Server) Crypto Call Unit)
    (event : Event Call (Outcome Net)) (hp : p.Holds (fun _ => Survive) fun _ => Held)
    (hheeds : Heeds V most limit p event) :
    (Process.step (exec serve) (boot V) (Call.code V most limit) p event).Holds (fun _ => Survive)
      fun _ => Held := by
  obtain ⟨hanswered, hkept⟩ := hheeds
  rcases event with ⟨call, os⟩ | os
  · exact hp.called (fun _ _ _ hm => hm.disk)
      (fun c hc => safe_maintainOtks (hp.2 c hc) call (hkept call os c rfl hc)) hanswered
  · refine Process.Holds.booted ?_ hanswered
    have hsurvive : ∀ w', After p.world w' → Survive w' := by
      rintro w' ⟨hprimed, hserver, -⟩ key hmem
      rw [hserver] at hmem
      obtain ⟨account, haccount, hholds⟩ := hp.1 key hmem
      exact ⟨account, hprimed.stored haccount, hholds⟩
    refine (safe_boot_loaded.recorded []).weaken (fun x hx _ => hsurvive x.1 hx.1) ?_
    rintro m x ⟨⟨hafter, hloaded⟩, -⟩ -
    refine ⟨hsurvive x.1 hafter, fun c hc => ⟨hsurvive x.1 hafter, (hloaded c hc).key, ?_⟩⟩
    intro key hmem
    obtain ⟨account, haccount, hholds, -⟩ := hsurvive x.1 hafter key hmem
    rw [(hloaded c hc).account] at haccount
    rw [Option.some.inj haccount]
    exact hholds

/-- **One-time keys survive** every run whose events heed: wherever it ends, a start finds all that the
server has to hand out. -/
theorem survive_of_heeds (st : Store S) (events : List (Event Call (Outcome Net)))
    (hheeds : HeedsAll V most limit (cold st) events) :
    Survive (run V most limit (cold st) events).world := by
  have hcold : (cold st).Holds (fun _ => Survive) fun _ => Held :=
    ⟨fun key hmem => absurd hmem List.not_mem_nil, fun m hm => by simp [cold] at hm⟩
  exact (hcold.within holds_step hheeds).1

end Runs

/-! ### Killed after the upload -/

section Examples

/-- The server accepts every key, and answers. -/
def agreed : Outcome Net := calm ⟨fun _ => true, fun _ => false, true⟩

def ourSession : Session := ⟨"https://example.org", "@us", "DEVICE", "token"⟩

/-- The first start: the pickle key, the account, and three kinds of sessions. -/
def started : Event Call (Outcome Net) := .boot (List.replicate 10 agreed)

/-- A call, killed after so many effects: it looks, draws, uploads, writes the account, and the flag. -/
def called (effects : ℕ) : Event Call (Outcome Net) :=
  .call ⟨ourSession, 48⟩ (List.replicate effects agreed)

/-- A run of the library over its usual limits. -/
abbrev after (events : List (Event Call (Outcome Net))) :
    Process (World copySuite Server) Crypto Call Unit :=
  run (plainVodozemac [] []) 50 5000 (cold blankStore) events

/-- **The server has keys that nobody holds**, if the process ends before it writes the account. -/
theorem not_survive_killed : ¬ Survive (after [started, called 3]).world := by
  intro h
  have hmem : "kk" ∈ (after [started, called 3]).world.server.available := by decide +kernel
  obtain ⟨account, haccount, ⟨k, hk, -⟩, -⟩ := h "kk" hmem
  have hnone : storedAccount (after [started, called 3]).world.disk =
      some ⟨"our curve", "our ed", 0, []⟩ := by decide +kernel
  rw [haccount] at hnone
  rw [Option.some.inj hnone] at hk
  cases hk

/-- The account is written in a trail. -/
def written (trail : List (Effect Request × Outcome Net)) : Bool :=
  trail.any fun y => match y with
    | (.write (.putPickle kind id extra _), o) =>
      kind = kindAccount && id = "self" && extra = "" && o.fault.isNone
    | _ => false

theorem written_iff {trail : List (Effect Request × Outcome Net)} (h : written trail = true) :
    ∃ pickle o, (.write (.putPickle kindAccount "self" "" pickle), o) ∈ trail ∧ o.fault = none := by
  obtain ⟨y, hy, hwrite⟩ := List.any_eq_true.mp h
  split at hwrite
  · simp only [Bool.and_eq_true, decide_eq_true_eq, Option.isNone_iff_eq_none] at hwrite
    obtain ⟨⟨⟨rfl, rfl⟩, rfl⟩, hfault⟩ := hwrite
    exact ⟨_, _, hy, hfault⟩
  · cases hwrite

/-- What the condition asks of a trail. -/
def answered (trail : List (Effect Request × Outcome Net)) : Bool :=
  trail.all fun y => match y with
    | (.ask (.keysUpload body), o) =>
      (body.oneTimeKeys.all fun k => !o.net.accepts k.2 || o.net.handsOut k.2) ||
        (o.net.answered && written trail)
    | _ => true

/-- An event with such a trail, and few keys in the account. -/
theorem heeds_of_check {p : Process (World copySuite Server) Crypto Call Unit}
    {event : Event Call (Outcome Net)}
    (htrail : answered (Process.trailOf (exec serve) (boot (plainVodozemac [] []))
      (Call.code (plainVodozemac [] []) 50 5000) p event) = true)
    (hfew : (p.memory.all fun c => c.account.oneTimeKeys.length + 50 ≤ 5000) = true) :
    Heeds (plainVodozemac [] []) 50 5000 p event := by
  refine ⟨fun body o hmem hkeeps => ?_, fun call os c _ hc k hk => ?_⟩
  · have hthis := List.all_eq_true.mp htrail _ hmem
    rcases Bool.or_eq_true_iff.mp hthis with hnone | hboth
    · obtain ⟨k, hk, haccepts, hout⟩ := hkeeps
      have hk' := List.all_eq_true.mp hnone k hk
      rw [haccepts, hout] at hk'
      cases hk'
    · obtain ⟨hanswered, hwritten⟩ := Bool.and_eq_true_iff.mp hboth
      exact ⟨hanswered, written_iff hwritten⟩
  · rw [hc] at hfew
    have hlen : c.account.oneTimeKeys.length + 50 ≤ 5000 := of_decide_eq_true hfew
    have hwanted : wanted 50 call.have' ≤ 50 := min_le_right _ _
    have hnone : min (wanted 50 call.have')
        (c.account.oneTimeKeys.length + wanted 50 call.have' - 5000) = 0 := by
      omega
    unfold discarded at hk
    rw [hnone, List.take_zero] at hk
    cases hk

/-- Two calls that come to their end, and a third that the server refuses and that is killed. -/
def inOrder : List (Event Call (Outcome Net)) :=
  [started, called 5, started, called 5,
    .call ⟨ourSession, 48⟩ [agreed, agreed, calm ⟨fun _ => false, fun _ => false, true⟩]]

theorem survive_inOrder : (after inOrder).world.server.available.length = 4 ∧
    Survive (after inOrder).world := by
  refine ⟨by decide +kernel, survive_of_heeds _ _ _ _ _ ⟨?_, ?_, ?_, ?_, ?_, trivial⟩⟩
  all_goals exact heeds_of_check (by decide +kernel) (by decide +kernel)

end Examples

end Kmatrix.E2ee.OneTimeKeys
