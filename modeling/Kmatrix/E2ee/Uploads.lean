import Kmatrix.E2ee.OneTimeKeys
import Kmatrix.E2ee.Megolm

/-! # The bodies of uploads

`keys_upload_body` makes as many one-time keys as the server lacks, and then lists all that were not
published. What an earlier upload left unpublished it neither counts nor waits for: after an upload that
failed, the next body is too large and is not the one that failed. -/

namespace Kmatrix.E2ee.Uploads

open Kmatrix.Lib.Crash Kmatrix.E2ee.Ratchets Kmatrix.E2ee.Json Kmatrix.E2ee.Effects
open Kmatrix.E2ee.Sessions Kmatrix.E2ee.OneTimeKeys Kmatrix.Storage Kmatrix.Storage.Seal
open Kmatrix.Storage.Schema

/-! ### The body as it is sent -/

section Body
variable (sign : String → String) (keyIdText : ℕ → String) (session : Session)

/-- `signatures_for`. -/
def signaturesFor (signature : String) : Value :=
  .obj [(session.userId, .obj [("ed25519:" ++ session.deviceId, .str signature)])]

/-- `signed_device_keys`. -/
def signedDeviceKeys (keys : DeviceKeys) : Value :=
  let members : List (String × Value) :=
    [("algorithms", .arr [.str olmAlgorithm, .str megolmAlgorithm]), ("device_id", .str keys.deviceId),
      ("keys", .obj [("curve25519:" ++ keys.deviceId, .str keys.curve25519Key),
        ("ed25519:" ++ keys.deviceId, .str keys.ed25519Key)]), ("user_id", .str keys.userId)]
  .obj (insertMember "signatures" (signaturesFor session (sign (canonicalJson (.obj members)))) members)

/-- A one-time key under its id. -/
def signedOneTimeKey (k : ℕ × String) : String × Value :=
  ("signed_curve25519:" ++ keyIdText k.1,
    .obj [("key", .str k.2),
      ("signatures", signaturesFor session (sign (canonicalJson (.obj [("key", .str k.2)]))))])

/-- **The text of a `/keys/upload`**, signed with our key. -/
def bodyText (body : UploadBody) : String :=
  let deviceKeys := body.deviceKeys.toList.map fun keys => ("device_keys", signedDeviceKeys sign session keys)
  let oneTimeKeys := body.oneTimeKeys.foldl (fun keys k =>
    insertMember (signedOneTimeKey sign keyIdText session k).1 (signedOneTimeKey sign keyIdText session k).2
      keys) []
  canonicalJsonVerbatim (.obj (deviceKeys ++
    if body.oneTimeKeys.isEmpty then [] else [("one_time_keys", .obj oneTimeKeys)]))

end Body

/-! ### Attempts -/

/-- A call of `keys_upload_body`, and whether its upload succeeds. -/
structure Attempt where
  session : Session
  have' : ℕ
  includeDeviceKeys : Bool
  uploaded : Bool

/-- The arguments are the same. -/
def Attempt.Repeats (a b : Attempt) : Prop :=
  a.session = b.session ∧ a.have' = b.have' ∧ a.includeDeviceKeys = b.includeDeviceKeys

section Code
variable {S : CipherSuite} {Q : Type} {R : Q → Type} (V : Vodozemac) (most limit : ℕ)

/-- The body; once it is uploaded its keys are marked. -/
def attempt (a : Attempt) : Code S R Crypto (Option UploadBody) := do
  let body ← keysUploadBody V most limit a.session a.have' a.includeDeviceKeys
  if a.uploaded && body.isSome then
    let _ ← Act.attempt markPublished
  return body

/-- The code of an attempt, with the body that it made. -/
def Attempt.code (a : Attempt) (c : Crypto) :
    Prog (Effect Q) (Answer S R) (Option UploadBody × Crypto) :=
  ((attempt V most limit a).run c).bind fun r => .ret (r.1.toOption.join, r.2)

end Code

/-! ### What is claimed, and when it holds -/

section Claim
variable {S : CipherSuite} {Q Ω N : Type} {R : Q → Type} (serve : N → Ω → (q : Q) → R q × Ω)
  (V : Vodozemac) (most limit : ℕ) (sign : String → String) (keyIdText : ℕ → String)

/-- **The top-up is exact**: no body has more one-time keys than the server lacks. -/
def TopsUp (past : List (Attempt × Option UploadBody)) : Prop :=
  ∀ a body, (a, some body) ∈ past → body.oneTimeKeys.length ≤ otkTarget - a.have'

/-- **It is stable**: an attempt that failed, when it is made again, has the same text. -/
def RetryStable (past : List (Attempt × Option UploadBody)) : Prop :=
  ∀ before a body b body' after, past = before ++ (a, body) :: (b, body') :: after →
    a.uploaded = false → a.Repeats b →
      body'.map (bodyText sign keyIdText b.session) = body.map (bodyText sign keyIdText a.session)

/-- The keys that are not published, and that the library does not discard when it makes `n` more. -/
def leftOver (limit : ℕ) (account : Account) (n : ℕ) : List OneTimeKey :=
  (account.oneTimeKeys.drop (min n (account.oneTimeKeys.length + n - limit))).filter fun k => !k.published

/-- **The condition on an attempt**: what is left over from earlier ones fits in beside the new keys, and
one that repeats an attempt that failed makes no new keys. -/
def Fits (p : Process (World S Ω) Crypto Attempt (Option UploadBody)) (event : Event Attempt (Outcome N)) :
    Prop :=
  ∀ a os, event = .call a os →
    (∀ c, p.memory = some c →
      (leftOver limit c.account (wanted most a.have')).length + wanted most a.have' ≤
        otkTarget - a.have') ∧
    ∀ b body, p.returned.getLast? = some (b, body) → b.uploaded = false → b.Repeats a →
      wanted most a.have' = 0

/-- A run of attempts, one after the other. -/
abbrev attempts (p : Process (World S Ω) Crypto Attempt (Option UploadBody))
    (calls : List (Attempt × List (Outcome N))) : Process (World S Ω) Crypto Attempt (Option UploadBody) :=
  Process.runs (exec serve) (boot V) (Attempt.code V most limit) p
    (calls.map fun call => .call call.1 call.2)

/-- All of them meet the condition. -/
abbrev FitsAll (p : Process (World S Ω) Crypto Attempt (Option UploadBody))
    (calls : List (Attempt × List (Outcome N))) : Prop :=
  Process.Within (exec serve) (boot V) (Attempt.code V most limit) (Fits most limit) p
    (calls.map fun call => .call call.1 call.2)

end Claim

/-! ### The keys in a body -/

section Keys
variable {limit : ℕ} {account : Account}

/-- **What there is after keys are made**: what is not discarded, and new ones. -/
theorem sublist_generate (keys : List String) : ∃ made : List OneTimeKey, made.length = keys.length ∧
    (account.generateOneTimeKeys limit keys).oneTimeKeys.Sublist
      (account.oneTimeKeys.drop (min keys.length (account.oneTimeKeys.length + keys.length - limit)) ++
        made) := by
  induction keys generalizing account with
  | nil => exact ⟨[], rfl, by simp [Account.generateOneTimeKeys]⟩
  | cons key keys ih =>
    obtain ⟨made, hlen, hsub⟩ := @ih (account.generateOne limit key)
    obtain ⟨e, he⟩ := @drop_generateOne account limit key keys.length
    refine ⟨⟨account.nextKeyId, key, false⟩ :: made, by simp [hlen], hsub.trans ?_⟩
    rw [he, List.append_assoc]
    exact (List.Sublist.refl _).append ((List.drop_sublist e [_]).append (List.Sublist.refl made))

/-- The keys to publish are those left over, and the new ones. -/
theorem unpublished_generate (keys : List String) :
    (account.generateOneTimeKeys limit keys).unpublished.length ≤
      (leftOver limit account keys.length).length + keys.length := by
  obtain ⟨made, hlen, hsub⟩ := @sublist_generate limit account keys
  have hle := (hsub.filter fun k => !k.published).length_le
  rw [List.filter_append, List.length_append] at hle
  have hmade := List.length_filter_le (fun k : OneTimeKey => !k.published) made
  rw [hlen] at hmade
  exact hle.trans (Nat.add_le_add_left hmade _)

/-- A body lists the keys to publish. -/
theorem length_uploadBody {c : Crypto} {session : Session} {includeDeviceKeys : Bool} {body : UploadBody}
    (h : uploadBody c session includeDeviceKeys = some body) :
    body.oneTimeKeys.length = c.account.unpublished.length := by
  unfold uploadBody at h
  dsimp only at h
  split_ifs at h
  all_goals
    obtain rfl := Option.some.inj h
    simp [List.length_insertionSort]

end Keys

/-! ### Runs -/

section Runs
variable {S : CipherSuite} {Q Ω N : Type} {R : Q → Type} {serve : N → Ω → (q : Q) → R q × Ω}
  {V : Vodozemac} {most limit : ℕ} {sign : String → String} {keyIdText : ℕ → String} {w : World S Ω}
  {c : Crypto} {past : List (Attempt × Option UploadBody)}

/-- **One attempt**: the body is that of the memory after the keys are made, which is the memory left
unless they are marked. -/
theorem safe_attempt_body (a : Attempt) :
    Safe (exec serve) (fun _ => True)
      (fun r _ => ∃ c', r.1 = .ok (uploadBody c' a.session a.includeDeviceKeys) ∧
        (a.uploaded = false → r.2 = c') ∧ (wanted most a.have' = 0 → c' = c) ∧
        c'.account.unpublished.length ≤
          (leftOver limit c.account (wanted most a.have')).length + wanted most a.have')
      ((attempt V most limit a : Code S R Crypto (Option UploadBody)).run c) w := by
  -- what follows once the keys are made
  have hrest : ∀ (c' : Crypto) (w' : World S Ω), (wanted most a.have' = 0 → c' = c) →
      c'.account.unpublished.length ≤
        (leftOver limit c.account (wanted most a.have')).length + wanted most a.have' →
      Safe (exec serve) (fun _ => True)
        (fun r _ => ∃ c', r.1 = .ok (uploadBody c' a.session a.includeDeviceKeys) ∧
          (a.uploaded = false → r.2 = c') ∧ (wanted most a.have' = 0 → c' = c) ∧
          c'.account.unpublished.length ≤
            (leftOver limit c.account (wanted most a.have')).length + wanted most a.have')
        ((do
          if a.uploaded && (uploadBody c' a.session a.includeDeviceKeys).isSome then
            let _ ← Act.attempt markPublished
          return uploadBody c' a.session a.includeDeviceKeys :
            Code S R Crypto (Option UploadBody)).run c') w' := by
    intro c' w' hsame hlen
    split_ifs with hup
    · have hnot : a.uploaded = false → { c' with account := c'.account.markKeysAsPublished } = c' := by
        intro hno
        rw [hno] at hup
        cases hup
      unfold markPublished persistAccount putPickle
      simp only [Act.safe_bind, Act.safe_attempt, Act.safe_modify, Act.safe_get, Act.then_ok]
      refine safe_put trivial (fun e => ?_) fun rng => ?_
      · exact ⟨c', rfl, hnot, hsame, hlen⟩
      · exact ⟨c', rfl, hnot, hsame, hlen⟩
    · exact ⟨c', rfl, fun _ => rfl, hsame, hlen⟩
  unfold attempt keysUploadBody
  dsimp only
  split_ifs with hwanted
  · simp only [Act.safe_bind]
    refine safe_draw trivial ?_
    simp only [Act.then_ok, Act.safe_bind, Act.safe_modify, Act.safe_get, Act.safe_pure]
    refine hrest _ _ (fun hnone => absurd hnone hwanted.ne') ?_
    have hlen := @unpublished_generate limit c.account
      ((List.range (wanted most a.have')).map fun i => V.oneTimeKey (w.drawn + i))
    rw [List.length_map, List.length_range] at hlen
    exact hlen
  · simp only [Act.safe_bind, Act.then_ok, Act.safe_get, Act.safe_pure]
    refine hrest _ _ (fun _ => rfl) ?_
    have hnone : wanted most a.have' = 0 := Nat.eq_zero_of_not_pos hwanted
    rw [hnone]
    unfold leftOver Account.unpublished
    simp

/-- What holds of the memory between attempts: where the last one failed, the body that the memory gives
is the one it made. -/
structure Kept (sign : String → String) (keyIdText : ℕ → String)
    (past : List (Attempt × Option UploadBody)) (c : Crypto) : Prop where
  exact' : TopsUp past
  stable : RetryStable sign keyIdText past
  last : ∀ b body, past.getLast? = some (b, body) → b.uploaded = false →
    body = uploadBody c b.session b.includeDeviceKeys

/-- **An attempt that meets the condition** keeps it. -/
theorem Kept.concat (h : Kept sign keyIdText past c) {a : Attempt} {c' left : Crypto}
    (hleft : a.uploaded = false → left = c') (hsame : wanted most a.have' = 0 → c' = c)
    (hlen : c'.account.unpublished.length ≤ otkTarget - a.have')
    (hrepeat : ∀ b body, past.getLast? = some (b, body) → b.uploaded = false → b.Repeats a →
      wanted most a.have' = 0) :
    Kept sign keyIdText (past ++ [(a, uploadBody c' a.session a.includeDeviceKeys)]) left where
  exact' b body hmem := by
    rcases List.mem_append.mp hmem with hmem | hmem
    · exact h.exact' b body hmem
    · obtain ⟨rfl, hbody⟩ := Prod.mk.inj (List.mem_singleton.mp hmem)
      rw [length_uploadBody hbody.symm]
      exact hlen
  stable before b body b' body' after hpast hfailed hrep := by
    rcases after.eq_nil_or_concat with rfl | ⟨after, last, rfl⟩
    · -- the new attempt repeats the last one, and makes no keys
      have hsplit : before ++ [(b, body), (b', body')] = (before ++ [(b, body)]) ++ [(b', body')] := by
        simp
      rw [hsplit] at hpast
      obtain ⟨rfl, hnew⟩ := List.append_inj' hpast rfl
      obtain ⟨rfl, rfl⟩ := Prod.mk.inj (List.singleton_inj.mp hnew)
      have hlast : (before ++ [(b, body)]).getLast? = some (b, body) := List.getLast?_concat
      rw [hsame (hrepeat b body hlast hfailed hrep), h.last b body hlast hfailed, hrep.1, hrep.2.2]
    · refine h.stable before b body b' body' after ?_ hfailed hrep
      have hsplit : before ++ (b, body) :: (b', body') :: after.concat last =
          (before ++ (b, body) :: (b', body') :: after) ++ [last] := by
        simp
      rw [hsplit] at hpast
      exact (List.append_inj' hpast rfl).1
  last b body hlast hfailed := by
    rw [List.getLast?_concat] at hlast
    obtain ⟨rfl, rfl⟩ := Prod.mk.inj (Option.some.inj hlast)
    rw [hleft hfailed]

/-- **A run of attempts that meet the condition** keeps it. -/
theorem holds_attempts {p : Process (World S Ω) Crypto Attempt (Option UploadBody)}
    (hp : p.Holds (fun past _ => TopsUp past ∧ RetryStable sign keyIdText past)
      fun past _ c => Kept sign keyIdText past c)
    {calls : List (Attempt × List (Outcome N))} (h : FitsAll serve V most limit p calls) :
    (attempts serve V most limit p calls).Holds (fun past _ => TopsUp past ∧ RetryStable sign keyIdText past)
      fun past _ c => Kept sign keyIdText past c := by
  induction calls generalizing p with
  | nil => exact hp
  | cons call calls ih =>
    obtain ⟨a, os⟩ := call
    refine ih (hp.called (C := fun _ => True) (fun _ _ _ hkept => ⟨hkept.exact', hkept.stable⟩)
      (fun c hc => ?_) trivial) h.2
    obtain ⟨hfits, hrepeat⟩ := h.1 a os rfl
    have hkept := hp.2 c hc
    unfold Attempt.code
    rw [safe_bind]
    refine ((safe_attempt_body a).recorded []).weaken (fun _ _ _ => hp.1) ?_
    rintro ⟨r, left⟩ x ⟨⟨c', hr, hleft, hsame, hlen⟩, -⟩ _
    obtain rfl : r = _ := hr
    exact hkept.concat hleft hsame (hlen.trans (hfits c hc)) hrepeat

variable (serve V most limit sign keyIdText)

/-- **The top-up is exact and stable** in every run whose attempts meet the condition. -/
theorem topsUp_retryStable_of_fits (w : World S Ω) (c : Crypto)
    (calls : List (Attempt × List (Outcome N))) (h : FitsAll serve V most limit ⟨w, some c, []⟩ calls) :
    TopsUp (attempts serve V most limit ⟨w, some c, []⟩ calls).returned ∧
      RetryStable sign keyIdText (attempts serve V most limit ⟨w, some c, []⟩ calls).returned := by
  have hnew : Kept sign keyIdText [] c := by
    refine ⟨fun a body hmem => by simp at hmem, ?_, fun b body hlast => by simp at hlast⟩
    intro before b body b' body' after hpast
    simp at hpast
  refine (holds_attempts ⟨⟨hnew.exact', hnew.stable⟩, fun m hm => ?_⟩ h).1
  rw [← Option.some.inj hm]
  exact hnew

end Runs

/-! ### An upload that fails -/

section Examples

def ourSession : Session := ⟨"https://example.org", "@us", "DEVICE", "token"⟩

/-- A call when the server has 48 keys. -/
def toppedUp (uploaded : Bool) : Attempt × List (Outcome Unit) :=
  (⟨ourSession, 48, false, uploaded⟩, List.replicate 2 (calm ()))

/-- Attempts with a new account, and the library over its usual limits. -/
abbrev after (calls : List (Attempt × List (Outcome Unit))) :
    Process (World copySuite Unit) Crypto Attempt (Option UploadBody) :=
  attempts Megolm.unserved (plainVodozemac [] []) 50 5000 ⟨⟨blankStore, 0, ()⟩, some newCrypto, []⟩ calls

/-- **The second body has four keys where two are wanted, and is another one.** -/
theorem not_topsUp_retryStable_failed :
    ¬ TopsUp (after [toppedUp false, toppedUp false]).returned ∧
      ¬ RetryStable (fun _ => "signature") Nat.repr (after [toppedUp false, toppedUp false]).returned := by
  have hpast : (after [toppedUp false, toppedUp false]).returned =
      [((toppedUp false).1, some ⟨none, [(0, ""), (1, "k")]⟩),
        ((toppedUp false).1, some ⟨none, [(0, ""), (1, "k"), (2, "kk"), (3, "kkk")]⟩)] := by
    rfl
  rw [hpast]
  refine ⟨fun h => ?_, fun h => ?_⟩
  · have hlen := h (toppedUp false).1 _ (List.mem_cons_of_mem _ (List.mem_singleton_self _))
    exact absurd hlen (by decide +kernel)
  · have htext := h [] (toppedUp false).1 _ (toppedUp false).1 _ [] rfl rfl ⟨rfl, rfl, rfl⟩
    exact absurd htext (by decide +kernel)

/-- Two keys are uploaded; what the server then says it has leaves nothing to make, and an upload of the
device keys is repeated. -/
def inOrder : List (Attempt × List (Outcome Unit)) :=
  [toppedUp true, (⟨ourSession, 50, true, false⟩, []), (⟨ourSession, 50, true, false⟩, [])]

/-- An attempt that leaves room, after one that succeeded or without new keys. -/
theorem fits_of_check {p : Process (World copySuite Unit) Crypto Attempt (Option UploadBody)} {a : Attempt}
    {os : List (Outcome Unit)}
    (hfew : (p.memory.all fun c => decide ((leftOver 5000 c.account (wanted 50 a.have')).length +
      wanted 50 a.have' ≤ otkTarget - a.have')) = true)
    (hrepeat : (p.returned.getLast?.all fun last => last.1.uploaded) = true ∨ wanted 50 a.have' = 0) :
    Fits 50 5000 p (.call a os) := by
  intro a' os' hevent
  obtain ⟨rfl, rfl⟩ := Event.call.inj hevent
  refine ⟨fun c hc => ?_, fun b body hlast hfailed _ => ?_⟩
  · rw [hc] at hfew
    exact of_decide_eq_true hfew
  · rcases hrepeat with hlast' | hnone
    · rw [hlast] at hlast'
      rw [show b.uploaded = true from hlast'] at hfailed
      cases hfailed
    · exact hnone

theorem topsUp_retryStable_inOrder : (after inOrder).returned.length = 3 ∧
    TopsUp (after inOrder).returned ∧
      RetryStable (fun _ => "signature") Nat.repr (after inOrder).returned := by
  refine ⟨by decide +kernel, topsUp_retryStable_of_fits _ _ _ _ _ _ _ _ _ ⟨?_, ?_, ?_, trivial⟩⟩
  · exact fits_of_check (by decide +kernel) (Or.inl (by decide +kernel))
  · exact fits_of_check (by decide +kernel) (Or.inl (by decide +kernel))
  · exact fits_of_check (by decide +kernel) (Or.inr (by decide +kernel))

end Examples

end Kmatrix.E2ee.Uploads
