import Kmatrix.E2ee.Base58
import Kmatrix.E2ee.Restart

/-! # Two ways to enter a backup key

The user types the recovery key, or another device shares the key in base64. The two texts have nothing in
common, but whatever spells the same key (`Spells`, `SpellsBase64`) is worth the same: `entries_agree` says
that the two calls cannot be told apart but for the text of their errors, that the key is then in memory and
on disk and a start comes back to it, and that a failure leaves everything as it was. -/

namespace Kmatrix.E2ee.Entries

open Kmatrix.Lib Kmatrix.Lib.Crash Kmatrix.E2ee.Effects Kmatrix.E2ee.Sessions Kmatrix.E2ee.Secrets
open Kmatrix.E2ee.Recovery Kmatrix.E2ee.Stored Kmatrix.E2ee.Base58 Kmatrix.E2ee.Restart
open Kmatrix.Storage Kmatrix.Storage.Seal Kmatrix.Storage.Schema
open Kmatrix.Storage.Write (StoreOp)
open Kmatrix.Sync.Events (isWhitespace)

/-- **A spelling of a recovery key**, whitespace anywhere. -/
def Spells (s : String) (k : Key) : Prop := compact s = base58Encode (recoveryBytes k)

/-- **A key in base64**, padded or not, whitespace around it. -/
def SpellsBase64 (t : String) (k : Key) : Prop :=
  ∃ before body after, t.toList = before ++ body ++ after ∧
    (∀ c ∈ before, isWhitespace c = true) ∧ (∀ c ∈ after, isWhitespace c = true) ∧
    (body = Base64.encode k.1 ∨ body = Base64.encodeNoPad k.1)

section Statement
variable {S : CipherSuite} {Q Ω N : Type} {R : Q → Type} (serve : N → Ω → (q : Q) → R q × Ω) (V : Vodozemac)

/-- A call that came to an end: whether it succeeded, and the memory. -/
abbrev Ended (S : CipherSuite) (Ω : Type) : Type := Option (Except String Unit × Crypto) × World S Ω

/-- The recovery key is typed. -/
def typed (w : World S Ω) (c : Crypto) (s publicKey : String) (os : List (Outcome N)) : Ended S Ω :=
  run (exec serve) ((setBackupKey V s publicKey : Code S R Crypto Unit).run c) w os

/-- The key is shared. -/
def shared (w : World S Ω) (c : Crypto) (t : String) (publicKey : Option String) (os : List (Outcome N)) :
    Ended S Ω :=
  run (exec serve) ((setBackupKeyBase64 V t publicKey : Code S R Crypto Unit).run c) w os

/-- All but the text of an error. -/
def outline (r : Ended S Ω) : Option (Option Unit × Crypto) × World S Ω :=
  (r.1.map fun x => (x.1.toOption, x.2), r.2)

/-- **The key is adopted**: it is in `meta` and in memory, and every start that succeeds comes back to it. -/
structure Adopted (k : Key) (w' : World S Ω) (c' : Crypto) : Prop where
  row : Read.getMeta w'.disk backupKeyMeta = .ok (some (keyText k))
  held : c'.backupKey = some k
  restart : ∀ os c'' w'',
    run (exec serve) ((loadOrCreate V : Code S R Unit Crypto).run ()) w' os = (some (.ok c'', ()), w'') →
      c''.backupKey = some k

end Statement

/-! ### The two decoders -/

theorem trimEnd_append {p : Char → Bool} {body after : List Char} (hafter : ∀ c ∈ after, p c = true)
    (hbody : ∀ c ∈ body, p c = false) : trimEnd p (body ++ after) = body := by
  have hrest : body.reverse.dropWhile p = body.reverse := by
    rcases hbody' : body.reverse with _ | ⟨c, rest⟩
    · rfl
    · have hc : c ∈ body := List.mem_reverse.mp (hbody' ▸ List.mem_cons_self)
      rw [List.dropWhile_cons_of_neg (by simp [hbody c hc])]
  unfold trimEnd
  rw [List.reverse_append, List.dropWhile_append_of_pos fun c hc => hafter c (List.mem_reverse.mp hc), hrest,
    List.reverse_reverse]

/-- `trim()`. -/
theorem trim_append {p : Char → Bool} {before body after : List Char} (hbefore : ∀ c ∈ before, p c = true)
    (hbody : ∀ c ∈ body, p c = false) (hafter : ∀ c ∈ after, p c = true) :
    trimEnd p ((before ++ (body ++ after)).dropWhile p) = body := by
  rw [List.dropWhile_append_of_pos hbefore]
  rcases body with _ | ⟨c, body⟩
  · have hnone : after.dropWhile p = [] := by
      rw [← List.append_nil after, List.dropWhile_append_of_pos hafter, List.dropWhile_nil]
    rw [List.nil_append, hnone]
    rfl
  · rw [List.cons_append, List.dropWhile_cons_of_neg (by simp [hbody c List.mem_cons_self]), ← List.cons_append]
    exact trimEnd_append hafter hbody

theorem isWhitespace_encode {bytes : Bytes} {c : Char} (hc : c ∈ Base64.encode bytes) : isWhitespace c = false := by
  have halphabet : Base64.alphabet.all (fun c => isWhitespace c = false) = true := by decide +kernel
  rcases Base64.mem_encode hc with h | rfl
  · exact of_decide_eq_true (List.all_eq_true.mp halphabet c h)
  · decide

/-- What is left of a key in base64 is its unpadded form. -/
theorem unpadded_of_spells {t : String} {k : Key} (h : SpellsBase64 t k) :
    unpadded t = Base64.encodeNoPad k.1 := by
  obtain ⟨before, body, after, ht, hbefore, hafter, hbody⟩ := h
  have hpad : ∃ n, body = Base64.encodeNoPad k.1 ++ List.replicate n '=' := by
    rcases hbody with rfl | rfl
    · exact ⟨_, Base64.encode_eq_append k.1⟩
    · exact ⟨0, by rw [List.replicate_zero, List.append_nil]⟩
  have hspace : ∀ c ∈ body, isWhitespace c = false := by
    intro c hc
    rcases hbody with rfl | rfl
    · exact isWhitespace_encode hc
    · exact isWhitespace_encode ((List.takeWhile_sublist _).subset hc)
  obtain ⟨n, hn⟩ := hpad
  have hraw : ∀ c ∈ Base64.encodeNoPad k.1, decide (c = '=') = false := by
    rintro c hc
    rw [decide_eq_false_iff_not]
    rintro rfl
    exact Base64.not_mem_encodeNoPad k.1 hc
  unfold unpadded
  rw [ht, List.append_assoc, trim_append hbefore hspace hafter, hn]
  exact trimEnd_append (fun c hc => decide_eq_true (List.eq_of_mem_replicate hc)) hraw

theorem decodeSharedKey_of_spells {t : String} {k : Key} (h : SpellsBase64 t k) : decodeSharedKey t = .ok k := by
  unfold decodeSharedKey
  rw [unpadded_of_spells h, Base64.decodeNoPad_encodeNoPad]
  exact dif_pos k.2

/-! ### The two calls -/

section Calls
variable {S : CipherSuite} {Q Ω N : Type} {R : Q → Type} {serve : N → Ω → (q : Q) → R q × Ω} {V : Vodozemac}
  {w w' : World S Ω} {c c' : Crypto} {k : Key}

/-- What is done with a key that passed. -/
def keep (k : Key) : Code S R Crypto Unit := do
  setMeta backupKeyMeta (keyText k)
  Act.modify fun c => { c with backupKey := some k }

/-- The two comparisons are one. -/
theorem compare_agree (k : Key) (publicKey : String) :
    (compareRecoveryKey V k publicKey).toOption = (comparePublicKey V k (some publicKey)).toOption := by
  unfold compareRecoveryKey comparePublicKey
  dsimp only
  split_ifs
  · rfl
  · rfl

/-- A check that fails ends the call. -/
theorem run_check {r : Except String Unit} {code : Code S R Crypto Unit} (os : List (Outcome N)) :
    run (exec serve) ((Act.ofExcept r >>= fun _ => code : Code S R Crypto Unit).run c) w os =
      match r with
      | .ok _ => run (exec serve) (code.run c) w os
      | .error e => (some (.error e, c), w) := by
  rcases r with e | u
  · rfl
  · rfl

theorem typed_of_spells {s : String} (h : Spells s k) (publicKey : String) (os : List (Outcome N)) :
    typed serve V w c s publicKey os =
      run (exec serve) ((Act.ofExcept (compareRecoveryKey V k publicKey) >>= fun _ => keep k :
        Code S R Crypto Unit).run c) w os := by
  have hk := (decodeRecoveryKey_iff s k).2 h
  unfold typed setBackupKey
  rw [hk]
  rfl

theorem shared_of_spells {t : String} (h : SpellsBase64 t k) (publicKey : Option String) (os : List (Outcome N)) :
    shared serve V w c t publicKey os =
      run (exec serve) ((Act.ofExcept (comparePublicKey V k publicKey) >>= fun _ => keep k :
        Code S R Crypto Unit).run c) w os := by
  have hk := decodeSharedKey_of_spells h
  unfold shared setBackupKeyBase64
  rw [hk]
  rfl

/-- **Nobody can tell how a key was entered.** -/
theorem outline_agree {s t : String} (hs : Spells s k) (ht : SpellsBase64 t k) (publicKey : String)
    (os : List (Outcome N)) :
    outline (typed serve V w c s publicKey os) = outline (shared serve V w c t (some publicKey) os) := by
  have hcompare := compare_agree (V := V) k publicKey
  rw [typed_of_spells hs, shared_of_spells ht, run_check, run_check]
  rcases hr : compareRecoveryKey V k publicKey with e | u
  · rcases hr' : comparePublicKey V k (some publicKey) with e' | u'
    · rfl
    · rw [hr, hr'] at hcompare
      cases hcompare
  · rcases hr' : comparePublicKey V k (some publicKey) with e' | u'
    · rw [hr, hr'] at hcompare
      cases hcompare
    · rfl

/-- The key is written and held, or nothing is. -/
theorem safe_keep :
    Safe (exec serve) (fun w' => w' = w)
      (fun r w' => (∀ e, r.1 = .error e → r.2 = c ∧ w' = w) ∧
        (r.1 = .ok () → r.2 = { c with backupKey := some k } ∧
          ∃ rng, w' = { w with disk := (StoreOp.setMeta backupKeyMeta (keyText k)).exec rng w.disk }))
      ((keep k : Code S R Crypto Unit).run c) w := by
  unfold keep
  rw [Act.safe_bind]
  refine safe_put rfl (fun e => ⟨fun _ _ => ⟨rfl, rfl⟩, fun h => by cases h⟩) fun rng => ?_
  rw [Act.then_ok, Act.safe_modify]
  exact ⟨fun e h => (by cases h), fun _ => ⟨rfl, rng, rfl⟩⟩

/-- **A call that fails** changes nothing, whatever was entered. -/
theorem safe_entered (key : Except String Key) (check : Key → Except String Unit) :
    Safe (exec serve) (fun w' => w' = w) (fun r w' => ∀ e, r.1 = .error e → r.2 = c ∧ w' = w)
      ((Act.ofExcept key >>= fun k => Act.ofExcept (check k) >>= fun _ => keep k : Code S R Crypto Unit).run c)
      w := by
  rw [Act.safe_bind, Act.safe_ofExcept]
  rcases key with e | k
  · exact fun _ _ => ⟨rfl, rfl⟩
  · rw [Act.then_ok, Act.safe_bind, Act.safe_ofExcept]
    rcases check k with e | u
    · exact fun _ _ => ⟨rfl, rfl⟩
    · rw [Act.then_ok]
      exact safe_keep.mono fun r w' h => h.1

theorem unchanged_typed {s publicKey e : String} {os : List (Outcome N)}
    (h : typed serve V w c s publicKey os = (some (.error e, c'), w')) : c' = c ∧ w' = w :=
  ((safe_entered (decodeRecoveryKey s) fun k => compareRecoveryKey V k publicKey).run os).1 _ w' h e rfl

theorem unchanged_shared {t e : String} {publicKey : Option String} {os : List (Outcome N)}
    (h : shared serve V w c t publicKey os = (some (.error e, c'), w')) : c' = c ∧ w' = w :=
  ((safe_entered (decodeSharedKey t) fun k => comparePublicKey V k publicKey).run os).1 _ w' h e rfl

/-! ### The next start -/

/-- What a start writes is not the row of the backup key. -/
theorem getMeta_primed {st st' : Store S} (h : Primed st st') {key : String} (hkey : key ≠ pickleKeyMeta) :
    Read.getMeta st' key = Read.getMeta st key := by
  induction h with
  | same => rfl
  | key rng _ _ => exact getMeta_setMeta_of_ne hkey rng _ _
  | account _ _ rng pickle ih => exact ih

/-- **A start comes back to the key** that is in `meta`. -/
theorem restart_of_row (hrow : Read.getMeta w.disk backupKeyMeta = .ok (some (keyText k)))
    {os : List (Outcome N)} {w'' : World S Ω}
    (h : run (exec serve) ((loadOrCreate V : Code S R Unit Crypto).run ()) w os = (some (.ok c', ()), w'')) :
    c'.backupKey = some k := by
  obtain ⟨⟨hafter, -⟩, hfound⟩ := ((safe_loadOrCreate_loaded.and safe_loadOrCreate_backupKey).run os).1 _ w'' h
  obtain ⟨found, hread, hc⟩ := hfound c' rfl
  rw [getMeta_primed hafter.1 (by decide), hrow] at hread
  rw [hc, ← Except.ok.inj hread, loadBackupKey, Option.bind_some, decodeKey_keyText]
  rfl

theorem adopted_of_row (hrow : Read.getMeta w.disk backupKeyMeta = .ok (some (keyText k)))
    (hheld : c.backupKey = some k) : Adopted serve V k w c :=
  ⟨hrow, hheld, fun _ _ _ h => restart_of_row hrow h⟩

theorem adopted_typed {s publicKey : String} (hs : Spells s k) {os : List (Outcome N)}
    (h : typed serve V w c s publicKey os = (some (.ok (), c'), w')) : Adopted serve V k w' c' := by
  rw [typed_of_spells hs, run_check] at h
  rcases hr : compareRecoveryKey V k publicKey with e | u
  · rw [hr] at h
    cases h
  · rw [hr] at h
    obtain ⟨hheld, rng, rfl⟩ := (safe_keep.run os).1 _ w' h |>.2 rfl
    have hlabel : secretMetaLabel backupKeyMeta = some "meta.backup_key" := by decide
    have hrow := getMeta_setMeta hlabel (startsWith_keyText k) rng w.disk
    exact adopted_of_row hrow (congrArg Crypto.backupKey hheld)

/-- What holds of the one holds of the other. -/
theorem adopted_shared {s t publicKey : String} (hs : Spells s k) (ht : SpellsBase64 t k)
    {os : List (Outcome N)} (h : shared serve V w c t (some publicKey) os = (some (.ok (), c'), w')) :
    Adopted serve V k w' c' := by
  have houtline : outline (typed serve V w c s publicKey os) = outline (shared serve V w c t (some publicKey) os) :=
    outline_agree hs ht publicKey os
  rw [h] at houtline
  rcases htyped : typed serve V w c s publicKey os with ⟨_ | ⟨e | u, c''⟩, w''⟩
  · rw [htyped] at houtline
    cases houtline
  · rw [htyped] at houtline
    cases houtline
  · rw [htyped] at houtline
    obtain ⟨hc, hw⟩ := Prod.mk.inj houtline
    obtain ⟨-, rfl⟩ := Prod.mk.inj (Option.some.inj hc)
    obtain rfl : w'' = w' := hw
    exact adopted_typed hs htyped

end Calls

/-- **The two ways to enter a backup key agree.** For a spelling of the key each, over the same store and under
the same outcomes, the two calls both succeed or both fail and leave the same memory and the same disk; on
success the key is adopted; and a call that fails changes nothing, whatever was entered. -/
theorem entries_agree {S : CipherSuite} {Q Ω N : Type} {R : Q → Type} (serve : N → Ω → (q : Q) → R q × Ω)
    (V : Vodozemac) (w : World S Ω) (c : Crypto) (publicKey : String) (os : List (Outcome N)) :
    (∀ k s t, Spells s k → SpellsBase64 t k →
      outline (typed serve V w c s publicKey os) = outline (shared serve V w c t (some publicKey) os) ∧
      (∀ c' w', typed serve V w c s publicKey os = (some (.ok (), c'), w') → Adopted serve V k w' c') ∧
      ∀ c' w', shared serve V w c t (some publicKey) os = (some (.ok (), c'), w') → Adopted serve V k w' c') ∧
    (∀ s e c' w', typed serve V w c s publicKey os = (some (.error e, c'), w') → c' = c ∧ w' = w) ∧
    ∀ t e c' w', shared serve V w c t (some publicKey) os = (some (.error e, c'), w') → c' = c ∧ w' = w := by
  refine ⟨fun k s t hs ht => ⟨outline_agree hs ht publicKey os, fun c' w' h => adopted_typed hs h,
    fun c' w' h => adopted_shared hs ht h⟩, fun s e c' w' h => unchanged_typed h, fun t e c' w' h =>
    unchanged_shared h⟩

/-! ### A key of zeros -/

section Example

/-- As a client shows it. -/
def inBlocks : String := "EsSz ygLv VP1b xF1C v7kE eBQx MxDP buG5 w25T L3b6 hfyG Kkrd"

/-- As a device shares it. -/
def padded : String := " AAAAAAAAAAAAAAAAAAAAAAAAAAAAAAAAAAAAAAAAAAA=\n"

theorem spells_inBlocks : Spells inBlocks zeroKey := by
  unfold Spells
  decide +kernel

theorem spellsBase64_padded : SpellsBase64 padded zeroKey := by
  refine ⟨[' '], Base64.encode zeroKey.1, ['\n'], by decide +kernel, fun c hc => ?_, fun c hc => ?_, Or.inl rfl⟩
  · rw [List.mem_singleton.mp hc]
    decide
  · rw [List.mem_singleton.mp hc]
    decide

abbrev typedHere : Ended copySuite Unit :=
  typed Megolm.unserved bobVodozemac ⟨blankStore, 0, ()⟩ newCrypto inBlocks "public" [calm ()]

abbrev sharedHere : Ended copySuite Unit :=
  shared Megolm.unserved bobVodozemac ⟨blankStore, 0, ()⟩ newCrypto padded (some "public") [calm ()]

theorem entries_agree_zeros :
    (typedHere.1.any fun r => r.1.isOk) = true ∧ outline typedHere = outline sharedHere ∧
      ∀ c' w', sharedHere = (some (.ok (), c'), w') → Adopted Megolm.unserved bobVodozemac zeroKey w' c' := by
  obtain ⟨hagree, -, hshared⟩ :=
    (entries_agree Megolm.unserved bobVodozemac (⟨blankStore, 0, ()⟩ : World copySuite Unit) newCrypto "public"
      [calm ()]).1 zeroKey inBlocks padded spells_inBlocks spellsBase64_padded
  exact ⟨by decide +kernel, hagree, hshared⟩

end Example

end Kmatrix.E2ee.Entries
