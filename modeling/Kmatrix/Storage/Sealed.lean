import Kmatrix.Storage.Seal

/-! # Only what was sealed is accepted

Whoever can write to the database can put any text into a column. With a cipher that decrypts what it encrypted
and nothing else (`Inverse`), a text with the prefix opens to `p` only if it is what sealing `p` gives under the
same master key and some salt (`unseal_ok`); and whatever stands after the prefix, the bytes are
never cut where there are none (`checkedUnseal_eq`). -/

namespace Kmatrix.Storage.Sealed

open Kmatrix.Lib Kmatrix.Storage.Seal

/-- **An ideal cipher**: what decrypts is what was encrypted. -/
def Inverse (S : CipherSuite) : Prop := ∀ k c p, S.decrypt k c = .ok p → S.encrypt k p = c

/-! ### Slices that panic -/

/-- `split_at`: none past the end. -/
def splitAt (bytes : Bytes) (n : ℕ) : Option (Bytes × Bytes) :=
  if n ≤ bytes.length then some (bytes.take n, bytes.drop n) else none

/-- `copy_from_slice` into an array: none where the lengths differ. -/
def copyFromSlice (n : ℕ) (bytes : Bytes) : Option { b : Bytes // b.length = n } :=
  if h : bytes.length = n then some ⟨bytes, h⟩ else none

section
variable (S : CipherSuite)

/-- What is done with the parts of a blob. -/
def openParts (master : Key) (column : String) (salt : Salt) (mac ciphertext : Bytes) : Except String String :=
  if S.mac (valueCipher master salt) ciphertext = mac then
    match S.decrypt (valueCipher master salt) ciphertext with
    | .error e => .error ("decrypt " ++ column ++ ": " ++ e)
    | .ok plain =>
      match fromUtf8 plain with
      | none => .error ("decrypted " ++ column ++ " is not valid UTF-8")
      | some text => .ok text
  else .error (column ++
    " failed authentication: the stored value has been altered, or the store key does " ++
    "not belong to this database -- the data cannot be recovered without the key it was " ++
    "written with")

/-- **`unseal`, as it may panic.** The branches that take no slice are as they were. -/
def checkedUnseal (master : Option Key) (column stored : String) : Option (Except String String) :=
  match stripPrefix stored encPrefix, master with
  | some encoded, some master =>
    match Base64.decode encoded.toList with
    | some blob =>
      if blob.length < saltLen + macLen then some (unsealValue S (some master) column stored)
      else do
        let (salt, rest) ← splitAt blob saltLen
        let (mac, ciphertext) ← splitAt rest macLen
        let salt ← copyFromSlice 16 salt
        some (openParts S master column salt mac ciphertext)
    | none => some (unsealValue S (some master) column stored)
  | _, master => some (unsealValue S master column stored)

variable {S}

theorem unsealValue_of_blob {master : Key} {stored encoded : String} {blob : Bytes}
    (hencoded : stripPrefix stored encPrefix = some encoded) (hblob : Base64.decode encoded.toList = some blob)
    (hlong : ¬ blob.length < saltLen + macLen) (column : String) :
    unsealValue S (some master) column stored =
      openParts S master column ⟨blob.take saltLen, length_take_salt hlong⟩ ((blob.drop saltLen).take macLen)
        ((blob.drop saltLen).drop macLen) := by
  unfold unsealValue openParts
  rw [hencoded]
  dsimp only
  rw [hblob]
  dsimp only
  exact dif_neg hlong

/-- **Every slice is in bounds.** -/
theorem checkedUnseal_eq (master : Option Key) (column stored : String) :
    checkedUnseal S master column stored = some (unsealValue S master column stored) := by
  unfold checkedUnseal
  rcases hencoded : stripPrefix stored encPrefix with _ | encoded
  · rfl
  · rcases master with _ | master
    · rfl
    · dsimp only
      rcases hblob : Base64.decode encoded.toList with _ | blob
      · rfl
      · dsimp only
        by_cases hshort : blob.length < saltLen + macLen
        · rw [if_pos hshort]
        · have hsalt : saltLen ≤ blob.length := by omega
          have hmac : macLen ≤ (blob.drop saltLen).length := by
            rw [List.length_drop]
            omega
          rw [if_neg hshort, splitAt, if_pos hsalt, unsealValue_of_blob hencoded hblob hshort]
          simp only [Option.bind_eq_bind, Option.bind_some]
          rw [splitAt, if_pos hmac, Option.bind_some, copyFromSlice, dif_pos (length_take_salt hshort),
            Option.bind_some]

/-! ### What opens -/

theorem stripPrefix_eq_some {s p rest : String} (h : stripPrefix s p = some rest) : s = p ++ rest := by
  unfold stripPrefix at h
  split_ifs at h with hsealed
  obtain rfl := Option.some.inj h
  obtain ⟨tail, htail⟩ := List.isPrefixOf_iff_prefix.mp hsealed
  rw [← String.toList_inj, String.toList_append, String.toList_ofList, ← htail, List.drop_left]

theorem utf8_of_fromUtf8 {bytes : Bytes} {text : String} (h : fromUtf8 bytes = some text) : utf8 text = bytes := by
  unfold fromUtf8 String.fromUTF8? at h
  split_ifs at h with hvalid
  rw [← Option.some.inj h, utf8, String.toUTF8_eq_toByteArray]
  rfl

/-- The parts that open were made by sealing what they open to. -/
theorem openParts_ok (hS : Inverse S) {master : Key} {column p : String} {salt : Salt} {mac ciphertext : Bytes}
    (h : openParts S master column salt mac ciphertext = .ok p) :
    ciphertext = S.encrypt (valueCipher master salt) (utf8 p) ∧
      mac = S.mac (valueCipher master salt) ciphertext := by
  unfold openParts at h
  split_ifs at h with hmac
  rcases hplain : S.decrypt (valueCipher master salt) ciphertext with e | plain
  · rw [hplain] at h
    cases h
  · rw [hplain] at h
    dsimp only at h
    rcases htext : fromUtf8 plain with _ | text
    · rw [htext] at h
      cases h
    · rw [htext] at h
      obtain rfl : text = p := Except.ok.inj h
      rw [utf8_of_fromUtf8 htext]
      exact ⟨(hS _ _ _ hplain).symm, hmac.symm⟩

/-- A text whose parts open is the sealed value of what they open to. -/
theorem sealValue_of_parts {master : Key} {p encoded : String} {blob : Bytes} {salt : Salt}
    (hblob : Base64.decode encoded.toList = some blob) (hsalt : blob.take saltLen = salt.1)
    (hciphertext : (blob.drop saltLen).drop macLen = S.encrypt (valueCipher master salt) (utf8 p))
    (hmac : (blob.drop saltLen).take macLen =
      S.mac (valueCipher master salt) (S.encrypt (valueCipher master salt) (utf8 p))) :
    encPrefix ++ encoded = sealValue S master salt p := by
  have hparts : blob = salt.1 ++ S.mac (valueCipher master salt) (S.encrypt (valueCipher master salt) (utf8 p)) ++
      S.encrypt (valueCipher master salt) (utf8 p) := by
    calc blob = blob.take saltLen ++ ((blob.drop saltLen).take macLen ++ (blob.drop saltLen).drop macLen) := by
          rw [List.take_append_drop, List.take_append_drop]
      _ = _ := by rw [hsalt, hmac, hciphertext, List.append_assoc]
  unfold sealValue
  dsimp only
  rw [← hparts, Base64.encode_of_decode hblob, String.ofList_toList]

/-- **What opens under a key was sealed under it.** -/
theorem unseal_ok (hS : Inverse S) {master : Key} {column stored p : String}
    (hsealed : startsWith stored encPrefix = true)
    (h : unsealValue S (some master) column stored = .ok p) : ∃ salt, stored = sealValue S master salt p := by
  rcases hencoded : stripPrefix stored encPrefix with _ | encoded
  · rw [stripPrefix_eq_none, hsealed] at hencoded
    cases hencoded
  rcases hblob : Base64.decode encoded.toList with _ | blob
  · unfold unsealValue at h
    rw [hencoded] at h
    dsimp only at h
    rw [hblob] at h
    cases h
  by_cases hshort : blob.length < saltLen + macLen
  · unfold unsealValue at h
    rw [hencoded] at h
    dsimp only at h
    rw [hblob] at h
    dsimp only at h
    rw [dif_pos hshort] at h
    cases h
  rw [unsealValue_of_blob hencoded hblob hshort] at h
  obtain ⟨hciphertext, hmac⟩ := openParts_ok hS h
  refine ⟨⟨blob.take saltLen, length_take_salt hshort⟩, ?_⟩
  rw [stripPrefix_eq_some hencoded]
  exact sealValue_of_parts hblob rfl hciphertext (by rw [hmac, hciphertext])

/-- **The sealed format.** Sealing and unsealing is a round trip; a text with the prefix opens to `p` exactly if
it is what sealing `p` gives with some salt, and is refused otherwise; and no slice is out of bounds,
whatever the text. -/
theorem sealed_format (hS : Inverse S) (column : String) :
    (∀ master salt p, unsealValue S (some master) column (sealValue S master salt p) = .ok p) ∧
    (∀ master stored, startsWith stored encPrefix = true →
      (∀ p, unsealValue S (some master) column stored = .ok p ↔ ∃ salt, stored = sealValue S master salt p) ∧
      ((∀ p salt, stored ≠ sealValue S master salt p) →
        ∃ e, unsealValue S (some master) column stored = .error e)) ∧
    ∀ master stored, checkedUnseal S master column stored = some (unsealValue S master column stored) := by
  refine ⟨fun master salt p => unseal_seal master salt column p, fun master stored hsealed => ⟨fun p => ?_, ?_⟩,
    fun master stored => checkedUnseal_eq master column stored⟩
  · refine ⟨unseal_ok hS hsealed, ?_⟩
    rintro ⟨salt, rfl⟩
    exact unseal_seal master salt column p
  · intro hnone
    rcases h : unsealValue S (some master) column stored with e | p
    · exact ⟨e, rfl⟩
    · obtain ⟨salt, heq⟩ := unseal_ok hS hsealed h
      exact absurd heq (hnone p salt)

end

theorem inverse_copySuite : Inverse copySuite := by
  intro k c p h
  exact (Except.ok.inj h).symm

/-- A text that was sealed, and one too short to be. -/
theorem sealed_format_hello :
    unsealValue copySuite (some zeroKey) "body" (sealValue copySuite zeroKey zeroSalt "hello") = .ok "hello" ∧
      checkedUnseal copySuite (some zeroKey) "body" "k1:AAAA" =
        some (unsealValue copySuite (some zeroKey) "body" "k1:AAAA") := by
  obtain ⟨hround, -, hslices⟩ := sealed_format inverse_copySuite "body"
  exact ⟨hround zeroKey zeroSalt "hello", hslices (some zeroKey) "k1:AAAA"⟩

end Kmatrix.Storage.Sealed
