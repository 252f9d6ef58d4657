import Kmatrix.Lib.Base64

/-! # Sealed values

An encrypted value is the text `k1:` followed by the base64 of salt, tag and ciphertext
(`sealValue`/`unsealValue`). The cipher is a parameter: a `CipherSuite` is what the store relies on of
`Cipher::new_pickle(keyed)`, where the keyed material is the master key followed by the salt. Salts
are drawn at random by the source; here every operation takes the salts it draws.

`unseal_seal` is the round trip and `unseal_plain` the legacy path: a value without the prefix comes
back untouched. -/

namespace Kmatrix.Storage.Seal

open Kmatrix.Lib

abbrev Bytes := List UInt8

/-- The master key: 32 bytes. -/
abbrev Key := { b : Bytes // b.length = 32 }

/-- A per-value salt: 16 bytes. -/
abbrev Salt := { b : Bytes // b.length = 16 }

/-- `Cipher::new_pickle`, by the keyed material: AES-256-CBC with a 32-byte HMAC-SHA256 tag. -/
structure CipherSuite where
  encrypt : Bytes → Bytes → Bytes
  decrypt : Bytes → Bytes → Except String Bytes
  mac : Bytes → Bytes → Bytes
  length_mac : ∀ k c, (mac k c).length = 32
  decrypt_encrypt : ∀ k p, decrypt k (encrypt k p) = .ok p
  length_encrypt : ∀ k p, p.length ≤ (encrypt k p).length

/-- The suite that copies its input, for evaluating examples. -/
def copySuite : CipherSuite where
  encrypt _ p := p
  decrypt _ c := .ok c
  mac _ _ := List.replicate 32 0
  length_mac _ _ := List.length_replicate
  decrypt_encrypt _ _ := rfl
  length_encrypt _ _ := Nat.le_refl _

/-- A key for evaluating examples. -/
def zeroKey : Key := ⟨List.replicate 32 0, List.length_replicate⟩

def zeroSalt : Salt := ⟨List.replicate 16 0, List.length_replicate⟩

/-- Marks a column value as encrypted and names the format. -/
def encPrefix : String := "k1:"

def saltLen : ℕ := 16

/-- Full-length HMAC-SHA256 tag. -/
def macLen : ℕ := 32

/-! ### Texts and bytes -/

/-- `str::as_bytes`. -/
def utf8 (s : String) : Bytes := s.toUTF8.data.toList

/-- `String::from_utf8`. -/
def fromUtf8 (b : Bytes) : Option String := String.fromUTF8? ⟨b.toArray⟩

theorem fromUtf8_utf8 (s : String) : fromUtf8 (utf8 s) = some s := by
  unfold fromUtf8 utf8
  rw [Array.toArray_toList, String.toUTF8_eq_toByteArray]
  unfold String.fromUTF8?
  exact dif_pos s.isValidUTF8

/-- `str::starts_with`. -/
def startsWith (s p : String) : Bool := p.toList.isPrefixOf s.toList

/-- `str::strip_prefix`. -/
def stripPrefix (s p : String) : Option String :=
  if startsWith s p then some (String.ofList (s.toList.drop p.toList.length)) else none

theorem startsWith_append (p s : String) : startsWith (p ++ s) p = true := by
  unfold startsWith
  rw [List.isPrefixOf_iff_prefix, String.toList_append]
  exact List.prefix_append _ _

theorem stripPrefix_append (p s : String) : stripPrefix (p ++ s) p = some s := by
  unfold stripPrefix
  rw [if_pos (startsWith_append p s), String.toList_append, List.drop_left]
  simp

theorem stripPrefix_eq_none {s p : String} : stripPrefix s p = none ↔ startsWith s p = false := by
  unfold stripPrefix; split_ifs with h <;> simp [h]

theorem utf8_eq_flatMap (s : String) : utf8 s = s.toList.flatMap String.utf8EncodeChar := by
  unfold utf8
  rw [String.toUTF8_eq_toByteArray, ← String.utf8Encode_toList]
  unfold List.utf8Encode
  simp

/-- A text has at least as many bytes as characters. -/
theorem length_le_utf8 (s : String) : s.toList.length ≤ (utf8 s).length := by
  rw [utf8_eq_flatMap, List.length_flatMap]
  induction s.toList with
  | nil => simp
  | cons c cs ih =>
    have := c.utf8Size_pos
    simp only [List.map_cons, List.sum_cons, List.length_cons, String.length_utf8EncodeChar] at ih ⊢
    omega

/-! ### Sealing -/

theorem length_take_salt {blob : Bytes} (h : ¬ blob.length < saltLen + macLen) :
    (blob.take saltLen).length = 16 := by
  unfold saltLen macLen at *
  rw [List.length_take]; omega

section
variable (S : CipherSuite)

/-- The keyed material of one value: the master key, then its salt. -/
def valueCipher (master : Key) (salt : Salt) : Bytes := master.val ++ salt.val

/-- **Encrypt one value** into the `k1:` form. -/
def sealValue (master : Key) (salt : Salt) (plaintext : String) : String :=
  let cipher := valueCipher master salt
  let ciphertext := S.encrypt cipher (utf8 plaintext)
  let mac := S.mac cipher ciphertext
  let blob := salt.val ++ mac ++ ciphertext
  encPrefix ++ String.ofList (Base64.encode blob)

/-- **Read one stored value back.** A value without the prefix is legacy plaintext. -/
def unsealValue (master : Option Key) (column stored : String) : Except String String :=
  match stripPrefix stored encPrefix with
  | none => .ok stored
  | some encoded =>
    match master with
    | none => .error (column ++
        " is encrypted but no store key is configured -- the store key file is missing or " ++
        "unreadable. The message history and the access token are in this database and cannot be " ++
        "recovered without that key; restore it rather than deleting anything.")
    | some master =>
      match Base64.decode encoded.toList with
      | none => .error ("decode encrypted " ++ column)
      | some blob =>
        if h : blob.length < saltLen + macLen then
          .error ("encrypted " ++ column ++ " is truncated: " ++ toString blob.length ++
            " bytes, need at least " ++ toString (saltLen + macLen))
        else
          let cipher := valueCipher master ⟨blob.take saltLen, length_take_salt h⟩
          let rest := blob.drop saltLen
          let mac := rest.take macLen
          let ciphertext := rest.drop macLen
          if S.mac cipher ciphertext = mac then
            match S.decrypt cipher ciphertext with
            | .error e => .error ("decrypt " ++ column ++ ": " ++ e)
            | .ok plain =>
              match fromUtf8 plain with
              | none => .error ("decrypted " ++ column ++ " is not valid UTF-8")
              | some text => .ok text
          else .error (column ++
            " failed authentication: the stored value has been altered, or the store key does " ++
            "not belong to this database -- the data cannot be recovered without the key it was " ++
            "written with")

variable {S}

theorem startsWith_seal (master : Key) (salt : Salt) (p : String) :
    startsWith (sealValue S master salt p) encPrefix = true := startsWith_append _ _

/-- A value without the prefix comes back untouched. -/
theorem unseal_plain {stored : String} (h : startsWith stored encPrefix = false)
    (master : Option Key) (column : String) : unsealValue S master column stored = .ok stored := by
  unfold unsealValue
  rw [stripPrefix_eq_none.mpr h]

/-- Without a key a value with the prefix is refused. -/
theorem unseal_none_of_prefix {stored : String} (h : startsWith stored encPrefix = true)
    (column : String) : ∃ e, unsealValue S none column stored = .error e := by
  unfold unsealValue
  cases hs : stripPrefix stored encPrefix with
  | none => rw [stripPrefix_eq_none.mp hs] at h; cases h
  | some encoded => exact ⟨_, rfl⟩

/-- **The round trip.** -/
theorem unseal_seal (master : Key) (salt : Salt) (column p : String) :
    unsealValue S (some master) column (sealValue S master salt p) = .ok p := by
  have hs : salt.val.length = saltLen := salt.property
  unfold unsealValue sealValue
  rw [stripPrefix_append]
  simp only [String.toList_ofList, Base64.decode_encode]
  set cipher := valueCipher master salt with hc
  set ct := S.encrypt cipher (utf8 p) with hct
  have hm : (S.mac cipher ct).length = macLen := S.length_mac _ _
  have htake : (salt.val ++ S.mac cipher ct ++ ct).take saltLen = salt.val := by
    rw [List.append_assoc, List.take_append_of_le_length (by omega), ← hs, List.take_length]
  have hdrop : (salt.val ++ S.mac cipher ct ++ ct).drop saltLen = S.mac cipher ct ++ ct := by
    rw [List.append_assoc, ← hs, List.drop_left]
  have hlen : ¬ (salt.val ++ S.mac cipher ct ++ ct).length < saltLen + macLen := by
    simp only [List.length_append]; omega
  have hsalt : (⟨(salt.val ++ S.mac cipher ct ++ ct).take saltLen, length_take_salt hlen⟩ : Salt) =
    salt := Subtype.ext htake
  rw [dif_neg hlen, hsalt, ← hc, hdrop, ← hm, List.drop_left, List.take_left, if_pos rfl, hct,
    S.decrypt_encrypt]
  dsimp only
  rw [fromUtf8_utf8]

/-- A sealed value is never the text it was given: it is longer. -/
theorem seal_ne (master : Key) (salt : Salt) (p : String) : sealValue S master salt p ≠ p := by
  intro h
  have hb := congrArg (fun s => s.toList.length) h
  have h1 := length_le_utf8 p
  have h2 := S.length_encrypt (valueCipher master salt) (utf8 p)
  have h3 := Base64.length_le_encode (salt.val ++ S.mac (valueCipher master salt)
    (S.encrypt (valueCipher master salt) (utf8 p)) ++ S.encrypt (valueCipher master salt) (utf8 p))
  have h4 : encPrefix.toList.length = 3 := rfl
  unfold sealValue at hb
  simp only [String.toList_append, String.toList_ofList, List.length_append] at hb h3
  omega

end

end Kmatrix.Storage.Seal
