import Kmatrix.E2ee.Recovery
import Kmatrix.Lib.Radix

/-! # What a recovery key spells

`base58Encode` is base58 as everybody writes it: the leading zero bytes as ones, then the number in base 58,
most significant digit first. The decoder is its inverse in both directions (`base58Decode_iff`), and so a
recovery key is accepted as `k` exactly if it is the one spelling of `k`, up to whitespace
(`decodeRecoveryKey_iff`). -/

namespace Kmatrix.E2ee.Base58

open Kmatrix.Lib Kmatrix.Storage.Seal Kmatrix.E2ee.Recovery
open Kmatrix.Sync.Events (isWhitespace)

def digitChar (d : ℕ) : Char := base58Alphabet.getD d '1'

/-- **Base58.** -/
def base58Encode (bytes : Bytes) : List Char :=
  (Radix.convert 256 58 (bytes.map UInt8.toNat)).map digitChar

/-- What is left of what the user typed. -/
def compact (s : String) : List Char := s.toList.filter fun c => !isWhitespace c

/-- The XOR of all bytes. -/
def xorAll (bytes : Bytes) : UInt8 := bytes.foldl (fun acc b => acc ^^^ b) 0

/-! ## Digits -/

theorem nodup_base58Alphabet : base58Alphabet.Nodup := by decide +kernel

theorem length_base58Alphabet : base58Alphabet.length = 58 := by decide +kernel

theorem digitChar_eq {d : ℕ} (hd : d < base58Alphabet.length) : digitChar d = base58Alphabet[d] := by
  rw [digitChar, List.getD_eq_getElem?_getD, List.getElem?_eq_getElem hd, Option.getD_some]

theorem digitChar_inj {d e : ℕ} (hd : d < 58) (he : e < 58) : digitChar d = digitChar e ↔ d = e := by
  have hd : d < base58Alphabet.length := by rwa [length_base58Alphabet]
  have he : e < base58Alphabet.length := by rwa [length_base58Alphabet]
  rw [digitChar_eq hd, digitChar_eq he]
  exact nodup_base58Alphabet.getElem_inj_iff

theorem getElem?_base58Alphabet {d : ℕ} (hd : d < 58) : base58Alphabet[d]? = some (digitChar d) := by
  have hd : d < base58Alphabet.length := by rwa [length_base58Alphabet]
  rw [digitChar_eq hd, List.getElem?_eq_getElem hd]

theorem digitChar_mem {d : ℕ} (hd : d < 58) : digitChar d ∈ base58Alphabet :=
  List.mem_of_getElem? (getElem?_base58Alphabet hd)

theorem base58Digit_iff (c : Char) (d : ℕ) : base58Digit c = .ok d ↔ d < 58 ∧ c = digitChar d := by
  have hfound : base58Digit c = .ok d ↔ base58Alphabet[d]? = some c := by
    rw [← Base64.idxOf?_iff nodup_base58Alphabet, base58Digit]
    cases base58Alphabet.idxOf? c <;> simp
  rw [hfound]
  constructor
  · intro h
    have hd : d < 58 := by
      rw [← length_base58Alphabet]
      exact (List.getElem?_eq_some_iff.1 h).1
    exact ⟨hd, Option.some.inj (h.symm.trans (getElem?_base58Alphabet hd))⟩
  · rintro ⟨hd, rfl⟩
    exact getElem?_base58Alphabet hd

/-- Every character stands for a digit, or the string is refused at the first that does not. -/
theorem exists_digits_iff (s : List Char) :
    (∃ ds : List ℕ, (∀ d ∈ ds, d < 58) ∧ s = ds.map digitChar) ↔ ∀ c ∈ s, c ∈ base58Alphabet := by
  constructor
  · rintro ⟨ds, hds, rfl⟩ c hc
    obtain ⟨d, hd, rfl⟩ := List.mem_map.1 hc
    exact digitChar_mem (hds d hd)
  · intro h
    induction s with
    | nil => exact ⟨[], by simp, rfl⟩
    | cons c s ih =>
      obtain ⟨ds, hds, rfl⟩ := ih fun c hc => h c (List.mem_cons_of_mem _ hc)
      obtain ⟨d, hd, hc⟩ := List.getElem_of_mem (h c List.mem_cons_self)
      refine ⟨d :: ds, List.forall_mem_cons.2 ⟨length_base58Alphabet ▸ hd, hds⟩, ?_⟩
      rw [List.map_cons, digitChar_eq hd, hc]

/-! ## The decoder's buffer -/

theorem toNat_injective : Function.Injective (List.map UInt8.toNat) :=
  List.map_injective_iff.2 fun _ _ => UInt8.toNat_inj.1

theorem toNat_ofNat_digits (l : List ℕ) (hl : ∀ d ∈ l, d < 256) :
    (l.map UInt8.ofNat).map UInt8.toNat = l := by
  rw [List.map_map, List.map_congr_left (g := id), List.map_id]
  intro d hd
  have hlt := hl d hd
  simp only [Function.comp_apply, UInt8.toNat_ofNat', id_eq]
  omega

/-- The buffer holds the digits in base 256, lowest first. -/
theorem toNat_mulAdd (carry : ℕ) (out : Bytes) :
    (mulAdd carry out).map UInt8.toNat = Radix.mulAdd 58 256 carry (out.map UInt8.toNat) := by
  induction out generalizing carry with
  | nil =>
    simp only [mulAdd, Radix.mulAdd, List.map_nil]
    exact toNat_ofNat_digits _ fun d hd => Nat.digits_lt_base (by omega) hd
  | cons byte out ih =>
    have hlow : (UInt8.ofNat ((byte.toNat * 58 + carry) % 256)).toNat = (byte.toNat * 58 + carry) % 256 := by
      rw [UInt8.toNat_ofNat']
      omega
    simp only [mulAdd, Radix.mulAdd, List.map_cons, ih, hlow]

theorem toNat_foldl_mulAdd (ds : List ℕ) (out : Bytes) :
    (ds.foldl (fun out d => mulAdd d out) out).map UInt8.toNat =
      ds.foldl (fun out d => Radix.mulAdd 58 256 d out) (out.map UInt8.toNat) := by
  induction ds generalizing out with
  | nil => rfl
  | cons d ds ih => rw [List.foldl_cons, ih, toNat_mulAdd, List.foldl_cons]

theorem foldlM_iff (s : List Char) (out out' : Bytes) :
    s.foldlM (fun out c => do return mulAdd (← base58Digit c) out) out = .ok out' ↔
      ∃ ds : List ℕ, (∀ d ∈ ds, d < 58) ∧ s = ds.map digitChar ∧
        ds.foldl (fun out d => mulAdd d out) out = out' := by
  induction s generalizing out with
  | nil =>
    constructor
    · intro h
      exact ⟨[], by simp, rfl, Except.ok.inj h⟩
    · rintro ⟨ds, -, hs, rfl⟩
      rw [List.map_eq_nil_iff.1 hs.symm]
      rfl
  | cons c s ih =>
    rw [List.foldlM_cons]
    constructor
    · intro h
      cases hd : base58Digit c with
      | error e => simp [hd, bind, Except.bind] at h
      | ok d =>
        simp only [hd, bind, Except.bind, pure, Except.pure] at h
        obtain ⟨ds, hds, rfl, hout⟩ := (ih _).1 h
        obtain ⟨hlt, rfl⟩ := (base58Digit_iff c d).1 hd
        exact ⟨d :: ds, List.forall_mem_cons.2 ⟨hlt, hds⟩, rfl, hout⟩
    · rintro ⟨ds, hds, hs, hout⟩
      obtain ⟨d, ds, rfl, rfl, rfl⟩ := List.map_eq_cons_iff.1 hs.symm
      have hd := (base58Digit_iff (digitChar d) d).2 ⟨hds d List.mem_cons_self, rfl⟩
      simp only [hd, bind, Except.bind, pure, Except.pure]
      exact (ih _).2 ⟨ds, fun e he => hds e (List.mem_cons_of_mem _ he), rfl, hout⟩

/-- Ones stand for zeros. -/
theorem length_takeWhile_digitChar (ds : List ℕ) (hds : ∀ d ∈ ds, d < 58) :
    ((ds.map digitChar).takeWhile fun c => c = '1').length = Radix.leading ds := by
  induction ds with
  | nil => rfl
  | cons d ds ih =>
    obtain ⟨hd, hds⟩ := List.forall_mem_cons.1 hds
    have hzero : digitChar 0 = '1' := by decide +kernel
    have hone : digitChar d = '1' ↔ d = 0 := by rw [← hzero, digitChar_inj hd (by omega)]
    have ih := ih hds
    unfold Radix.leading at ih ⊢
    by_cases h : d = 0
    · subst h
      simp [hzero, ih]
    · simp [hone, h]

/-! ## The decoder and the encoding -/

theorem base58Decode_map (ds : List ℕ) (hds : ∀ d ∈ ds, d < 58) :
    ∃ bytes, base58Decode (ds.map digitChar) = .ok bytes ∧
      bytes.map UInt8.toNat = Radix.convert 58 256 ds := by
  have hrun := (foldlM_iff (ds.map digitChar) [] _).2 ⟨ds, hds, rfl, rfl⟩
  refine ⟨(ds.foldl (fun out d => mulAdd d out) [] ++ List.replicate (Radix.leading ds) 0).reverse, ?_, ?_⟩
  · rw [base58Decode, hrun, length_takeWhile_digitChar ds hds]
    rfl
  · rw [List.map_reverse, List.map_append, toNat_foldl_mulAdd, List.map_replicate]
    exact Radix.reverse_foldl_mulAdd (by omega) (by omega) ds

theorem base58Decode_exists (s : List Char) (bytes : Bytes) (h : base58Decode s = .ok bytes) :
    ∃ ds : List ℕ, (∀ d ∈ ds, d < 58) ∧ s = ds.map digitChar := by
  unfold base58Decode at h
  cases hrun : s.foldlM (fun out c => do return mulAdd (← base58Digit c) out) ([] : Bytes) with
  | error e =>
    rw [hrun] at h
    cases h
  | ok out =>
    obtain ⟨ds, hds, hs, -⟩ := (foldlM_iff s [] out).1 hrun
    exact ⟨ds, hds, hs⟩

theorem base58Decode_iff (s : List Char) (bytes : Bytes) :
    base58Decode s = .ok bytes ↔ s = base58Encode bytes := by
  constructor
  · intro h
    obtain ⟨ds, hds, rfl⟩ := base58Decode_exists s bytes h
    obtain ⟨bytes', hbytes', hval⟩ := base58Decode_map ds hds
    obtain rfl : bytes' = bytes := Except.ok.inj (hbytes'.symm.trans h)
    rw [base58Encode, hval, Radix.convert_convert (by omega) hds]
  · rintro rfl
    have hbytes : ∀ d ∈ bytes.map UInt8.toNat, d < 256 := by
      intro d hd
      obtain ⟨b, -, rfl⟩ := List.mem_map.1 hd
      exact UInt8.toNat_lt b
    obtain ⟨bytes', hbytes', hval⟩ :=
      base58Decode_map (Radix.convert 256 58 (bytes.map UInt8.toNat)) fun d hd => Radix.convert_lt (by omega) hd
    rw [Radix.convert_convert (by omega) hbytes] at hval
    rw [base58Encode, hbytes', toNat_injective hval]

theorem base58Decode_ok_iff (s : List Char) :
    (∃ bytes, base58Decode s = .ok bytes) ↔ ∀ c ∈ s, c ∈ base58Alphabet := by
  rw [← exists_digits_iff]
  constructor
  · rintro ⟨bytes, h⟩
    exact base58Decode_exists s bytes h
  · rintro ⟨ds, hds, rfl⟩
    obtain ⟨bytes, h, -⟩ := base58Decode_map ds hds
    exact ⟨bytes, h⟩

/-! ## Recovery keys -/

/-- The byte that makes the XOR of all of them zero. -/
def parity (k : Key) : UInt8 := xorAll (recoveryKeyPrefix ++ k.1)

/-- The 35 bytes of a recovery key. -/
def recoveryBytes (k : Key) : Bytes := recoveryKeyPrefix ++ k.1 ++ [parity k]

theorem xorAll_snoc (bytes : Bytes) (p : UInt8) : xorAll (bytes ++ [p]) = xorAll bytes ^^^ p := by
  rw [xorAll, List.foldl_append, List.foldl_cons, List.foldl_nil, xorAll]

theorem xor_eq_zero_iff (x y : UInt8) : x ^^^ y = 0 ↔ y = x := by
  rw [UInt8.xor_eq_zero_iff, eq_comm]

theorem xorAll_recovery_iff (k : Key) (p : UInt8) :
    xorAll (recoveryKeyPrefix ++ k.1 ++ [p]) = 0 ↔ p = parity k := by
  rw [xorAll_snoc, xor_eq_zero_iff, parity]

theorem length_recoveryBytes (k : Key) : (recoveryBytes k).length = recoveryKeyLen := by
  simp [recoveryBytes, recoveryKeyPrefix, recoveryKeyLen, k.2]

/-- What the checks leave of 35 bytes. -/
theorem eq_recoveryBytes {bytes : Bytes} {k : Key} (hlen : bytes.length = recoveryKeyLen)
    (hhead : bytes.take 2 = recoveryKeyPrefix) (hxor : xorAll bytes = 0) (hk : (bytes.drop 2).take 32 = k.1) :
    bytes = recoveryBytes k := by
  have hlast : ((bytes.drop 2).drop 32).length = 1 := by simp [hlen, recoveryKeyLen]
  obtain ⟨p, hp⟩ := List.length_eq_one_iff.1 hlast
  have hbytes : bytes = recoveryKeyPrefix ++ k.1 ++ [p] := by
    rw [← hhead, ← hk, ← hp, List.append_assoc, List.take_append_drop, List.take_append_drop]
  have hparity := (xorAll_recovery_iff k p).1 (hbytes ▸ hxor)
  rw [hbytes, hparity, recoveryBytes]

/-- The checks, one after the other. -/
theorem decodeRecoveryKey_of_ok {s : String} {k : Key} (h : decodeRecoveryKey s = .ok k) :
    ∃ bytes, base58Decode (compact s) = .ok bytes ∧ bytes.length = recoveryKeyLen ∧
      bytes.take 2 = recoveryKeyPrefix ∧ xorAll bytes = 0 ∧ (bytes.drop 2).take 32 = k.1 := by
  unfold decodeRecoveryKey at h
  by_cases hempty : (compact s).isEmpty = true
  · rw [compact] at hempty
    rw [if_pos hempty] at h
    cases h
  have hcompact : s.toList.filter (fun c => !isWhitespace c) = compact s := rfl
  rw [hcompact, if_neg hempty] at h
  cases hdec : base58Decode (compact s) with
  | error e =>
    rw [hdec] at h
    cases h
  | ok bytes =>
    rw [hdec] at h
    simp only [bind, Except.bind, pure, Except.pure] at h
    by_cases hlen : bytes.length = recoveryKeyLen
    · rw [dif_pos hlen] at h
      by_cases hhead : bytes.take 2 = recoveryKeyPrefix
      · by_cases hxor : xorAll bytes = 0
        · have hxor' : bytes.foldl (fun acc b => acc ^^^ b) 0 = 0 := hxor
          rw [if_neg (not_not.2 hhead), if_neg (not_not.2 hxor')] at h
          exact ⟨bytes, rfl, hlen, hhead, hxor, congrArg Subtype.val (Except.ok.inj h)⟩
        · have hxor' : bytes.foldl (fun acc b => acc ^^^ b) 0 ≠ 0 := hxor
          rw [if_neg (not_not.2 hhead), if_pos hxor'] at h
          cases h
      · rw [if_pos hhead] at h
        cases h
    · rw [dif_neg hlen] at h
      cases h

theorem decodeRecoveryKey_ok {s : String} {k : Key} (h : compact s = base58Encode (recoveryBytes k)) :
    decodeRecoveryKey s = .ok k := by
  have hdec : base58Decode (compact s) = .ok (recoveryBytes k) := (base58Decode_iff _ _).2 h
  have hnonempty : ¬(compact s).isEmpty = true := by
    intro hempty
    rw [List.isEmpty_iff.1 hempty] at hdec
    have hnil : recoveryBytes k = [] := (Except.ok.inj hdec).symm
    have hlen := length_recoveryBytes k
    rw [hnil] at hlen
    cases hlen
  have hhead : (recoveryBytes k).take 2 = recoveryKeyPrefix := rfl
  have hxor : (recoveryBytes k).foldl (fun acc b => acc ^^^ b) 0 = 0 := (xorAll_recovery_iff k _).2 rfl
  have hkey : ((recoveryBytes k).drop 2).take 32 = k.1 := by
    have hdrop : (recoveryBytes k).drop 2 = k.1 ++ [parity k] := rfl
    rw [hdrop, List.take_append_of_le_length (by rw [k.2]), List.take_of_length_le (by rw [k.2])]
  have hcompact : s.toList.filter (fun c => !isWhitespace c) = compact s := rfl
  unfold decodeRecoveryKey
  rw [hcompact, if_neg hnonempty, hdec]
  simp only [bind, Except.bind, pure, Except.pure]
  rw [dif_pos (length_recoveryBytes k), if_neg (not_not.2 hhead), if_neg (not_not.2 hxor)]
  exact congrArg Except.ok (Subtype.ext hkey)

theorem decodeRecoveryKey_iff (s : String) (k : Key) :
    decodeRecoveryKey s = .ok k ↔ compact s = base58Encode (recoveryBytes k) := by
  refine ⟨fun h => ?_, decodeRecoveryKey_ok⟩
  obtain ⟨bytes, hdec, hlen, hhead, hxor, hkey⟩ := decodeRecoveryKey_of_ok h
  rw [← eq_recoveryBytes hlen hhead hxor hkey]
  exact (base58Decode_iff _ _).1 hdec

/-- **Base58 and recovery keys.** The decoder inverts the encoding both ways and refuses exactly what has another
character; a recovery key is accepted as `k` exactly if it spells the prefix, `k` and the byte that makes the
XOR zero. -/
theorem base58_faithful :
    (∀ bytes, base58Decode (base58Encode bytes) = .ok bytes) ∧
    (∀ s bytes, base58Decode s = .ok bytes → s = base58Encode bytes) ∧
    (∀ s, (∃ bytes, base58Decode s = .ok bytes) ↔ ∀ c ∈ s, c ∈ base58Alphabet) ∧
    ∀ s k, decodeRecoveryKey s = .ok k ↔
      ∃ p, xorAll (recoveryKeyPrefix ++ k.1 ++ [p]) = 0 ∧
        compact s = base58Encode (recoveryKeyPrefix ++ k.1 ++ [p]) := by
  refine ⟨fun bytes => (base58Decode_iff _ _).2 rfl, fun s bytes => (base58Decode_iff s bytes).1,
    base58Decode_ok_iff, fun s k => ?_⟩
  rw [decodeRecoveryKey_iff]
  constructor
  · intro h
    exact ⟨parity k, (xorAll_recovery_iff k _).2 rfl, h⟩
  · rintro ⟨p, hp, h⟩
    rw [h, (xorAll_recovery_iff k p).1 hp, recoveryBytes]

end Kmatrix.E2ee.Base58
