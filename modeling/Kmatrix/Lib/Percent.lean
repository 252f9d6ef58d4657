import Mathlib.Data.List.Basic
import Mathlib.Tactic.Common
import Mathlib.Tactic.IntervalCases

/-! # Percent-encoding

Bytes written as text: a byte that is `kept` stands for itself, any other is written as `%` and two digits in
base 16, in upper case (`encode`).

* `decode_encode`: what is written is read back, if only ASCII is kept and `%` is not.
* `Escaped`: what a written text looks like; `Escaped.mem` says which letters it has. -/

namespace Kmatrix.Lib.Percent

def hexDigits : List Char := "0123456789ABCDEF".toList

def hexDigit (n : ℕ) : Char := hexDigits.getD n '0'

/-- The value of a digit in base 16, in either case. -/
def hexValue (c : Char) : Option ℕ :=
  if 48 ≤ c.toNat ∧ c.toNat ≤ 57 then some (c.toNat - 48)
  else if 65 ≤ c.toNat ∧ c.toNat ≤ 70 then some (c.toNat - 55)
  else if 97 ≤ c.toNat ∧ c.toNat ≤ 102 then some (c.toNat - 87)
  else none

def escape (b : UInt8) : List Char := ['%', hexDigit (b.toNat / 16), hexDigit (b.toNat % 16)]

def encodeByte (kept : UInt8 → Bool) (b : UInt8) : List Char := if kept b then [Char.ofUInt8 b] else escape b

def encode (kept : UInt8 → Bool) (bytes : List UInt8) : List Char := bytes.flatMap (encodeByte kept)

/-- **Percent-decoding**, of the UTF-8 of the text. -/
def decode : List Char → Option (List UInt8)
  | [] => some []
  | c :: rest =>
    if c = '%' then
      match rest with
      | h :: l :: rest => do
        let high ← hexValue h
        let low ← hexValue l
        return UInt8.ofNat (16 * high + low) :: (← decode rest)
      | _ => none
    else (decode rest).map fun bytes => String.utf8EncodeChar c ++ bytes

/-- **Nothing but allowed letters and triplets.** -/
inductive Escaped (allowed : Char → Prop) : List Char → Prop
  | nil : Escaped allowed []
  | kept {c : Char} {rest : List Char} (hc : allowed c) (hrest : Escaped allowed rest) :
      Escaped allowed (c :: rest)
  | triplet {h l : Char} {rest : List Char} (hh : h ∈ hexDigits) (hl : l ∈ hexDigits)
      (hrest : Escaped allowed rest) : Escaped allowed ('%' :: h :: l :: rest)

/-! ### Reading back -/

theorem hexDigit_mem {n : ℕ} (h : n < 16) : hexDigit n ∈ hexDigits := by
  interval_cases n <;> decide

theorem hexValue_hexDigit {n : ℕ} (h : n < 16) : hexValue (hexDigit n) = some n := by
  interval_cases n <;> rfl

theorem halves (b : UInt8) : UInt8.ofNat (16 * (b.toNat / 16) + b.toNat % 16) = b := by
  rw [Nat.div_add_mod, UInt8.ofNat_toNat]

theorem decode_escape (b : UInt8) (rest : List Char) :
    decode (escape b ++ rest) = (decode rest).map (b :: ·) := by
  have hlt : b.toNat < 256 := b.toNat_lt
  have hhigh := hexValue_hexDigit (by omega : b.toNat / 16 < 16)
  have hlow := hexValue_hexDigit (by omega : b.toNat % 16 < 16)
  show decode ('%' :: hexDigit (b.toNat / 16) :: hexDigit (b.toNat % 16) :: rest) = _
  rw [decode, if_pos rfl, hhigh, hlow]
  show (decode rest).bind (fun bytes => some (UInt8.ofNat (16 * (b.toNat / 16) + b.toNat % 16) :: bytes)) = _
  rw [halves]
  rcases decode rest with _ | bytes
  · rfl
  · rfl

theorem utf8EncodeChar_ofUInt8 {b : UInt8} (h : b.toNat < 128) : String.utf8EncodeChar (Char.ofUInt8 b) = [b] := by
  have hval : (Char.ofUInt8 b).val.toNat = b.toNat := rfl
  unfold String.utf8EncodeChar
  dsimp only
  rw [hval, if_pos (by omega), UInt8.ofNat_toNat]

theorem decode_kept {b : UInt8} (h : b.toNat < 128) (hne : b.toNat ≠ 37) (rest : List Char) :
    decode (Char.ofUInt8 b :: rest) = (decode rest).map (b :: ·) := by
  have hpercent : Char.ofUInt8 b ≠ '%' := fun heq => hne (congrArg Char.toNat heq)
  conv_lhs => unfold decode
  rw [if_neg hpercent, utf8EncodeChar_ofUInt8 h]
  rfl

section Encode
variable {kept : UInt8 → Bool}

/-- **What is written is read back.** -/
theorem decode_encode (h : ∀ b, kept b = true → b.toNat < 128 ∧ b.toNat ≠ 37) (bytes : List UInt8) :
    decode (encode kept bytes) = some bytes := by
  induction bytes with
  | nil => rfl
  | cons b bytes ih =>
    have hbyte : ∀ rest, decode (encodeByte kept b ++ rest) = (decode rest).map (b :: ·) := by
      intro rest
      unfold encodeByte
      split_ifs with hb
      · exact decode_kept (h b hb).1 (h b hb).2 rest
      · exact decode_escape b rest
    show decode (encodeByte kept b ++ encode kept bytes) = _
    rw [hbyte, ih]
    rfl

/-! ### The letters -/

theorem escaped_encode {allowed : Char → Prop} (h : ∀ b, kept b = true → allowed (Char.ofUInt8 b))
    (bytes : List UInt8) : Escaped allowed (encode kept bytes) := by
  induction bytes with
  | nil => exact .nil
  | cons b bytes ih =>
    have hlt : b.toNat < 256 := b.toNat_lt
    show Escaped allowed (encodeByte kept b ++ encode kept bytes)
    unfold encodeByte
    split_ifs with hb
    · exact .kept (h b hb) ih
    · exact .triplet (hexDigit_mem (by omega)) (hexDigit_mem (by omega)) ih

theorem Escaped.mem {allowed : Char → Prop} {text : List Char} (h : Escaped allowed text) {c : Char}
    (hc : c ∈ text) : allowed c ∨ c = '%' ∨ c ∈ hexDigits := by
  induction h with
  | nil => cases hc
  | kept hallowed _ ih =>
    rcases List.mem_cons.mp hc with rfl | hc
    · exact .inl hallowed
    · exact ih hc
  | triplet hh hl _ ih =>
    rcases List.mem_cons.mp hc with rfl | hc
    · exact .inr (.inl rfl)
    rcases List.mem_cons.mp hc with rfl | hc
    · exact .inr (.inr hh)
    rcases List.mem_cons.mp hc with rfl | hc
    · exact .inr (.inr hl)
    · exact ih hc

end Encode

end Kmatrix.Lib.Percent
