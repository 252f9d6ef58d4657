import Kmatrix.E2ee.Secrets
import Mathlib.Data.Nat.Digits.Defs

/-! # Recovery keys

The private key of the backup as a client shows it once: 35 bytes in base58, two of them a prefix and the
last chosen so that all of them XOR to zero. `setBackupKey` checks what the user typed against the public
key of the backup, and keeps it where `setBackupKeyBase64` does. -/

namespace Kmatrix.E2ee.Recovery

open Kmatrix.Lib Kmatrix.Lib.Crash Kmatrix.E2ee.Json Kmatrix.E2ee.Effects Kmatrix.E2ee.Sessions
open Kmatrix.E2ee.Secrets Kmatrix.Storage.Seal
open Kmatrix.Sync.Events (isWhitespace)

/-- Bitcoin's base58 alphabet. -/
def base58Alphabet : List Char := "123456789ABCDEFGHJKLMNPQRSTUVWXYZabcdefghijkmnopqrstuvwxyz".toList

/-- The two bytes every recovery key starts with. -/
def recoveryKeyPrefix : Bytes := [0x8b, 0x01]

/-- Prefix, private key and parity byte. -/
def recoveryKeyLen : ℕ := 35

def base58Digit (c : Char) : Except String ℕ :=
  match base58Alphabet.idxOf? c with
  | some digit => .ok digit
  | none => .error ("'" ++ c.toString ++ "' is not a valid base58 character")

/-- One digit more: the bytes, lowest first, times 58 plus the carry. What is carried out of the last is
pushed byte by byte. -/
def mulAdd : ℕ → Bytes → Bytes
  | carry, [] => (Nat.digits 256 carry).map UInt8.ofNat
  | carry, byte :: out =>
    UInt8.ofNat ((byte.toNat * 58 + carry) % 256) :: mulAdd ((byte.toNat * 58 + carry) / 256) out

/-- **`base58_decode`.** Leading ones are leading zero bytes. -/
def base58Decode (s : List Char) : Except String Bytes := do
  let out ← s.foldlM (fun out c => do return mulAdd (← base58Digit c) out) []
  return (out ++ List.replicate (s.takeWhile fun c => c = '1').length 0).reverse

/-- `{:02x}`. -/
def hex2 (b : UInt8) : String := String.ofList [hexDigit (b.toNat / 16), hexDigit (b.toNat % 16)]

/-- **`decode_recovery_key`.** -/
def decodeRecoveryKey (s : String) : Except String Key := do
  let compact := s.toList.filter fun c => !isWhitespace c
  if compact.isEmpty then .error "recovery key is empty"
  let bytes ← base58Decode compact
  if h : bytes.length = recoveryKeyLen then
    if bytes.take 2 ≠ recoveryKeyPrefix then
      .error ("recovery key starts with " ++ hex2 (bytes.getD 0 0) ++ hex2 (bytes.getD 1 0) ++
        ", expected 8b01: this is not a Matrix recovery key")
    if bytes.foldl (fun acc b => acc ^^^ b) 0 ≠ 0 then
      .error "recovery key fails its parity check: at least one character is mistyped"
    return ⟨(bytes.drop 2).take 32, by simp [h, recoveryKeyLen]⟩
  else
    .error ("recovery key decodes to " ++ toString bytes.length ++ " bytes, expected " ++
      toString recoveryKeyLen ++ ": a character is missing or one too many")

section Code
variable {S : CipherSuite} {Q : Type} {R : Q → Type} (V : Vodozemac)

/-- The comparison with the public key of the backup. -/
def compareRecoveryKey (key : Key) (expectedPublicKey : String) : Except String Unit :=
  if (V.backupPublicKey key).toList = unpadded expectedPublicKey then .ok ()
  else .error ("this recovery key does not match this backup: it unlocks " ++ V.backupPublicKey key ++
    ", but the backup was made for " ++ expectedPublicKey)

/-- **`set_backup_key`.** -/
def setBackupKey (recoveryKey expectedPublicKey : String) : Code S R Crypto Unit := do
  let key ← Act.ofExcept (decodeRecoveryKey recoveryKey)
  Act.ofExcept (compareRecoveryKey V key expectedPublicKey)
  setMeta backupKeyMeta (keyText key)
  Act.modify fun c => { c with backupKey := some key }

end Code

example : base58Decode "111233QC4".toList = .ok [0x00, 0x00, 0x00, 0x28, 0x7f, 0xb4, 0xcd] := by
  decide +kernel

end Kmatrix.E2ee.Recovery
