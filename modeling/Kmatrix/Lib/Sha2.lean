import Kmatrix.Lib.Radix
import Mathlib.Algebra.Order.Group.Nat
import Mathlib.Data.Nat.Find

/-! # The Secure Hash Standard, on words of 32 bits

FIPS 180-4 for messages of whole bytes: the padded message (`padded`), its blocks, the message schedule
(`scheduled`), the 64 rounds (`registers`) and the hash value. The round constants and the initial value are
parameters, for they are all that the hash functions on these words differ in. -/

namespace Kmatrix.Lib.Sha2

abbrev Word : Type := BitVec 32

/-! ### Functions -/

def ch (x y z : Word) : Word := (x &&& y) ^^^ (~~~x &&& z)

def maj (x y z : Word) : Word := (x &&& y) ^^^ (x &&& z) ^^^ (y &&& z)

def bigSigma0 (x : Word) : Word := x.rotateRight 2 ^^^ x.rotateRight 13 ^^^ x.rotateRight 22

def bigSigma1 (x : Word) : Word := x.rotateRight 6 ^^^ x.rotateRight 11 ^^^ x.rotateRight 25

def smallSigma0 (x : Word) : Word := x.rotateRight 7 ^^^ x.rotateRight 18 ^^^ x >>> 3

def smallSigma1 (x : Word) : Word := x.rotateRight 17 ^^^ x.rotateRight 19 ^^^ x >>> 10

/-! ### One block -/

/-- The working variables, and a hash value. -/
structure Registers where
  a : Word
  b : Word
  c : Word
  d : Word
  e : Word
  f : Word
  g : Word
  h : Word

/-- **The message schedule** `W` of a block of sixteen words. -/
def scheduled (m : ℕ → Word) (t : ℕ) : Word :=
  if t < 16 then m t
  else smallSigma1 (scheduled m (t - 2)) + scheduled m (t - 7) + smallSigma0 (scheduled m (t - 15)) +
    scheduled m (t - 16)

/-- One round. -/
def step (k w : Word) (r : Registers) : Registers :=
  let t1 := r.h + bigSigma1 r.e + ch r.e r.f r.g + k + w
  let t2 := bigSigma0 r.a + maj r.a r.b r.c
  ⟨t1 + t2, r.a, r.b, r.c, r.d + t1, r.e, r.f, r.g⟩

/-- The working variables before round `t`. -/
def registers (k : ℕ → Word) (m : ℕ → Word) (r : Registers) : ℕ → Registers
  | 0 => r
  | t + 1 => step (k t) (scheduled m t) (registers k m r t)

/-- The next intermediate hash value. -/
def Registers.add (r s : Registers) : Registers :=
  ⟨s.a + r.a, s.b + r.b, s.c + r.c, s.d + r.d, s.e + r.e, s.f + r.f, s.g + r.g, s.h + r.h⟩

/-- **The compression function.** -/
def compress (k : ℕ → Word) (r : Registers) (m : ℕ → Word) : Registers := r.add (registers k m r 64)

/-! ### Messages -/

/-- A number in `n` bytes, the highest first. -/
def bigEndian (n x : ℕ) : List UInt8 := (List.range n).map fun i => UInt8.ofNat (x / 256 ^ (n - 1 - i))

theorem exists_zeros (n : ℕ) : ∃ k, (n + 1 + k + 8) % 64 = 0 := ⟨(119 - n % 64) % 64, by omega⟩

/-- The least number of zeros that leaves room for the length at the end of a block. -/
def zeros (n : ℕ) : ℕ := Nat.find (exists_zeros n)

/-- **The padded message**: a one bit, zeros, and the length in bits. -/
def padded (m : List UInt8) : List UInt8 :=
  m ++ [0x80] ++ List.replicate (zeros m.length) 0 ++ bigEndian 8 (8 * m.length)

/-- The `i`-th block of 512 bits. -/
def block (m : List UInt8) (i : ℕ) : List UInt8 := (m.drop (64 * i)).take 64

/-- The `t`-th word of a block. -/
def word (bytes : List UInt8) (t : ℕ) : Word :=
  BitVec.ofNat 32 (Radix.value 256 (((bytes.drop (4 * t)).take 4).map UInt8.toNat))

/-- The first 32 bits of the fractional part of the `k`-th root of `p`. -/
def IsRootBits (k p : ℕ) (x : Word) : Prop :=
  ∃ q, (q * 2 ^ 32 + x.toNat) ^ k ≤ p * 2 ^ (32 * k) ∧ p * 2 ^ (32 * k) < (q * 2 ^ 32 + x.toNat + 1) ^ k

/-- **The hash value** of a message. -/
def hashValue (k : ℕ → Word) (initial : Registers) (m : List UInt8) : Registers :=
  (List.range ((padded m).length / 64)).foldl (fun r i => compress k r (word (block (padded m) i))) initial

def Registers.words (r : Registers) : List Word := [r.a, r.b, r.c, r.d, r.e, r.f, r.g, r.h]

/-- The message digest. -/
def Registers.bytes (r : Registers) : List UInt8 := r.words.flatMap fun x => bigEndian 4 x.toNat

/-! ### Rules -/

theorem scheduled_of_lt (m : ℕ → Word) {t : ℕ} (h : t < 16) : scheduled m t = m t := by
  rw [scheduled, if_pos h]

theorem scheduled_add (m : ℕ → Word) (t : ℕ) :
    scheduled m (t + 16) = smallSigma1 (scheduled m (t + 14)) + scheduled m (t + 9) +
      smallSigma0 (scheduled m (t + 1)) + scheduled m t := by
  rw [scheduled, if_neg (by omega)]
  rfl

/-- How many zeros there are. -/
theorem zeros_eq (n : ℕ) : zeros n = (119 - n % 64) % 64 := by
  refine le_antisymm (Nat.find_min' _ (by omega)) ?_
  have hspec := Nat.find_spec (exists_zeros n)
  change (n + 1 + zeros n + 8) % 64 = 0 at hspec
  omega

theorem length_bigEndian (n x : ℕ) : (bigEndian n x).length = n := by
  rw [bigEndian, List.length_map, List.length_range]

/-- The bytes of a number are those of what fits into them. -/
theorem bigEndian_mod (n x : ℕ) : bigEndian n (x % 256 ^ n) = bigEndian n x := by
  refine List.map_congr_left fun i hi => ?_
  have hi : i < n := List.mem_range.1 hi
  have hpow : 256 ^ n = 256 ^ (n - 1 - i) * 256 ^ (i + 1) := by
    rw [← Nat.pow_add]
    congr 1
    omega
  have hdvd : 256 ∣ 256 ^ (i + 1) := ⟨256 ^ i, Nat.pow_succ'⟩
  rw [hpow, Nat.mod_mul_right_div_self]
  refine UInt8.toNat_inj.1 ?_
  rw [UInt8.toNat_ofNat', UInt8.toNat_ofNat']
  exact Nat.mod_mod_of_dvd _ hdvd

/-- A rest is padded as the message, but for the length. -/
theorem padded_append (pre rest : List UInt8) (hpre : pre.length % 64 = 0) :
    padded (pre ++ rest) =
      pre ++ (rest ++ [0x80] ++ List.replicate (zeros rest.length) 0 ++ bigEndian 8 (8 * (pre ++ rest).length)) := by
  have hzeros : zeros (pre ++ rest).length = zeros rest.length := by
    rw [zeros_eq, zeros_eq, List.length_append]
    omega
  rw [padded, hzeros]
  simp only [List.append_assoc]

theorem length_padded_mod (m : List UInt8) : (padded m).length % 64 = 0 := by
  have hspec := Nat.find_spec (exists_zeros m.length)
  simp only [padded, List.length_append, List.length_replicate, length_bigEndian, List.length_singleton]
  exact hspec

theorem length_block {m : List UInt8} {i : ℕ} (h : 64 * (i + 1) ≤ m.length) : (block m i).length = 64 := by
  rw [block, List.length_take, List.length_drop]
  omega

theorem block_append {pre m : List UInt8} {n : ℕ} (hpre : pre.length = 64 * n) (i : ℕ) :
    block (pre ++ m) (n + i) = block m i := by
  rw [block, Nat.mul_add, ← hpre, List.drop_append, List.drop_eq_nil_of_le (by omega), Nat.add_sub_cancel_left,
    List.nil_append, block]

theorem block_append_left {pre : List UInt8} {i : ℕ} (hpre : 64 * (i + 1) ≤ pre.length) (m : List UInt8) :
    block (pre ++ m) i = block pre i := by
  have hdrop : 64 ≤ (pre.drop (64 * i)).length := by
    rw [List.length_drop]
    omega
  rw [block, List.drop_append_of_le_length (by omega), List.take_append_of_le_length hdrop, block]

end Kmatrix.Lib.Sha2
