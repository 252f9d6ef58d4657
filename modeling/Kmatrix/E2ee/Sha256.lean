import Mathlib.Tactic.Common

/-! # SHA-256

The hash of the SAS commitment, in the words of the source: whole blocks first, then a tail of one or
two blocks that holds the rest, the byte `0x80`, zeros and the length in bits. -/

namespace Kmatrix.E2ee.Sha256

/-- FIPS 180-4 round constants. -/
def sha256K : List UInt32 := [
  0x428a2f98, 0x71374491, 0xb5c0fbcf, 0xe9b5dba5, 0x3956c25b, 0x59f111f1, 0x923f82a4, 0xab1c5ed5,
  0xd807aa98, 0x12835b01, 0x243185be, 0x550c7dc3, 0x72be5d74, 0x80deb1fe, 0x9bdc06a7, 0xc19bf174,
  0xe49b69c1, 0xefbe4786, 0x0fc19dc6, 0x240ca1cc, 0x2de92c6f, 0x4a7484aa, 0x5cb0a9dc, 0x76f988da,
  0x983e5152, 0xa831c66d, 0xb00327c8, 0xbf597fc7, 0xc6e00bf3, 0xd5a79147, 0x06ca6351, 0x14292967,
  0x27b70a85, 0x2e1b2138, 0x4d2c6dfc, 0x53380d13, 0x650a7354, 0x766a0abb, 0x81c2c92e, 0x92722c85,
  0xa2bfe8a1, 0xa81a664b, 0xc24b8b70, 0xc76c51a3, 0xd192e819, 0xd6990624, 0xf40e3585, 0x106aa070,
  0x19a4c116, 0x1e376c08, 0x2748774c, 0x34b0bcb5, 0x391c0cb3, 0x4ed8aa4a, 0x5b9cca4f, 0x682e6ff3,
  0x748f82ee, 0x78a5636f, 0x84c87814, 0x8cc70208, 0x90befffa, 0xa4506ceb, 0xbef9a3f7, 0xc67178f2]

/-- The eight words of the hash state. -/
structure State where
  a : UInt32
  b : UInt32
  c : UInt32
  d : UInt32
  e : UInt32
  f : UInt32
  g : UInt32
  i : UInt32
  deriving DecidableEq, Repr

/-- `u32::rotate_right`. -/
def rotateRight (x n : UInt32) : UInt32 := (x >>> n) ||| (x <<< (32 - n))

/-- `u32::from_be_bytes`. -/
def fromBeBytes : List UInt8 → UInt32
  | [a, b, c, d] => (a.toUInt32 <<< 24) ||| (b.toUInt32 <<< 16) ||| (c.toUInt32 <<< 8) ||| d.toUInt32
  | _ => 0

/-- `to_be_bytes` of a word of `n` bytes. -/
def toBeBytes (n : ℕ) (x : UInt64) : List UInt8 :=
  (List.range n).map fun i => (x >>> (UInt64.ofNat (8 * (n - 1 - i)))).toUInt8

/-- The next word of the message schedule, `w` being the words so far. -/
def nextWord (w : List UInt32) (i : ℕ) : UInt32 :=
  let x := w.getD (i - 15) 0
  let y := w.getD (i - 2) 0
  let s0 := rotateRight x 7 ^^^ rotateRight x 18 ^^^ (x >>> 3)
  let s1 := rotateRight y 17 ^^^ rotateRight y 19 ^^^ (y >>> 10)
  w.getD (i - 16) 0 + s0 + w.getD (i - 7) 0 + s1

/-- The message schedule of a block. -/
def schedule (block : List UInt8) : List UInt32 :=
  let w := (List.range 16).map fun i => fromBeBytes ((block.drop (4 * i)).take 4)
  (List.range' 16 48).foldl (fun w i => w ++ [nextWord w i]) w

/-- One round, with its constant and its word of the schedule. -/
def round (s : State) (k w : UInt32) : State :=
  let s1 := rotateRight s.e 6 ^^^ rotateRight s.e 11 ^^^ rotateRight s.e 25
  let ch := (s.e &&& s.f) ^^^ (~~~s.e &&& s.g)
  let t1 := s.i + s1 + ch + k + w
  let s0 := rotateRight s.a 2 ^^^ rotateRight s.a 13 ^^^ rotateRight s.a 22
  let maj := (s.a &&& s.b) ^^^ (s.a &&& s.c) ^^^ (s.b &&& s.c)
  let t2 := s0 + maj
  ⟨t1 + t2, s.a, s.b, s.c, s.d + t1, s.e, s.f, s.g⟩

/-- One 64 byte compression. -/
def sha256Block (h : State) (block : List UInt8) : State :=
  let s := (sha256K.zip (schedule block)).foldl (fun s kw => round s kw.1 kw.2) h
  ⟨h.a + s.a, h.b + s.b, h.c + s.c, h.d + s.d, h.e + s.e, h.f + s.f, h.g + s.g, h.i + s.i⟩

/-- `chunks_exact(64)`, for a text of `n` whole blocks. -/
def blocksOf : ℕ → List UInt8 → List (List UInt8)
  | 0, _ => []
  | n + 1, data => data.take 64 :: blocksOf n (data.drop 64)

/-- The padded rest: one block, or two when the rest leaves no room for the length. -/
def tailOf (rest : List UInt8) (length : ℕ) : List UInt8 :=
  let tailLen := if rest.length < 56 then 64 else 128
  rest ++ [0x80] ++ List.replicate (tailLen - 8 - (rest.length + 1)) 0 ++
    toBeBytes 8 (UInt64.ofNat length * 8)

def initial : State :=
  ⟨0x6a09e667, 0xbb67ae85, 0x3c6ef372, 0xa54ff53a, 0x510e527f, 0x9b05688c, 0x1f83d9ab, 0x5be0cd19⟩

/-- **`sha256`.** -/
def sha256 (data : List UInt8) : List UInt8 :=
  let n := data.length / 64
  let h := (blocksOf n data).foldl sha256Block initial
  let tail := tailOf (data.drop (64 * n)) data.length
  let h := (blocksOf (tail.length / 64) tail).foldl sha256Block h
  [h.a, h.b, h.c, h.d, h.e, h.f, h.g, h.i].flatMap fun word => toBeBytes 4 word.toUInt64

example : sha256 [0x61, 0x62, 0x63] =
    [0xba, 0x78, 0x16, 0xbf, 0x8f, 0x01, 0xcf, 0xea, 0x41, 0x41, 0x40, 0xde, 0x5d, 0xae, 0x22, 0x23,
     0xb0, 0x03, 0x61, 0xa3, 0x96, 0x17, 0x7a, 0x9c, 0xb4, 0x10, 0xff, 0x61, 0xf2, 0x00, 0x15, 0xad] := by
  decide +kernel

end Kmatrix.E2ee.Sha256
