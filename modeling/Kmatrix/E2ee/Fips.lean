import Kmatrix.E2ee.Sha256
import Kmatrix.Lib.Sha2
import Mathlib.Data.Nat.Prime.Defs

/-! # The hash is SHA-256

`sha256` never builds the padded message: it hashes the whole blocks of the data where they are, and then a
tail of one or two blocks. `sha256_eq` says that the result is that of the standard, for data of every length;
`constants_eq` that the words it starts from are the ones the standard derives from the first primes. -/

namespace Kmatrix.E2ee.Fips

open Kmatrix.Lib Kmatrix.Lib.Sha2 Kmatrix.E2ee.Sha256

/-! ### Words -/

/-- The hash state in the standard's words. -/
def toRegisters (s : State) : Registers :=
  ⟨s.a.toBitVec, s.b.toBitVec, s.c.toBitVec, s.d.toBitVec, s.e.toBitVec, s.f.toBitVec, s.g.toBitVec,
    s.i.toBitVec⟩

/-- The round constants. -/
def constants (t : ℕ) : Word := (sha256K.getD t 0).toBitVec

/-- One round of the code is one of the standard. -/
theorem toRegisters_round (s : State) (k w : UInt32) :
    toRegisters (round s k w) = step k.toBitVec w.toBitVec (toRegisters s) := rfl

/-- Bits that do not meet are added. -/
theorem or_eq_add {x y n : ℕ} (h : y < 2 ^ n) : x * 2 ^ n ||| y = x * 2 ^ n + y := by
  rw [Nat.mul_comm]
  exact (Nat.two_pow_add_eq_or_of_lt h x).symm

theorem or_bytes {a b c d : ℕ} (hb : b < 2 ^ 8) (hc : c < 2 ^ 8) (hd : d < 2 ^ 8) :
    a * 2 ^ 24 ||| b * 2 ^ 16 ||| c * 2 ^ 8 ||| d = ((a * 256 + b) * 256 + c) * 256 + d := by
  have hab : a * 2 ^ 24 + b * 2 ^ 16 = (a * 256 + b) * 2 ^ 16 := by ring
  have habc : (a * 256 + b) * 2 ^ 16 + c * 2 ^ 8 = ((a * 256 + b) * 256 + c) * 2 ^ 8 := by ring
  rw [or_eq_add (by omega), hab, or_eq_add (by omega), habc, or_eq_add hd]
  rfl

/-- A byte moved up in a word. -/
theorem shiftLeft_byte {x n : ℕ} (hx : x < 2 ^ 8) (hn : n ≤ 24) : x <<< n % 2 ^ 32 = x * 2 ^ n := by
  rw [Nat.shiftLeft_eq]
  refine Nat.mod_eq_of_lt ?_
  calc x * 2 ^ n < 2 ^ 8 * 2 ^ n := Nat.mul_lt_mul_of_pos_right hx (Nat.two_pow_pos n)
    _ ≤ 2 ^ 8 * 2 ^ 24 := Nat.mul_le_mul_left _ (Nat.pow_le_pow_right (by omega) hn)
    _ = 2 ^ 32 := by norm_num

theorem toBitVec_fromBeBytes (a b c d : UInt8) :
    (fromBeBytes [a, b, c, d]).toBitVec =
      BitVec.ofNat 32 (Radix.value 256 [a.toNat, b.toNat, c.toNat, d.toNat]) := by
  have ha := a.toNat_lt
  have hb := b.toNat_lt
  have hc := c.toNat_lt
  have hd := d.toNat_lt
  have hvalue : Radix.value 256 [a.toNat, b.toNat, c.toNat, d.toNat] =
      ((a.toNat * 256 + b.toNat) * 256 + c.toNat) * 256 + d.toNat := by
    simp only [Radix.value, List.reverse_cons, List.reverse_nil, List.nil_append, List.cons_append,
      Nat.ofDigits_cons, Nat.ofDigits_nil]
    omega
  have hsum : ((a.toNat * 256 + b.toNat) * 256 + c.toNat) * 256 + d.toNat < 2 ^ 32 := by omega
  have h24 : UInt32.toNat 24 % 32 = 24 := rfl
  have h16 : UInt32.toNat 16 % 32 = 16 := rfl
  have h8 : UInt32.toNat 8 % 32 = 8 := rfl
  apply BitVec.eq_of_toNat_eq
  rw [hvalue]
  simp only [fromBeBytes, UInt32.toNat_toBitVec, UInt32.toNat_or, UInt32.toNat_shiftLeft, UInt8.toNat_toUInt32,
    BitVec.toNat_ofNat, h24, h16, h8]
  rw [shiftLeft_byte ha (by omega), shiftLeft_byte hb (by omega), shiftLeft_byte hc (by omega),
    or_bytes hb hc hd, Nat.mod_eq_of_lt hsum]

/-! ### One block -/

/-- The words of a block. -/
theorem toBitVec_word {block : List UInt8} (hblock : block.length = 64) {t : ℕ} (ht : t < 16) :
    (fromBeBytes ((block.drop (4 * t)).take 4)).toBitVec = word block t := by
  have hlen : ((block.drop (4 * t)).take 4).length = 4 := by
    rw [List.length_take, List.length_drop]
    omega
  obtain ⟨a, b, c, d, hbytes⟩ : ∃ a b c d, (block.drop (4 * t)).take 4 = [a, b, c, d] := by
    rcases h : (block.drop (4 * t)).take 4 with _ | ⟨a, _ | ⟨b, _ | ⟨c, _ | ⟨d, _ | ⟨e, l⟩⟩⟩⟩⟩
    all_goals rw [h] at hlen
    · cases hlen
    · cases hlen
    · cases hlen
    · cases hlen
    · exact ⟨a, b, c, d, rfl⟩
    · simp at hlen
  rw [hbytes, toBitVec_fromBeBytes, word, hbytes]
  rfl

/-- The next word of the schedule, from the words so far. -/
theorem toBitVec_nextWord {m : ℕ → Word} {w : List UInt32} {t : ℕ}
    (hw : ∀ i < t + 16, (w.getD i 0).toBitVec = scheduled m i) :
    (nextWord w (t + 16)).toBitVec = scheduled m (t + 16) := by
  have h16 := hw t (by omega)
  have h15 := hw (t + 1) (by omega)
  have h7 := hw (t + 9) (by omega)
  have h2 := hw (t + 14) (by omega)
  have hnext : (nextWord w (t + 16)).toBitVec =
      (w.getD t 0).toBitVec + smallSigma0 (w.getD (t + 1) 0).toBitVec + (w.getD (t + 9) 0).toBitVec +
        smallSigma1 (w.getD (t + 14) 0).toBitVec := rfl
  rw [hnext, scheduled_add, h16, h15, h7, h2]
  ac_rfl

/-- The first words of the schedule. -/
def schedulePrefix (block : List UInt8) (n : ℕ) : List UInt32 :=
  (List.range' 16 n).foldl (fun w i => w ++ [nextWord w i])
    ((List.range 16).map fun i => fromBeBytes ((block.drop (4 * i)).take 4))

/-- **The message schedule**, word by word. -/
theorem schedulePrefix_spec {block : List UInt8} (hblock : block.length = 64) (n : ℕ) :
    (schedulePrefix block n).length = n + 16 ∧
      ∀ t < n + 16, ((schedulePrefix block n).getD t 0).toBitVec = scheduled (word block) t := by
  induction n with
  | zero =>
    refine ⟨rfl, fun t ht => ?_⟩
    have hget : (schedulePrefix block 0).getD t 0 = fromBeBytes ((block.drop (4 * t)).take 4) := by
      unfold schedulePrefix
      rw [List.getD_eq_getElem?_getD]
      simp [ht]
    rw [hget, toBitVec_word hblock (by omega), scheduled_of_lt _ (by omega)]
  | succ n ih =>
    obtain ⟨hlen, hwords⟩ := ih
    have hnext : schedulePrefix block (n + 1) =
        schedulePrefix block n ++ [nextWord (schedulePrefix block n) (n + 16)] := by
      unfold schedulePrefix
      rw [List.range'_concat, List.foldl_append, Nat.one_mul, Nat.add_comm 16 n]
      rfl
    refine ⟨by rw [hnext, List.length_append, hlen, List.length_singleton, Nat.add_right_comm], fun t ht => ?_⟩
    rw [hnext, List.getD_eq_getElem?_getD]
    rcases Nat.lt_succ_iff_lt_or_eq.mp (show t < n + 16 + 1 by omega) with hlt | rfl
    · rw [List.getElem?_append_left (by omega), ← List.getD_eq_getElem?_getD]
      exact hwords t hlt
    · rw [List.getElem?_append_right (by omega), hlen, Nat.sub_self]
      exact toBitVec_nextWord hwords

theorem length_schedule {block : List UInt8} (hblock : block.length = 64) : (schedule block).length = 64 :=
  (schedulePrefix_spec hblock 48).1

theorem schedule_spec {block : List UInt8} (hblock : block.length = 64) {t : ℕ} (ht : t < 64) :
    ((schedule block).getD t 0).toBitVec = scheduled (word block) t :=
  (schedulePrefix_spec hblock 48).2 t ht

/-- **The rounds**, one after the other. -/
theorem toRegisters_rounds (s : State) {block : List UInt8} (hblock : block.length = 64) {n : ℕ} (hn : n ≤ 64) :
    toRegisters (((sha256K.zip (schedule block)).take n).foldl (fun s kw => round s kw.1 kw.2) s) =
      registers constants (word block) (toRegisters s) n := by
  induction n with
  | zero => rfl
  | succ n ih =>
    have hk : sha256K.length = 64 := rfl
    have hw := length_schedule hblock
    have hzip : (sha256K.zip (schedule block))[n]? = some (sha256K.getD n 0, (schedule block).getD n 0) := by
      rw [List.getElem?_zip_eq_some, List.getD_eq_getElem?_getD, List.getD_eq_getElem?_getD,
        List.getElem?_eq_getElem (by omega), List.getElem?_eq_getElem (by omega)]
      exact ⟨rfl, rfl⟩
    rw [List.take_add_one, hzip, Option.toList_some, List.foldl_append, List.foldl_cons, List.foldl_nil,
      toRegisters_round, ih (by omega), schedule_spec hblock (by omega)]
    rfl

/-- The intermediate hash value, word by word. -/
theorem toRegisters_add (h s : State) :
    toRegisters ⟨h.a + s.a, h.b + s.b, h.c + s.c, h.d + s.d, h.e + s.e, h.f + s.f, h.g + s.g, h.i + s.i⟩ =
      (toRegisters h).add (toRegisters s) := by
  simp only [toRegisters, Registers.add, UInt32.toBitVec_add, BitVec.add_comm]

/-- **One compression.** -/
theorem toRegisters_sha256Block (s : State) {block : List UInt8} (hblock : block.length = 64) :
    toRegisters (sha256Block s block) = compress constants (toRegisters s) (word block) := by
  have hlen : (sha256K.zip (schedule block)).length ≤ 64 := by
    rw [List.length_zip, length_schedule hblock]
    exact Nat.min_le_right _ _
  have hrounds := toRegisters_rounds s hblock le_rfl
  rw [List.take_of_length_le hlen] at hrounds
  rw [compress, ← hrounds]
  exact toRegisters_add s _

/-! ### The padded message -/

theorem toBeBytes_eq {n : ℕ} (hn : n ≤ 8) (x : UInt64) : toBeBytes n x = bigEndian n x.toNat := by
  refine List.map_congr_left fun i hi => ?_
  have hi : i < n := List.mem_range.1 hi
  have hshift : (UInt64.ofNat (8 * (n - 1 - i))).toNat % 64 = 8 * (n - 1 - i) := by
    rw [UInt64.toNat_ofNat']
    omega
  refine UInt8.toNat_inj.1 ?_
  rw [UInt64.toNat_toUInt8, UInt64.toNat_shiftRight, hshift, Nat.shiftRight_eq_div_pow, UInt8.toNat_ofNat',
    Nat.pow_mul]

/-- **The tail is the rest, padded.** -/
theorem tailOf_eq {rest : List UInt8} (hrest : rest.length < 64) (length : ℕ) :
    tailOf rest length =
      rest ++ [0x80] ++ List.replicate (zeros rest.length) 0 ++ bigEndian 8 (8 * length) := by
  have hlength : (UInt64.ofNat length * 8).toNat = 8 * length % 256 ^ 8 := by
    rw [UInt64.toNat_mul, UInt64.toNat_ofNat']
    have h8 : UInt64.toNat 8 = 8 := rfl
    rw [h8]
    omega
  have hzeros : (if rest.length < 56 then 64 else 128) - 8 - (rest.length + 1) = zeros rest.length := by
    rw [zeros_eq]
    split_ifs with h <;> omega
  unfold tailOf
  dsimp only
  rw [hzeros, toBeBytes_eq le_rfl, hlength, bigEndian_mod]

theorem padded_eq (data : List UInt8) :
    padded data = data.take (64 * (data.length / 64)) ++
      tailOf (data.drop (64 * (data.length / 64))) data.length := by
  have hpre : (data.take (64 * (data.length / 64))).length % 64 = 0 := by
    rw [List.length_take]
    omega
  have hrest : (data.drop (64 * (data.length / 64))).length < 64 := by
    rw [List.length_drop]
    omega
  have hpadded := padded_append (data.take (64 * (data.length / 64))) (data.drop (64 * (data.length / 64))) hpre
  rwa [List.take_append_drop, ← tailOf_eq hrest] at hpadded

/-! ### All blocks -/

theorem blocksOf_eq (n : ℕ) (m : List UInt8) : blocksOf n m = (List.range n).map (block m) := by
  induction n generalizing m with
  | zero => rfl
  | succ n ih =>
    have hshift : block (m.drop 64) = block m ∘ Nat.succ := by
      funext i
      rw [Function.comp_apply, block, block, List.drop_drop, Nat.mul_succ, Nat.add_comm]
    rw [blocksOf, ih, hshift, List.range_succ_eq_map, List.map_cons, List.map_map]
    rfl

theorem toRegisters_blocks (m : List UInt8) (s : State) (l : List ℕ) (hl : ∀ i ∈ l, 64 * (i + 1) ≤ m.length) :
    toRegisters ((l.map (block m)).foldl sha256Block s) =
      l.foldl (fun r i => compress constants r (word (block m i))) (toRegisters s) := by
  induction l generalizing s with
  | nil => rfl
  | cons i l ih =>
    obtain ⟨hi, hl⟩ := List.forall_mem_cons.1 hl
    rw [List.map_cons, List.foldl_cons, ih _ hl, toRegisters_sha256Block s (length_block hi), List.foldl_cons]

theorem bytes_toRegisters (h : State) :
    [h.a, h.b, h.c, h.d, h.e, h.f, h.g, h.i].flatMap (fun x => toBeBytes 4 x.toUInt64) =
      (toRegisters h).bytes := by
  have hword : ∀ x : UInt32, toBeBytes 4 x.toUInt64 = bigEndian 4 x.toBitVec.toNat := by
    intro x
    rw [toBeBytes_eq (by omega), UInt32.toNat_toUInt64, UInt32.toNat_toBitVec]
  simp only [List.flatMap_cons, List.flatMap_nil, hword]
  rfl

/-- The blocks of the data and of the tail are those of the padded message. -/
theorem blocks_padded {data pre rest tail : List UInt8} {n k : ℕ} (hdata : data = pre ++ rest)
    (hpadded : padded data = pre ++ tail) (hpre : pre.length = 64 * n) (htail : tail.length = 64 * k) :
    blocksOf n data ++ blocksOf k tail = (List.range ((padded data).length / 64)).map (block (padded data)) := by
  have hlen : (padded data).length / 64 = n + k := by
    rw [hpadded, List.length_append, hpre, htail, ← Nat.mul_add]
    omega
  have hfront : (List.range n).map (block data) = (List.range n).map (block (padded data)) := by
    refine List.map_congr_left fun i hi => ?_
    have hi : i < n := List.mem_range.1 hi
    rw [hpadded, hdata, block_append_left (by omega), block_append_left (by omega)]
  have hback : (List.range k).map (block tail) = (List.range k).map (block (padded data) ∘ (n + ·)) := by
    refine List.map_congr_left fun i _ => ?_
    rw [Function.comp_apply, hpadded, block_append hpre]
  rw [blocksOf_eq, blocksOf_eq, hlen, List.range_add, List.map_append, List.map_map, hfront, hback]

/-- **The code hashes the padded message.** -/
theorem sha256_blocks (data : List UInt8) :
    sha256 data = (hashValue constants (toRegisters initial) data).bytes := by
  have hpadded := padded_eq data
  have hpre : (data.take (64 * (data.length / 64))).length = 64 * (data.length / 64) := by
    rw [List.length_take]
    omega
  have htail : (tailOf (data.drop (64 * (data.length / 64))) data.length).length =
      64 * ((tailOf (data.drop (64 * (data.length / 64))) data.length).length / 64) := by
    have hmod := length_padded_mod data
    rw [hpadded, List.length_append, hpre] at hmod
    omega
  have hblocks := blocks_padded (List.take_append_drop _ data).symm hpadded hpre htail
  have hfold := toRegisters_blocks (padded data) initial (List.range ((padded data).length / 64))
    fun i hi => by have hi := List.mem_range.1 hi; omega
  rw [← hblocks, List.foldl_append] at hfold
  unfold sha256 hashValue
  rw [← hfold]
  exact bytes_toRegisters _

/-! ### The constants -/

/-- The primes below 312, which is less than 18 times 18. -/
def primes : List ℕ := (List.range 312).filter fun p => 2 ≤ p ∧ ∀ m : ℕ, m < 18 → m ∣ p → m = 1 ∨ m = p

theorem mem_primes (p : ℕ) : p ∈ primes ↔ p < 312 ∧ p.Prime := by
  rw [primes, List.mem_filter, List.mem_range, decide_eq_true_iff]
  refine and_congr_right fun hp => ⟨fun h => ?_, fun h => ⟨h.two_le, fun m _ hdvd => (Nat.dvd_prime h).1 hdvd⟩⟩
  refine Nat.prime_def_le_sqrt.2 ⟨h.1, fun m hm hsqrt hdvd => ?_⟩
  have hsq : m * m ≤ p := Nat.le_sqrt.1 hsqrt
  have htwo : 2 * m ≤ m * m := Nat.mul_le_mul_right m hm
  have hlt : m < 18 := by
    by_contra hge
    have hbig : 18 * 18 ≤ m * m := Nat.mul_le_mul (by omega) (by omega)
    omega
  rcases h.2 m hlt hdvd with rfl | rfl
  · omega
  · omega

theorem primes_pairwise : primes.Pairwise (· < ·) := List.Pairwise.filter _ List.pairwise_lt_range

theorem primes_eq : primes = [
  2, 3, 5, 7, 11, 13, 17, 19, 23, 29, 31, 37, 41, 43, 47, 53, 59, 61, 67, 71, 73, 79, 83, 89, 97, 101,
  103, 107, 109, 113, 127, 131, 137, 139, 149, 151, 157, 163, 167, 173, 179, 181, 191, 193, 197, 199,
  211, 223, 227, 229, 233, 239, 241, 251, 257, 263, 269, 271, 277, 281, 283, 293, 307, 311] := by
  decide +kernel

/-- The round constants are of cube roots, -/
theorem constants_roots {t : ℕ} (ht : t < 64) : IsRootBits 3 (primes.getD t 0) (constants t) := by
  have hroots : ∀ t < 64, ∃ q < 20,
      (q * 2 ^ 32 + (constants t).toNat) ^ 3 ≤ primes.getD t 0 * 2 ^ 96 ∧
        primes.getD t 0 * 2 ^ 96 < (q * 2 ^ 32 + (constants t).toNat + 1) ^ 3 := by
    rw [primes_eq]
    decide +kernel
  obtain ⟨q, -, h⟩ := hroots t ht
  exact ⟨q, h⟩

/-- the initial value is of square roots. -/
theorem initial_roots {i : ℕ} (hi : i < 8) :
    IsRootBits 2 (primes.getD i 0) ((toRegisters initial).words.getD i 0) := by
  have hroots : ∀ i < 8, ∃ q < 20,
      (q * 2 ^ 32 + ((toRegisters initial).words.getD i 0).toNat) ^ 2 ≤ primes.getD i 0 * 2 ^ 64 ∧
        primes.getD i 0 * 2 ^ 64 < (q * 2 ^ 32 + ((toRegisters initial).words.getD i 0).toNat + 1) ^ 2 := by
    rw [primes_eq]
    decide +kernel
  obtain ⟨q, -, h⟩ := hroots i hi
  exact ⟨q, h⟩

/-- **The code computes SHA-256.** It folds the standard's compression over the blocks of the padded message,
whatever the length, and starts from the standard's constants: the fractional parts of the cube roots of the
first 64 primes, and of the square roots of the first eight. -/
theorem sha256_eq :
    (∀ data, sha256 data = (hashValue constants (toRegisters initial) data).bytes) ∧
    (∀ t < 64, IsRootBits 3 (primes.getD t 0) (constants t)) ∧
    ∀ i < 8, IsRootBits 2 (primes.getD i 0) ((toRegisters initial).words.getD i 0) :=
  ⟨sha256_blocks, fun _ ht => constants_roots ht, fun _ hi => initial_roots hi⟩

end Kmatrix.E2ee.Fips
