import Mathlib.Data.List.Basic
import Mathlib.Data.List.Nodup
import Mathlib.Tactic.Common

/-! # Base64, standard alphabet, padded

`encode` writes three bytes as four characters and pads the last group with `=`; `decode` accepts
exactly that: whole groups of four, padding in the last group only and never more than needed, and
the unused bits of a padded group zero. `decode_encode` is the round trip, `encode_of_decode` that there is
no other text for the same bytes. -/

namespace Kmatrix.Lib.Base64

/-- The 64 characters, each at the index it stands for. -/
def alphabet : List Char :=
  "ABCDEFGHIJKLMNOPQRSTUVWXYZabcdefghijklmnopqrstuvwxyz0123456789+/".toList

/-- The character of a six-bit number. -/
def digit (n : ℕ) : Char := alphabet.getD n 'A'

/-- The six-bit number of a character. -/
def value (c : Char) : Option ℕ := alphabet.idxOf? c

/-- The encoder. -/
def encode : List UInt8 → List Char
  | [] => []
  | [a] => [digit (a.toNat / 4), digit (a.toNat % 4 * 16), '=', '=']
  | [a, b] =>
    [digit (a.toNat / 4), digit (a.toNat % 4 * 16 + b.toNat / 16), digit (b.toNat % 16 * 4), '=']
  | a :: b :: c :: rest =>
    digit (a.toNat / 4) :: digit (a.toNat % 4 * 16 + b.toNat / 16) ::
      digit (b.toNat % 16 * 4 + c.toNat / 64) :: digit (c.toNat % 64) :: encode rest

/-- A full group: three bytes. -/
def group3 (c0 c1 c2 c3 : Char) : Option (List UInt8) := do
  let v0 ← value c0
  let v1 ← value c1
  let v2 ← value c2
  let v3 ← value c3
  some [UInt8.ofNat (v0 * 4 + v1 / 16), UInt8.ofNat (v1 % 16 * 16 + v2 / 4),
    UInt8.ofNat (v2 % 4 * 64 + v3)]

/-- A group with one `=`: two bytes. -/
def group2 (c0 c1 c2 : Char) : Option (List UInt8) := do
  let v0 ← value c0
  let v1 ← value c1
  let v2 ← value c2
  if v2 % 4 = 0 then
    some [UInt8.ofNat (v0 * 4 + v1 / 16), UInt8.ofNat (v1 % 16 * 16 + v2 / 4)]
  else none

/-- A group with two `=`: one byte. -/
def group1 (c0 c1 : Char) : Option (List UInt8) := do
  let v0 ← value c0
  let v1 ← value c1
  if v1 % 16 = 0 then some [UInt8.ofNat (v0 * 4 + v1 / 16)] else none

/-- The decoder. -/
def decode : List Char → Option (List UInt8)
  | [] => some []
  | [c0, c1, c2, c3] =>
    if c3 = '=' then (if c2 = '=' then group1 c0 c1 else group2 c0 c1 c2) else group3 c0 c1 c2 c3
  | c0 :: c1 :: c2 :: c3 :: rest => do
    let bytes ← group3 c0 c1 c2 c3
    let more ← decode rest
    some (bytes ++ more)
  | _ => none

/-- The decoder of the unpadded form: the last group is filled up first. -/
def decodeNoPad (cs : List Char) : Option (List UInt8) :=
  if '=' ∈ cs then none else decode (cs ++ List.replicate ((4 - cs.length % 4) % 4) '=')

/-! ### The alphabet -/

/-- In a list without repetitions an entry is found where it stands. -/
theorem idxOf?_iff {α : Type} [BEq α] [LawfulBEq α] {l : List α} (h : l.Nodup) {a : α} {i : ℕ} :
    l.idxOf? a = some i ↔ l[i]? = some a := by
  rw [List.idxOf?_eq_some_iff, List.getElem?_eq_some_iff]
  refine exists_congr fun hi => and_iff_left_of_imp ?_
  rintro rfl j hj heq
  have hij := h.getElem_inj_iff.mp heq
  omega

theorem alphabet_eq : alphabet =
    ['A', 'B', 'C', 'D', 'E', 'F', 'G', 'H', 'I', 'J', 'K', 'L', 'M', 'N', 'O', 'P',
      'Q', 'R', 'S', 'T', 'U', 'V', 'W', 'X', 'Y', 'Z', 'a', 'b', 'c', 'd', 'e', 'f',
      'g', 'h', 'i', 'j', 'k', 'l', 'm', 'n', 'o', 'p', 'q', 'r', 's', 't', 'u', 'v',
      'w', 'x', 'y', 'z', '0', '1', '2', '3', '4', '5', '6', '7', '8', '9', '+', '/'] := by
  decide +kernel

theorem length_alphabet : alphabet.length = 64 := by
  rw [alphabet_eq]
  rfl

theorem nodup_alphabet : alphabet.Nodup := by
  rw [alphabet_eq]
  decide +kernel

theorem getElem?_alphabet {n : ℕ} (h : n < 64) : alphabet[n]? = some (digit n) := by
  have hn : n < alphabet.length := by rwa [length_alphabet]
  rw [digit, List.getD_eq_getElem?_getD, List.getElem?_eq_getElem hn, Option.getD_some]

theorem value_digit {n : ℕ} (h : n < 64) : value (digit n) = some n :=
  (idxOf?_iff nodup_alphabet).mpr (getElem?_alphabet h)

theorem value_eq_some {c : Char} {n : ℕ} (h : value c = some n) : n < 64 ∧ digit n = c := by
  have hget := (idxOf?_iff nodup_alphabet).mp h
  have hn : n < 64 := by
    rw [← length_alphabet]
    exact (List.getElem?_eq_some_iff.mp hget).1
  exact ⟨hn, Option.some.inj ((getElem?_alphabet hn).symm.trans hget)⟩

theorem digit_mem {n : ℕ} (h : n < 64) : digit n ∈ alphabet := List.mem_of_getElem? (getElem?_alphabet h)

theorem digit_ne_pad {n : ℕ} (h : n < 64) : digit n ≠ '=' := by
  have hpad : '=' ∉ alphabet := by
    rw [alphabet_eq]
    decide
  exact fun heq => hpad (heq ▸ digit_mem h)

/-! ### The round trip -/

theorem ofNat_eq {a : UInt8} {n : ℕ} (h : n = a.toNat) : UInt8.ofNat n = a := by
  rw [h]; exact UInt8.ofNat_toNat

section Groups
variable (a b c : UInt8)

theorem group1_digits : group1 (digit (a.toNat / 4)) (digit (a.toNat % 4 * 16)) = some [a] := by
  have ha := a.toNat_lt
  unfold group1
  rw [value_digit (by omega), value_digit (by omega)]
  simp only [Option.bind_eq_bind, Option.bind_some]
  rw [if_pos (by omega), ofNat_eq (a := a) (by omega)]

theorem group2_digits : group2 (digit (a.toNat / 4)) (digit (a.toNat % 4 * 16 + b.toNat / 16))
    (digit (b.toNat % 16 * 4)) = some [a, b] := by
  have ha := a.toNat_lt
  have hb := b.toNat_lt
  unfold group2
  rw [value_digit (by omega), value_digit (by omega), value_digit (by omega)]
  simp only [Option.bind_eq_bind, Option.bind_some]
  rw [if_pos (by omega), ofNat_eq (a := a) (by omega), ofNat_eq (a := b) (by omega)]

theorem group3_digits : group3 (digit (a.toNat / 4)) (digit (a.toNat % 4 * 16 + b.toNat / 16))
    (digit (b.toNat % 16 * 4 + c.toNat / 64)) (digit (c.toNat % 64)) = some [a, b, c] := by
  have ha := a.toNat_lt
  have hb := b.toNat_lt
  have hc := c.toNat_lt
  unfold group3
  rw [value_digit (by omega), value_digit (by omega), value_digit (by omega),
    value_digit (by omega)]
  simp only [Option.bind_eq_bind, Option.bind_some]
  rw [ofNat_eq (a := a) (by omega), ofNat_eq (a := b) (by omega), ofNat_eq (a := c) (by omega)]

end Groups

/-- **The round trip.** -/
theorem decode_encode : ∀ bytes : List UInt8, decode (encode bytes) = some bytes
  | [] => rfl
  | [a] => by
    simp only [encode, decode, if_true]
    exact group1_digits a
  | [a, b] => by
    have hb := b.toNat_lt
    simp only [encode, decode, if_true]
    rw [if_neg (digit_ne_pad (by omega))]
    exact group2_digits a b
  | [a, b, c] => by
    simp only [encode, decode]
    rw [if_neg (digit_ne_pad (by omega))]
    exact group3_digits a b c
  | a :: b :: c :: d :: rest => by
    have ih := decode_encode (d :: rest)
    obtain ⟨x, xs, hx⟩ : ∃ x xs, encode (d :: rest) = x :: xs := by
      rcases rest with _ | ⟨e, _ | ⟨f, rest⟩⟩ <;> exact ⟨_, _, rfl⟩
    rw [show encode (a :: b :: c :: d :: rest) = digit (a.toNat / 4) ::
      digit (a.toNat % 4 * 16 + b.toNat / 16) :: digit (b.toNat % 16 * 4 + c.toNat / 64) ::
      digit (c.toNat % 64) :: encode (d :: rest) from rfl]
    rw [hx] at ih ⊢
    simp only [decode, group3_digits, ih, Option.bind_eq_bind, Option.bind_some]
    rfl

/-- The text is at least as long as the bytes. -/
theorem length_le_encode : ∀ bytes : List UInt8, bytes.length ≤ (encode bytes).length
  | [] => by simp [encode]
  | [a] => by simp [encode]
  | [a, b] => by simp [encode]
  | a :: b :: c :: rest => by
    have ih := length_le_encode rest
    simp only [encode, List.length_cons]
    omega

/-- The text is of the alphabet, and padding. -/
theorem mem_encode : ∀ {bytes : List UInt8} {c : Char}, c ∈ encode bytes → c ∈ alphabet ∨ c = '='
  | [], c, h => by simp [encode] at h
  | [a], c, h => by
    have ha := a.toNat_lt
    simp only [encode, List.mem_cons, List.not_mem_nil, or_false] at h
    rcases h with rfl | rfl | rfl | rfl
    · exact Or.inl (digit_mem (by omega))
    · exact Or.inl (digit_mem (by omega))
    · exact Or.inr rfl
    · exact Or.inr rfl
  | [a, b], c, h => by
    have ha := a.toNat_lt
    have hb := b.toNat_lt
    simp only [encode, List.mem_cons, List.not_mem_nil, or_false] at h
    rcases h with rfl | rfl | rfl | rfl
    · exact Or.inl (digit_mem (by omega))
    · exact Or.inl (digit_mem (by omega))
    · exact Or.inl (digit_mem (by omega))
    · exact Or.inr rfl
  | a :: b :: d :: rest, c, h => by
    have ha := a.toNat_lt
    have hb := b.toNat_lt
    have hd := d.toNat_lt
    simp only [encode, List.mem_cons] at h
    rcases h with rfl | rfl | rfl | rfl | h
    · exact Or.inl (digit_mem (by omega))
    · exact Or.inl (digit_mem (by omega))
    · exact Or.inl (digit_mem (by omega))
    · exact Or.inl (digit_mem (by omega))
    · exact mem_encode h

/-! ### The image of the encoder -/

theorem toNat_ofNat_of_lt {n : ℕ} (h : n < 256) : (UInt8.ofNat n).toNat = n := by
  rw [UInt8.toNat_ofNat']
  omega

/-- What a group decodes to encodes to it. -/
theorem group1_eq_some {c0 c1 : Char} {bytes : List UInt8} (h : group1 c0 c1 = some bytes) :
    encode bytes = [c0, c1, '=', '='] := by
  unfold group1 at h
  simp only [Option.bind_eq_bind, Option.bind_eq_some_iff] at h
  obtain ⟨v0, h0, v1, h1, h⟩ := h
  obtain ⟨hlt0, rfl⟩ := value_eq_some h0
  obtain ⟨hlt1, rfl⟩ := value_eq_some h1
  split_ifs at h with hunused
  obtain rfl := Option.some.inj h
  have ha : (UInt8.ofNat (v0 * 4 + v1 / 16)).toNat = v0 * 4 + v1 / 16 := toNat_ofNat_of_lt (by omega)
  have hd0 : (v0 * 4 + v1 / 16) / 4 = v0 := by omega
  have hd1 : (v0 * 4 + v1 / 16) % 4 * 16 = v1 := by omega
  simp only [encode, ha, hd0, hd1]

theorem group2_eq_some {c0 c1 c2 : Char} {bytes : List UInt8} (h : group2 c0 c1 c2 = some bytes) :
    encode bytes = [c0, c1, c2, '='] := by
  unfold group2 at h
  simp only [Option.bind_eq_bind, Option.bind_eq_some_iff] at h
  obtain ⟨v0, h0, v1, h1, v2, h2, h⟩ := h
  obtain ⟨hlt0, rfl⟩ := value_eq_some h0
  obtain ⟨hlt1, rfl⟩ := value_eq_some h1
  obtain ⟨hlt2, rfl⟩ := value_eq_some h2
  split_ifs at h with hunused
  obtain rfl := Option.some.inj h
  have ha : (UInt8.ofNat (v0 * 4 + v1 / 16)).toNat = v0 * 4 + v1 / 16 := toNat_ofNat_of_lt (by omega)
  have hb : (UInt8.ofNat (v1 % 16 * 16 + v2 / 4)).toNat = v1 % 16 * 16 + v2 / 4 := toNat_ofNat_of_lt (by omega)
  have hd0 : (v0 * 4 + v1 / 16) / 4 = v0 := by omega
  have hd1 : (v0 * 4 + v1 / 16) % 4 * 16 + (v1 % 16 * 16 + v2 / 4) / 16 = v1 := by omega
  have hd2 : (v1 % 16 * 16 + v2 / 4) % 16 * 4 = v2 := by omega
  simp only [encode, ha, hb, hd0, hd1, hd2]

theorem group3_eq_some {c0 c1 c2 c3 : Char} {bytes : List UInt8} (h : group3 c0 c1 c2 c3 = some bytes)
    (more : List UInt8) : encode (bytes ++ more) = c0 :: c1 :: c2 :: c3 :: encode more := by
  unfold group3 at h
  simp only [Option.bind_eq_bind, Option.bind_eq_some_iff] at h
  obtain ⟨v0, h0, v1, h1, v2, h2, v3, h3, h⟩ := h
  obtain ⟨hlt0, rfl⟩ := value_eq_some h0
  obtain ⟨hlt1, rfl⟩ := value_eq_some h1
  obtain ⟨hlt2, rfl⟩ := value_eq_some h2
  obtain ⟨hlt3, rfl⟩ := value_eq_some h3
  obtain rfl := Option.some.inj h
  have ha : (UInt8.ofNat (v0 * 4 + v1 / 16)).toNat = v0 * 4 + v1 / 16 := toNat_ofNat_of_lt (by omega)
  have hb : (UInt8.ofNat (v1 % 16 * 16 + v2 / 4)).toNat = v1 % 16 * 16 + v2 / 4 := toNat_ofNat_of_lt (by omega)
  have hc : (UInt8.ofNat (v2 % 4 * 64 + v3)).toNat = v2 % 4 * 64 + v3 := toNat_ofNat_of_lt (by omega)
  have hd0 : (v0 * 4 + v1 / 16) / 4 = v0 := by omega
  have hd1 : (v0 * 4 + v1 / 16) % 4 * 16 + (v1 % 16 * 16 + v2 / 4) / 16 = v1 := by omega
  have hd2 : (v1 % 16 * 16 + v2 / 4) % 16 * 4 + (v2 % 4 * 64 + v3) / 64 = v2 := by omega
  have hd3 : (v2 % 4 * 64 + v3) % 64 = v3 := by omega
  simp only [List.cons_append, List.nil_append, encode, ha, hb, hc, hd0, hd1, hd2, hd3]

/-- **The decoder accepts the image of the encoder only**: one text for every byte string. -/
theorem encode_of_decode {cs : List Char} {bytes : List UInt8} (h : decode cs = some bytes) :
    encode bytes = cs := by
  induction cs using decode.induct generalizing bytes with
  | case1 =>
    obtain rfl := Option.some.inj h
    rfl
  | case2 c0 c1 =>
    simp only [decode, if_true] at h
    exact group1_eq_some h
  | case3 c0 c1 c2 hpad =>
    simp only [decode, if_true, if_neg hpad] at h
    exact group2_eq_some h
  | case4 c0 c1 c2 c3 hpad =>
    simp only [decode, if_neg hpad] at h
    have hlast := group3_eq_some h []
    rwa [List.append_nil] at hlast
  | case5 c0 c1 c2 c3 rest hrest ih =>
    rw [decode.eq_3 _ _ _ _ _ hrest] at h
    simp only [Option.bind_eq_bind, Option.bind_eq_some_iff] at h
    obtain ⟨first, hfirst, more, hmore, h⟩ := h
    rw [← Option.some.inj h, group3_eq_some hfirst, ih hmore]
  | case6 cs h0 h4 hrest =>
    rw [decode.eq_4 cs h0 h4 hrest] at h
    cases h

/-! ### Without padding -/

/-- The unpadded form. -/
def encodeNoPad (bytes : List UInt8) : List Char := (encode bytes).takeWhile fun c => c ≠ '='

theorem takeWhile_digit {n : ℕ} (h : n < 64) (cs : List Char) :
    (digit n :: cs).takeWhile (fun c => c ≠ '=') = digit n :: cs.takeWhile fun c => c ≠ '=' := by
  rw [List.takeWhile_cons_of_pos (by simpa using digit_ne_pad h)]

/-- The padding fills up the last group. -/
theorem encode_eq_append : ∀ bytes : List UInt8,
    encode bytes = encodeNoPad bytes ++ List.replicate ((4 - (encodeNoPad bytes).length % 4) % 4) '='
  | [] => rfl
  | [a] => by
    have ha := a.toNat_lt
    simp only [encodeNoPad, encode]
    rw [takeWhile_digit (by omega), takeWhile_digit (by omega)]
    rfl
  | [a, b] => by
    have ha := a.toNat_lt
    have hb := b.toNat_lt
    simp only [encodeNoPad, encode]
    rw [takeWhile_digit (by omega), takeWhile_digit (by omega), takeWhile_digit (by omega)]
    rfl
  | a :: b :: c :: rest => by
    have ha := a.toNat_lt
    have hb := b.toNat_lt
    have hc := c.toNat_lt
    have ih := encode_eq_append rest
    have hgroup : encodeNoPad (a :: b :: c :: rest) =
        digit (a.toNat / 4) :: digit (a.toNat % 4 * 16 + b.toNat / 16) ::
          digit (b.toNat % 16 * 4 + c.toNat / 64) :: digit (c.toNat % 64) :: encodeNoPad rest := by
      simp only [encodeNoPad, encode]
      rw [takeWhile_digit (by omega), takeWhile_digit (by omega), takeWhile_digit (by omega),
        takeWhile_digit (by omega)]
    rw [hgroup]
    simp only [encode, List.length_cons, List.cons_append, Nat.add_mod_right, Nat.add_assoc, Nat.reduceAdd]
    rw [← ih]

theorem not_mem_encodeNoPad (bytes : List UInt8) : '=' ∉ encodeNoPad bytes := by
  intro h
  have := List.all_eq_true.mp List.all_takeWhile _ h
  simp at this

theorem decodeNoPad_encodeNoPad (bytes : List UInt8) : decodeNoPad (encodeNoPad bytes) = some bytes := by
  unfold decodeNoPad
  rw [if_neg (not_mem_encodeNoPad bytes), ← encode_eq_append, decode_encode]

example : encode [77, 97, 110, 33] = "TWFuIQ==".toList := by decide

example : decodeNoPad "TWFuIQ".toList = some [77, 97, 110, 33] := by decide

end Kmatrix.Lib.Base64
