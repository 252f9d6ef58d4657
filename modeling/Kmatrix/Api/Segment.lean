import Kmatrix.Lib.Percent
import Kmatrix.Storage.Seal

/-! # Segments of a path

Ids go into the path of a request after `encode_segment`, which leaves only the unreserved letters of a URL as
they are. Ids come from other servers, so a path has to stay the path it was meant to be whatever is in them.

* `encodeSegment_decode`, `encodeSegment_escaped`: a segment is read back, and what its letters are.
* `path_splitOn`: a path is taken apart into the segments it was put together from.
* `segments_faithful`: both, and what follows for the URL that an event is sent to. -/

namespace Kmatrix.Api.Segment

open Kmatrix.Lib.Percent
open Kmatrix.Storage.Seal (utf8 fromUtf8_utf8)

/-! ### The code -/

def isUnreserved (b : UInt8) : Bool :=
  ('A'.toUInt8 ≤ b && b ≤ 'Z'.toUInt8) || ('a'.toUInt8 ≤ b && b ≤ 'z'.toUInt8) ||
    ('0'.toUInt8 ≤ b && b ≤ '9'.toUInt8) || b = '-'.toUInt8 || b = '.'.toUInt8 || b = '_'.toUInt8 ||
    b = '~'.toUInt8

def HEX : List Char := "0123456789ABCDEF".toList

/-- Percent-encode one URL path segment. -/
def encodeSegment (s : String) : String :=
  String.ofList ((utf8 s).flatMap fun b =>
    if isUnreserved b then [Char.ofUInt8 b]
    else ['%', HEX.getD (b >>> 4).toNat '0', HEX.getD (b &&& 0x0f).toNat '0'])

/-- The path of `Api::send_event`. -/
def sendPath (room kind txn : String) : String :=
  "/_matrix/client/v3/rooms/" ++ encodeSegment room ++ "/send/" ++ encodeSegment kind ++ "/" ++
    encodeSegment txn

/-- `Api::url`. -/
def url (base path : String) : String := base ++ path

/-! ### Letters -/

/-- The unreserved letters of a URL. -/
def Unreserved (c : Char) : Prop := c.isAlphanum = true ∨ c ∈ ['-', '.', '_', '~']

theorem isUnreserved_iff (b : UInt8) : isUnreserved b = true ↔ (65 ≤ b.toNat ∧ b.toNat ≤ 90) ∨
    (97 ≤ b.toNat ∧ b.toNat ≤ 122) ∨ (48 ≤ b.toNat ∧ b.toNat ≤ 57) ∨ b.toNat = 45 ∨ b.toNat = 46 ∨
    b.toNat = 95 ∨ b.toNat = 126 := by
  unfold isUnreserved
  simp only [Bool.or_eq_true, Bool.and_eq_true, decide_eq_true_eq, UInt8.le_iff_toNat_le, ← UInt8.toNat_inj]
  simp only [show 'A'.toUInt8.toNat = 65 from rfl, show 'Z'.toUInt8.toNat = 90 from rfl,
    show 'a'.toUInt8.toNat = 97 from rfl, show 'z'.toUInt8.toNat = 122 from rfl,
    show '0'.toUInt8.toNat = 48 from rfl, show '9'.toUInt8.toNat = 57 from rfl,
    show '-'.toUInt8.toNat = 45 from rfl, show '.'.toUInt8.toNat = 46 from rfl,
    show '_'.toUInt8.toNat = 95 from rfl, show '~'.toUInt8.toNat = 126 from rfl]
  omega

theorem unreserved_of_isUnreserved {b : UInt8} (h : isUnreserved b = true) : Unreserved (Char.ofUInt8 b) := by
  have hval : (Char.ofUInt8 b).val.toNat = b.toNat := rfl
  have hsign : ∀ {c : Char}, b.toNat = c.toNat → Char.ofUInt8 b = c := fun h => Char.ext (UInt32.toNat_inj.mp h)
  unfold Unreserved Char.isAlphanum Char.isAlpha Char.isUpper Char.isLower Char.isDigit
  simp only [Bool.or_eq_true, Bool.and_eq_true, decide_eq_true_eq, ge_iff_le, UInt32.le_iff_toNat_le, hval,
    List.mem_cons, List.not_mem_nil, or_false]
  rcases (isUnreserved_iff b).mp h with h | h | h | h | h | h | h
  · exact .inl (.inl (.inl h))
  · exact .inl (.inl (.inr h))
  · exact .inl (.inr h)
  · exact .inr (.inl (hsign h))
  · exact .inr (.inr (.inl (hsign h)))
  · exact .inr (.inr (.inr (.inl (hsign h))))
  · exact .inr (.inr (.inr (.inr (hsign h))))

theorem unreserved_ne {c : Char} (h : Unreserved c) : c ≠ '/' ∧ c ≠ '?' ∧ c ≠ '#' := by
  refine ⟨?_, ?_, ?_⟩ <;> rintro rfl <;> exact absurd h (by unfold Unreserved; decide)

/-! ### One segment -/

theorem toList_encodeSegment (s : String) : (encodeSegment s).toList = encode isUnreserved (utf8 s) := by
  have hbyte : ∀ b : UInt8, escape b = ['%', HEX.getD (b >>> 4).toNat '0', HEX.getD (b &&& 0x0f).toNat '0'] := by
    intro b
    have hhigh : (b >>> 4).toNat = b.toNat / 16 := by
      rw [UInt8.toNat_shiftRight]
      exact Nat.shiftRight_eq_div_pow b.toNat 4
    have hlow : (b &&& 0x0f).toNat = b.toNat % 16 := by
      rw [UInt8.toNat_and]
      exact Nat.and_two_pow_sub_one_eq_mod b.toNat 4
    rw [hhigh, hlow]
    rfl
  unfold encodeSegment encode encodeByte
  rw [String.toList_ofList]
  simp only [hbyte]

theorem encodeSegment_decode (s : String) : decode (encodeSegment s).toList = some (utf8 s) := by
  rw [toList_encodeSegment]
  refine decode_encode (fun b hb => ?_) _
  have := (isUnreserved_iff b).mp hb
  omega

theorem encodeSegment_escaped (s : String) : Escaped Unreserved (encodeSegment s).toList := by
  rw [toList_encodeSegment]
  exact escaped_encode (fun b hb => unreserved_of_isUnreserved hb) _

theorem encodeSegment_injective : Function.Injective encodeSegment := by
  intro s t h
  have hs := encodeSegment_decode s
  rw [h, encodeSegment_decode] at hs
  have htexts := congrArg Kmatrix.Storage.Seal.fromUtf8 (Option.some.inj hs)
  rw [fromUtf8_utf8, fromUtf8_utf8] at htexts
  exact (Option.some.inj htexts).symm

/-- No delimiter is left in a segment. -/
theorem not_mem_encodeSegment {c : Char} (hc : c ∈ ['/', '?', '#']) (s : String) :
    c ∉ (encodeSegment s).toList := by
  intro hmem
  rcases (encodeSegment_escaped s).mem hmem with h | rfl | h
  · obtain ⟨hslash, hquery, hfragment⟩ := unreserved_ne h
    simp [hslash, hquery, hfragment] at hc
  · exact absurd hc (by decide)
  · simp only [List.mem_cons, List.not_mem_nil, or_false] at hc
    rcases hc with rfl | rfl | rfl <;> exact absurd h (by decide)

/-! ### A path -/

/-- The segments of the path of an event, from the slash it begins with. -/
def sendSegments (room kind txn : String) : List (List Char) :=
  [[], "_matrix".toList, "client".toList, "v3".toList, "rooms".toList, (encodeSegment room).toList, "send".toList,
    (encodeSegment kind).toList, (encodeSegment txn).toList]

theorem toList_sendPath (room kind txn : String) :
    (sendPath room kind txn).toList = ['/'].intercalate (sendSegments room kind txn) := by
  have hrooms : "/_matrix/client/v3/rooms/".toList = '/' :: ("_matrix".toList ++ '/' ::
      ("client".toList ++ '/' :: ("v3".toList ++ '/' :: ("rooms".toList ++ ['/'])))) := rfl
  have hsend : "/send/".toList = '/' :: ("send".toList ++ ['/']) := rfl
  have hslash : "/".toList = ['/'] := rfl
  unfold sendPath sendSegments
  simp only [String.toList_append, hrooms, hsend, hslash, List.intercalate_cons_cons, List.intercalate_singleton,
    List.append_assoc, List.cons_append, List.nil_append]

theorem delimiter_not_mem {c : Char} (hc : c ∈ ['/', '?', '#']) {room kind txn : String} {part : List Char}
    (h : part ∈ sendSegments room kind txn) : c ∉ part := by
  have hids := not_mem_encodeSegment hc
  simp only [List.mem_cons, List.not_mem_nil, or_false] at hc
  simp only [sendSegments, List.mem_cons, List.not_mem_nil, or_false] at h
  rcases h with rfl | rfl | rfl | rfl | rfl | rfl | rfl | rfl | rfl
  · exact List.not_mem_nil
  · rcases hc with rfl | rfl | rfl <;> decide
  · rcases hc with rfl | rfl | rfl <;> decide
  · rcases hc with rfl | rfl | rfl <;> decide
  · rcases hc with rfl | rfl | rfl <;> decide
  · exact hids room
  · rcases hc with rfl | rfl | rfl <;> decide
  · exact hids kind
  · exact hids txn

/-- **The path of an event has the segments it was made of.** -/
theorem path_splitOn (room kind txn : String) :
    (sendPath room kind txn).toList.splitOn '/' = sendSegments room kind txn := by
  rw [toList_sendPath]
  exact List.splitOn_intercalate '/' (fun _ h => delimiter_not_mem (by decide) h) (List.cons_ne_nil _ _)

/-- Neither a query nor a fragment. -/
theorem not_mem_sendPath {c : Char} (hc : c = '?' ∨ c = '#') (room kind txn : String) :
    c ∉ (sendPath room kind txn).toList := by
  have hids : ∀ s, c ∉ (encodeSegment s).toList := not_mem_encodeSegment (by rcases hc with rfl | rfl <;> decide)
  have hrooms : c ∉ "/_matrix/client/v3/rooms/".toList := by rcases hc with rfl | rfl <;> decide
  have hsend : c ∉ "/send/".toList := by rcases hc with rfl | rfl <;> decide
  have hslash : c ∉ "/".toList := by rcases hc with rfl | rfl <;> decide
  unfold sendPath
  simp only [String.toList_append, List.mem_append, not_or]
  exact ⟨⟨⟨⟨⟨hrooms, hids room⟩, hsend⟩, hids kind⟩, hslash⟩, hids txn⟩

theorem sendPath_inj {room kind txn room' kind' txn' : String}
    (h : sendPath room kind txn = sendPath room' kind' txn') : room = room' ∧ kind = kind' ∧ txn = txn' := by
  have hparts := path_splitOn room kind txn
  rw [h, path_splitOn] at hparts
  simp only [sendSegments, List.cons.injEq, String.toList_inj, true_and, and_true] at hparts
  exact ⟨(encodeSegment_injective hparts.1).symm, (encodeSegment_injective hparts.2.1).symm,
    (encodeSegment_injective hparts.2.2).symm⟩

/-- Segments that are joined are the ones the path splits into. -/
theorem join_splitOn (ids : List String) (hne : ids ≠ []) :
    ("/".intercalate (ids.map encodeSegment)).toList.splitOn '/' = ids.map fun id => (encodeSegment id).toList := by
  have hslash : ∀ part ∈ ids.map (fun id => (encodeSegment id).toList), '/' ∉ part := by
    intro part h
    obtain ⟨id, -, rfl⟩ := List.mem_map.mp h
    exact not_mem_encodeSegment (by decide) id
  rw [String.toList_intercalate, List.map_map]
  exact List.splitOn_intercalate '/' hslash (by simpa using hne)

/-- **Segments cannot escape**: a segment is read back and has only unreserved letters and triplets, joined
segments are the ones the path splits into, and two events of one server share a URL only if they have room, kind
and transaction in common; nothing in an id adds a segment, a query or a fragment. -/
theorem segments_faithful :
    (∀ s, decode (encodeSegment s).toList = some (utf8 s)) ∧
    (∀ s, Escaped Unreserved (encodeSegment s).toList) ∧
    (∀ a b c, ("/".intercalate [encodeSegment a, encodeSegment b, encodeSegment c]).toList.splitOn '/' =
      [(encodeSegment a).toList, (encodeSegment b).toList, (encodeSegment c).toList]) ∧
    (∀ base room kind txn room' kind' txn',
      url base (sendPath room kind txn) = url base (sendPath room' kind' txn') →
      room = room' ∧ kind = kind' ∧ txn = txn') ∧
    (∀ room kind txn, (sendPath room kind txn).toList.splitOn '/' = sendSegments room kind txn ∧
      '?' ∉ (sendPath room kind txn).toList ∧ '#' ∉ (sendPath room kind txn).toList) := by
  refine ⟨encodeSegment_decode, encodeSegment_escaped, fun a b c => ?_, fun base room kind txn _ _ _ h => ?_,
    fun room kind txn => ⟨path_splitOn room kind txn, ?_, ?_⟩⟩
  · exact join_splitOn [a, b, c] (List.cons_ne_nil _ _)
  · unfold url at h
    exact sendPath_inj ((String.append_right_inj base).mp h)
  · exact not_mem_sendPath (.inl rfl) room kind txn
  · exact not_mem_sendPath (.inr rfl) room kind txn

end Kmatrix.Api.Segment
