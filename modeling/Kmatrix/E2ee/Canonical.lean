import Kmatrix.E2ee.Json
import Kmatrix.Lib.Unambiguous
import Kmatrix.Sas.Machine

/-! # Canonical JSON says what was written

A signature and a commitment stand for the content only if no other content is written in the same way. The
letters of a value tell where it ends, except for a number, which ends where a letter follows that no number
has (`Ends`): each value is cut off the front of what is written in one way (`cuts_value`, by recursion over the
value), so the text gives the value back. -/

namespace Kmatrix.E2ee.Canonical

open Kmatrix.Lib.Unambiguous Kmatrix.E2ee.Json Kmatrix.E2ee.Sha256 Kmatrix.Sas.Machine Kmatrix.Storage.Seal

mutual
/-- **The numbers are integers**, all the way down. -/
def Integral : Value → Prop
  | .float _ => False
  | .arr items => IntegralItems items
  | .obj members => IntegralMembers members
  | _ => True
def IntegralItems : List Value → Prop
  | [] => True
  | v :: items => Integral v ∧ IntegralItems items
def IntegralMembers : List (String × Value) → Prop
  | [] => True
  | (_, v) :: members => Integral v ∧ IntegralMembers members
end

/-- What is left of a value to sign. -/
def unsigned : Value → Value
  | .obj members => .obj (members.filter fun m => m.1 ≠ "signatures" && m.1 ≠ "unsigned")
  | v => v

/-- The members of a map, in the order a map has them in. -/
def KeyOrder (members : List (String × Value)) : Prop := members.Pairwise fun m m' => m.1 < m'.1

theorem integralItems_iff (items : List Value) : IntegralItems items ↔ ∀ v ∈ items, Integral v := by
  induction items with
  | nil => simp [IntegralItems]
  | cons v items ih => rw [IntegralItems, ih, List.forall_mem_cons]

theorem integralMembers_iff (members : List (String × Value)) :
    IntegralMembers members ↔ ∀ m ∈ members, Integral m.2 := by
  induction members with
  | nil => simp [IntegralMembers]
  | cons m members ih => rw [IntegralMembers, ih, List.forall_mem_cons]

/-! ### The letters of a value -/

def text (v : Value) : List Char := (writeCanonical v).toList

def escaped (c : Char) : List Char := (escapeChar c).toList

def memberText (m : String × Value) : List Char := (writeJsonString m.1).toList ++ ':' :: text m.2

theorem toList_writeJsonString (s : String) :
    (writeJsonString s).toList = '"' :: (s.toList.flatMap escaped ++ ['"']) := by
  have hfold : ∀ (cs : List Char) (acc : String),
      ((cs.map escapeChar).foldl (· ++ ·) acc).toList = acc.toList ++ cs.flatMap escaped := by
    intro cs
    induction cs with
    | nil => simp
    | cons c cs ih =>
      intro acc
      rw [List.map_cons, List.foldl_cons, ih, String.toList_append, List.flatMap_cons, List.append_assoc]
      rfl
  unfold writeJsonString
  rw [String.toList_append, String.toList_append, hfold]
  rfl

theorem writeItems_eq (items : List Value) : writeItems items = items.map writeCanonical := by
  induction items with
  | nil => rfl
  | cons v items ih => rw [writeItems, ih, List.map_cons]

theorem writeMembers_eq (members : List (String × Value)) :
    writeMembers members = members.map fun m => writeJsonString m.1 ++ ":" ++ writeCanonical m.2 := by
  induction members with
  | nil => rfl
  | cons m members ih => rw [writeMembers, ih, List.map_cons]

theorem text_arr (items : List Value) :
    text (.arr items) = '[' :: ([','].intercalate (items.map text) ++ [']']) := by
  unfold text
  rw [writeCanonical, writeItems_eq, String.toList_append, String.toList_append, String.toList_intercalate,
    List.map_map]
  rfl

theorem text_obj (members : List (String × Value)) :
    text (.obj members) = '\x7b' :: ([','].intercalate (members.map memberText) ++ ['\x7d']) := by
  have hmember : ∀ m : String × Value,
      (writeJsonString m.1 ++ ":" ++ writeCanonical m.2).toList = memberText m := by
    intro m
    rw [String.toList_append, String.toList_append, List.append_assoc]
    rfl
  have hmembers : (members.map fun m => writeJsonString m.1 ++ ":" ++ writeCanonical m.2).map String.toList =
      members.map memberText := by
    rw [List.map_map]
    exact List.map_congr_left fun m _ => hmember m
  unfold text
  rw [writeCanonical, writeMembers_eq, String.toList_append, String.toList_append, String.toList_intercalate,
    hmembers]
  rfl

/-! ### Strings -/

/-- The characters that are not written as they are. -/
def specials : List Char := '"' :: '\\' :: (List.range 32).map Char.ofNat

theorem escaped_special : ∀ c ∈ specials, ∃ cs, escaped c = '\\' :: cs := by
  have hall : specials.all (fun c => (escaped c).head? = some '\\') = true := by decide +kernel
  intro c hc
  exact List.head?_eq_some_iff.mp (of_decide_eq_true (List.all_eq_true.mp hall c hc))

theorem escaped_plain {c : Char} (hc : c ∉ specials) : escaped c = [c] := by
  have hcontrol : ¬ c.toNat < 0x20 := by
    intro hlt
    refine hc (List.mem_cons_of_mem _ (List.mem_cons_of_mem _ (List.mem_map.mpr ⟨c.toNat, ?_, ?_⟩)))
    · exact List.mem_range.mpr hlt
    · exact Char.ofNat_toNat c
  have hne : ∀ d ∈ specials, c ≠ d := fun d hd h => hc (h ▸ hd)
  have hnames : '"' ∈ specials ∧ '\\' ∈ specials ∧ '\n' ∈ specials ∧ '\r' ∈ specials ∧ '\t' ∈ specials := by
    decide +kernel
  obtain ⟨hquote, hback, hn, hr, ht⟩ := hnames
  unfold escaped escapeChar
  rw [if_neg (hne _ hquote), if_neg (hne _ hback), if_neg (by omega), if_neg (by omega), if_neg (hne _ hn),
    if_neg (hne _ hr), if_neg (hne _ ht), if_neg hcontrol]
  exact String.toList_singleton c

/-- **No escape starts another.** -/
theorem prefixFree_escaped : PrefixFree escaped := by
  have hall : specials.all (fun c => specials.all fun d => (escaped c).isPrefixOf (escaped d) → c = d) = true := by
    decide +kernel
  have hspecials : ∀ c ∈ specials, ∀ d ∈ specials, escaped c <+: escaped d → c = d := fun c hc d hd h =>
    of_decide_eq_true (List.all_eq_true.mp (List.all_eq_true.mp hall c hc) d hd) (List.isPrefixOf_iff_prefix.mpr h)
  have hback : '\\' ∈ specials := by decide
  intro c d h
  by_cases hc : c ∈ specials
  · by_cases hd : d ∈ specials
    · exact hspecials c hc d hd h
    · obtain ⟨cs, hcs⟩ := escaped_special c hc
      rw [hcs, escaped_plain hd, List.cons_prefix_cons] at h
      exact absurd (h.1 ▸ hback) hd
  · by_cases hd : d ∈ specials
    · obtain ⟨ds, hds⟩ := escaped_special d hd
      rw [escaped_plain hc, hds, List.cons_prefix_cons] at h
      exact absurd (h.1 ▸ hback) hc
    · rw [escaped_plain hc, escaped_plain hd, List.cons_prefix_cons] at h
      exact h.1

/-- A quote in a string is not the quote at its end. -/
theorem escaped_ne_quote (c : Char) : ∃ d ds, escaped c = d :: ds ∧ d ≠ '"' := by
  by_cases hc : c ∈ specials
  · obtain ⟨cs, hcs⟩ := escaped_special c hc
    exact ⟨_, cs, hcs, by decide⟩
  · refine ⟨c, [], escaped_plain hc, ?_⟩
    rintro rfl
    exact hc List.mem_cons_self

/-- **A string ends at its second quote.** -/
theorem string_inj {s t : String} {r r' : List Char}
    (h : (writeJsonString s).toList ++ r = (writeJsonString t).toList ++ r') : s = t ∧ r = r' := by
  rw [toList_writeJsonString, toList_writeJsonString, List.cons_append, List.cons_append, List.append_assoc,
    List.append_assoc] at h
  have htail := (List.cons.inj h).2
  obtain ⟨hs, hr⟩ := flatMap_inj prefixFree_escaped escaped_ne_quote htail
  exact ⟨String.toList_inj.mp hs, hr⟩

/-! ### Numbers -/

/-- The letters of a number. -/
def Numeric (c : Char) : Prop := c.isDigit = true ∨ c = '-'

instance : DecidablePred Numeric := fun c => inferInstanceAs (Decidable (c.isDigit = true ∨ c = '-'))

/-- **No letter follows that a number has.** -/
def Ends (r : List Char) : Prop := ∀ c ∈ r.head?, ¬ Numeric c

theorem toList_int (n : ℤ) :
    (toString n).toList = if 0 ≤ n then Nat.toDigits 10 n.toNat else '-' :: Nat.toDigits 10 (-n).toNat := by
  rw [Int.toString_eq_repr, Int.repr_eq_if]
  split_ifs
  · rw [Nat.toList_repr]
  · rw [String.toList_append, Nat.toList_repr]
    rfl

theorem numeric_int {n : ℤ} {c : Char} (hc : c ∈ (toString n).toList) : Numeric c := by
  have hdigits : ∀ m, c ∈ Nat.toDigits 10 m → Numeric c := fun m h =>
    Or.inl (Nat.isDigit_of_mem_toDigits (by omega) (by omega) h)
  rw [toList_int] at hc
  split_ifs at hc
  · exact hdigits _ hc
  · rcases List.mem_cons.mp hc with rfl | hc
    · exact Or.inr rfl
    · exact hdigits _ hc

theorem minus_not_mem (m : ℕ) : '-' ∉ Nat.toDigits 10 m := fun h =>
  absurd (Nat.isDigit_of_mem_toDigits (by omega) (by omega) h) (by decide)

theorem int_inj {m n : ℤ} (h : (toString m).toList = (toString n).toList) : m = n := by
  rw [toList_int, toList_int] at h
  split_ifs at h with hm hn hn
  · have hdigits := digits_inj h
    omega
  · exact absurd (h ▸ List.mem_cons_self) (minus_not_mem _)
  · exact absurd (h ▸ List.mem_cons_self) (minus_not_mem _)
  · have hdigits := digits_inj (List.cons.inj h).2
    omega

/-! ### Values -/

/-- What a value is. -/
def kind : Value → ℕ
  | .null => 0
  | .bool true => 1
  | .bool false => 2
  | .int _ => 3
  | .float _ => 4
  | .str _ => 5
  | .arr _ => 6
  | .obj _ => 7

/-- What a letter starts. -/
def kindOf (c : Char) : ℕ :=
  if c = 'n' then 0 else if c = 't' then 1 else if c = 'f' then 2 else if c = '"' then 5
  else if c = '[' then 6 else if c = '\x7b' then 7 else 3

theorem kindOf_numeric {c : Char} (h : Numeric c) : kindOf c = 3 ∧ c ≠ ']' := by
  have hne : ∀ d : Char, ¬ Numeric d → c ≠ d := fun d hd heq => hd (heq ▸ h)
  unfold kindOf
  rw [if_neg (hne _ (by decide)), if_neg (hne _ (by decide)), if_neg (hne _ (by decide)),
    if_neg (hne _ (by decide)), if_neg (hne _ (by decide)), if_neg (hne _ (by decide))]
  exact ⟨rfl, hne _ (by decide)⟩

/-- **The first letter tells what a value is.** -/
theorem text_head {v : Value} (hv : Integral v) : ∃ c cs, text v = c :: cs ∧ kindOf c = kind v ∧ c ≠ ']' := by
  rcases v with _ | b | n | t | s | items | members
  · exact ⟨'n', _, rfl, rfl, by decide⟩
  · rcases b with _ | _
    · exact ⟨'f', _, rfl, rfl, by decide⟩
    · exact ⟨'t', _, rfl, rfl, by decide⟩
  · have hne : (toString n).toList ≠ [] := by
      rw [toList_int]
      split_ifs
      · exact Nat.toDigits_ne_nil
      · exact List.cons_ne_nil _ _
    obtain ⟨c, cs, hcs⟩ := List.exists_cons_of_ne_nil hne
    obtain ⟨hkind, hc⟩ := kindOf_numeric (numeric_int (hcs ▸ List.mem_cons_self))
    exact ⟨c, cs, hcs, hkind, hc⟩
  · exact absurd hv (by simp [Integral])
  · exact ⟨'"', _, toList_writeJsonString s, rfl, by decide⟩
  · exact ⟨'[', _, text_arr items, rfl, by decide⟩
  · exact ⟨'\x7b', _, text_obj members, rfl, by decide⟩

theorem kind_eq {v w : Value} (hv : Integral v) (hw : Integral w) {r r' : List Char}
    (h : text v ++ r = text w ++ r') : kind v = kind w := by
  obtain ⟨c, cs, hcs, hkind, -⟩ := text_head hv
  obtain ⟨c', cs', hcs', hkind', -⟩ := text_head hw
  rw [hcs, hcs', List.cons_append, List.cons_append] at h
  rw [← hkind, ← hkind', (List.cons.inj h).1]

/-- A value that begins like this one. -/
def Alike : Value → Value → Prop
  | .null, w => w = .null
  | .bool b, w => w = .bool b
  | .int _, w => ∃ n, w = .int n
  | .float _, w => ∃ t, w = .float t
  | .str _, w => ∃ s, w = .str s
  | .arr _, w => ∃ items, w = .arr items
  | .obj _, w => ∃ members, w = .obj members

theorem alike_of_kind {v w : Value} (h : kind v = kind w) : Alike v w := by
  rcases v with _ | ⟨_ | _⟩ | _ | _ | _ | _ | _ <;> rcases w with _ | ⟨_ | _⟩ | _ | _ | _ | _ | _ <;>
    first
    | exact rfl
    | exact ⟨_, rfl⟩
    | exact absurd h (by simp [kind])

theorem ends_cons {c : Char} (hc : ¬ Numeric c) (r : List Char) : Ends (c :: r) := by
  intro d hd
  rw [← Option.some.inj hd]
  exact hc

/-- A member ends where its value does. -/
theorem cuts_member {key : String} {v : Value} (h : Cuts Ends Integral text v) :
    Cuts Ends (fun m => Integral m.2) memberText (key, v) := by
  rintro ⟨key', v'⟩ r r' hv' hr hr' heq
  unfold memberText at heq
  rw [List.append_assoc, List.append_assoc] at heq
  obtain ⟨rfl, hvalue⟩ := string_inj heq
  obtain ⟨rfl, hrest⟩ := h v' r r' hv' hr hr' (List.cons.inj hvalue).2
  exact ⟨rfl, hrest⟩

/-- No member is the end of its object. -/
theorem memberText_head (m : String × Value) : ∃ c cs, memberText m = c :: cs ∧ c ≠ '\x7d' := by
  unfold memberText
  rw [toList_writeJsonString]
  exact ⟨'"', _, rfl, by decide⟩

mutual
/-- **A value is cut off** the front of what is written. -/
theorem cuts_value : ∀ v, Integral v → Cuts Ends Integral text v
  | .null, hv => by
    intro w r r' hw _ _ h
    have hkind := kind_eq hv hw h
    obtain rfl : w = .null := alike_of_kind hkind
    exact ⟨rfl, List.append_cancel_left h⟩
  | .bool b, hv => by
    intro w r r' hw _ _ h
    have hkind := kind_eq hv hw h
    obtain rfl : w = .bool b := alike_of_kind hkind
    exact ⟨rfl, List.append_cancel_left h⟩
  | .int n, hv => by
    intro w r r' hw hr hr' h
    have hkind := kind_eq hv hw h
    obtain ⟨m, rfl⟩ : ∃ m, w = .int m := alike_of_kind hkind
    obtain ⟨htext, hrest⟩ := run_inj (fun c hc => numeric_int hc) (fun c hc => numeric_int hc) hr hr' h
    exact ⟨congrArg Value.int (int_inj htext), hrest⟩
  | .float _, hv => hv.elim
  | .str s, hv => by
    intro w r r' hw _ _ h
    have hkind := kind_eq hv hw h
    obtain ⟨t, rfl⟩ : ∃ t, w = .str t := alike_of_kind hkind
    obtain ⟨rfl, hrest⟩ := string_inj h
    exact ⟨rfl, hrest⟩
  | .arr items, hv => by
    intro w r r' hw _ _ h
    have hkind := kind_eq hv hw h
    obtain ⟨items', rfl⟩ : ∃ items', w = .arr items' := alike_of_kind hkind
    rw [text_arr, text_arr, List.cons_append, List.cons_append, List.append_assoc, List.append_assoc] at h
    obtain ⟨rfl, hrest⟩ := separated_inj (by decide) (ends_cons (by decide)) (ends_cons (by decide))
      (fun v hv => (text_head hv).imp fun c => .imp fun cs hc => ⟨hc.1, hc.2.2⟩) (cuts_items items hv)
      ((integralItems_iff items').mp hw) (List.cons.inj h).2
    exact ⟨rfl, hrest⟩
  | .obj members, hv => by
    intro w r r' hw _ _ h
    have hkind := kind_eq hv hw h
    obtain ⟨members', rfl⟩ : ∃ members', w = .obj members' := alike_of_kind hkind
    rw [text_obj, text_obj, List.cons_append, List.cons_append, List.append_assoc, List.append_assoc] at h
    obtain ⟨rfl, hrest⟩ := separated_inj (by decide) (ends_cons (by decide)) (ends_cons (by decide))
      (fun m _ => memberText_head m) (cuts_members members hv) ((integralMembers_iff members').mp hw)
      (List.cons.inj h).2
    exact ⟨rfl, hrest⟩
theorem cuts_items : ∀ items, IntegralItems items → ∀ v ∈ items, Integral v ∧ Cuts Ends Integral text v
  | [], _ => fun _ hv => absurd hv List.not_mem_nil
  | v :: items, h => List.forall_mem_cons.mpr ⟨⟨h.1, cuts_value v h.1⟩, cuts_items items h.2⟩
theorem cuts_members : ∀ members, IntegralMembers members → ∀ m ∈ members,
    Integral m.2 ∧ Cuts Ends (fun m => Integral m.2) memberText m
  | [], _ => fun _ hm => absurd hm List.not_mem_nil
  | (_, v) :: members, h =>
    List.forall_mem_cons.mpr ⟨⟨h.1, cuts_member (cuts_value v h.1)⟩, cuts_members members h.2⟩
end

/-- **Two values are written alike only if they are the same.** -/
theorem writeCanonical_inj {v w : Value} (hv : Integral v) (hw : Integral w) :
    writeCanonical v = writeCanonical w ↔ v = w := by
  refine ⟨fun h => ?_, fun h => by rw [h]⟩
  have hnil : Ends [] := fun c hc => by cases hc
  have htext : text v ++ [] = text w ++ [] := congrArg (fun s => s.toList ++ []) h
  exact (cuts_value v hv w [] [] hw hnil hnil htext).1

/-! ### What is signed -/

theorem canonicalJson_eq (v : Value) : canonicalJson v = writeCanonical (unsigned v) := by
  rcases v with _ | _ | _ | _ | _ | _ | _ <;> rfl

theorem integral_unsigned {v : Value} (hv : Integral v) : Integral (unsigned v) := by
  rcases v with _ | _ | _ | _ | _ | _ | members
  · exact hv
  · exact hv
  · exact hv
  · exact hv
  · exact hv
  · exact hv
  · exact (integralMembers_iff _).mpr fun m hm => (integralMembers_iff members).mp hv m (List.mem_filter.mp hm).1

/-! ### Maps -/

theorem member_of_mem {members : List (String × Value)} (h : KeyOrder members) {m : String × Value}
    (hm : m ∈ members) : member members m.1 = some m.2 := by
  unfold member
  induction members with
  | nil => cases hm
  | cons m' members ih =>
    obtain ⟨hlt, hrest⟩ := List.pairwise_cons.mp h
    rcases List.mem_cons.mp hm with rfl | hm
    · simp
    · have hne : m'.1 ≠ m.1 := (hlt m hm).ne
      simpa [hne] using ih hrest hm

theorem mem_of_member {members : List (String × Value)} {key : String} {v : Value}
    (h : member members key = some v) : (key, v) ∈ members := by
  obtain ⟨m, hm, rfl⟩ := Option.map_eq_some_iff.mp h
  obtain rfl : m.1 = key := by simpa using List.find?_some hm
  exact List.mem_of_find?_eq_some hm

/-- **A map is its entries**: in key order they are listed in one way. -/
theorem keyOrder_ext {members members' : List (String × Value)} (h : KeyOrder members)
    (h' : KeyOrder members') (heq : ∀ key, member members key = member members' key) : members = members' := by
  have hnodup : ∀ {ms : List (String × Value)}, KeyOrder ms → ms.Nodup := by
    intro ms hms
    refine List.Pairwise.imp ?_ hms
    intro m m' hlt heq
    exact hlt.ne (congrArg Prod.fst heq)
  have hmem : ∀ m, m ∈ members ↔ m ∈ members' := by
    intro m
    constructor
    · intro hm
      exact mem_of_member ((heq m.1).symm.trans (member_of_mem h hm))
    · intro hm
      exact mem_of_member ((heq m.1).trans (member_of_mem h' hm))
  refine List.Perm.eq_of_pairwise (fun m m' _ _ hlt hlt' => absurd hlt' hlt.asymm) h h' ?_
  exact (List.perm_ext_iff_of_nodup (hnodup h) (hnodup h')).mpr hmem

/-! ### What a commitment hashes -/

/-- Our key and their start, as `commitment` hashes them. -/
def committed (ourKey : String) (start : Value) : Bytes := utf8 ourKey ++ utf8 (canonicalJsonVerbatim start)

theorem utf8_inj {s t : String} (h : utf8 s = utf8 t) : s = t := by
  have hread := fromUtf8_utf8 s
  rw [h, fromUtf8_utf8] at hread
  exact (Option.some.inj hread).symm

/-- **Canonical JSON is faithful.** Two values whose numbers are integers are written alike only if they are
the same, and are signed alike only if they are the same without `signatures` and `unsigned`; a commitment
hashes other bytes for another content; and objects are the same exactly if they have the same entries. -/
theorem canonical_faithful :
    (∀ v w, Integral v → Integral w → (canonicalJsonVerbatim v = canonicalJsonVerbatim w ↔ v = w)) ∧
    (∀ v w, Integral v → Integral w → (canonicalJson v = canonicalJson w ↔ unsigned v = unsigned w)) ∧
    (∀ ourKey v w, Integral v → Integral w → (committed ourKey v = committed ourKey w ↔ v = w)) ∧
    ∀ members members', KeyOrder members → KeyOrder members' →
      (Value.obj members = .obj members' ↔ ∀ key, member members key = member members' key) := by
  refine ⟨fun v w hv hw => writeCanonical_inj hv hw, fun v w hv hw => ?_, fun ourKey v w hv hw => ?_,
    fun members members' h h' => ?_⟩
  · rw [canonicalJson_eq, canonicalJson_eq, writeCanonical_inj (integral_unsigned hv) (integral_unsigned hw)]
  · unfold committed
    rw [List.append_cancel_left_eq, ← writeCanonical_inj hv hw]
    exact ⟨utf8_inj, fun h => congrArg utf8 h⟩
  · refine ⟨fun heq key => ?_, fun heq => congrArg Value.obj (keyOrder_ext h h' heq)⟩
    rw [Value.obj.inj heq]

/-- A signed key, and the same key under another signature. -/
theorem canonical_faithful_signed :
    canonicalJson (.obj [("key", .str "k"), ("signatures", .str "a")]) =
      canonicalJson (.obj [("key", .str "k"), ("signatures", .str "b")]) ∧
    canonicalJsonVerbatim (.obj [("key", .str "k"), ("signatures", .str "a")]) ≠
      canonicalJsonVerbatim (.obj [("key", .str "k"), ("signatures", .str "b")]) := by
  have hintegral : ∀ s, Integral (.obj [("key", .str "k"), ("signatures", .str s)]) := fun s =>
    ⟨trivial, trivial, trivial⟩
  constructor
  · refine (canonical_faithful.2.1 _ _ (hintegral _) (hintegral _)).mpr ?_
    have hother : ∀ s, unsigned (.obj [("key", .str "k"), ("signatures", .str s)]) = .obj [("key", .str "k")] :=
      fun s => rfl
    rw [hother, hother]
  · intro h
    have heq := (canonical_faithful.1 _ _ (hintegral _) (hintegral _)).mp h
    simp at heq

end Kmatrix.E2ee.Canonical
