import Mathlib.Algebra.Group.Int.Defs
import Mathlib.Data.Int.Notation
import Mathlib.Data.String.Basic
import Mathlib.Tactic.Common

/-! # JSON values

`serde_json::Value`, as the content of a to-device event or a `/keys/query` answer comes in: a tree
whose numbers are integers or floats (a float by the text it prints as) and whose objects are maps. The
members of a map come in key order, no key twice; `get` and `asObject` do not depend on it.

`canonicalJson` and `canonicalJsonVerbatim` write a value without white space; the first drops the
members `signatures` and `unsigned` of the top-level object. -/

namespace Kmatrix.E2ee.Json

/-- **A JSON value.** -/
inductive Value where
  | null
  | bool (b : Bool)
  | int (n : ℤ)
  | float (text : String)
  | str (s : String)
  | arr (items : List Value)
  | obj (members : List (String × Value))

namespace Value

/-- `Value::get` with a string index. -/
def get (v : Value) (key : String) : Option Value :=
  match v with
  | obj members => (members.find? fun m => m.1 = key).map Prod.snd
  | _ => none

/-- `Value::as_str`. -/
def asStr : Value → Option String
  | str s => some s
  | _ => none

/-- `Value::as_array`. -/
def asArray : Value → Option (List Value)
  | arr items => some items
  | _ => none

/-- `Value::as_object`. -/
def asObject : Value → Option (List (String × Value))
  | obj members => some members
  | _ => none

/-- `Value::as_u64`. -/
def asU64 : Value → Option ℕ
  | int n => if 0 ≤ n ∧ n < 2 ^ 64 then some n.toNat else none
  | _ => none

/-- `v.get(key).and_then(Value::as_str)`. -/
def getStr (v : Value) (key : String) : Option String := (v.get key).bind asStr

/-- The member is an array that lists the text `wanted`. -/
def offers (v : Value) (key wanted : String) : Bool :=
  match (v.get key).bind asArray with
  | some items => items.any fun item => item.asStr = some wanted
  | none => false

end Value

/-! ### Maps -/

/-- `Map::insert`. -/
def insertMember {α : Type} (key : String) (v : α) : List (String × α) → List (String × α)
  | [] => [(key, v)]
  | m :: members =>
    if key < m.1 then (key, v) :: m :: members
    else if key = m.1 then (key, v) :: members
    else m :: insertMember key v members

/-- The entry of a map. -/
def member {α : Type} (members : List (String × α)) (key : String) : Option α :=
  (members.find? fun m => m.1 = key).map Prod.snd

@[simp] theorem member_insertMember {α : Type} (key key' : String) (v : α)
    (members : List (String × α)) :
    member (insertMember key v members) key' = if key' = key then some v else member members key' := by
  unfold member
  induction members with
  | nil =>
    unfold insertMember
    by_cases h : key' = key
    · simp [h]
    · simp [h, Ne.symm h]
  | cons m members ih =>
    unfold insertMember
    by_cases hlt : key < m.1
    · rw [if_pos hlt]
      by_cases h : key' = key
      · simp [h]
      · simp [h, Ne.symm h]
    · rw [if_neg hlt]
      by_cases heq : key = m.1
      · rw [if_pos heq]
        by_cases h : key' = key
        · simp [h]
        · have hm : m.1 ≠ key' := fun hm => h (hm.symm.trans heq.symm)
          simp [h, Ne.symm h, hm]
      · rw [if_neg heq]
        by_cases hm : m.1 = key'
        · have h : key' ≠ key := fun h => heq (h.symm.trans hm.symm)
          simp [hm, h]
        · simpa [hm] using ih

/-! ### Canonical JSON -/

/-- A hexadecimal digit. -/
def hexDigit (n : ℕ) : Char := "0123456789abcdef".toList.getD n '0'

/-- One character between the quotes. -/
def escapeChar (c : Char) : String :=
  if c = '"' then "\\\""
  else if c = '\\' then "\\\\"
  else if c.toNat = 0x08 then "\\b"
  else if c.toNat = 0x0c then "\\f"
  else if c = '\n' then "\\n"
  else if c = '\r' then "\\r"
  else if c = '\t' then "\\t"
  else if c.toNat < 0x20 then
    "\\u" ++ String.ofList ([12, 8, 4, 0].map fun shift => hexDigit (c.toNat / 2 ^ shift % 16))
  else String.singleton c

def writeJsonString (s : String) : String :=
  "\"" ++ (s.toList.map escapeChar).foldl (· ++ ·) "" ++ "\""

mutual
/-- **`write_canonical`.** -/
def writeCanonical : Value → String
  | .null => "null"
  | .bool true => "true"
  | .bool false => "false"
  | .int n => toString n
  | .float text => text
  | .str s => writeJsonString s
  | .arr items => "[" ++ ",".intercalate (writeItems items) ++ "]"
  | .obj members => "\x7b" ++ ",".intercalate (writeMembers members) ++ "\x7d"
def writeItems : List Value → List String
  | [] => []
  | v :: items => writeCanonical v :: writeItems items
def writeMembers : List (String × Value) → List String
  | [] => []
  | (key, v) :: members => (writeJsonString key ++ ":" ++ writeCanonical v) :: writeMembers members
end

/-- Canonical JSON as it is signed. -/
def canonicalJson : Value → String
  | .obj members => writeCanonical
      (.obj (members.filter fun m => m.1 ≠ "signatures" && m.1 ≠ "unsigned"))
  | v => writeCanonical v

/-- Canonical JSON with nothing removed, as the commitment hashes it. -/
def canonicalJsonVerbatim (v : Value) : String := writeCanonical v

example : canonicalJson (.obj [("a", .arr [.int 1, .null]), ("b", .str "x\ny"), ("unsigned", .null)])
    = "\x7b\"a\":[1,null],\"b\":\"x\\ny\"\x7d" := by decide +kernel

end Kmatrix.E2ee.Json
