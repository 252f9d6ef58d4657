import Mathlib.Tactic.Common

/-! # Decrypted plaintexts

A plaintext is JSON text. `Json` is what its grammar yields, before anything is asked of it: objects
keep their members in order, repeated keys included, and `valueless` is a literal that is well formed
and yet denotes nothing (a lone surrogate escape, a number out of range), which a decoder only meets
where it has to produce the value. The parser itself is a parameter (`SerdeJson`).

The daemon reads a plaintext in two ways. `DecryptedEvent.ofJson` is the derived decoder of the typed
structs: fields by name out of an object or by position out of an array, a field given twice or with
the wrong type an error. `Json.untypedBody` is a chain of lookups in a `serde_json::Value`, where the
last of a repeated key wins. `untypedBody_of_typed` says where the second agrees with the first. -/

namespace Kmatrix.Sync.Plaintext

/-- A JSON tree. -/
inductive Json where
  | null
  | bool (b : Bool)
  | num (literal : String)
  | str (s : String)
  | arr (items : List Json)
  | obj (members : List (String × Json))
  | valueless

/-- `serde_json`: the text to a tree, and the text of the error where a typed decoder fails. -/
structure SerdeJson where
  parse : String → Option Json
  describe : String → String

/-- How many containers may be open at once. -/
def nestingLimit : ℕ := 127

/-! ### The typed decoder -/

/-- `Relation`. -/
structure Relation where
  relType : Option String := none
  eventId : Option String := none
  deriving DecidableEq, Repr

/-- `EventContent`: every content field the client uses, over all event types. -/
structure EventContent where
  body : Option String := none
  msgtype : Option String := none
  name : Option String := none
  canonicalAlias : Option String := none
  displayname : Option String := none
  algorithm : Option String := none
  ciphertext : Option String := none
  senderKey : Option String := none
  sessionId : Option String := none
  deviceId : Option String := none
  membership : Option String := none
  newContent : Option EventContent := none
  relatesTo : Option Relation := none
  deriving Repr

instance : Inhabited EventContent := ⟨{}⟩

/-- The values a struct with the fields `names` finds: by name in an object, where no field may be
given twice, or by position in an array no longer than the struct. -/
def fields (names : List String) : Json → Option (String → Option Json)
  | .obj members =>
    if names.all fun n => (members.filter fun m => m.1 = n).length ≤ 1 then
      some fun n => (members.find? fun m => m.1 = n).map Prod.snd
    else none
  | .arr items => if items.length ≤ names.length then some fun n => items[names.idxOf n]? else none
  | _ => none

/-- An `Option<String>` with a default. -/
def optString : Option Json → Option (Option String)
  | none => some none
  | some .null => some none
  | some (.str s) => some (some s)
  | some _ => none

/-- An `Option<T>` with a default. -/
def optOf {α : Type} (decode : Json → Option α) : Option Json → Option (Option α)
  | none => some none
  | some .null => some none
  | some j => (decode j).map some

def Relation.ofJson (depth : ℕ) (j : Json) : Option Relation :=
  if depth = 0 then none
  else do
    let get ← fields ["rel_type", "event_id"] j
    let relType ← optString (get "rel_type")
    let eventId ← optString (get "event_id")
    return { relType := relType, eventId := eventId }

/-- The fields of `EventContent`, in the order they are declared. -/
def contentFields : List String :=
  ["body", "msgtype", "name", "alias", "displayname", "algorithm", "ciphertext", "sender_key",
    "session_id", "device_id", "membership", "m.new_content", "m.relates_to"]

/-- `depth` containers may still be opened. -/
def EventContent.ofJson : ℕ → Json → Option EventContent
  | 0, _ => none
  | depth + 1, j => do
    let get ← fields contentFields j
    let body ← optString (get "body")
    let msgtype ← optString (get "msgtype")
    let name ← optString (get "name")
    let canonicalAlias ← optString (get "alias")
    let displayname ← optString (get "displayname")
    let algorithm ← optString (get "algorithm")
    let ciphertext ← optString (get "ciphertext")
    let senderKey ← optString (get "sender_key")
    let sessionId ← optString (get "session_id")
    let deviceId ← optString (get "device_id")
    let membership ← optString (get "membership")
    let newContent ← optOf (EventContent.ofJson depth) (get "m.new_content")
    let relatesTo ← optOf (Relation.ofJson depth) (get "m.relates_to")
    return { body, msgtype, name, canonicalAlias, displayname, algorithm, ciphertext, senderKey,
             sessionId, deviceId, membership, newContent, relatesTo }

/-- **`DecryptedEvent`**: its content, default where the field is missing. -/
def DecryptedEvent.ofJson (j : Json) : Option EventContent := do
  let get ← fields ["content"] j
  match get "content" with
  | none => return {}
  | some c => EventContent.ofJson (nestingLimit - 1) c

/-- `serde_json::from_str::<DecryptedEvent>`. -/
def SerdeJson.decryptedEvent (serde : SerdeJson) (text : String) : Except String EventContent :=
  match (serde.parse text).bind DecryptedEvent.ofJson with
  | some content => .ok content
  | none => .error (serde.describe text)

/-! ### The untyped decoder -/

mutual
/-- How deep the containers nest. -/
def Json.depth : Json → ℕ
  | .arr items => depthItems items + 1
  | .obj members => depthMembers members + 1
  | _ => 0
def depthItems : List Json → ℕ
  | [] => 0
  | j :: items => max j.depth (depthItems items)
def depthMembers : List (String × Json) → ℕ
  | [] => 0
  | (_, j) :: members => max j.depth (depthMembers members)
end

mutual
/-- Every literal denotes a value. -/
def Json.hasValue : Json → Bool
  | .arr items => hasValueItems items
  | .obj members => hasValueMembers members
  | .valueless => false
  | _ => true
def hasValueItems : List Json → Bool
  | [] => true
  | j :: items => j.hasValue && hasValueItems items
def hasValueMembers : List (String × Json) → Bool
  | [] => true
  | (_, j) :: members => j.hasValue && hasValueMembers members
end

/-- `Value::get`: the last of a repeated key. -/
def Json.get (j : Json) (key : String) : Option Json :=
  match j with
  | .obj members => (members.reverse.find? fun m => m.1 = key).map Prod.snd
  | _ => none

/-- `Value::as_str`. -/
def Json.asStr : Json → Option String
  | .str s => some s
  | _ => none

/-- `serde_json::from_str::<Value>`. -/
def SerdeJson.value (serde : SerdeJson) (text : String) : Option Json :=
  (serde.parse text).bind fun j => if j.depth ≤ nestingLimit && j.hasValue then some j else none

/-- `v.get("content").get("body").as_str()`, or the empty text. -/
def Json.untypedBody (j : Json) : String :=
  (((j.get "content").bind fun c => c.get "body").bind Json.asStr).getD ""

/-! ### Where the two agree -/

/-- A member that is given at most once is the first and the last of its key. -/
theorem find_reverse_eq {members : List (String × Json)} {n : String}
    (h : (members.filter fun m => m.1 = n).length ≤ 1) :
    (members.reverse.find? fun m => m.1 = n) = members.find? fun m => m.1 = n := by
  rw [← List.head?_filter, ← List.head?_filter, List.filter_reverse, List.head?_reverse]
  rcases hf : members.filter fun m => m.1 = n with _ | ⟨a, _ | ⟨b, l⟩⟩
  · rw [hf]; rfl
  · rw [hf]; rfl
  · rw [hf] at h
    simp at h

/-- What a struct finds in an object, the untyped lookup finds too. -/
theorem get_eq_of_fields {names : List String} {j : Json} {get : String → Option Json}
    (h : fields names j = some get) {n : String} (hn : n ∈ names) {v : Json} (hv : j.get n = some v) :
    get n = some v := by
  cases j with
  | obj members =>
    unfold fields at h
    dsimp only at h
    split_ifs at h with hall
    cases h
    have hone := List.all_eq_true.mp hall n hn
    unfold Json.get at hv
    dsimp only at hv ⊢
    rw [find_reverse_eq (by simpa using hone)] at hv
    exact hv
  | _ => cases hv

/-- A body the untyped lookup finds as a text is the typed body. -/
theorem body_of_ofJson {depth : ℕ} {c : Json} {content : EventContent} {s : String}
    (h : EventContent.ofJson depth c = some content) (hb : c.get "body" = some (.str s)) :
    content.body = some s := by
  rcases depth with _ | depth
  · cases h
  · unfold EventContent.ofJson at h
    obtain ⟨get, hget, h⟩ := Option.bind_eq_some_iff.mp h
    rw [get_eq_of_fields hget (by decide) hb] at h
    -- the other fields are decoded for their errors
    obtain ⟨body, hbody, h⟩ := Option.bind_eq_some_iff.mp h
    iterate 12 obtain ⟨_, -, h⟩ := Option.bind_eq_some_iff.mp h
    cases h
    exact (Option.some.inj hbody).symm

/-- **The two decoders agree on a text body**: where the typed one succeeds and the untyped lookup
finds a text, the typed body is that text. -/
theorem untypedBody_of_typed {j : Json} {content : EventContent}
    (h : DecryptedEvent.ofJson j = some content) (hb : j.untypedBody ≠ "") :
    content.body = some j.untypedBody := by
  unfold Json.untypedBody at hb ⊢
  cases hc : j.get "content" with
  | none => rw [hc] at hb; exact absurd rfl hb
  | some c =>
    rw [hc] at hb
    cases hbody : c.get "body" with
    | none => rw [Option.bind_some, hbody] at hb; exact absurd rfl hb
    | some b =>
      rw [Option.bind_some, hbody, Option.bind_some] at hb ⊢
      cases b with
      | str s =>
        unfold DecryptedEvent.ofJson at h
        obtain ⟨get, hget, h⟩ := Option.bind_eq_some_iff.mp h
        rw [get_eq_of_fields hget (by simp) hc] at h
        exact body_of_ofJson h hbody
      | _ => exact absurd rfl hb

end Kmatrix.Sync.Plaintext
