import Kmatrix.E2ee.Canonical
import Kmatrix.E2ee.Devices
import Kmatrix.E2ee.Uploads

/-! # Keys that are published

What a device uploads is signed without its `signatures`, and goes to whoever asks for it through a server that
may put anything under `unsigned` and under `signatures`. The same signing key is used for the device keys and
for each one-time key, and `canonical_json` is all that keeps them apart.

`read_as_published`: however the server shows them they are accepted, and read as they were published; and of
all objects that are accepted as signed by this device, none is read as another key than those it has
published. -/

namespace Kmatrix.E2ee.Published

open Kmatrix.E2ee.Json Kmatrix.E2ee.Canonical Kmatrix.E2ee.Sessions Kmatrix.E2ee.Devices
open Kmatrix.E2ee.OneTimeKeys Kmatrix.E2ee.Uploads Kmatrix.Storage.Schema
open Kmatrix.Sas.Machine (DeviceInfo)

/-! ### What is signed -/

/-- The members that `signed_device_keys` signs. -/
def deviceMembers (keys : DeviceKeys) : List (String × Value) :=
  [("algorithms", .arr [.str olmAlgorithm, .str megolmAlgorithm]), ("device_id", .str keys.deviceId),
    ("keys", .obj [("curve25519:" ++ keys.deviceId, .str keys.curve25519Key),
      ("ed25519:" ++ keys.deviceId, .str keys.ed25519Key)]), ("user_id", .str keys.userId)]

def deviceText (keys : DeviceKeys) : String := canonicalJson (.obj (deviceMembers keys))

def oneTimeText (key : String) : String := canonicalJson (.obj [("key", .str key)])

/-- The texts that the device signs: its keys, and one-time keys it has made. -/
def Signed (keys : DeviceKeys) (made : List String) (text : String) : Prop :=
  text = deviceText keys ∨ ∃ key ∈ made, text = oneTimeText key

/-- **Signatures under one key**: those that were made hold, and no others do. -/
structure Signatures (signed : String → Prop) where
  sign : String → String
  verify : String → String → Bool
  made : ∀ text, signed text → verify text (sign text) = true
  unforged : ∀ text signature, verify text signature = true → signed text

/-- What an object has as the signature of a device. -/
def signatureOf (v : Value) (userId deviceId : String) : Option String :=
  ((v.get "signatures").bind fun users => users.get userId).bind fun user => user.getStr ("ed25519:" ++ deviceId)

/-- **The object is accepted** as signed by the device. -/
def Accepted {signed : String → Prop} (E : Signatures signed) (userId deviceId : String) (v : Value) : Prop :=
  ∃ signature, signatureOf v userId deviceId = some signature ∧ E.verify (canonicalJson v) signature = true

/-- **What the server shows** of an upload: all but the signatures of others, and what it adds itself. -/
structure Shows (userId deviceId : String) (uploaded v : Value) : Prop where
  same : unsigned v = unsigned uploaded
  signature : signatureOf v userId deviceId = signatureOf uploaded userId deviceId

/-! ### Reading -/

section Reading
variable {keys : DeviceKeys} {v : Value} {key : String}

/-- Signatures are not looked at. -/
theorem get_unsigned (v : Value) {name : String} (hsignatures : name ≠ "signatures") (hunsigned : name ≠ "unsigned") :
    (unsigned v).get name = v.get name := by
  rcases v with _ | _ | _ | _ | _ | _ | members
  · rfl
  · rfl
  · rfl
  · rfl
  · rfl
  · rfl
  · unfold unsigned Value.get
    dsimp only
    rw [List.find?_filter]
    congr 2
    funext m
    by_cases hm : m.1 = name
    · subst hm
      simp [hsignatures, hunsigned]
    · simp [hm]

theorem curve_ne_ed (d d' : String) : "ed25519:" ++ d ≠ "curve25519:" ++ d' := by
  intro h
  have hlist := congrArg (fun s => s.toList.head?) h
  simp at hlist

/-- **Device keys are read as they were signed**, and under no other device. -/
theorem parse_signed (h : unsigned v = .obj (deviceMembers keys)) (u d : String) :
    parseDevice u d v = if d = keys.deviceId then some ⟨u, d, keys.curve25519Key, keys.ed25519Key⟩ else none := by
  have hkeys : v.get "keys" = some (.obj [("curve25519:" ++ keys.deviceId, .str keys.curve25519Key),
      ("ed25519:" ++ keys.deviceId, .str keys.ed25519Key)]) := by
    rw [← get_unsigned v (by decide) (by decide), h]
    rfl
  unfold parseDevice
  rw [hkeys]
  by_cases hd : d = keys.deviceId
  · subst hd
    have hne : "curve25519:" ++ keys.deviceId ≠ "ed25519:" ++ keys.deviceId := (curve_ne_ed _ _).symm
    simp [Value.getStr, Value.get, Value.asStr, hne]
  · have hcurve : "curve25519:" ++ keys.deviceId ≠ "curve25519:" ++ d := by
      rw [Ne, String.append_right_inj]
      exact Ne.symm hd
    have hed := curve_ne_ed keys.deviceId d
    simp [Value.getStr, Value.get, hcurve, hed, hd]

theorem oneTime_signed (h : unsigned v = .obj [("key", .str key)]) : oneTimeKeyValue v = some key := by
  have hkey : v.getStr "key" = some key := by
    unfold Value.getStr
    rw [← get_unsigned v (by decide) (by decide), h]
    rfl
  rcases v with _ | _ | _ | _ | _ | _ | members
  · cases h
  · cases h
  · cases h
  · cases h
  · cases h
  · cases h
  · exact hkey

/-- Neither is read as the other. -/
theorem oneTime_device (h : unsigned v = .obj (deviceMembers keys)) : oneTimeKeyValue v = none := by
  have hkey : v.getStr "key" = none := by
    unfold Value.getStr
    rw [← get_unsigned v (by decide) (by decide), h]
    rfl
  rcases v with _ | _ | _ | _ | _ | _ | members
  · cases h
  · cases h
  · cases h
  · cases h
  · cases h
  · cases h
  · exact hkey

theorem parse_oneTime (h : unsigned v = .obj [("key", .str key)]) (u d : String) : parseDevice u d v = none := by
  have hkeys : v.get "keys" = none := by
    rw [← get_unsigned v (by decide) (by decide), h]
    rfl
  unfold parseDevice
  rw [hkeys]
  rfl

theorem integral_device (keys : DeviceKeys) : Integral (.obj (deviceMembers keys)) :=
  ⟨⟨trivial, trivial, trivial⟩, trivial, ⟨trivial, trivial, trivial⟩, trivial, trivial⟩

theorem integral_oneTime (key : String) : Integral (.obj [("key", .str key)]) := ⟨trivial, trivial⟩

/-- **The text says what was signed.** -/
theorem unsigned_of_signed {made : List String} (hv : Integral v) (h : Signed keys made (canonicalJson v)) :
    unsigned v = .obj (deviceMembers keys) ∨ ∃ key ∈ made, unsigned v = .obj [("key", .str key)] := by
  have hinj : ∀ {w : Value}, Integral w → canonicalJson v = canonicalJson w → unsigned v = unsigned w := by
    intro w hw heq
    rw [canonicalJson_eq, canonicalJson_eq] at heq
    exact (writeCanonical_inj (integral_unsigned hv) (integral_unsigned hw)).mp heq
  rcases h with h | ⟨key, hkey, h⟩
  · exact Or.inl (hinj (integral_device keys) h)
  · exact Or.inr ⟨key, hkey, hinj (integral_oneTime key) h⟩

end Reading

/-! ### Uploads and answers -/

section Answers
variable {keys : DeviceKeys} {made : List String}

theorem get_insertMember (members : List (String × Value)) (name name' : String) (v : Value) :
    (Value.obj (insertMember name v members)).get name' =
      if name' = name then some v else (Value.obj members).get name' :=
  member_insertMember name name' v members

theorem unsigned_insert (members : List (String × Value)) (v : Value) :
    unsigned (.obj (insertMember "signatures" v members)) = unsigned (.obj members) := by
  unfold unsigned
  dsimp only
  congr 1
  induction members with
  | nil => rfl
  | cons m members ih =>
    unfold insertMember
    split_ifs with hlt heq
    · rfl
    · rw [List.filter_cons, List.filter_cons, ← heq]
      rfl
    · rw [List.filter_cons, ih, List.filter_cons]

/-- **What is uploaded of the device.** -/
theorem unsigned_signedDeviceKeys (sign : String → String) (session : Session) (keys : DeviceKeys) :
    unsigned (signedDeviceKeys sign session keys) = .obj (deviceMembers keys) ∧
      signatureOf (signedDeviceKeys sign session keys) session.userId session.deviceId =
        some (sign (deviceText keys)) := by
  have hkeys : signedDeviceKeys sign session keys = .obj (insertMember "signatures"
      (signaturesFor session (sign (deviceText keys))) (deviceMembers keys)) := rfl
  rw [hkeys]
  refine ⟨unsigned_insert _ _, ?_⟩
  unfold signatureOf
  rw [get_insertMember, if_pos rfl]
  simp [signaturesFor, Value.get, Value.getStr, Value.asStr]

/-- **What is uploaded of a one-time key.** -/
theorem unsigned_signedOneTimeKey (sign : String → String) (keyIdText : ℕ → String) (session : Session)
    (k : ℕ × String) :
    unsigned (signedOneTimeKey sign keyIdText session k).2 = .obj [("key", .str k.2)] ∧
      signatureOf (signedOneTimeKey sign keyIdText session k).2 session.userId session.deviceId =
        some (sign (oneTimeText k.2)) := by
  have hkey : (signedOneTimeKey sign keyIdText session k).2 =
      .obj [("key", .str k.2), ("signatures", signaturesFor session (sign (oneTimeText k.2)))] := by
    unfold signedOneTimeKey oneTimeText
    exact Eq.refl _
  rw [hkey]
  generalize sign (oneTimeText k.2) = signature
  constructor
  · simp [unsigned]
  · simp [signatureOf, signaturesFor, Value.get, Value.getStr, Value.asStr]

/-- **Keys are read as they were published, and no others are**: what a device uploads is accepted and gives its
keys back, whatever the server adds; and an object that is accepted as signed by the device gives its keys, under
its own id, or a one-time key it has made. -/
theorem read_as_published (keyIdText : ℕ → String) (session : Session) (E : Signatures (Signed keys made))
    (hdevice : keys.deviceId = session.deviceId) :
    (∀ v, Shows session.userId session.deviceId (signedDeviceKeys E.sign session keys) v →
      Accepted E session.userId session.deviceId v ∧
      parseDevice session.userId session.deviceId v =
        some ⟨session.userId, session.deviceId, keys.curve25519Key, keys.ed25519Key⟩) ∧
    (∀ k : ℕ × String, k.2 ∈ made → ∀ v,
      Shows session.userId session.deviceId (signedOneTimeKey E.sign keyIdText session k).2 v →
        Accepted E session.userId session.deviceId v ∧ oneTimeKeyValue v = some k.2) ∧
    ∀ v, Integral v → Accepted E session.userId session.deviceId v →
      (∀ u d info, parseDevice u d v = some info →
        info = ⟨u, session.deviceId, keys.curve25519Key, keys.ed25519Key⟩) ∧
      ∀ key, oneTimeKeyValue v = some key → key ∈ made := by
  have haccepted : ∀ {v uploaded text}, Shows session.userId session.deviceId uploaded v → Signed keys made text →
      canonicalJson uploaded = text → signatureOf uploaded session.userId session.deviceId = some (E.sign text) →
        Accepted E session.userId session.deviceId v := by
    intro v uploaded text hshows hsigned htext hsignature
    refine ⟨E.sign text, hshows.signature.trans hsignature, ?_⟩
    rw [canonicalJson_eq, hshows.same, ← canonicalJson_eq, htext]
    exact E.made text hsigned
  refine ⟨fun v hshows => ?_, fun k hk v hshows => ?_, fun v hv haccept => ?_⟩
  · obtain ⟨hunsigned, hsignature⟩ := unsigned_signedDeviceKeys E.sign session keys
    refine ⟨haccepted hshows (Or.inl rfl) ?_ hsignature, ?_⟩
    · rw [canonicalJson_eq, hunsigned]
      rfl
    · rw [parse_signed (hshows.same.trans hunsigned), if_pos hdevice.symm]
  · obtain ⟨hunsigned, hsignature⟩ := unsigned_signedOneTimeKey E.sign keyIdText session k
    refine ⟨haccepted hshows (Or.inr ⟨k.2, hk, rfl⟩) ?_ hsignature, oneTime_signed (hshows.same.trans hunsigned)⟩
    rw [canonicalJson_eq, hunsigned]
    rfl
  · obtain ⟨signature, -, hverify⟩ := haccept
    rcases unsigned_of_signed hv (E.unforged _ _ hverify) with h | ⟨key, hkey, h⟩
    · refine ⟨fun u d info hparse => ?_, fun k hk => ?_⟩
      · rw [parse_signed h] at hparse
        split_ifs at hparse with hd
        rw [← Option.some.inj hparse, hd, hdevice]
      · rw [oneTime_device h] at hk
        cases hk
    · refine ⟨fun u d info hparse => ?_, fun k hk => ?_⟩
      · rw [parse_oneTime h] at hparse
        cases hparse
      · rw [oneTime_signed h] at hk
        rw [← Option.some.inj hk]
        exact hkey

/-- A scheme whose signatures are the texts. -/
def plainSignatures (keys : DeviceKeys) (made : List String) : Signatures (Signed keys made) where
  sign text := text
  verify text signature := text = signature && text ∈ deviceText keys :: made.map oneTimeText
  made text h := by
    have hmem : text ∈ deviceText keys :: made.map oneTimeText := by
      rcases h with rfl | ⟨key, hkey, rfl⟩
      · exact List.mem_cons_self
      · exact List.mem_cons_of_mem _ (List.mem_map_of_mem hkey)
    rw [decide_eq_true hmem, decide_eq_true rfl]
    rfl
  unforged text signature h := by
    have hmem : text ∈ deviceText keys :: made.map oneTimeText := of_decide_eq_true (Bool.and_eq_true_iff.mp h).2
    rcases List.mem_cons.mp hmem with rfl | hmem
    · exact Or.inl rfl
    · obtain ⟨key, hkey, rfl⟩ := List.mem_map.mp hmem
      exact Or.inr ⟨key, hkey, rfl⟩

def ourKeys : DeviceKeys := ⟨"@us", "DEVICE", "curve", "ed"⟩

/-- What the server shows of them, with their age. -/
def shown : Value :=
  .obj (deviceMembers ourKeys ++ [("signatures", signaturesFor Uploads.ourSession (deviceText ourKeys)),
    ("unsigned", .obj [("age", .int 5)])])

theorem read_as_published_shown : Accepted (plainSignatures ourKeys ["one"]) "@us" "DEVICE" shown ∧
    parseDevice "@us" "DEVICE" shown = some ⟨"@us", "DEVICE", "curve", "ed"⟩ := by
  have hshown : signatureOf shown "@us" "DEVICE" = some (deviceText ourKeys) := by
    unfold shown
    generalize deviceText ourKeys = text
    rfl
  obtain ⟨hunsigned, hsignature⟩ :=
    unsigned_signedDeviceKeys (plainSignatures ourKeys ["one"]).sign Uploads.ourSession ourKeys
  have hshows : Shows "@us" "DEVICE" (signedDeviceKeys (plainSignatures ourKeys ["one"]).sign Uploads.ourSession ourKeys)
      shown := by
    refine ⟨?_, hshown.trans hsignature.symm⟩
    rw [hunsigned]
    unfold shown
    generalize deviceText ourKeys = text
    rfl
  exact (read_as_published Nat.repr Uploads.ourSession (plainSignatures ourKeys ["one"]) rfl).1 shown hshows

end Answers

end Kmatrix.E2ee.Published
