import Kmatrix.Sas.Steps

/-! # What a finished verification has verified

A MAC event is accepted when the MAC over its key ids verifies and no entry fails; entries of other
algorithms and of devices whose key is not known are skipped, so an event may be accepted without the
key of their device having been looked at. `verifiedMac_iff` says when an accepted event checks it, and
`sound_of_named` that a finished verification is sound in every run whose accepted MAC events do. -/

namespace Kmatrix.Sas.Soundness

open Kmatrix.E2ee.Json Kmatrix.Lib.Trace Kmatrix.Sas.Machine Kmatrix.Sas.Steps Kmatrix.Storage.Seal

section Soundness
variable {S : SasSuite}

/-- **The key of device `d` of `U` was checked** by this step: a MAC event for the transaction, whose
entry for `ed25519:d` verified under the transaction's secret against the key recorded for `(U, d)`. -/
def VerifiedMac (T U d : String) (established : S.Established) (o : Step S) : Prop :=
  ∃ now fresh self sender content e macs mac ed,
    o.input = .handle now fresh self sender macKind content ∧
    content.getStr "transaction_id" = some T ∧ found o.before o.input T = some e ∧
    e.established = some established ∧ (content.get "mac").bind Value.asObject = some macs ∧
    (Value.obj macs).getStr (edKeyId d) = some mac ∧ o.before.deviceEdKeys (U, d) = some ed ∧
    S.verifyMac established ed (macInfo ⟨U, d⟩ self T ++ edKeyId d) mac = true

/-- **Soundness**, of a step: where it finishes a verification, the key of the verified device was
checked. -/
def Sound (past : List (Step S)) (o : Step S) : Prop :=
  ∀ T d, o.input.transaction = some T → o.output.done = some d →
    ∃ e established, found o.before o.input T = some e ∧ e.theirDevice = d ∧
      e.established = some established ∧
      ∃ o' ∈ past ++ [o], VerifiedMac T e.theirUser d established o'

/-- A MAC event passes: the MAC over its key ids verifies, and every entry is a text, which verifies
where it is for a device whose key is known. -/
def Passes (m : Verifier S) (T : String) (self : Self) (e : Verification S)
    (established : S.Established) (macs : List (String × Value)) (keysMac : String) : Prop :=
  S.verifyMac established (",".intercalate (keyIds macs))
      (macInfo ⟨e.theirUser, e.theirDevice⟩ self T ++ "KEY_IDS") keysMac = true ∧
    ∀ keyId ∈ keyIds macs, ∃ mac, (Value.obj macs).getStr keyId = some mac ∧
      ∀ d ed, stripPrefix keyId "ed25519:" = some d → m.deviceEdKeys (e.theirUser, d) = some ed →
        S.verifyMac established ed (macInfo ⟨e.theirUser, e.theirDevice⟩ self T ++ keyId) mac = true

/-- **A MAC event that passes lists the key of their device**, and that key is known. -/
def NamesDevice (m : Verifier S) (c : Call S) : Prop :=
  ∀ now fresh self sender content T e established macs keysMac,
    c = .handle now fresh self sender macKind content → content.getStr "transaction_id" = some T →
    found m c T = some e → e.established = some established →
    (content.get "mac").bind Value.asObject = some macs → content.getStr "keys" = some keysMac →
    Passes m T self e established macs keysMac →
    edKeyId e.theirDevice ∈ macs.map Prod.fst ∧ m.deviceEdKeys (e.theirUser, e.theirDevice) ≠ none

/-! ### The checks -/

section Checks
variable {established : S.Established} {edKey : String → Option String} {info keyId : String}
  {macs : Value}

theorem checkMac_ok_iff :
    checkMac established edKey info macs keyId = .ok () ↔
      ∃ mac, macs.getStr keyId = some mac ∧ ∀ d ed, stripPrefix keyId "ed25519:" = some d →
        edKey d = some ed → S.verifyMac established ed (info ++ keyId) mac = true := by
  unfold checkMac
  rcases macs.getStr keyId with _ | mac
  · simp
  · dsimp only
    rcases stripPrefix keyId "ed25519:" with _ | d
    · simp
    · dsimp only
      rcases hed : edKey d with _ | ed
      · refine ⟨fun _ => ⟨mac, rfl, ?_⟩, fun _ => rfl⟩
        rintro d' ed ⟨⟩ hed'
        rw [hed] at hed'
        simp at hed'
      · dsimp only
        constructor
        · intro h
          split_ifs at h with hv
          refine ⟨mac, rfl, ?_⟩
          rintro d' ed' ⟨⟩ hed'
          rw [hed] at hed'
          obtain rfl := Option.some.inj hed'
          exact hv
        · rintro ⟨mac', hmac, h⟩
          obtain rfl := Option.some.inj hmac
          rw [if_pos (h d ed rfl hed)]

theorem checkMacs_ok_iff {ids : List String} :
    checkMacs established edKey info macs ids = .ok () ↔
      ∀ keyId ∈ ids, checkMac established edKey info macs keyId = .ok () := by
  induction ids with
  | nil => simp [checkMacs]
  | cons keyId ids ih =>
    rw [checkMacs, List.forall_mem_cons]
    rcases checkMac established edKey info macs keyId with e | ⟨⟩
    · simp
    · simp only [true_and]
      exact ih

theorem mem_keyIds {macs : List (String × Value)} : keyId ∈ keyIds macs ↔ keyId ∈ macs.map Prod.fst := by
  unfold keyIds
  exact (List.perm_insertionSort _ _).mem_iff

theorem stripPrefix_edKeyId (d : String) : stripPrefix (edKeyId d) "ed25519:" = some d :=
  stripPrefix_append _ _

end Checks

variable {past : List (Step S)} {T U d : String} {o : Step S} {m : Verifier S} {c : Call S}

/-- **When an accepted MAC event checks the key of their device.** -/
theorem verifiedMac_iff {now : ℕ} {fresh : S.Secret} {self : Self} {sender : String} {content : Value}
    {e : Verification S} {established : S.Established} {macs : List (String × Value)} {keysMac : String}
    (out : VerifyStep) (hc : c = .handle now fresh self sender macKind content)
    (ht : content.getStr "transaction_id" = some T) (hfound : found m c T = some e)
    (hest : e.established = some established)
    (hmacs : (content.get "mac").bind Value.asObject = some macs)
    (hpass : Passes m T self e established macs keysMac) :
    VerifiedMac T e.theirUser e.theirDevice established ⟨m, c, out⟩ ↔
      edKeyId e.theirDevice ∈ macs.map Prod.fst ∧
        m.deviceEdKeys (e.theirUser, e.theirDevice) ≠ none := by
  constructor
  · rintro ⟨now', fresh', self', sender', content', e', macs', mac, ed, hin, -, -, -, hmacs', hmac, hed, -⟩
    have hin : c = .handle now' fresh' self' sender' macKind content' := hin
    rw [hc] at hin
    obtain ⟨-, -, -, -, -, rfl⟩ := Call.handle.inj hin
    rw [hmacs] at hmacs'
    obtain rfl := Option.some.inj hmacs'
    have hed : m.deviceEdKeys (e.theirUser, e.theirDevice) = some ed := hed
    refine ⟨?_, by rw [hed]; simp⟩
    -- an entry that is found is listed
    obtain ⟨v, hv, -⟩ := Option.bind_eq_some_iff.mp hmac
    obtain ⟨x, hx, -⟩ := Option.map_eq_some_iff.mp hv
    have hkey : x.1 = edKeyId e.theirDevice := by simpa using List.find?_some hx
    exact List.mem_map.mpr ⟨x, List.mem_of_find?_eq_some hx, hkey⟩
  · rintro ⟨hmem, hknown⟩
    obtain ⟨ed, hed⟩ := Option.ne_none_iff_exists'.mp hknown
    obtain ⟨mac, hmac, hver⟩ := hpass.2 _ (mem_keyIds.mpr hmem)
    exact ⟨now, fresh, self, sender, content, e, macs, mac, ed, hc, ht, hfound, hest, hmacs, hmac, hed,
      hver _ ed (stripPrefix_edKeyId _) hed⟩

/-- **What an entry says of the past**: they have signed only with a key that was checked. -/
structure Checked (past : List (Step S)) (T : String) (e : Verification S) : Prop where
  staged : Staged e
  verified : e.theySentMac = true → ∃ established, e.established = some established ∧
    ∃ o ∈ past, VerifiedMac T e.theirUser e.theirDevice established o

theorem Checked.concat {e : Verification S} (h : Checked past T e) (o : Step S) :
    Checked (past ++ [o]) T e where
  staged := h.staged
  verified hs := by
    obtain ⟨established, hest, o', ho', hv⟩ := h.verified hs
    exact ⟨established, hest, o', List.mem_append_left _ ho', hv⟩

theorem checked_new (past : List (Step S)) (user device : String) (now : ℕ) :
    Checked past T (Verification.new user device now) where
  staged := staged_new user device now
  verified h := by simp [Verification.new] at h

/-- An entry without a secret has no MAC from them. -/
theorem Checked.unsigned {e : Verification S} (h : Checked past T e) (he : e.established = none) :
    e.theySentMac = false := by
  by_contra hs
  obtain ⟨established, hest, -⟩ := h.verified (by simpa using hs)
  rw [he] at hest
  simp at hest

/-- **Every call keeps what its entry says**, where a MAC event that passes names their device. -/
theorem checked_outcome {slot : Option (Verification S)} {out : VerifyStep}
    (ht : c.transaction = some T) (hC : NamesDevice m c)
    (hslot : ∀ e, found m c T = some e → Checked past T e)
    (h : Outcome m T c (found m c T) slot out) :
    ∀ e, slot = some e → Checked (past ++ [⟨m, c, out⟩]) T e := by
  have hstaged := staged_outcome (fun e he => (hslot e he).staged) h
  intro e he
  have hst := hstaged e he
  generalize hfound : found m c T = before at h hslot
  rcases h with _ | _ | ⟨now, fresh, self, sender, content, device⟩ |
    ⟨now, fresh, self, sender, content, entry, _, hentry, hstart⟩ |
    ⟨now, fresh, self, sender, content, entry, sas, ourKey, theirKey, established, hsas, hour⟩ |
    ⟨now, fresh, self, sender, content, entry, established, macs, keysMac, hest, hmacs, hkeys, hids,
      hchecks⟩ |
    ⟨now, fresh, self, sender, content, entry⟩ | ⟨self, entry, established, hest, signed, hstep⟩
  · exact (hslot e he).concat _
  · simp at he
  · obtain rfl := Option.some.inj he
    exact checked_new _ _ _ _
  · have hc : Checked past T entry := of_adopted hentry hslot fun device => checked_new _ _ _ _
    have hno := hc.unsigned (hc.staged.unstarted hstart).2
    obtain rfl := Option.some.inj he
    refine ⟨hst, fun hs => ?_⟩
    have hs : entry.theySentMac = true := hs
    rw [hno] at hs
    simp at hs
  · have hc := hslot entry rfl
    have hno := hc.unsigned (hc.staged.fresh (by rw [hsas]; simp)).2
    obtain rfl := Option.some.inj he
    refine ⟨hst, fun hs => ?_⟩
    have hs : entry.theySentMac = true := hs
    rw [hno] at hs
    simp at hs
  · -- the MAC event: what it passes, it has checked
    have hpass : Passes m T self entry established macs keysMac := by
      refine ⟨hids, fun keyId hmem => ?_⟩
      exact checkMac_ok_iff.mp (checkMacs_ok_iff.mp hchecks keyId hmem)
    have hnames := hC now fresh self sender content T entry established macs keysMac rfl ht hfound hest
      hmacs hkeys hpass
    have hver := (verifiedMac_iff (settle { entry with theySentMac := true } {}).2 rfl ht hfound
      hest hmacs hpass).mpr hnames
    rw [settle_kept he] at hst ⊢
    exact ⟨hst, fun _ => ⟨established, hest, _, by simp, hver⟩⟩
  · have hc := (hslot entry rfl).concat ⟨m, .handle now fresh self sender doneKind content,
      (settle { entry with theySentDone := true } {}).2⟩
    rw [settle_kept he] at hst ⊢
    exact ⟨hst, hc.verified⟩
  · have hc := (hslot entry rfl).concat ⟨m, .confirm self T true,
      (settle { entry with weSentMac := true, weSentDone := true } signed).2⟩
    rw [settle_kept he] at hst ⊢
    exact ⟨hst, hc.verified⟩

/-- What a checked entry lets a call finish. -/
theorem sound_outcome {slot : Option (Verification S)} {out : VerifyStep}
    (ht : c.transaction = some T) (hC : NamesDevice m c)
    (hslot : ∀ e, found m c T = some e → Checked past T e)
    (h : Outcome m T c (found m c T) slot out) {d : String} (hd : out.done = some d) :
    ∃ e established, found m c T = some e ∧ e.theirDevice = d ∧ e.established = some established ∧
      ∃ o ∈ past ++ [⟨m, c, out⟩], VerifiedMac T e.theirUser d established o := by
  generalize hfound : found m c T = before at h hslot
  have hsigned : ∀ (e e' : Verification S), before = some e → e'.complete = true →
      e'.theySentMac = e.theySentMac → e'.theirDevice = e.theirDevice → d = e'.theirDevice →
      ∃ established, e.established = some established ∧
        ∃ o ∈ past ++ [⟨m, c, out⟩], VerifiedMac T e.theirUser d established o := by
    intro e e' hbefore hcomplete hmac hdev hd
    unfold Verification.complete at hcomplete
    simp only [Bool.and_eq_true] at hcomplete
    obtain ⟨established, hest, o, ho, hv⟩ := (hslot e hbefore).verified (by rw [← hmac]; exact hcomplete.1.1.2)
    rw [← hdev, ← hd] at hv
    exact ⟨established, hest, o, List.mem_append_left _ ho, hv⟩
  rcases h with _ | ⟨_, _, _, _, _, hdone⟩ | ⟨now, fresh, self, sender, content, device⟩ |
    ⟨now, fresh, self, sender, content, entry, _, hentry, hstart⟩ |
    ⟨now, fresh, self, sender, content, entry, sas, ourKey, theirKey, established, hsas, hour⟩ |
    ⟨now, fresh, self, sender, content, entry, established, macs, keysMac, hest, hmacs, hkeys, hids,
      hchecks⟩ |
    ⟨now, fresh, self, sender, content, entry⟩ | ⟨self, entry, established, hest, signed, hstep⟩
  · simp at hd
  · rw [hdone] at hd
    simp at hd
  · simp at hd
  · simp at hd
  · simp at hd
  · have hpass : Passes m T self entry established macs keysMac := by
      refine ⟨hids, fun keyId hmem => ?_⟩
      exact checkMac_ok_iff.mp (checkMacs_ok_iff.mp hchecks keyId hmem)
    have hnames := hC now fresh self sender content T entry established macs keysMac rfl ht hfound hest
      hmacs hkeys hpass
    have hver := (verifiedMac_iff (settle { entry with theySentMac := true } {}).2 rfl ht hfound
      hest hmacs hpass).mpr hnames
    obtain rfl := (settle_done hd rfl).2
    exact ⟨entry, established, rfl, rfl, hest, _, by simp, hver⟩
  · obtain ⟨hcomplete, hdev⟩ := settle_done hd rfl
    obtain ⟨established, hest, hv⟩ := hsigned entry _ rfl hcomplete rfl rfl hdev
    exact ⟨entry, established, rfl, hdev.symm, hest, hv⟩
  · obtain ⟨hcomplete, hdev⟩ := settle_done hd (by rw [hstep])
    obtain ⟨established, hest, hv⟩ := hsigned entry _ rfl hcomplete rfl rfl hdev
    exact ⟨entry, established, rfl, hdev.symm, hest, hv⟩

/-- **Verification soundness**, in every run whose accepted MAC events name their device. -/
theorem sound_of_named (ourEd : String) (calls : List (Call S))
    (h : ∀ o ∈ trace step (Verifier.fresh ourEd : Verifier S) calls, NamesDevice o.before o.input) :
    EveryStep Sound (trace step (Verifier.fresh ourEd : Verifier S) calls) := by
  intro past o future hsplit T d ht hd
  obtain ⟨hchecked, hC, hout⟩ := slot_invariant (I := Checked) (C := NamesDevice)
    (fun past m c T e _ hc => hc.concat _)
    (fun past m c T slot out ht hC hslot hoc => checked_outcome ht hC hslot hoc)
    (fun _ => rfl) h hsplit
  obtain ⟨slot, hoc⟩ := output_outcome hout ht
  exact sound_outcome ht hC (hchecked T) hoc hd

/-- `NamesDevice`, tested on every MAC event, whether it passes or not. -/
def namesDevice (m : Verifier S) (c : Call S) : Bool :=
  match c with
  | .handle _ _ _ _ kind content =>
    match content.getStr "transaction_id", (content.get "mac").bind Value.asObject with
    | some T, some macs =>
      match found m c T with
      | some e => kind ≠ macKind || ((macs.map Prod.fst).contains (edKeyId e.theirDevice) &&
          (m.deviceEdKeys (e.theirUser, e.theirDevice)).isSome)
      | none => true
    | _, _ => true
  | _ => true

theorem of_namesDevice (h : namesDevice m c = true) : NamesDevice m c := by
  rintro now fresh self sender content T e established macs keysMac rfl ht hfound - hmacs - -
  unfold namesDevice at h
  dsimp only at h
  rw [ht, hmacs] at h
  dsimp only at h
  rw [hfound] at h
  simp only [ne_eq, not_true_eq_false, decide_false, Bool.false_or, Bool.and_eq_true] at h
  exact ⟨by simpa using h.1, Option.isSome_iff_ne_none.mp h.2⟩

end Soundness

/-! ### An empty MAC map -/

/-- A suite for evaluating runs: a MAC spells out what it is taken over. -/
def plainSuite : SasSuite where
  Secret := String
  Established := String × String
  publicKey s := s ++ "+"
  diffieHellman s key := .ok (s, key)
  emojiIndices _ _ := fun _ => 0
  calculateMac e input info := e.1 ++ "," ++ e.2 ++ ": " ++ input ++ " " ++ info
  verifyMac e input info mac := mac = e.1 ++ "," ++ e.2 ++ ": " ++ input ++ " " ++ info

def ours : Self := ⟨"@me:h", "OURS"⟩

def theirs : Self := ⟨"@me:h", "THEIRS"⟩

/-- A start that offers what we ask for. -/
def startContent : Value :=
  .obj [("from_device", .str "THEIRS"), ("hashes", .arr [.str sasHash]),
    ("key_agreement_protocols", .arr [.str keyAgreementProtocol]),
    ("message_authentication_codes", .arr [.str macMethod]), ("method", .str sasMethod),
    ("short_authentication_string", .arr [.str sasEmojiString]), ("transaction_id", .str "T")]

/-- The MAC event over these entries. -/
def theirMac (macs : List (String × Value)) : Value :=
  .obj [("keys", .str (plainSuite.calculateMac ("s", "k") (",".intercalate (keyIds macs))
      (macInfo theirs ours "T" ++ "KEY_IDS"))), ("mac", .obj macs), ("transaction_id", .str "T")]

/-- A verification from the start to the done, with the MAC entries `macs`. -/
def runWith (macs : List (String × Value)) : List (Call plainSuite) :=
  let handle (kind : String) (content : Value) : Call plainSuite :=
    .handle 0 "s" ours "@me:h" kind content
  [.remember [⟨"@me:h", "THEIRS", "curve", "ed"⟩], handle startKind startContent,
    handle keyKind (.obj [("key", .str "k"), ("transaction_id", .str "T")]),
    .confirm ours "T" true, handle macKind (theirMac macs),
    handle doneKind (.obj [("transaction_id", .str "T")])]

/-- An entry for the key of their device. -/
def deviceMac : String × Value :=
  (edKeyId "THEIRS", .str (plainSuite.calculateMac ("s", "k") "ed"
    (macInfo theirs ours "T" ++ edKeyId "THEIRS")))

theorem sound_of_named_device :
    EveryStep Sound (trace step (Verifier.fresh "our ed") (runWith [deviceMac])) := by
  have hnames : ∀ o ∈ trace step (Verifier.fresh "our ed") (runWith [deviceMac]),
      namesDevice o.before o.input = true := by decide +kernel
  exact sound_of_named "our ed" (runWith [deviceMac]) fun o ho => of_namesDevice (hnames o ho)

/-- A verification can be finished over an empty MAC map. -/
theorem not_sound_emptyMac :
    ¬ EveryStep Sound (trace step (Verifier.fresh "our ed") (runWith [])) := by
  intro h
  let said : Call plainSuite :=
    .handle 0 "s" ours "@me:h" doneKind (.obj [("transaction_id", .str "T")])
  have hsplit := trace_append step (Verifier.fresh "our ed") ((runWith []).take 5) [said]
  have hdone : (step (final step (Verifier.fresh "our ed") ((runWith []).take 5)) said).2.done =
      some "THEIRS" := by decide +kernel
  obtain ⟨e, established, -, -, -, o, ho, hv⟩ := h _ _ _ hsplit "T" "THEIRS" rfl hdone
  -- the one MAC event of the run lists no entry
  have hin : o.input ∈ runWith [] := by
    have hmem := List.mem_map_of_mem (f := Occ.input) ho
    rw [show trace step (Verifier.fresh "our ed") ((runWith []).take 5) ++ [_] = _ from hsplit.symm,
      map_input_trace] at hmem
    exact hmem
  obtain ⟨now, fresh, self, sender, content, e', macs, mac, ed, hinput, -, -, -, hmacs, hmac, -⟩ := hv
  rw [hinput] at hin
  simp only [runWith, List.mem_cons, List.not_mem_nil, or_false, reduceCtorEq, false_or] at hin
  have hcontent : content = theirMac [] := by
    rcases hin with hin | hin | hin | hin
    · exact absurd (Call.handle.inj hin).2.2.2.2.1 (by decide)
    · exact absurd (Call.handle.inj hin).2.2.2.2.1 (by decide)
    · exact (Call.handle.inj hin).2.2.2.2.2
    · exact absurd (Call.handle.inj hin).2.2.2.2.1 (by decide)
  subst hcontent
  obtain rfl := Option.some.inj hmacs
  simp [Value.getStr, Value.get] at hmac

end Kmatrix.Sas.Soundness
