import Kmatrix.Sas.Steps

/-! # Nothing is signed without the user

A MAC or a done is sent, and a verification finishes, only after the user has confirmed the emoji that
were shown last, and the MAC is taken under the secret those emoji came from. The entry of a transaction
carries the link: while it holds a secret, the latest emoji of the transaction were that secret's
(`Linked.shown`), and once we have signed, the user has confirmed since (`Linked.sent`). -/

namespace Kmatrix.Sas.Consent

open Kmatrix.E2ee.Json Kmatrix.Lib.Trace Kmatrix.Sas.Machine Kmatrix.Sas.Steps

section Consent
variable {S : SasSuite}

/-- The step shows emoji for the transaction. -/
def ShowsEmoji (T : String) (o : Step S) : Prop := ∃ e, o.output.emoji = some e ∧ e.1 = T

/-- `confirm_verification(T, true)`. -/
def Confirms (T : String) (o : Step S) : Prop := ∃ self, o.input = .confirm self T true

/-- **The user has confirmed the latest emoji** of the transaction. -/
def Consented (T : String) (past : List (Step S)) : Prop :=
  ∃ before o after, past = before ++ o :: after ∧ ShowsEmoji T o ∧ (∀ o' ∈ after, ¬ ShowsEmoji T o') ∧
    ∃ o' ∈ after, Confirms T o'

/-- **The key exchange** with the other side: its key makes the secret `established` of our ephemeral key,
and the emoji of the secret are shown. -/
structure KeyExchange (T : String) (their us : Self) (theirKey ourKey : String)
    (established : S.Established) (o : Step S) : Prop where
  event : ∃ now fresh sender content, o.input = .handle now fresh us sender keyKind content ∧
    content.getStr "key" = some theirKey
  secret : ∃ e sas, found o.before o.input T = some e ∧ their = ⟨e.theirUser, e.theirDevice⟩ ∧
    e.sas = some sas ∧ e.ourPublicKey = some ourKey ∧ S.diffieHellman sas theirKey = .ok established
  emoji : o.output.emoji = some (T, their.deviceId,
    S.emojiIndices established (sasInfo their us theirKey ourKey T))

/-- The latest emoji of the transaction were those of the secret `established` with the other side. -/
def ShownUnder (T : String) (their : Self) (established : S.Established) (past : List (Step S)) : Prop :=
  ∃ o, Latest (ShowsEmoji T) past o ∧
    ∃ us theirKey ourKey, KeyExchange T their us theirKey ourKey established o

/-- **Our MAC event**: the MACs of our device key `ourEd` and of its key id, under `established`. -/
def MacUnder (T ourEd : String) (self their : Self) (established : S.Established) (content : Value) : Prop :=
  content = macContent T (edKeyId self.deviceId)
    (S.calculateMac established ourEd (macInfo self their T ++ edKeyId self.deviceId))
    (S.calculateMac established (edKeyId self.deviceId) (macInfo self their T ++ "KEY_IDS"))

/-- The event is our MAC event to the other side, when the user has confirmed the emoji of the secret it is
under. -/
def SignedAsShown (T : String) (past : List (Step S)) (o : Step S) (x : ToSend) : Prop :=
  ∃ self their established, o.input = .confirm self T true ∧ x.device = their.deviceId ∧
    ShownUnder T their established past ∧ MacUnder T o.before.ed25519Key self their established x.content

/-- **What the user is promised**, of every step of a run. -/
def Promised (T : String) (past : List (Step S)) (o : Step S) : Prop :=
  (∀ x ∈ o.output.send, (x.kind = macKind ∨ x.kind = doneKind) →
    x.content.getStr "transaction_id" = some T → Consented T (past ++ [o])) ∧
  (∀ d, o.output.done = some d → o.input.transaction = some T → Consented T (past ++ [o])) ∧
  ∀ x ∈ o.output.send, x.kind = macKind → x.content.getStr "transaction_id" = some T →
    SignedAsShown T past o x

/-! ### The link between an entry and what was shown -/

/-- **What an entry says of the past.** -/
structure Linked (past : List (Step S)) (T : String) (e : Verification S) : Prop where
  staged : Staged e
  shown : ∀ established, e.established = some established →
    ShownUnder T ⟨e.theirUser, e.theirDevice⟩ established past
  sent : (e.weSentMac = true ∨ e.weSentDone = true) → e.established ≠ none ∧ Consented T past

variable {past : List (Step S)} {T : String} {o : Step S} {m : Verifier S} {c : Call S} {their : Self}

theorem Consented.concat (h : Consented T past) (ho : ¬ ShowsEmoji T o) : Consented T (past ++ [o]) := by
  obtain ⟨before, e, after, rfl, he, hafter, o', ho', hc⟩ := h
  refine ⟨before, e, after ++ [o], by simp, he, ?_, o', List.mem_append_left _ ho', hc⟩
  intro x hx
  rcases List.mem_append.mp hx with hx | hx
  · exact hafter x hx
  · rw [List.mem_singleton.mp hx]
    exact ho

theorem ShownUnder.concat {established : S.Established} (h : ShownUnder T their established past)
    (ho : ¬ ShowsEmoji T o) : ShownUnder T their established (past ++ [o]) := by
  obtain ⟨e, he, hexchange⟩ := h
  exact ⟨e, he.concat ho, hexchange⟩

/-- Emoji that were shown are consented to by a confirmation. -/
theorem ShownUnder.confirmed {established : S.Established} (h : ShownUnder T their established past)
    (hc : Confirms T o) (ho : ¬ ShowsEmoji T o) : Consented T (past ++ [o]) := by
  obtain ⟨e, ⟨before, after, rfl, he, hafter⟩, -⟩ := h
  refine ⟨before, e, after ++ [o], by simp, he, ?_, o, by simp, hc⟩
  intro x hx
  rcases List.mem_append.mp hx with hx | hx
  · exact hafter x hx
  · rw [List.mem_singleton.mp hx]
    exact ho

/-- A step that shows no emoji for the transaction keeps the link. -/
theorem Linked.concat {e : Verification S} (h : Linked past T e) (ho : ¬ ShowsEmoji T o) :
    Linked (past ++ [o]) T e where
  staged := h.staged
  shown established he := (h.shown established he).concat ho
  sent hs := ⟨(h.sent hs).1, (h.sent hs).2.concat ho⟩

/-- A new entry has no past. -/
theorem linked_new (past : List (Step S)) (user device : String) (now : ℕ) :
    Linked past T (Verification.new user device now) where
  staged := staged_new user device now
  shown _ h := by simp [Verification.new] at h
  sent h := by simp [Verification.new] at h

theorem not_shows_of_emoji {c : Call S} {step : VerifyStep} (h : step.emoji = none) :
    ¬ ShowsEmoji T (⟨m, c, step⟩ : Step S) := by
  rintro ⟨e, he, -⟩
  have he : step.emoji = some e := he
  rw [h] at he
  simp at he

/-- A call about another transaction shows no emoji for this one. -/
theorem not_shows_other (h : c.transaction ≠ some T) :
    ¬ ShowsEmoji T (⟨m, c, (step m c).2⟩ : Step S) := by
  rintro ⟨e, he, rfl⟩
  exact h (transaction_of_emoji he)

/-- **Every call keeps the link.** -/
theorem linked_outcome {slot slot' : Option (Verification S)} {step : VerifyStep}
    (hfound : found m c T = slot) (hslot : ∀ e, slot = some e → Linked past T e)
    (h : Outcome m T c slot slot' step) :
    ∀ e, slot' = some e → Linked (past ++ [⟨m, c, step⟩]) T e := by
  have hstaged := staged_outcome (fun e he => (hslot e he).staged) h
  intro e he
  rcases h with _ | _ | ⟨now, fresh, self, sender, content, device⟩ |
    ⟨now, fresh, self, sender, content, entry, _, hentry, hstart⟩ |
    ⟨now, fresh, self, sender, content, entry, sas, ourKey, theirKey, established, hsas, hour, htheir, hmade⟩ |
    ⟨now, fresh, self, sender, content, entry, established, macs, keysMac, hest⟩ |
    ⟨now, fresh, self, sender, content, entry⟩ | ⟨self, entry, established, hest, out, hstep⟩
  · exact (hslot e he).concat (not_shows_of_emoji rfl)
  · simp at he
  · obtain rfl := Option.some.inj he
    exact linked_new _ _ _ _
  · -- the start brings the ephemeral key: nothing can have been exchanged before
    have hl : Linked past T entry := of_adopted hentry hslot fun device => linked_new _ _ _ _
    have hnone := (hl.staged.unstarted hstart).2
    obtain rfl := Option.some.inj he
    refine ⟨hstaged _ rfl, fun x hx => ?_, fun hs => ?_⟩
    · have hx : entry.established = some x := hx
      rw [hnone] at hx
      simp at hx
    · exact absurd hnone (hl.sent hs).1
  · -- the exchange: the secret's emoji are shown now, and we have not signed yet
    have hl := hslot entry rfl
    have hnone := (hl.staged.fresh (by rw [hsas]; simp)).2
    obtain rfl := Option.some.inj he
    refine ⟨hstaged _ rfl, fun x hx => ?_, fun hs => ?_⟩
    · obtain rfl := Option.some.inj hx
      exact ⟨_, latest_concat ⟨_, rfl, rfl⟩, self, theirKey, ourKey, ⟨now, fresh, sender, content, rfl, htheir⟩,
        ⟨entry, sas, hfound, rfl, hsas, hour, hmade⟩, rfl⟩
    · exact absurd hnone (hl.sent hs).1
  · have hl := (hslot entry rfl).concat (o := ⟨m, .handle now fresh self sender macKind content,
      (settle { entry with theySentMac := true } {}).2⟩)
      (not_shows_of_emoji (settle_emoji _ _))
    have hst := hstaged e he
    rw [settle_kept he] at hst ⊢
    exact ⟨hst, hl.shown, hl.sent⟩
  · have hl := (hslot entry rfl).concat (o := ⟨m, .handle now fresh self sender doneKind content,
      (settle { entry with theySentDone := true } {}).2⟩)
      (not_shows_of_emoji (settle_emoji _ _))
    have hst := hstaged e he
    rw [settle_kept he] at hst ⊢
    exact ⟨hst, hl.shown, hl.sent⟩
  · -- we sign: the user confirms just now
    have hl := hslot entry rfl
    have hno : ¬ ShowsEmoji T (⟨m, .confirm self T true,
        (settle { entry with weSentMac := true, weSentDone := true } out).2⟩ : Step S) :=
      not_shows_of_emoji (by rw [settle_emoji, hstep])
    have hst := hstaged e he
    rw [settle_kept he] at hst ⊢
    refine ⟨hst, fun x hx => (hl.shown x hx).concat hno, fun _ => ⟨?_, ?_⟩⟩
    · show entry.established ≠ none
      rw [hest]
      simp
    · exact (hl.shown established hest).confirmed ⟨self, rfl⟩ hno

/-! ### What is returned -/

/-- The kinds of the other events are not those of a signature. -/
theorem not_signed {kind : String} (h : kind = macKind ∨ kind = doneKind) :
    kind ≠ cancelKind ∧ kind ≠ readyKind ∧ kind ≠ acceptKind ∧ kind ≠ keyKind := by
  rcases h with rfl | rfl <;> decide

/-- A finished verification was signed by us. -/
theorem consented_of_complete {e : Verification S} {slot : Verification S}
    (hl : Linked past T slot) (he : e.complete = true) (hmac : e.weSentMac = slot.weSentMac) :
    Consented T past := by
  unfold Verification.complete at he
  simp only [Bool.and_eq_true] at he
  exact (hl.sent (Or.inl (by rw [← hmac]; exact he.1.1.1))).2

/-- **What a linked entry lets a call return.** -/
theorem promised_outcome {slot slot' : Option (Verification S)} {step : VerifyStep}
    (hslot : ∀ e, slot = some e → Linked past T e) (h : Outcome m T c slot slot' step) :
    (∀ x ∈ step.send, (x.kind = macKind ∨ x.kind = doneKind) →
      Consented T (past ++ [⟨m, c, step⟩])) ∧
    (∀ d, step.done = some d → Consented T (past ++ [⟨m, c, step⟩])) ∧
    ∀ x ∈ step.send, x.kind = macKind → SignedAsShown T past ⟨m, c, step⟩ x := by
  rcases h with _ | ⟨_, _, _, hsend, hemoji, hdone⟩ | ⟨now, fresh, self, sender, content, device⟩ |
    ⟨now, fresh, self, sender, content, entry, _, hentry, hstart⟩ |
    ⟨now, fresh, self, sender, content, entry, sas, ourKey, theirKey, established, hsas, hour⟩ |
    ⟨now, fresh, self, sender, content, entry, established, macs, keysMac, hest⟩ |
    ⟨now, fresh, self, sender, content, entry⟩ | ⟨self, entry, established, hest, out, hstep⟩
  · simp
  · refine ⟨fun x hx hk => absurd (hsend x hx).1 (not_signed hk).1, fun d hd => ?_, fun x hx hk =>
      absurd (hsend x hx).1 (not_signed (Or.inl hk)).1⟩
    rw [hdone] at hd
    simp at hd
  · refine ⟨fun x hx hk => ?_, fun d hd => by simp at hd, fun x hx hk => ?_⟩
    · rw [List.mem_singleton.mp hx] at hk
      exact absurd rfl (not_signed hk).2.1
    · rw [List.mem_singleton.mp hx] at hk
      exact absurd rfl (not_signed (Or.inl hk)).2.1
  · refine ⟨fun x hx hk => ?_, fun d hd => by simp at hd, fun x hx hk => ?_⟩
    · rw [List.mem_singleton.mp hx] at hk
      exact absurd rfl (not_signed hk).2.2.1
    · rw [List.mem_singleton.mp hx] at hk
      exact absurd rfl (not_signed (Or.inl hk)).2.2.1
  · refine ⟨fun x hx hk => ?_, fun d hd => by simp at hd, fun x hx hk => ?_⟩
    · rw [List.mem_singleton.mp hx] at hk
      exact absurd rfl (not_signed hk).2.2.2
    · rw [List.mem_singleton.mp hx] at hk
      exact absurd rfl (not_signed (Or.inl hk)).2.2.2
  · refine ⟨fun x hx => ?_, fun d hd => ?_, fun x hx => ?_⟩
    · rw [settle_send] at hx
      simp at hx
    · exact (consented_of_complete (hslot entry rfl) (settle_done hd rfl).1 rfl).concat
        (not_shows_of_emoji (settle_emoji _ _))
    · rw [settle_send] at hx
      simp at hx
  · refine ⟨fun x hx => ?_, fun d hd => ?_, fun x hx => ?_⟩
    · rw [settle_send] at hx
      simp at hx
    · exact (consented_of_complete (hslot entry rfl) (settle_done hd rfl).1 rfl).concat
        (not_shows_of_emoji (settle_emoji _ _))
    · rw [settle_send] at hx
      simp at hx
  · have hl := hslot entry rfl
    have hnow : Consented T (past ++ [⟨m, .confirm self T true,
        (settle { entry with weSentMac := true, weSentDone := true } out).2⟩]) :=
      (hl.shown established hest).confirmed ⟨self, rfl⟩
        (not_shows_of_emoji (by rw [settle_emoji, hstep]))
    refine ⟨fun _ _ _ => hnow, fun _ _ => hnow, fun x hx hk => ?_⟩
    rw [settle_send, hstep] at hx
    rcases List.mem_cons.mp hx with rfl | hx
    · exact ⟨self, ⟨entry.theirUser, entry.theirDevice⟩, established, rfl, rfl, hl.shown established hest, rfl⟩
    · rw [List.mem_singleton.mp hx] at hk
      exact absurd (show doneKind = macKind from hk) (by decide)

/-- **User consent.** In every run of the machine, whatever events arrive. -/
theorem promised_of_run (ourEd : String) (calls : List (Call S)) :
    EveryStep (fun past o => ∀ T, Promised T past o)
      (trace step (Verifier.fresh ourEd : Verifier S) calls) := by
  intro past o future h T
  obtain ⟨hlinked, -, hout⟩ := slot_invariant (I := Linked) (C := fun _ _ => True)
    (fun past m c T e hne hl => hl.concat (not_shows_other hne))
    (fun past m c T slot out _ _ hslot hoc => linked_outcome rfl hslot hoc)
    (fun _ => rfl) (fun _ _ => trivial) h
  have hown : o.input.transaction = some T →
      (∀ x ∈ o.output.send, (x.kind = macKind ∨ x.kind = doneKind) → Consented T (past ++ [o])) ∧
      (∀ d, o.output.done = some d → Consented T (past ++ [o])) ∧
      ∀ x ∈ o.output.send, x.kind = macKind → SignedAsShown T past o x := by
    intro ht
    obtain ⟨slot, hoc⟩ := output_outcome hout ht
    exact promised_outcome (hlinked T) hoc
  have htrans : ∀ x ∈ o.output.send, x.content.getStr "transaction_id" = some T →
      o.input.transaction = some T := by
    intro x hx hxT
    rw [hout] at hx
    exact transaction_of_send hx hxT
  refine ⟨fun x hx hk hxT => (hown (htrans x hx hxT)).1 x hx hk, fun d hd ht => (hown ht).2.1 d hd,
    fun x hx hk hxT => (hown (htrans x hx hxT)).2.2 x hx hk⟩

end Consent

end Kmatrix.Sas.Consent
