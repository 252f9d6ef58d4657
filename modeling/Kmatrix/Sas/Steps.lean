import Kmatrix.Sas.Machine

/-! # What a call can do to a verification

`Outcome` lists everything a call can make of the entry of its transaction, together with what it
returns; `step_outcome` says that this is all, and `step_other` that the entries of other transactions
only time out. A property of entries, which may speak of what happened before, is carried along a run by
`slot_invariant`. -/

namespace Kmatrix.Sas.Steps

open Kmatrix.E2ee.Json Kmatrix.Lib.Trace Kmatrix.Sas.Machine

section Steps
variable {S : SasSuite}

/-- A step of a run of the machine. -/
abbrev Step (S : SasSuite) := Occ (Verifier S) (Call S) VerifyStep

/-- **What a call can do**: the entry it finds, the entry it leaves, what it returns. -/
inductive Outcome (m : Verifier S) (T : String) :
    Call S → Option (Verification S) → Option (Verification S) → VerifyStep → Prop where
  | quiet (c : Call S) (slot : Option (Verification S)) : Outcome m T c slot slot {}
  | closed (c : Call S) (slot : Option (Verification S)) (step : VerifyStep)
      (hsend : ∀ x ∈ step.send, x.kind = cancelKind ∧ x.content.getStr "transaction_id" = some T)
      (hemoji : step.emoji = none) (hdone : step.done = none) : Outcome m T c slot none step
  | requested (now : ℕ) (fresh : S.Secret) (self : Self) (sender : String) (content : Value)
      (device : String) (slot : Option (Verification S))
      (hdevice : content.getStr "from_device" = some device) :
      Outcome m T (.handle now fresh self sender requestKind content) slot
        (some (.new sender device now))
        { send := [⟨readyKind, device, readyContent T self.deviceId⟩] }
  | accepted (now : ℕ) (fresh : S.Secret) (self : Self) (sender : String) (content : Value)
      (entry : Verification S) (slot : Option (Verification S))
      (hentry : adopted now sender content slot = some entry) (hstart : entry.start = none) :
      Outcome m T (.handle now fresh self sender startKind content) slot
        (some { entry with
          sas := some fresh
          ourPublicKey := some (S.publicKey fresh)
          start := some content })
        { send := [⟨acceptKind, entry.theirDevice,
          acceptContent T (commitment (S.publicKey fresh) content)⟩] }
  | keyed (now : ℕ) (fresh : S.Secret) (self : Self) (sender : String) (content : Value)
      (entry : Verification S) (sas : S.Secret) (ourKey theirKey : String)
      (established : S.Established) (hsas : entry.sas = some sas)
      (hour : entry.ourPublicKey = some ourKey) (htheir : content.getStr "key" = some theirKey)
      (hmade : S.diffieHellman sas theirKey = .ok established) :
      Outcome m T (.handle now fresh self sender keyKind content) (some entry)
        (some { entry with
          sas := none
          theirPublicKey := some theirKey
          established := some established })
        { send := [⟨keyKind, entry.theirDevice, keyContent T ourKey⟩]
          emoji := some (T, entry.theirDevice, S.emojiIndices established
            (sasInfo ⟨entry.theirUser, entry.theirDevice⟩ self theirKey ourKey T)) }
  | macChecked (now : ℕ) (fresh : S.Secret) (self : Self) (sender : String) (content : Value)
      (entry : Verification S) (established : S.Established) (macs : List (String × Value))
      (keysMac : String) (hest : entry.established = some established)
      (hmacs : (content.get "mac").bind Value.asObject = some macs)
      (hkeys : content.getStr "keys" = some keysMac)
      (hids : S.verifyMac established (",".intercalate (keyIds macs))
        (macInfo ⟨entry.theirUser, entry.theirDevice⟩ self T ++ "KEY_IDS") keysMac = true)
      (hchecks : checkMacs established (fun d => m.deviceEdKeys (entry.theirUser, d))
        (macInfo ⟨entry.theirUser, entry.theirDevice⟩ self T) (.obj macs) (keyIds macs) = .ok ()) :
      Outcome m T (.handle now fresh self sender macKind content) (some entry)
        (settle { entry with theySentMac := true } {}).1
        (settle { entry with theySentMac := true } {}).2
  | theySaidDone (now : ℕ) (fresh : S.Secret) (self : Self) (sender : String) (content : Value)
      (entry : Verification S) :
      Outcome m T (.handle now fresh self sender doneKind content) (some entry)
        (settle { entry with theySentDone := true } {}).1
        (settle { entry with theySentDone := true } {}).2
  | confirmed (self : Self) (entry : Verification S) (established : S.Established)
      (hest : entry.established = some established) (step : VerifyStep)
      (hstep : step = { send := [
        ⟨macKind, entry.theirDevice, macContent T (edKeyId self.deviceId)
          (S.calculateMac established m.ed25519Key
            (macInfo self ⟨entry.theirUser, entry.theirDevice⟩ T ++ edKeyId self.deviceId))
          (S.calculateMac established (edKeyId self.deviceId)
            (macInfo self ⟨entry.theirUser, entry.theirDevice⟩ T ++ "KEY_IDS"))⟩,
        ⟨doneKind, entry.theirDevice, doneContent T⟩] }) :
      Outcome m T (.confirm self T true) (some entry)
        (settle { entry with weSentMac := true, weSentDone := true } step).1
        (settle { entry with weSentMac := true, weSentDone := true } step).2

variable {m : Verifier S} {T : String}

/-- The transaction was cancelled. -/
theorem outcome_cancel (c : Call S) (slot : Option (Verification S)) (device code reason : String) :
    Outcome m T c slot none (cancelStep T device code reason) := by
  refine Outcome.closed c slot _ ?_ rfl rfl
  intro x hx
  rw [List.mem_singleton.mp hx]
  exact ⟨rfl, rfl⟩

section Handle
variable (now : ℕ) (fresh : S.Secret) (self : Self) (sender : String) (content : Value)
  (slot : Option (Verification S))

theorem request_outcome :
    Outcome m T (.handle now fresh self sender requestKind content) slot
      (verificationRequest T now sender self.deviceId content slot).1
      (verificationRequest T now sender self.deviceId content slot).2 := by
  unfold verificationRequest
  rcases hd : content.getStr "from_device" with _ | device
  · exact Outcome.quiet _ _
  · dsimp only
    split_ifs
    · exact Outcome.requested now fresh self sender content device slot hd
    · exact outcome_cancel _ _ _ _ _

theorem start_outcome :
    Outcome m T (.handle now fresh self sender startKind content) slot
      (verificationStart T now fresh sender content slot).1
      (verificationStart T now fresh sender content slot).2 := by
  unfold verificationStart
  rcases he : adopted now sender content slot with _ | entry
  · have hnone : slot = none := by
      rcases slot with _ | e
      · rfl
      · simp [adopted] at he
    rw [hnone]
    exact Outcome.quiet _ _
  · dsimp only
    split_ifs with hstart
    · -- only an entry that is there has been started
      have hslot : slot = some entry := by
        rcases slot with _ | e
        · obtain ⟨device, -, rfl⟩ := Option.map_eq_some_iff.mp he
          simp [Verification.new] at hstart
        · exact he
      rw [hslot]
      exact Outcome.quiet _ _
    · exact outcome_cancel _ _ _ _ _
    · exact outcome_cancel _ _ _ _ _
    · exact Outcome.accepted now fresh self sender content entry slot he (by simpa using hstart)

theorem key_outcome :
    Outcome m T (.handle now fresh self sender keyKind content) slot
      (verificationKey T self content slot).1 (verificationKey T self content slot).2 := by
  unfold verificationKey
  rcases slot with _ | entry
  · exact Outcome.quiet _ _
  · dsimp only
    rcases hk : content.getStr "key" with _ | theirKey
    · exact outcome_cancel _ _ _ _ _
    · dsimp only
      rcases hs : entry.sas with _ | sas
      · exact outcome_cancel _ _ _ _ _
      · rcases ho : entry.ourPublicKey with _ | ourKey
        · exact outcome_cancel _ _ _ _ _
        · dsimp only
          rcases hd : S.diffieHellman sas theirKey with e | established
          · exact outcome_cancel _ _ _ _ _
          · have h := Outcome.keyed (m := m) (T := T) now fresh self sender content entry sas ourKey
              theirKey established hs ho hk hd
            rw [ho] at h
            exact h

theorem mac_outcome :
    Outcome m T (.handle now fresh self sender macKind content) slot
      (verificationMac T self m.deviceEdKeys content slot).1
      (verificationMac T self m.deviceEdKeys content slot).2 := by
  unfold verificationMac
  rcases slot with _ | entry
  · exact Outcome.quiet _ _
  · dsimp only
    rcases he : entry.established with _ | established
    · exact outcome_cancel _ _ _ _ _
    · dsimp only
      rcases hm : (content.get "mac").bind Value.asObject with _ | macs
      · exact outcome_cancel _ _ _ _ _
      · rcases hk : content.getStr "keys" with _ | keysMac
        · exact outcome_cancel _ _ _ _ _
        · dsimp only
          split_ifs with hids
          · split
            · exact outcome_cancel _ _ _ _ _
            · next hchecks =>
              have h := Outcome.macChecked (m := m) (T := T) now fresh self sender content entry
                established macs keysMac he hm hk hids hchecks
              rw [he] at h
              exact h
          · exact outcome_cancel _ _ _ _ _

theorem done_outcome :
    Outcome m T (.handle now fresh self sender doneKind content) slot
      (verificationDone slot).1 (verificationDone slot).2 := by
  unfold verificationDone
  rcases slot with _ | entry
  · exact Outcome.quiet _ _
  · exact Outcome.theySaidDone now fresh self sender content entry

theorem cancel_outcome (kind : String) :
    Outcome m T (.handle now fresh self sender kind content) slot
      (verificationCancel content slot).1 (verificationCancel content slot).2 := by
  unfold verificationCancel
  rcases slot with _ | entry
  · exact Outcome.quiet _ _
  · exact Outcome.closed _ _ _ (by simp) rfl rfl

theorem handleSlot_outcome (kind : String) :
    Outcome m T (.handle now fresh self sender kind content) slot
      (handleSlot m T now fresh self sender kind content slot).1
      (handleSlot m T now fresh self sender kind content slot).2 := by
  unfold handleSlot
  split_ifs with h1 h2 h3 h4 h5 h6
  · rw [h1]; exact request_outcome _ _ _ _ _ _
  · rw [h2]; exact start_outcome _ _ _ _ _ _
  · rw [h3]; exact key_outcome _ _ _ _ _ _
  · rw [h4]; exact mac_outcome _ _ _ _ _ _
  · rw [h5]; exact done_outcome _ _ _ _ _ _
  · exact cancel_outcome _ _ _ _ _ _ _
  · exact Outcome.quiet _ _

end Handle

theorem confirm_outcome (self : Self) (confirm : Bool) (slot : Option (Verification S)) :
    Outcome m T (.confirm self T confirm) slot
      (confirmVerification T self m.ed25519Key confirm slot).1
      (confirmVerification T self m.ed25519Key confirm slot).2 := by
  unfold confirmVerification
  rcases slot with _ | entry
  · exact Outcome.closed _ _ _ (by simp) rfl rfl
  · dsimp only
    rcases confirm with _ | _
    · exact outcome_cancel _ _ _ _ _
    · rw [if_neg (by simp)]
      rcases he : entry.established with _ | established
      · exact outcome_cancel _ _ _ _ _
      · have h := Outcome.confirmed (m := m) (T := T) self entry established he _ rfl
        rw [he] at h
        exact h

/-! ### Settled entries -/

theorem settle_send (e : Verification S) (step : VerifyStep) : (settle e step).2.send = step.send := by
  unfold settle
  split_ifs <;> rfl

theorem settle_emoji (e : Verification S) (step : VerifyStep) :
    (settle e step).2.emoji = step.emoji := by
  unfold settle
  split_ifs <;> rfl

/-- An entry that is kept is the one that was settled. -/
theorem settle_kept {e e' : Verification S} {step : VerifyStep} (h : (settle e step).1 = some e') :
    e' = e := by
  unfold settle at h
  split_ifs at h
  exact (Option.some.inj h).symm

/-- An entry is finished when it is complete. -/
theorem settle_done {e : Verification S} {step : VerifyStep} {d : String}
    (h : (settle e step).2.done = some d) (hs : step.done = none) :
    e.complete = true ∧ d = e.theirDevice := by
  unfold settle at h
  split_ifs at h with hc
  · exact ⟨hc, (Option.some.inj h).symm⟩
  · simp only at h
    rw [hs] at h
    simp at h

/-! ### The machine -/

/-- The entry as a call finds it: an event first drops what has timed out. -/
def found (m : Verifier S) (c : Call S) (T : String) : Option (Verification S) :=
  match c with
  | .handle now _ _ _ _ _ => expireVerifications now m.verifications T
  | _ => m.verifications T

theorem of_found {c : Call S} {e : Verification S} (h : found m c T = some e) :
    m.verifications T = some e := by
  rcases c with ⟨now, fresh, self, sender, kind, content⟩ | _ | _
  · exact (Option.filter_eq_some_iff.mp h).1
  · exact h
  · exact h

/-- **The entries of other transactions** only time out. -/
theorem step_other {c : Call S} (h : c.transaction ≠ some T) :
    (step m c).1.verifications T = found m c T := by
  rcases c with ⟨now, fresh, self, sender, kind, content⟩ | ⟨self, transaction, confirm⟩ | devices
  · have h : content.getStr "transaction_id" ≠ some T := h
    show (handleVerification m now fresh self sender kind content).1.verifications T = _
    unfold handleVerification
    rcases ht : content.getStr "transaction_id" with _ | transaction
    · rfl
    · have hne : T ≠ transaction := by
        rintro rfl
        exact h ht
      exact Function.update_of_ne hne _ _
  · have hne : T ≠ transaction := by
      rintro rfl
      exact h rfl
    exact Function.update_of_ne hne _ _
  · rfl

/-- An event is handled on the entry of its transaction. -/
theorem step_handle (now : ℕ) (fresh : S.Secret) (self : Self) (sender kind : String) {content : Value}
    (h : content.getStr "transaction_id" = some T) :
    (step m (.handle now fresh self sender kind content)).1.verifications T =
        (handleSlot m T now fresh self sender kind content
          (expireVerifications now m.verifications T)).1 ∧
      (step m (.handle now fresh self sender kind content)).2 =
        (handleSlot m T now fresh self sender kind content
          (expireVerifications now m.verifications T)).2 := by
  have hstep : step m (.handle now fresh self sender kind content) =
      (({ m with verifications := expireVerifications now m.verifications } : Verifier S).set T
        (handleSlot m T now fresh self sender kind content
          (expireVerifications now m.verifications T)).1,
        (handleSlot m T now fresh self sender kind content
          (expireVerifications now m.verifications T)).2) := by
    show handleVerification m now fresh self sender kind content = _
    unfold handleVerification
    rw [h]
    rfl
  rw [hstep]
  exact ⟨Function.update_self _ _ _, rfl⟩

/-- The user's answer is handled on the entry of its transaction. -/
theorem step_confirm (self : Self) (confirm : Bool) :
    (step m (.confirm self T confirm)).1.verifications T =
        (confirmVerification T self m.ed25519Key confirm (m.verifications T)).1 ∧
      (step m (.confirm self T confirm)).2 =
        (confirmVerification T self m.ed25519Key confirm (m.verifications T)).2 :=
  ⟨Function.update_self _ _ _, rfl⟩

/-- **The entry of its own transaction.** -/
theorem step_outcome {c : Call S} (h : c.transaction = some T) :
    Outcome m T c (found m c T) ((step m c).1.verifications T) (step m c).2 := by
  rcases c with ⟨now, fresh, self, sender, kind, content⟩ | ⟨self, transaction, confirm⟩ | devices
  · obtain ⟨hslot, hout⟩ := step_handle (m := m) now fresh self sender kind h
    rw [hslot, hout]
    exact handleSlot_outcome now fresh self sender content _ kind
  · obtain rfl := Option.some.inj h
    obtain ⟨hslot, hout⟩ := step_confirm (m := m) (T := transaction) self confirm
    rw [hslot, hout]
    exact confirm_outcome self confirm _
  · simp [Call.transaction] at h

/-- What is returned is about the transaction of the call. -/
theorem outcome_about {c : Call S} {slot slot' : Option (Verification S)} {step : VerifyStep}
    (h : Outcome m T c slot slot' step) :
    (∀ x ∈ step.send, x.content.getStr "transaction_id" = some T) ∧
      ∀ e ∈ step.emoji, e.1 = T := by
  rcases h with _ | ⟨_, _, _, hsend, hemoji, _⟩ | _ | _ | _ | _ | _ | ⟨self, entry, established, _, _, hstep⟩
  · simp
  · refine ⟨fun x hx => (hsend x hx).2, ?_⟩
    rw [hemoji]
    simp
  · refine ⟨?_, by simp⟩
    intro x hx
    rw [List.mem_singleton.mp hx]
    rfl
  · refine ⟨?_, by simp⟩
    intro x hx
    rw [List.mem_singleton.mp hx]
    rfl
  · refine ⟨?_, by simp⟩
    intro x hx
    rw [List.mem_singleton.mp hx]
    rfl
  · rw [settle_send, settle_emoji]
    simp
  · rw [settle_send, settle_emoji]
    simp
  · rw [settle_send, settle_emoji, hstep]
    refine ⟨?_, by simp⟩
    intro x hx
    rcases List.mem_cons.mp hx with rfl | hx
    · rfl
    · rw [List.mem_singleton.mp hx]
      rfl

/-- A call about no transaction returns nothing. -/
theorem step_quiet {c : Call S} (h : c.transaction = none) : (step m c).2 = {} := by
  rcases c with ⟨now, fresh, self, sender, kind, content⟩ | ⟨self, transaction, confirm⟩ | devices
  · have h : content.getStr "transaction_id" = none := h
    show (handleVerification m now fresh self sender kind content).2 = _
    unfold handleVerification
    rw [h]
  · cases h
  · rfl

/-! ### Invariants of the entries -/

/-- **The run rule for entries**: what a call leaves of its own entry satisfies `I`, and `I` does not
mind calls about other transactions. -/
theorem slot_invariant {I : List (Step S) → String → Verification S → Prop}
    {C : Verifier S → Call S → Prop}
    (hother : ∀ past m c T e, c.transaction ≠ some T → I past T e →
      I (past ++ [⟨m, c, (step m c).2⟩]) T e)
    (hown : ∀ past m c T slot step, c.transaction = some T → C m c →
      (∀ e, found m c T = some e → I past T e) → Outcome m T c (found m c T) slot step →
      ∀ e, slot = some e → I (past ++ [⟨m, c, step⟩]) T e)
    {m₀ : Verifier S} (h₀ : ∀ T, m₀.verifications T = none) {calls : List (Call S)}
    (hC : ∀ o ∈ trace step m₀ calls, C o.before o.input)
    {past future : List (Step S)} {o : Step S} (h : trace step m₀ calls = past ++ o :: future) :
    (∀ T e, found o.before o.input T = some e → I past T e) ∧ C o.before o.input ∧
      o.output = (step o.before o.input).2 := by
  have key := at_step (I := fun past (m : Verifier S) => ∀ T e, m.verifications T = some e → I past T e)
    (fun T e he => by rw [h₀ T] at he; cases he) ?_ hC h
  · exact ⟨fun T e he => key.1 T e (of_found he), key.2⟩
  · intro past m c hI hc T e he
    by_cases ht : c.transaction = some T
    · exact hown past m c T _ _ ht hc (fun e' he' => hI T e' (of_found he')) (step_outcome ht) e he
    · rw [step_other ht] at he
      exact hother past m c T e ht (hI T e (of_found he))

/-- Emoji are shown for the transaction of the call. -/
theorem transaction_of_emoji {c : Call S} {e : String × String × (Fin 7 → UInt8)}
    (h : (step m c).2.emoji = some e) : c.transaction = some e.1 := by
  rcases ht : c.transaction with _ | T
  · rw [step_quiet ht] at h
    simp at h
  · rw [(outcome_about (step_outcome (m := m) ht)).2 e h]

/-- Events are sent for the transaction of the call. -/
theorem transaction_of_send {c : Call S} {x : ToSend} (hx : x ∈ (step m c).2.send)
    (hT : x.content.getStr "transaction_id" = some T) : c.transaction = some T := by
  rcases ht : c.transaction with _ | T'
  · rw [step_quiet ht] at hx
    simp at hx
  · rw [← hT, (outcome_about (step_outcome (m := m) ht)).1 x hx]

/-- What a step of a run returns about its transaction. -/
theorem output_outcome {o : Step S} (ho : o.output = (step o.before o.input).2)
    (ht : o.input.transaction = some T) :
    ∃ slot, Outcome o.before T o.input (found o.before o.input T) slot o.output := by
  rw [ho]
  exact ⟨_, step_outcome ht⟩

/-! ### The stages of the exchange -/

/-- **The order of the exchange**: our ephemeral key comes with the start, and the shared secret uses it
up. -/
structure Staged (e : Verification S) : Prop where
  unstarted : e.start = none → e.sas = none ∧ e.established = none
  exclusive : e.established ≠ none → e.sas = none

/-- Nothing is exchanged yet where the key is still held. -/
theorem Staged.fresh {e : Verification S} (h : Staged e) (hs : e.sas ≠ none) :
    e.start ≠ none ∧ e.established = none := by
  refine ⟨fun hstart => hs (h.unstarted hstart).1, ?_⟩
  by_contra hne
  exact hs (h.exclusive hne)

theorem staged_new (user device : String) (now : ℕ) :
    Staged (Verification.new user device now : Verification S) where
  unstarted _ := ⟨rfl, rfl⟩
  exclusive h := absurd rfl h

/-- The entry a start goes to: one that is there, or a new one. -/
theorem of_adopted {P : Verification S → Prop} {now : ℕ} {sender : String} {content : Value}
    {slot : Option (Verification S)} {entry : Verification S}
    (h : adopted now sender content slot = some entry) (hslot : ∀ e, slot = some e → P e)
    (hnew : ∀ device, P (Verification.new sender device now)) : P entry := by
  rcases slot with _ | e
  · obtain ⟨device, -, rfl⟩ := Option.map_eq_some_iff.mp h
    exact hnew device
  · exact hslot entry h

/-- **Every call keeps the order.** -/
theorem staged_outcome {c : Call S} {slot slot' : Option (Verification S)} {out : VerifyStep}
    (hslot : ∀ e, slot = some e → Staged e) (h : Outcome m T c slot slot' out) :
    ∀ e, slot' = some e → Staged e := by
  intro e he
  rcases h with _ | _ | ⟨now, fresh, self, sender, content, device⟩ |
    ⟨now, fresh, self, sender, content, entry, _, hentry, hstart⟩ |
    ⟨now, fresh, self, sender, content, entry, sas, ourKey, theirKey, established, hsas, hour⟩ |
    ⟨now, fresh, self, sender, content, entry⟩ | ⟨now, fresh, self, sender, content, entry⟩ |
    ⟨self, entry⟩
  · exact hslot e he
  · simp at he
  · obtain rfl := Option.some.inj he
    exact staged_new _ _ _
  · have hst : Staged entry := of_adopted hentry hslot fun device => staged_new _ _ _
    have hnone := (hst.unstarted hstart).2
    obtain rfl := Option.some.inj he
    exact ⟨fun h => by simp at h, fun h => absurd hnone h⟩
  · have hst := hslot entry rfl
    have hstarted := (hst.fresh (by rw [hsas]; simp)).1
    obtain rfl := Option.some.inj he
    exact ⟨fun h => absurd h hstarted, fun _ => rfl⟩
  · have hst := hslot entry rfl
    rw [settle_kept he]
    exact ⟨hst.unstarted, hst.exclusive⟩
  · have hst := hslot entry rfl
    rw [settle_kept he]
    exact ⟨hst.unstarted, hst.exclusive⟩
  · have hst := hslot entry rfl
    rw [settle_kept he]
    exact ⟨hst.unstarted, hst.exclusive⟩

end Steps

end Kmatrix.Sas.Steps
