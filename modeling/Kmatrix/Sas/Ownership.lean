import Kmatrix.Sas.Soundness

/-! # Whose transaction it is

A transaction is looked up by its id alone: the handlers do not ask who sent an event, and what they
return goes to a device of the account we are logged in as, whoever opened the transaction. `KeepsOwner`
says of a call, by what it finds, when the transaction stays its owner's all the same: a stranger's event
is passed over, and an answer is due to ourselves. `owned_iff` is exact, step by step. -/

namespace Kmatrix.Sas.Ownership

open Kmatrix.E2ee.Json Kmatrix.Lib.Trace Kmatrix.Sas.Machine Kmatrix.Sas.Steps Kmatrix.Sas.Soundness

section Ownership
variable {S : SasSuite}

/-- `apply_verify_step` sends an event to a device of the account. -/
def addressee (self : Self) (x : ToSend) : Self := ⟨self.userId, x.device⟩

/-- The user and the device a transaction is open with. -/
def owner (e : Verification S) : Self := ⟨e.theirUser, e.theirDevice⟩

/-- **Ownership**, of a call: an event from someone else than the owner leaves the entry as it is, and
what is sent for the transaction is addressed to its owner: the one it was open with, or else the one it
is open with now. -/
def Owned (m : Verifier S) (c : Call S) : Prop :=
  ∀ T, c.transaction = some T →
    (∀ e sender, found m c T = some e → c.sender = some sender → sender ≠ e.theirUser →
      (step m c).1.verifications T = some e) ∧
    ∀ self e, c.self = some self →
      (found m c T).or ((step m c).1.verifications T) = some e →
      ∀ x ∈ (step m c).2.send, addressee self x = owner e

/-- The MACs of the event pass. -/
def MacPasses (m : Verifier S) (T : String) (self : Self) (e : Verification S) (content : Value) :
    Prop :=
  ∃ established macs keysMac, e.established = some established ∧
    (content.get "mac").bind Value.asObject = some macs ∧ content.getStr "keys" = some keysMac ∧
    Passes m T self e established macs keysMac

/-- The event says nothing new to the entry. -/
def PassesOver (m : Verifier S) (T : String) (self : Self) (e : Verification S) (kind : String)
    (content : Value) : Prop :=
  if kind = requestKind then content.getStr "from_device" = none
  else if kind = startKind then e.start ≠ none
  else if kind = keyKind then False
  else if kind = macKind then
    MacPasses m T self e content ∧ e.complete = false ∧ e.theySentMac = true
  else if kind = doneKind then e.complete = false ∧ e.theySentDone = true
  else kind ≠ cancelKind

/-- The event calls for no answer. -/
def Unanswered (m : Verifier S) (T : String) (self : Self) (e : Verification S) (kind : String)
    (content : Value) : Prop :=
  if kind = requestKind then content.getStr "from_device" = none
  else if kind = startKind then e.start ≠ none
  else if kind = keyKind then False
  else if kind = macKind then MacPasses m T self e content
  else True

/-- The event opens a transaction. -/
def Opens (kind : String) (content : Value) : Prop :=
  content.getStr "from_device" ≠ none ∧
    ((kind = requestKind ∧ content.offers "methods" sasMethod = true) ∨
      (kind = startKind ∧ content.getStr "method" = some sasMethod ∧ negotiated content = true))

/-- **When a transaction stays its owner's.** -/
def KeepsOwner (m : Verifier S) (c : Call S) : Prop :=
  ∀ T, c.transaction = some T →
    match c with
    | .handle _ _ self sender kind content =>
      match found m c T with
      | some e =>
        (sender ≠ e.theirUser → PassesOver m T self e kind content) ∧
          (Unanswered m T self e kind content ∨ (self.userId = e.theirUser ∧
            (kind = requestKind → content.getStr "from_device" = some e.theirDevice)))
      | none => Opens kind content → self.userId = sender
    | .confirm self _ _ => ∀ e, found m c T = some e → self.userId = e.theirUser
    | .remember _ => True

/-! ### What the handlers keep -/

variable {m : Verifier S} {T : String} {now : ℕ} {fresh : S.Secret} {self : Self}
  {sender kind : String} {content : Value} {e : Verification S}

theorem settle_eq {e' : Verification S} {out : VerifyStep} :
    (settle e' out).1 = some e ↔ e.complete = false ∧ e' = e := by
  constructor
  · intro h
    have heq := settle_kept h
    unfold settle at h
    split_ifs at h with hc
    rw [heq]
    exact ⟨by simpa using hc, rfl⟩
  · rintro ⟨hc, rfl⟩
    unfold settle
    rw [if_neg (by simp [hc])]

variable (m T self content e) in
theorem mac_cases :
    (MacPasses m T self e content ∧ verificationMac T self m.deviceEdKeys content (some e) =
      settle { e with theySentMac := true } {}) ∨
    (¬ MacPasses m T self e content ∧ ∃ code reason,
      verificationMac T self m.deviceEdKeys content (some e) =
        (none, cancelStep T e.theirDevice code reason)) := by
  unfold verificationMac
  dsimp only
  rcases he : e.established with _ | established
  · refine Or.inr ⟨?_, _, _, rfl⟩
    rintro ⟨_, _, _, h, -⟩
    rw [he] at h
    simp at h
  · dsimp only
    rcases hm : (content.get "mac").bind Value.asObject with _ | macs
    · refine Or.inr ⟨?_, _, _, rfl⟩
      rintro ⟨_, _, _, -, h, -⟩
      rw [hm] at h
      simp at h
    · rcases hk : content.getStr "keys" with _ | keysMac
      · refine Or.inr ⟨?_, _, _, rfl⟩
        rintro ⟨_, _, _, -, -, h, -⟩
        rw [hk] at h
        simp at h
      · have hpass : MacPasses m T self e content ↔ Passes m T self e established macs keysMac := by
          constructor
          · rintro ⟨est, ms, ks, h1, h2, h3, h⟩
            rw [he] at h1
            rw [hm] at h2
            rw [hk] at h3
            obtain rfl := Option.some.inj h1
            obtain rfl := Option.some.inj h2
            obtain rfl := Option.some.inj h3
            exact h
          · exact fun h => ⟨established, macs, keysMac, he, hm, hk, h⟩
        rw [hpass]
        dsimp only
        split_ifs with hids
        · rcases hc : checkMacs established (fun d => m.deviceEdKeys (e.theirUser, d))
              (macInfo ⟨e.theirUser, e.theirDevice⟩ self T) (.obj macs) (keyIds macs) with
            ⟨code, reason⟩ | ⟨⟩
          · refine Or.inr ⟨fun h => ?_, code, reason, rfl⟩
            have hok := checkMacs_ok_iff.mpr fun keyId hmem => checkMac_ok_iff.mpr (h.2 keyId hmem)
            rw [hc] at hok
            simp at hok
          · refine Or.inl ⟨⟨hids, fun keyId hmem => ?_⟩, rfl⟩
            exact checkMac_ok_iff.mp (checkMacs_ok_iff.mp hc keyId hmem)
        · exact Or.inr ⟨fun h => hids h.1, _, _, rfl⟩

/-- **A stranger's event leaves the entry** exactly if it is passed over. -/
theorem handleSlot_keeps (hs : sender ≠ e.theirUser) :
    (handleSlot m T now fresh self sender kind content (some e)).1 = some e ↔
      PassesOver m T self e kind content := by
  unfold handleSlot PassesOver
  split_ifs with h1 h2 h3 h4 h5 h6
  · unfold verificationRequest
    rcases content.getStr "from_device" with _ | device
    · simp
    · dsimp only
      split_ifs
      · -- the new entry is the stranger's
        refine ⟨fun h => absurd ?_ hs, fun h => by simp at h⟩
        rw [← Option.some.inj h]
        rfl
      · simp
  · unfold verificationStart adopted
    dsimp only
    split_ifs with hstart
    · simpa [Option.isSome_iff_ne_none] using hstart
    · simpa using hstart
    · simpa using hstart
    · have hnone : e.start = none := by simpa using hstart
      refine ⟨fun h => ?_, fun h => absurd hnone h⟩
      have hchanged := congrArg Verification.start (Option.some.inj h)
      rw [hnone] at hchanged
      simp at hchanged
  · unfold verificationKey
    dsimp only
    rw [iff_false]
    rcases content.getStr "key" with _ | theirKey
    · simp
    · rcases hsas : e.sas with _ | sas
      · simp
      · rcases e.ourPublicKey with _ | ourKey
        · simp
        · dsimp only
          rcases S.diffieHellman sas theirKey with err | established
          · simp
          · intro h
            have hchanged := congrArg Verification.sas (Option.some.inj h)
            rw [hsas] at hchanged
            simp at hchanged
  · rcases mac_cases m T self content e with
      ⟨hp, heq⟩ | ⟨hp, code, reason, heq⟩
    · rw [heq, settle_eq]
      refine ⟨fun h => ⟨hp, h.1, (congrArg Verification.theySentMac h.2).symm⟩, fun h => ⟨h.2.1, ?_⟩⟩
      rw [← h.2.2]
    · rw [heq]
      simp [hp]
  · unfold verificationDone
    rw [settle_eq]
    refine ⟨fun h => ⟨h.1, (congrArg Verification.theySentDone h.2).symm⟩, fun h => ⟨h.1, ?_⟩⟩
    rw [← h.2]
  · unfold verificationCancel
    simp [h6]
  · simp [h6]

/-! ### Where the handlers answer -/

theorem addressee_eq (x : ToSend) :
    addressee self x = owner e ↔ self.userId = e.theirUser ∧ x.device = e.theirDevice := by
  unfold addressee owner
  simp

/-- A cancel goes to the device the transaction is open with. -/
theorem cancel_addressed (code reason : String) :
    (∀ x ∈ (cancelStep T e.theirDevice code reason).send, addressee self x = owner e) ↔
      self.userId = e.theirUser := by
  unfold cancelStep
  simp [addressee_eq]

variable (T self content e) in
/-- A key event is always answered, with our key or with a cancel. -/
theorem key_send : ∃ answer body,
    (verificationKey T self content (some e)).2.send = [⟨answer, e.theirDevice, body⟩] := by
  unfold verificationKey
  dsimp only
  rcases content.getStr "key" with _ | theirKey
  · exact ⟨_, _, rfl⟩
  · rcases e.sas with _ | sas
    · exact ⟨_, _, rfl⟩
    · rcases e.ourPublicKey with _ | ourKey
      · exact ⟨_, _, rfl⟩
      · dsimp only
        rcases S.diffieHellman sas theirKey with err | established
        · exact ⟨_, _, rfl⟩
        · exact ⟨_, _, rfl⟩

variable (now fresh sender) in
/-- **What is sent goes to the owner** exactly if no answer is due, or the owner is ourselves and a
request comes from the device the transaction is open with. -/
theorem handleSlot_addressed :
    (∀ x ∈ (handleSlot m T now fresh self sender kind content (some e)).2.send,
        addressee self x = owner e) ↔
      (Unanswered m T self e kind content ∨ (self.userId = e.theirUser ∧
        (kind = requestKind → content.getStr "from_device" = some e.theirDevice))) := by
  unfold handleSlot Unanswered
  split_ifs with h1 h2 h3 h4 h5 h6
  · unfold verificationRequest
    rcases content.getStr "from_device" with _ | device
    · simp
    · dsimp only
      split_ifs <;> simp [cancelStep, addressee_eq, h1]
  · unfold verificationStart adopted
    dsimp only
    split_ifs with hstart
    · have hstarted : e.start ≠ none := Option.isSome_iff_ne_none.mp hstart
      simp [hstarted]
    · rw [cancel_addressed]
      simp [h1, show e.start = none by simpa using hstart]
    · rw [cancel_addressed]
      simp [h1, show e.start = none by simpa using hstart]
    · simp [addressee_eq, h1, show e.start = none by simpa using hstart]
  · obtain ⟨answer, body, hsend⟩ := key_send T self content e
    rw [hsend]
    simp [addressee_eq, h1]
  · rcases mac_cases m T self content e with
      ⟨hp, heq⟩ | ⟨hp, code, reason, heq⟩
    · rw [heq, settle_send]
      simp [hp]
    · rw [heq]
      dsimp only
      rw [cancel_addressed]
      simp [hp, h1]
  · unfold verificationDone
    rw [settle_send]
    simp
  · unfold verificationCancel
    simp
  · simp

variable (now fresh) in
/-- **A transaction is opened by ourselves** exactly if what is sent then goes to its owner. -/
theorem handleSlot_opens :
    (∀ e, (handleSlot m T now fresh self sender kind content none).1 = some e →
        ∀ x ∈ (handleSlot m T now fresh self sender kind content none).2.send,
          addressee self x = owner e) ↔
      (Opens kind content → self.userId = sender) := by
  unfold handleSlot Opens
  split_ifs with h1 h2 h3 h4 h5 h6
  · unfold verificationRequest
    rcases content.getStr "from_device" with _ | device
    · simp
    · dsimp only
      split_ifs with hm
      · simp [addressee_eq, h1, hm, Verification.new]
      · simp [h1, hm, show requestKind ≠ startKind by decide]
  · unfold verificationStart adopted
    rcases content.getStr "from_device" with _ | device
    · simp
    · simp only [Option.map_some, Verification.new, Option.isSome_none, Bool.false_eq_true, if_false]
      split_ifs with hmethod hneg
      · simp [h1, hmethod]
      · simp [h1, show negotiated content = false by simpa using hneg]
      · have hm : content.getStr "method" = some sasMethod := by simpa using hmethod
        have hn : negotiated content = true := by simpa using hneg
        simp [addressee_eq, h2, hm, hn]
  · unfold verificationKey
    simp [h1, h2]
  · unfold verificationMac
    simp [h1, h2]
  · unfold verificationDone
    simp [h1, h2]
  · unfold verificationCancel
    simp [h1, h2]
  · simp [h1, h2]

/-! ### The calls -/

/-- The user's answer is always passed on to the device the transaction is open with. -/
theorem confirm_addressed (ourEd : String) (confirm : Bool) :
    (∀ x ∈ (confirmVerification T self ourEd confirm (some e)).2.send, addressee self x = owner e) ↔
      self.userId = e.theirUser := by
  unfold confirmVerification
  dsimp only
  split_ifs
  · exact cancel_addressed _ _
  · rcases e.established with _ | established
    · exact cancel_addressed _ _
    · dsimp only
      rw [settle_send]
      simp [addressee_eq]

/-- **Ownership, step by step.** -/
theorem owned_iff (m : Verifier S) (c : Call S) : Owned m c ↔ KeepsOwner m c := by
  unfold Owned KeepsOwner
  refine forall_congr' fun T => forall_congr' fun ht => ?_
  rcases c with ⟨now, fresh, self, sender, kind, content⟩ | ⟨self, transaction, confirm⟩ | devices
  · obtain ⟨hslot, hout⟩ := step_handle (m := m) now fresh self sender kind ht
    rw [hslot, hout]
    show (∀ e sender', expireVerifications now m.verifications T = some e → some sender = some sender' →
        sender' ≠ e.theirUser → _) ∧ (∀ self' e, some self = some self' →
        (expireVerifications now m.verifications T).or _ = some e → _) ↔
      match expireVerifications now m.verifications T with
      | some e => _
      | none => _
    rcases expireVerifications now m.verifications T with _ | e
    · simp only [Option.none_or]
      rw [← handleSlot_opens (m := m) (T := T) now fresh]
      constructor
      · exact fun h e he => h.2 self e rfl he
      · refine fun h => ⟨fun e sender' he => by simp at he, fun self' e hs he => ?_⟩
        obtain rfl := Option.some.inj hs
        exact h e he
    · simp only [Option.some_or]
      rw [← handleSlot_addressed (m := m) (T := T) now fresh sender]
      constructor
      · exact fun h => ⟨fun hs => (handleSlot_keeps hs).mp (h.1 e sender rfl rfl hs),
          h.2 self e rfl rfl⟩
      · refine fun h => ⟨fun e' sender' he hsender hs => ?_, fun self' e' hself he => ?_⟩
        · obtain rfl := Option.some.inj he
          obtain rfl := Option.some.inj hsender
          exact (handleSlot_keeps hs).mpr (h.1 hs)
        · obtain rfl := Option.some.inj he
          obtain rfl := Option.some.inj hself
          exact h.2
  · obtain rfl := Option.some.inj ht
    obtain ⟨hslot, hout⟩ := step_confirm (m := m) (T := transaction) self confirm
    rw [hslot, hout]
    show (∀ e sender, m.verifications transaction = some e → none = some sender → _) ∧
        (∀ self' e, some self = some self' → (m.verifications transaction).or _ = some e → _) ↔
      ∀ e, m.verifications transaction = some e → _
    rcases m.verifications transaction with _ | e
    · refine ⟨fun _ e he => by simp at he, fun _ => ⟨fun e _ he => by simp at he, ?_⟩⟩
      intro self' e _ he
      simp [confirmVerification] at he
    · simp only [Option.some_or]
      constructor
      · rintro ⟨-, h⟩ e' he
        obtain rfl := Option.some.inj he
        exact (confirm_addressed _ _).mp (h self e rfl rfl)
      · refine fun h => ⟨fun _ _ _ hs => by simp at hs, fun self' e' hself he => ?_⟩
        obtain rfl := Option.some.inj he
        obtain rfl := Option.some.inj hself
        exact (confirm_addressed _ _).mpr (h e rfl)
  · simp [Call.transaction] at ht

/-- **Transaction ownership.** A run keeps every transaction its owner's exactly if each of its calls
does. -/
theorem ownership_iff (ourEd : String) (calls : List (Call S)) :
    EveryStep (fun _ o => Owned o.before o.input)
        (trace step (Verifier.fresh ourEd : Verifier S) calls) ↔
      ∀ o ∈ trace step (Verifier.fresh ourEd : Verifier S) calls, KeepsOwner o.before o.input := by
  constructor
  · intro h o ho
    obtain ⟨past, future, hsplit⟩ := List.append_of_mem ho
    exact (owned_iff _ _).mp (h past o future hsplit)
  · intro h past o future hsplit
    refine (owned_iff _ _).mpr (h o ?_)
    rw [hsplit]
    simp

end Ownership

/-! ### A stranger's cancel -/

/-- A verification of our own, cancelled by someone else. -/
def cancelledRun : List (Call plainSuite) :=
  [.handle 0 "s" ours "@me:h" startKind startContent,
    .handle 0 "s" ours "@eve:h" cancelKind (.obj [("transaction_id", .str "T")])]

theorem not_owned_cancelled :
    ¬ EveryStep (fun _ o => Owned o.before o.input)
      (trace step (Verifier.fresh "our ed") cancelledRun) := by
  intro h
  have hsplit := trace_append step (Verifier.fresh "our ed") (cancelledRun.take 1)
    (cancelledRun.drop 1)
  obtain ⟨hkeep, -⟩ := h _ _ _ hsplit "T" rfl
  have hgone := hkeep _ "@eve:h" rfl rfl (by decide)
  exact absurd (congrArg Option.isNone hgone) (by decide +kernel)

end Kmatrix.Sas.Ownership
