import Kmatrix.Sas.Soundness

/-! # One ephemeral key for each transaction

Once an accept was sent, the commitment in it must stay the only one until the transaction has ended: its
entry is gone, by a cancel, by completion or by expiry. A second start is ignored where the first one is
remembered. But a request replaces the entry, whoever sends it, and with it the start that was remembered:
the next start draws another key. Where no request does that, an entry whose accept is out has its start
(`Started`). -/

namespace Kmatrix.Sas.Ephemeral

open Kmatrix.E2ee.Json Kmatrix.Lib.Trace Kmatrix.Sas.Machine Kmatrix.Sas.Steps Kmatrix.Sas.Soundness

section Ephemeral
variable {S : SasSuite}

/-! ### What is claimed, and when it holds -/

/-- The step sends an accept for the transaction, with this commitment. -/
def Accepts (T k : String) (o : Step S) : Prop :=
  ∃ x ∈ o.output.send, x.kind = acceptKind ∧ x.content.getStr "transaction_id" = some T ∧
    x.content.getStr "commitment" = some k

/-- **The transaction goes on**: each of the steps finds its entry. -/
def GoesOn (T : String) (steps : List (Step S)) : Prop := ∀ o ∈ steps, found o.before o.input T ≠ none

/-- The latest accepts of a transaction that has not ended since. -/
def Committed (T k : String) (past : List (Step S)) : Prop :=
  ∃ before o after, past = before ++ o :: after ∧ Accepts T k o ∧ GoesOn T after

/-- **One key**, of a step: its accept commits to what was committed to before, unless the transaction has
ended in between. -/
def OneKey (past : List (Step S)) (o : Step S) : Prop :=
  ∀ T k k', Committed T k past → found o.before o.input T ≠ none → Accepts T k' o → k' = k

/-- **The condition on a call**: no request that would be answered with `ready` arrives for a transaction
whose start was accepted. -/
def KeepsStart (m : Verifier S) (c : Call S) : Prop :=
  ∀ now fresh self sender content device T e, c = .handle now fresh self sender requestKind content →
    content.getStr "transaction_id" = some T → content.getStr "from_device" = some device →
    content.offers "methods" sasMethod = true → found m c T = some e → e.start = none

/-- **What an entry says of the past**: if its accept is out, it has its start. -/
def Started (past : List (Step S)) (T : String) (e : Verification S) : Prop :=
  ∀ k, Committed T k past → e.start ≠ none

/-! ### One step -/

variable {past : List (Step S)} {T k : String} {o : Step S} {m : Verifier S} {c : Call S}

/-- What is committed to after a step was before, or is now. -/
theorem Committed.of_concat (h : Committed T k (past ++ [o])) :
    (Committed T k past ∧ found o.before o.input T ≠ none) ∨ Accepts T k o := by
  obtain ⟨before, o', after, hsplit, hacc, hon⟩ := h
  rcases List.eq_nil_or_concat after with rfl | ⟨after, last, rfl⟩
  · obtain ⟨-, hlast⟩ := List.append_inj' hsplit rfl
    obtain rfl : o = o' := (List.cons.inj hlast).1
    exact Or.inr hacc
  · have hsplit' : past ++ [o] = (before ++ o' :: after) ++ [last] := by
      rw [hsplit]
      simp
    obtain ⟨rfl, hlast⟩ := List.append_inj' hsplit' rfl
    obtain rfl : o = last := (List.cons.inj hlast).1
    rw [List.concat_eq_append] at hon
    refine Or.inl ⟨⟨before, o', after, rfl, hacc, fun x hx => hon x ?_⟩, hon o ?_⟩
    · exact List.mem_append_left _ hx
    · exact List.mem_append_right _ (List.mem_singleton_self _)

/-- Only a start of its own transaction is accepted. -/
theorem transaction_of_accepts (h : Accepts T k (⟨m, c, (step m c).2⟩ : Step S)) : c.transaction = some T := by
  obtain ⟨x, hx, -, hT, -⟩ := h
  exact transaction_of_send hx hT

/-- A step that sends no accept leaves what an entry with the same start says. -/
theorem Started.concat {e e' : Verification S} (h : Started past T e) (hstart : e'.start = e.start)
    (ho : ∀ k, ¬ Accepts T k o) : Started (past ++ [o]) T e' := by
  intro k hk
  rw [hstart]
  rcases hk.of_concat with ⟨hk, -⟩ | hacc
  · exact h k hk
  · exact absurd hacc (ho k)

/-- Only the listed kinds are sent. -/
theorem not_accepts {out : VerifyStep} (h : ∀ x ∈ out.send, x.kind ≠ acceptKind) (k : String) :
    ¬ Accepts T k (⟨m, c, out⟩ : Step S) := by
  rintro ⟨x, hx, hkind, -⟩
  exact h x hx hkind

/-- A request is answered with `ready` if it offers our method. -/
theorem offers_of_ready {now : ℕ} {fresh : S.Secret} {self : Self} {sender : String} {content : Value}
    (hT : content.getStr "transaction_id" = some T)
    (h : ∃ x ∈ (step m (.handle now fresh self sender requestKind content)).2.send, x.kind = readyKind) :
    content.offers "methods" sasMethod = true := by
  obtain ⟨x, hx, hkind⟩ := h
  rw [(step_handle now fresh self sender requestKind hT).2] at hx
  unfold handleSlot verificationRequest at hx
  rw [if_pos rfl] at hx
  rcases hdevice : content.getStr "from_device" with _ | device
  · simp [hdevice] at hx
  · rw [hdevice] at hx
    dsimp only at hx
    split_ifs at hx with hoffers
    · exact hoffers
    · rw [List.mem_singleton.mp hx] at hkind
      exact absurd (show cancelKind = readyKind from hkind) (by decide)

/-- **Every call that meets the condition** keeps what its entry says. -/
theorem started_own (hC : KeepsStart m c) (ht : c.transaction = some T)
    (hfound : ∀ e, found m c T = some e → Started past T e) :
    ∀ e, (step m c).1.verifications T = some e → Started (past ++ [⟨m, c, (step m c).2⟩]) T e := by
  intro e he
  have hoc := step_outcome (m := m) ht
  generalize (step m c).1.verifications T = slot' at he hoc
  generalize hslot : found m c T = slot at hoc hfound
  generalize hout : (step m c).2 = out at hoc ⊢
  rcases hoc with _ | _ | ⟨now, fresh, self, sender, content, device, _, hdevice⟩ |
    ⟨now, fresh, self, sender, content, entry, _, hentry, hstart⟩ |
    ⟨now, fresh, self, sender, content, entry, sas, ourKey, theirKey, established, hsas, hour⟩ |
    ⟨now, fresh, self, sender, content, entry, established, macs, keysMac, hest⟩ |
    ⟨now, fresh, self, sender, content, entry⟩ | ⟨self, entry, established, hest, signed, hstep⟩
  · exact (hfound e he).concat rfl (not_accepts (by simp))
  · simp at he
  · -- a new entry, which takes the place of one without a start
    obtain rfl := Option.some.inj he
    intro k hk
    rcases hk.of_concat with ⟨hk, hne⟩ | hacc
    · obtain ⟨e₀, he₀⟩ := Option.ne_none_iff_exists'.mp hne
      have hready : ∃ x ∈ (step m (.handle now fresh self sender requestKind content)).2.send,
          x.kind = readyKind := by
        rw [hout]
        exact ⟨_, List.mem_singleton_self _, rfl⟩
      have hoffers := offers_of_ready ht hready
      have hnone := hC now fresh self sender content device T e₀ rfl ht hdevice hoffers he₀
      exact absurd hnone (hfound e₀ (hslot.symm.trans he₀) k hk)
    · exact absurd hacc (not_accepts (by simp [readyKind, acceptKind]) k)
  · obtain rfl := Option.some.inj he
    exact fun k _ => by simp
  · obtain rfl := Option.some.inj he
    exact (hfound entry rfl).concat rfl (not_accepts (by simp [keyKind, acceptKind]))
  · rw [settle_kept he]
    exact (hfound entry rfl).concat rfl (not_accepts (by rw [settle_send]; simp))
  · rw [settle_kept he]
    exact (hfound entry rfl).concat rfl (not_accepts (by rw [settle_send]; simp))
  · rw [settle_kept he]
    refine (hfound entry rfl).concat rfl (not_accepts ?_)
    rw [settle_send, hstep]
    simp [macKind, doneKind, acceptKind]

/-- **Every step.** -/
theorem started_step (hC : KeepsStart m c) (h : ∀ T e, m.verifications T = some e → Started past T e) :
    ∀ T e, (step m c).1.verifications T = some e → Started (past ++ [⟨m, c, (step m c).2⟩]) T e := by
  intro T e he
  have hfound : ∀ e, found m c T = some e → Started past T e := fun e he => h T e (of_found he)
  by_cases ht : c.transaction = some T
  · exact started_own hC ht hfound e he
  · rw [step_other ht] at he
    exact (hfound e he).concat rfl fun k hacc => ht (transaction_of_accepts hacc)

/-- A start is accepted only where none is remembered. -/
theorem start_of_accepts {e : Verification S} {slot' : Option (Verification S)} {out : VerifyStep}
    (h : Outcome m T c (some e) slot' out) (hacc : Accepts T k (⟨m, c, out⟩ : Step S)) : e.start = none := by
  obtain ⟨x, hx, hkind, -⟩ := hacc
  generalize hslot : some e = slot at h
  rcases h with _ | ⟨_, _, _, hsend⟩ | ⟨now, fresh, self, sender, content, device⟩ |
    ⟨now, fresh, self, sender, content, entry, _, hentry, hstart⟩ |
    ⟨now, fresh, self, sender, content, entry, sas, ourKey, theirKey, established, hsas, hour⟩ |
    ⟨now, fresh, self, sender, content, entry, established, macs, keysMac, hest⟩ |
    ⟨now, fresh, self, sender, content, entry⟩ | ⟨self, entry, established, hest, signed, hstep⟩
  · simp at hx
  · rw [(hsend x hx).1] at hkind
    exact absurd hkind (by decide)
  · rw [List.mem_singleton.mp hx] at hkind
    exact absurd (show readyKind = acceptKind from hkind) (by decide)
  · subst hslot
    obtain rfl : e = entry := Option.some.inj hentry
    exact hstart
  · rw [List.mem_singleton.mp hx] at hkind
    exact absurd (show keyKind = acceptKind from hkind) (by decide)
  · rw [settle_send] at hx
    simp at hx
  · rw [settle_send] at hx
    simp at hx
  · rw [settle_send, hstep] at hx
    rcases List.mem_cons.mp hx with rfl | hx
    · exact absurd (show macKind = acceptKind from hkind) (by decide)
    · rw [List.mem_singleton.mp hx] at hkind
      exact absurd (show doneKind = acceptKind from hkind) (by decide)

/-- **One key for each transaction**, in every run whose calls all meet the condition. -/
theorem oneKey_of_keeps (ourEd : String) (calls : List (Call S))
    (h : ∀ o ∈ trace step (Verifier.fresh ourEd : Verifier S) calls, KeepsStart o.before o.input) :
    EveryStep OneKey (trace step (Verifier.fresh ourEd : Verifier S) calls) := by
  intro past o future hsplit T k k' hk hne hacc
  obtain ⟨hstarted, -, hout⟩ := at_step
    (I := fun past (m : Verifier S) => ∀ T e, m.verifications T = some e → Started past T e)
    (fun T e he => by cases he) (fun past m c hI hC => started_step hC hI) h hsplit
  obtain ⟨e, he⟩ := Option.ne_none_iff_exists'.mp hne
  have hstart := hstarted T e (of_found he) k hk
  have ht : o.input.transaction = some T := by
    obtain ⟨x, hx, -, hT, -⟩ := hacc
    rw [hout] at hx
    exact transaction_of_send hx hT
  obtain ⟨slot, hoc⟩ := output_outcome hout ht
  rw [he] at hoc
  exact absurd (start_of_accepts hoc hacc) hstart

/-- `KeepsStart`, tested. -/
def keepsStart (m : Verifier S) (c : Call S) : Bool :=
  match c with
  | .handle _ _ _ _ kind content =>
    match content.getStr "transaction_id" with
    | some T => kind ≠ requestKind || (content.getStr "from_device").isNone ||
        !content.offers "methods" sasMethod || (found m c T).all fun e => e.start.isNone
    | none => true
  | _ => true

theorem of_keepsStart (h : keepsStart m c = true) : KeepsStart m c := by
  rintro now fresh self sender content device T e rfl hT hdevice hoffers hfound
  unfold keepsStart at h
  dsimp only at h
  rw [hT, hdevice, hoffers] at h
  dsimp only at h
  rw [hfound] at h
  simpa using h

end Ephemeral

/-! ### A second request -/

/-- The request of their device. -/
def requestContent : Value :=
  .obj [("from_device", .str "THEIRS"), ("methods", .arr [.str sasMethod]), ("transaction_id", .str "T")]

/-- A start that is accepted, and one more; where `again`, after another request of somebody else. -/
def startedTwice (again : Bool) : List (Call plainSuite) :=
  let handle (fresh sender kind : String) (content : Value) : Call plainSuite :=
    .handle 0 fresh ours sender kind content
  [handle "s" "@me:h" requestKind requestContent, handle "s" "@me:h" startKind startContent] ++
    (if again then [handle "s" "@eve:h" requestKind requestContent] else []) ++
    [handle "z" "@me:h" startKind startContent]

theorem oneKey_of_keeps_startedTwice :
    EveryStep OneKey (trace step (Verifier.fresh "our ed") (startedTwice false)) := by
  refine oneKey_of_keeps "our ed" (startedTwice false) fun o ho => of_keepsStart ?_
  have hall : ((trace step (Verifier.fresh "our ed" : Verifier plainSuite) (startedTwice false)).all
      fun o => keepsStart o.before o.input) = true := by decide +kernel
  exact List.all_eq_true.mp hall o ho

/-- What a step commits to. -/
def commitments (o : Step plainSuite) : List String :=
  o.output.send.filterMap fun x =>
    if x.kind = acceptKind ∧ x.content.getStr "transaction_id" = some "T" then x.content.getStr "commitment"
    else none

theorem accepts_of_mem {k : String} {o : Step plainSuite} (h : k ∈ commitments o) : Accepts "T" k o := by
  obtain ⟨x, hx, hk⟩ := List.mem_filterMap.mp h
  split_ifs at hk with hkind
  exact ⟨x, hx, hkind.1, hkind.2, hk⟩

/-- **The key changes** under a commitment that is out. -/
theorem not_oneKey_startedTwice :
    ¬ EveryStep OneKey (trace step (Verifier.fresh "our ed") (startedTwice true)) := by
  intro h
  have hsplit := trace_append step (Verifier.fresh "our ed" : Verifier plainSuite) ((startedTwice true).take 3)
    ((startedTwice true).drop 3)
  have hone := h _ _ _ hsplit "T" (commitment "s+" startContent) (commitment "z+" startContent)
  have hcommitted : Committed "T" (commitment "s+" startContent)
      (trace step (Verifier.fresh "our ed" : Verifier plainSuite) ((startedTwice true).take 3)) := by
    have hcut := trace_append step (Verifier.fresh "our ed" : Verifier plainSuite) ((startedTwice true).take 1)
      (((startedTwice true).drop 1).take 2)
    refine ⟨_, _, _, hcut, accepts_of_mem (List.mem_singleton_self _), fun o ho hnone => ?_⟩
    rw [List.mem_singleton.mp ho] at hnone
    exact absurd (congrArg Option.isNone hnone) (by decide +kernel)
  have hkeys := hone hcommitted (fun hnone => absurd (congrArg Option.isNone hnone) (by decide +kernel))
    (accepts_of_mem (List.mem_singleton_self _))
  exact absurd hkeys (by decide +kernel)

end Kmatrix.Sas.Ephemeral
