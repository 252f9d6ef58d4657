import Kmatrix.Sas.Steps

/-! # The key is revealed after it was committed to

The responder's ephemeral key is what the commitment of its accept binds, so the other side must not be
able to draw it out before the accept, nor get a second start answered under the same key. While an
entry holds an ephemeral key, the latest accept of its transaction committed to that key and the start
it answered, and the key has not been revealed since (`Committed`). -/

namespace Kmatrix.Sas.Commitment

open Kmatrix.E2ee.Json Kmatrix.Lib.Trace Kmatrix.Sas.Machine Kmatrix.Sas.Steps

section Commitment
variable {S : SasSuite}

/-- The step sends an event of the kind for the transaction. -/
def Sends (kind T : String) (o : Step S) : Prop :=
  ∃ x ∈ o.output.send, x.kind = kind ∧ x.content.getStr "transaction_id" = some T

/-- The step is given an event of the kind for the transaction, with this content. -/
def Receives (kind T : String) (content : Value) (o : Step S) : Prop :=
  (∃ now fresh self sender, o.input = .handle now fresh self sender kind content) ∧
    content.getStr "transaction_id" = some T

/-- The step answers a start with the accept that commits to the key `k` and that start. -/
def CommitsTo (T k : String) (o : Step S) : Prop :=
  ∃ start, Receives startKind T start o ∧ ∃ x ∈ o.output.send, x.kind = acceptKind ∧
    x.content.getStr "transaction_id" = some T ∧
    x.content.getStr "commitment" = some (commitment k start)

/-- **The latest accept of the transaction commits to `k`**, and no key was revealed since. -/
def Bound (T k : String) (past : List (Step S)) : Prop :=
  ∃ before o after, past = before ++ o :: after ∧ CommitsTo T k o ∧
    (∀ o' ∈ after, ¬ Sends acceptKind T o') ∧ ∀ o' ∈ after, ¬ Sends keyKind T o'

/-- **Commit before reveal**, of a step: a key that is sent answers a key event, and was bound. -/
def RevealsBound (T : String) (past : List (Step S)) (o : Step S) : Prop :=
  ∀ x ∈ o.output.send, x.kind = keyKind → x.content.getStr "transaction_id" = some T →
    ∃ k, x.content.getStr "key" = some k ∧ Bound T k past ∧ ∃ content, Receives keyKind T content o

/-- **What an entry says of the past.** -/
structure Committed (past : List (Step S)) (T : String) (e : Verification S) : Prop where
  /-- the ephemeral key comes with the start -/
  unstarted : e.start = none → e.sas = none
  bound : ∀ sas k, e.sas = some sas → e.ourPublicKey = some k → Bound T k past

variable {past : List (Step S)} {T k : String} {o : Step S} {m : Verifier S} {c : Call S}

theorem Bound.concat (h : Bound T k past) (ha : ¬ Sends acceptKind T o) (hk : ¬ Sends keyKind T o) :
    Bound T k (past ++ [o]) := by
  obtain ⟨before, o', after, rfl, ho', hacc, hkey⟩ := h
  refine ⟨before, o', after ++ [o], by simp, ho', ?_, ?_⟩
  · intro x hx
    rcases List.mem_append.mp hx with hx | hx
    · exact hacc x hx
    · rw [List.mem_singleton.mp hx]
      exact ha
  · intro x hx
    rcases List.mem_append.mp hx with hx | hx
    · exact hkey x hx
    · rw [List.mem_singleton.mp hx]
      exact hk

theorem bound_concat (h : CommitsTo T k o) : Bound T k (past ++ [o]) :=
  ⟨past, o, [], rfl, h, by simp, by simp⟩

/-- A step that sends neither accept nor key keeps what an entry says. -/
theorem Committed.concat {e : Verification S} (h : Committed past T e) (ha : ¬ Sends acceptKind T o)
    (hk : ¬ Sends keyKind T o) : Committed (past ++ [o]) T e where
  unstarted := h.unstarted
  bound sas k hs hp := (h.bound sas k hs hp).concat ha hk

/-- An entry without an ephemeral key says nothing. -/
theorem committed_of_none {e : Verification S} (h : e.sas = none) : Committed past T e where
  unstarted _ := h
  bound sas k hs := by
    rw [h] at hs
    simp at hs

/-- Other transactions send nothing for this one. -/
theorem not_sends_other (kind : String) (h : c.transaction ≠ some T) :
    ¬ Sends kind T (⟨m, c, (step m c).2⟩ : Step S) := by
  rintro ⟨x, hx, -, hT⟩
  exact h (transaction_of_send hx hT)

/-- Only the listed kinds are sent. -/
theorem not_sends_of_kinds {kind : String} {out : VerifyStep} (h : ∀ x ∈ out.send, x.kind ≠ kind) :
    ¬ Sends kind T (⟨m, c, out⟩ : Step S) := by
  rintro ⟨x, hx, hk, -⟩
  exact h x hx hk

/-- **Every call keeps what its entry says.** -/
theorem committed_outcome {slot slot' : Option (Verification S)} {out : VerifyStep}
    (ht : c.transaction = some T) (hslot : ∀ e, slot = some e → Committed past T e)
    (h : Outcome m T c slot slot' out) :
    ∀ e, slot' = some e → Committed (past ++ [⟨m, c, out⟩]) T e := by
  intro e he
  rcases h with _ | _ | ⟨now, fresh, self, sender, content, device⟩ |
    ⟨now, fresh, self, sender, content, entry, _, hentry, hstart⟩ |
    ⟨now, fresh, self, sender, content, entry, sas, ourKey, theirKey, established, hsas, hour⟩ |
    ⟨now, fresh, self, sender, content, entry, established, macs, keysMac, hest⟩ |
    ⟨now, fresh, self, sender, content, entry⟩ | ⟨self, entry, established, hest, signed, hstep⟩
  · exact (hslot e he).concat (not_sends_of_kinds (by simp)) (not_sends_of_kinds (by simp))
  · simp at he
  · obtain rfl := Option.some.inj he
    exact committed_of_none rfl
  · -- the accept binds the key that is drawn now
    obtain rfl := Option.some.inj he
    refine ⟨fun h => by simp at h, fun sas k _ hk => ?_⟩
    obtain rfl := Option.some.inj hk
    exact bound_concat ⟨content, ⟨⟨now, fresh, self, sender, rfl⟩, ht⟩, _, List.mem_singleton_self _,
      rfl, rfl, rfl⟩
  · -- the key is revealed, and gone
    obtain rfl := Option.some.inj he
    exact committed_of_none rfl
  · have hc := hslot entry rfl
    rw [settle_kept he]
    refine Committed.concat (o := ⟨m, _, _⟩) ⟨hc.unstarted, hc.bound⟩ ?_ ?_
    · exact not_sends_of_kinds (by rw [settle_send]; simp)
    · exact not_sends_of_kinds (by rw [settle_send]; simp)
  · have hc := hslot entry rfl
    rw [settle_kept he]
    refine Committed.concat (o := ⟨m, _, _⟩) ⟨hc.unstarted, hc.bound⟩ ?_ ?_
    · exact not_sends_of_kinds (by rw [settle_send]; simp)
    · exact not_sends_of_kinds (by rw [settle_send]; simp)
  · have hc := hslot entry rfl
    have hkinds : ∀ x ∈ (settle { entry with weSentMac := true, weSentDone := true } signed).2.send,
        x.kind = macKind ∨ x.kind = doneKind := by
      rw [settle_send, hstep]
      simp
    rw [settle_kept he]
    refine Committed.concat (o := ⟨m, _, _⟩) ⟨hc.unstarted, hc.bound⟩ ?_ ?_
    · refine not_sends_of_kinds fun x hx => ?_
      rcases hkinds x hx with h | h <;> rw [h] <;> decide
    · refine not_sends_of_kinds fun x hx => ?_
      rcases hkinds x hx with h | h <;> rw [h] <;> decide

/-- **What a committed entry lets a call reveal.** -/
theorem revealsBound_outcome {slot slot' : Option (Verification S)} {out : VerifyStep}
    (ht : c.transaction = some T) (hslot : ∀ e, slot = some e → Committed past T e)
    (h : Outcome m T c slot slot' out) :
    ∀ x ∈ out.send, x.kind = keyKind → ∃ k, x.content.getStr "key" = some k ∧ Bound T k past ∧
      ∃ content, Receives keyKind T content (⟨m, c, out⟩ : Step S) := by
  intro x hx hk
  rcases h with _ | ⟨_, _, _, hsend, hemoji, hdone⟩ | ⟨now, fresh, self, sender, content, device⟩ |
    ⟨now, fresh, self, sender, content, entry, _, hentry, hstart⟩ |
    ⟨now, fresh, self, sender, content, entry, sas, ourKey, theirKey, established, hsas, hour⟩ |
    ⟨now, fresh, self, sender, content, entry, established, macs, keysMac, hest⟩ |
    ⟨now, fresh, self, sender, content, entry⟩ | ⟨self, entry, established, hest, _, hstep⟩
  · simp at hx
  · rw [(hsend x hx).1] at hk
    exact absurd hk (by decide)
  · rw [List.mem_singleton.mp hx] at hk
    exact absurd (show readyKind = keyKind from hk) (by decide)
  · rw [List.mem_singleton.mp hx] at hk
    exact absurd (show acceptKind = keyKind from hk) (by decide)
  · have hbound := (hslot entry rfl).bound sas ourKey hsas hour
    rw [List.mem_singleton.mp hx]
    exact ⟨ourKey, rfl, hbound, content, ⟨now, fresh, self, sender, rfl⟩, ht⟩
  · rw [settle_send] at hx
    simp at hx
  · rw [settle_send] at hx
    simp at hx
  · rw [settle_send, hstep] at hx
    rcases List.mem_cons.mp hx with rfl | hx
    · exact absurd (show macKind = keyKind from hk) (by decide)
    · rw [List.mem_singleton.mp hx] at hk
      exact absurd (show doneKind = keyKind from hk) (by decide)

/-- **Commit before reveal.** In every run of the machine, whatever events arrive. -/
theorem revealsBound_of_run (ourEd : String) (calls : List (Call S)) :
    EveryStep (fun past o => ∀ T, RevealsBound T past o)
      (trace step (Verifier.fresh ourEd : Verifier S) calls) := by
  intro past o future h T
  obtain ⟨hcommitted, -, hout⟩ := slot_invariant (I := Committed) (C := fun _ _ => True)
    (fun past m c T e hne hl => hl.concat (not_sends_other _ hne) (not_sends_other _ hne))
    (fun past m c T slot out ht _ hslot hoc => committed_outcome ht hslot hoc)
    (fun _ => rfl) (fun _ _ => trivial) h
  intro x hx hk hxT
  have ht : o.input.transaction = some T := by
    rw [hout] at hx
    exact transaction_of_send hx hxT
  obtain ⟨slot, hoc⟩ := output_outcome hout ht
  exact revealsBound_outcome ht (hcommitted T) hoc x hx hk

end Commitment

end Kmatrix.Sas.Commitment
