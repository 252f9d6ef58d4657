import Kmatrix.Sas.Soundness

/-! # Verifications that have run out of time

An entry lives for ten minutes, but only `handle_verification` looks at the time: it drops what has timed
out before it handles its event. `confirm_verification`, which the user's thread calls, takes the entry as
it finds it.

Here every call comes with the time it is made at. `Creates` says which steps of a run make an entry, and
`Dead` what a call may still do ten minutes after the latest of them: send none of the events that carry
the exchange on, finish nothing, and answer a confirmation only with that the verification is no longer in
progress. `dead_iff_inTime`: a run is so exactly if none of its confirmations finds an entry whose time is
over. -/

namespace Kmatrix.Sas.Expiry

open Kmatrix.E2ee.Json Kmatrix.Lib.Trace Kmatrix.Sas.Machine Kmatrix.Sas.Steps Kmatrix.Sas.Soundness

/-! ### Calls and their times -/

/-- The time an event is handled at. -/
def readClock {S : SasSuite} : Call S → Option ℕ
  | .handle now _ _ _ _ _ => some now
  | _ => none

/-- A call, and when it is made. -/
structure Timed (S : SasSuite) where
  now : ℕ
  call : Call S
  clock : ∀ t ∈ readClock call, t = now

section Expiry
variable {S : SasSuite}

def timedStep (m : Verifier S) (c : Timed S) : Verifier S × VerifyStep := step m c.call

/-- A step of a run with its time. -/
abbrev TimedOcc (S : SasSuite) := Occ (Verifier S) (Timed S) VerifyStep

/-! ### What is claimed of a run -/

/-- **The step makes an entry for `T`**: a request is answered, or a start without an entry is accepted. -/
def Creates (T : String) (o : TimedOcc S) : Prop :=
  ∃ x ∈ o.output.send, x.content.getStr "transaction_id" = some T ∧
    (x.kind = readyKind ∨ x.kind = acceptKind ∧ found o.before o.input.call T = none)

/-- Nothing that carries an exchange on is sent, and none is finished. -/
structure Silent (out : VerifyStep) : Prop where
  send : ∀ x ∈ out.send, x.kind ≠ keyKind ∧ x.kind ≠ macKind ∧ x.kind ≠ doneKind
  done : out.done = none

/-- The answer to a confirmation that comes too late. -/
def noLonger (T : String) : VerifyStep :=
  { cancelled := some ("verification " ++ T ++ " is no longer in progress") }

/-- **An expired verification is dead**: a call about `T`, ten minutes or more after its entry was made. -/
def Dead (past : List (TimedOcc S)) (o : TimedOcc S) : Prop :=
  ∀ T o', Latest (Creates T) past o' → o'.input.now + verificationTimeout ≤ o.input.now →
    o.input.call.transaction = some T →
    Silent o.output ∧ ∀ self confirm, o.input.call = .confirm self T confirm → o.output = noLonger T

/-- A confirmation does not find an entry whose time is over. -/
def InTime (m : Verifier S) (c : Timed S) : Prop :=
  ∀ self T confirm e, c.call = .confirm self T confirm → m.verifications T = some e →
    c.now < e.created + verificationTimeout

/-! ### An entry remembers when it was made -/

variable {m : Verifier S} {T : String} {past : List (TimedOcc S)} {c : Timed S}

theorem creates_about {o : TimedOcc S} (ho : o.output = (timedStep o.before o.input).2)
    (h : Creates T o) : o.input.call.transaction = some T := by
  obtain ⟨x, hx, hT, -⟩ := h
  rw [ho] at hx
  exact transaction_of_send hx hT

/-- What was made of an entry that was there is as old as it; a new one is as old as the call. -/
theorem created_outcome {c : Call S} {slot slot' : Option (Verification S)} {out : VerifyStep}
    (h : Outcome m T c slot slot' out) {e : Verification S} (he : slot' = some e) :
    (∃ e₀, slot = some e₀ ∧ e.created = e₀.created ∧ ∀ x ∈ out.send, x.kind ≠ readyKind) ∨
      readClock c = some e.created ∧ ∃ x ∈ out.send, x.content.getStr "transaction_id" = some T ∧
        (x.kind = readyKind ∨ x.kind = acceptKind ∧ slot = none) := by
  rcases h with _ | _ | ⟨now, fresh, self, sender, content, device⟩ |
    ⟨now, fresh, self, sender, content, entry, _, hentry, hstart⟩ |
    ⟨now, fresh, self, sender, content, entry, sas, ourKey, theirKey, established, hsas, hour⟩ |
    ⟨now, fresh, self, sender, content, entry⟩ | ⟨now, fresh, self, sender, content, entry⟩ |
    ⟨self, entry, established, hest, out, hstep⟩
  · exact .inl ⟨e, he, rfl, by simp⟩
  · cases he
  · obtain rfl := Option.some.inj he
    exact .inr ⟨rfl, _, List.mem_singleton_self _, rfl, .inl rfl⟩
  · obtain rfl := Option.some.inj he
    rcases slot with _ | e₀
    · -- a bare start is adopted
      obtain ⟨device, -, rfl⟩ := Option.map_eq_some_iff.mp hentry
      exact .inr ⟨rfl, _, List.mem_singleton_self _, rfl, .inr ⟨rfl, rfl⟩⟩
    · obtain rfl : e₀ = entry := Option.some.inj hentry
      refine .inl ⟨e₀, rfl, rfl, fun x hx => ?_⟩
      rw [List.mem_singleton.mp hx]
      show acceptKind ≠ readyKind
      decide
  · obtain rfl := Option.some.inj he
    refine .inl ⟨entry, rfl, rfl, fun x hx => ?_⟩
    rw [List.mem_singleton.mp hx]
    show keyKind ≠ readyKind
    decide
  · rw [settle_kept he, settle_send]
    exact .inl ⟨entry, rfl, rfl, by simp⟩
  · rw [settle_kept he, settle_send]
    exact .inl ⟨entry, rfl, rfl, by simp⟩
  · rw [settle_kept he, settle_send, hstep]
    refine .inl ⟨entry, rfl, rfl, fun x hx => ?_⟩
    rcases List.mem_cons.mp hx with rfl | hx
    · show macKind ≠ readyKind
      decide
    · rw [List.mem_singleton.mp hx]
      show doneKind ≠ readyKind
      decide

/-- The latest step that made an entry for `T` is the one that made the entry that is there. -/
def Recorded (past : List (TimedOcc S)) (m : Verifier S) : Prop :=
  ∀ T e, m.verifications T = some e → ∃ o, Latest (Creates T) past o ∧ o.input.now = e.created

/-- **Every call keeps the record.** -/
theorem recorded_step (h : Recorded past m) :
    Recorded (past ++ [⟨m, c, (timedStep m c).2⟩]) (timedStep m c).1 := by
  intro T e he
  by_cases ht : c.call.transaction = some T
  · rcases created_outcome (step_outcome ht) he with ⟨e₀, he₀, hcreated, hnot⟩ | ⟨hclock, hmade⟩
    · obtain ⟨o, hlatest, ho⟩ := h T e₀ (of_found he₀)
      refine ⟨o, hlatest.concat ?_, by rw [ho, hcreated]⟩
      rintro ⟨x, hx, -, hkind | ⟨-, hnone⟩⟩
      · exact hnot x hx hkind
      · exact absurd (he₀.symm.trans hnone) (by simp)
    · exact ⟨_, latest_concat hmade, (c.clock _ hclock).symm⟩
  · have hstep : found m c.call T = some e := by
      rw [← step_other ht]
      exact he
    obtain ⟨o, hlatest, ho⟩ := h T e (of_found hstep)
    exact ⟨o, hlatest.concat fun hcreates => ht (creates_about rfl hcreates), ho⟩

/-! ### What a call does when the time is over -/

/-- Without an entry nothing is carried on. -/
theorem silent_of_none {c : Call S} {slot' : Option (Verification S)} {out : VerifyStep}
    (h : Outcome m T c none slot' out) : Silent out := by
  generalize hslot : (none : Option (Verification S)) = slot at h
  rcases h with _ | ⟨_, _, _, hsend, _, hdone⟩ | _ | _ | _ | _ | _ | _
  · exact ⟨by simp, rfl⟩
  · refine ⟨fun x hx => ?_, hdone⟩
    rw [(hsend x hx).1]
    decide
  · refine ⟨fun x hx => ?_, rfl⟩
    rw [List.mem_singleton.mp hx]
    show readyKind ≠ keyKind ∧ readyKind ≠ macKind ∧ readyKind ≠ doneKind
    decide
  · refine ⟨fun x hx => ?_, rfl⟩
    rw [List.mem_singleton.mp hx]
    show acceptKind ≠ keyKind ∧ acceptKind ≠ macKind ∧ acceptKind ≠ doneKind
    decide
  all_goals cases hslot

/-- An event does not find what has timed out. -/
theorem found_handle {now : ℕ} {fresh : S.Secret} {self : Self} {sender kind : String} {content : Value}
    (h : ∀ e, m.verifications T = some e → e.created + verificationTimeout ≤ now) :
    found m (.handle now fresh self sender kind content) T = none := by
  refine Option.filter_eq_none_iff.mpr fun e he halive => ?_
  have hover := h e he
  simp only [alive, decide_eq_true_eq] at halive
  have hpos : 0 < verificationTimeout := by decide
  omega

/-- A confirmation that finds an entry sends something. -/
theorem confirm_ne_noLonger {e : Verification S} (self : Self) (ourEd : String) (confirm : Bool) :
    (confirmVerification T self ourEd confirm (some e)).2 ≠ noLonger T := by
  intro h
  have hsend : (confirmVerification T self ourEd confirm (some e)).2.send = [] := by rw [h]; rfl
  unfold confirmVerification at hsend
  rcases confirm with _ | _
  · cases hsend
  · rcases hest : e.established with _ | established
    · simp [hest, cancelStep] at hsend
    · simp [hest, settle_send] at hsend

/-- **A step is dead where it is in time.** -/
theorem dead_of_inTime (hrecorded : Recorded past m) (h : InTime m c) :
    Dead past ⟨m, c, (timedStep m c).2⟩ := by
  intro T o' hlatest hover ht
  have hexpired : ∀ e, m.verifications T = some e → e.created + verificationTimeout ≤ c.now := by
    intro e he
    obtain ⟨o, ho, hcreated⟩ := hrecorded T e he
    rw [← hcreated, ho.unique hlatest]
    exact hover
  have hsilent : found m c.call T = none → Silent (timedStep m c).2 := by
    intro hnone
    have hoc := step_outcome (m := m) ht
    rw [hnone] at hoc
    exact silent_of_none hoc
  rcases hcall : c.call with ⟨now, fresh, self, sender, kind, content⟩ | ⟨self, T', confirm⟩ | devices
  · have hnow : now = c.now := c.clock now (by rw [hcall]; rfl)
    refine ⟨hsilent ?_, fun _ _ hconfirm => ?_⟩
    · rw [hcall]
      exact found_handle (by rw [hnow]; exact hexpired)
    · cases hconfirm
  · rw [hcall] at ht
    obtain rfl : T' = T := Option.some.inj ht
    have hnone : m.verifications T' = none := by
      by_contra hne
      obtain ⟨e, he⟩ := Option.ne_none_iff_exists'.mp hne
      exact absurd (h self T' confirm e hcall he) (not_lt.mpr (hexpired e he))
    refine ⟨hsilent (by rw [hcall]; exact hnone), fun _ _ _ => ?_⟩
    show (step m c.call).2 = _
    rw [hcall, (step_confirm self confirm).2, hnone]
    rfl
  · rw [hcall] at ht
    cases ht

/-- **A confirmation out of time** is answered as if it were in time. -/
theorem inTime_of_dead (hrecorded : Recorded past m) (h : Dead past ⟨m, c, (timedStep m c).2⟩) :
    InTime m c := by
  intro self T confirm e hcall he
  by_contra hlate
  obtain ⟨o, hlatest, hcreated⟩ := hrecorded T e he
  have hdead := (h T o hlatest (by rw [hcreated]; exact not_lt.mp hlate) (by rw [hcall]; rfl)).2 self
    confirm hcall
  have hout : (step m c.call).2 = noLonger T := hdead
  rw [hcall, (step_confirm self confirm).2, he] at hout
  exact confirm_ne_noLonger self m.ed25519Key confirm hout

/-- **The record of a run.** -/
theorem recorded_of_run {ourEd : String} {calls : List (Timed S)} {past future : List (TimedOcc S)}
    {o : TimedOcc S}
    (h : trace timedStep (Verifier.fresh ourEd : Verifier S) calls = past ++ o :: future) :
    Recorded past o.before ∧ o = ⟨o.before, o.input, (timedStep o.before o.input).2⟩ := by
  obtain ⟨hrecorded, -, hout⟩ := at_step (I := Recorded) (C := fun _ _ => True)
    (fun T e he => by cases he) (fun past m c h _ => recorded_step h) (fun _ _ => trivial) h
  exact ⟨hrecorded, by rw [← hout]⟩

/-- **Expired verifications are dead** in a run exactly if its confirmations are in time. -/
theorem dead_iff_inTime (ourEd : String) (calls : List (Timed S)) :
    EveryStep Dead (trace timedStep (Verifier.fresh ourEd : Verifier S) calls) ↔
      ∀ o ∈ trace timedStep (Verifier.fresh ourEd : Verifier S) calls, InTime o.before o.input := by
  constructor
  · intro h o ho
    obtain ⟨past, future, hsplit⟩ := List.append_of_mem ho
    obtain ⟨hrecorded, heq⟩ := recorded_of_run hsplit
    have hdead := h past o future hsplit
    rw [heq] at hdead
    exact inTime_of_dead hrecorded hdead
  · intro h past o future hsplit
    obtain ⟨hrecorded, heq⟩ := recorded_of_run hsplit
    rw [heq]
    refine dead_of_inTime hrecorded (h o ?_)
    rw [hsplit]
    exact List.mem_append_right _ List.mem_cons_self

end Expiry

/-! ### A late confirmation -/

/-- An event of their device, at the start of the run. -/
def event (kind : String) (content : Value) : Timed plainSuite :=
  ⟨0, .handle 0 "s" ours "@me:h" kind content, fun _ h => (Option.some.inj h).symm⟩

/-- The emoji are shown at once and confirmed at `now`. -/
def confirmedAt (now : ℕ) : List (Timed plainSuite) :=
  [event startKind startContent, event keyKind (.obj [("key", .str "k"), ("transaction_id", .str "T")]),
    ⟨now, .confirm ours "T" true, fun _ h => by cases h⟩]

/-- **After ten minutes** a confirmation is still answered with a MAC and a done. -/
theorem not_dead_confirmedAt :
    (confirmedAt verificationTimeout).Pairwise (fun a b => a.now ≤ b.now) ∧
    ((trace timedStep (Verifier.fresh "our ed") (confirmedAt verificationTimeout)).map
      fun o => o.output.send.map ToSend.kind) = [[acceptKind], [keyKind], [macKind, doneKind]] ∧
    ¬ EveryStep Dead (trace timedStep (Verifier.fresh "our ed") (confirmedAt verificationTimeout)) := by
  refine ⟨by decide, by decide +kernel, fun h => ?_⟩
  have hsplit := trace_append timedStep (Verifier.fresh "our ed" : Verifier plainSuite)
    ((confirmedAt verificationTimeout).take 2) ((confirmedAt verificationTimeout).drop 2)
  have hcreated : ((final timedStep (Verifier.fresh "our ed" : Verifier plainSuite)
      ((confirmedAt verificationTimeout).take 2)).verifications "T").map Verification.created = some 0 := by
    decide +kernel
  obtain ⟨e, he, hzero⟩ := Option.map_eq_some_iff.mp hcreated
  have hintime := inTime_of_dead (recorded_of_run hsplit).1 (h _ _ _ hsplit) ours "T" true e rfl he
  rw [hzero, Nat.zero_add] at hintime
  exact lt_irrefl _ hintime

end Kmatrix.Sas.Expiry
