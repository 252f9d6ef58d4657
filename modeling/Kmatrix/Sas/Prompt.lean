import Kmatrix.Sas.Consent
import Kmatrix.Sas.Emoji
import Mathlib.Data.List.Perm.Basic
import Mathlib.Logic.Function.Basic

/-! # The prompt

From the daemon to the user and back. The sync thread works out the emoji and publishes them when it has
sent its own key; the event waits in the plugin's socket, the prompt stands on the screen until it is
answered, replaced or taken away, and the answer waits for a thread of the daemon, which finds the
verification as it is by then. Connections come and go meanwhile, and what was on its way is lost.

Every call of the sync thread has a number, which the prompt and the answer carry along here; in the
program they carry the transaction only.

* `answered_once`: no prompt is answered twice.
* `signed_as_seen`: what is signed was confirmed on the screen, under the words of the secret that signs
  unless the other side exchanged keys again in the meantime. -/

namespace Kmatrix.Sas.Prompt

open Kmatrix.E2ee.Json Kmatrix.Lib.Trace Kmatrix.Sas.Machine Kmatrix.Sas.Steps Kmatrix.Sas.Consent
  Kmatrix.Sas.Emoji

/-! ### The events -/

def emojiEvent (transaction device : String) (indices : Fin 7 → UInt8) : Value :=
  .obj [("device", .str device), ("emoji", .arr (emojiOf indices)), ("event", .str "verification"),
    ("phase", .str "emoji"), ("transaction", .str transaction)]

def doneEvent (device : String) : Value :=
  .obj [("device", .str device), ("event", .str "verification"), ("phase", .str "done")]

def cancelledEvent (reason : String) : Value :=
  .obj [("event", .str "verification"), ("phase", .str "cancelled"), ("reason", .str reason)]

/-- **What `apply_verify_step` publishes.** -/
def published (step : VerifyStep) : List Value :=
  (step.emoji.toList.map fun e => emojiEvent e.1 e.2.1 e.2.2) ++ step.done.toList.map doneEvent ++
    step.cancelled.toList.map cancelledEvent

/-! ### The plugin -/

/-- `verify_dialog`: the title, and the transaction its buttons answer. -/
structure Dialog where
  n : ℕ
  transaction : String
  title : String

/-- **`showVerificationEmoji`.** -/
def showVerificationEmoji (n : ℕ) (event : Value) (dialog : Option Dialog) : Option Dialog :=
  let emoji := ((event.get "emoji").bind Value.asArray).getD []
  match event.getStr "transaction" with
  | none => dialog
  | some transaction =>
    if emoji.isEmpty then dialog
    else some ⟨n, transaction, verificationText ((event.getStr "device").getD "?") emoji⟩

/-- `onVerificationEvent`; a secret that arrives is only announced. -/
def onVerificationEvent (n : ℕ) (event : Value) (dialog : Option Dialog) : Option Dialog :=
  if event.getStr "phase" = some "emoji" then showVerificationEmoji n event dialog
  else if event.getStr "phase" = some "done" then none
  else if event.getStr "phase" = some "cancelled" then none
  else dialog

/-! ### Both of them -/

/-- `verify_confirm` on its way, on the connection it was written to. -/
structure Answer where
  conn : ℕ
  n : ℕ
  transaction : String
  confirm : Bool

structure System (S : SasSuite) where
  machine : Verifier S
  /-- The step the sync thread is at. -/
  applying : Option (ℕ × VerifyStep) := none
  /-- The step the thread of a connection is at. -/
  answering : ℕ → Option (ℕ × VerifyStep) := fun _ => none
  ipc : Option ℕ := none
  connected : Bool := false
  subscribed : Bool := false
  /-- What the plugin has not read yet. -/
  inbox : List (ℕ × Value) := []
  prompt : Option Dialog := none
  requests : List Answer := []
  nextConn : ℕ := 0
  count : ℕ := 0

inductive Event (S : SasSuite) where
  /-- The sync thread is given a to-device event. -/
  | handle (now : ℕ) (fresh : S.Secret) (self : Self) (sender kind : String) (content : Value)
  | remember (devices : List DeviceInfo)
  /-- The sync thread publishes; the plugin's socket may not take it. -/
  | apply (taken : Bool)
  /-- The thread of a connection takes its oldest request, which is the `i`-th of all. -/
  | receive (i : ℕ) (self : Self)
  /-- It publishes. -/
  | answered (conn : ℕ) (taken : Bool)
  /-- A request never reaches the machine. -/
  | drop (i : ℕ)
  /-- Logged in again, or started again. -/
  | reload (ed25519Key : String)
  | connect
  /-- `hello` is accepted. -/
  | subscribe
  /-- The connection is lost: `fail`. -/
  | lose
  | teardownConnection
  /-- The plugin reads an event. -/
  | deliver
  /-- A button of the prompt. -/
  | press (confirm : Bool)

section System
variable {S : SasSuite}

/-- The client is dropped if its socket does not take an event. -/
def System.publish (s : System S) (n : ℕ) (step : VerifyStep) (taken : Bool) : System S :=
  if s.subscribed then
    if taken then { s with inbox := s.inbox ++ (published step).map (n, ·) }
    else { s with subscribed := false }
  else s

/-- A call to the machine. -/
def System.call (s : System S) (c : Call S) : System S × Step S :=
  ({ s with machine := (Machine.step s.machine c).1 }, ⟨s.machine, c, (Machine.step s.machine c).2⟩)

def System.teardown (s : System S) : System S :=
  { s with ipc := none, connected := false, subscribed := false, inbox := [], prompt := none }

/-- **One step**, with the call that was made to the machine. -/
def step (s : System S) : Event S → System S × Option (Step S)
  | .handle now fresh self sender kind content =>
    match s.applying with
    | some _ => (s, none)
    | none =>
      let (s', o) := s.call (.handle now fresh self sender kind content)
      ({ s' with applying := some (s.count, o.output), count := s.count + 1 }, some o)
  | .remember devices =>
    let (s', o) := s.call (.remember devices)
    (s', some o)
  | .apply taken =>
    match s.applying with
    | some (n, st) => ({ s.publish n st taken with applying := none }, none)
    | none => (s, none)
  | .receive i self =>
    match s.requests[i]? with
    | some a =>
      -- a thread answers one request after the other
      if (s.requests.take i).all (fun a' => a'.conn ≠ a.conn) && (s.answering a.conn).isNone then
        let (s', o) := s.call (.confirm self a.transaction a.confirm)
        ({ s' with requests := s.requests.eraseIdx i
                   answering := Function.update s.answering a.conn (some (a.n, o.output)) }, some o)
      else (s, none)
    | none => (s, none)
  | .answered conn taken =>
    match s.answering conn with
    | some (n, st) =>
      ({ s.publish n st taken with answering := Function.update s.answering conn none }, none)
    | none => (s, none)
  | .drop i => ({ s with requests := s.requests.eraseIdx i }, none)
  | .reload ed25519Key => ({ s with machine := Verifier.fresh ed25519Key }, none)
  | .connect =>
    if s.connected then (s, none)
    else ({ s.teardown with ipc := some s.nextConn, connected := true, nextConn := s.nextConn + 1 }, none)
  | .subscribe => (if s.connected then { s with subscribed := true } else s, none)
  | .lose => ({ s with connected := false, subscribed := false, inbox := [] }, none)
  | .teardownConnection => (s.teardown, none)
  | .deliver =>
    match s.inbox with
    | (n, event) :: inbox => ({ s with inbox, prompt := onVerificationEvent n event s.prompt }, none)
    | [] => (s, none)
  | .press confirm =>
    match s.prompt, s.ipc with
    | some dialog, some conn =>
      let s := { s with prompt := none }
      if s.connected then
        ({ s with requests := s.requests ++ [⟨conn, dialog.n, dialog.transaction, confirm⟩] }, none)
      else (s, none)
    | _, _ => ({ s with prompt := none }, none)

/-- Before anything has happened. -/
def start (ed25519Key : String) : System S := { machine := Verifier.fresh ed25519Key }

end System

/-! ### Events and prompts -/

/-- An event that shows a prompt. -/
def isPrompt (event : Value) : Bool := event.getStr "phase" = some "emoji"

theorem isPrompt_emoji (transaction device : String) (indices : Fin 7 → UInt8) :
    isPrompt (emojiEvent transaction device indices) = true := by
  simp [isPrompt, emojiEvent, Value.getStr, Value.get, Value.asStr]

theorem not_isPrompt_done (device : String) : isPrompt (doneEvent device) = false := by
  simp [isPrompt, doneEvent, Value.getStr, Value.get, Value.asStr]

theorem not_isPrompt_cancelled (reason : String) : isPrompt (cancelledEvent reason) = false := by
  simp [isPrompt, cancelledEvent, Value.getStr, Value.get, Value.asStr]

/-- The prompts a step publishes. -/
theorem prompt_of_published {step : VerifyStep} {event : Value} (h : event ∈ published step)
    (hprompt : isPrompt event = true) :
    ∃ T device indices, step.emoji = some (T, device, indices) ∧ event = emojiEvent T device indices := by
  unfold published at h
  rcases List.mem_append.mp h with h | h
  · rcases List.mem_append.mp h with h | h
    · obtain ⟨⟨T, device, indices⟩, he, rfl⟩ := List.mem_map.mp h
      exact ⟨T, device, indices, Option.mem_toList.mp he, rfl⟩
    · obtain ⟨device, -, rfl⟩ := List.mem_map.mp h
      rw [not_isPrompt_done] at hprompt
      cases hprompt
  · obtain ⟨reason, -, rfl⟩ := List.mem_map.mp h
    rw [not_isPrompt_cancelled] at hprompt
    cases hprompt

theorem count_published (step : VerifyStep) :
    (published step).countP isPrompt = if step.emoji.isSome then 1 else 0 := by
  obtain ⟨send, emoji, done, cancelled⟩ := step
  rcases emoji with _ | ⟨T, device, indices⟩ <;> rcases done with _ | device' <;> rcases cancelled with _ | reason <;>
    simp [published, isPrompt_emoji, not_isPrompt_done, not_isPrompt_cancelled]

theorem shows_emoji (n : ℕ) (T device : String) (indices : Fin 7 → UInt8) (dialog : Option Dialog) :
    onVerificationEvent n (emojiEvent T device indices) dialog =
      some ⟨n, T, verificationText device (emojiOf indices)⟩ := by
  have hemoji : (emojiOf indices).isEmpty = false := by simp [emojiOf]
  simp [onVerificationEvent, showVerificationEmoji, emojiEvent, Value.getStr, Value.get, Value.asStr,
    Value.asArray, hemoji]

/-- **What stands on the screen after an event**: what was there, or the prompt of the event. -/
theorem on_screen {n : ℕ} {event : Value} {dialog : Option Dialog} {shown : Dialog}
    (h : onVerificationEvent n event dialog = some shown) :
    dialog = some shown ∨ isPrompt event = true ∧ shown.n = n := by
  unfold onVerificationEvent at h
  split_ifs at h with hemoji
  · unfold showVerificationEmoji at h
    rcases ht : event.getStr "transaction" with _ | T
    · rw [ht] at h
      exact Or.inl h
    · rw [ht] at h
      dsimp only at h
      split_ifs at h
      · exact Or.inl h
      · refine Or.inr ⟨decide_eq_true hemoji, ?_⟩
        rw [← Option.some.inj h]
  · exact Or.inl h

/-! ### What a step can do -/

section Changes
variable {S : SasSuite} {s : System S}

/-- **What a step can do.** -/
inductive Change (s : System S) : Event S → System S → Option (Step S) → Prop where
  | handled (now : ℕ) (fresh : S.Secret) (self : Self) (sender kind : String) (content : Value)
      (hidle : s.applying = none) :
      Change s (.handle now fresh self sender kind content)
        { s with
          machine := (Machine.step s.machine (.handle now fresh self sender kind content)).1
          applying := some (s.count, (Machine.step s.machine (.handle now fresh self sender kind content)).2)
          count := s.count + 1 }
        (some (s.call (.handle now fresh self sender kind content)).2)
  | remembered (devices : List DeviceInfo) :
      Change s (.remember devices) (s.call (.remember devices)).1 (some (s.call (.remember devices)).2)
  | applied (taken : Bool) (n : ℕ) (st : VerifyStep) (h : s.applying = some (n, st)) :
      Change s (.apply taken) { s.publish n st taken with applying := none } none
  | received (i : ℕ) (self : Self) (a : Answer) (h : s.requests[i]? = some a) :
      Change s (.receive i self)
        { s with
          machine := (Machine.step s.machine (.confirm self a.transaction a.confirm)).1
          requests := s.requests.eraseIdx i
          answering := Function.update s.answering a.conn
            (some (a.n, (Machine.step s.machine (.confirm self a.transaction a.confirm)).2)) }
        (some (s.call (.confirm self a.transaction a.confirm)).2)
  | answered (conn : ℕ) (taken : Bool) (n : ℕ) (st : VerifyStep) (h : s.answering conn = some (n, st)) :
      Change s (.answered conn taken)
        { s.publish n st taken with answering := Function.update s.answering conn none } none
  | reloaded (key : String) : Change s (.reload key) { s with machine := Verifier.fresh key } none
  | delivered (n : ℕ) (event : Value) (inbox : List (ℕ × Value)) (h : s.inbox = (n, event) :: inbox) :
      Change s .deliver { s with inbox, prompt := onVerificationEvent n event s.prompt } none
  | pressed (confirm : Bool) (dialog : Dialog) (conn : ℕ) (h : s.prompt = some dialog) :
      Change s (.press confirm)
        { s with
          prompt := none
          requests := s.requests ++ [⟨conn, dialog.n, dialog.transaction, confirm⟩] } none
  /-- At most something is lost. -/
  | less (e : Event S) (s' : System S) (hmachine : s'.machine = s.machine)
      (happlying : s'.applying = s.applying) (hanswering : s'.answering = s.answering)
      (hinbox : List.Sublist s'.inbox s.inbox) (hprompt : s'.prompt = s.prompt ∨ s'.prompt = none)
      (hrequests : List.Sublist s'.requests s.requests) (hcount : s'.count = s.count) : Change s e s' none

theorem Change.quiet (e : Event S) : Change s e s none :=
  .less e s rfl rfl rfl (List.Sublist.refl _) (Or.inl rfl) (List.Sublist.refl _) rfl

theorem change_teardown (e : Event S) : Change s e s.teardown none :=
  .less e _ rfl rfl rfl (List.nil_sublist _) (Or.inr rfl) (List.Sublist.refl _) rfl

theorem change_step (s : System S) (e : Event S) : Change s e (step s e).1 (step s e).2 := by
  rcases e with ⟨now, fresh, self, sender, kind, content⟩ | devices | taken | ⟨i, self⟩ | ⟨conn, taken⟩ | i | key | _ |
    _ | _ | _ | _ | confirm
  · rcases h : s.applying with _ | x
    · simp only [step, h]
      exact .handled now fresh self sender kind content h
    · simp only [step, h]
      exact .quiet _
  · exact .remembered devices
  · rcases h : s.applying with _ | ⟨n, st⟩
    · simp only [step, h]
      exact .quiet _
    · simp only [step, h]
      exact .applied taken n st h
  · rcases h : s.requests[i]? with _ | a
    · simp only [step, h]
      exact .quiet _
    · simp only [step, h]
      split_ifs
      · exact .received i self a h
      · exact .quiet _
  · rcases h : s.answering conn with _ | ⟨n, st⟩
    · simp only [step, h]
      exact .quiet _
    · simp only [step, h]
      exact .answered conn taken n st h
  · exact .less _ _ rfl rfl rfl (List.Sublist.refl _) (Or.inl rfl) (List.eraseIdx_sublist _ _) rfl
  · exact .reloaded key
  · simp only [step]
    split_ifs
    · exact .quiet _
    · exact .less _ _ rfl rfl rfl (List.nil_sublist _) (Or.inr rfl) (List.Sublist.refl _) rfl
  · simp only [step]
    split_ifs
    · exact .less _ _ rfl rfl rfl (List.Sublist.refl _) (Or.inl rfl) (List.Sublist.refl _) rfl
    · exact .quiet _
  · exact .less _ _ rfl rfl rfl (List.nil_sublist _) (Or.inl rfl) (List.Sublist.refl _) rfl
  · exact change_teardown _
  · rcases h : s.inbox with _ | ⟨⟨n, event⟩, inbox⟩
    · simp only [step, h]
      exact .quiet _
    · simp only [step, h]
      exact .delivered n event inbox h
  · have hclosed : Change s (.press confirm) { s with prompt := none } none :=
      .less _ _ rfl rfl rfl (List.Sublist.refl _) (Or.inr rfl) (List.Sublist.refl _) rfl
    simp only [step]
    split
    · rename_i dialog conn hprompt _
      split_ifs
      · exact .pressed confirm dialog conn hprompt
      · exact hclosed
    · exact hclosed

end Changes

/-! ### No prompt is answered twice -/

section Once
variable {S : SasSuite} {s s' : System S}

/-- A step of a run. -/
abbrev Happened (S : SasSuite) := Occ (System S) (Event S) (Option (Step S))

/-- The answer a client thread handed to the machine. -/
def handed (o : Happened S) : Option Answer :=
  match o.input, o.output with
  | .receive i _, some _ => o.before.requests[i]?
  | _, _ => none

/-- **How often a prompt can still be answered.** -/
def System.tickets (s : System S) (n : ℕ) : ℕ :=
  (s.applying.toList.countP fun x => x.1 = n && x.2.emoji.isSome) +
    (s.inbox.countP fun x => x.1 = n && isPrompt x.2) + (s.prompt.toList.countP fun d => d.n = n) +
    s.requests.countP fun a => a.n = n

/-- Whether step `n` has a prompt to publish, when `k` is asked about. -/
def due (n k : ℕ) (st : VerifyStep) : ℕ := if n = k && st.emoji.isSome then 1 else 0

theorem count_inbox (n k : ℕ) (st : VerifyStep) :
    ((published st).map (n, ·)).countP (fun x => x.1 = k && isPrompt x.2) = due n k st := by
  unfold due
  rw [List.countP_map]
  by_cases hn : n = k
  · have hsame : (fun x : ℕ × Value => decide (x.1 = k) && isPrompt x.2) ∘ (n, ·) = isPrompt := by
      funext event
      simp [hn]
    rw [hsame, count_published]
    simp [hn]
  · have hnone : (fun x : ℕ × Value => decide (x.1 = k) && isPrompt x.2) ∘ (n, ·) = fun _ => false := by
      funext event
      simp [hn]
    rw [hnone]
    simp [hn]

/-- What publishing a step adds. -/
theorem tickets_publish (n k : ℕ) (st : VerifyStep) (taken : Bool) :
    (s.publish n st taken).tickets k ≤ s.tickets k + due n k st := by
  unfold System.publish
  split_ifs
  · simp only [System.tickets, List.countP_append, count_inbox]
    omega
  · simp only [System.tickets]
    omega
  · omega

/-- The step of the sync thread is over. -/
theorem tickets_applied {n k : ℕ} {st : VerifyStep} (h : s.applying = some (n, st)) :
    ({ s with applying := none } : System S).tickets k + due n k st = s.tickets k := by
  unfold System.tickets due
  rw [h]
  simp only [Option.toList_some, Option.toList_none, List.countP_singleton, List.countP_nil]
  omega

theorem count_erase {i : ℕ} {a : Answer} (h : s.requests[i]? = some a) (k : ℕ) :
    ((s.requests.eraseIdx i).countP fun a => a.n = k) + (if a.n = k then 1 else 0) =
      s.requests.countP fun a => a.n = k := by
  obtain ⟨hi, rfl⟩ := List.getElem?_eq_some_iff.mp h
  rw [← (List.getElem_cons_eraseIdx_perm hi).countP_eq _, List.countP_cons]
  simp

theorem count_screen (n k : ℕ) (event : Value) (dialog : Option Dialog) :
    ((onVerificationEvent n event dialog).toList.countP fun d => d.n = k) ≤
      (dialog.toList.countP fun d => d.n = k) + if n = k && isPrompt event then 1 else 0 := by
  rcases hshown : onVerificationEvent n event dialog with _ | shown
  · simp
  · rcases on_screen hshown with rfl | ⟨hprompt, rfl⟩
    · exact Nat.le_add_right _ _
    · simp [hprompt, List.countP_singleton]

/-- The client threads publish no prompt. -/
def Bare (s : System S) : Prop := ∀ c n st, s.answering c = some (n, st) → st.emoji = none

theorem confirm_emoji (m : Verifier S) (self : Self) (T : String) (confirm : Bool) :
    (Machine.step m (.confirm self T confirm)).2.emoji = none := by
  show (confirmVerification T self m.ed25519Key confirm (m.verifications T)).2.emoji = none
  unfold confirmVerification
  rcases m.verifications T with _ | e
  · rfl
  · dsimp only
    split_ifs
    · rfl
    · rcases e.established with _ | established
      · rfl
      · dsimp only
        rw [settle_emoji]

theorem publish_answering (n : ℕ) (st : VerifyStep) (taken : Bool) :
    (s.publish n st taken).answering = s.answering := by
  unfold System.publish
  split_ifs <;> rfl

theorem publish_count (n : ℕ) (st : VerifyStep) (taken : Bool) : (s.publish n st taken).count = s.count := by
  unfold System.publish
  split_ifs <;> rfl

theorem count_mono {e : Event S} {o : Option (Step S)} (hc : Change s e s' o) : s.count ≤ s'.count := by
  rcases hc with _ | _ | ⟨taken, n, st, _⟩ | _ | ⟨conn, taken, n, st, _⟩ | _ | _ | _ | ⟨_, _, _, _, _, _, _, _, hcount⟩
  · exact Nat.le_succ _
  · exact le_rfl
  · exact le_of_eq (publish_count n st taken).symm
  · exact le_rfl
  · exact le_of_eq (publish_count n st taken).symm
  · exact le_rfl
  · exact le_rfl
  · exact le_rfl
  · exact le_of_eq hcount.symm

theorem bare_step {e : Event S} {o : Option (Step S)} (h : Bare s) (hc : Change s e s' o) : Bare s' := by
  intro c n st hst
  rcases hc with _ | _ | ⟨taken, m, st', _⟩ | ⟨i, self, a, _⟩ | ⟨conn, taken, m, st', _⟩ | _ | _ | _ |
    ⟨_, _, _, _, hanswering, _, _, _, _⟩
  · exact h c n st hst
  · exact h c n st hst
  · have hst : (s.publish m st' taken).answering c = some (n, st) := hst
    rw [publish_answering] at hst
    exact h c n st hst
  · have hst : Function.update s.answering a.conn
        (some (a.n, (Machine.step s.machine (.confirm self a.transaction a.confirm)).2)) c = some (n, st) := hst
    by_cases hconn : c = a.conn
    · rw [hconn, Function.update_self] at hst
      cases hst
      exact confirm_emoji _ _ _ _
    · rw [Function.update_of_ne hconn] at hst
      exact h c n st hst
  · have hst : Function.update s.answering conn none c = some (n, st) := hst
    by_cases hconn : c = conn
    · rw [hconn, Function.update_self] at hst
      cases hst
    · rw [Function.update_of_ne hconn] at hst
      exact h c n st hst
  · exact h c n st hst
  · exact h c n st hst
  · exact h c n st hst
  · rw [hanswering] at hst
    exact h c n st hst

theorem tickets_step {e : Event S} {o : Option (Step S)} (h : Bare s) (hc : Change s e s' o) (k : ℕ) :
    (if (handed ⟨s, e, o⟩).map Answer.n = some k then 1 else 0) + s'.tickets k ≤
      s.tickets k + (if s.count = k ∧ k < s'.count then 1 else 0) := by
  rcases hc with ⟨now, fresh, self, sender, kind, content, hidle⟩ | devices | ⟨taken, n, st, happly⟩ |
    ⟨i, self, a, ha⟩ | ⟨conn, taken, n, st, hst⟩ | key | ⟨n, event, inbox, hin⟩ | ⟨confirm, dialog, conn, hd⟩ |
    ⟨_, _, _, happlying, _, hinbox, hprompt, hrequests, hcount⟩
  · -- the prompt that may be published is a new one
    simp only [handed, System.tickets, hidle, Option.toList_some, Option.toList_none, List.countP_singleton,
      List.countP_nil]
    by_cases hk : s.count = k
    · simp [hk]
      split_ifs <;> omega
    · simp [hk]
  · simp [handed, System.call, System.tickets]
  · have hpub := tickets_publish (s := { s with applying := none }) n k st taken
    have hsame : ({ s.publish n st taken with applying := none } : System S) =
        ({ s with applying := none } : System S).publish n st taken := by
      unfold System.publish
      split_ifs <;> rfl
    have hdone := tickets_applied happly (k := k)
    rw [hsame]
    simp only [handed, Option.map_none, reduceCtorEq, if_false]
    omega
  · -- the answer is taken
    have hcount := count_erase ha k
    simp only [handed, ha, Option.map_some, Option.some.injEq, System.tickets]
    omega
  · have hpub := tickets_publish (s := s) n k st taken
    have hdue : due n k st = 0 := by simp [due, h conn n st hst]
    rw [if_neg (by simp [handed])]
    change 0 + (s.publish n st taken).tickets k ≤ _
    omega
  · simp [handed, System.tickets]
  · have hscreen := count_screen n k event s.prompt
    have hbefore : s.inbox.countP (fun x => x.1 = k && isPrompt x.2) =
        inbox.countP (fun x => x.1 = k && isPrompt x.2) + if n = k && isPrompt event then 1 else 0 := by
      rw [hin, List.countP_cons]
    simp only [handed, Option.map_none, reduceCtorEq, if_false, System.tickets]
    omega
  · simp only [handed, Option.map_none, reduceCtorEq, if_false, System.tickets, hd, Option.toList_some,
      Option.toList_none, List.countP_singleton, List.countP_nil, List.countP_append]
    omega
  · have hle := hinbox.countP_le (p := fun x => x.1 = k && isPrompt x.2)
    have hle' := hrequests.countP_le (p := fun a => a.n = k)
    have hscreen : (s'.prompt.toList.countP fun d => d.n = k) ≤ s.prompt.toList.countP fun d => d.n = k := by
      rcases hprompt with hprompt | hprompt
      · rw [hprompt]
      · rw [hprompt]
        exact Nat.zero_le _
    have hnone : handed (⟨s, e, none⟩ : Happened S) = none := by
      unfold handed
      split
      · rename_i hout
        cases hout
      · rfl
    rw [hnone]
    simp only [Option.map_none, reduceCtorEq, if_false, System.tickets, happlying]
    omega

/-- **Every prompt is answered once**, or not at all. -/
def Once (past : List (Happened S)) (s : System S) : Prop :=
  Bare s ∧ ∀ k, (past.countP fun o => (handed o).map Answer.n = some k) + s.tickets k ≤ if k < s.count then 1 else 0

theorem once_step {past : List (Happened S)} (h : Once past s) (e : Event S) :
    Once (past ++ [⟨s, e, (step s e).2⟩]) (step s e).1 := by
  have hc := change_step s e
  refine ⟨bare_step h.1 hc, fun k => ?_⟩
  have hstep := tickets_step h.1 hc k
  have hbefore := h.2 k
  have hmono := count_mono hc
  rw [List.countP_append, List.countP_singleton]
  simp only [decide_eq_true_eq]
  split_ifs at hstep hbefore ⊢ <;> omega

/-- **Answered once**: in every run, whatever is lost and in whatever order things happen, of the answers
that are handed to the machine one at most is to the same prompt. -/
theorem answered_once (key : String) (events : List (Event S)) (k : ℕ) :
    ((trace step (start key : System S) events).countP fun o => (handed o).map Answer.n = some k) ≤ 1 := by
  have hstart : Once [] (start key : System S) := by
    refine ⟨fun c n st h => ?_, fun k => ?_⟩
    · cases h
    · simp [System.tickets, start]
  have hinv := invariant (I := Once) (C := fun _ _ => True) (fun _ _ e h _ => once_step h e) events [] _ hstart
    fun _ _ => trivial
  have hk := hinv.2 k
  rw [List.nil_append] at hk
  split_ifs at hk <;> omega

end Once

/-! ### What is signed was seen -/

section Seen
variable {S : SasSuite} {s s' : System S} {past : List (Happened S)} {o : Happened S}

/-- The calls made to the machine. -/
def calls (past : List (Happened S)) : List (Step S) := past.filterMap Occ.output

/-- Call number `n` showed these emoji for the transaction. -/
def Emitted (past : List (Happened S)) (n : ℕ) (T device : String) (indices : Fin 7 → UInt8) : Prop :=
  ∃ o ∈ past, o.before.count = n ∧ ∃ c, o.output = some c ∧ c.output.emoji = some (T, device, indices)

/-- **The prompt was on the screen**, as call number `n` gave it. -/
def Shown (past : List (Happened S)) (dialog : Dialog) : Prop :=
  ∃ device indices, Emitted past dialog.n dialog.transaction device indices ∧
    dialog.title = verificationText device (emojiOf indices)

/-- **The user gave this answer** to a prompt that was on the screen. -/
def Pressed (past : List (Happened S)) (a : Answer) : Prop :=
  ∃ p ∈ past, ∃ dialog, p.input = .press a.confirm ∧ p.before.prompt = some dialog ∧
    dialog.n = a.n ∧ dialog.transaction = a.transaction ∧ Shown past dialog

theorem Emitted.concat {n : ℕ} {T device : String} {indices : Fin 7 → UInt8}
    (h : Emitted past n T device indices) : Emitted (past ++ [o]) n T device indices := by
  obtain ⟨o', ho', h⟩ := h
  exact ⟨o', List.mem_append_left _ ho', h⟩

theorem Shown.concat {dialog : Dialog} (h : Shown past dialog) : Shown (past ++ [o]) dialog := by
  obtain ⟨device, indices, hemitted, htitle⟩ := h
  exact ⟨device, indices, hemitted.concat, htitle⟩

theorem Pressed.concat {a : Answer} (h : Pressed past a) : Pressed (past ++ [o]) a := by
  obtain ⟨p, hp, dialog, hinput, hprompt, hn, hT, hshown⟩ := h
  exact ⟨p, List.mem_append_left _ hp, dialog, hinput, hprompt, hn, hT, hshown.concat⟩

/-- The prompt of an event. -/
def Genuine (past : List (Happened S)) (n : ℕ) (event : Value) : Prop :=
  isPrompt event = true → ∃ T device indices, Emitted past n T device indices ∧ event = emojiEvent T device indices

theorem Genuine.concat {n : ℕ} {event : Value} (h : Genuine past n event) : Genuine (past ++ [o]) n event := by
  intro hprompt
  obtain ⟨T, device, indices, hemitted, rfl⟩ := h hprompt
  exact ⟨T, device, indices, hemitted.concat, rfl⟩

/-- **Where everything on its way comes from.** -/
structure Traced (past : List (Happened S)) (s : System S) : Prop where
  linked : ∀ T e, s.machine.verifications T = some e → Linked (calls past) T e
  applying : ∀ n st, s.applying = some (n, st) → ∀ event ∈ published st, Genuine past n event
  bare : Bare s
  inbox : ∀ x ∈ s.inbox, Genuine past x.1 x.2
  prompt : ∀ dialog, s.prompt = some dialog → Shown past dialog
  requests : ∀ a ∈ s.requests, Pressed past a

/-- What was there is still accounted for, and what is new has to be. -/
theorem Traced.carry (h : Traced past s) (hbare : Bare s')
    (hlinked : ∀ T e, s'.machine.verifications T = some e → Linked (calls (past ++ [o])) T e)
    (happlying : ∀ n st, s'.applying = some (n, st) →
      s.applying = some (n, st) ∨ ∀ event ∈ published st, Genuine (past ++ [o]) n event)
    (hinbox : ∀ x ∈ s'.inbox, x ∈ s.inbox ∨ Genuine (past ++ [o]) x.1 x.2)
    (hprompt : ∀ dialog, s'.prompt = some dialog → s.prompt = some dialog ∨ Shown (past ++ [o]) dialog)
    (hrequests : ∀ a ∈ s'.requests, a ∈ s.requests ∨ Pressed (past ++ [o]) a) : Traced (past ++ [o]) s' where
  linked := hlinked
  applying n st hst := (happlying n st hst).elim (fun hold event hevent => (h.applying n st hold event hevent).concat) id
  bare := hbare
  inbox x hx := (hinbox x hx).elim (fun hold => (h.inbox x hold).concat) id
  prompt dialog hd := (hprompt dialog hd).elim (fun hold => (h.prompt dialog hold).concat) id
  requests a ha := (hrequests a ha).elim (fun hold => (h.requests a hold).concat) id

/-- A call to the machine keeps its entries linked. -/
theorem linked_call {m : Verifier S} {before : List (Step S)}
    (h : ∀ T e, m.verifications T = some e → Linked before T e) (c : Call S) :
    ∀ T e, (Machine.step m c).1.verifications T = some e →
      Linked (before ++ [⟨m, c, (Machine.step m c).2⟩]) T e := by
  intro T e he
  by_cases ht : c.transaction = some T
  · exact linked_outcome rfl (fun e' he' => h T e' (of_found he')) (step_outcome ht) e he
  · rw [step_other ht] at he
    exact (h T e (of_found he)).concat (not_shows_other ht)

theorem calls_quiet (h : o.output = none) : calls (past ++ [o]) = calls past := by
  simp [calls, h]

theorem calls_concat {c : Step S} (h : o.output = some c) : calls (past ++ [o]) = calls past ++ [c] := by
  simp [calls, h]

theorem mem_publish {n : ℕ} {st : VerifyStep} {taken : Bool} {x : ℕ × Value}
    (h : x ∈ (s.publish n st taken).inbox) : x ∈ s.inbox ∨ x.1 = n ∧ x.2 ∈ published st := by
  unfold System.publish at h
  split_ifs at h
  · rcases List.mem_append.mp h with h | h
    · exact Or.inl h
    · obtain ⟨event, hevent, rfl⟩ := List.mem_map.mp h
      exact Or.inr ⟨rfl, hevent⟩
  · exact Or.inl h
  · exact Or.inl h

/-- A step without a prompt publishes none. -/
theorem genuine_bare {n : ℕ} {st : VerifyStep} (h : st.emoji = none) {event : Value} (hevent : event ∈ published st) :
    Genuine past n event := by
  intro hprompt
  obtain ⟨T, device, indices, hemoji, -⟩ := prompt_of_published hevent hprompt
  rw [h] at hemoji
  cases hemoji

theorem publish_rest (n : ℕ) (st : VerifyStep) (taken : Bool) :
    (s.publish n st taken).machine = s.machine ∧ (s.publish n st taken).prompt = s.prompt ∧
      (s.publish n st taken).requests = s.requests ∧ (s.publish n st taken).applying = s.applying := by
  unfold System.publish
  split_ifs <;> exact ⟨rfl, rfl, rfl, rfl⟩

theorem traced_step (h : Traced past s) {e : Event S} {out : Option (Step S)} (hc : Change s e s' out) :
    Traced (past ++ [⟨s, e, out⟩]) s' := by
  have hbare := bare_step h.bare hc
  rcases hc with ⟨now, fresh, self, sender, kind, content, hidle⟩ | devices | ⟨taken, n, st, happly⟩ |
    ⟨i, self, a, ha⟩ | ⟨conn, taken, n, st, hst⟩ | key | ⟨n, event, inbox, hin⟩ | ⟨confirm, dialog, conn, hd⟩ |
    ⟨_, _, hmachine, happlying, _, hinbox, hprompt, hrequests, _⟩
  · refine h.carry hbare ?_ ?_ (fun x hx => Or.inl hx) (fun _ hd => Or.inl hd) fun a ha => Or.inl ha
    · rw [calls_concat rfl]
      exact linked_call h.linked _
    · rintro n st hst
      cases hst
      refine Or.inr fun event hevent hprompt => ?_
      obtain ⟨T, device, indices, hemoji, rfl⟩ := prompt_of_published hevent hprompt
      exact ⟨T, device, indices, ⟨_, List.mem_append_right _ (List.mem_singleton_self _), rfl, _, rfl, hemoji⟩, rfl⟩
  · refine h.carry hbare ?_ (fun _ _ hst => Or.inl hst) (fun x hx => Or.inl hx) (fun _ hd => Or.inl hd)
      fun a ha => Or.inl ha
    rw [calls_concat rfl]
    exact linked_call h.linked _
  · obtain ⟨hmachine, hprompt, hrequests, -⟩ := publish_rest (s := s) n st taken
    refine h.carry hbare ?_ (fun _ _ hst => by cases hst) (fun x hx => ?_) (fun d hd => Or.inl (hprompt ▸ hd))
      fun a ha => Or.inl (hrequests ▸ ha)
    · rw [calls_quiet rfl]
      intro T e he
      exact h.linked T e (hmachine ▸ he)
    · refine (mem_publish hx).imp_right fun hnew => ?_
      rw [hnew.1]
      exact (h.applying n st happly _ hnew.2).concat
  · refine h.carry hbare ?_ (fun _ _ hst => Or.inl hst) (fun x hx => Or.inl hx) (fun _ hd => Or.inl hd)
      fun a ha => Or.inl (List.mem_of_mem_eraseIdx ha)
    rw [calls_concat rfl]
    exact linked_call h.linked _
  · obtain ⟨hmachine, hprompt, hrequests, happlying⟩ := publish_rest (s := s) n st taken
    refine h.carry hbare ?_ (fun _ _ hst => Or.inl (happlying ▸ hst)) (fun x hx => ?_)
      (fun d hd => Or.inl (hprompt ▸ hd)) fun a ha => Or.inl (hrequests ▸ ha)
    · rw [calls_quiet rfl]
      intro T e he
      exact h.linked T e (hmachine ▸ he)
    · exact (mem_publish hx).imp_right fun hnew => genuine_bare (h.bare conn n st hst) hnew.2
  · refine h.carry hbare ?_ (fun _ _ hst => Or.inl hst) (fun x hx => Or.inl hx) (fun _ hd => Or.inl hd)
      fun a ha => Or.inl ha
    intro T e he
    cases he
  · refine h.carry hbare ?_ (fun _ _ hst => Or.inl hst) (fun x hx => Or.inl ?_) (fun d hd => ?_) fun a ha => Or.inl ha
    · rw [calls_quiet rfl]
      exact h.linked
    · rw [hin]
      exact List.mem_cons_of_mem _ hx
    · refine (on_screen hd).imp_right fun hnew => ?_
      have hgenuine := h.inbox (n, event) (hin ▸ List.mem_cons_self)
      obtain ⟨T, device, indices, hemitted, rfl⟩ := hgenuine hnew.1
      have hshown : onVerificationEvent n (emojiEvent T device indices) s.prompt = some d := hd
      rw [shows_emoji] at hshown
      cases hshown
      exact ⟨device, indices, hemitted.concat, rfl⟩
  · refine h.carry hbare ?_ (fun _ _ hst => Or.inl hst) (fun x hx => Or.inl hx) (fun _ hd => by cases hd) fun a ha => ?_
    · rw [calls_quiet rfl]
      exact h.linked
    · refine (List.mem_append.mp ha).imp_right fun hnew => ?_
      rw [List.mem_singleton.mp hnew]
      exact ⟨_, List.mem_append_right _ (List.mem_singleton_self _), dialog, rfl, hd, rfl, rfl,
        (h.prompt dialog hd).concat⟩
  · refine h.carry hbare ?_ (fun _ _ hst => Or.inl (happlying ▸ hst)) (fun x hx => Or.inl (hinbox.subset hx))
      (fun d hd => Or.inl ?_) fun a ha => Or.inl (hrequests.subset ha)
    · rw [calls_quiet rfl, hmachine]
      exact h.linked
    · rcases hprompt with hprompt | hprompt
      · exact hprompt ▸ hd
      · rw [hprompt] at hd
        cases hd

/-! #### The order of the calls -/

/-- The calls that show emoji are numbered in their order. -/
structure Numbered (past : List (Happened S)) (s : System S) : Prop where
  new : ∀ o ∈ past, ∀ c T, o.output = some c → ShowsEmoji T c → o.before.count < s.count
  ordered : past.Pairwise fun o o' => ∀ c T, o.output = some c → ShowsEmoji T c → o.before.count < o'.before.count

theorem numbered_step (h : Numbered past s) {e : Event S} {out : Option (Step S)} (hc : Change s e s' out) :
    Numbered (past ++ [⟨s, e, out⟩]) s' := by
  refine ⟨fun o ho c T hout hshows => ?_, List.pairwise_append.mpr ⟨h.ordered, List.pairwise_singleton _ _, ?_⟩⟩
  · rcases List.mem_append.mp ho with ho | ho
    · exact lt_of_lt_of_le (h.new o ho c T hout hshows) (count_mono hc)
    · cases List.mem_singleton.mp ho
      obtain ⟨emoji, hemoji, -⟩ := hshows
      rcases hc with ⟨now, fresh, self, sender, kind, content, hidle⟩ | devices | _ | ⟨i, self, a, ha⟩ | _ | _ | _ | _ | _
      · exact Nat.lt_succ_self _
      · cases hout
        cases hemoji
      · cases hout
      · cases hout
        have hnone := confirm_emoji s.machine self a.transaction a.confirm
        rw [show (Machine.step s.machine _).2.emoji = some emoji from hemoji] at hnone
        cases hnone
      · cases hout
      · cases hout
      · cases hout
      · cases hout
      · cases hout
  · intro o ho o' ho' c T hout hshows
    rw [List.mem_singleton.mp ho']
    exact h.new o ho c T hout hshows

/-- **The latest emoji of a transaction** are those of call number `n`, or of a later one. -/
theorem newest (hnum : Numbered past s) {n : ℕ} {T device device' : String} {indices indices' : Fin 7 → UInt8}
    (h : Emitted past n T device indices) {c : Step S} (hlatest : Latest (ShowsEmoji T) (calls past) c)
    (hc : c.output.emoji = some (T, device', indices')) :
    (device = device' ∧ indices = indices') ∨ ∃ n', n < n' ∧ Emitted past n' T device' indices' := by
  obtain ⟨before, after, hcalls, hshows, hafter⟩ := hlatest
  obtain ⟨p₁, p₂, rfl, -, hp₂⟩ := List.filterMap_eq_append_iff.mp hcalls
  obtain ⟨q, o₂, r, rfl, hq, ho₂, hr⟩ := List.filterMap_eq_cons_iff.mp hp₂
  obtain ⟨o₁, ho₁, hn, c₁, hc₁, hemoji⟩ := h
  have hmem : o₂ ∈ p₁ ++ (q ++ o₂ :: r) :=
    List.mem_append_right _ (List.mem_append_right _ List.mem_cons_self)
  rcases List.mem_append.mp ho₁ with ho₁ | ho₁
  · refine Or.inr ⟨o₂.before.count, ?_, o₂, hmem, rfl, c, ho₂, hc⟩
    rw [← hn]
    exact (List.pairwise_append.mp hnum.ordered).2.2 o₁ ho₁ o₂
      (List.mem_append_right _ List.mem_cons_self) c₁ T hc₁ ⟨_, hemoji, rfl⟩
  · rcases List.mem_append.mp ho₁ with ho₁ | ho₁
    · rw [hq o₁ ho₁] at hc₁
      cases hc₁
    · rcases List.mem_cons.mp ho₁ with rfl | ho₁
      · rw [ho₂] at hc₁
        cases hc₁
        rw [hemoji] at hc
        cases hc
        exact Or.inl ⟨rfl, rfl⟩
      · -- nothing was shown any more after the latest
        have hin : c₁ ∈ after := by
          rw [← hr]
          exact List.mem_filterMap.mpr ⟨o₁, ho₁, hc₁⟩
        exact absurd ⟨_, hemoji, rfl⟩ (hafter c₁ hin)

/-- Only a confirmation is answered with a MAC. -/
theorem confirm_of_mac {m : Verifier S} {T : String} {c : Call S} {slot slot' : Option (Verification S)}
    {st : VerifyStep} (h : Outcome m T c slot slot' st) {x : ToSend} (hx : x ∈ st.send) (hkind : x.kind = macKind) :
    ∃ self, c = .confirm self T true := by
  rcases h with _ | ⟨_, _, _, hsend, -, -⟩ | _ | _ | _ | _ | _ | ⟨self, entry, established, hest, out, hstep⟩
  · cases hx
  · exact absurd (hsend x hx).1 (not_signed (Or.inl hkind)).1
  · rw [List.mem_singleton.mp hx] at hkind
    exact absurd rfl (not_signed (Or.inl hkind)).2.1
  · rw [List.mem_singleton.mp hx] at hkind
    exact absurd rfl (not_signed (Or.inl hkind)).2.2.1
  · rw [List.mem_singleton.mp hx] at hkind
    exact absurd rfl (not_signed (Or.inl hkind)).2.2.2
  · rw [settle_send] at hx
    cases hx
  · rw [settle_send] at hx
    cases hx
  · exact ⟨self, rfl⟩

/-- The call a step makes; a confirmation is an answer that came. -/
theorem made_call {e : Event S} {c : Step S} (hc : Change s e s' (some c)) :
    c.before = s.machine ∧ c.output = (Machine.step s.machine c.input).2 ∧
      ∀ self T, c.input = .confirm self T true →
        ∃ i a, e = .receive i self ∧ s.requests[i]? = some a ∧ a.transaction = T ∧ a.confirm = true := by
  rcases hc with _ | _ | _ | ⟨i, self, a, ha⟩ | _ | _ | _ | _ | _
  · exact ⟨rfl, rfl, fun self T h => by cases h⟩
  · exact ⟨rfl, rfl, fun self T h => by cases h⟩
  · refine ⟨rfl, rfl, fun self' T h => ?_⟩
    injection h with hself hT hconfirm
    exact ⟨i, a, by rw [hself], ha, hT, hconfirm⟩

/-- **Signed as seen**: in every run, when a MAC is sent, it is for an answer "They match" that was given
to a prompt of the transaction. The words of that prompt were those of the secret the MAC is taken under,
unless a later call has shown other emoji for the transaction, before the answer arrived. -/
theorem signed_as_seen (key : String) (events : List (Event S)) :
    EveryStep (fun past o => ∀ c, o.output = some c → ∀ x ∈ c.output.send, x.kind = macKind →
      ∃ a dialog self their established, handed o = some a ∧ a.confirm = true ∧
        c.input = .confirm self a.transaction true ∧ x.content.getStr "transaction_id" = some a.transaction ∧
        MacUnder a.transaction c.before.ed25519Key self their established x.content ∧
        (∃ p ∈ past, p.input = .press true ∧ p.before.prompt = some dialog) ∧
        dialog.n = a.n ∧ dialog.transaction = a.transaction ∧
        ∃ shown ∈ calls past, ∃ us theirKey ourKey,
          KeyExchange a.transaction their us theirKey ourKey established shown ∧
          (dialog.title = verificationText their.deviceId
              (emojiOf (S.emojiIndices established (sasInfo their us theirKey ourKey a.transaction))) ∨
            ∃ n, dialog.n < n ∧ Emitted past n a.transaction their.deviceId
              (S.emojiIndices established (sasInfo their us theirKey ourKey a.transaction))))
      (trace step (start key : System S) events) := by
  intro past o future hrun c hout x hx hkind
  have hstart : Traced [] (start key : System S) ∧ Numbered [] (start key : System S) := by
    refine ⟨⟨fun T e h => ?_, fun n st h => ?_, fun c n st h => ?_, fun x h => ?_, fun d h => ?_, fun a h => ?_⟩,
      ⟨fun o ho => ?_, List.Pairwise.nil⟩⟩
    all_goals first | cases h | cases ho
  obtain ⟨⟨htraced, hnum⟩, -, heq⟩ := at_step (I := fun past s => Traced past s ∧ Numbered past s)
    (C := fun _ _ => True) hstart
    (fun past s e h _ => ⟨traced_step h.1 (change_step s e), numbered_step h.2 (change_step s e)⟩)
    (fun _ _ => trivial) hrun
  have hchange := change_step o.before o.input
  rw [← heq, hout] at hchange
  obtain ⟨hbefore, hcall, hanswer⟩ := made_call hchange
  rw [hcall] at hx
  obtain ⟨T, hT⟩ : ∃ T, c.input.transaction = some T := by
    refine Option.ne_none_iff_exists'.mp fun hnone => ?_
    rw [step_quiet hnone] at hx
    cases hx
  have houtcome := step_outcome (m := o.before.machine) hT
  obtain ⟨self, hconfirm⟩ := confirm_of_mac houtcome hx hkind
  obtain ⟨i, a, hin, ha, rfl, hyes⟩ := hanswer self T hconfirm
  obtain ⟨self', their, established, hconfirm', -, ⟨shown, hlatest, us, theirKey, ourKey, hexchange⟩, hmac⟩ :=
    (promised_outcome (fun e he => htraced.linked _ e (of_found he)) houtcome).2.2 x hx hkind
  obtain ⟨p, hp, dialog, hpress, hprompt, hn, hT', device, indices, hemitted, htitle⟩ :=
    htraced.requests a (List.mem_of_getElem? ha)
  have hhanded : handed o = some a := by
    unfold handed
    rw [hin, hout]
    exact ha
  rw [hyes] at hpress
  rw [hT'] at hemitted
  dsimp only at hmac
  rw [← hbefore] at hmac
  have hshown : shown ∈ calls past := by
    obtain ⟨before, after, hcalls, -⟩ := hlatest
    rw [hcalls]
    exact List.mem_append_right _ List.mem_cons_self
  refine ⟨a, dialog, self', their, established, hhanded, hyes, hconfirm', (outcome_about houtcome).1 x hx, hmac,
    ⟨p, hp, hpress, hprompt⟩, hn, hT', shown, hshown, us, theirKey, ourKey, hexchange, ?_⟩
  rcases newest hnum hemitted hlatest hexchange.emoji with ⟨rfl, rfl⟩ | ⟨n, hlater, hagain⟩
  · exact Or.inl htitle
  · exact Or.inr ⟨n, hlater, hagain⟩

end Seen

end Kmatrix.Sas.Prompt
