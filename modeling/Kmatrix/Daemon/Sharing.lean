import Kmatrix.Daemon.Send
import Kmatrix.E2ee.Megolm
import Kmatrix.E2ee.Steady

/-! # No message before its key

Every encrypted event should be posted under a session whose key was shared before, by a `/sendToDevice`
that succeeded: `Fair`. A `Share` is what one call of the run does: it finds the devices, encrypts the key for
them in the memory this leaves, and the server acknowledges what was made, which is for every device that
could be encrypted for. The decision to share is made from `has_outbound` alone, and the session is there, in
memory and on disk, before its key is sent. So a call that is cut between the two leaves a session behind that
nobody else can read, and every later call posts under it (`not_fair_unshared`). `fair_of_completes` is the
other half: a run in which no call is cut there keeps `Fair`.

Most of the code neither touches an outbound session nor shares a key; `Quietly` says so, and its rules
follow the code. -/

namespace Kmatrix.Daemon.Sharing

open Kmatrix.Lib.Crash Kmatrix.E2ee.Ratchets Kmatrix.E2ee.Json Kmatrix.E2ee.Effects
open Kmatrix.E2ee.Sessions Kmatrix.E2ee.Devices Kmatrix.E2ee.Megolm Kmatrix.Daemon.Send
open Kmatrix.Storage Kmatrix.Storage.Seal Kmatrix.Storage.Schema
open Kmatrix.Storage.Write (StoreOp)
open Kmatrix.Sas.Machine (Self DeviceInfo)

/-- One effect of a call, with its outcome. -/
abbrev Entry := Effect Request × Outcome Net

/-- The first pickle of a new outbound session of the room is written. -/
def creates (room : String) : Entry → Bool
  | (.write (.putPickle kind id extra _), o) =>
    kind = kindMegolmOut && id = room && extra = "0" && o.fault.isNone
  | _ => false

/-- A share succeeds. -/
def shares : Entry → Bool
  | (.ask (.sendToDevice _ _ _), o) => o.net.fault.isNone
  | _ => false

/-- **No call is cut** after it created a session and before the key was shared. -/
def completes (room : String) : List Entry → Bool
  | [] => true
  | y :: after => (!creates room y || after.any shares) && completes room after

section Statement
variable {S : CipherSuite} (V : Vodozemac) (directory : Value) (room : String) (us : Self)

/-- The messages hold the session's key for the device, encrypted for it. -/
def Keyed (c : Crypto) (session : GroupSession) (messages : Messages) (device : DeviceInfo) : Prop :=
  ∃ m : OlmMessage,
    m.plaintext = V.writeJson
      (roomKeyEnvelope (roomKeyContent V room session) us c.account.ed25519Key device) ∧
    messages.at device = some
      (olmToDeviceContent c.account.curve25519Key device.curveKey m.messageType (V.olmBody m))

/-- What a share does before it encrypts the key. -/
def findDevices : Code S Reply Crypto Value := do
  let members ← joinedMembers room
  let kq ← keysQuery members
  reachDevices V kq
  return kq

/-- No write of an Olm session with the key failed. -/
def Spared {Q N : Type} (curveKey : String) (tr : List (Effect Q × Outcome N)) : Prop :=
  ∀ y ∈ tr, ∀ id pickle, y.1 = .write (.putPickle kindOlm id curveKey pickle) → y.2.fault = none

/-- **A share** in a call, made in the memory `c`, whose effects are `tr`. The devices are found; the key is
encrypted for them in the memory `found` that this leaves; and the server acknowledges what was made. -/
structure Share (c : Crypto) (w : World S (List Deed)) (tr : List Entry) where
  looked : Outcome Net
  finding : List (Outcome Net)
  found : Crypto
  before : World S (List Deed)
  finds : run (exec (serve directory)) ((findDevices V room).run c) w finding =
    (some (.ok directory, found), before)
  encrypting : List (Outcome Net)
  messages : Messages
  left : Crypto
  after : World S (List Deed)
  encrypts : run (exec (serve directory)) ((encryptRoomKeyToDevices V room (parseDeviceKeys directory) us :
    Code S Reply Crypto Messages).run found) before encrypting = (some (.ok messages, left), after)
  session : GroupSession
  opened : left.outbound room = some session
  txn : String
  answered : Outcome Net
  acknowledged : answered.net.fault = none
  happened : (.look, looked) :: trail (exec (serve directory)) ((findDevices V room).run c) w finding ++
    trail (exec (serve directory)) ((encryptRoomKeyToDevices V room (parseDeviceKeys directory) us :
      Code S Reply Crypto Messages).run found) before encrypting ++
    [(.ask (.sendToDevice "m.room.encrypted" txn messages), answered)] <+: tr

variable {V directory room us} in
/-- **The device could be encrypted for**: it is listed and not ours, a session with it was held, and the
write of that did not fail. -/
structure Share.Encryptable {c : Crypto} {w : World S (List Deed)} {tr : List Entry}
    (share : Share V directory room us c w tr) (d : DeviceInfo) : Prop where
  listed : d ∈ parseDeviceKeys directory
  other : d.curveKey ≠ share.found.account.curve25519Key
  held : share.found.olmSessions d.curveKey ≠ []
  written : Spared d.curveKey (trail (exec (serve directory))
    ((encryptRoomKeyToDevices V room (parseDeviceKeys directory) us : Code S Reply Crypto Messages).run
      share.found) share.before share.encrypting)

variable {V directory room us} in
/-- **It delivered session `id`**, before anything else that is not among the deeds: the key is there for every
device that could be encrypted for. The directory is a map, so that no device is listed twice. -/
structure Share.Delivers {c : Crypto} {w : World S (List Deed)} {tr : List Entry}
    (share : Share V directory room us c w tr) (deeds : List Deed) (id : String) : Prop where
  session : share.session.id = id
  acknowledged : share.after.server ++ [.shared share.messages] <+: deeds
  keyed : ((parseDeviceKeys directory).map fun d => (d.userId, d.deviceId)).Nodup →
    ∀ d, share.Encryptable d → Keyed V room us share.found share.session share.messages d

/-- The daemon, called to send messages to the room. -/
def code (m : Outgoing) (c : Crypto) :
    Prog (Effect Request) (Answer S Reply) (Except String String × Crypto) := (doSend V room us m).run c

/-- The daemon before its first start, over a database and a server that did nothing for us yet. -/
def cold (st : Store S) : Process (World S (List Deed)) Crypto Outgoing (Except String String) :=
  ⟨⟨st, 0, []⟩, none, []⟩

/-- A run of calls, kills and restarts. -/
abbrev sendRun (st : Store S) (events : List (Event Outgoing (Outcome Net))) :
    Process (World S (List Deed)) Crypto Outgoing (Except String String) :=
  Process.runs (exec (serve directory)) (boot V) (code V room us) (cold st) events

/-- The effects of a run's next call. -/
abbrev effects (st : Store S) (past : List (Event Outgoing (Outcome Net))) (m : Outgoing)
    (os : List (Outcome Net)) : List Entry :=
  Process.trailOf (exec (serve directory)) (boot V) (code V room us) (sendRun V directory room us st past)
    (.call m os)

/-- **What a run delivered**: a call of it, in the memory that it found, made the share. -/
def Delivered (st : Store S) (events : List (Event Outgoing (Outcome Net))) (deeds : List Deed)
    (id : String) : Prop :=
  ∃ past m os future c, events = past ++ .call m os :: future ∧
    (sendRun V directory room us st past).memory = some c ∧
    ∃ share : Share V directory room us c (sendRun V directory room us st past).world
      (effects V directory room us st past m os), share.Delivers deeds id

/-- **Every encrypted event was posted under a session whose key had been delivered.** -/
def Fair (st : Store S) (events : List (Event Outgoing (Outcome Net))) : Prop :=
  ∀ before room' kind content after, (sendRun V directory room us st events).world.server =
      before ++ .posted room' kind (.encrypted content) :: after →
    Delivered V directory room us st events before content.sessionId

end Statement

/-! ### Cut calls -/

section Cut
variable {room : String}

/-- A session was created, and no share has succeeded since. -/
def Bare (room : String) (tr : List Entry) : Prop :=
  ∃ before y after, tr = before ++ y :: after ∧ creates room y = true ∧ ∀ z ∈ after, shares z = false

theorem Bare.not_completes {tr : List Entry} (h : Bare room tr) : completes room tr = false := by
  obtain ⟨before, y, after, rfl, hy, hafter⟩ := h
  induction before with
  | nil =>
    have hany : after.any shares = false := by
      rw [List.any_eq_false]
      intro z hz
      simp [hafter z hz]
    simp [completes, hy, hany]
  | cons x before ih => simp [completes, ih]

theorem Bare.append {tr more : List Entry} (h : Bare room tr) (hmore : ∀ z ∈ more, shares z = false) :
    Bare room (tr ++ more) := by
  obtain ⟨before, y, after, rfl, hy, hafter⟩ := h
  refine ⟨before, y, after ++ more, by simp, hy, fun z hz => ?_⟩
  rcases List.mem_append.mp hz with hz | hz
  · exact hafter z hz
  · exact hmore z hz

end Cut

/-! ### Code that leaves outbound sessions alone -/

section Quiet
variable {S : CipherSuite} {directory : Value}

/-- The server and the outbound sessions on disk are as they were, and nothing was shared. -/
structure Still (x x' : World S (List Deed) × List Entry) : Prop where
  server : x'.1.server = x.1.server
  copies : diskCopies x'.1.disk = diskCopies x.1.disk
  trail : ∃ more, x'.2 = x.2 ++ more ∧ ∀ y ∈ more, shares y = false

theorem Still.refl (x : World S (List Deed) × List Entry) : Still x x :=
  ⟨rfl, rfl, [], (List.append_nil _).symm, by simp⟩

theorem Still.trans {x x' x'' : World S (List Deed) × List Entry} (h : Still x x')
    (h' : Still x' x'') : Still x x'' := by
  obtain ⟨more, heq, hmore⟩ := h.trail
  obtain ⟨more', heq', hmore'⟩ := h'.trail
  refine ⟨h'.server.trans h.server, h'.copies.trans h.copies, more ++ more', ?_, fun y hy => ?_⟩
  · rw [heq', heq, List.append_assoc]
  · rcases List.mem_append.mp hy with hy | hy
    · exact hmore y hy
    · exact hmore' y hy

/-- **Quiet code.** -/
def Quietly (directory : Value) {α : Type} (m : Code S Reply Crypto α) : Prop :=
  ∀ (c : Crypto) (x : World S (List Deed) × List Entry),
    Safe (recording (exec (serve directory))) (Still x)
      (fun r x' => Still x x' ∧ r.2.outbound = c.outbound) (m.run c) x

variable {α β : Type} {m : Code S Reply Crypto α} {f : α → Code S Reply Crypto β}

theorem quietly_pure (a : α) : Quietly directory (pure a : Code S Reply Crypto α) :=
  fun _ x => ⟨Still.refl x, rfl⟩

theorem quietly_fail (e : String) : Quietly directory (Act.fail e : Code S Reply Crypto α) :=
  fun _ x => ⟨Still.refl x, rfl⟩

theorem quietly_get : Quietly directory (Act.get : Code S Reply Crypto Crypto) :=
  fun _ x => ⟨Still.refl x, rfl⟩

theorem quietly_modify {g : Crypto → Crypto} (hg : ∀ c, (g c).outbound = c.outbound) :
    Quietly directory (Act.modify g : Code S Reply Crypto Unit) :=
  fun c x => ⟨Still.refl x, hg c⟩

theorem quietly_bind (hm : Quietly directory m) (hf : ∀ a, Quietly directory (f a)) :
    Quietly directory (m >>= f) := by
  intro c x
  refine Act.safe_bind.mpr ((hm c x).mono ?_)
  rintro ⟨e | a, c'⟩ x' ⟨hstill, hout⟩
  · exact ⟨hstill, hout⟩
  · exact (hf a c' x').weaken (fun _ h => hstill.trans h) fun r _ h => ⟨hstill.trans h.1, h.2.trans hout⟩

theorem quietly_attempt (hm : Quietly directory m) : Quietly directory (Act.attempt m) := by
  intro c x
  exact Act.safe_attempt.mpr (hm c x)

theorem quietly_fold {g : α → β → Code S Reply Crypto α} (hg : ∀ a b, Quietly directory (g a b))
    (xs : List β) (a : α) : Quietly directory (Act.fold g a xs) := by
  induction xs generalizing a with
  | nil => exact quietly_pure a
  | cons b xs ih => exact quietly_bind (hg a b) ih

theorem quietly_putPickle {kind : String} (hkind : kind ≠ kindMegolmOut) (id extra : String)
    (pickle : Pickle) :
    Quietly directory (putPickle kind id extra pickle : Code S Reply Crypto Unit) := by
  rintro c ⟨w, tr⟩
  refine safe_put_recorded (Still.refl _) (fun o e _ => ⟨⟨rfl, rfl, [_], rfl, ?_⟩, rfl⟩)
    fun o _ => ⟨⟨rfl, diskCopies_putPickle hkind o.salts w.disk _ _ _, [_], rfl, ?_⟩, rfl⟩
  · simp [shares]
  · simp [shares]

theorem quietly_draw (count : ℕ) : Quietly directory (draw count : Code S Reply Crypto ℕ) := by
  rintro c ⟨w, tr⟩
  refine safe_draw_recorded (Still.refl _) fun o => ⟨⟨rfl, rfl, [_], rfl, ?_⟩, rfl⟩
  simp [shares]

theorem quietly_joinedMembers (room : String) :
    Quietly directory (joinedMembers room : Code S Reply Crypto (List String)) := by
  rintro c ⟨w, tr⟩
  refine ⟨Still.refl _, fun o => ?_⟩
  unfold recording exec serve
  dsimp only
  rcases o.net.fault with _ | e
  · exact ⟨⟨rfl, rfl, [_], rfl, by simp [shares]⟩, rfl⟩
  · exact ⟨⟨rfl, rfl, [_], rfl, by simp [shares]⟩, rfl⟩

theorem quietly_keysClaim (body : Value) :
    Quietly directory (keysClaim body : Code S Reply Crypto Value) := by
  rintro c ⟨w, tr⟩
  refine ⟨Still.refl _, fun o => ?_⟩
  unfold recording exec serve
  dsimp only
  rcases o.net.fault with _ | e
  · exact ⟨⟨rfl, rfl, [_], rfl, by simp [shares]⟩, rfl⟩
  · exact ⟨⟨rfl, rfl, [_], rfl, by simp [shares]⟩, rfl⟩

variable (V : Vodozemac)

theorem quietly_olmEncrypt (curveKey plaintext : String) :
    Quietly directory (olmEncrypt V curveKey plaintext : Code S Reply Crypto (ℕ × String)) := by
  refine quietly_bind quietly_get fun c => ?_
  rcases (c.olmSessions curveKey).getLast? with _ | session
  · exact quietly_fail _
  · refine quietly_bind (quietly_modify fun c => rfl) fun _ => ?_
    exact quietly_bind (quietly_putPickle (by decide) _ _ _) fun _ => quietly_pure _

theorem quietly_shareWith (us : Self) (keyContent : Value) (messages : Messages)
    (device : DeviceInfo) :
    Quietly directory (shareWith V us keyContent messages device : Code S Reply Crypto Messages) := by
  refine quietly_bind quietly_get fun c => ?_
  dsimp only
  split_ifs
  · exact quietly_pure _
  · refine quietly_bind (quietly_attempt (quietly_olmEncrypt V _ _)) fun r => ?_
    rcases r with e | ⟨messageType, body⟩
    · exact quietly_pure _
    · exact quietly_bind (quietly_modify fun c => rfl) fun _ => quietly_pure _

theorem quietly_startOlmSession (device : DeviceInfo) (otk : String) :
    Quietly directory (startOlmSession V device otk : Code S Reply Crypto Unit) := by
  have hrest : Quietly directory (do
      let session : OlmSession := ⟨V.olmSessionId (← draw 1), [], 0, some otk⟩
      let c ← Act.get
      putPickle kindOlm session.id device.curveKey (c.pickle (.olm session))
      Act.modify fun c => { c with
        olmSessions := Function.update c.olmSessions device.curveKey
          (c.olmSessions device.curveKey ++ [session])
        knownDevices := Function.update c.knownDevices device.curveKey
          (some (device.userId, device.deviceId)) } : Code S Reply Crypto Unit) := by
    refine quietly_bind (quietly_draw 1) fun n => quietly_bind quietly_get fun c => ?_
    exact quietly_bind (quietly_putPickle (by decide) _ _ _) fun _ => quietly_modify fun c => rfl
  unfold startOlmSession
  dsimp only
  split_ifs
  · exact quietly_bind (quietly_fail _) fun _ => quietly_bind (quietly_fail _) fun _ => hrest
  · exact quietly_bind (quietly_fail _) fun _ => hrest
  · exact quietly_bind (quietly_fail _) fun _ => hrest
  · exact hrest

theorem quietly_createSession (claimResponse : Value) (device : DeviceInfo) :
    Quietly directory (createSession V claimResponse device : Code S Reply Crypto Unit) := by
  refine quietly_bind quietly_get fun c => ?_
  split_ifs
  · rcases claimedKey claimResponse device with _ | key
    · exact quietly_pure _
    · exact quietly_bind (quietly_attempt (quietly_startOlmSession V device key)) fun _ => quietly_pure _
  · exact quietly_pure _

theorem quietly_createOutboundOlm (claimResponse : Value) (devices : List DeviceInfo) :
    Quietly directory (createOutboundOlm V claimResponse devices : Code S Reply Crypto Unit) :=
  quietly_fold (fun _ device => quietly_createSession V claimResponse device) devices ()

theorem quietly_reachDevices (kq : Value) :
    Quietly directory (reachDevices V kq : Code S Reply Crypto Unit) := by
  refine quietly_bind quietly_get fun c => quietly_bind (quietly_modify fun c => rfl) fun _ => ?_
  split_ifs
  · exact quietly_bind (quietly_keysClaim _) fun claim => quietly_createOutboundOlm V claim _
  · exact quietly_pure _

/-- The directory answers, or the request fails. -/
theorem safe_keysQuery (users : List String) (c : Crypto) (x : World S (List Deed) × List Entry) :
    Safe (recording (exec (serve directory))) (Still x)
      (fun r x' => Still x x' ∧ r.2.outbound = c.outbound ∧ ∀ kq, r.1 = .ok kq → kq = directory)
      ((keysQuery users : Code S Reply Crypto Value).run c) x := by
  refine ⟨Still.refl _, fun o => ?_⟩
  unfold recording exec serve
  dsimp only
  rcases o.net.fault with _ | e
  · refine ⟨⟨rfl, rfl, [_], rfl, by simp [shares]⟩, rfl, fun kq hkq => ?_⟩
    exact (Except.ok.inj hkq).symm
  · exact ⟨⟨rfl, rfl, [_], rfl, by simp [shares]⟩, rfl, fun kq hkq => by simp at hkq⟩

end Quiet

/-! ### Whom a share covers -/

section Covers
variable {S : CipherSuite} {Q Ω N : Type} {R : Q → Type} {serve : N → Ω → (q : Q) → R q × Ω}
  {V : Vodozemac} {room : String} {us : Self} {c : Crypto} {w : World S Ω}
  {tr : List (Effect Q × Outcome N)}

theorem Spared.of_prefix {curveKey : String} {tr' : List (Effect Q × Outcome N)} (h : Spared curveKey tr')
    (hbegins : tr <+: tr') : Spared curveKey tr := fun y hy => h y (hbegins.subset hy)

/-- With a session for the device the plaintext is encrypted, unless its write fails. -/
theorem covers_olmEncrypt (curveKey plaintext : String) :
    Safe (recording (exec serve)) (fun _ => True)
      (fun r x => r.2.account = c.account ∧ r.2.outbound = c.outbound ∧
        (∀ k, r.2.olmSessions k = [] ↔ c.olmSessions k = []) ∧ tr <+: x.2 ∧
        (c.olmSessions curveKey ≠ [] → Spared curveKey x.2 → ∃ m : OlmMessage, m.plaintext = plaintext ∧
          r.1 = .ok (m.messageType, V.olmBody m)))
      ((olmEncrypt V curveKey plaintext : Code S R Crypto (ℕ × String)).run c) (w, tr) := by
  unfold olmEncrypt
  simp only [Act.safe_bind, Act.safe_get, Act.then_ok]
  rcases hlast : (c.olmSessions curveKey).getLast? with _ | session
  · rw [Act.safe_fail]
    refine ⟨rfl, rfl, fun k => Iff.rfl, List.prefix_refl _, fun hne => absurd ?_ hne⟩
    exact List.getLast?_eq_none_iff.mp hlast
  · have hsessions : ∀ k, Function.update c.olmSessions curveKey ((c.olmSessions curveKey).dropLast ++
        [(session.encrypt plaintext).1]) k = [] ↔ c.olmSessions k = [] := by
      intro k
      rw [Function.update_apply]
      split_ifs with hk
      · have hne : c.olmSessions curveKey ≠ [] := by
          rw [← List.getLast?_isSome, hlast]
          rfl
        rw [hk]
        simp [hne]
      · exact Iff.rfl
    simp only [Act.safe_bind, Act.safe_modify, Act.then_ok]
    refine safe_put_recorded trivial (fun o e ho => ?_) fun o ho => ?_
    · refine ⟨rfl, rfl, hsessions, List.prefix_append _ _, fun _ hspared => ?_⟩
      have hnone := hspared _ (List.mem_append_right _ (List.mem_singleton_self _)) _ _ rfl
      rw [ho] at hnone
      cases hnone
    · rw [Act.then_ok, Act.safe_pure]
      exact ⟨rfl, rfl, hsessions, List.prefix_append _ _, fun _ _ => ⟨_, rfl, rfl⟩⟩

/-- The devices `done` so far have the key, where their session is among the `spared`. -/
structure Covered (V : Vodozemac) (room : String) (us : Self) (c : Crypto) (session : GroupSession)
    (done : List DeviceInfo) (spared : String → Prop) (messages : Messages) (c' : Crypto) : Prop where
  account : c'.account = c.account
  outbound : c'.outbound = c.outbound
  sessions : ∀ k, c'.olmSessions k = [] ↔ c.olmSessions k = []
  keyed : ∀ d ∈ done, d.curveKey ≠ c.account.curve25519Key → c.olmSessions d.curveKey ≠ [] →
    spared d.curveKey → Keyed V room us c session messages d

theorem covers_shareWith {session : GroupSession} {done : List DeviceInfo} {messages : Messages}
    {c' : Crypto} (h : Covered V room us c session done (Spared · tr) messages c') {device : DeviceInfo}
    (hnew : ∀ d ∈ done, (d.userId, d.deviceId) ≠ (device.userId, device.deviceId)) :
    Safe (recording (exec serve)) (fun _ => True)
      (fun r x => ∃ messages', r.1 = .ok messages' ∧ tr <+: x.2 ∧
        Covered V room us c session (done ++ [device]) (Spared · x.2) messages' r.2)
      ((shareWith V us (roomKeyContent V room session) messages device :
        Code S R Crypto Messages).run c') (w, tr) := by
  unfold shareWith
  simp only [Act.safe_bind, Act.safe_get, Act.then_ok]
  split_ifs with hours
  · refine ⟨messages, rfl, List.prefix_refl _, h.account, h.outbound, h.sessions, fun d hd hne hs hspared => ?_⟩
    rcases List.mem_append.mp hd with hd | hd
    · exact h.keyed d hd hne hs hspared
    · rw [List.mem_singleton.mp hd, ← h.account] at hne
      exact absurd hours hne
  · simp only [Act.safe_bind, Act.safe_attempt]
    refine (covers_olmEncrypt (V := V) device.curveKey _).mono ?_
    rintro ⟨r, c''⟩ ⟨w', tr'⟩ ⟨haccount, hout, hsessions, hbegins, hr⟩
    dsimp only at haccount hout hsessions hbegins hr
    have hkept : ∀ k, c''.olmSessions k = [] ↔ c.olmSessions k = [] := fun k =>
      (hsessions k).trans (h.sessions k)
    rcases r with e | ⟨messageType, body⟩
    · refine ⟨messages, rfl, hbegins, haccount.trans h.account, hout.trans h.outbound, hkept, ?_⟩
      intro d hd hne hs hspared
      rcases List.mem_append.mp hd with hd | hd
      · exact h.keyed d hd hne hs (hspared.of_prefix hbegins)
      · obtain rfl := List.mem_singleton.mp hd
        obtain ⟨m, -, hm⟩ := hr (fun hnil => hs ((h.sessions _).mp hnil)) hspared
        simp at hm
    · refine ⟨_, rfl, hbegins, haccount.trans h.account, hout.trans h.outbound, hkept, ?_⟩
      intro d hd hne hs hspared
      rcases List.mem_append.mp hd with hd | hd
      · obtain ⟨m, hplain, hat⟩ := h.keyed d hd hne hs (hspared.of_prefix hbegins)
        refine ⟨m, hplain, ?_⟩
        rw [Messages.at_insert, if_neg (hnew d hd)]
        exact hat
      · obtain rfl := List.mem_singleton.mp hd
        obtain ⟨m, hplain, hm⟩ := hr (fun hnil => hs ((h.sessions _).mp hnil)) hspared
        obtain ⟨rfl, rfl⟩ := Prod.mk.inj (Except.ok.inj hm)
        refine ⟨m, ?_, ?_⟩
        · rw [hplain, h.account]
        · rw [Messages.at_insert, if_pos rfl, h.account]

/-- Making the session leaves the account and the Olm sessions as they are. -/
theorem keeps_getOrCreateOutbound :
    Safe (exec serve) (fun _ => True)
      (fun r _ => r.2.account = c.account ∧ r.2.olmSessions = c.olmSessions ∧
        ∀ made, r.1 = .ok made → r.2.outbound room = some made)
      ((getOrCreateOutbound V room : Code S R Crypto GroupSession).run c) w := by
  have hlast := fun (c' : Crypto) (w' : World S Ω)
      (h' : c'.account = c.account ∧ c'.olmSessions = c.olmSessions) =>
    (@safe_outbound S Q _ _ R (exec serve) (fun _ => True)
      (fun x _ => x.account = c.account ∧ x.olmSessions = c.olmSessions) c' w' h' room).mono
        fun _ _ h => and_assoc.mp h
  have herr : ∀ e : String, c.account = c.account ∧ c.olmSessions = c.olmSessions ∧
      ∀ made, (.error e : Except String GroupSession) = .ok made → c.outbound room = some made :=
    fun e => ⟨rfl, rfl, fun made hm => by simp at hm⟩
  unfold getOrCreateOutbound
  simp only [Act.safe_bind, Act.safe_get, Act.then_ok]
  split_ifs
  · simp only [Act.safe_bind]
    refine safe_draw trivial ?_
    simp only [Act.then_ok, Act.safe_bind]
    refine safe_put trivial herr fun rng => ?_
    simp only [Act.then_ok, Act.safe_bind]
    refine safe_put trivial herr fun rng' => ?_
    simp only [Act.then_ok]
    exact hlast _ _ ⟨rfl, rfl⟩
  · exact hlast c w ⟨rfl, rfl⟩

/-- Where no write fails the room has a session afterwards: the one it had, or a new one. -/
theorem opens_getOrCreateOutbound :
    Safe (E2ee.Steady.steady serve) (fun _ => True)
      (fun r _ => ∃ made, r.1 = .ok made ∧ r.2.outbound room = some made ∧ r.2.account = c.account ∧
        r.2.olmSessions = c.olmSessions ∧ (∀ s, c.outbound room = some s → made = s) ∧
        (c.outbound room = none → made.index = 0))
      ((getOrCreateOutbound V room : Code S R Crypto GroupSession).run c) w := by
  unfold getOrCreateOutbound
  simp only [Act.safe_bind, Act.safe_get, Act.then_ok]
  rcases hroom : c.outbound room with _ | s
  · rw [if_pos (by rfl : (none : Option GroupSession).isNone = true)]
    simp only [Act.safe_bind]
    refine E2ee.Steady.safe_draw_steady trivial ?_
    simp only [Act.then_ok, Act.safe_bind]
    refine E2ee.Steady.safe_put_steady trivial fun rng => ?_
    simp only [Act.then_ok, Act.safe_bind]
    refine E2ee.Steady.safe_put_steady trivial fun rng' => ?_
    simp only [Act.then_ok, Act.safe_modify, Act.safe_bind, Act.safe_get]
    rw [Function.update_self]
    exact ⟨_, rfl, Function.update_self _ _ _, rfl, rfl, (fun s hs => by cases hs), fun _ => rfl⟩
  · rw [if_neg (by simp)]
    simp only [Act.then_ok, Act.safe_bind, Act.safe_get]
    rw [hroom]
    exact ⟨s, rfl, hroom, rfl, rfl, (fun s' hs' => Option.some.inj hs'), fun hnone => by cases hnone⟩

/-- **One device after the other**: no user and device id comes twice. -/
theorem covers_shares_recorded {session : GroupSession} {devices : List DeviceInfo}
    (hdevices : (devices.map fun d => (d.userId, d.deviceId)).Nodup) :
    Safe (recording (exec serve)) (fun _ => True)
      (fun r x => ∃ messages, r.1 = .ok messages ∧ tr <+: x.2 ∧
        Covered V room us c session devices (Spared · x.2) messages r.2)
      ((Act.fold (shareWith V us (roomKeyContent V room session)) [] devices :
        Code S R Crypto Messages).run c) (w, tr) := by
  suffices hloop : ∀ (rest done : List DeviceInfo), devices = done ++ rest →
      ∀ (messages : Messages) (c' : Crypto) (w' : World S Ω) (tr' : List (Effect Q × Outcome N)),
      tr <+: tr' → Covered V room us c session done (Spared · tr') messages c' →
      Safe (recording (exec serve)) (fun _ => True)
        (fun r x => ∃ messages', r.1 = .ok messages' ∧ tr <+: x.2 ∧
          Covered V room us c session devices (Spared · x.2) messages' r.2)
        ((Act.fold (shareWith V us (roomKeyContent V room session)) messages rest :
          Code S R Crypto Messages).run c') (w', tr') from
    hloop devices [] rfl [] c w tr (List.prefix_refl _) ⟨rfl, rfl, fun k => Iff.rfl, by simp⟩
  intro rest
  induction rest with
  | nil =>
    intro done hdone messages c' w' tr' hbegins h
    rw [List.append_nil] at hdone
    rw [hdone]
    exact ⟨messages, rfl, hbegins, h⟩
  | cons device rest ih =>
    intro done hdone messages c' w' tr' hbegins h
    have hnew : ∀ d ∈ done, (d.userId, d.deviceId) ≠ (device.userId, device.deviceId) := by
      intro d hd heq
      rw [hdone, List.map_append, List.map_cons] at hdevices
      refine (List.nodup_append.mp hdevices).2.2 _ (List.mem_map_of_mem hd) _ ?_ heq
      exact List.mem_cons_self
    refine Act.safe_bind.mpr ((covers_shareWith h hnew).mono ?_)
    rintro ⟨r, c₂⟩ ⟨w₂, tr₂⟩ ⟨messages₂, rfl, hbegins₂, h₂⟩
    rw [Act.then_ok]
    exact ih (done ++ [device]) (by rw [hdone, List.append_assoc, List.singleton_append])
      messages₂ c₂ w₂ tr₂ (hbegins.trans hbegins₂) h₂

/-- The same where no store access fails. -/
theorem covers_shares {session : GroupSession} {devices : List DeviceInfo}
    (hdevices : (devices.map fun d => (d.userId, d.deviceId)).Nodup) :
    Safe (E2ee.Steady.steady serve) (fun _ => True)
      (fun r _ => ∃ messages, r.1 = .ok messages ∧
        Covered V room us c session devices (fun _ => True) messages r.2)
      ((Act.fold (shareWith V us (roomKeyContent V room session)) [] devices :
        Code S R Crypto Messages).run c) w := by
  refine (E2ee.Steady.safe_steady_recorded
    (covers_shares_recorded hdevices : Safe _ _ _ _ (w, []))).mono ?_
  rintro ⟨r, c'⟩ w' ⟨more, hmore, messages, hr, -, h⟩
  refine ⟨messages, hr, h.account, h.outbound, h.sessions, fun d hd hne hs _ => h.keyed d hd hne hs ?_⟩
  exact fun y hy _ _ _ => hmore y hy

/-- **Whom a share covers.** -/
theorem covers_encryptRoomKeyToDevices {devices : List DeviceInfo}
    (hdevices : (devices.map fun d => (d.userId, d.deviceId)).Nodup) :
    Safe (recording (exec serve)) (fun _ => True)
      (fun r x => ∀ messages session, r.1 = .ok messages → r.2.outbound room = some session →
        ∀ d ∈ devices, d.curveKey ≠ c.account.curve25519Key → c.olmSessions d.curveKey ≠ [] →
          Spared d.curveKey x.2 → Keyed V room us c session messages d)
      ((encryptRoomKeyToDevices V room devices us : Code S R Crypto Messages).run c) (w, tr) := by
  unfold encryptRoomKeyToDevices
  rw [Act.safe_bind]
  refine (keeps_getOrCreateOutbound.recorded tr).weaken (fun _ _ => trivial) ?_
  rintro ⟨e | made, c₁⟩ ⟨w₁, tr₁⟩ ⟨⟨haccount, hsessions, hmade⟩, -⟩
  · exact fun messages session hm => by simp at hm
  · rw [Act.then_ok]
    refine (covers_shares_recorded hdevices).mono ?_
    rintro ⟨r, c'⟩ x ⟨messages, rfl, -, hcovered⟩ messages' session hm hsession d hd hne hs hspared
    obtain rfl := Except.ok.inj hm
    obtain rfl : made = session := by
      have hroom := hsession
      rw [hcovered.outbound, hmade made rfl] at hroom
      exact Option.some.inj hroom
    obtain ⟨m, hplain, hat⟩ := hcovered.keyed d hd (by rw [haccount]; exact hne)
      (by rw [hsessions]; exact hs) hspared
    exact ⟨m, by rw [hplain, haccount], by rw [hat, haccount]⟩

end Covers

/-! ### The phases of a call -/

section Phases
variable {S : CipherSuite} {V : Vodozemac} {directory : Value} {room : String} {us : Self}
  {known known' : List Deed → String → Prop}

/-- What is known to be delivered stays so. -/
def Lasting (known : List Deed → String → Prop) : Prop :=
  ∀ deeds more id, known deeds id → known (deeds ++ more) id

/-- Every encrypted event was posted under a session known to be delivered. -/
def FairBy (known : List Deed → String → Prop) (deeds : List Deed) : Prop :=
  ∀ before room' kind content after, deeds = before ++ .posted room' kind (.encrypted content) :: after →
    known before content.sessionId

/-- **What holds of the world** while no call was cut: events are fair, and the room's session on disk
was delivered. -/
def Sound (room : String) (known : List Deed → String → Prop) (w : World S (List Deed)) : Prop :=
  FairBy known w.server ∧ ∀ copy ∈ diskCopies w.disk, copy.1 = room → known w.server copy.2.1

/-- While the process runs, so was the one in memory. -/
def Ready (room : String) (known : List Deed → String → Prop) (w : World S (List Deed)) (c : Crypto) : Prop :=
  Sound room known w ∧ ∀ s, c.outbound room = some s → known w.server s.id

theorem FairBy.append {deeds : List Deed} (h : FairBy known deeds) {deed : Deed}
    (hdeed : ∀ room' kind content, deed = .posted room' kind (.encrypted content) →
      known deeds content.sessionId) : FairBy known (deeds ++ [deed]) := by
  intro past room' kind content future heq
  rcases List.append_eq_append_iff.mp heq with ⟨more, rfl, hmore⟩ | ⟨more, rfl, hmore⟩
  · rcases more with _ | ⟨x, more⟩
    · obtain ⟨heq', -⟩ := List.cons.inj hmore
      rw [List.append_nil]
      exact hdeed room' kind content heq'
    · simp at hmore
  · rcases more with _ | ⟨x, more⟩
    · obtain ⟨heq', -⟩ := List.cons.inj hmore
      have hd := hdeed room' kind content heq'.symm
      rw [List.append_nil] at hd
      exact hd
    · obtain ⟨rfl, -⟩ := List.cons.inj hmore
      exact h past room' kind content more rfl

theorem Sound.mono {w : World S (List Deed)} (h : Sound room known w)
    (hk : ∀ deeds id, known deeds id → known' deeds id) : Sound room known' w :=
  ⟨fun before room' kind content after heq => hk _ _ (h.1 before room' kind content after heq),
    fun copy hcopy hroom => hk _ _ (h.2 copy hcopy hroom)⟩

theorem Ready.mono {w : World S (List Deed)} {c : Crypto} (h : Ready room known w c)
    (hk : ∀ deeds id, known deeds id → known' deeds id) : Ready room known' w c :=
  ⟨h.1.mono hk, fun s hs => hk _ _ (h.2 s hs)⟩

/-- Quiet code keeps what holds. -/
theorem Sound.still {x x' : World S (List Deed) × List Entry} (h : Sound room known x.1)
    (hstill : Still x x') : Sound room known x'.1 := by
  unfold Sound
  rw [hstill.server, hstill.copies]
  exact h

/-- A cut call is not one the theorem is about. -/
theorem Bare.absurd {tr : List Entry} (h : Bare room tr) {P : Prop} : completes room tr = true → P := by
  intro hc
  rw [h.not_completes] at hc
  simp at hc

/-- **What a call adds** to what is known: its share. -/
def Adds (V : Vodozemac) (directory : Value) (room : String) (us : Self)
    (known : List Deed → String → Prop) (c : Crypto) (w : World S (List Deed)) (tr : List Entry)
    (deeds : List Deed) (id : String) : Prop :=
  known deeds id ∨ ∃ share : Share V directory room us c w tr, share.Delivers deeds id

theorem lasting_adds (hlasting : Lasting known) (c : Crypto) (w : World S (List Deed)) (tr : List Entry) :
    Lasting (Adds V directory room us known c w tr) := by
  rintro deeds more id (h | ⟨share, h⟩)
  · exact Or.inl (hlasting deeds more id h)
  · exact Or.inr ⟨share, h.session, h.acknowledged.trans (List.prefix_append _ _), h.keyed⟩

theorem Adds.longer {c : Crypto} {w : World S (List Deed)} {tr tr' : List Entry} (htr : tr <+: tr')
    (deeds : List Deed) (id : String) (h : Adds V directory room us known c w tr deeds id) :
    Adds V directory room us known c w tr' deeds id := by
  rcases h with h | ⟨share, h⟩
  · exact Or.inl h
  · exact Or.inr ⟨{ share with happened := share.happened.trans htr },
      h.session, h.acknowledged, fun hnodup d hd => h.keyed hnodup d ⟨hd.listed, hd.other, hd.held, hd.written⟩⟩

variable {w : World S (List Deed)} {c : Crypto} {tr : List Entry}

/-- **The session is created** where there was none. -/
theorem safe_create (hnone : c.outbound room = none) (hw : Sound room known w) :
    Safe (recording (exec (serve directory)))
      (fun x => completes room x.2 = true → Sound room known x.1)
      (fun r x => match r with
        | (.error _, c') => completes room x.2 = true → Ready room known x.1 c'
        | (.ok _, c') => Bare room x.2 ∧ x.1.server = w.server ∧ ∃ s, c'.outbound room = some s ∧
            ∀ copy ∈ diskCopies x.1.disk, copy.1 = room → copy.2.1 = s.id)
      ((encryptRoomKeyToDevices V room (parseDeviceKeys directory) us :
        Code S Reply Crypto Messages).run c) (w, tr) := by
  have hready : ∀ n, Ready room known { w with drawn := n } c := by
    intro n
    refine ⟨hw, fun s hs => ?_⟩
    rw [hnone] at hs
    simp at hs
  unfold encryptRoomKeyToDevices getOrCreateOutbound
  simp only [Act.safe_bind, Act.safe_get, Act.then_ok]
  rw [if_pos (by rw [hnone]; rfl)]
  simp only [Act.safe_bind]
  refine safe_draw_recorded (fun _ => hw) fun o₀ => ?_
  simp only [Act.then_ok, Act.safe_bind]
  refine safe_put_recorded (fun _ => hw) (fun o e _ _ => hready _) fun o ho => ?_
  -- from here on the call is bare
  have hbare : Bare room (tr ++ [(Effect.draw 1, o₀)] ++
      [(Effect.write (.putPickle kindMegolmOut room "0"
        (c.pickle (.outbound ⟨V.groupSessionId w.drawn, 0⟩))), o)]) :=
    ⟨_, _, [], rfl, by simp [creates, ho], by simp⟩
  have hcopies : ∀ copy ∈ diskCopies ((StoreOp.putPickle kindMegolmOut room "0"
      (c.pickle (.outbound ⟨V.groupSessionId w.drawn, 0⟩))).exec o.salts w.disk),
      copy.1 = room → copy.2.1 = V.groupSessionId w.drawn := by
    intro copy hcopy hroom
    rcases mem_diskCopies_put o.salts w.disk rfl hcopy with rfl | ⟨-, hne⟩
    · rfl
    · exact absurd hroom hne
  simp only [Act.then_ok, Act.safe_bind]
  refine safe_put_recorded hbare.absurd (fun o' e _ => ?_) fun o' ho' => ?_
  · exact Bare.absurd (hbare.append (by simp [shares]))
  · have hmore : ∀ z ∈ [(Effect.write (.putPickle kindMegolmIn
        (InboundGroupSession.ofGroupSession ⟨V.groupSessionId w.drawn, 0⟩).id room
        (c.pickle (.inbound (.ofGroupSession ⟨V.groupSessionId w.drawn, 0⟩)))), o')],
        shares z = false := by simp [shares]
    have hbare' := hbare.append hmore
    rw [Act.then_ok, Act.safe_bind, Act.safe_modify, Act.then_ok, Act.safe_bind, Act.safe_get,
      Act.then_ok]
    dsimp only
    rw [Function.update_self, Act.safe_pure, Act.then_ok]
    refine (quietly_fold (fun messages device => quietly_shareWith V us _ messages device) _ _ _ _).weaken
      (fun x hx => ?_) ?_
    · obtain ⟨more, heq, hmore⟩ := hx.trail
      rw [heq]
      exact Bare.absurd (hbare'.append hmore)
    · rintro ⟨e | messages, c'⟩ x ⟨hstill, hout⟩
      · obtain ⟨more, heq, hmore⟩ := hstill.trail
        dsimp only
        rw [heq]
        exact Bare.absurd (hbare'.append hmore)
      · obtain ⟨more, heq, hmore⟩ := hstill.trail
        refine ⟨?_, hstill.server, ⟨V.groupSessionId w.drawn, 0⟩, ?_, ?_⟩
        · rw [heq]
          exact hbare'.append hmore
        · rw [hout]
          exact Function.update_self _ _ _
        · rw [hstill.copies]
          dsimp only
          rw [diskCopies_putPickle (by decide)]
          exact hcopies

theorem shareRoomKey_eq (keyNow : ℕ) :
    (shareRoomKey V room us keyNow : Code S Reply Crypto Unit) = findDevices V room >>= fun kq =>
      encryptRoomKeyToDevices V room (parseDeviceKeys kq) us >>= fun messages =>
        sendToDevice "m.room.encrypted" ("kmatrixkey" ++ toString keyNow) messages := by
  unfold shareRoomKey findDevices
  simp only [Act.bind_assoc]
  rfl

/-- **A call that makes a share** and has it acknowledged delivers the key. -/
theorem exists_share {found left : Crypto} {before after : World S (List Deed)}
    {finding encrypting : List (Outcome Net)} {messages : Messages} {session : GroupSession}
    (hfinds : run (exec (serve directory)) ((findDevices V room).run c) w finding =
      (some (.ok directory, found), before))
    (hencrypts : run (exec (serve directory)) ((encryptRoomKeyToDevices V room (parseDeviceKeys directory) us :
      Code S Reply Crypto Messages).run found) before encrypting = (some (.ok messages, left), after))
    (hopened : left.outbound room = some session) (looked : Outcome Net) (txn : String)
    {answered : Outcome Net} (hacknowledged : answered.net.fault = none) :
    ∃ share : Share V directory room us c w ((.look, looked) ::
        trail (exec (serve directory)) ((findDevices V room).run c) w finding ++
        trail (exec (serve directory)) ((encryptRoomKeyToDevices V room (parseDeviceKeys directory) us :
          Code S Reply Crypto Messages).run found) before encrypting ++
        [(.ask (.sendToDevice "m.room.encrypted" txn messages), answered)]),
      share.Delivers (after.server ++ [.shared messages]) session.id := by
  refine ⟨⟨looked, finding, found, before, hfinds, encrypting, messages, left, after, hencrypts, session,
    hopened, txn, answered, hacknowledged, List.prefix_refl _⟩, rfl, List.prefix_refl _, fun hnodup d hd => ?_⟩
  exact ((covers_encryptRoomKeyToDevices hnodup).run_trail encrypting).1 _ _ hencrypts messages session rfl
    hopened d hd.listed hd.other hd.held hd.written

/-- **Finding the devices** is quiet, and finds the directory. -/
theorem safe_findDevices :
    Safe (recording (exec (serve directory))) (Still (w, tr))
      (fun r x => Still (w, tr) x ∧ r.2.outbound = c.outbound ∧ ∀ kq, r.1 = .ok kq → kq = directory)
      ((findDevices V room : Code S Reply Crypto Value).run c) (w, tr) := by
  unfold findDevices
  rw [Act.safe_bind]
  refine (quietly_joinedMembers room c (w, tr)).mono ?_
  rintro ⟨e | members, c₁⟩ x₁ ⟨h₁, hout₁⟩
  · exact ⟨h₁, hout₁, fun kq hkq => by simp at hkq⟩
  · rw [Act.then_ok, Act.safe_bind]
    refine (safe_keysQuery members c₁ x₁).weaken (fun x hx => h₁.trans hx) ?_
    rintro ⟨e | kq, c₂⟩ x₂ ⟨h₂, hout₂, hkq⟩
    · exact ⟨h₁.trans h₂, hout₂.trans hout₁, fun kq hkq => by simp at hkq⟩
    · obtain rfl := hkq kq rfl
      rw [Act.then_ok, Act.safe_bind]
      refine (quietly_reachDevices V kq c₂ x₂).weaken (fun x hx => (h₁.trans h₂).trans hx) ?_
      rintro ⟨e | u, c₃⟩ x₃ ⟨h₃, hout₃⟩
      · exact ⟨(h₁.trans h₂).trans h₃, hout₃.trans (hout₂.trans hout₁), fun kq' hkq' => by simp at hkq'⟩
      · exact ⟨(h₁.trans h₂).trans h₃, hout₃.trans (hout₂.trans hout₁), fun kq' hkq' =>
          (Except.ok.inj hkq').symm⟩

/-- **The key is shared**, or the call is cut. -/
theorem safe_shareRoomKey (hnone : c.outbound room = none) (hw : Sound room known w) (keyNow : ℕ)
    (looked : Outcome Net) :
    Safe (recording (exec (serve directory)))
      (fun x => completes room x.2 = true → Sound room (Adds V directory room us known c w x.2) x.1)
      (fun r x => match r with
        | (.error _, c') => completes room x.2 = true →
            Ready room (Adds V directory room us known c w x.2) x.1 c'
        | (.ok (), c') => Ready room (Adds V directory room us known c w x.2) x.1 c' ∧
            (c'.outbound room).isSome)
      ((shareRoomKey V room us keyNow : Code S Reply Crypto Unit).run c) (w, [(.look, looked)]) := by
  have hadds : ∀ (tr : List Entry) deeds id, known deeds id →
      Adds V directory room us known c w tr deeds id := fun tr deeds id => Or.inl
  have hquiet : ∀ (x : World S (List Deed) × List Entry) (c' : Crypto), Still (w, [(.look, looked)]) x →
      c'.outbound = c.outbound → Ready room known x.1 c' := by
    intro x c' hstill hout
    refine ⟨Sound.still (x := (w, [(.look, looked)])) hw hstill, fun s hs => ?_⟩
    rw [hout, hnone] at hs
    simp at hs
  rw [shareRoomKey_eq, Act.safe_bind]
  refine safe_findDevices.returns.weaken (fun x hx _ => (hquiet x c hx rfl).1.mono (hadds _)) ?_
  rintro ⟨e | kq, c₁⟩ ⟨w₁, tr₁⟩ ⟨⟨h₁, hout₁, hkq⟩, finding, hfinds⟩
  · exact fun _ => (hquiet _ c₁ h₁ hout₁).mono (hadds _)
  · obtain rfl := hkq kq rfl
    have hnone₁ : c₁.outbound room = none := by
      rw [hout₁]
      exact hnone
    have hw₁ := (hquiet _ c₁ h₁ hout₁).1
    rw [Act.then_ok, Act.safe_bind]
    refine (safe_create hnone₁ hw₁).returns.weaken (fun x hx hc => (hx hc).mono (hadds _)) ?_
    rintro ⟨e | messages, c₂⟩ ⟨w₂, tr₂⟩ ⟨h₂, encrypting, hencrypts⟩
    · exact fun hc => (h₂ hc).mono (hadds _)
    · obtain ⟨hbare, hserver, s, hs, hcopies⟩ := h₂
      rw [run_recording] at hfinds hencrypts
      obtain ⟨hfound, hbefore⟩ := Prod.mk.inj hfinds
      obtain ⟨hbefore, htrail₁⟩ := Prod.mk.inj hbefore
      obtain ⟨hleft, hafter⟩ := Prod.mk.inj hencrypts
      obtain ⟨hafter, htrail₂⟩ := Prod.mk.inj hafter
      rw [Act.then_ok]
      refine ⟨hbare.absurd, fun o => ?_⟩
      unfold recording exec serve
      dsimp only
      rcases ho : o.net.fault with _ | e
      · -- the server acknowledges the share
        have hrun : run (exec (serve kq)) ((encryptRoomKeyToDevices V room (parseDeviceKeys kq) us :
            Code S Reply Crypto Messages).run c₁) w₁ encrypting = (some (.ok messages, c₂), w₂) :=
          Prod.ext hleft hafter
        obtain ⟨share, hshare⟩ := exists_share (Prod.ext hfound hbefore) hrun hs
          looked ("kmatrixkey" ++ toString keyNow) ho
        have hdelivers : Adds V kq room us known c w (tr₂ ++ [(.ask (.sendToDevice "m.room.encrypted"
            ("kmatrixkey" ++ toString keyNow) messages), o)]) (w₂.server ++ [.shared messages]) s.id := by
          rw [← htrail₂, ← htrail₁]
          exact Or.inr ⟨share, hshare⟩
        have hfair : FairBy known w₂.server := by
          rw [hserver]
          exact hw₁.1
        have hfair' : FairBy known (w₂.server ++ [.shared messages]) := hfair.append (by simp)
        refine ⟨⟨⟨fun before room' kind content after heq => hadds _ _ _ (hfair' _ _ _ _ _ heq),
          fun copy hcopy hroom => ?_⟩, fun s' hs' => ?_⟩, ?_⟩
        · dsimp only
          rw [hcopies copy hcopy hroom]
          exact hdelivers
        · rw [hs] at hs'
          rw [← Option.some.inj hs']
          exact hdelivers
        · rw [hs]
          rfl
      · exact Bare.absurd (hbare.append (by simp [shares, ho]))

/-- **A message is encrypted** with the session that is there. -/
theorem safe_encrypt_shared (h : Ready room known w c) (hsome : (c.outbound room).isSome)
    (plaintext : Value) (ourDeviceId : String) :
    Safe (exec (serve directory)) (Sound room known)
      (fun r w' => Ready room known w' r.2 ∧ ∀ content, r.1 = .ok content →
        known w'.server content.sessionId)
      ((encrypt V room plaintext ourDeviceId : Code S Reply Crypto EncryptedContent).run c) w := by
  obtain ⟨s, hs⟩ := Option.isSome_iff_exists.mp hsome
  have hd := h.2 s hs
  have hmem : Ready room known w { c with
      outbound := Function.update c.outbound room (some (s.encrypt (V.writeJson plaintext)).1) } := by
    refine ⟨h.1, fun s' hs' => ?_⟩
    dsimp only at hs'
    rw [Function.update_self] at hs'
    rw [← Option.some.inj hs']
    exact hd
  unfold encrypt getOrCreateOutbound
  simp only [Act.safe_bind, Act.safe_get, Act.then_ok]
  rw [if_neg (by simp [hs])]
  simp only [Act.safe_pure, Act.then_ok, hs, Act.safe_bind, Act.safe_modify, Act.safe_get]
  refine safe_put h.1 (fun e => ⟨hmem, fun content hc => by simp at hc⟩) fun rng => ?_
  refine ⟨⟨⟨h.1.1, fun copy hcopy hroom => ?_⟩, hmem.2⟩, fun content hc => ?_⟩
  · rcases mem_diskCopies_put rng w.disk rfl hcopy with rfl | ⟨-, hne⟩
    · exact hd
    · exact absurd hroom hne
  · rw [← Except.ok.inj hc]
    exact hd

/-- **An event is posted**: an encrypted one needs its key delivered. -/
theorem safe_sendEvent (h : Ready room known w c) (hlasting : Lasting known) {content : Content}
    (hcontent : ∀ enc, content = .encrypted enc → known w.server enc.sessionId) (kind txn : String) :
    Safe (exec (serve directory)) (Sound room known)
      (fun r w' => Ready room known w' r.2)
      ((sendEvent room kind txn content : Code S Reply Crypto String).run c) w := by
  have hposted : Ready room known { w with server := w.server ++ [.posted room kind content] } c := by
    refine ⟨⟨h.1.1.append fun room' kind' enc heq => ?_, fun copy hcopy hroom => ?_⟩, fun s hs => ?_⟩
    · obtain ⟨-, -, heq'⟩ := Deed.posted.inj heq
      exact hcontent enc heq'
    · exact hlasting _ _ _ (h.1.2 copy hcopy hroom)
    · exact hlasting _ _ _ (h.2 s hs)
  refine ⟨h.1, fun o => ?_⟩
  unfold exec serve
  dsimp only
  rcases o.net.fault with _ | e
  · exact hposted
  · dsimp only
    split_ifs
    · exact hposted
    · exact h

/-- **A message is encrypted and posted.** -/
theorem safe_post (h : Ready room known w c) (hlasting : Lasting known) (hsome : (c.outbound room).isSome)
    (envelope : Value) (txn : String) :
    Safe (exec (serve directory)) (Sound room known) (fun r w' => Ready room known w' r.2)
      ((do
        let enc ← encrypt V room envelope us.deviceId
        sendEvent room "m.room.encrypted" txn (.encrypted enc) : Code S Reply Crypto String).run c) w := by
  rw [Act.safe_bind]
  refine (safe_encrypt_shared h hsome envelope us.deviceId).mono ?_
  rintro ⟨e | enc, c'⟩ w' ⟨h', hknown⟩
  · exact h'
  · rw [Act.then_ok]
    refine safe_sendEvent h' hlasting (fun enc' heq => ?_) _ _
    rw [← Content.encrypted.inj heq]
    exact hknown enc rfl

/-- **One call**: unless it is cut, what holds is kept, and its share is added to what is known. -/
theorem safe_doSend (h : Ready room known w c) (hlasting : Lasting known) (m : Outgoing) :
    Safe (recording (exec (serve directory)))
      (fun x => completes room x.2 = true → Sound room (Adds V directory room us known c w x.2) x.1)
      (fun r x => completes room x.2 = true → Ready room (Adds V directory room us known c w x.2) x.1 r.2)
      ((doSend V room us m : Code S Reply Crypto String).run c) (w, []) := by
  have hadds : ∀ (tr : List Entry) deeds id, known deeds id →
      Adds V directory room us known c w tr deeds id := fun tr deeds id => Or.inl
  unfold doSend
  rw [Act.safe_bind]
  refine safe_query_recorded (fun _ => h.1.mono (hadds _)) (fun o e _ => h.mono (hadds _)) ?_
  intro looked rooms _
  rw [Act.then_ok]
  dsimp only
  split_ifs with hplain
  · refine ((safe_sendEvent h hlasting (fun enc heq => by simp at heq) _ _).recorded _).weaken
      (fun x hx _ => hx.1.mono (hadds _)) fun r x hx _ => hx.1.mono (hadds _)
  · rw [Act.safe_bind, Act.safe_get, Act.then_ok]
    split_ifs with hout
    · have hnone : c.outbound room = none := by
        simpa [Crypto.hasOutbound] using hout
      rw [Act.safe_bind]
      refine (safe_shareRoomKey hnone h.1 m.keyNow looked).mono ?_
      rintro ⟨e | u, c'⟩ ⟨w', tr'⟩ hx
      · exact hx
      · refine ((safe_post hx.1 (lasting_adds hlasting c w tr') hx.2 _ _).recorded tr').weaken ?_ ?_
        · exact fun x hx _ => hx.1.mono (Adds.longer hx.2)
        · exact fun r x hx _ => hx.1.mono (Adds.longer hx.2)
    · have hsome : (c.outbound room).isSome := by
        simpa [Crypto.hasOutbound, Option.isSome_iff_ne_none] using hout
      refine ((safe_post h hlasting hsome _ _).recorded _).weaken (fun x hx _ => hx.1.mono (hadds _))
        fun r x hx _ => hx.1.mono (hadds _)

end Phases

/-! ### Runs -/

section Runs
variable {S : CipherSuite} {V : Vodozemac} {directory : Value} {room : String} {us : Self} {st : Store S}

theorem stable_sound {known : List Deed → String → Prop} :
    Stable (Sound room known : World S (List Deed) → Prop) := by
  intro w w' h hcopies hserver _
  unfold Sound
  rw [hcopies, hserver]
  exact h

theorem lasting_delivered (events : List (Event Outgoing (Outcome Net))) :
    Lasting (Delivered V directory room us st events) := by
  rintro deeds more id ⟨past, m, os, future, c, heq, hc, share, h⟩
  exact ⟨past, m, os, future, c, heq, hc, share, h.session, h.acknowledged.trans (List.prefix_append _ _),
    h.keyed⟩

/-- What a run delivered, a longer one did. -/
theorem Delivered.longer {events : List (Event Outgoing (Outcome Net))}
    (more : List (Event Outgoing (Outcome Net))) (deeds : List Deed) (id : String)
    (h : Delivered V directory room us st events deeds id) :
    Delivered V directory room us st (events ++ more) deeds id := by
  obtain ⟨past, m, os, future, c, rfl, hc, share, h⟩ := h
  exact ⟨past, m, os, future ++ more, c, by simp, hc, share, h⟩

/-- What holds after a run: of the world, and while the daemon runs. -/
abbrev Kept (V : Vodozemac) (directory : Value) (room : String) (us : Self) (st : Store S)
    (events : List (Event Outgoing (Outcome Net))) : Prop :=
  (sendRun V directory room us st events).Holds
    (fun _ w => Sound room (Delivered V directory room us st events) w)
    fun _ w c => Ready room (Delivered V directory room us st events) w c

/-- **One more event** keeps it, unless it is a call that is cut. -/
theorem Kept.step {past : List (Event Outgoing (Outcome Net))} (h : Kept V directory room us st past)
    {event : Event Outgoing (Outcome Net)}
    (hcut : completes room (Process.trailOf (exec (serve directory)) (boot V) (code V room us)
      (sendRun V directory room us st past) event) = true) :
    Kept V directory room us st (past ++ [event]) := by
  have hlonger : ∀ deeds id, Delivered V directory room us st past deeds id →
      Delivered V directory room us st (past ++ [event]) deeds id := fun _ _ => Delivered.longer [event] _ _
  have hnow : (sendRun V directory room us st past).Holds
      (fun _ w => Sound room (Delivered V directory room us st (past ++ [event])) w)
      fun _ w c => Ready room (Delivered V directory room us st (past ++ [event])) w c :=
    ⟨h.1.mono hlonger, fun c hc => (h.2 c hc).mono hlonger⟩
  unfold Kept
  rw [sendRun, Process.runs_append]
  rcases event with ⟨m, os⟩ | os
  · refine Process.Holds.called (C := fun tr => tr = effects V directory room us st past m os ∧
      completes room tr = true) (fun _ w c hc => hc.1) hnow (fun c hc => ?_) ⟨rfl, hcut⟩
    -- the share of the call is among what the run delivered
    have hadds : ∀ deeds id, Adds V directory room us (Delivered V directory room us st past) c
        (sendRun V directory room us st past).world (effects V directory room us st past m os) deeds id →
        Delivered V directory room us st (past ++ [.call m os]) deeds id := by
      rintro deeds id (hknown | ⟨share, hshare⟩)
      · exact hlonger deeds id hknown
      · exact ⟨past, m, os, [], c, rfl, hc, share, hshare⟩
    refine (safe_doSend (h.2 c hc) (lasting_delivered past) m).weaken ?_ ?_
    · rintro ⟨w', tr⟩ hx ⟨htr, hcomplete⟩
      obtain rfl : tr = effects V directory room us st past m os := htr
      exact (hx hcomplete).mono hadds
    · rintro r ⟨w', tr⟩ hx ⟨htr, hcomplete⟩
      obtain rfl : tr = effects V directory room us st past m os := htr
      exact (hx hcomplete).mono hadds
  · show Process.Holds _ _ (Process.step (exec (serve directory)) (boot V) (code V room us)
      (sendRun V directory room us st past) (.boot os))
    refine Process.Holds.booted (C := fun _ => True) ?_ trivial
    refine ((safe_boot stable_sound hnow.1).recorded []).weaken (fun x hx _ => hx.1) ?_
    rintro c x ⟨⟨h', hc⟩, -⟩ -
    exact ⟨h', fun c' hc' => ⟨h', fun s hs => h'.2 (room, s.id, s.index) (hc c' hc' _ hs) rfl⟩⟩

/-- **No message before its key**, in every run in which no call is cut between making the room's
session and sharing its key. -/
theorem fair_of_completes (st : Store S) (hst : st.db.pickles.lookup (kindMegolmOut, room) = none)
    (events : List (Event Outgoing (Outcome Net)))
    (hcut : Process.Along (exec (serve directory)) (boot V) (code V room us)
      (fun tr => completes room tr = true) (cold st) events) :
    Fair V directory room us st events := by
  suffices hrun : ∀ (later past : List (Event Outgoing (Outcome Net))), Kept V directory room us st past →
      Process.Along (exec (serve directory)) (boot V) (code V room us)
        (fun tr => completes room tr = true) (sendRun V directory room us st past) later →
      Kept V directory room us st (past ++ later) from by
    have hkept : Kept V directory room us st events := by
      refine hrun events [] ⟨⟨?_, ?_⟩, fun c hc => by simp [sendRun, Process.runs, cold] at hc⟩ hcut
      · intro before room' kind content after heq
        simp [sendRun, Process.runs, cold] at heq
      · rintro copy ⟨row, hrow, -⟩ hroom
        rw [hroom] at hrow
        exact absurd hrow (by simp [sendRun, Process.runs, cold, hst])
    exact hkept.1.1
  intro later
  induction later with
  | nil =>
    intro past hpast _
    rw [List.append_nil]
    exact hpast
  | cons event later ih =>
    intro past hpast hcut
    have hnext := ih (past ++ [event]) (hpast.step hcut.1) (by
      rw [sendRun, Process.runs_append]
      exact hcut.2)
    rwa [List.append_assoc, List.singleton_append] at hnext

end Runs

/-! ### A call that is cut -/

/-- Bob has one device. -/
def bobDirectory : Value :=
  .obj [("device_keys", .obj [("@bob:h", .obj [("BOB", .obj [("keys",
    .obj [("curve25519:BOB", .str "bob curve"), ("ed25519:BOB", .str "bob ed")])])])])]

/-- A one-time key of his. -/
def bobClaim : Value :=
  .obj [("one_time_keys", .obj [("@bob:h", .obj [("BOB", .obj [("signed_curve25519:A",
    .obj [("key", .str "bob otk")])])])])]

/-- An encrypted room. -/
def roomStore : Store copySuite :=
  (StoreOp.upsertRoom ⟨"!r", "!r", true, 0, 0, ""⟩).exec (fun _ => zeroSalt) blankStore

def online : Outcome Net := calm ⟨none, true, ["@bob:h"], bobClaim, "$e"⟩

def offline : Outcome Net := calm ⟨some "timeout", false, [], .null, ""⟩

/-- The key is shared, and two messages are sent. -/
def sharedRun : List (Event Outgoing (Outcome Net)) :=
  [.boot (List.replicate 10 online), .call ⟨"one", 1, 1⟩ (List.replicate 20 online),
    .call ⟨"two", 2, 2⟩ (List.replicate 20 online)]

theorem fair_of_completes_shared :
    (sendRun (plainVodozemac [] []) bobDirectory "!r" ⟨"@me:h", "ME"⟩ roomStore
      sharedRun).world.server.length = 3 ∧
    Fair (plainVodozemac [] []) bobDirectory "!r" ⟨"@me:h", "ME"⟩ roomStore sharedRun :=
  ⟨by decide +kernel, fair_of_completes roomStore (by decide +kernel) sharedRun (by decide +kernel)⟩

/-- The share times out after the session was made, and the message is sent again. -/
def unsharedRun : List (Event Outgoing (Outcome Net)) :=
  [.boot (List.replicate 10 online),
    .call ⟨"one", 1, 1⟩ (List.replicate 10 online ++ [offline]),
    .call ⟨"one", 2, 2⟩ (List.replicate 20 online)]

/-- One encrypted event was posted, and nothing shared. -/
def onlyPosted : List Deed → Bool
  | [.posted _ _ (.encrypted _)] => true
  | _ => false

/-- **The second call posts under a session nobody else has.** -/
theorem not_fair_unshared :
    ¬ Fair (plainVodozemac [] []) bobDirectory "!r" ⟨"@me:h", "ME"⟩ roomStore unsharedRun := by
  intro h
  have honly : onlyPosted (sendRun (plainVodozemac [] []) bobDirectory "!r" ⟨"@me:h", "ME"⟩ roomStore
      unsharedRun).world.server = true := by decide +kernel
  unfold Fair at h
  revert h honly
  generalize (sendRun (plainVodozemac [] []) bobDirectory "!r" ⟨"@me:h", "ME"⟩ roomStore
    unsharedRun).world.server = deeds
  rcases deeds with _ | ⟨deed, deeds⟩
  · intro _ honly
    simp [onlyPosted] at honly
  · intro h honly
    unfold onlyPosted at honly
    split at honly
    · next room' kind content heq =>
      obtain ⟨past, m, os, future, c, -, -, share, hshare⟩ := h [] room' kind content [] heq
      have hnil := List.prefix_nil.mp hshare.acknowledged
      simp at hnil
    · simp at honly

end Kmatrix.Daemon.Sharing
