import Kmatrix.Daemon.Sharing
import Kmatrix.E2ee.Offline

/-! # Who has the key

Before its first message to an encrypted room `do_send` shares the key with every device it finds there.
Later calls find the session in place and ask for nobody, so a device that has joined since is left out
(`not_everyDevice_joined`). `everyDevice_of_fits` says that this is all: in a run in which every device that
is found at a call was found when the session was made, all of them have the key. -/

namespace Kmatrix.Daemon.Audience

open Kmatrix.Lib.Crash Kmatrix.E2ee.Ratchets Kmatrix.E2ee.Json Kmatrix.E2ee.Effects Kmatrix.E2ee.Steady
open Kmatrix.E2ee.Sessions Kmatrix.E2ee.Devices Kmatrix.E2ee.Megolm Kmatrix.E2ee.Offline
open Kmatrix.Daemon.Send hiding serve
open Kmatrix.Daemon.Sharing (Keyed Covered covers_shares)
open Kmatrix.Storage Kmatrix.Storage.Seal Kmatrix.Storage.Schema
open Kmatrix.Sas.Machine (Self DeviceInfo)

/-! ### The statement -/

/-- **What the server would answer** while a message is sent. `/keys/query` answers with maps, so no device is
listed twice. -/
structure Scene where
  members : List String
  directory : Value
  nodup : ((parseDeviceKeys directory).map fun d => (d.userId, d.deviceId)).Nodup
  claimed : Value
  eventId : String

/-- Every request succeeds. -/
def serve (scene : Scene) (deeds : List Deed) : (q : Request) → Reply q × List Deed :=
  Send.serve scene.directory ⟨none, true, scene.members, scene.claimed, scene.eventId⟩ deeds

section Statement
variable {S : CipherSuite} (V : Vodozemac) (room : String) (us : Self)

/-- A one-time key can be claimed for the device. -/
def Claimable (claimed : Value) (d : DeviceInfo) : Prop :=
  ∃ key, claimedKey claimed d = some key ∧ V.validKey d.curveKey = true ∧ V.validKey key = true

/-- **The device is found**, it is not ours, and it can be reached. -/
def Wanted (c : Crypto) (scene : Scene) (d : DeviceInfo) : Prop :=
  d ∈ parseDeviceKeys scene.directory ∧ d.curveKey ≠ c.account.curve25519Key ∧
    (c.olmSessions d.curveKey ≠ [] ∨ Claimable V scene.claimed d)

/-- The key of session `id` was delivered to the device, from its first message on. -/
def HasKey (deeds : List Deed) (id : String) (d : DeviceInfo) : Prop :=
  ∃ c session messages, .shared messages ∈ deeds ∧ session.id = id ∧ session.index = 0 ∧
    Keyed V room us c session messages d

/-- The daemon, called to send messages to the room. -/
def code (k : Outgoing × Scene) (c : Crypto) :
    Prog (Effect Request) (Answer S Reply) (Except String String × Crypto) := (doSend V room us k.1).run c

abbrev Caller (S : CipherSuite) : Type :=
  Process (World S (List Deed)) Crypto (Outgoing × Scene) (Except String String)

abbrev Happens : Type := Event (Outgoing × Scene) (Outcome Scene)

/-- A run of calls and restarts, over a database. -/
abbrev sendRun (st : Store S) (events : List Happens) : Caller S :=
  Process.runs (exec serve) (boot V) (code V room us) ⟨⟨st, 0, []⟩, none, []⟩ events

/-- The daemon after one more event. -/
abbrev next (p : Caller S) (event : Happens) : Caller S :=
  Process.step (exec serve) (boot V) (code V room us) p event

/-- **A call leaves nobody out**: before an encrypted event that it posts, the key of its session was
delivered to every device that is wanted. -/
def Covers (p : Caller S) : Happens → Prop
  | .boot _ => True
  | .call k os => ∀ c, p.memory = some c → ∀ before room' kind content after,
      (next V room us p (.call k os)).world.server =
        before ++ .posted room' kind (.encrypted content) :: after →
      p.world.server <+: before → ∀ d, Wanted V c k.2 d → HasKey V room us before content.sessionId d

/-- **Every current device has the key**, at every call of the run. -/
def EveryDevice (st : Store S) (events : List Happens) : Prop :=
  ∀ past event future, events = past ++ event :: future → Covers V room us (sendRun V room us st past) event

/-- The server answers as it would, and no store access fails. -/
def Succeeds : Happens → Prop
  | .boot _ => True
  | .call k os => ∀ o ∈ os, o.fault = none ∧ o.net = k.2

/-- The device was wanted in the call that made session `id`. -/
def MadeFor (st : Store S) (past : List Happens) (id : String) (d : DeviceInfo) : Prop :=
  ∃ earlier k os later c c' s, past = earlier ++ .call k os :: later ∧
    (sendRun V room us st earlier).memory = some c ∧ c.outbound room = none ∧
    (next V room us (sendRun V room us st earlier) (.call k os)).memory = some c' ∧
    c'.outbound room = some s ∧ s.id = id ∧ Wanted V c k.2 d

/-- **The condition**: what is wanted at a call that finds a session was wanted when that was made. -/
def Fits (st : Store S) (events : List Happens) : Prop :=
  ∀ past k os future, events = past ++ .call k os :: future →
    ∀ c s, (sendRun V room us st past).memory = some c → c.outbound room = some s →
      ∀ d, Wanted V c k.2 d → MadeFor V room us st past s.id d

end Statement

/-! ### Runs without a fault -/

section Fixed
variable {S : CipherSuite}

/-- One scene for a whole call. -/
abbrev during (scene : Scene) (_ : Unit) (deeds : List Deed) : (q : Request) → Reply q × List Deed :=
  serve scene deeds

theorem run_during {α : Type} (p : Prog (Effect Request) (Answer S Reply) α) (w : World S (List Deed))
    {scene : Scene} {os : List (Outcome Scene)} (hos : ∀ o ∈ os, o.fault = none ∧ o.net = scene) :
    run (exec serve) p w os = run (steady (during scene)) p w (os.map fun o => (o.salts, ())) := by
  induction p generalizing w os with
  | ret a => rfl
  | act e next ih =>
    rcases os with _ | ⟨⟨fault, salts, net⟩, os⟩
    · rfl
    · obtain ⟨hfault, hnet⟩ := hos _ List.mem_cons_self
      dsimp only at hfault hnet
      subst hfault hnet
      have hrest := ih (exec serve ⟨none, salts, net⟩ w e).1 (exec serve ⟨none, salts, net⟩ w e).2
        fun o ho => hos o (List.mem_cons_of_mem _ ho)
      exact hrest

end Fixed

/-! ### One call -/

/-- The account and the room's sessions stay, and no device loses its Olm sessions. -/
structure Onward (c c' : Crypto) : Prop where
  account : c'.account = c.account
  outbound : c'.outbound = c.outbound
  sessions : ∀ k, c.olmSessions k ≠ [] → c'.olmSessions k ≠ []

theorem Onward.refl (c : Crypto) : Onward c c := ⟨rfl, rfl, fun _ h => h⟩

theorem Onward.trans {c c' c'' : Crypto} (h : Onward c c') (h' : Onward c' c'') : Onward c c'' :=
  ⟨h'.account.trans h.account, h'.outbound.trans h.outbound, fun k hk => h'.sessions k (h.sessions k hk)⟩

section Reaching
variable {S : CipherSuite} {V : Vodozemac} {scene : Scene} {c : Crypto} {w : World S (List Deed)}

/-- A session is started with a device whose keys are well formed. -/
theorem safe_start (d : DeviceInfo) (key : String) :
    Safe (steady (during scene)) (fun w' => w'.server = w.server)
      (fun r w' => w'.server = w.server ∧ Onward c r.2 ∧
        (V.validKey d.curveKey = true → V.validKey key = true → r.2.olmSessions d.curveKey ≠ []))
      ((startOlmSession V d key : Code S Reply Crypto Unit).run c) w := by
  unfold startOlmSession
  dsimp only
  by_cases hcurve : V.validKey d.curveKey = true
  · by_cases hkey : V.validKey key = true
    · rw [if_neg (by simp [hcurve]), if_neg (by simp [hkey]), Act.safe_bind]
      refine safe_draw_steady rfl ?_
      simp only [Act.then_ok, Act.safe_bind, Act.safe_get]
      refine safe_put_steady rfl fun rng => ?_
      refine ⟨rfl, ⟨rfl, rfl, fun k hk => ?_⟩, fun _ _ => ?_⟩
      · dsimp only
        rw [Function.update_apply]
        split_ifs
        · simp
        · exact hk
      · simp
    · rw [if_neg (by simp [hcurve]), if_pos (by simp [hkey])]
      exact ⟨rfl, Onward.refl c, fun _ h => absurd h hkey⟩
  · rw [if_pos (by simp [hcurve])]
    split_ifs
    · exact ⟨rfl, Onward.refl c, fun h => absurd h hcurve⟩
    · exact ⟨rfl, Onward.refl c, fun h => absurd h hcurve⟩

theorem safe_createSession (claimed : Value) (d : DeviceInfo) :
    Safe (steady (during scene)) (fun w' => w'.server = w.server)
      (fun r w' => r.1 = .ok () ∧ w'.server = w.server ∧ Onward c r.2 ∧
        (Claimable V claimed d → r.2.olmSessions d.curveKey ≠ []))
      ((createSession V claimed d : Code S Reply Crypto Unit).run c) w := by
  unfold createSession
  rw [Act.safe_bind, Act.safe_get, Act.then_ok]
  split_ifs with hnone
  · rcases hkey : claimedKey claimed d with _ | key
    · refine ⟨rfl, rfl, Onward.refl c, ?_⟩
      rintro ⟨key, hclaimed, -⟩
      rw [hkey] at hclaimed
      cases hclaimed
    · dsimp only
      rw [Act.safe_bind, Act.safe_attempt]
      refine (safe_start d key).mono ?_
      rintro ⟨r, c'⟩ w' ⟨hserver, honward, hstarted⟩
      refine ⟨rfl, hserver, honward, ?_⟩
      rintro ⟨key', hclaimed, hcurve, hvalid⟩
      rw [hkey] at hclaimed
      obtain rfl := Option.some.inj hclaimed
      exact hstarted hcurve hvalid
  · refine ⟨rfl, rfl, Onward.refl c, fun _ => ?_⟩
    simpa using hnone

/-- **`create_outbound_olm`** reaches every device of the list that a key can be claimed for. -/
theorem safe_createOutboundOlm (claimed : Value) (need : List DeviceInfo) :
    Safe (steady (during scene)) (fun w' => w'.server = w.server)
      (fun r w' => r.1 = .ok () ∧ w'.server = w.server ∧ Onward c r.2 ∧
        ∀ d ∈ need, Claimable V claimed d → r.2.olmSessions d.curveKey ≠ [])
      ((createOutboundOlm V claimed need : Code S Reply Crypto Unit).run c) w := by
  unfold createOutboundOlm
  induction need generalizing c w with
  | nil => exact ⟨rfl, rfl, Onward.refl c, by simp⟩
  | cons d need ih =>
    refine Act.safe_bind.mpr ((safe_createSession claimed d).mono ?_)
    rintro ⟨r, c₁⟩ w₁ ⟨rfl, hserver, honward, hreached⟩
    rw [Act.then_ok]
    refine (ih (c := c₁) (w := w₁)).weaken (fun w' hw' => hw'.trans hserver) ?_
    rintro ⟨r, c₂⟩ w₂ ⟨hok, hserver₂, honward₂, hrest⟩
    refine ⟨hok, hserver₂.trans hserver, honward.trans honward₂, fun d' hd' hclaim => ?_⟩
    rcases List.mem_cons.mp hd' with rfl | hd'
    · exact honward₂.sessions _ (hreached hclaim)
    · exact hrest d' hd' hclaim

/-- **Every wanted device is reached.** -/
theorem safe_reachDevices :
    Safe (steady (during scene)) (fun w' => w'.server = w.server)
      (fun r w' => r.1 = .ok () ∧ w'.server = w.server ∧ Onward c r.2 ∧
        ∀ d, Wanted V c scene d → r.2.olmSessions d.curveKey ≠ [])
      ((reachDevices V scene.directory : Code S Reply Crypto Unit).run c) w := by
  unfold reachDevices
  rw [Act.safe_bind, Act.safe_get, Act.then_ok, Act.safe_bind, Act.safe_modify, Act.then_ok]
  have hneed : ∀ d, Wanted V c scene d → c.olmSessions d.curveKey ≠ [] ∨
      (d ∈ Crypto.devicesNeedingSession c (parseDeviceKeys scene.directory) ∧
        Claimable V scene.claimed d) := by
    rintro d ⟨hmem, hours, hreach⟩
    by_cases hsessions : c.olmSessions d.curveKey = []
    · right
      refine ⟨?_, hreach.resolve_left (not_not.mpr hsessions)⟩
      unfold Crypto.devicesNeedingSession
      rw [List.mem_filter]
      exact ⟨hmem, by simp [hours, hsessions]⟩
    · exact Or.inl hsessions
  split_ifs with hempty
  · rw [Act.safe_bind]
    refine ⟨rfl, fun o => ?_⟩
    show Safe _ _ _ ((createOutboundOlm V scene.claimed
      (Crypto.devicesNeedingSession c (parseDeviceKeys scene.directory)) : Code S Reply Crypto Unit).run
        (Crypto.rememberDevices c (parseDeviceKeys scene.directory))) w
    refine (safe_createOutboundOlm scene.claimed _).mono ?_
    rintro ⟨r, c'⟩ w' ⟨hok, hserver, honward, hreached⟩
    have hfrom : Onward c c' := ⟨honward.account, honward.outbound, honward.sessions⟩
    refine ⟨hok, hserver, hfrom, fun d hwanted => ?_⟩
    rcases hneed d hwanted with hsessions | ⟨hmem, hclaim⟩
    · exact hfrom.sessions _ hsessions
    · exact hreached d hmem hclaim
  · refine ⟨rfl, rfl, ⟨rfl, rfl, fun _ h => h⟩, fun d hwanted => ?_⟩
    rcases hneed d hwanted with hsessions | ⟨hmem, -⟩
    · exact hsessions
    · rw [Bool.not_eq_true, Bool.not_eq_false', List.isEmpty_iff] at hempty
      rw [hempty] at hmem
      cases hmem

end Reaching

section Sending
variable {S : CipherSuite} {V : Vodozemac} {room : String} {us : Self} {scene : Scene} {c : Crypto}
  {w : World S (List Deed)}

/-- **A share** of a new session holds the key for every device that is reached. -/
theorem safe_share (hnone : c.outbound room = none) :
    Safe (steady (during scene)) (fun w' => w'.server = w.server)
      (fun r w' => ∃ messages s, r.1 = .ok messages ∧ w'.server = w.server ∧
        r.2.outbound room = some s ∧ s.index = 0 ∧ ∀ d ∈ parseDeviceKeys scene.directory,
          d.curveKey ≠ c.account.curve25519Key → c.olmSessions d.curveKey ≠ [] →
            ∃ c', Keyed V room us c' s messages d)
      ((encryptRoomKeyToDevices V room (parseDeviceKeys scene.directory) us :
        Code S Reply Crypto Messages).run c) w := by
  have hserver := safe_steady (@server_of_only S Request (List Deed) Unit Reply (during scene) _ _
    (only_encryptRoomKeyToDevices V c room (parseDeviceKeys scene.directory) us) w)
  have hkeyed : Safe (steady (during scene)) (fun _ => True)
      (fun r _ => ∃ messages s, r.1 = .ok messages ∧ r.2.outbound room = some s ∧ s.index = 0 ∧
        ∀ d ∈ parseDeviceKeys scene.directory, d.curveKey ≠ c.account.curve25519Key →
          c.olmSessions d.curveKey ≠ [] → ∃ c', Keyed V room us c' s messages d)
      ((encryptRoomKeyToDevices V room (parseDeviceKeys scene.directory) us :
        Code S Reply Crypto Messages).run c) w := by
    unfold encryptRoomKeyToDevices
    rw [Act.safe_bind]
    refine Sharing.opens_getOrCreateOutbound.mono ?_
    rintro ⟨r, c₁⟩ w₁ ⟨made, rfl, hmade, haccount, hsessions, -, hindex⟩
    rw [Act.then_ok]
    refine (covers_shares scene.nodup).mono ?_
    rintro ⟨r, c₂⟩ w₂ ⟨messages, rfl, hcovered⟩
    refine ⟨messages, made, rfl, hcovered.outbound ▸ hmade, hindex hnone, fun d hd hours hreach => ?_⟩
    exact ⟨c₁, hcovered.keyed d hd (by rw [haccount]; exact hours) (by rw [hsessions]; exact hreach) trivial⟩
  refine (hserver.and hkeyed).weaken (fun _ h => h.1) ?_
  rintro r w' ⟨hstill, messages, s, hok, hs, hindex, hall⟩
  exact ⟨messages, s, hok, hstill, hs, hindex, hall⟩

theorem safe_joinedMembers {D : World S (List Deed) → Prop}
    {T : Except String (List String) × Crypto → World S (List Deed) → Prop} (hD : D w)
    (h : T (.ok scene.members, c) w) :
    Safe (steady (during scene)) D T ((joinedMembers room : Code S Reply Crypto (List String)).run c) w :=
  ⟨hD, fun _ => h⟩

theorem safe_keysQuery {D : World S (List Deed) → Prop}
    {T : Except String Value × Crypto → World S (List Deed) → Prop} (hD : D w)
    (h : T (.ok scene.directory, c) w) (users : List String) :
    Safe (steady (during scene)) D T ((keysQuery users : Code S Reply Crypto Value).run c) w :=
  ⟨hD, fun _ => h⟩

/-- **The key is shared** with every wanted device. -/
theorem safe_shareRoomKey (hnone : c.outbound room = none) (keyNow : ℕ) :
    Safe (steady (during scene)) (fun w' => w'.server = w.server)
      (fun r w' => r.1 = .ok () ∧ ∃ messages s, w'.server = w.server ++ [.shared messages] ∧
        r.2.outbound room = some s ∧ ∀ d, Wanted V c scene d → HasKey V room us w'.server s.id d)
      ((shareRoomKey V room us keyNow : Code S Reply Crypto Unit).run c) w := by
  unfold shareRoomKey
  rw [Act.safe_bind]
  refine safe_joinedMembers (by rfl) ?_
  rw [Act.then_ok, Act.safe_bind]
  refine safe_keysQuery (by rfl) ?_ _
  rw [Act.then_ok, Act.safe_bind]
  refine safe_reachDevices.mono ?_
  rintro ⟨r, c₁⟩ w₁ ⟨rfl, hserver₁, honward, hreached⟩
  rw [Act.then_ok, Act.safe_bind]
  refine (safe_share (by rw [honward.outbound]; exact hnone)).weaken (fun w' hw' => hw'.trans hserver₁) ?_
  rintro ⟨r, c₂⟩ w₂ ⟨messages, s, rfl, hserver₂, hs, hindex, hkeyed⟩
  rw [Act.then_ok]
  have hserver : w₂.server = w.server := hserver₂.trans hserver₁
  refine ⟨hserver, fun _ => ⟨rfl, messages, s, ?_, hs, fun d hwanted => ?_⟩⟩
  · show w₂.server ++ [.shared messages] = w.server ++ [.shared messages]
    rw [hserver]
  · obtain ⟨c', hc'⟩ := hkeyed d hwanted.1 (by rw [honward.account]; exact hwanted.2.1) (hreached d hwanted)
    exact ⟨c', s, messages, List.mem_append_right _ (List.mem_singleton_self _), rfl, hindex, hc'⟩

/-- **A message is encrypted** with the session of its room. -/
theorem safe_encrypt {s : GroupSession} (hs : c.outbound room = some s) (plaintext : Value)
    (ourDeviceId : String) :
    Safe (steady (during scene)) (fun w' => w'.server = w.server)
      (fun r w' => w'.server = w.server ∧ ∃ enc s', r.1 = .ok enc ∧ enc.sessionId = s.id ∧
        r.2.outbound room = some s' ∧ s'.id = s.id)
      ((encrypt V room plaintext ourDeviceId : Code S Reply Crypto EncryptedContent).run c) w := by
  have hserver := safe_steady (@server_of_only S Request (List Deed) Unit Reply (during scene) _ _
    (only_encrypt V c room plaintext ourDeviceId) w)
  have hmade : Safe (steady (during scene)) (fun _ => True)
      (fun r _ => ∃ enc s', r.1 = .ok enc ∧ enc.sessionId = s.id ∧ r.2.outbound room = some s' ∧
        s'.id = s.id)
      ((encrypt V room plaintext ourDeviceId : Code S Reply Crypto EncryptedContent).run c) w := by
    unfold encrypt
    rw [Act.safe_bind]
    refine Sharing.opens_getOrCreateOutbound.mono ?_
    rintro ⟨r, c₁⟩ w₁ ⟨made, rfl, -, -, -, hmade, -⟩
    obtain rfl := hmade s hs
    simp only [Act.then_ok, Act.safe_bind, Act.safe_modify, Act.safe_get]
    refine safe_put_steady trivial fun rng => ?_
    exact ⟨_, _, rfl, rfl, Function.update_self _ _ _, rfl⟩
  exact (hserver.and hmade).weaken (fun _ h => h.1) fun _ _ h => h

/-- No event was posted, only keys were shared. -/
def Unposted (deeds deeds' : List Deed) : Prop :=
  ∃ more, deeds' = deeds ++ more ∧ ∀ x ∈ more, ∃ messages, x = .shared messages

theorem Unposted.refl (deeds : List Deed) : Unposted deeds deeds := ⟨[], by simp, by simp⟩

/-- Then there is none after what was there. -/
theorem Unposted.absurd {deeds deeds' before after : List Deed} {room' kind : String} {content : Content}
    (h : Unposted deeds deeds') (hbefore : deeds <+: before) :
    deeds' ≠ before ++ .posted room' kind content :: after := by
  rintro heq
  obtain ⟨more, hmore, hshared⟩ := h
  obtain ⟨t, rfl⟩ := hbefore
  rw [hmore, List.append_assoc] at heq
  have hmem : Deed.posted room' kind content ∈ more := by
    rw [List.append_cancel_left heq]
    simp
  obtain ⟨messages, hshare⟩ := hshared _ hmem
  cases hshare

/-- **Those who can read session `id`**: the wanted devices if the session is made in this call, and else it
is the session that was found. -/
def Readable (V : Vodozemac) (room : String) (us : Self) (c : Crypto) (scene : Scene) (deeds : List Deed)
    (id : String) : Prop :=
  (c.outbound room = none → ∀ d, Wanted V c scene d → HasKey V room us deeds id d) ∧
    ∀ s, c.outbound room = some s → id = s.id

/-- What a call adds: nothing but a share, or the event after it. -/
def Adds (V : Vodozemac) (room : String) (us : Self) (c : Crypto) (scene : Scene)
    (deeds deeds' : List Deed) : Prop :=
  Unposted deeds deeds' ∨ ∃ before room' kind content, deeds' = before ++ [.posted room' kind content] ∧
    Unposted deeds before ∧
    ∀ enc, content = .encrypted enc → Readable V room us c scene before enc.sessionId

theorem Adds.readable {deeds deeds' before after : List Deed} {room' kind : String}
    {enc : EncryptedContent} (h : Adds V room us c scene deeds deeds') (hbefore : deeds <+: before)
    (heq : deeds' = before ++ .posted room' kind (.encrypted enc) :: after) :
    Readable V room us c scene before enc.sessionId := by
  rcases h with hnone | ⟨before', room'', kind', content, hdeeds, hnone, hread⟩
  · exact absurd heq (hnone.absurd hbefore)
  · rw [hdeeds] at heq
    rcases after.eq_nil_or_concat with rfl | ⟨after, last, rfl⟩
    · obtain ⟨rfl, hlast⟩ := List.append_inj' heq rfl
      exact hread enc (Deed.posted.inj (List.cons.inj hlast).1).2.2
    · rw [List.concat_eq_append, ← List.cons_append, ← List.append_assoc] at heq
      exact absurd (List.append_inj' heq rfl).1 (hnone.absurd hbefore)

/-- An event is posted. -/
theorem safe_sendEvent {D : World S (List Deed) → Prop}
    {T : Except String String × Crypto → World S (List Deed) → Prop} {kind txn : String} {content : Content}
    (hD : D w) (h : T (.ok scene.eventId, c) { w with server := w.server ++ [.posted room kind content] }) :
    Safe (steady (during scene)) D T ((sendEvent room kind txn content : Code S Reply Crypto String).run c) w :=
  ⟨hD, fun _ => h⟩

/-- **What a call does.** -/
theorem safe_doSend (m : Outgoing) :
    Safe (steady (during scene)) (fun w' => Unposted w.server w'.server)
      (fun r w' => Adds V room us c scene w.server w'.server ∧
        ∀ s, c.outbound room = none → r.2.outbound room = some s →
          ∀ d, Wanted V c scene d → HasKey V room us w'.server s.id d)
      ((doSend V room us m : Code S Reply Crypto String).run c) w := by
  -- the part after the key is shared
  have hpost : ∀ (c₁ : Crypto) (w₁ : World S (List Deed)) (envelope : Value) (s : GroupSession),
      Unposted w.server w₁.server → c₁.outbound room = some s →
      Readable V room us c scene w₁.server s.id →
      Safe (steady (during scene)) (fun w' => Unposted w.server w'.server)
        (fun r w' => Adds V room us c scene w.server w'.server ∧
          ∀ s, c.outbound room = none → r.2.outbound room = some s →
            ∀ d, Wanted V c scene d → HasKey V room us w'.server s.id d)
        ((do
          let enc ← encrypt V room envelope us.deviceId
          sendEvent room "m.room.encrypted" ("kmatrix" ++ toString m.now) (.encrypted enc) :
            Code S Reply Crypto String).run c₁) w₁ := by
    intro c₁ w₁ envelope s hquiet hs hread
    rw [Act.safe_bind]
    refine (safe_encrypt hs envelope us.deviceId).weaken (fun w' hw' => by rw [hw']; exact hquiet) ?_
    rintro ⟨r, c₂⟩ w₂ ⟨hserver, enc, s', rfl, henc, hs', hid⟩
    rw [Act.then_ok]
    refine safe_sendEvent (by rw [hserver]; exact hquiet) ⟨Or.inr ?_, ?_⟩
    · refine ⟨w₂.server, room, "m.room.encrypted", .encrypted enc, rfl, hserver ▸ hquiet, ?_⟩
      intro enc' heq
      rw [← Content.encrypted.inj heq, henc, hserver]
      exact hread
    · intro s'' hnone hs'' d hd
      obtain rfl : s' = s'' := Option.some.inj (hs'.symm.trans hs'')
      obtain ⟨c', session, messages, hmem, hsession, hindex, hkeyed⟩ := hread.1 hnone d hd
      refine ⟨c', session, messages, List.mem_append_left _ ?_, hsession.trans hid.symm, hindex, hkeyed⟩
      rw [hserver]
      exact hmem
  unfold doSend
  rw [Act.safe_bind]
  refine safe_query_steady (Unposted.refl _) ?_
  rcases Read.listRooms w.disk with e | rooms
  · exact ⟨Or.inl (Unposted.refl _), fun s hnone hs => by rw [hnone] at hs; cases hs⟩
  · rw [Act.then_ok]
    dsimp only
    split_ifs with hplain
    · refine safe_sendEvent (Unposted.refl _) ⟨Or.inr ?_, fun s hnone hs => by rw [hnone] at hs; cases hs⟩
      exact ⟨w.server, room, _, _, rfl, Unposted.refl _, fun enc heq => by cases heq⟩
    · rw [Act.safe_bind, Act.safe_get, Act.then_ok]
      split_ifs with hout
      · have hnone : c.outbound room = none := by simpa [Crypto.hasOutbound] using hout
        rw [Act.safe_bind]
        refine (safe_shareRoomKey hnone m.keyNow).weaken (fun w' hw' => by rw [hw']; exact Unposted.refl _) ?_
        rintro ⟨r, c₁⟩ w₁ ⟨rfl, messages, s, hserver, hs, hkeys⟩
        rw [Act.then_ok]
        refine hpost c₁ w₁ _ s ⟨[.shared messages], hserver, by simp⟩ hs ⟨fun _ => hkeys, ?_⟩
        intro s' hs'
        rw [hnone] at hs'
        cases hs'
      · have hsome : (c.outbound room).isSome := by
          simpa [Crypto.hasOutbound, Option.isSome_iff_ne_none] using hout
        obtain ⟨s, hs⟩ := Option.isSome_iff_exists.mp hsome
        refine hpost c w _ s (Unposted.refl _) hs ⟨fun hnone => ?_, fun s' hs' => ?_⟩
        · rw [hnone] at hs
          cases hs
        · rw [hs] at hs'
          rw [Option.some.inj hs']

end Sending

/-! ### Runs -/

section Runs
variable {S : CipherSuite} {V : Vodozemac} {room : String} {us : Self}

/-- The server forgets nothing. -/
theorem server_keeps (o : Outcome Scene) (w : World S (List Deed)) (e : Effect Request) :
    w.server <+: (exec (R := Reply) serve o w e).2.server := by
  rcases e with _ | op | count | request
  · unfold exec
    rcases o.fault with _ | fault
    · exact List.prefix_refl _
    · exact List.prefix_refl _
  · unfold exec
    rcases o.fault with _ | fault
    · exact List.prefix_refl _
    · exact List.prefix_refl _
  · exact List.prefix_refl _
  · rcases request with room | users | body | ⟨kind, txn, messages⟩ | ⟨room, kind, txn, content⟩
    · exact List.prefix_refl _
    · exact List.prefix_refl _
    · exact List.prefix_refl _
    · exact List.prefix_append _ _
    · exact List.prefix_append _ _

theorem HasKey.mono {deeds deeds' : List Deed} {id : String} {d : DeviceInfo} (h : HasKey V room us deeds id d)
    (hmore : deeds <+: deeds') : HasKey V room us deeds' id d := by
  obtain ⟨c, session, messages, hmem, hid, hkeyed⟩ := h
  exact ⟨c, session, messages, hmore.subset hmem, hid, hkeyed⟩

/-- **What one call adds**, and for whom a session that it makes is readable. -/
theorem step_call {p : Caller S} {k : Outgoing × Scene} {os : List (Outcome Scene)}
    (hsucceeds : Succeeds (.call k os)) {c : Crypto} (hc : p.memory = some c) :
    Adds V room us c k.2 p.world.server (next V room us p (.call k os)).world.server ∧
      ∀ c' s, (next V room us p (.call k os)).memory = some c' → c.outbound room = none →
        c'.outbound room = some s → ∀ d, Wanted V c k.2 d →
          HasKey V room us (next V room us p (.call k os)).world.server s.id d := by
  have hrun := run_during ((doSend V room us k.1).run c) p.world hsucceeds
  obtain ⟨hreturns, hkilled⟩ :=
    (safe_doSend (V := V) (w := p.world) k.1).run (os.map fun o => (o.salts, ()))
  rcases hr : run (exec serve) ((doSend V room us k.1).run c) p.world os with ⟨_ | ⟨a, c'⟩, w'⟩
  · have hnext : next V room us p (.call k os) = ⟨w', none, p.returned⟩ := by
      simp only [next, Process.step, hc, code, hr]
    rw [hnext]
    exact ⟨Or.inl (hkilled w' (hrun ▸ hr)), fun c' s hc' => by cases hc'⟩
  · have hnext : next V room us p (.call k os) = ⟨w', some c', p.returned ++ [(k, a)]⟩ := by
      simp only [next, Process.step, hc, code, hr]
    rw [hnext]
    obtain ⟨hadds, hmade⟩ := hreturns (a, c') w' (hrun ▸ hr)
    refine ⟨hadds, fun c'' s hc'' hnone hs => ?_⟩
    obtain rfl := Option.some.inj hc''
    exact hmade s hnone hs

/-- **Who was wanted when the session was made has its key** ever after. -/
theorem MadeFor.hasKey {st : Store S} {past : List Happens} {id : String} {d : DeviceInfo}
    (h : MadeFor V room us st past id d) (hsucceeds : ∀ event ∈ past, Succeeds event) :
    HasKey V room us (sendRun V room us st past).world.server id d := by
  obtain ⟨earlier, k, os, later, c, c', s, rfl, hc, hnone, hc', hs, rfl, hwanted⟩ := h
  have hcall := (step_call (hsucceeds (.call k os) (by simp)) hc).2 c' s hc' hnone hs d hwanted
  refine hcall.mono ?_
  have hruns : sendRun V room us st (earlier ++ .call k os :: later) =
      Process.runs (exec serve) (boot V) (code V room us)
        (next V room us (sendRun V room us st earlier) (.call k os)) later := by
    rw [sendRun, Process.runs_append]
    rfl
  rw [hruns]
  exact Process.runs_keeps (R := fun w w' : World S (List Deed) => w.server <+: w'.server)
    (fun w => List.prefix_refl _) (fun h h' => h.trans h') server_keeps _ later

/-- **Every current device has the key**, in every run without a fault in which the devices that are wanted
at a call that finds a session were wanted when it was made. -/
theorem everyDevice_of_fits (st : Store S) (events : List Happens)
    (hsucceeds : ∀ event ∈ events, Succeeds event) (hfits : Fits V room us st events) :
    EveryDevice V room us st events := by
  rintro past (⟨k, os⟩ | os) future rfl
  · intro c hc before room' kind content after heq hbefore d hwanted
    have hsucceeded : Succeeds (.call k os) := hsucceeds _ (by simp)
    have hadds : Adds V room us c k.2 (sendRun V room us st past).world.server
        (next V room us (sendRun V room us st past) (.call k os)).world.server :=
      (step_call hsucceeded hc).1
    obtain ⟨hmade, hfound⟩ := hadds.readable hbefore heq
    rcases hroom : c.outbound room with _ | s
    · exact hmade hroom d hwanted
    · rw [hfound s hroom]
      have hpast := (hfits past k os future rfl c s hc hroom d hwanted).hasKey
        fun event hevent => hsucceeds event (List.mem_append_left _ hevent)
      exact hpast.mono hbefore
  · trivial

end Runs

/-! ### A device that joins -/

/-- Bob's device. -/
def bobDevice : DeviceInfo := ⟨"@bob:h", "BOB", "bob curve", "bob ed"⟩

/-- Bob is in the room. -/
def bobThere : Scene := ⟨["@bob:h"], Sharing.bobDirectory, by decide +kernel, Sharing.bobClaim, "$e"⟩

/-- Nobody else is. -/
def nobodyThere : Scene := ⟨[], .obj [], by decide +kernel, .null, "$e"⟩

theorem succeeds_calm (m : Outgoing) (scene : Scene) (n : ℕ) :
    Succeeds (.call (m, scene) (List.replicate n (calm scene))) := by
  intro o ho
  rw [List.eq_of_mem_replicate ho]
  exact ⟨rfl, rfl⟩

theorem mem_bobDirectory {d : DeviceInfo} (h : d ∈ parseDeviceKeys Sharing.bobDirectory) : d = bobDevice := by
  have hall : ∀ d ∈ parseDeviceKeys Sharing.bobDirectory, d = bobDevice := by decide +kernel
  exact hall d h

theorem claimable_bobDevice : Claimable (plainVodozemac [] []) Sharing.bobClaim bobDevice :=
  ⟨"bob otk", by decide +kernel, rfl, rfl⟩

def ourSelf : Self := ⟨"@me:h", "ME"⟩

/-- A run in the encrypted room. -/
abbrev runHere (events : List Happens) : Caller copySuite :=
  sendRun (plainVodozemac [] []) "!r" ourSelf Sharing.roomStore events

/-- Bob is there from the first message on. -/
def togetherRun : List Happens :=
  [.boot (List.replicate 10 (calm bobThere)),
    .call (⟨"one", 1, 1⟩, bobThere) (List.replicate 20 (calm bobThere)),
    .call (⟨"two", 2, 2⟩, bobThere) (List.replicate 20 (calm bobThere))]

theorem succeeds_togetherRun : ∀ event ∈ togetherRun, Succeeds event := by
  intro event hevent
  simp only [togetherRun, List.mem_cons, List.not_mem_nil, or_false] at hevent
  rcases hevent with rfl | rfl | rfl
  · trivial
  · exact succeeds_calm _ _ _
  · exact succeeds_calm _ _ _

theorem fits_togetherRun :
    Fits (plainVodozemac [] []) "!r" ourSelf Sharing.roomStore togetherRun := by
  intro past k os future heq c s hc hs d hwanted
  have hbooted : ∃ c₀, (runHere [.boot (List.replicate 10 (calm bobThere))]).memory = some c₀ ∧
      c₀.outbound "!r" = none ∧ c₀.account.curve25519Key = "our curve" := by
    have hany : (runHere [.boot (List.replicate 10 (calm bobThere))]).memory.any
        (fun c => c.outbound "!r" = none ∧ c.account.curve25519Key = "our curve") = true := by decide +kernel
    simpa only [Option.any_eq_true, decide_eq_true_eq] using hany
  obtain ⟨c₀, hc₀, hnone, hours⟩ := hbooted
  rcases past with _ | ⟨e₁, _ | ⟨e₂, _ | ⟨e₃, past⟩⟩⟩
  · simp [togetherRun] at heq
  · -- the first call finds no session
    obtain rfl : e₁ = .boot (List.replicate 10 (calm bobThere)) := by
      simpa [togetherRun] using (List.cons.inj heq).1.symm
    rw [hc₀] at hc
    rw [← Option.some.inj hc, hnone] at hs
    cases hs
  · obtain ⟨rfl, rfl, rfl, rfl, rfl⟩ : e₁ = .boot (List.replicate 10 (calm bobThere)) ∧
        e₂ = .call (⟨"one", 1, 1⟩, bobThere) (List.replicate 20 (calm bobThere)) ∧
        k = (⟨"two", 2, 2⟩, bobThere) ∧ os = List.replicate 20 (calm bobThere) ∧ future = [] := by
      simpa [togetherRun, eq_comm, and_assoc] using heq
    refine ⟨[.boot (List.replicate 10 (calm bobThere))], (⟨"one", 1, 1⟩, bobThere),
      List.replicate 20 (calm bobThere), [], c₀, c, s, rfl, hc₀, hnone, hc, hs, rfl, hwanted.1, ?_, ?_⟩
    · rw [mem_bobDirectory hwanted.1, hours]
      decide
    · rw [mem_bobDirectory hwanted.1]
      exact Or.inr claimable_bobDevice
  · simp [togetherRun] at heq

theorem everyDevice_of_fits_together :
    (runHere togetherRun).world.server.length = 3 ∧
    EveryDevice (plainVodozemac [] []) "!r" ourSelf Sharing.roomStore togetherRun :=
  ⟨by decide +kernel, everyDevice_of_fits Sharing.roomStore togetherRun succeeds_togetherRun fits_togetherRun⟩

/-- Bob joins after the first message. -/
def beforeJoining : List Happens :=
  [.boot (List.replicate 10 (calm nobodyThere)),
    .call (⟨"one", 1, 1⟩, nobodyThere) (List.replicate 20 (calm nobodyThere))]

def afterJoining : Happens := .call (⟨"two", 2, 2⟩, bobThere) (List.replicate 20 (calm bobThere))

/-- A share without Bob, and two events, the last of them encrypted. -/
def sharedBefore : List Deed → Bool
  | [.shared messages, .posted _ _ _, .posted _ _ (.encrypted _)] => (messages.at bobDevice).isNone
  | _ => false

/-- **Nobody sends Bob the key**: the session is there, so the second call asks for no devices. -/
theorem not_everyDevice_joined :
    (∀ event ∈ beforeJoining ++ [afterJoining], Succeeds event) ∧
    ¬ EveryDevice (plainVodozemac [] []) "!r" ourSelf Sharing.roomStore
      (beforeJoining ++ [afterJoining]) := by
  refine ⟨fun event hevent => ?_, fun h => ?_⟩
  · simp only [beforeJoining, afterJoining, List.cons_append, List.nil_append, List.mem_cons,
      List.not_mem_nil, or_false] at hevent
    rcases hevent with rfl | rfl | rfl
    · trivial
    · exact succeeds_calm _ _ _
    · exact succeeds_calm _ _ _
  · have hrunning : (runHere beforeJoining).memory.any
        (fun c => c.account.curve25519Key = "our curve") = true := by decide +kernel
    simp only [Option.any_eq_true, decide_eq_true_eq] at hrunning
    obtain ⟨c, hc, hours⟩ := hrunning
    have hcovers : ∀ before room kind content after,
        (next (plainVodozemac [] []) "!r" ourSelf (runHere beforeJoining) afterJoining).world.server =
          before ++ .posted room kind (.encrypted content) :: after →
        (runHere beforeJoining).world.server <+: before → ∀ d, Wanted (plainVodozemac [] []) c bobThere d →
          HasKey (plainVodozemac [] []) "!r" ourSelf before content.sessionId d :=
      h beforeJoining afterJoining [] (by simp) c hc
    have hwanted : Wanted (plainVodozemac [] []) c bobThere bobDevice := by
      refine ⟨by decide +kernel, ?_, Or.inr claimable_bobDevice⟩
      rw [hours]
      decide
    have hlength : (runHere beforeJoining).world.server.length = 2 := by decide +kernel
    have hgrown : (runHere beforeJoining).world.server <+:
        (next (plainVodozemac [] []) "!r" ourSelf (runHere beforeJoining) afterJoining).world.server :=
      Process.step_keeps (R := fun w w' : World copySuite (List Deed) => w.server <+: w'.server)
        (fun w => List.prefix_refl _) (fun h h' => h.trans h') server_keeps _ afterJoining
    have hshape : sharedBefore (next (plainVodozemac [] []) "!r" ourSelf (runHere beforeJoining)
        afterJoining).world.server = true := by decide +kernel
    revert hcovers hgrown hshape
    generalize (runHere beforeJoining).world.server = found at hlength
    generalize (next (plainVodozemac [] []) "!r" ourSelf (runHere beforeJoining)
        afterJoining).world.server = left
    intro hcovers hgrown hshape
    unfold sharedBefore at hshape
    split at hshape
    · next messages room₁ kind₁ content₁ room₂ kind₂ content₂ =>
      rw [List.prefix_iff_eq_take, hlength] at hgrown
      obtain ⟨c', session, messages', hmem, -, -, m, -, hm⟩ :=
        hcovers [.shared messages, .posted room₁ kind₁ content₁] room₂ kind₂ content₂ [] rfl
          (by rw [hgrown]; exact List.prefix_refl _) bobDevice hwanted
      have hsame : messages' = messages := by simpa using hmem
      rw [hsame] at hm
      rw [hm] at hshape
      cases hshape
    · cases hshape

end Kmatrix.Daemon.Audience
