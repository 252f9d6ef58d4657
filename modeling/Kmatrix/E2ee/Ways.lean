import Kmatrix.E2ee.Batches

/-! # The way to a room key

A room key comes over Olm with the message `m` of `peer`. `Way` is how it can still be reached, from the
memory and from the disk: sessions that decrypt the message, or an event to come that starts the session.
An event of another session is no matter to it (`safe_elsewhere`), one of the session moves it on
(`safe_earlier`), and the message itself brings the key (`safe_target`), if the event is spared what would
lose it (`Spares`). -/

namespace Kmatrix.E2ee.Ways

open Kmatrix.Lib.Crash Kmatrix.Lib.Keyed Kmatrix.E2ee.Ratchets Kmatrix.E2ee.Json Kmatrix.E2ee.Effects
open Kmatrix.E2ee.Sessions Kmatrix.E2ee.Secrets Kmatrix.E2ee.ToDevice Kmatrix.E2ee.Stored
open Kmatrix.E2ee.Batches Kmatrix.Storage Kmatrix.Storage.Seal Kmatrix.Storage.Schema
open Kmatrix.Storage.Write (StoreOp)

/-! ### The condition -/

section Condition
variable {Q N : Type} (V : Vodozemac)

/-- A pickle of this kind is written. -/
def writes (kind : String) (e : Effect Q) : Bool :=
  match e with
  | .write (.putPickle kind' _ _ _) => kind' = kind
  | _ => false

/-- A write of this kind failed. -/
def Failed (kind : String) (trail : List (Effect Q × Outcome N)) : Prop :=
  ∃ y ∈ trail, writes kind y.1 = true ∧ y.2.fault ≠ none

/-- A write of this kind was carried out. -/
def Wrote (kind : String) (trail : List (Effect Q × Outcome N)) : Prop :=
  ∃ y ∈ trail, writes kind y.1 = true ∧ y.2.fault = none

/-- What is written to use the message up: its session, or, where it starts one, the account. -/
def usesUp (c : Crypto) (senderKey : String) (message : OlmMessage) : String :=
  if (trySessions message (c.olmSessions senderKey)).isNone then kindAccount else kindOlm

/-- **The condition on an event**, for the room key that comes with `m`. Where it starts the session of
`m`, neither the write of the session fails nor that of the account; where it brings the key, the write of
the key does not fail, and a process that is killed over it is not killed between the write that uses the
message up and this one. -/
def Spares (m : OlmMessage) (c : Crypto) (event : ToDeviceEvent) (killed : Bool)
    (trail : List (Effect Q × Outcome N)) : Prop :=
  ∀ x ∈ olmOf V c event, x.2.session = m.session →
    ((trySessions x.2 (c.olmSessions x.1)).isNone = true →
      ¬ Failed kindOlm trail ∧ ¬ Failed kindAccount trail) ∧
    (x.2.index = m.index →
      ¬ Failed kindMegolmIn trail ∧
        (killed = true → Wrote (usesUp c x.1 x.2) trail → Wrote kindMegolmIn trail))

instance {kind : String} {trail : List (Effect Q × Outcome N)} : Decidable (Failed kind trail) := by
  unfold Failed
  infer_instance

instance {kind : String} {trail : List (Effect Q × Outcome N)} : Decidable (Wrote kind trail) := by
  unfold Wrote
  infer_instance

instance {V : Vodozemac} {m : OlmMessage} {c : Crypto} {event : ToDeviceEvent} {killed : Bool}
    {trail : List (Effect Q × Outcome N)} : Decidable (Spares V m c event killed trail) := by
  unfold Spares
  infer_instance

end Condition

/-! ### The way to the key -/

/-- The sessions with a device in memory, under an id. -/
def inMemory (c : Crypto) (peer id : String) (t : OlmSession) : Prop :=
  t ∈ c.olmSessions peer ∧ t.id = id

/-- The session on disk. -/
def onDisk {S : CipherSuite} (st : Store S) (peer id : String) (t : OlmSession) : Prop :=
  storedOlm st peer id = some t

section Ways
variable (V : Vodozemac) (c₀ : Crypto) (peer : String) (m : OlmMessage)

/-- The event brings the message. -/
def Aims (event : ToDeviceEvent) : Prop :=
  ∃ x ∈ olmOf V c₀ event, x.2.session = m.session ∧ x.2.index = m.index

/-- There are sessions, and all of them decrypt the message. -/
def Live (held : OlmSession → Prop) : Prop := (∃ t, held t) ∧ ∀ t, held t → m.index ∉ t.used

/-- **The way to the room key**, when the events `done` are past and `rest` are to come, with the sessions
in memory and on disk: they decrypt the message, or an event that is to come starts the session. That event
brings the message itself, or there is no session before it. -/
inductive Way (account : Account) (held stored : OlmSession → Prop) (done rest : List ToDeviceEvent) : Prop
  | session (hheld : Live m held) (hstored : Live m stored) (haims : ∃ e ∈ rest, Aims V c₀ m e)
  | start (before : List ToDeviceEvent) (event : ToDeviceEvent) (after : List ToDeviceEvent)
      (hrest : rest = before ++ event :: after) (hkey : V.validKey peer = true)
      (hfirst : ∀ e ∈ done ++ before, ¬ Startable V c₀ account m.session e)
      (hstart : Startable V c₀ account m.session event)
      (haims : Aims V c₀ m event ∨
        ((∀ t, ¬ held t) ∧ (∀ t, ¬ stored t) ∧ ∃ e ∈ after, Aims V c₀ m e))

variable {V c₀ peer m} {account account' : Account} {held held' stored stored' : OlmSession → Prop}
  {done rest : List ToDeviceEvent} {event : ToDeviceEvent}

/-- At its end there is none. -/
theorem Way.not_nil (h : Way V c₀ peer m account held stored done []) : False := by
  rcases h with ⟨-, -, e, he, -⟩ | ⟨before, event, after, hrest, -⟩
  · exact absurd he List.not_mem_nil
  · simp at hrest

/-- **An event goes past.** -/
theorem Way.skip (h : Way V c₀ peer m account held stored done (event :: rest))
    (haims : Aims V c₀ m event → ¬ Live m held ∧
      (V.validKey peer = true → ¬ Startable V c₀ account m.session event))
    (hstart : V.validKey peer = true → Startable V c₀ account m.session event → ∃ t, held t) :
    Way V c₀ peer m account held stored (done ++ [event]) rest := by
  rcases h with ⟨hheld, hstored, e, he, haim⟩ | ⟨before, first, after, hrest, hkey, hfirst, hstart', haim⟩
  · rcases List.mem_cons.mp he with rfl | he
    · exact absurd hheld (haims haim).1
    · exact .session hheld hstored ⟨e, he, haim⟩
  · rcases before with _ | ⟨e, before⟩
    · obtain ⟨rfl, rfl⟩ := List.cons.inj hrest
      rcases haim with haim | ⟨habsent, -, -⟩
      · exact absurd hstart' ((haims haim).2 hkey)
      · obtain ⟨t, ht⟩ := hstart hkey hstart'
        exact absurd ht (habsent t)
    · obtain ⟨rfl, rfl⟩ := List.cons.inj hrest
      refine .start before first after rfl hkey ?_ hstart' haim
      rw [List.append_assoc]
      exact hfirst

/-- **An event starts the session**: it is the first, and nothing is held before it that the message was
decrypted with. -/
theorem Way.first (h : Way V c₀ peer m account held stored done (event :: rest))
    (hstart : Startable V c₀ account m.session event) :
    Live m held ∧ Live m stored ∧ (∃ e ∈ event :: rest, Aims V c₀ m e) ∨
    (V.validKey peer = true ∧ (∀ e ∈ done, ¬ Startable V c₀ account m.session e) ∧
      (Aims V c₀ m event ∨ ((∀ t, ¬ held t) ∧ ∃ e ∈ rest, Aims V c₀ m e))) := by
  rcases h with ⟨hheld, hstored, haims⟩ | ⟨before, first, after, hrest, hkey, hfirst, -, haims⟩
  · exact Or.inl ⟨hheld, hstored, haims⟩
  · rcases before with _ | ⟨e, before⟩
    · obtain ⟨rfl, rfl⟩ := List.cons.inj hrest
      rw [List.append_nil] at hfirst
      exact Or.inr ⟨hkey, hfirst, haims.imp_right fun h => ⟨h.1, h.2.2⟩⟩
    · obtain ⟨rfl, rfl⟩ := List.cons.inj hrest
      exact absurd hstart (hfirst _ (by simp))

/-- **The sessions change**, and the account. -/
theorem Way.move (h : Way V c₀ peer m account held stored done rest)
    (haccount : ∀ e ∈ done ++ rest, Startable V c₀ account' m.session e ↔
      Startable V c₀ account m.session e)
    (hlive : Live m held → Live m stored → Live m held' ∧ Live m stored')
    (habsent : (∀ t, ¬ held t) → (∀ t, ¬ stored t) → (∀ t, ¬ held' t) ∧ ∀ t, ¬ stored' t) :
    Way V c₀ peer m account' held' stored' done rest := by
  rcases h with ⟨hheld, hstored, haims⟩ | ⟨before, first, after, rfl, hkey, hfirst, hstart, haims⟩
  · obtain ⟨hheld', hstored'⟩ := hlive hheld hstored
    exact .session hheld' hstored' haims
  · refine .start before first after rfl hkey (fun e he => ?_)
      ((haccount first (by simp)).mpr hstart) ?_
    · rw [haccount e ?_]
      · exact hfirst e he
      · rw [← List.append_assoc]
        exact List.mem_append_left _ he
    · rcases haims with haims | ⟨hheld, hstored, haims⟩
      · exact Or.inl haims
      · obtain ⟨hheld', hstored'⟩ := habsent hheld hstored
        exact Or.inr ⟨hheld', hstored', haims⟩

/-- **What is lost with the process**: the memory, and how far the delivery has come. -/
theorem Way.restart (h : Way V c₀ peer m account held stored done rest) :
    Way V c₀ peer m account stored stored [] (done ++ rest) := by
  rcases h with ⟨-, hstored, e, he, haim⟩ | ⟨before, first, after, rfl, hkey, hfirst, hstart, haims⟩
  · exact .session hstored hstored ⟨e, List.mem_append_right _ he, haim⟩
  · refine .start (done ++ before) first after (List.append_assoc done before _).symm hkey hfirst hstart ?_
    rcases haims with haims | ⟨-, hstored, haims⟩
    · exact Or.inl haims
    · exact Or.inr ⟨hstored, hstored, haims⟩

end Ways

section Underway
variable {S : CipherSuite} {Q Ω N : Type} {R : Q → Type} {serve : N → Ω → (q : Q) → R q × Ω}
  (V : Vodozemac) (c₀ : Crypto) (peer : String) (m : OlmMessage)

/-- **The way from the disk**, for a start and a delivery from the beginning. -/
def OnWay (batch : List ToDeviceEvent) (st : Store S) : Prop :=
  ∃ a, storedAccount st = some a ∧ Way V c₀ peer m a (onDisk st peer m.session)
    (onDisk st peer m.session) [] batch

/-- **The way in the middle of a delivery.** The accounts in memory and on disk hold the same one-time keys
that matter. -/
def Underway (done rest : List ToDeviceEvent) (st : Store S) (c : Crypto) : Prop :=
  (∃ a, storedAccount st = some a ∧ ∀ e ∈ done ++ rest, Startable V c₀ a m.session e ↔
    Startable V c₀ c.account m.session e) ∧
  Way V c₀ peer m c.account (inMemory c peer m.session) (onDisk st peer m.session) done rest

variable {V c₀ peer m} {w : World S Ω} {st st' : Store S} {c c' : Crypto}
  {done rest batch : List ToDeviceEvent} {event : ToDeviceEvent} {s : InboundGroupSession}
  {tr : List (Effect Q × Outcome N)}

theorem Underway.onWay (h : Underway V c₀ peer m done rest st c) : OnWay V c₀ peer m (done ++ rest) st := by
  obtain ⟨⟨a, ha, hstart⟩, hway⟩ := h
  refine ⟨a, ha, hway.restart.move hstart (fun hs _ => ⟨hs, hs⟩) fun hs _ => ⟨hs, hs⟩⟩

/-- Nothing of it changes, but for accounts that hold the same one-time keys. -/
theorem Underway.move (h : Underway V c₀ peer m done rest st c)
    (haccount : ∃ a, storedAccount st' = some a ∧ ∀ e ∈ done ++ rest,
      Startable V c₀ a m.session e ↔ Startable V c₀ c.account m.session e)
    (hc : ∀ e ∈ done ++ rest, Startable V c₀ c'.account m.session e ↔
      Startable V c₀ c.account m.session e)
    (hheld : ∀ t, inMemory c' peer m.session t ↔ inMemory c peer m.session t)
    (hstored : ∀ t, onDisk st' peer m.session t ↔ onDisk st peer m.session t) :
    Underway V c₀ peer m done rest st' c' := by
  have hheld' : inMemory c' peer m.session = inMemory c peer m.session :=
    funext fun t => propext (hheld t)
  have hdisk' : onDisk st' peer m.session = onDisk st peer m.session :=
    funext fun t => propext (hstored t)
  obtain ⟨a, ha, hstart⟩ := haccount
  refine ⟨⟨a, ha, fun e he => (hstart e he).trans (hc e he).symm⟩, ?_⟩
  rw [hheld', hdisk']
  exact h.2.move hc (fun hs ht => ⟨hs, ht⟩) fun hs ht => ⟨hs, ht⟩

/-- A room key is no matter of Olm. -/
theorem Underway.putInbound (h : Underway V c₀ peer m done rest st c) (rng : Salts) (id room : String)
    (pickle : Pickle) {inbound : String → Option InboundGroupSession} :
    Underway V c₀ peer m done rest ((StoreOp.putPickle kindMegolmIn id room pickle).exec rng st)
      { c with inbound } := by
  obtain ⟨a, ha, hstart⟩ := h.1
  refine h.move ⟨a, ?_, hstart⟩ (fun _ _ => Iff.rfl) (fun _ => Iff.rfl) fun t => ?_
  · rw [storedAccount_put_of_ne (by decide)]
    exact ha
  · unfold onDisk
    rw [storedOlm_put_of_ne (by decide)]

/-- **The text of a message**, whatever is in it. -/
theorem safe_text {text : String} (h : Underway V c₀ peer m (done ++ [event]) rest w.disk c)
    (sender : String) :
    Safe (recording (exec serve)) (fun x => OnWay V c₀ peer m (done ++ event :: rest) x.1.disk)
      (fun r x => Underway V c₀ peer m (done ++ [event]) rest x.1.disk r.2)
      ((handleOlmPlaintext V sender text : Code S R Crypto (Option Secret)).run c) (w, tr) := by
  have hd : OnWay V c₀ peer m (done ++ event :: rest) w.disk := by
    have honway := h.onWay
    rw [List.append_assoc] at honway
    exact honway
  refine safe_handleOlmPlaintext_rule hd (fun _ _ => h) fun s' room _ => ⟨fun _ _ _ => h, fun o _ => ?_⟩
  exact h.putInbound o.salts _ _ _

theorem holds_remove {account : Account} {key key' : String} (h : key' ≠ key) :
    (account.removeOneTimeKey key).Holds key' ↔ account.Holds key' := by
  unfold Account.Holds Account.removeOneTimeKey
  simp only [List.mem_filter, decide_eq_true_eq]
  constructor
  · rintro ⟨k, ⟨hk, -⟩, rfl⟩
    exact ⟨k, hk, rfl⟩
  · rintro ⟨k, hk, rfl⟩
    exact ⟨k, ⟨hk, h⟩, rfl⟩

/-- **The one-time key of another session** starts none of ours. -/
theorem startable_remove (hgenuine : Genuine V c₀ batch) {x : String × OlmMessage}
    (hx : x ∈ messages V c₀ batch) (hsession : x.2.session ≠ m.session) {key : String}
    (hkey : x.2.preKey = some key) (account : Account) {e : ToDeviceEvent} (he : e ∈ batch) :
    Startable V c₀ (account.removeOneTimeKey key) m.session e ↔ Startable V c₀ account m.session e := by
  have hne : ∀ y ∈ olmOf V c₀ e, y.2.session = m.session → ∀ key' ∈ y.2.preKey, key' ≠ key := by
    rintro y hy hym key' hkey' rfl
    exact hsession ((hgenuine.oneTime x hx y (mem_messages he hy) key' hkey hkey').trans hym)
  constructor
  · rintro ⟨y, hy, hym, key', hkey', hholds⟩
    exact ⟨y, hy, hym, key', hkey', (holds_remove (hne y hy hym key' hkey')).mp hholds⟩
  · rintro ⟨y, hy, hym, key', hkey', hholds⟩
    exact ⟨y, hy, hym, key', hkey', (holds_remove (hne y hy hym key' hkey')).mpr hholds⟩

/-- The sessions of another id are as they were. -/
theorem inMemory_of_ne {sender : String} {l r : List OlmSession} {t₀ t : OlmSession}
    (hold : c.olmSessions sender = l ++ t₀ :: r) (hid : t.id = t₀.id) (hne : t.id ≠ m.session)
    (t' : OlmSession) : inMemory (Crypto.withOlm c sender (l ++ t :: r)) peer m.session t' ↔
      inMemory c peer m.session t' := by
  unfold inMemory Crypto.withOlm
  by_cases hpeer : peer = sender
  · subst hpeer
    simp only [Function.update_self, hold, List.mem_append, List.mem_cons]
    constructor
    · rintro ⟨h | rfl | h, ht'⟩
      · exact ⟨Or.inl h, ht'⟩
      · exact absurd ht' hne
      · exact ⟨Or.inr (Or.inr h), ht'⟩
    · rintro ⟨h | rfl | h, ht'⟩
      · exact ⟨Or.inl h, ht'⟩
      · exact absurd (hid.trans ht') hne
      · exact ⟨Or.inr (Or.inr h), ht'⟩
  · simp only [Function.update_of_ne hpeer]

theorem inMemory_append_of_ne {sender : String} {t : OlmSession} (hne : t.id ≠ m.session)
    (t' : OlmSession) :
    inMemory (Crypto.withOlm c sender (c.olmSessions sender ++ [t])) peer m.session t' ↔
      inMemory c peer m.session t' := by
  unfold inMemory Crypto.withOlm
  by_cases hpeer : peer = sender
  · subst hpeer
    simp only [Function.update_self, List.mem_append, List.mem_singleton]
    constructor
    · rintro ⟨h | rfl, ht'⟩
      · exact ⟨h, ht'⟩
      · exact absurd ht' hne
    · rintro ⟨h, ht'⟩
      exact ⟨Or.inl h, ht'⟩
  · simp only [Function.update_of_ne hpeer]

theorem onDisk_put_of_ne (hkey : storedKey st = some c.pickleKey) {sender : String} {t : OlmSession}
    (hne : t.id ≠ m.session) (rng : Salts) (t' : OlmSession) :
    onDisk ((storingOlm c sender t).exec rng st) peer m.session t' ↔
      onDisk st peer m.session t' := by
  unfold onDisk
  rw [storedOlm_put hkey, if_neg (Ne.symm hne)]

end Underway

section Elsewhere
variable {S : CipherSuite} {Q Ω N : Type} {R : Q → Type} {serve : N → Ω → (q : Q) → R q × Ω}
  {V : Vodozemac} {c₀ c : Crypto} {peer sender : String} {m m' : OlmMessage} {w : World S Ω}
  {done rest : List ToDeviceEvent} {event : ToDeviceEvent} {tr : List (Effect Q × Outcome N)}

theorem aims_iff (hm : olmOf V c₀ event = some (sender, m')) :
    Aims V c₀ m event ↔ m'.session = m.session ∧ m'.index = m.index := by
  unfold Aims
  rw [hm]
  simp

theorem startable_iff (hm : olmOf V c₀ event = some (sender, m')) (account : Account) :
    Startable V c₀ account m.session event ↔
      m'.session = m.session ∧ ∃ key, m'.preKey = some key ∧ account.Holds key := by
  unfold Startable
  rw [hm]
  simp

/-- A message that no session was made of starts none. -/
theorem not_startable (hm : olmOf V c₀ event = some (sender, m')) {account : Account}
    (hnone : account.createInboundSession m' = none) : ¬ Startable V c₀ account m.session event := by
  intro hstartable
  obtain ⟨-, key, hkey, hholds⟩ := (startable_iff hm account).mp hstartable
  rw [createInboundSession_eq_some.mpr ⟨key, hkey, hholds, rfl, rfl, rfl⟩] at hnone
  cases hnone

/-- **An event of another session** is no matter, whatever fails. -/
theorem safe_elsewhere (hgenuine : Genuine V c₀ (done ++ event :: rest)) (hbase : Base c₀ w.disk c)
    (hway : Underway V c₀ peer m done (event :: rest) w.disk c)
    (hm : ∀ x ∈ olmOf V c event, x.2.session ≠ m.session) :
    Safe (recording (exec serve)) (fun x => OnWay V c₀ peer m (done ++ event :: rest) x.1.disk)
      (fun r x => Underway V c₀ peer m (done ++ [event]) rest x.1.disk r.2)
      ((handleEvent V event : Code S R Crypto (List Secret)).run c) (w, tr) := by
  have hlist : done ++ [event] ++ rest = done ++ event :: rest := by simp
  -- the event is past, and nothing has happened yet
  have hskip : Underway V c₀ peer m (done ++ [event]) rest w.disk c := by
    obtain ⟨⟨a, ha, hstart⟩, hw⟩ := hway
    rw [hbase.device.olmOf] at hm
    refine ⟨⟨a, ha, fun e he => hstart e (by rwa [hlist] at he)⟩, hw.skip ?_ ?_⟩
    · rintro ⟨x, hx, hid, -⟩
      exact absurd hid (hm x hx)
    · rintro - ⟨x, hx, hid, -⟩
      exact absurd hid (hm x hx)
  refine safe_handleEvent_rule (T := fun c' x => Underway V c₀ peer m (done ++ [event]) rest x.1.disk c')
    (fun _ => hskip) fun sender m' hm' => ?_
  have hne : m'.session ≠ m.session := hm (sender, m') hm'
  have hx : (sender, m') ∈ messages V c₀ (done ++ event :: rest) := by
    rw [hbase.device.olmOf] at hm'
    exact mem_messages (by simp) hm'
  obtain ⟨a, ha, hstart⟩ := hskip.1
  refine safe_decryptOlm_rule hway.onWay (fun t text sessions htry => ?_) (fun _ _ _ => hskip)
    fun account t text _ _ hnew => ?_
  · obtain ⟨l, t₀, r, hold, rfl, hdec⟩ := trySessions_split htry
    obtain ⟨hid, -, ht, -⟩ := decrypt_eq_some.mp hdec
    have hid' : t.id = t₀.id := by rw [ht]
    have htm : t.id ≠ m.session := by rwa [hid', ← hid]
    have hheld : ∀ t', inMemory (Crypto.withOlm c sender (l ++ t :: r)) peer m.session t' ↔
        inMemory c peer m.session t' := inMemory_of_ne hold hid' htm
    have hmoved : ∀ st' : Store S, storedAccount st' = some a →
        (∀ t', onDisk st' peer m.session t' ↔ onDisk w.disk peer m.session t') →
        Underway V c₀ peer m (done ++ [event]) rest st' (Crypto.withOlm c sender (l ++ t :: r)) :=
      fun st' ha' hst' => hskip.move ⟨a, ha', hstart⟩ (fun _ _ => Iff.rfl) hheld hst'
    refine ⟨fun o _ => ?_, fun o _ => ?_⟩
    · exact safe_text (hmoved w.disk ha fun _ => Iff.rfl) sender
    · refine safe_text (hmoved _ ?_ (onDisk_put_of_ne hbase.key htm o.salts)) sender
      rw [storedAccount_put_of_ne (by decide)]
      exact ha
  · obtain ⟨key, hkey, -, rfl, rfl, -⟩ := createInboundSession_eq_some.mp hnew
    have hremove : ∀ e ∈ done ++ [event] ++ rest,
        Startable V c₀ (c.account.removeOneTimeKey key) m.session e ↔
          Startable V c₀ c.account m.session e := by
      intro e he
      rw [hlist] at he
      exact startable_remove hgenuine hx hne hkey c.account he
    refine ⟨fun o e _ => ?_, fun o _ => ?_⟩
    · exact hskip.move ⟨a, ha, hstart⟩ hremove (fun _ => Iff.rfl) fun _ => Iff.rfl
    · have hdisk : ∀ t, onDisk (written w (storingOlm c sender ⟨m'.session, [m'.index], 0, none⟩) o).disk
          peer m.session t ↔ onDisk w.disk peer m.session t :=
        onDisk_put_of_ne hbase.key hne o.salts
      have ha₁ : storedAccount (written w (storingOlm c sender ⟨m'.session, [m'.index], 0, none⟩) o).disk =
          some a := by
        rw [storedAccount_put_of_ne (by decide)]
        exact ha
      refine ⟨?_, fun o' e _ => ?_, fun o' _ => ?_⟩
      · have hmoved : Underway V c₀ peer m (done ++ [event]) rest
            (written w (storingOlm c sender ⟨m'.session, [m'.index], 0, none⟩) o).disk c :=
          hskip.move ⟨a, ha₁, hstart⟩ (fun _ _ => Iff.rfl) (fun _ => Iff.rfl) hdisk
        have honway := hmoved.onWay
        rw [hlist] at honway
        exact honway
      · exact hskip.move ⟨a, ha₁, hstart⟩ hremove (fun _ => Iff.rfl) hdisk
      · have hkey₁ := (hbase.putOlm o.salts sender ⟨m'.session, [m'.index], 0, none⟩).key
        have ha₂ := storedAccount_put hkey₁ o'.salts (c.account.removeOneTimeKey key)
        have hmoved : Underway V c₀ peer m (done ++ [event]) rest
            (written (written w (storingOlm c sender ⟨m'.session, [m'.index], 0, none⟩) o)
              (storingAccount c (c.account.removeOneTimeKey key)) o').disk
            (Crypto.withOlm { c with account := c.account.removeOneTimeKey key } sender
              (c.olmSessions sender ++ [⟨m'.session, [m'.index], 0, none⟩])) := by
          refine hskip.move ⟨_, ha₂, hremove⟩ hremove (inMemory_append_of_ne hne) fun t => ?_
          refine Iff.trans ?_ (hdisk t)
          unfold onDisk
          rw [storedOlm_put_of_ne (by decide)]
        exact safe_text hmoved sender

end Elsewhere

/-! ### An event of the session -/

section Session
variable {S : CipherSuite} {Q Ω N : Type} {R : Q → Type} {serve : N → Ω → (q : Q) → R q × Ω}
  {V : Vodozemac} {c₀ c : Crypto} {peer sender : String} {m m' : OlmMessage} {w : World S Ω}
  {done rest : List ToDeviceEvent} {event : ToDeviceEvent} {tr : List (Effect Q × Outcome N)}
  {s : InboundGroupSession}

theorem failed_concat {kind id extra : String} {pickle : Pickle} {o : Outcome N} (ho : o.fault ≠ none) :
    Failed kind (tr ++ [((.write (.putPickle kind id extra pickle) : Effect Q), o)]) :=
  ⟨_, List.mem_append_right _ (List.mem_singleton_self _), by simp [writes], ho⟩

theorem wrote_concat {kind id extra : String} {pickle : Pickle} {o : Outcome N} (ho : o.fault = none) :
    Wrote kind (tr ++ [((.write (.putPickle kind id extra pickle) : Effect Q), o)]) :=
  ⟨_, List.mem_append_right _ (List.mem_singleton_self _), by simp [writes], ho⟩

theorem not_wrote_concat {kind kind' id extra : String} {pickle : Pickle} {o : Outcome N}
    (h : ¬ Wrote kind' tr) (hne : kind ≠ kind') :
    ¬ Wrote kind' (tr ++ [((.write (.putPickle kind id extra pickle) : Effect Q), o)]) := by
  rintro ⟨y, hy, hwrites, ho⟩
  rcases List.mem_append.mp hy with hy | hy
  · exact h ⟨y, hy, hwrites, ho⟩
  · rw [List.mem_singleton.mp hy] at hwrites
    simp [writes, hne] at hwrites

theorem not_wrote_nil {kind : String} : ¬ Wrote kind ([] : List (Effect Q × Outcome N)) := by
  simp [Wrote]

/-- A session of the id stands where one of the id stood. -/
theorem live_withOlm {l r : List OlmSession} {t₀ t : OlmSession} (hold : c.olmSessions peer = l ++ t₀ :: r)
    (hid : t.id = t₀.id) (ht₀ : t₀.id = m.session) (hused : m.index ∉ t₀.used → m.index ∉ t.used)
    (h : Live m (inMemory c peer m.session)) :
    Live m (inMemory (Crypto.withOlm c peer (l ++ t :: r)) peer m.session) := by
  have hnew : (Crypto.withOlm c peer (l ++ t :: r)).olmSessions peer = l ++ t :: r :=
    Function.update_self _ _ _
  unfold inMemory at h ⊢
  rw [hnew]
  rw [hold] at h
  refine ⟨⟨t, by simp, hid.trans ht₀⟩, ?_⟩
  rintro t' ⟨ht', hid'⟩
  simp only [List.mem_append, List.mem_cons] at ht'
  rcases ht' with ht' | rfl | ht'
  · exact h.2 t' ⟨by simp [ht'], hid'⟩
  · exact hused (h.2 t₀ ⟨by simp, ht₀⟩)
  · exact h.2 t' ⟨by simp [ht'], hid'⟩

/-- A new session, beside those that decrypt the message. -/
theorem live_append {t : OlmSession} (hid : t.id = m.session) (hused : m.index ∉ t.used)
    (h : ∀ t', inMemory c peer m.session t' → m.index ∉ t'.used) :
    Live m (inMemory (Crypto.withOlm c peer (c.olmSessions peer ++ [t])) peer m.session) := by
  have hnew : (Crypto.withOlm c peer (c.olmSessions peer ++ [t])).olmSessions peer =
      c.olmSessions peer ++ [t] := Function.update_self _ _ _
  unfold inMemory
  rw [hnew]
  refine ⟨⟨t, by simp, hid⟩, ?_⟩
  rintro t' ⟨ht', hid'⟩
  rcases List.mem_append.mp ht' with ht' | ht'
  · exact h t' ⟨ht', hid'⟩
  · rw [List.mem_singleton.mp ht']
    exact hused

/-- The session on disk is the one that was written. -/
theorem live_onDisk {st : Store S} (hkey : storedKey st = some c.pickleKey) (peer : String) {t : OlmSession}
    (hid : t.id = m.session) (hused : m.index ∉ t.used) (rng : Salts) :
    Live m (onDisk ((storingOlm c peer t).exec rng st) peer m.session) := by
  have hstored : storedOlm ((storingOlm c peer t).exec rng st) peer m.session = some t := by
    rw [storedOlm_put hkey, if_pos hid.symm, if_pos rfl]
  unfold onDisk
  rw [hstored]
  refine ⟨⟨t, rfl⟩, fun t' ht' => ?_⟩
  rw [← Option.some.inj ht']
  exact hused

/-- **What no session decrypts** has been used already, or there is no session. -/
theorem not_live (htry : trySessions m' (c.olmSessions peer) = none) (hid : m'.session = m.session)
    (hindex : m'.index = m.index) : ¬ Live m (inMemory c peer m.session) := by
  rintro ⟨⟨t, ht⟩, hunused⟩
  have hused := trySessions_none.mp htry t ht.1 (hid.trans ht.2.symm)
  rw [hindex] at hused
  exact hunused t ht hused

/-- **The event that starts the session** is spared: the session and the account are written. -/
theorem Spares.kept {killed : Bool} {trail : List (Effect Q × Outcome N)} (h : Spares V m c event killed trail)
    (hm : olmOf V c event = some (peer, m')) (hid : m'.session = m.session)
    (htry : trySessions m' (c.olmSessions peer) = none) :
    ¬ Failed kindOlm trail ∧ ¬ Failed kindAccount trail := by
  refine (h (peer, m') hm hid).1 ?_
  rw [htry]
  rfl

/-- **Another message of the session** moves it on, or starts it. -/
theorem safe_earlier (hbase : Base c₀ w.disk c) (hway : Underway V c₀ peer m done (event :: rest) w.disk c)
    (hm : olmOf V c event = some (peer, m')) (hid : m'.session = m.session) (hindex : m'.index ≠ m.index) :
    Safe (recording (exec serve))
      (fun x => Spares V m c event true x.2 → OnWay V c₀ peer m (done ++ event :: rest) x.1.disk)
      (fun r x => Spares V m c event false x.2 → Underway V c₀ peer m (done ++ [event]) rest x.1.disk r.2)
      ((handleEvent V event : Code S R Crypto (List Secret)).run c) (w, []) := by
  have hm₀ : olmOf V c₀ event = some (peer, m') := by rw [← hbase.device.olmOf, hm]
  have hlist : done ++ [event] ++ rest = done ++ event :: rest := by simp
  have hnotaims : ¬ Aims V c₀ m event := fun h => hindex ((aims_iff hm₀).mp h).2
  obtain ⟨⟨a, ha, hstart⟩, hw⟩ := hway
  have hway : Underway V c₀ peer m done (event :: rest) w.disk c := ⟨⟨a, ha, hstart⟩, hw⟩
  have hstart' : ∀ e ∈ done ++ [event] ++ rest,
      Startable V c₀ a m.session e ↔ Startable V c₀ c.account m.session e := by rwa [hlist]
  refine safe_handleEvent_rule (T := fun c' x => Spares V m c event false x.2 →
    Underway V c₀ peer m (done ++ [event]) rest x.1.disk c') (fun hnone => ?_) fun sender m'' hm'' => ?_
  · rw [hm] at hnone
    cases hnone
  obtain ⟨rfl, rfl⟩ : peer = sender ∧ m' = m'' := Prod.mk.inj (Option.some.inj (hm.symm.trans hm''))
  refine safe_decryptOlm_rule (fun _ => hway.onWay) (fun t text sessions htry => ?_)
    (fun htry hnone e _ => ?_) fun account t text htry hvalid hnew => ?_
  · -- a session decrypts it
    obtain ⟨l, t₀, r, hold, rfl, hdec⟩ := trySessions_split htry
    obtain ⟨hid₀, -, rfl, -⟩ := decrypt_eq_some.mp hdec
    have ht₀ : t₀.id = m.session := hid₀.symm.trans hid
    have hheld₀ : inMemory c peer m.session t₀ := ⟨by simp [hold], ht₀⟩
    have hused : m.index ∉ t₀.used → m.index ∉ m'.index :: t₀.used := by
      intro hnew
      simp only [List.mem_cons, not_or]
      exact ⟨Ne.symm hindex, hnew⟩
    have hskip := hw.skip (fun haims => absurd haims hnotaims) fun _ _ => ⟨t₀, hheld₀⟩
    have hmoved : ∀ st' : Store S, storedAccount st' = some a →
        (Live m (inMemory c peer m.session) → Live m (onDisk w.disk peer m.session) →
          Live m (onDisk st' peer m.session)) →
        Underway V c₀ peer m (done ++ [event]) rest st' (Crypto.withOlm c peer
          (l ++ { t₀ with used := m'.index :: t₀.used, preKey := none } :: r)) := by
      intro st' ha' hst'
      refine ⟨⟨a, ha', hstart'⟩, hskip.move (fun _ _ => Iff.rfl) (fun hheld hstored => ⟨?_, ?_⟩) ?_⟩
      · exact live_withOlm (t := { t₀ with used := m'.index :: t₀.used, preKey := none }) hold rfl ht₀
          hused hheld
      · exact hst' hheld hstored
      · exact fun habsent => absurd hheld₀ (habsent t₀)
    refine ⟨fun o _ => ?_, fun o _ => ?_⟩
    · exact (safe_text (hmoved w.disk ha fun _ hstored => hstored) peer).weaken (fun _ h _ => h)
        fun _ _ h _ => h
    · refine (safe_text (hmoved _ ?_ fun hheld _ => ?_) peer).weaken (fun _ h _ => h) fun _ _ h _ => h
      · rw [storedAccount_put_of_ne (by decide)]
        exact ha
      · exact live_onDisk (t := { t₀ with used := m'.index :: t₀.used, preKey := none }) hbase.key peer ht₀
          (hused (hheld.2 t₀ hheld₀)) o.salts
  · -- nothing decrypts it, and nothing starts with it
    refine ⟨⟨a, ha, hstart'⟩, hw.skip (fun haims => absurd haims hnotaims) fun hvalid hstartable => ?_⟩
    exact absurd hstartable (not_startable hm₀ (hnone hvalid))
  · -- it starts the session
    obtain ⟨key, hkey, hholds, rfl, rfl, rfl⟩ := createInboundSession_eq_some.mp hnew
    have hstartable : Startable V c₀ c.account m.session event :=
      (startable_iff hm₀ _).mpr ⟨hid, key, hkey, hholds⟩
    have hused : m.index ∉ [m'.index] := by
      rw [List.mem_singleton]
      exact Ne.symm hindex
    obtain ⟨hlive, haims⟩ : (∀ t, inMemory c peer m.session t → m.index ∉ t.used) ∧
        ∃ e ∈ rest, Aims V c₀ m e := by
      rcases hw.first hstartable with ⟨hheld, -, e, he, haim⟩ | ⟨-, -, haim | ⟨habsent, haims⟩⟩
      · rcases List.mem_cons.mp he with rfl | he
        · exact absurd haim hnotaims
        · exact ⟨hheld.2, e, he, haim⟩
      · exact absurd haim hnotaims
      · exact ⟨fun t ht => absurd ht (habsent t), haims⟩
    refine ⟨fun o e ho hspares => ?_, fun o _ => ⟨fun _ => ?_, fun o' e ho' hspares => ?_, fun o' _ => ?_⟩⟩
    · exact absurd (failed_concat ho) (hspares.kept hm hid htry).1
    · refine ⟨a, ?_, ?_⟩
      · rw [storedAccount_put_of_ne (by decide)]
        exact ha
      · obtain ⟨e, he, haim⟩ := haims
        have hdisk := live_onDisk (t := ⟨m'.session, [m'.index], 0, none⟩) hbase.key peer hid
          hused o.salts
        exact .session hdisk hdisk ⟨e, by simp [he], haim⟩
    · exact absurd (failed_concat ho') (hspares.kept hm hid htry).2
    · have hkey₁ := (hbase.putOlm o.salts peer ⟨m'.session, [m'.index], 0, none⟩).key
      have ha₂ := storedAccount_put hkey₁ o'.salts (c.account.removeOneTimeKey key)
      have hdisk : Live m (onDisk (written (written w
          (storingOlm c peer ⟨m'.session, [m'.index], 0, none⟩) o)
          (storingAccount c (c.account.removeOneTimeKey key)) o').disk peer m.session) := by
        have hput := live_onDisk (t := ⟨m'.session, [m'.index], 0, none⟩) hbase.key peer hid
          hused o.salts
        unfold onDisk at hput ⊢
        rw [storedOlm_put_of_ne (by decide)]
        exact hput
      have hmoved : Underway V c₀ peer m (done ++ [event]) rest (written (written w
          (storingOlm c peer ⟨m'.session, [m'.index], 0, none⟩) o)
          (storingAccount c (c.account.removeOneTimeKey key)) o').disk
          (Crypto.withOlm { c with account := c.account.removeOneTimeKey key } peer
            (c.olmSessions peer ++ [⟨m'.session, [m'.index], 0, none⟩])) :=
        ⟨⟨_, ha₂, fun _ _ => Iff.rfl⟩, .session (live_append hid hused hlive) hdisk haims⟩
      exact (safe_text hmoved peer).weaken (fun _ h _ => h) fun _ _ h _ => h

end Session

section Target
variable {S : CipherSuite} {Q Ω N : Type} {R : Q → Type} {serve : N → Ω → (q : Q) → R q × Ω}
  {V : Vodozemac} {c₀ c : Crypto} {peer : String} {m m' : OlmMessage} {w : World S Ω}
  {done rest batch : List ToDeviceEvent} {event : ToDeviceEvent} {tr : List (Effect Q × Outcome N)}
  {s : InboundGroupSession}

/-- **The room key is in the text**: it is written, if the event is spared. -/
theorem safe_key (hbase : Base c₀ w.disk c) (hm : olmOf V c₀ event = some (peer, m')) (hmem : event ∈ batch)
    (hkey : shared V c₀ peer m'.plaintext = some s) {D : Store S → Prop}
    {Spared : Bool → List (Effect Q × Outcome N) → Prop}
    (hspared : ∀ killed trail, Spared killed trail → ¬ Failed kindMegolmIn trail)
    (hD : Spared true tr → D w.disk) :
    Safe (recording (exec serve)) (fun x => Spared true x.2 → D x.1.disk)
      (fun _ x => Spared false x.2 → Arrived V c₀ batch s x.1.disk)
      ((handleOlmPlaintext V peer m'.plaintext : Code S R Crypto (Option Secret)).run c) (w, tr) := by
  have hshared : shared V c peer m'.plaintext = some s := hbase.device.shared hkey
  refine safe_handleOlmPlaintext_rule hD (fun hnone => ?_) fun s' room hs' => ⟨fun o e ho h => ?_,
    fun o _ _ => ?_⟩
  · rw [hshared] at hnone
    cases hnone
  · exact absurd (failed_concat ho) (hspared _ _ h)
  · obtain rfl : s = s' := Option.some.inj (hshared.symm.trans hs')
    exact arrived_storing hbase (mem_messages hmem hm) hshared o.salts room (Or.inl rfl)

/-- **The message itself** brings the key, or goes past before its session starts. -/
theorem safe_target (hbase : Base c₀ w.disk c) (hway : Underway V c₀ peer m done (event :: rest) w.disk c)
    (hm : olmOf V c event = some (peer, m')) (hid : m'.session = m.session) (hindex : m'.index = m.index)
    (hkey : shared V c₀ peer m'.plaintext = some s) :
    Safe (recording (exec serve))
      (fun x => Spares V m c event true x.2 → OnWay V c₀ peer m (done ++ event :: rest) x.1.disk)
      (fun r x => Spares V m c event false x.2 → Arrived V c₀ (done ++ event :: rest) s x.1.disk ∨
        Underway V c₀ peer m (done ++ [event]) rest x.1.disk r.2)
      ((handleEvent V event : Code S R Crypto (List Secret)).run c) (w, []) := by
  have hm₀ : olmOf V c₀ event = some (peer, m') := by rw [← hbase.device.olmOf, hm]
  have hmem : event ∈ done ++ event :: rest := by simp
  have haims : Aims V c₀ m event := (aims_iff hm₀).mpr ⟨hid, hindex⟩
  have hspared : ∀ (killed : Bool) (trail : List (Effect Q × Outcome N)),
      Spares V m c event killed trail → ¬ Failed kindMegolmIn trail :=
    fun killed trail h => ((h (peer, m') hm hid).2 hindex).1
  have hused : ∀ {trail : List (Effect Q × Outcome N)}, Spares V m c event true trail →
      Wrote (usesUp c peer m') trail → Wrote kindMegolmIn trail :=
    fun h => ((h (peer, m') hm hid).2 hindex).2 rfl
  have honway := hway.onWay
  obtain ⟨⟨a, ha, hstart⟩, hw⟩ := hway
  refine safe_handleEvent_rule (T := fun c' x => Spares V m c event false x.2 →
    Arrived V c₀ (done ++ event :: rest) s x.1.disk ∨
      Underway V c₀ peer m (done ++ [event]) rest x.1.disk c') (fun hnone => ?_) fun sender m'' hm'' => ?_
  · rw [hm] at hnone
    cases hnone
  obtain ⟨rfl, rfl⟩ : peer = sender ∧ m' = m'' := Prod.mk.inj (Option.some.inj (hm.symm.trans hm''))
  refine safe_decryptOlm_rule (fun _ => honway) (fun t text sessions htry => ?_)
    (fun htry hnone e _ => Or.inr ?_) fun account t text htry hvalid hnew => ?_
  · -- a session decrypts it
    obtain ⟨l, t₀, r, -, -, hdec⟩ := trySessions_split htry
    obtain ⟨-, -, -, rfl⟩ := decrypt_eq_some.mp hdec
    have hby : usesUp c peer m' = kindOlm := by
      unfold usesUp
      rw [htry]
      rfl
    refine ⟨fun o _ => ?_, fun o ho => ?_⟩
    · have hbase' : Base c₀ w.disk (Crypto.withOlm c peer sessions) := hbase.congr rfl rfl rfl rfl
      exact (safe_key hbase' hm₀ hmem hkey hspared fun _ => honway).weaken (fun _ h => h)
        fun _ _ h hspares => Or.inl (h hspares)
    · have hbase' : Base c₀ (written w (storingOlm c peer t) o).disk (Crypto.withOlm c peer sessions) :=
        (hbase.putOlm o.salts peer t).congr rfl rfl rfl rfl
      refine (safe_key hbase' hm₀ hmem hkey hspared fun hspares => ?_).weaken (fun _ h => h)
        fun _ _ h hspares => Or.inl (h hspares)
      rw [hby] at hused
      exact absurd (hused hspares (wrote_concat ho)) (not_wrote_concat not_wrote_nil (by decide))
  · -- nothing decrypts it, and nothing starts with it
    have hnot : V.validKey peer = true → ¬ Startable V c₀ c.account m.session event :=
      fun hvalid => not_startable hm₀ (hnone hvalid)
    refine ⟨⟨a, ha, fun e he => hstart e (by simpa using he)⟩, hw.skip (fun _ => ?_) fun hvalid hstartable => ?_⟩
    · exact ⟨not_live htry hid hindex, hnot⟩
    · exact absurd hstartable (hnot hvalid)
  · -- it starts the session
    obtain ⟨key, hpre, hholds, rfl, rfl, rfl⟩ := createInboundSession_eq_some.mp hnew
    have hstartable : Startable V c₀ c.account m.session event :=
      (startable_iff hm₀ _).mpr ⟨hid, key, hpre, hholds⟩
    have hfirst : ∀ e ∈ done, ¬ Startable V c₀ c.account m.session e := by
      rcases hw.first hstartable with ⟨hlive, -, -⟩ | ⟨-, hfirst, -⟩
      · exact absurd hlive (not_live htry hid hindex)
      · exact hfirst
    have hby : usesUp c peer m' = kindAccount := by
      unfold usesUp
      rw [htry]
      rfl
    rw [hby] at hused
    refine ⟨fun o e ho hspares => ?_, fun o _ => ⟨fun _ => ?_, fun o' e ho' hspares => ?_,
      fun o' ho' => ?_⟩⟩
    · exact absurd (failed_concat ho) (hspares.kept hm hid htry).1
    · -- killed before the account is written: the message starts the session once more
      refine ⟨a, ?_, .start done event rest rfl hvalid (fun e he => ?_) ?_ (Or.inl haims)⟩
      · rw [storedAccount_put_of_ne (by decide)]
        exact ha
      · rw [hstart e (List.mem_append_left _ he)]
        exact hfirst e he
      · exact (hstart event hmem).mpr hstartable
    · exact absurd (failed_concat ho') (hspares.kept hm hid htry).2
    · have h₁ := hbase.putOlm o.salts peer ⟨m'.session, [m'.index], 0, none⟩
      have h₂ := h₁.putAccount o'.salts (c.account.removeOneTimeKey key) rfl rfl
      have hbase' : Base c₀ (written (written w (storingOlm c peer ⟨m'.session, [m'.index], 0, none⟩) o)
          (storingAccount c (c.account.removeOneTimeKey key)) o').disk
          (Crypto.withOlm { c with account := c.account.removeOneTimeKey key } peer
            (c.olmSessions peer ++ [⟨m'.session, [m'.index], 0, none⟩])) := h₂.congr rfl rfl rfl rfl
      refine (safe_key hbase' hm₀ hmem hkey hspared fun hspares => ?_).weaken (fun _ h => h)
        fun _ _ h hspares => Or.inl (h hspares)
      exact absurd (hused hspares (wrote_concat ho'))
        (not_wrote_concat (not_wrote_concat not_wrote_nil (by decide)) (by decide))

end Target

end Kmatrix.E2ee.Ways
