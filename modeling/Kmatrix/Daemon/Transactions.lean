import Kmatrix.Daemon.Send
import Kmatrix.E2ee.Offline
import Kmatrix.Lib.Staged
import Mathlib

/-! # Transaction ids

`do_send` makes the id of its transaction from the clock. Calls of it run in the threads of the
connections, each from one section to the next; the clock is read between two of them and may show
anything. The server takes an event with an id it knows for a repetition of the first and drops it.

Encrypted events are never alike, as no position of a ratchet is used twice, so two calls in the same
millisecond are enough for one to be lost (`not_distinct_sameMillisecond`); `distinct_iff` says that
nothing else can go wrong. -/

namespace Kmatrix.Daemon.Transactions

open Kmatrix.Lib.Crash Kmatrix.Lib.Staged Kmatrix.Lib.Positions Kmatrix.E2ee.Json Kmatrix.E2ee.Effects
open Kmatrix.E2ee.Sessions Kmatrix.E2ee.Devices Kmatrix.E2ee.Megolm Kmatrix.E2ee.Offline
open Kmatrix.Daemon.Send (Content)
open Kmatrix.Storage Kmatrix.Storage.Seal Kmatrix.Storage.Schema
open Kmatrix.Storage.Write (StoreOp)
open Kmatrix.Sas.Machine (Self DeviceInfo)

/-! ### The clock and the server -/

/-- What is asked of the world. -/
inductive Request where
  | nowMs
  | api (q : Send.Request)

def Reply : Request → Type
  | .nowMs => ℕ
  | .api q => Send.Reply q

/-- A `/send` as it reaches the server, for one access token. -/
structure Sent where
  room : String
  kind : String
  txn : String
  content : Content

/-- **The server**: what reached it, and the events it made of that. -/
structure Server where
  received : List Sent
  events : List Sent

/-- The transaction is the same. -/
def Sent.Repeats (a b : Sent) : Prop := a.room = b.room ∧ a.kind = b.kind ∧ a.txn = b.txn

instance (a b : Sent) : Decidable (a.Repeats b) := inferInstanceAs (Decidable (_ ∧ _ ∧ _))

/-- **An event reaches the server**: one whose transaction it knows is a repetition. -/
def Server.take (s : Server) (sent : Sent) : Server :=
  ⟨s.received ++ [sent], if ∃ e ∈ s.events, e.Repeats sent then s.events else s.events ++ [sent]⟩

/-- What becomes of a request, what the clock shows, and who is in the directory. -/
structure Net extends Send.Net where
  now : ℕ
  directory : Value

def serve (net : Net) (s : Server) : (q : Request) → Reply q × Server
  | .nowMs => (net.now, s)
  | .api q => ((Send.serve net.directory net.toNet [] q).1,
      match q with
      | .sendEvent room kind txn content =>
        if net.fault.isNone || net.taken then s.take ⟨room, kind, txn, content⟩ else s
      | _ => s)

/-! ### The stages of a call -/

/-- A call of `do_send` that has read the clock: its arguments, whether the room is encrypted, and the
time. -/
structure Call where
  room : String
  body : String
  encrypted : Bool
  now : ℕ
  deriving DecidableEq, Repr

def Call.txn (call : Call) : String := "kmatrix" ++ toString call.now

def Call.content (call : Call) : Value :=
  .obj [("body", .str call.body), ("msgtype", .str "m.text")]

/-- **Where a call stands**, with what it holds; the sync thread learns about rooms. -/
inductive Stage where
  | called (room body : String)
  | looked (room body : String) (encrypted : Bool)
  | stamped (call : Call)
  | listing (call : Call)
  | querying (call : Call) (members : List String)
  | remembering (call : Call) (kq : Value)
  | claiming (call : Call) (devices need : List DeviceInfo)
  | reaching (call : Call) (devices need : List DeviceInfo) (claim : Value)
  | sharing (call : Call) (devices : List DeviceInfo)
  | timing (call : Call) (messages : Messages)
  | delivering (call : Call) (now : ℕ) (messages : Messages)
  | encrypting (call : Call)
  | posting (call : Call) (kind : String) (content : Content)
  | ended
  | learning (row : Room)

/-- What a thread is started for. -/
inductive Task where
  | send (room body : String)
  | learn (row : Room)

def Task.first : Task → Stage
  | .send room body => .called room body
  | .learn row => .learning row

section Code
variable {S : CipherSuite}

def nowMs : Code S Reply Crypto ℕ := ⟨fun s => .act (.ask .nowMs) fun now => .ret (.ok now, s)⟩

def joinedMembers (room : String) : Code S Reply Crypto (List String) :=
  ⟨fun s => .act (.ask (.api (.joinedMembers room))) fun answer => .ret (answer, s)⟩

def keysQuery (users : List String) : Code S Reply Crypto Value :=
  ⟨fun s => .act (.ask (.api (.keysQuery users))) fun answer => .ret (answer, s)⟩

def keysClaim (body : Value) : Code S Reply Crypto Value :=
  ⟨fun s => .act (.ask (.api (.keysClaim body))) fun answer => .ret (answer, s)⟩

def sendToDevice (kind txn : String) (messages : Messages) : Code S Reply Crypto Unit :=
  ⟨fun s => .act (.ask (.api (.sendToDevice kind txn messages))) fun answer => .ret (answer, s)⟩

def sendEvent (room kind txn : String) (content : Content) : Code S Reply Crypto String :=
  ⟨fun s => .act (.ask (.api (.sendEvent room kind txn content))) fun answer => .ret (answer, s)⟩

variable (V : Vodozemac) (self : Self)

/-- **`do_send`**, stage by stage. -/
def code : Stage → Code S Reply Crypto Stage
  | .called room body => do
    let rooms ← query Read.listRooms
    return .looked room body (((rooms.find? fun r => r.id = room).map Room.encrypted).getD false)
  | .looked room body encrypted => do
    let now ← nowMs
    return .stamped ⟨room, body, encrypted, now⟩
  | .stamped call => do
    if !call.encrypted then return .posting call "m.room.message" (.plain call.content)
    let c ← Act.get
    return if c.hasOutbound call.room then .encrypting call else .listing call
  | .listing call => do
    let members ← joinedMembers call.room
    return .querying call members
  | .querying call members => do
    let kq ← keysQuery members
    return .remembering call kq
  | .remembering call kq => do
    let c ← Act.get
    let devices := parseDeviceKeys kq
    let need := Crypto.devicesNeedingSession c devices
    Act.modify fun c => Crypto.rememberDevices c devices
    return if need.isEmpty then .sharing call devices else .claiming call devices need
  | .claiming call devices need => do
    let claim ← keysClaim (claimBody need)
    return .reaching call devices need claim
  | .reaching call devices need claim => do
    createOutboundOlm V claim need
    return .sharing call devices
  | .sharing call devices => do
    let messages ← encryptRoomKeyToDevices V call.room devices self
    return .timing call messages
  | .timing call messages => do
    let now ← nowMs
    return .delivering call now messages
  | .delivering call now messages => do
    sendToDevice "m.room.encrypted" ("kmatrixkey" ++ toString now) messages
    return .encrypting call
  | .encrypting call => do
    let envelope : Value :=
      .obj [("content", call.content), ("room_id", .str call.room), ("type", .str "m.room.message")]
    let enc ← E2ee.Sessions.encrypt V call.room envelope self.deviceId
    return .posting call "m.room.encrypted" (.encrypted enc)
  | .posting call kind content => do
    let _ ← sendEvent call.room kind call.txn content
    return .ended
  | .ended => return .ended
  | .learning row => do
    put (.upsertRoom row)
    return .ended

/-- A run of the threads. -/
abbrev run (p : Pool (World S Server) Crypto Stage) (turns : List (Turn Task (Outcome Net))) :
    Pool (World S Server) Crypto Stage :=
  Pool.runs (exec serve) (boot V) Task.first (code V self) p turns

/-- The daemon before its first start under the access token, over a database. -/
def cold (st : Store S) : Pool (World S Server) Crypto Stage := ⟨⟨st, 0, ⟨[], []⟩⟩, none, [], []⟩

end Code

/-! ### What is claimed, and when it holds -/

/-- An event that a call has sent. -/
structure Post where
  call : Call
  kind : String
  content : Content

def Post.sent (p : Post) : Sent := ⟨p.call.room, p.kind, p.call.txn, p.content⟩

/-- The event that a stage sends. -/
def Stage.post : Stage → Option Post
  | .posting call kind content => some ⟨call, kind, content⟩
  | _ => none

/-- **The events that were sent**, in order. -/
def posts (past : List (Stage × Except String Stage)) : List Post := past.filterMap fun t => t.1.post

/-- **Different events have different transactions.** -/
def Unique (posts : List Post) : Prop :=
  posts.Pairwise fun p q => p.call.room = q.call.room → p.kind = q.kind → p.content ≠ q.content →
    p.call.txn ≠ q.call.txn

/-- **Nothing is dropped** that reached the server. -/
def NoneDropped (s : Server) : Prop :=
  ∀ sent ∈ s.received, ∃ e ∈ s.events, e.room = sent.room ∧ e.kind = sent.kind ∧ e.content = sent.content

/-- The transactions keep the events apart. -/
def Distinct {S : CipherSuite} (p : Pool (World S Server) Crypto Stage) : Prop :=
  Unique (posts p.past) ∧ NoneDropped p.world.server

/-- **The condition on the calls** that get to send: two for one room read different times, unless it is
not encrypted and they are of one text. -/
def Apart (calls : List Call) : Prop :=
  calls.Pairwise fun a b => a.room = b.room → a.encrypted = b.encrypted →
    (a.encrypted = true ∨ a.body ≠ b.body) → a.now ≠ b.now

/-! ### The server -/

section Server
variable {server : Server} {sent : Sent}

/-- The server knows the transactions that reached it, and has only events that did. -/
structure Server.Sound (s : Server) : Prop where
  known : ∀ sent ∈ s.received, ∃ e ∈ s.events, e.Repeats sent
  events : ∀ e ∈ s.events, e ∈ s.received

theorem Server.Sound.take (h : server.Sound) : (server.take sent).Sound := by
  unfold Server.take
  refine ⟨fun sent' hsent' => ?_, fun e he => ?_⟩
  · split_ifs with hknown
    · rcases List.mem_append.mp hsent' with hold | hnew
      · exact h.known sent' hold
      · rw [List.mem_singleton.mp hnew]
        exact hknown
    · rcases List.mem_append.mp hsent' with hold | hnew
      · obtain ⟨e, he, hrep⟩ := h.known sent' hold
        exact ⟨e, List.mem_append_left _ he, hrep⟩
      · rw [List.mem_singleton.mp hnew]
        exact ⟨sent, List.mem_append_right _ (List.mem_singleton_self _), rfl, rfl, rfl⟩
  · dsimp only at he ⊢
    split_ifs at he with hknown
    · exact List.mem_append_left _ (h.events e he)
    · rcases List.mem_append.mp he with hold | hnew
      · exact List.mem_append_left _ (h.events e hold)
      · exact List.mem_append_right _ hnew

end Server

/-! ### Contents -/

/-- The position of the ratchet that a content takes up. -/
def taken : Content → List (String × ℕ)
  | .plain _ => []
  | .encrypted enc => [position enc]

/-- The position that a stage is about to send. -/
def Stage.held (t : Stage) : List (String × ℕ) := t.post.toList.flatMap fun p => taken p.content

/-- What is sent is the text, or a ciphertext. -/
def Made (call : Call) (kind : String) (content : Content) : Prop :=
  if call.encrypted then kind = "m.room.encrypted" ∧ ∃ enc, content = .encrypted enc
  else kind = "m.room.message" ∧ content = .plain call.content

theorem made_plain {call : Call} (h : call.encrypted = false) :
    Made call "m.room.message" (.plain call.content) := by
  unfold Made
  rw [h]
  exact ⟨rfl, rfl⟩

theorem made_encrypted {call : Call} (h : call.encrypted = true) (enc : EncryptedContent) :
    Made call "m.room.encrypted" (.encrypted enc) := by
  unfold Made
  rw [h]
  exact ⟨rfl, enc, rfl⟩

/-- The keys are shared, and the message encrypted, only where the room is. -/
def Stage.Fine : Stage → Prop
  | .listing call | .querying call _ | .remembering call _ | .claiming call _ _ | .reaching call _ _ _
  | .sharing call _ | .timing call _ | .delivering call _ _ | .encrypting call => call.encrypted = true
  | .posting call kind content => Made call kind content
  | _ => True

/-! ### One stage -/

section Stages
variable {S : CipherSuite} {V : Vodozemac} {self : Self} {used : List (String × ℕ)}
  {w : World S Server} {c : Crypto}

/-- **What a stage leads to**: it hands out the positions that the next one holds, and sends what it
holds itself. -/
def Leads (V : Vodozemac) (used : List (String × ℕ)) (w : World S Server) (t : Stage)
    (r : Except String Stage × Crypto) (w' : World S Server) : Prop :=
  ∃ made, Held V (used ++ made) w' r.2 ∧ (∀ t', r.1 = .ok t' → t'.Fine ∧ t'.held = made) ∧
    (w'.server = w.server ∨ ∃ p, t.post = some p ∧ w'.server = w.server.take p.sent)

/-- A stage that hands out nothing. -/
theorem Leads.idle {t : Stage} {r : Except String Stage × Crypto} {w' : World S Server}
    (h : Held V used w' r.2) (hr : ∀ t', r.1 = .ok t' → t'.Fine ∧ t'.held = [])
    (hserver : w'.server = w.server) : Leads V used w t r w' :=
  ⟨[], by rwa [List.append_nil], hr, Or.inl hserver⟩

theorem not_ok {α : Type} {e : String} {P : α → Prop} :
    ∀ a, (.error e : Except String α) = .ok a → P a := by
  intro a h
  cases h

theorem ok_fine {t' : Stage} (hfine : t'.Fine) (hheld : t'.held = []) :
    ∀ t, (.ok t' : Except String Stage) = .ok t → t.Fine ∧ t.held = [] := by
  intro t h
  rw [← Except.ok.inj h]
  exact ⟨hfine, hheld⟩

/-- A request of the other kinds: its error ends the call. -/
theorem answered {α : Type} {t : Stage} {next : α → Stage} (h : Held V used w c)
    (hnext : ∀ a t', (.ok (next a) : Except String Stage) = .ok t' → t'.Fine ∧ t'.held = [])
    (answer : Except String α) :
    Safe (exec serve) (fun w' => Kept V used w' ∧ w'.server = w.server) (Leads V used w t)
      (Act.andThen (fun a => (pure (next a) : Code S Reply Crypto Stage)) (answer, c)) w := by
  rcases answer with e | a
  · exact .idle h not_ok rfl
  · exact .idle h (hnext a) rfl

/-- **The event is sent**, and may reach the server. -/
theorem safe_posting (h : Held V used w c) (call : Call) (kind : String) (content : Content) :
    Safe (exec serve) (fun w' => Kept V used w' ∧ w'.server = w.server)
      (Leads V used w (.posting call kind content)) ((code V self (.posting call kind content)).run c) w := by
  refine ⟨⟨h.kept, rfl⟩, fun o => ?_⟩
  have hserver : (exec serve o w (.ask (.api (.sendEvent call.room kind call.txn content)))).2.server =
        w.server ∨
      (exec serve o w (.ask (.api (.sendEvent call.room kind call.txn content)))).2.server =
        w.server.take (Post.mk call kind content).sent := by
    unfold exec serve
    dsimp only
    split_ifs
    · exact Or.inr rfl
    · exact Or.inl rfl
  have hleads : ∀ answer : Except String String,
      Safe (exec serve) (fun w' => Kept V used w' ∧ w'.server = w.server)
        (Leads V used w (.posting call kind content))
        (Act.andThen (fun _ => (pure .ended : Code S Reply Crypto Stage)) (answer, c))
        (exec serve o w (.ask (.api (.sendEvent call.room kind call.txn content)))).2 := by
    have hheld : Held V (used ++ [])
        (exec serve o w (.ask (.api (.sendEvent call.room kind call.txn content)))).2 c := by
      rw [List.append_nil]
      exact h
    rintro (e | id)
    · exact ⟨[], hheld, not_ok, hserver.imp id fun h' => ⟨_, rfl, h'⟩⟩
    · exact ⟨[], hheld, ok_fine trivial rfl, hserver.imp (fun h' => h') fun h' => ⟨_, rfl, h'⟩⟩
  exact hleads _

/-- **The stages of a call**, one by one. -/
theorem safe_code (h : Held V used w c) (t : Stage) (ht : t.Fine) :
    Safe (exec serve) (fun w' => Kept V used w' ∧ w'.server = w.server) (Leads V used w t)
      ((code V self t).run c) w := by
  rcases t with ⟨room, body⟩ | ⟨room, body, encrypted⟩ | call | call | ⟨call, members⟩ | ⟨call, kq⟩ |
    ⟨call, devices, need⟩ | ⟨call, devices, need, claim⟩ | ⟨call, devices⟩ | ⟨call, messages⟩ |
    ⟨call, now, messages⟩ | call | ⟨call, kind, content⟩ | _ | row
  · unfold code
    refine Act.safe_bind.mpr (safe_query ⟨h.kept, rfl⟩ (fun e => .idle h not_ok rfl) fun rooms _ => ?_)
    exact .idle h (ok_fine trivial rfl) rfl
  · exact ⟨⟨h.kept, rfl⟩, fun o => .idle h (ok_fine trivial rfl) rfl⟩
  · unfold code
    dsimp only
    split_ifs with hplain
    · exact .idle h (ok_fine (made_plain (by simpa using hplain)) rfl) rfl
    · have hcall : call.encrypted = true := by simpa using hplain
      simp only [Act.safe_bind, Act.safe_get, Act.then_ok, Act.safe_pure]
      refine .idle h ?_ rfl
      split_ifs
      · exact ok_fine hcall rfl
      · exact ok_fine hcall rfl
  · refine ⟨⟨h.kept, rfl⟩, fun o => ?_⟩
    exact answered h (fun members => @ok_fine (.querying call members) ht rfl) _
  · refine ⟨⟨h.kept, rfl⟩, fun o => ?_⟩
    exact answered h (fun kq => @ok_fine (.remembering call kq) ht rfl) _
  · unfold code
    simp only [Act.safe_bind, Act.safe_get, Act.then_ok, Act.safe_modify, Act.safe_pure]
    refine .idle h ?_ rfl
    split_ifs
    · exact ok_fine ht rfl
    · exact ok_fine ht rfl
  · refine ⟨⟨h.kept, rfl⟩, fun o => ?_⟩
    exact answered h (fun claim => @ok_fine (.reaching call devices need claim) ht rfl) _
  · unfold code
    refine Act.safe_bind.mpr (((safe_createOutboundOlm h claim need).and
      (server_of_only (only_createOutboundOlm V c claim need) w)).mono ?_)
    rintro ⟨e | u, c'⟩ w' ⟨h', hserver⟩
    · exact .idle h' not_ok hserver
    · exact .idle h' (ok_fine ht rfl) hserver
  · unfold code
    refine Act.safe_bind.mpr (((safe_encryptRoomKeyToDevices h call.room devices self).and
      (server_of_only (only_encryptRoomKeyToDevices V c call.room devices self) w)).mono ?_)
    rintro ⟨e | messages, c'⟩ w' ⟨h', hserver⟩
    · exact .idle h' not_ok hserver
    · exact .idle h' (ok_fine ht rfl) hserver
  · exact ⟨⟨h.kept, rfl⟩, fun o => .idle h (ok_fine ht rfl) rfl⟩
  · refine ⟨⟨h.kept, rfl⟩, fun o => ?_⟩
    exact answered h (fun _ => @ok_fine (.encrypting call) ht rfl) _
  · unfold code
    refine Act.safe_bind.mpr (((safe_encrypt h call.room _ self.deviceId).and
      (server_of_only (only_encrypt V c call.room _ self.deviceId) w)).mono ?_)
    rintro ⟨e | enc, c'⟩ w' ⟨h', hserver⟩
    · exact .idle h' not_ok hserver
    · -- the position is handed out to the next stage
      refine ⟨[position enc], h', fun t' ht' => ?_, Or.inl hserver⟩
      rw [← Except.ok.inj ht']
      exact ⟨made_encrypted ht enc, rfl⟩
  · exact safe_posting h call kind content
  · exact .idle h (ok_fine trivial rfl) rfl
  · unfold code
    refine Act.safe_bind.mpr (safe_put ⟨h.kept, rfl⟩ (fun e => .idle h not_ok rfl) fun rng => ?_)
    exact .idle h (ok_fine trivial rfl) rfl

end Stages

/-! ### Runs -/

section Runs
variable {S : CipherSuite} {V : Vodozemac} {self : Self} {used : List (String × ℕ)}

/-- The positions that are about to be sent, and those that were. -/
def positions (threads : List Stage) (past : List (Stage × Except String Stage)) : List (String × ℕ) :=
  threads.flatMap Stage.held ++ (posts past).flatMap fun p => taken p.content

theorem posts_concat (past : List (Stage × Except String Stage)) (t : Stage) (r : Except String Stage) :
    posts (past ++ [(t, r)]) = posts past ++ t.post.toList := by
  unfold posts
  rw [List.filterMap_append]
  rcases ht : t.post with _ | p
  · simp [ht]
  · simp [ht]

/-- What has run sends what it held. -/
theorem taken_posts (past : List (Stage × Except String Stage)) (t : Stage) (r : Except String Stage) :
    (posts (past ++ [(t, r)])).flatMap (fun p => taken p.content) =
      (posts past).flatMap (fun p => taken p.content) ++ t.held := by
  rw [posts_concat, List.flatMap_append]
  rfl

/-- What a stage sends is as it was made. -/
theorem Stage.Fine.made {t : Stage} (h : t.Fine) {q : Post} (hq : q ∈ t.post.toList) :
    Made q.call q.kind q.content := by
  rcases t with _ | _ | _ | _ | _ | _ | _ | _ | _ | _ | _ | _ | ⟨call, kind, content⟩ | _ | _
  case posting =>
    rw [List.mem_singleton.mp hq]
    exact h
  all_goals cases hq

/-- The threads that go on are fine. -/
theorem fine_after {threads : List Stage} (h : ∀ t ∈ threads, t.Fine) {i : ℕ} {r : Except String Stage}
    (hr : ∀ t', r = .ok t' → t'.Fine) : ∀ t ∈ after threads i r, t.Fine := by
  intro t ht
  rcases r with e | t'
  · exact h t (List.mem_of_mem_eraseIdx ht)
  · rcases List.mem_or_eq_of_mem_set ht with hold | rfl
    · exact h t hold
    · exact hr t rfl

/-- **What holds of a run**: every position was handed out, to one holder; what was sent was made as it
should be; and the server got it from us. -/
structure Holds (V : Vodozemac) (p : Pool (World S Server) Crypto Stage) : Prop where
  ledger : ∃ used, Kept V used p.world ∧ (∀ c, p.memory = some c → Held V used p.world c) ∧
    (positions p.threads p.past).Nodup ∧ ∀ x ∈ positions p.threads p.past, x ∈ used
  fine : ∀ t ∈ p.threads, t.Fine
  made : ∀ q ∈ posts p.past, Made q.call q.kind q.content
  received : ∀ sent ∈ p.world.server.received, ∃ q ∈ posts p.past, sent = q.sent
  server : p.world.server.Sound

/-- **A stage that came to its end** passes its position on. -/
theorem positions_after {threads : List Stage} {i : ℕ} {t : Stage} (hi : threads[i]? = some t)
    (past : List (Stage × Except String Stage)) {r : Except String Stage} {made : List (String × ℕ)}
    (hr : ∀ t', r = .ok t' → t'.Fine ∧ t'.held = made) :
    ∃ given, given.Sublist made ∧
      (positions (after threads i r) (past ++ [(t, r)])).Perm (given ++ positions threads past) := by
  have hthreads : (threads.flatMap Stage.held).Perm (t.held ++ (threads.eraseIdx i).flatMap Stage.held) :=
    (perm_cons_eraseIdx hi).flatMap_right _
  unfold positions
  rw [taken_posts]
  -- what it held is among what was sent
  have hsent : ((threads.eraseIdx i).flatMap Stage.held ++
      ((posts past).flatMap (fun p => taken p.content) ++ t.held)).Perm
        (threads.flatMap Stage.held ++ (posts past).flatMap fun p => taken p.content) := by
    refine List.Perm.trans ?_ (hthreads.symm.append_right _)
    rw [← List.append_assoc]
    exact List.perm_append_comm.trans (by rw [List.append_assoc])
  rcases r with e | t'
  · exact ⟨[], List.nil_sublist _, hsent⟩
  · obtain ⟨-, hheld⟩ := hr t' rfl
    refine ⟨made, List.Sublist.refl _, ?_⟩
    have hafter : ((after threads i (.ok t')).flatMap Stage.held).Perm
        (made ++ (threads.eraseIdx i).flatMap Stage.held) := by
      rw [← hheld]
      exact (after_ok_perm hi t').flatMap_right _
    refine (hafter.append_right _).trans ?_
    rw [List.append_assoc]
    exact hsent.append_left made

/-- A thread that stops holds nothing any more. -/
theorem positions_sublist (threads : List Stage) (past : List (Stage × Except String Stage)) :
    (positions [] past).Sublist (positions threads past) := List.sublist_append_right _ _

/-- **A stage keeps it**, wherever it is killed. -/
theorem Holds.run {p : Pool (World S Server) Crypto Stage} (h : Holds V p) {i : ℕ} {t : Stage} {c : Crypto}
    (hi : p.threads[i]? = some t) (hc : p.memory = some c) :
    Safe (exec serve) (fun w => Holds V (⟨w, none, [], p.past⟩ : Pool (World S Server) Crypto Stage))
      (fun r w => Holds V ⟨w, some r.2, after p.threads i r.1, p.past ++ [(t, r.1)]⟩)
      ((code V self t).run c) p.world := by
  obtain ⟨used, hkept, hheld, hnodup, hsub⟩ := h.ledger
  have ht : t ∈ p.threads := List.mem_of_getElem? hi
  refine (safe_code (hheld c hc) t (h.fine t ht)).weaken ?_ ?_
  · rintro w ⟨hkept', hserver⟩
    refine ⟨⟨used, hkept', fun _ hm => by simp at hm, hnodup.sublist (positions_sublist _ _),
      fun x hx => hsub x ((positions_sublist _ _).subset hx)⟩, by simp, h.made, ?_, ?_⟩
    · rw [hserver]
      exact h.received
    · rw [hserver]
      exact h.server
  · rintro ⟨r, c'⟩ w ⟨made, hheld', hr, hserver⟩
    obtain ⟨given, hgiven, hperm⟩ := positions_after hi p.past hr
    have hused : (used ++ made).Nodup := Ledger.nodup hheld'
    refine ⟨⟨used ++ made, hheld'.kept, fun c'' hc'' => ?_, ?_, fun x hx => ?_⟩,
      fine_after h.fine fun t' ht' => (hr t' ht').1, fun q hq => ?_, fun sent hsent => ?_, ?_⟩
    · rw [← Option.some.inj hc'']
      exact hheld'
    · -- the positions given now were not held before
      refine hperm.nodup_iff.mpr (List.nodup_append'.mpr ⟨?_, hnodup, fun x hx hx' => ?_⟩)
      · exact (List.nodup_append'.mp hused).2.1.sublist hgiven
      · exact (List.nodup_append'.mp hused).2.2 (hsub x hx') (hgiven.subset hx)
    · rcases List.mem_append.mp (hperm.mem_iff.mp hx) with hx | hx
      · exact List.mem_append_right _ (hgiven.subset hx)
      · exact List.mem_append_left _ (hsub x hx)
    · dsimp only at hq
      rw [posts_concat] at hq
      rcases List.mem_append.mp hq with hq | hq
      · exact h.made q hq
      · exact (h.fine t ht).made hq
    · dsimp only at hsent ⊢
      rw [posts_concat]
      have hold : ∀ sent ∈ p.world.server.received, ∃ q ∈ posts p.past ++ t.post.toList, sent = q.sent := by
        intro sent hsent
        obtain ⟨q, hq, heq⟩ := h.received sent hsent
        exact ⟨q, List.mem_append_left _ hq, heq⟩
      rcases hserver with hsame | ⟨q, hq, htake⟩
      · rw [hsame] at hsent
        exact hold sent hsent
      · rw [htake] at hsent
        rcases List.mem_append.mp hsent with hsent | hsent
        · exact hold sent hsent
        · refine ⟨q, List.mem_append_right _ ?_, List.mem_singleton.mp hsent⟩
          rw [hq]
          exact List.mem_singleton_self _
    · rcases hserver with hsame | ⟨q, -, htake⟩
      · dsimp only
        rw [hsame]
        exact h.server
      · dsimp only
        rw [htake]
        exact h.server.take

/-- **A restart** keeps it. -/
theorem Holds.boot {p : Pool (World S Server) Crypto Stage} (h : Holds V p) :
    Safe (exec serve) (fun w => Holds V (⟨w, none, [], p.past⟩ : Pool (World S Server) Crypto Stage))
      (fun m w => Holds V ⟨w, m, [], p.past⟩)
      (E2ee.Sessions.boot V : Prog (Effect Request) (Answer S Reply) (Option Crypto)) p.world := by
  obtain ⟨used, hkept, -, hnodup, hsub⟩ := h.ledger
  have hstopped : (positions [] p.past).Nodup ∧ ∀ x ∈ positions [] p.past, x ∈ used :=
    ⟨hnodup.sublist (positions_sublist _ _), fun x hx => hsub x ((positions_sublist _ _).subset hx)⟩
  have hstable : Stable (S := S) fun w => Kept V used w ∧ w.server = p.world.server := by
    intro w w' hw hcopies hserver hdrawn
    exact ⟨stable_kept w w' hw.1 hcopies hserver hdrawn, hserver.trans hw.2⟩
  refine (safe_boot hstable ⟨hkept, rfl⟩).weaken ?_ ?_
  · rintro w ⟨hkept', hserver⟩
    refine ⟨⟨used, hkept', fun _ hm => by simp at hm, hstopped⟩, by simp, h.made, ?_, ?_⟩
    · rw [hserver]
      exact h.received
    · rw [hserver]
      exact h.server
  · rintro m w ⟨⟨hkept', hserver⟩, hcopies⟩
    refine ⟨⟨used, hkept', fun c hc => hkept'.mono ?_, hstopped⟩, by simp, h.made, ?_, ?_⟩
    · rintro copy (hdisk | hmem)
      · exact hdisk
      · exact hcopies c hc copy hmem
    · rw [hserver]
      exact h.received
    · rw [hserver]
      exact h.server

theorem Holds.start {p : Pool (World S Server) Crypto Stage} (h : Holds V p) (task : Task) :
    Holds V { p with threads := p.threads ++ [task.first] } := by
  have hheld : task.first.held = [] := by
    rcases task with ⟨room, body⟩ | row
    · rfl
    · rfl
  obtain ⟨used, hkept, hmem, hnodup, hsub⟩ := h.ledger
  have hpositions : positions (p.threads ++ [task.first]) p.past = positions p.threads p.past := by
    unfold positions
    rw [List.flatMap_append, List.flatMap_singleton, hheld, List.append_nil]
  refine ⟨⟨used, hkept, hmem, ?_, ?_⟩, fun t ht => ?_, h.made, h.received, h.server⟩
  · rw [hpositions]
    exact hnodup
  · rw [hpositions]
    exact hsub
  · rcases List.mem_append.mp ht with hold | hnew
    · exact h.fine t hold
    · rw [List.mem_singleton.mp hnew]
      rcases task with ⟨room, body⟩ | row
      · trivial
      · trivial

/-- **Every run keeps it.** -/
theorem holds_run {st : Store S} (hst : ∀ room, st.db.pickles.lookup (kindMegolmOut, room) = none)
    (turns : List (Turn Task (Outcome Net))) : Holds V (run V self (cold st) turns) := by
  have hcold : Holds V (cold st) := by
    have hempty : (⟨[], []⟩ : Server).Sound := ⟨by simp, by simp⟩
    refine ⟨⟨[], kept_cold V _ hst, fun c hc => by simp [cold] at hc, List.nodup_nil, ?_⟩, by simp [cold],
      by simp [cold, posts], by simp [cold], hempty⟩
    simp [cold, positions, posts]
  exact Pool.invariant (fun p task h => h.start task) (fun p i t c h hi hc => h.run hi hc)
    (fun p h => h.boot) hcold turns

/-- The time is read off the transaction. -/
theorem txn_inj {a b : Call} : a.txn = b.txn ↔ a.now = b.now := by
  unfold Call.txn
  rw [String.append_right_inj]
  exact Nat.repr_inj

/-- The text is read off the content. -/
theorem content_inj {a b : Call} : a.content = b.content ↔ a.body = b.body := by
  unfold Call.content
  refine ⟨fun h => ?_, fun h => by rw [h]⟩
  simpa using h

/-- Two events of one kind have different contents, unless they are of one text in a room that is not
encrypted: no two are of one position. -/
theorem content_ne_iff {p q : Post} (hp : Made p.call p.kind p.content) (hq : Made q.call q.kind q.content)
    (hpos : List.Disjoint (taken p.content) (taken q.content)) (henc : p.call.encrypted = q.call.encrypted) :
    p.content ≠ q.content ↔ p.call.encrypted = true ∨ p.call.body ≠ q.call.body := by
  unfold Made at hp hq
  by_cases hplain : p.call.encrypted = true
  · rw [← henc, if_pos hplain] at hq
    obtain ⟨-, enc, henc'⟩ := hq
    refine ⟨fun _ => Or.inl hplain, fun _ heq => ?_⟩
    rw [heq, henc'] at hpos
    exact hpos (List.mem_singleton_self _) (List.mem_singleton_self _)
  · rw [if_neg hplain] at hp
    rw [← henc, if_neg hplain] at hq
    rw [hp.2, hq.2, ne_eq, Content.plain.injEq, content_inj]
    simp [hplain]

theorem kind_of_made {call : Call} {kind : String} {content : Content} (h : Made call kind content) :
    kind = if call.encrypted then "m.room.encrypted" else "m.room.message" := by
  unfold Made at h
  split_ifs at h ⊢
  · exact h.1
  · exact h.1

/-- The kind says whether the room is encrypted. -/
theorem kind_iff {p q : Post} (hp : Made p.call p.kind p.content) (hq : Made q.call q.kind q.content) :
    p.kind = q.kind ↔ p.call.encrypted = q.call.encrypted := by
  rw [kind_of_made hp, kind_of_made hq]
  rcases p.call.encrypted with _ | _
  · rcases q.call.encrypted with _ | _
    · simp
    · simp
  · rcases q.call.encrypted with _ | _
    · simp
    · simp

/-- **Where different events have different transactions**, what the server took for a repetition is
one. -/
theorem noneDropped_of_unique {p : Pool (World S Server) Crypto Stage} (h : Holds V p)
    (hunique : Unique (posts p.past)) : NoneDropped p.world.server := by
  intro sent hsent
  obtain ⟨e, he, hroom, hkind, htxn⟩ := h.server.known sent hsent
  refine ⟨e, he, hroom, hkind, ?_⟩
  obtain ⟨q, hq, rfl⟩ := h.received sent hsent
  obtain ⟨q', hq', rfl⟩ := h.received e (h.server.events e he)
  by_contra hne
  have hsymm : Std.Symm fun a b : Post => a.call.room = b.call.room → a.kind = b.kind →
      a.content ≠ b.content → a.call.txn ≠ b.call.txn :=
    ⟨fun a b hab hr hk hc => (hab hr.symm hk.symm hc.symm).symm⟩
  exact hunique.forall hq' hq (fun heq => hne (by rw [heq])) hroom hkind hne htxn

variable (V self)

/-- **Transactions keep different events apart exactly when the clock does.** -/
theorem distinct_iff (st : Store S) (hst : ∀ room, st.db.pickles.lookup (kindMegolmOut, room) = none)
    (turns : List (Turn Task (Outcome Net))) :
    Distinct (run V self (cold st) turns) ↔
      Apart ((posts (run V self (cold st) turns).past).map Post.call) := by
  have h : Holds V (run V self (cold st) turns) := holds_run hst turns
  revert h
  generalize run V self (cold st) turns = p
  intro h
  obtain ⟨used, -, -, hnodup, -⟩ := h.ledger
  have hdisjoint := (List.nodup_flatMap.mp (List.nodup_append'.mp hnodup).2.1).2
  -- for every two events the two sides say the same
  have hpair : (posts p.past).Pairwise fun a b =>
      ((a.call.room = b.call.room → a.kind = b.kind → a.content ≠ b.content → a.call.txn ≠ b.call.txn) ↔
        (a.call.room = b.call.room → a.call.encrypted = b.call.encrypted →
          (a.call.encrypted = true ∨ a.call.body ≠ b.call.body) → a.call.now ≠ b.call.now)) := by
    refine hdisjoint.imp_of_mem fun {a b} ha hb hab => ?_
    have hkind := kind_iff (h.made a ha) (h.made b hb)
    refine forall_congr' fun _ => ⟨fun hall henc hne => ?_, fun hall hk hne => ?_⟩
    · have hcontent := (content_ne_iff (h.made a ha) (h.made b hb) hab henc).mpr hne
      exact fun hnow => hall (hkind.mpr henc) hcontent (txn_inj.mpr hnow)
    · have hne' := (content_ne_iff (h.made a ha) (h.made b hb) hab (hkind.mp hk)).mp hne
      exact fun htxn => hall (hkind.mp hk) hne' (txn_inj.mp htxn)
  have hunique : Unique (posts p.past) ↔ Apart ((posts p.past).map Post.call) := by
    unfold Unique Apart
    rw [List.pairwise_map]
    exact ⟨fun hall => (hall.and hpair).imp fun hab => hab.2.mp hab.1,
      fun hall => (hall.and hpair).imp fun hab => hab.2.mpr hab.1⟩
  exact (and_iff_left_of_imp (noneDropped_of_unique h)).trans hunique

end Runs

/-! ### Two messages in one millisecond -/

section Examples

/-- Every request succeeds, nobody is in the directory, and the clock shows `now`. -/
def atTime (now : ℕ) : List (Outcome Net) :=
  List.replicate 20 (calm
    { fault := none, taken := true, members := [], claimed := .null, eventId := "$e", now := now,
      directory := .null })

/-- A run over a fresh database. -/
abbrev after (turns : List (Turn Task (Outcome Net))) : Pool (World copySuite Server) Crypto Stage :=
  run (plainVodozemac [] []) ⟨"@me:h", "ME"⟩ (cold blankStore) (.boot (atTime 0) :: turns)

/-- Two threads send to a room that is not encrypted, and read the clock at `now` and `now'`. -/
def bothSend (now now' : ℕ) : List (Turn Task (Outcome Net)) :=
  [.start (.send "!r" "one"), .start (.send "!r" "two"), .run 0 (atTime now), .run 1 (atTime now'),
    .run 0 (atTime now), .run 1 (atTime now'), .run 0 [], .run 1 [], .run 0 (atTime now),
    .run 1 (atTime now')]

/-- **The second message is dropped.** -/
theorem not_distinct_sameMillisecond : ¬ Distinct (after (bothSend 7 7)) := by
  intro h
  have hposts : posts (after (bothSend 7 7)).past =
      [⟨⟨"!r", "one", false, 7⟩, "m.room.message", .plain (Call.mk "!r" "one" false 7).content⟩,
        ⟨⟨"!r", "two", false, 7⟩, "m.room.message", .plain (Call.mk "!r" "two" false 7).content⟩] := by
    rfl
  have hunique := h.1
  rw [hposts] at hunique
  refine (List.pairwise_cons.mp hunique).1 _ (List.mem_singleton_self _) rfl rfl (fun heq => ?_) rfl
  exact absurd (content_inj.mp (Content.plain.inj heq)) (by decide)

/-- The room is encrypted by now, and two threads send to it side by side; the second reads the clock
after it was set back. -/
def bothEncrypt : List (Turn Task (Outcome Net)) :=
  [.start (.learn ⟨"!r", "!r", true, 0, 0, ""⟩), .run 0 (atTime 0), .start (.send "!r" "one"),
    .start (.send "!r" "one")] ++
  (List.replicate 12 [.run 1 (atTime 7), .run 2 (atTime 6)]).flatten

theorem distinct_bothEncrypt :
    (posts (after bothEncrypt).past).length = 2 ∧ Distinct (after bothEncrypt) := by
  refine ⟨by decide +kernel, (distinct_iff _ _ _ (fun room => rfl) _).mpr ?_⟩
  unfold Apart
  decide +kernel

end Examples

end Kmatrix.Daemon.Transactions
