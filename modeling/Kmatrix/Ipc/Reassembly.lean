import Kmatrix.Lib.Lines
import Mathlib.Data.List.Induction
import Mathlib.Data.List.TakeWhile

/-! # The plugin's end of the socket

The plugin polls: `waitEvent` flushes what is left to send, takes at most one line off the socket without
blocking, and hands it to `handleLine`, whose callback may queue more requests; between polls the user
interface queues its own. A line may come in several
pieces, so the beginning of one is carried over in `rxBuf`; the socket may take only some of the bytes, so
the rest is carried over in `txBuf`.

The socket does as LuaSocket says: `receive("*l")` gives a line, or an error with all it has consumed of an
unterminated one, and leaves out carriage returns; `send` takes everything, or gives an error with the index
of the last byte it took. What it gives is decided from outside, by how many bytes have arrived and how many
are taken; so is what a callback does, and what the user interface does. **The lines handed on are the lines of the stream, and what is on the
wire is a beginning of what was queued** (`reassembles`). -/

namespace Kmatrix.Ipc.Reassembly

open Kmatrix.Lib.Lines

abbrev Bytes := List UInt8

def newline : UInt8 := 10

def carriageReturn : UInt8 := 13

/-! ### The socket -/

/-- How many bytes have arrived, and an error other than a timeout behind them. -/
structure Arrival where
  bytes : ℕ
  broken : Option String := none

/-- How many bytes are taken, and an error other than a timeout behind them. -/
structure Taking where
  bytes : ℕ
  broken : Option String := none

inductive Received where
  | line (l : Bytes)
  | failed (err : String) (consumed : Bytes)

inductive Sent where
  | sent
  | failed (err : String) (last : ℕ)

/-- **`sock:receive("*l")`**, and what of the stream is left. -/
def receiveLine (a : Arrival) (unread : Bytes) : Received × Bytes :=
  let there := unread.take a.bytes
  let text := there.takeWhile fun b => b ≠ newline
  if newline ∈ there then
    (.line (text.filter fun b => b ≠ carriageReturn), unread.drop (text.length + 1))
  else
    (.failed (a.broken.getD "timeout") (text.filter fun b => b ≠ carriageReturn), unread.drop a.bytes)

/-- **`sock:send(data)`**: what is put on the wire, and what is returned. -/
def sockSend (t : Taking) (data : Bytes) : Bytes × Sent :=
  if data.length ≤ t.bytes then (data, .sent)
  else (data.take t.bytes, .failed (t.broken.getD "timeout") t.bytes)

/-! ### The client -/

/-- `IPC`. -/
structure Client where
  /-- There is a socket. -/
  sock : Bool
  connected : Bool
  /-- An incomplete line carried over between polls. -/
  rxBuf : Bytes
  /-- Bytes the socket would not accept yet. -/
  txBuf : Bytes
  /-- The ids of the requests with a callback. -/
  pending : List ℕ
  nextId : ℕ

/-- The client, its socket, and what has passed between them. -/
structure World where
  ipc : Client
  /-- What the client has not received of the daemon's stream. -/
  unread : Bytes
  /-- How often `send` was called. -/
  sends : ℕ
  /-- What was put on the wire. -/
  wire : Bytes
  /-- The request lines that were queued, one after the other. -/
  queued : Bytes
  /-- The lines that were handed to `handleLine`. -/
  handed : List Bytes

/-- What `handleLine` looks at in a decoded line. -/
structure Incoming where
  id : Option ℕ
  event : Bool

/-- What a callback or the user interface does to the client. A request carries its encoded line, if it can
be encoded. -/
inductive Action where
  | request (line : Option Bytes) (callback : Bool)
  | fail
  | stop

/-- A poll, or what the user interface does between two of them. -/
inductive Event where
  | poll (a : Arrival)
  | act (act : Action)

/-- **What is decided from outside.** -/
structure Outside where
  /-- `JSON.decode`; `none` where it raises or gives no table. -/
  decode : Bytes → Option Incoming
  /-- What the socket does with the `n`-th `send`. -/
  takes : ℕ → Taking
  /-- What the callback of the `n`-th line does. -/
  handler : ℕ → List Action

/-- What `waitEvent` comes to; `raises` is an index into a socket that is gone. -/
inductive Result where
  | inputEvent
  | nothing
  | raises

/-- **`IPC:stop`.** -/
def World.stop (w : World) : World :=
  { w with ipc := { w.ipc with sock := false, connected := false, rxBuf := [], txBuf := [], pending := [] } }

/-- **`IPC:fail`**: the callbacks it calls find a client that is not connected, so that nothing they do to
it has an effect. -/
def World.fail (w : World) : World := if w.ipc.connected then w.stop else w

/-- The line goes behind what is left to send, and its callback is remembered. -/
def World.queue (w : World) (line : Bytes) (callback : Bool) : World :=
  { w with
    ipc := { w.ipc with
      nextId := w.ipc.nextId + 1
      pending := if callback then w.ipc.nextId :: w.ipc.pending else w.ipc.pending
      txBuf := w.ipc.txBuf ++ (line ++ [newline]) }
    queued := w.queued ++ (line ++ [newline]) }

section Steps
variable (out : Outside)

/-- **`IPC:flush`.** -/
def World.flush (w : World) : World :=
  if w.ipc.sock = false ∨ w.ipc.txBuf = [] then w
  else
    match sockSend (out.takes w.sends) w.ipc.txBuf with
    | (bytes, .sent) =>
      { w with ipc := { w.ipc with txBuf := [] }, sends := w.sends + 1, wire := w.wire ++ bytes }
    | (bytes, .failed err last) =>
      let w := { w with sends := w.sends + 1, wire := w.wire ++ bytes }
      -- a partial write keeps the tail for the next poll
      if err = "timeout" then { w with ipc := { w.ipc with txBuf := w.ipc.txBuf.drop last } }
      else w.fail

/-- **`IPC:request`.** Where it is refused its callback is called at once: what that does comes next. -/
def World.request (w : World) (line : Option Bytes) (callback : Bool) : World :=
  if w.ipc.connected && w.ipc.sock then
    match line with
    | none => w
    | some line => (w.queue line callback).flush out
  else w

def World.act (w : World) : Action → World
  | .request line callback => w.request out line callback
  | .fail => w.fail
  | .stop => w.stop

/-- A callback runs. -/
def World.callback (w : World) (n : ℕ) : World := (out.handler n).foldl (World.act out) w

/-- **`IPC:handleLine`.** -/
def World.handleLine (w : World) (line : Bytes) : World :=
  let n := w.handed.length
  let w := { w with handed := w.handed ++ [line] }
  if line = [] then w
  else
    match out.decode line with
    | none => w
    | some msg =>
      match msg.id with
      | some id =>
        let known := id ∈ w.ipc.pending
        let w := { w with ipc := { w.ipc with pending := w.ipc.pending.filter fun i => i ≠ id } }
        if known then w.callback out n else w
      | none => if msg.event then w.callback out n else w

/-- **`IPC:waitEvent`.** -/
def World.waitEvent (w : World) (a : Arrival) : World × Result :=
  if w.ipc.sock = false then (w, .nothing)
  else
    let w := w.flush out
    if w.ipc.sock = false then (w, .raises)
    else
      match receiveLine a w.unread with
      | (.line line, unread) =>
        let line := if w.ipc.rxBuf = [] then line else w.ipc.rxBuf ++ line
        (World.handleLine out { w with ipc := { w.ipc with rxBuf := [] }, unread := unread } line, .inputEvent)
      | (.failed err consumed, unread) =>
        let w := { w with ipc := { w.ipc with rxBuf := w.ipc.rxBuf ++ consumed }, unread := unread }
        (if err = "timeout" then w else w.fail, .nothing)

/-- **`IPC:connect`**, from where the handshake is queued. -/
def connect (hello : Option Bytes) (stream : Bytes) : World :=
  World.request out
    { ipc := { sock := true, connected := true, rxBuf := [], txBuf := [], pending := [], nextId := 1 }
      unread := stream, sends := 0, wire := [], queued := [], handed := [] } hello true

def World.step (w : World) : Event → World
  | .poll a => (w.waitEvent out a).1
  | .act act => w.act out act

/-- One event after the other. -/
def run (hello : Option Bytes) (stream : Bytes) (events : List Event) : World :=
  events.foldl (World.step out) (connect out hello stream)

end Steps

/-! ### The statement -/

/-- What an event leaves of the stream: only a poll receives. -/
def leaves (unread : Bytes) : Event → Bytes
  | .poll a => (receiveLine a unread).2
  | .act _ => unread

/-- What each `receive` leaves of the stream, one after the other. -/
def leftOver (stream : Bytes) (events : List Event) : Bytes := events.foldl leaves stream

def Action.IsRequest : Action → Prop
  | .request _ _ => True
  | _ => False

/-- A poll of a socket that does not break, or a request. -/
def Event.IsCalm : Event → Prop
  | .poll a => a.broken = none
  | .act does => does.IsRequest

/-- The socket gives full lines or timeouts, and takes all of the bytes or some; callbacks and the user
interface queue requests. -/
structure Calm (out : Outside) (events : List Event) : Prop where
  events : ∀ event ∈ events, event.IsCalm
  sends : ∀ n, (out.takes n).broken = none
  handlers : ∀ n, ∀ act ∈ out.handler n, act.IsRequest

/-- **Both directions.** -/
structure Reassembles (out : Outside) (hello : Option Bytes) (stream : Bytes) (events : List Event) :
    Prop where
  /-- What was handed on is the lines of what was received, once each and in order. -/
  lines : ∃ received rest, stream = received ++ (run out hello stream events).unread ∧
    received.splitOn newline = (run out hello stream events).handed ++ [rest]
  /-- While the socket does not break and the client is not stopped, that is all that `receive` gave, and
  the line that is not complete yet is the carry-over. -/
  reads : Calm out events → (run out hello stream events).unread = leftOver stream events ∧
    ∃ received, stream = received ++ leftOver stream events ∧ received.splitOn newline =
      (run out hello stream events).handed ++ [(run out hello stream events).ipc.rxBuf]
  /-- The wire has a beginning of what was queued. -/
  sends : (run out hello stream events).wire <+: (run out hello stream events).queued

/-! ### What the socket gives -/

section Socket
variable {a : Arrival} {unread : Bytes}

theorem filter_self {bs : Bytes} (h : carriageReturn ∉ bs) :
    (bs.filter fun b => b ≠ carriageReturn) = bs := by
  rw [List.filter_eq_self]
  intro b hb
  rw [decide_eq_true_eq]
  rintro rfl
  exact h hb

/-- **A line is taken off with its newline**; without one, all that has arrived is. -/
theorem receiveLine_spec (hcr : carriageReturn ∉ unread) :
    (∃ l, receiveLine a unread = (.line l, (receiveLine a unread).2) ∧ newline ∉ l ∧
      unread = (l ++ [newline]) ++ (receiveLine a unread).2) ∨
    (∃ consumed, receiveLine a unread =
        (.failed (a.broken.getD "timeout") consumed, (receiveLine a unread).2) ∧
      newline ∉ consumed ∧ unread = consumed ++ (receiveLine a unread).2) := by
  have hunread := List.take_append_drop a.bytes unread
  by_cases hnl : newline ∈ unread.take a.bytes
  · left
    obtain ⟨l, later, hthere, hl⟩ := List.eq_append_cons_of_mem hnl
    have htext : (unread.take a.bytes).takeWhile (fun b => b ≠ newline) = l := by
      have hall : ∀ b ∈ l, decide (b ≠ newline) = true := by
        intro b hb
        rw [decide_eq_true_eq]
        rintro rfl
        exact hl hb
      rw [hthere, List.takeWhile_append_of_pos hall, List.takeWhile_cons_of_neg (by simp), List.append_nil]
    rw [hthere, List.append_assoc, List.cons_append] at hunread
    have hncr : carriageReturn ∉ l := fun h => hcr (by
      rw [← hunread]
      exact List.mem_append_left _ h)
    have hself := filter_self hncr
    have hdrop : unread.drop (l.length + 1) = later ++ unread.drop a.bytes := by
      conv_lhs => rw [← hunread]
      rw [List.drop_append]
      simp
    have hreceive : receiveLine a unread = (.line l, later ++ unread.drop a.bytes) := by
      unfold receiveLine
      dsimp only
      rw [if_pos hnl, htext, hself, hdrop]
    refine ⟨l, by rw [hreceive], hl, ?_⟩
    rw [hreceive, List.append_assoc]
    exact hunread.symm
  · right
    have htext : (unread.take a.bytes).takeWhile (fun b => b ≠ newline) = unread.take a.bytes := by
      rw [List.takeWhile_eq_self_iff]
      intro b hb
      rw [decide_eq_true_eq]
      rintro rfl
      exact hnl hb
    have hncr : carriageReturn ∉ unread.take a.bytes := fun h => hcr (List.mem_of_mem_take h)
    have hself := filter_self hncr
    have hreceive : receiveLine a unread =
        (.failed (a.broken.getD "timeout") (unread.take a.bytes), unread.drop a.bytes) := by
      unfold receiveLine
      dsimp only
      rw [if_neg hnl, htext, hself]
    refine ⟨unread.take a.bytes, by rw [hreceive], hnl, ?_⟩
    rw [hreceive]
    exact hunread.symm

/-- **The wire has what was taken**: all of it, or the tail is still to be sent. -/
theorem sockSend_spec (t : Taking) (data : Bytes) :
    sockSend t data = (data, .sent) ∨
      ∃ last, sockSend t data = (data.take last, .failed (t.broken.getD "timeout") last) := by
  unfold sockSend
  split_ifs
  · exact Or.inl rfl
  · exact Or.inr ⟨t.bytes, rfl⟩

end Socket

/-! ### Sending -/

/-- **What is left to send follows what is on the wire.** -/
structure Flushed (w : World) : Prop where
  connected : w.ipc.sock = true → w.ipc.connected = true
  left : w.ipc.sock = true → w.wire ++ w.ipc.txBuf = w.queued
  wire : w.wire <+: w.queued

/-- What sending leaves alone: what was read, unless the client is stopped. -/
structure Keeps (w w' : World) : Prop where
  unread : w'.unread = w.unread
  handed : w'.handed = w.handed
  sock : w'.ipc.sock = true → w.ipc.sock = true
  rxBuf : w'.ipc.sock = true → w'.ipc.rxBuf = w.ipc.rxBuf

section Sends
variable {out : Outside} {w w' w'' : World}

theorem Keeps.refl : Keeps w w := ⟨rfl, rfl, fun hsock => hsock, fun _ => rfl⟩

theorem Keeps.trans (h : Keeps w w') (h' : Keeps w' w'') : Keeps w w'' :=
  ⟨h'.unread.trans h.unread, h'.handed.trans h.handed, fun hsock => h.sock (h'.sock hsock),
    fun hsock => (h'.rxBuf hsock).trans (h.rxBuf (h'.sock hsock))⟩

theorem Flushed.stop (h : Flushed w) : Flushed w.stop :=
  ⟨fun hsock => absurd hsock Bool.false_ne_true, fun hsock => absurd hsock Bool.false_ne_true, h.wire⟩

theorem keeps_stop : Keeps w w.stop :=
  ⟨rfl, rfl, fun hsock => absurd hsock Bool.false_ne_true, fun hsock => absurd hsock Bool.false_ne_true⟩

theorem Flushed.fail (h : Flushed w) : Flushed w.fail := by
  unfold World.fail
  split_ifs
  · exact h.stop
  · exact h

theorem keeps_fail : Keeps w w.fail := by
  unfold World.fail
  split_ifs
  · exact keeps_stop
  · exact Keeps.refl

/-- **What `flush` comes to**: nothing was to be done, everything is sent, a tail is kept, or the client
fails with a wire that has a part of what it had to send. -/
theorem flush_cases (out : Outside) (w : World) :
    w.flush out = w ∨
    (w.ipc.sock = true ∧ ∃ bytes left, w.ipc.txBuf = bytes ++ left ∧
      (w.flush out = { w with
          ipc := { w.ipc with txBuf := left }, sends := w.sends + 1, wire := w.wire ++ bytes } ∨
        ((out.takes w.sends).broken.isSome = true ∧
          w.flush out = World.fail { w with sends := w.sends + 1, wire := w.wire ++ bytes }))) := by
  unfold World.flush
  split_ifs with hidle
  · exact Or.inl rfl
  · have hsock : w.ipc.sock = true := by
      rw [not_or, Bool.not_eq_false] at hidle
      exact hidle.1
    refine Or.inr ⟨hsock, ?_⟩
    rcases sockSend_spec (out.takes w.sends) w.ipc.txBuf with h | ⟨last, h⟩
    · rw [h]
      exact ⟨w.ipc.txBuf, [], (List.append_nil _).symm, Or.inl rfl⟩
    · rw [h]
      dsimp only
      refine ⟨w.ipc.txBuf.take last, w.ipc.txBuf.drop last, (List.take_append_drop _ _).symm, ?_⟩
      by_cases herr : (out.takes w.sends).broken.getD "timeout" = "timeout"
      · rw [if_pos herr]
        exact Or.inl rfl
      · rw [if_neg herr]
        have hsome : (out.takes w.sends).broken.isSome = true := by
          rw [Option.isSome_iff_ne_none]
          intro hnone
          rw [hnone] at herr
          exact herr rfl
        exact Or.inr ⟨hsome, rfl⟩

theorem Flushed.flush (h : Flushed w) : Flushed (w.flush out) := by
  rcases flush_cases out w with heq | ⟨hsock, bytes, left, htx, hsent⟩
  · rw [heq]
    exact h
  · have hall : (w.wire ++ bytes) ++ left = w.queued := by
      rw [List.append_assoc, ← htx]
      exact h.left hsock
    rcases hsent with heq | ⟨-, heq⟩
    · rw [heq]
      exact ⟨h.connected, fun _ => hall, ⟨left, hall⟩⟩
    · rw [heq]
      unfold World.fail
      rw [if_pos (h.connected hsock)]
      exact ⟨fun hno => absurd hno Bool.false_ne_true, fun hno => absurd hno Bool.false_ne_true, ⟨left, hall⟩⟩

theorem keeps_flush (out : Outside) (w : World) : Keeps w (w.flush out) := by
  rcases flush_cases out w with heq | ⟨-, bytes, left, -, heq | ⟨-, heq⟩⟩
  · rw [heq]
    exact Keeps.refl
  · rw [heq]
    exact ⟨rfl, rfl, fun hsock => hsock, fun _ => rfl⟩
  · rw [heq]
    have hfail := keeps_fail (w := { w with sends := w.sends + 1, wire := w.wire ++ bytes })
    exact ⟨hfail.unread, hfail.handed, hfail.sock, hfail.rxBuf⟩

/-- A socket that does not break is not given up. -/
theorem sock_flush (hcalm : ∀ n, (out.takes n).broken = none) : (w.flush out).ipc.sock = w.ipc.sock := by
  rcases flush_cases out w with heq | ⟨-, bytes, left, -, heq | ⟨hbroken, -⟩⟩
  · rw [heq]
  · rw [heq]
  · rw [hcalm] at hbroken
    cases hbroken

/-- **A request** is refused, or its line is queued and flushed. -/
theorem request_cases (out : Outside) (w : World) (line : Option Bytes) (callback : Bool) :
    w.request out line callback = w ∨
      ∃ text, w.request out line callback = (w.queue text callback).flush out := by
  unfold World.request
  split_ifs
  · rcases line with _ | text
    · exact Or.inl rfl
    · exact Or.inr ⟨text, rfl⟩
  · exact Or.inl rfl

theorem Flushed.queue (h : Flushed w) (line : Bytes) (callback : Bool) : Flushed (w.queue line callback) := by
  refine ⟨h.connected, fun hsock => ?_, h.wire.trans (List.prefix_append _ _)⟩
  show w.wire ++ (w.ipc.txBuf ++ (line ++ [newline])) = w.queued ++ (line ++ [newline])
  rw [← List.append_assoc, h.left hsock]

theorem keeps_queue (w : World) (line : Bytes) (callback : Bool) : Keeps w (w.queue line callback) :=
  ⟨rfl, rfl, fun hsock => hsock, fun _ => rfl⟩

theorem Flushed.act (h : Flushed w) (act : Action) : Flushed (w.act out act) := by
  cases act with
  | request line callback =>
    show Flushed (w.request out line callback)
    rcases request_cases out w line callback with heq | ⟨text, heq⟩
    · rw [heq]
      exact h
    · rw [heq]
      exact (h.queue text callback).flush
  | fail => exact h.fail
  | stop => exact h.stop

theorem keeps_act (out : Outside) (w : World) (act : Action) : Keeps w (w.act out act) := by
  cases act with
  | request line callback =>
    show Keeps w (w.request out line callback)
    rcases request_cases out w line callback with heq | ⟨text, heq⟩
    · rw [heq]
      exact Keeps.refl
    · rw [heq]
      exact (keeps_queue w text callback).trans (keeps_flush out _)
  | fail => exact keeps_fail
  | stop => exact keeps_stop

theorem sock_act (hcalm : ∀ n, (out.takes n).broken = none) (act : Action) (hact : act.IsRequest) :
    (w.act out act).ipc.sock = w.ipc.sock := by
  cases act with
  | request line callback =>
    show (w.request out line callback).ipc.sock = w.ipc.sock
    rcases request_cases out w line callback with heq | ⟨text, heq⟩
    · rw [heq]
    · rw [heq, sock_flush hcalm]
      rfl
  | fail => exact hact.elim
  | stop => exact hact.elim

theorem Flushed.callback (h : Flushed w) (n : ℕ) : Flushed (w.callback out n) := by
  unfold World.callback
  induction out.handler n generalizing w with
  | nil => exact h
  | cons act acts ih => exact ih (h.act act)

/-- **A callback** leaves alone what was read. -/
theorem keeps_callback (out : Outside) (w : World) (n : ℕ) : Keeps w (w.callback out n) := by
  unfold World.callback
  induction out.handler n generalizing w with
  | nil => exact Keeps.refl
  | cons act acts ih => exact (keeps_act out w act).trans (ih _)

theorem sock_callback (hcalm : ∀ n, (out.takes n).broken = none) {n : ℕ}
    (hacts : ∀ act ∈ out.handler n, act.IsRequest) : (w.callback out n).ipc.sock = w.ipc.sock := by
  unfold World.callback
  revert hacts
  induction out.handler n generalizing w with
  | nil => exact fun _ => rfl
  | cons act acts ih =>
    intro hacts
    rw [List.foldl_cons, ih fun act hact => hacts act (List.mem_cons_of_mem _ hact)]
    exact sock_act hcalm act (hacts act List.mem_cons_self)

/-- **What `handleLine` comes to**: the line is handed on, and perhaps a callback runs. -/
theorem handleLine_cases (out : Outside) (w : World) (line : Bytes) : ∃ pending,
    w.handleLine out line =
        { w with handed := w.handed ++ [line], ipc := { w.ipc with pending := pending } } ∨
      w.handleLine out line = World.callback out
        { w with handed := w.handed ++ [line], ipc := { w.ipc with pending := pending } } w.handed.length := by
  unfold World.handleLine
  dsimp only
  split_ifs
  · exact ⟨w.ipc.pending, Or.inl rfl⟩
  · split
    · exact ⟨w.ipc.pending, Or.inl rfl⟩
    · split
      · next id _ =>
        refine ⟨w.ipc.pending.filter fun i => i ≠ id, ?_⟩
        split_ifs
        · exact Or.inr rfl
        · exact Or.inl rfl
      · refine ⟨w.ipc.pending, ?_⟩
        split_ifs
        · exact Or.inr rfl
        · exact Or.inl rfl

theorem keeps_handleLine (out : Outside) (w : World) (line : Bytes) :
    Keeps { w with handed := w.handed ++ [line] } (w.handleLine out line) := by
  obtain ⟨pending, heq⟩ := handleLine_cases out w line
  have hkeeps : Keeps { w with handed := w.handed ++ [line] }
      { w with handed := w.handed ++ [line], ipc := { w.ipc with pending := pending } } :=
    ⟨rfl, rfl, fun hsock => hsock, fun _ => rfl⟩
  rcases heq with heq | heq
  · rw [heq]
    exact hkeeps
  · rw [heq]
    exact hkeeps.trans (keeps_callback out _ _)

theorem Flushed.handleLine (h : Flushed w) (line : Bytes) : Flushed (w.handleLine out line) := by
  obtain ⟨pending, heq⟩ := handleLine_cases out w line
  have hhanded : Flushed
      { w with handed := w.handed ++ [line], ipc := { w.ipc with pending := pending } } :=
    ⟨h.connected, h.left, h.wire⟩
  rcases heq with heq | heq
  · rw [heq]
    exact hhanded
  · rw [heq]
    exact hhanded.callback _

theorem sock_handleLine {events : List Event} (hcalm : Calm out events) (line : Bytes) :
    (w.handleLine out line).ipc.sock = w.ipc.sock := by
  obtain ⟨pending, heq | heq⟩ := handleLine_cases out w line
  · rw [heq]
  · rw [heq, sock_callback hcalm.sends (hcalm.handlers _)]

end Sends

/-! ### Reading -/

/-- **What was received is the lines that were handed on, and the carry-over.** -/
def Read (stream : Bytes) (w : World) : Prop :=
  ∃ received rest, stream = received ++ w.unread ∧ Cut newline received w.handed rest ∧
    (w.ipc.sock = true → rest = w.ipc.rxBuf)

section Reads
variable {out : Outside} {w w' : World} {stream : Bytes} {a : Arrival}

theorem Read.keeps (h : Read stream w) (hkeeps : Keeps w w') : Read stream w' := by
  obtain ⟨received, rest, hstream, hcut, hrest⟩ := h
  refine ⟨received, rest, ?_, ?_, fun hsock => ?_⟩
  · rw [hkeeps.unread]
    exact hstream
  · rw [hkeeps.handed]
    exact hcut
  · rw [hkeeps.rxBuf hsock]
    exact hrest (hkeeps.sock hsock)

theorem Read.noReturn (h : Read stream w) (hcr : carriageReturn ∉ stream) : carriageReturn ∉ w.unread := by
  obtain ⟨received, rest, hstream, -⟩ := h
  rw [hstream, List.mem_append, not_or] at hcr
  exact hcr.2

/-- The beginning of a line comes. -/
theorem Read.more (h : Read stream w) {consumed unread : Bytes} (hno : newline ∉ consumed)
    (hunread : w.unread = consumed ++ unread) :
    Read stream { w with ipc := { w.ipc with rxBuf := w.ipc.rxBuf ++ consumed }, unread := unread } := by
  obtain ⟨received, rest, hstream, hcut, hrest⟩ := h
  refine ⟨received ++ consumed, rest ++ consumed, ?_, hcut.more hno, fun hsock => ?_⟩
  · rw [hstream, hunread, List.append_assoc]
  · rw [hrest hsock]

/-- **A line comes**: the carry-over goes in front of it. -/
theorem Read.line (h : Read stream w) (hsock : w.ipc.sock = true) {l unread : Bytes} (hno : newline ∉ l)
    (hunread : w.unread = (l ++ [newline]) ++ unread) {line : Bytes} (hline : line = w.ipc.rxBuf ++ l) :
    Read stream { w with
      ipc := { w.ipc with rxBuf := [] }, unread := unread, handed := w.handed ++ [line] } := by
  obtain ⟨received, rest, hstream, hcut, hrest⟩ := h
  have hends := hcut.ends hno
  rw [hrest hsock, ← hline] at hends
  refine ⟨received ++ (l ++ [newline]), [], ?_, hends, fun _ => rfl⟩
  rw [hstream, hunread]
  simp

/-- **What a poll keeps**, whatever comes. -/
theorem waitEvent_spec (hcr : carriageReturn ∉ stream) (hflushed : Flushed w) (hread : Read stream w) :
    Flushed (w.waitEvent out a).1 ∧ Read stream (w.waitEvent out a).1 := by
  unfold World.waitEvent
  by_cases hsock : w.ipc.sock = false
  · rw [if_pos hsock]
    exact ⟨hflushed, hread⟩
  · rw [if_neg hsock]
    have hf : Flushed (w.flush out) := hflushed.flush
    have hr : Read stream (w.flush out) := hread.keeps (keeps_flush out w)
    dsimp only
    generalize w.flush out = w at hf hr ⊢
    by_cases hlost : w.ipc.sock = false
    · rw [if_pos hlost]
      exact ⟨hf, hr⟩
    · rw [if_neg hlost]
      rw [Bool.not_eq_false] at hlost
      rcases receiveLine_spec (a := a) (hr.noReturn hcr) with ⟨l, heq, hno, hunread⟩ | ⟨consumed, heq, hno, hunread⟩
      · rw [heq]
        dsimp only
        have hline : (if w.ipc.rxBuf = [] then l else w.ipc.rxBuf ++ l) = w.ipc.rxBuf ++ l := by
          by_cases hempty : w.ipc.rxBuf = []
          · rw [if_pos hempty, hempty, List.nil_append]
          · rw [if_neg hempty]
        have htaken : Flushed
            { w with ipc := { w.ipc with rxBuf := [] }, unread := (receiveLine a w.unread).2 } :=
          ⟨hf.connected, hf.left, hf.wire⟩
        have hkeeps := keeps_handleLine out
          { w with ipc := { w.ipc with rxBuf := [] }, unread := (receiveLine a w.unread).2 }
          (if w.ipc.rxBuf = [] then l else w.ipc.rxBuf ++ l)
        exact ⟨htaken.handleLine _, (hr.line hlost hno hunread hline).keeps hkeeps⟩
      · rw [heq]
        dsimp only
        have htaken : Flushed { w with
            ipc := { w.ipc with rxBuf := w.ipc.rxBuf ++ consumed }, unread := (receiveLine a w.unread).2 } :=
          ⟨hf.connected, hf.left, hf.wire⟩
        have hmore := hr.more hno hunread
        by_cases herr : a.broken.getD "timeout" = "timeout"
        · rw [if_pos herr]
          exact ⟨htaken, hmore⟩
        · rw [if_neg herr]
          exact ⟨htaken.fail, hmore.keeps keeps_fail⟩

theorem step_spec (hcr : carriageReturn ∉ stream) (hflushed : Flushed w) (hread : Read stream w)
    (event : Event) : Flushed (w.step out event) ∧ Read stream (w.step out event) := by
  cases event with
  | poll a => exact waitEvent_spec hcr hflushed hread
  | act act => exact ⟨hflushed.act act, hread.keeps (keeps_act out w act)⟩

/-- **A poll of a calm socket** goes on with what `receive` left. -/
theorem waitEvent_calm {events : List Event} (hcalm : Calm out events) (ha : a.broken = none)
    (hcr : carriageReturn ∉ w.unread) (hsock : w.ipc.sock = true) :
    (w.waitEvent out a).1.ipc.sock = true ∧
      (w.waitEvent out a).1.unread = (receiveLine a w.unread).2 := by
  have hstill : (w.flush out).ipc.sock = true := (sock_flush hcalm.sends).trans hsock
  unfold World.waitEvent
  rw [if_neg (by simp [hsock])]
  dsimp only
  rw [if_neg (by simp [hstill]), (keeps_flush out w).unread]
  rcases receiveLine_spec (a := a) hcr with ⟨l, heq, -⟩ | ⟨consumed, heq, -⟩
  · rw [heq]
    dsimp only
    exact ⟨(sock_handleLine hcalm _).trans hstill, (keeps_handleLine out _ _).unread⟩
  · rw [heq, ha]
    exact ⟨hstill, rfl⟩

theorem step_calm {events : List Event} (hcalm : Calm out events) {event : Event} (hevent : event ∈ events)
    (hcr : carriageReturn ∉ w.unread) (hsock : w.ipc.sock = true) :
    (w.step out event).ipc.sock = true ∧ (w.step out event).unread = leaves w.unread event := by
  have hone := hcalm.events event hevent
  cases event with
  | poll a => exact waitEvent_calm hcalm hone hcr hsock
  | act act => exact ⟨(sock_act hcalm.sends act hone).trans hsock, (keeps_act out w act).unread⟩

end Reads

/-! ### All events -/

section Events
variable {out : Outside} {hello : Option Bytes} {stream : Bytes} {events : List Event}

theorem connect_spec : Flushed (connect out hello stream) ∧ Read stream (connect out hello stream) := by
  unfold connect
  have hflushed : Flushed
      { ipc := { sock := true, connected := true, rxBuf := [], txBuf := [], pending := [], nextId := 1 }
        unread := stream, sends := 0, wire := [], queued := [], handed := [] } :=
    ⟨fun _ => rfl, fun _ => rfl, List.nil_prefix⟩
  have hread : Read stream
      { ipc := { sock := true, connected := true, rxBuf := [], txBuf := [], pending := [], nextId := 1 }
        unread := stream, sends := 0, wire := [], queued := [], handed := [] } :=
    ⟨[], [], rfl, cut_nil, fun _ => rfl⟩
  exact ⟨hflushed.act (.request hello true), hread.keeps (keeps_act out _ (.request hello true))⟩

theorem run_spec (out : Outside) (hello : Option Bytes) (events : List Event)
    (hcr : carriageReturn ∉ stream) :
    Flushed (run out hello stream events) ∧ Read stream (run out hello stream events) := by
  induction events using List.reverseRecOn with
  | nil => exact connect_spec
  | append_singleton events event ih =>
    unfold run at ih ⊢
    rw [List.foldl_append]
    exact step_spec hcr ih.1 ih.2 event

theorem connect_calm (hcalm : ∀ n, (out.takes n).broken = none) :
    (connect out hello stream).ipc.sock = true ∧ (connect out hello stream).unread = stream :=
  ⟨sock_act hcalm (.request hello true) trivial, (keeps_act out _ (.request hello true)).unread⟩

theorem run_calm (hello : Option Bytes) (hcr : carriageReturn ∉ stream) (hcalm : Calm out events) :
    (run out hello stream events).ipc.sock = true ∧
      (run out hello stream events).unread = leftOver stream events := by
  induction events using List.reverseRecOn with
  | nil => exact connect_calm hcalm.sends
  | append_singleton events event ih =>
    have hearlier : Calm out events :=
      ⟨fun e he => hcalm.events e (List.mem_append_left _ he), hcalm.sends, hcalm.handlers⟩
    obtain ⟨hsock, hunread⟩ := ih hearlier
    have hnone := (run_spec out hello events hcr).2.noReturn hcr
    have hstep := step_calm hcalm (List.mem_append_right _ (List.mem_singleton_self event)) hnone hsock
    unfold leftOver run at hunread ⊢
    rw [List.foldl_append, List.foldl_append, ← hunread]
    exact hstep

/-- **Line reassembly**, for every stream without carriage returns, however the socket cuts it and takes
what is sent, and whatever the callbacks and the user interface do. -/
theorem reassembles (hcr : carriageReturn ∉ stream) : Reassembles out hello stream events := by
  obtain ⟨hflushed, received, rest, hstream, hcut, hrest⟩ :=
    run_spec out hello events hcr
  refine ⟨⟨received, rest, hstream, hcut.splitOn_eq⟩, fun hcalm => ?_, hflushed.wire⟩
  obtain ⟨hsock, hunread⟩ := run_calm hello hcr hcalm
  refine ⟨hunread, received, ?_, ?_⟩
  · rw [← hunread]
    exact hstream
  · rw [← hrest hsock]
    exact hcut.splitOn_eq

end Events

/-- The text of an empty object. -/
def emptyObject : Bytes := [123, 125]

/-- Three bytes go out with each `send`, and each line that comes queues another request. -/
def slowOutside : Outside where
  decode line := if line = emptyObject then some ⟨none, false⟩ else none
  takes _ := { bytes := 3 }
  handler _ := [.request (some emptyObject) true]

/-- A line comes in two pieces, and the user interface asks in between. -/
def askedBetween : List Event :=
  [.act (.request (some emptyObject) true), .poll { bytes := 1 }, .act (.request (some emptyObject) false),
    .poll { bytes := 2 }]

theorem reassembles_twoPieces : carriageReturn ∉ emptyObject ++ [newline] ∧
    Calm slowOutside askedBetween ∧
    Reassembles slowOutside (some [34, 104, 105, 34]) (emptyObject ++ [newline]) askedBetween :=
  ⟨by decide, ⟨by simp [askedBetween, Event.IsCalm, Action.IsRequest], fun _ => rfl,
    by simp [slowOutside, Action.IsRequest]⟩, reassembles (by decide)⟩

end Kmatrix.Ipc.Reassembly
