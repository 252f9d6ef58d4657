import Kmatrix.Ipc.Reassembly
import Kmatrix.Lib.Trace
import Mathlib.Algebra.GroupWithZero.Nat

/-! # Every request is answered

A callback that is passed to `IPC:request` is called on the spot, where the request cannot be sent, or it
is filed under the request's id. A response takes it out of the table and calls it; `fail` swaps the table
out and calls all that were in it. `stop` forgets the table.

The calls on a client come from outside, one after the other (`Op`): from the plugin's screens and from the
event loop. What a callback does when it is called comes with it, and is calls on the client again, so what is
still to be done is a stack (`todo`): `advance` takes the uppermost piece of work off it, and `step` goes on
until a call has returned. It always does, since the callbacks are called once (`advance_weight`). What the
socket does, what a line decodes to, and the order in which `pairs` goes through the table are decided from
outside too.

* `Answered`: once a connection has been stopped or lost, each callback that was passed to a request on it
  has been called as often as it was passed, with the response that carries its id or with a failure.
* `answered_of_fine`: that is so in every run that stops no client with a callback in its table, and files
  no callback over another. -/

namespace Kmatrix.Ipc.Answers

open Kmatrix.Ipc.Reassembly Kmatrix.Lib.Trace

/-! ### The data -/

/-- The `id` of a message: a number, or any other value, written out. -/
inductive Id where
  | num (n : ℕ)
  | other (s : String)
  deriving DecidableEq

/-- What is looked at in a decoded line. -/
structure Incoming where
  id : Option Id
  ok : Bool := false
  error : Option String := none
  event : Bool := false

/-- What a callback is called with: a response, or a failure made up by the client. -/
inductive Reply where
  | response (msg : Incoming)
  | failure (error : String)

def Reply.ok : Reply → Bool
  | .response msg => msg.ok
  | .failure _ => false

def Reply.error : Reply → Option String
  | .response msg => msg.error
  | .failure error => some error

/-- The callback of the handshake, or one that is given. -/
inductive Callback where
  | hello
  | given (n : ℕ)
  deriving DecidableEq

/-- A callback passed to a request: on which connection, and under which id it is filed, if it is. -/
structure Pass where
  callback : Callback
  conn : ℕ
  id : Option Id
  deriving DecidableEq

inductive Entry where
  | passed (p : Pass)
  | called (p : Pass) (reply : Reply)

/-- A request: an `id` among its fields, its line, if it can be encoded, its callback, if it has one, and
what the socket takes of it. -/
structure Query where
  own : Option Id := none
  line : Option Bytes := some []
  callback : Option ℕ := none
  taking : Taking := ⟨0, none⟩

/-- **A call on the client**, and what the socket does in it. `does` is what the callback of a request does
when it is called. -/
inductive Op where
  | connect (created accepted : Bool) (hello : Option Bytes) (taking : Taking)
  | request (q : Query) (does : List Op)
  | waitEvent (taking : Taking) (received : Received)
  | stop

/-- What a call comes to; `raises` is an index into a socket that is gone. -/
inductive Returned where
  | bool (b : Bool)
  | inputEvent
  | nothing
  | raises
  deriving DecidableEq

/-- `IPC`; a callback is filed with what it does. -/
structure Client where
  sock : Bool := false
  connected : Bool := false
  rxBuf : Bytes := []
  txBuf : Bytes := []
  pending : List (Pass × List Op) := []
  nextId : ℕ := 1

/-- What is still to be done in a call on the client. -/
inductive Frame where
  | op (op : Op)
  | call (p : Pass) (does : List Op) (reply : Reply)
  | disconnected
  /-- `waitEvent`, from where it has flushed. -/
  | receive (received : Received)
  | returns (r : Returned)

/-- The client, the number of its connections, what is still to be done and what `on_disconnect` is going to do,
time after time; and what happened to its callbacks. -/
structure State where
  ipc : Client := {}
  conn : ℕ := 0
  todo : List Frame := []
  disconnects : List (List Op) := []
  returned : Returned := .nothing
  log : List Entry := []

/-- **What is decided by the runtime**: `JSON.decode`, `none` where it raises or gives no table; and the
order of `pairs`. -/
structure Runtime where
  decode : Bytes → Option Incoming
  pairs : List (Pass × List Op) → List (Pass × List Op)
  perm : ∀ l, (pairs l).Perm l

/-! ### The client -/

def State.note (s : State) (e : Entry) : State := { s with log := s.log ++ [e] }

/-- This is to be done next. -/
def State.push (s : State) (work : List Frame) : State := { s with todo := work ++ s.todo }

/-- **`IPC:stop`.** -/
def State.stop (s : State) : State :=
  { s with
    ipc := { s.ipc with sock := false, connected := false, pending := [], rxBuf := [], txBuf := [] } }

section Client
variable (rt : Runtime)

/-- **`IPC:fail`**: the callbacks of the table are called one by one, then `on_disconnect`. -/
def State.fail (err : String) (s : State) : State :=
  if s.ipc.connected = false then s
  else s.stop.push ((rt.pairs s.ipc.pending).map (fun c => .call c.1 c.2 (.failure err)) ++ [.disconnected])

/-- A callback is called. That of the handshake is the client's own. -/
def State.call (p : Pass) (does : List Op) (reply : Reply) (s : State) : State :=
  let s := s.note (.called p reply)
  if p.callback = .hello then
    if reply.ok then s else s.fail rt (reply.error.getD "handshake rejected")
  else s.push (does.map .op)

/-- **`IPC:flush`.** -/
def State.flush (t : Taking) (s : State) : State :=
  if s.ipc.sock = false ∨ s.ipc.txBuf = [] then s
  else
    match (sockSend t s.ipc.txBuf).2 with
    | .sent => { s with ipc := { s.ipc with txBuf := [] } }
    | .failed err last =>
      if err = "timeout" then { s with ipc := { s.ipc with txBuf := s.ipc.txBuf.drop last } }
      else s.fail rt err

/-- A request that cannot be sent: its callback is called on the spot. -/
def State.refuse (callback : Option Callback) (does : List Op) (error : String) (s : State) : State :=
  match callback with
  | none => s
  | some callback =>
    let p : Pass := ⟨callback, s.conn, none⟩
    (s.note (.passed p)).push [.call p does (.failure error)]

/-- The callback is filed under the id. -/
def State.file (id : Id) (callback : Option Callback) (does : List Op) (s : State) : State :=
  match callback with
  | none => s
  | some callback =>
    let p : Pass := ⟨callback, s.conn, some id⟩
    { s.note (.passed p) with
      ipc := { s.ipc with pending := (s.ipc.pending.filter fun c => c.1.id ≠ some id) ++ [(p, does)] } }

/-- **`IPC:request`.** -/
def State.request (own : Option Id) (line : Option Bytes) (callback : Option Callback) (does : List Op)
    (taking : Taking) (s : State) : State :=
  if (s.ipc.connected && s.ipc.sock) = false then
    (s.push [.returns (.bool false)]).refuse callback does "not connected"
  else
    let id := own.getD (.num s.ipc.nextId)
    match line with
    | none => (s.push [.returns (.bool false)]).refuse callback does "encode failed"
    | some line =>
      let s := { s with ipc := { s.ipc with nextId := s.ipc.nextId + 1 } }
      let s := s.file id callback does
      let s := { s with ipc := { s.ipc with txBuf := s.ipc.txBuf ++ (line ++ [newline]) } }
      (s.push [.returns (.bool true)]).flush rt taking

/-- **`IPC:handleLine`.** -/
def State.handleLine (line : Bytes) (s : State) : State :=
  if line = [] then s
  else
    match rt.decode line with
    | none => s
    | some msg =>
      match msg.id with
      | none => s
      | some id =>
        let callback := s.ipc.pending.find? fun c => c.1.id = some id
        let s := { s with ipc := { s.ipc with pending := s.ipc.pending.filter fun c => c.1.id ≠ some id } }
        match callback with
        | some (p, does) => s.push [.call p does (.response msg)]
        | none => s

/-- `waitEvent` goes on once it has flushed. -/
def State.receive (received : Received) (s : State) : State :=
  if s.ipc.sock = false then s.push [.returns .raises]
  else
    match received with
    | .line line =>
      let line := if s.ipc.rxBuf = [] then line else s.ipc.rxBuf ++ line
      State.handleLine rt line ({ s with ipc := { s.ipc with rxBuf := [] } }.push [.returns .inputEvent])
    | .failed err partly =>
      let s := { s with ipc := { s.ipc with rxBuf := s.ipc.rxBuf ++ partly } }.push [.returns .nothing]
      if err = "timeout" then s else s.fail rt err

/-- **`IPC:waitEvent`.** -/
def State.waitEvent (taking : Taking) (received : Received) (s : State) : State :=
  if s.ipc.sock = false then s.push [.returns .nothing]
  else (s.push [.receive received]).flush rt taking

/-- **`IPC:connect`.** -/
def State.connect (created accepted : Bool) (hello : Option Bytes) (taking : Taking) (s : State) : State :=
  let s := if s.ipc.sock then s.stop else s
  if created = false then s.push [.returns (.bool false)]
  else if accepted = false then s.push [.returns (.bool false)]
  else
    let s := { s with ipc := { sock := true, connected := true }, conn := s.conn + 1 }
    (s.push [.returns (.bool true)]).request rt none hello (some .hello) [] taking

def State.perform (s : State) : Op → State
  | .connect created accepted hello taking => s.connect rt created accepted hello taking
  | .request q does => s.request rt q.own q.line (q.callback.map .given) does q.taking
  | .waitEvent taking received => s.waitEvent rt taking received
  | .stop => s.stop.push [.returns .nothing]

/-- A piece of work is done. -/
def State.work (s : State) : Frame → State
  | .op op => s.perform rt op
  | .call p does reply => s.call rt p does reply
  | .disconnected =>
    match s.disconnects with
    | [] => s
    | ops :: more => { s with disconnects := more }.push (ops.map .op)
  | .receive received => s.receive rt received
  | .returns r => { s with returned := r }

/-- **The uppermost piece of work.** -/
def advance (s : State) : State :=
  match s.todo with
  | [] => s
  | f :: rest => { s with todo := rest }.work rt f

end Client

/-! #### How much there is to do -/

mutual
def Op.weight : Op → ℕ
  | .connect _ _ _ _ => 6
  | .request _ does => 4 + opsWeight does
  | .waitEvent _ _ => 4
  | .stop => 2

def opsWeight : List Op → ℕ
  | [] => 0
  | op :: ops => op.weight + opsWeight ops
end

def Frame.weight : Frame → ℕ
  | .op o => o.weight
  | .call _ does _ => 1 + opsWeight does
  | .disconnected => 1
  | .receive _ => 2
  | .returns _ => 1

/-- A bound on what is still to be done: the stack, the callbacks of the table, `on_disconnect`. -/
def State.weight (s : State) : ℕ :=
  (s.todo.map Frame.weight).sum + (s.ipc.pending.map fun c => 1 + opsWeight c.2).sum +
    (s.disconnects.map opsWeight).sum + if s.ipc.connected then 1 else 0

/-- A call from outside begins. -/
def State.begin (s : State) (op : Op) : State := s.push [.op op]

/-- **A call from outside**, until it returns. -/
def step (rt : Runtime) (s : State) (op : Op) : State × Returned :=
  let s := (advance rt)^[(s.begin op).weight] (s.begin op)
  (s, s.returned)

/-! ### The statement -/

def Entry.passed? : Entry → Option Pass
  | .passed p => some p
  | .called _ _ => none

def Entry.called? : Entry → Option Pass
  | .passed _ => none
  | .called p _ => some p

/-- The callbacks that were passed. -/
def State.passes (s : State) : List Pass := s.log.filterMap Entry.passed?

/-- The callbacks that were called. -/
def State.calls (s : State) : List Pass := s.log.filterMap Entry.called?

/-- **Every request is answered.** -/
structure Answered (s : State) : Prop where
  /-- A callback that belongs to no open connection was called as often as it was passed. -/
  once : ∀ p, (s.ipc.connected = true → p.conn ≠ s.conn) → s.calls.count p = s.passes.count p
  /-- No callback is called again. -/
  atMost : ∀ p, s.calls.count p ≤ s.passes.count p
  /-- A response carries the id of the callback it is given to. -/
  carries : ∀ p msg, .called p (.response msg) ∈ s.log → msg.id ≠ none ∧ p.id = msg.id

/-- **No callback is forgotten** by the call that is about to be made: a client is stopped with an empty table,
and an id is filed once. -/
def Fine (s : State) : Prop :=
  match s.todo with
  | .op (.connect _ _ _ _) :: _ => s.ipc.sock = true → s.ipc.pending = []
  | .op (.request q _) :: _ => s.ipc.connected = true → q.line ≠ none → q.callback ≠ none →
      ∀ c ∈ s.ipc.pending, c.1.id ≠ some (q.own.getD (.num s.ipc.nextId))
  | .op .stop :: _ => s.ipc.pending = []
  | _ => True

/-- A call from outside forgets no callback, nor does one that is made in the course of it. -/
def Careful (rt : Runtime) (s : State) (op : Op) : Prop := ∀ k, Fine ((advance rt)^[k] (s.begin op))

/-! ### A call returns -/

section Weights
variable (rt : Runtime) (s : State)

theorem opsWeight_eq_sum (ops : List Op) : opsWeight ops = (ops.map Op.weight).sum := by
  induction ops with
  | nil => rw [opsWeight, List.map_nil, List.sum_nil]
  | cons op ops ih => rw [opsWeight, ih, List.map_cons, List.sum_cons]

theorem weight_push (work : List Frame) : (s.push work).weight = (work.map Frame.weight).sum + s.weight := by
  unfold State.weight State.push
  dsimp only
  rw [List.map_append, List.sum_append]
  omega

/-- The calls of a list of operations, as work. -/
theorem weight_ops (ops : List Op) : ((ops.map Frame.op).map Frame.weight).sum = opsWeight ops := by
  rw [List.map_map, opsWeight_eq_sum]
  rfl

theorem weight_stop : s.stop.weight ≤ s.weight := by
  unfold State.weight State.stop
  dsimp only
  rw [List.map_nil, List.sum_nil, if_neg Bool.false_ne_true]
  omega

/-- **A lost connection** makes work of its table, and is lost once. -/
theorem weight_fail (err : String) : (s.fail rt err).weight ≤ s.weight := by
  unfold State.fail
  split_ifs with hopen
  · exact le_refl _
  · have hcalls : (((rt.pairs s.ipc.pending).map fun c => Frame.call c.1 c.2 (.failure err)).map
        Frame.weight).sum = (s.ipc.pending.map fun c => 1 + opsWeight c.2).sum := by
      rw [List.map_map]
      exact ((rt.perm s.ipc.pending).map _).sum_nat
    rw [weight_push, List.map_append, List.sum_append, hcalls]
    unfold State.weight State.stop
    simp only [List.map_cons, List.map_nil, List.sum_cons, List.sum_nil, Frame.weight, Bool.false_eq_true, if_false]
    rw [if_pos (by simpa using hopen)]
    omega

theorem weight_note (e : Entry) : (s.note e).weight = s.weight := rfl

theorem weight_call (p : Pass) (does : List Op) (reply : Reply) :
    (s.call rt p does reply).weight ≤ s.weight + opsWeight does := by
  unfold State.call
  dsimp only
  split_ifs
  · rw [weight_note]
    omega
  · have hfail := weight_fail rt (s.note (.called p reply)) (reply.error.getD "handshake rejected")
    rw [weight_note] at hfail
    omega
  · rw [weight_push, weight_note, weight_ops]
    omega

theorem weight_flush (t : Taking) : (s.flush rt t).weight ≤ s.weight := by
  unfold State.flush
  split_ifs
  · exact le_refl _
  · split
    · exact le_refl _
    · split_ifs
      · exact le_refl _
      · exact weight_fail rt s _

theorem weight_refuse (callback : Option Callback) (does : List Op) (error : String) :
    (s.refuse callback does error).weight ≤ s.weight + (1 + opsWeight does) := by
  unfold State.refuse
  rcases callback with _ | callback
  · exact Nat.le_add_right _ _
  · dsimp only
    rw [weight_push, weight_note]
    simp only [List.map_cons, List.map_nil, List.sum_cons, List.sum_nil, Frame.weight]
    omega

theorem sum_filter_le (l : List (Pass × List Op)) (keep : Pass × List Op → Bool) :
    ((l.filter keep).map fun c => 1 + opsWeight c.2).sum ≤ (l.map fun c => 1 + opsWeight c.2).sum := by
  induction l with
  | nil => exact le_refl _
  | cons c l ih =>
    rw [List.filter_cons, List.map_cons, List.sum_cons]
    split_ifs
    · rw [List.map_cons, List.sum_cons]
      omega
    · omega

theorem weight_file (id : Id) (callback : Option Callback) (does : List Op) :
    (s.file id callback does).weight ≤ s.weight + (1 + opsWeight does) := by
  unfold State.file
  rcases callback with _ | callback
  · exact Nat.le_add_right _ _
  · have hfilter := sum_filter_le s.ipc.pending fun c => c.1.id ≠ some id
    unfold State.weight State.note
    dsimp only
    rw [List.map_append, List.sum_append, List.map_singleton, List.sum_singleton]
    dsimp only
    omega

theorem weight_request (own : Option Id) (line : Option Bytes) (callback : Option Callback) (does : List Op)
    (taking : Taking) : (s.request rt own line callback does taking).weight ≤ s.weight + (2 + opsWeight does) := by
  have hrefused : ∀ error, ((s.push [.returns (.bool false)]).refuse callback does error).weight ≤
      s.weight + (2 + opsWeight does) := by
    intro error
    have hrefuse := weight_refuse (s.push [.returns (.bool false)]) callback does error
    rw [weight_push] at hrefuse
    simp only [List.map_cons, List.map_nil, List.sum_cons, List.sum_nil, Frame.weight] at hrefuse
    omega
  unfold State.request
  split_ifs
  · exact hrefused _
  · rcases line with _ | line
    · exact hrefused _
    · dsimp only
      refine (weight_flush rt _ taking).trans ?_
      rw [weight_push]
      simp only [List.map_cons, List.map_nil, List.sum_cons, List.sum_nil, Frame.weight]
      have hfile : ∀ (s' : State) (id : Id), s'.weight = s.weight →
          (s'.file id callback does).weight ≤ s.weight + (1 + opsWeight does) :=
        fun s' id hs' => hs' ▸ weight_file s' id callback does
      have hsame : ∀ (s' : State) (txBuf : Bytes),
          State.weight { s' with ipc := { s'.ipc with txBuf := txBuf } } = s'.weight := fun _ _ => rfl
      rw [hsame]
      have hfiled := hfile { s with ipc := { s.ipc with nextId := s.ipc.nextId + 1 } }
        (own.getD (.num s.ipc.nextId)) rfl
      exact (Nat.add_le_add_left hfiled 1).trans (by omega)

/-- An entry that is taken out of the table. -/
theorem sum_filter_find {l : List (Pass × List Op)} {id : Id} {c : Pass × List Op}
    (hfind : l.find? (fun c => c.1.id = some id) = some c) :
    ((l.filter fun c => c.1.id ≠ some id).map fun c => 1 + opsWeight c.2).sum + (1 + opsWeight c.2) ≤
      (l.map fun c => 1 + opsWeight c.2).sum := by
  induction l with
  | nil => cases hfind
  | cons x l ih =>
    rw [List.map_cons, List.sum_cons]
    by_cases hid : x.1.id = some id
    · rw [List.find?_cons_of_pos (by simpa using hid)] at hfind
      obtain rfl := Option.some.inj hfind
      have hfilter := sum_filter_le l fun c => c.1.id ≠ some id
      rw [List.filter_cons_of_neg (by simpa using hid)]
      omega
    · rw [List.find?_cons_of_neg (by simpa using hid)] at hfind
      have hrest := ih hfind
      rw [List.filter_cons_of_pos (by simpa using hid), List.map_cons, List.sum_cons]
      omega

theorem weight_handleLine (line : Bytes) : (s.handleLine rt line).weight ≤ s.weight := by
  unfold State.handleLine
  split_ifs
  · exact le_refl _
  · rcases rt.decode line with _ | msg
    · exact le_refl _
    · dsimp only
      rcases msg.id with _ | id
      · exact le_refl _
      · dsimp only
        rcases hfind : s.ipc.pending.find? (fun c => c.1.id = some id) with _ | ⟨p, does⟩
        · have hfilter := sum_filter_le s.ipc.pending fun c => c.1.id ≠ some id
          rw [hfind]
          unfold State.weight
          dsimp only
          omega
        · have htaken := sum_filter_find hfind
          rw [hfind]
          dsimp only at htaken ⊢
          rw [weight_push]
          unfold State.weight
          simp only [List.map_cons, List.map_nil, List.sum_cons, List.sum_nil, Frame.weight]
          omega

theorem weight_receive (received : Received) : (s.receive rt received).weight ≤ s.weight + 1 := by
  have hreturns : ∀ (s' : State) (r : Returned), (s'.push [.returns r]).weight = s'.weight + 1 := by
    intro s' r
    rw [weight_push]
    simp only [List.map_cons, List.map_nil, List.sum_cons, List.sum_nil, Frame.weight]
    omega
  unfold State.receive
  by_cases hsock : s.ipc.sock = false
  · rw [if_pos hsock]
    exact (hreturns s _).le
  · rw [if_neg hsock]
    rcases received with line | ⟨err, partly⟩
    · exact (weight_handleLine rt _ _).trans (hreturns _ _).le
    · dsimp only
      split_ifs
      · exact (hreturns _ _).le
      · exact (weight_fail rt _ _).trans (hreturns _ _).le

theorem weight_perform (op : Op) : (s.perform rt op).weight < s.weight + op.weight := by
  have hone : ∀ (s' : State) (f : Frame), (s'.push [f]).weight = f.weight + s'.weight := by
    intro s' f
    rw [weight_push, List.map_singleton, List.sum_singleton]
  cases op with
  | connect created accepted hello taking =>
    have hclosed : (if s.ipc.sock then s.stop else s).weight ≤ s.weight := by
      split_ifs
      · exact weight_stop s
      · exact le_refl _
    show (s.connect rt created accepted hello taking).weight < s.weight + Op.weight _
    unfold State.connect
    rw [Op.weight]
    dsimp only
    generalize (if s.ipc.sock then s.stop else s) = s' at hclosed
    split_ifs
    · rw [hone, Frame.weight]
      omega
    · rw [hone, Frame.weight]
      omega
    · have hrequest := weight_request rt (State.push
        { s' with ipc := { sock := true, connected := true }, conn := s'.conn + 1 } [.returns (.bool true)])
        none hello (some .hello) [] taking
      rw [hone, Frame.weight, opsWeight] at hrequest
      have hopen : State.weight { s' with ipc := { sock := true, connected := true }, conn := s'.conn + 1 } ≤
          s'.weight + 1 := by
        unfold State.weight
        dsimp only
        rw [List.map_nil, List.sum_nil, if_pos rfl]
        omega
      omega
  | request q does =>
    have hrequest := weight_request rt s q.own q.line (q.callback.map .given) does q.taking
    show (s.request rt q.own q.line (q.callback.map .given) does q.taking).weight < s.weight + Op.weight _
    rw [Op.weight]
    omega
  | waitEvent taking received =>
    show (s.waitEvent rt taking received).weight < s.weight + Op.weight _
    rw [Op.weight]
    unfold State.waitEvent
    split_ifs
    · rw [hone, Frame.weight]
      omega
    · have hflush := weight_flush rt (s.push [.receive received]) taking
      rw [hone, Frame.weight] at hflush
      omega
  | stop =>
    have hstop := weight_stop s
    show (s.stop.push [.returns .nothing]).weight < s.weight + Op.weight _
    rw [Op.weight, hone, Frame.weight]
    omega

/-- **Every piece of work leaves less to do.** -/
theorem weight_work (f : Frame) : (s.work rt f).weight < s.weight + f.weight := by
  cases f with
  | op o => exact weight_perform rt s o
  | call p does reply =>
    have hcall := weight_call rt s p does reply
    show (s.call rt p does reply).weight < s.weight + (1 + opsWeight does)
    omega
  | disconnected =>
    unfold State.work
    dsimp only
    rw [Frame.weight]
    rcases hops : s.disconnects with _ | ⟨ops, more⟩
    · exact Nat.lt_succ_self _
    · dsimp only
      rw [weight_push, weight_ops]
      unfold State.weight
      rw [hops, List.map_cons, List.sum_cons]
      dsimp only
      omega
  | receive received =>
    have hreceive := weight_receive rt s received
    show (s.receive rt received).weight < s.weight + 2
    omega
  | returns r => exact Nat.lt_succ_self _

variable {s}

theorem advance_weight (h : s.todo ≠ []) : (advance rt s).weight < s.weight := by
  unfold advance
  rcases htodo : s.todo with _ | ⟨f, rest⟩
  · exact absurd htodo h
  · have hwork := weight_work rt { s with todo := rest } f
    have hall : s.weight = State.weight { s with todo := rest } + f.weight := by
      unfold State.weight
      rw [htodo, List.map_cons, List.sum_cons]
      dsimp only
      omega
    rw [hall]
    exact hwork

/-- **Everything is done** after as many pieces of work as there may be. -/
theorem todo_advance {n : ℕ} (s : State) (h : s.weight ≤ n) : ((advance rt)^[n] s).todo = [] :=
  iterate_done (fun _ => advance_weight rt)
    (fun s' hs' => by
      unfold advance
      rw [hs']
      exact hs') n s h

/-- **A call from outside returns**, with everything done. -/
theorem todo_step (s : State) (op : Op) : (step rt s op).1.todo = [] := todo_advance rt _ (le_refl _)

end Weights

/-! ### The invariant -/

/-- The callback that a piece of work calls. -/
def Frame.calls? : Frame → Option Pass
  | .call p _ _ => some p
  | _ => none

/-- What a list of work calls. -/
def callsOf (work : List Frame) : List Pass := work.filterMap Frame.calls?

/-- What is still to be called: the table, and what is about to be called. -/
def State.owed (s : State) : List Pass := s.ipc.pending.map Prod.fst ++ callsOf s.todo

/-- A response that is about to be given carries the id of the callback. -/
def Carried (work : List Frame) : Prop :=
  ∀ p does msg, .call p does (.response msg) ∈ work → msg.id ≠ none ∧ p.id = msg.id

/-- **Each callback was called or is owed a call**, be it one that is about to be made (`due`). -/
structure Inv (due : List Pass) (s : State) : Prop where
  sync : s.ipc.sock = s.ipc.connected
  idle : s.ipc.connected = false → s.ipc.pending = []
  conn : ∀ c ∈ s.ipc.pending, c.1.conn = s.conn
  filed : (s.ipc.pending.map fun c => c.1.id).Nodup
  balanced : ∀ p, s.passes.count p = s.calls.count p + s.owed.count p + due.count p
  carries : ∀ p msg, .called p (.response msg) ∈ s.log → msg.id ≠ none ∧ p.id = msg.id
  carried : Carried s.todo

theorem inv_fresh (disconnects : List (List Op)) : Inv [] { disconnects := disconnects } where
  sync := rfl
  idle _ := rfl
  conn _ h := absurd h List.not_mem_nil
  filed := List.nodup_nil
  balanced _ := rfl
  carries _ _ h := absurd h List.not_mem_nil
  carried _ _ _ h := absurd h List.not_mem_nil

variable {rt : Runtime} {s : State} {due : List Pass}

theorem Inv.answered (h : Inv [] s) (htodo : s.todo = []) : Answered s where
  once p hconn := by
    have hcount := h.balanced p
    have howed : s.owed.count p = 0 := by
      refine List.count_eq_zero.mpr fun hp => ?_
      unfold State.owed at hp
      rw [htodo, show callsOf [] = [] from rfl, List.append_nil] at hp
      obtain ⟨c, hc, rfl⟩ := List.mem_map.mp hp
      cases hopen : s.ipc.connected with
      | false =>
        rw [h.idle hopen] at hc
        cases hc
      | true => exact hconn hopen (h.conn c hc)
    have hdue : ([] : List Pass).count p = 0 := rfl
    omega
  atMost p := by
    have hcount := h.balanced p
    omega
  carries := h.carries

/-! ### What each operation keeps -/

/-- **Work is pushed**: what it calls was due. -/
theorem inv_push {work : List Frame} (h : Inv (callsOf work ++ due) s) (hwork : Carried work) :
    Inv due (s.push work) where
  sync := h.sync
  idle := h.idle
  conn := h.conn
  filed := h.filed
  balanced p := by
    have hcount := h.balanced p
    have hcalls : callsOf (work ++ s.todo) = callsOf work ++ callsOf s.todo := List.filterMap_append
    have howed : (s.push work).owed = s.ipc.pending.map Prod.fst ++ callsOf (work ++ s.todo) := rfl
    unfold State.owed at hcount
    rw [List.count_append, List.count_append] at hcount
    rw [howed, hcalls, List.count_append, List.count_append]
    show s.passes.count p = s.calls.count p + _ + _
    omega
  carries := h.carries
  carried p does msg hmem := by
    rcases List.mem_append.mp hmem with hmem | hmem
    · exact hwork p does msg hmem
    · exact h.carried p does msg hmem

/-- Work that calls nothing. -/
theorem inv_plain {f : Frame} (h : Inv due s) (hf : f.calls? = none) : Inv due (s.push [f]) := by
  have hcalls : callsOf [f] = [] := by
    unfold callsOf
    rw [List.filterMap_cons, hf, List.filterMap_nil]
  refine inv_push (by rw [hcalls]; exact h) fun p does msg hmem => ?_
  rw [← List.mem_singleton.mp hmem] at hf
  cases hf

/-- **Work is taken off**: what it calls is due. -/
theorem inv_pop {f : Frame} {rest : List Frame} (h : Inv [] s) (htodo : s.todo = f :: rest) :
    Inv (callsOf [f]) { s with todo := rest } where
  sync := h.sync
  idle := h.idle
  conn := h.conn
  filed := h.filed
  balanced p := by
    have hcount := h.balanced p
    have hcalls : callsOf (f :: rest) = callsOf [f] ++ callsOf rest := by
      rw [show f :: rest = [f] ++ rest from rfl]
      exact List.filterMap_append
    unfold State.owed at hcount ⊢
    rw [htodo, hcalls, List.count_append, List.count_append, List.count_nil] at hcount
    rw [List.count_append]
    show s.passes.count p = s.calls.count p + _ + _
    dsimp only
    omega
  carries := h.carries
  carried p does msg hmem := h.carried p does msg (by rw [htodo]; exact List.mem_cons_of_mem _ hmem)

/-- A client with an empty table is stopped. -/
theorem inv_stop (h : Inv due s) (hempty : s.ipc.pending = []) : Inv due s.stop where
  sync := rfl
  idle _ := rfl
  conn _ hp := absurd hp List.not_mem_nil
  filed := List.nodup_nil
  balanced p := by
    have hcount := h.balanced p
    unfold State.owed at hcount
    rw [hempty] at hcount
    exact hcount
  carries := h.carries
  carried := h.carried

/-- **A lost connection** makes work of the table. -/
theorem inv_fail (h : Inv due s) (err : String) : Inv due (s.fail rt err) := by
  unfold State.fail
  split_ifs
  · exact h
  · set work := (rt.pairs s.ipc.pending).map (fun c => Frame.call c.1 c.2 (.failure err)) ++ [.disconnected]
      with hwork
    have hcalls : callsOf work = (rt.pairs s.ipc.pending).map Prod.fst := by
      rw [hwork]
      unfold callsOf
      rw [List.filterMap_append, List.filterMap_map]
      exact (List.append_nil _).trans (List.filterMap_eq_map (f := Prod.fst) ▸ rfl)
    refine inv_push ⟨rfl, fun _ => rfl, fun _ hp => absurd hp List.not_mem_nil, List.nodup_nil, fun p => ?_,
      h.carries, h.carried⟩ fun p does msg hmem => ?_
    · have hcount := h.balanced p
      have hperm := ((rt.perm s.ipc.pending).map Prod.fst).count_eq p
      unfold State.owed at hcount ⊢
      rw [List.count_append] at hcount
      have happend : ((rt.pairs s.ipc.pending).map Prod.fst ++ due).count p =
          ((rt.pairs s.ipc.pending).map Prod.fst).count p + due.count p := List.count_append
      rw [hcalls, happend]
      show s.passes.count p = s.calls.count p + (callsOf s.todo).count p + _
      omega
    · rw [hwork] at hmem
      rcases List.mem_append.mp hmem with hmem | hmem
      · obtain ⟨c, -, hc⟩ := List.mem_map.mp hmem
        cases hc
      · cases List.mem_singleton.mp hmem

theorem passes_note (e : Entry) : (s.note e).passes = s.passes ++ e.passed?.toList := by
  unfold State.passes State.note
  rw [List.filterMap_append]
  cases e <;> rfl

theorem calls_note (e : Entry) : (s.note e).calls = s.calls ++ e.called?.toList := by
  unfold State.calls State.note
  rw [List.filterMap_append]
  cases e <;> rfl

/-- A callback is passed: it is owed a call. -/
theorem inv_passed (h : Inv due s) (p : Pass) : Inv (p :: due) (s.note (.passed p)) where
  sync := h.sync
  idle := h.idle
  conn := h.conn
  filed := h.filed
  balanced q := by
    have hcount := h.balanced q
    have howed : (s.note (.passed p)).owed = s.owed := rfl
    rw [passes_note, calls_note, howed, List.count_append, List.count_append]
    simp only [Entry.passed?, Entry.called?, Option.toList, List.count_nil, List.count_cons]
    omega
  carries q msg hq := by
    rcases List.mem_append.mp hq with hq | hq
    · exact h.carries q msg hq
    · cases List.mem_singleton.mp hq
  carried := h.carried

/-- The calls that a callback makes are called by nobody yet. -/
theorem inv_ops (h : Inv due s) (ops : List Op) : Inv due (s.push (ops.map .op)) := by
  have hcalls : callsOf (ops.map .op) = [] := by
    unfold callsOf
    rw [List.filterMap_map]
    exact List.filterMap_eq_nil_iff.mpr fun _ _ => rfl
  refine inv_push (by rw [hcalls]; exact h) fun p does msg hmem => ?_
  obtain ⟨op, -, hop⟩ := List.mem_map.mp hmem
  cases hop

/-- **A callback is called**, and no longer owed a call. -/
theorem inv_call {p : Pass} {does : List Op} {reply : Reply} (h : Inv (p :: due) s)
    (hreply : ∀ msg, reply = .response msg → msg.id ≠ none ∧ p.id = msg.id) :
    Inv due (s.call rt p does reply) := by
  have hcalled : Inv due (s.note (.called p reply)) :=
    { sync := h.sync
      idle := h.idle
      conn := h.conn
      filed := h.filed
      balanced := fun q => by
        have hcount := h.balanced q
        have howed : (s.note (.called p reply)).owed = s.owed := rfl
        rw [passes_note, calls_note, howed, List.count_append, List.count_append]
        rw [List.count_cons] at hcount
        simp only [Entry.passed?, Entry.called?, Option.toList, List.count_nil, List.count_cons]
        omega
      carries := fun q msg hq => by
        rcases List.mem_append.mp hq with hq | hq
        · exact h.carries q msg hq
        · obtain ⟨rfl, hmsg⟩ := Entry.called.inj (List.mem_singleton.mp hq)
          exact hreply msg hmsg.symm
      carried := h.carried }
  unfold State.call
  dsimp only
  split_ifs
  · exact hcalled
  · exact inv_fail hcalled _
  · exact inv_ops hcalled does

theorem inv_flush (h : Inv due s) (t : Taking) : Inv due (s.flush rt t) := by
  unfold State.flush
  split_ifs
  · exact h
  · split
    · exact ⟨h.sync, h.idle, h.conn, h.filed, h.balanced, h.carries, h.carried⟩
    · split_ifs
      · exact ⟨h.sync, h.idle, h.conn, h.filed, h.balanced, h.carries, h.carried⟩
      · exact inv_fail h _

theorem inv_refuse (h : Inv due s) (callback : Option Callback) (does : List Op) (error : String) :
    Inv due (s.refuse callback does error) := by
  unfold State.refuse
  rcases callback with _ | callback
  · exact h
  · refine inv_push (inv_passed h _) fun p does' msg hmem => ?_
    cases List.mem_singleton.mp hmem

/-- **A callback is filed** under an id that is free. -/
theorem inv_file (h : Inv due s) {id : Id} {callback : Option Callback} (does : List Op)
    (hopen : s.ipc.connected = true) (hfree : callback ≠ none → ∀ c ∈ s.ipc.pending, c.1.id ≠ some id) :
    Inv due (s.file id callback does) := by
  unfold State.file
  rcases callback with _ | callback
  · exact h
  · have hfree := hfree (by simp)
    have hfilter : (s.ipc.pending.filter fun c => c.1.id ≠ some id) = s.ipc.pending :=
      List.filter_eq_self.mpr fun c hc => decide_eq_true (hfree c hc)
    have hpassed := inv_passed h ⟨callback, s.conn, some id⟩
    dsimp only
    rw [hfilter]
    exact {
      sync := h.sync
      idle := fun hc => by
        rw [show s.ipc.connected = false from hc] at hopen
        cases hopen
      conn := fun c hc => by
        rcases List.mem_append.mp hc with hc | hc
        · exact h.conn c hc
        · rw [List.mem_singleton.mp hc]
          rfl
      filed := by
        show ((s.ipc.pending ++ [_]).map fun c : Pass × List Op => c.1.id).Nodup
        rw [List.map_append]
        refine List.nodup_append.mpr ⟨h.filed, List.pairwise_singleton _ _, ?_⟩
        intro a ha b hb hab
        obtain ⟨c, hc, rfl⟩ := List.mem_map.mp ha
        rw [List.map_singleton, List.mem_singleton] at hb
        exact hfree c hc (hab.trans hb)
      balanced := fun q => by
        have hcount := hpassed.balanced q
        rw [List.count_cons] at hcount
        unfold State.owed at hcount ⊢
        simp only [List.map_append, List.map_cons, List.map_nil, List.count_append, List.count_cons,
          List.count_nil] at hcount ⊢
        show (s.note (.passed _)).passes.count q = (s.note (.passed _)).calls.count q + _ + _
        simp only [State.note] at hcount ⊢
        omega
      carries := hpassed.carries
      carried := h.carried }

theorem inv_request (h : Inv due s) {own : Option Id} {line : Option Bytes} {callback : Option Callback}
    {does : List Op} {taking : Taking} (hfree : s.ipc.connected = true → line ≠ none → callback ≠ none →
      ∀ c ∈ s.ipc.pending, c.1.id ≠ some (own.getD (.num s.ipc.nextId))) :
    Inv due (s.request rt own line callback does taking) := by
  unfold State.request
  split_ifs with hopen
  · exact inv_refuse (inv_plain h rfl) _ _ _
  · have hconnected : s.ipc.connected = true := by
      cases hc : s.ipc.connected with
      | false => simp [hc] at hopen
      | true => rfl
    rcases line with _ | line
    · exact inv_refuse (inv_plain h rfl) _ _ _
    · have hcounted : Inv due { s with ipc := { s.ipc with nextId := s.ipc.nextId + 1 } } :=
        ⟨h.sync, h.idle, h.conn, h.filed, h.balanced, h.carries, h.carried⟩
      have hfiled := inv_file hcounted does hconnected (hfree hconnected (by simp))
      refine inv_flush (inv_plain ?_ rfl) taking
      exact ⟨hfiled.sync, hfiled.idle, hfiled.conn, hfiled.filed, hfiled.balanced, hfiled.carries,
        hfiled.carried⟩

/-- An entry with a key of its own is taken out of a table. -/
theorem count_filter_of_find {l : List (Pass × List Op)} {id : Id} (h : (l.map fun c => c.1.id).Nodup)
    {c : Pass × List Op} (hfind : l.find? (fun c => c.1.id = some id) = some c) (q : Pass) :
    (l.map Prod.fst).count q = ((l.filter fun c => c.1.id ≠ some id).map Prod.fst).count q + [c.1].count q := by
  induction l with
  | nil => cases hfind
  | cons x l ih =>
    obtain ⟨hx, hl⟩ := List.nodup_cons.mp h
    by_cases hid : x.1.id = some id
    · rw [List.find?_cons_of_pos (by simpa using hid)] at hfind
      obtain rfl := Option.some.inj hfind
      have hrest : (l.filter fun c => c.1.id ≠ some id) = l := by
        refine List.filter_eq_self.mpr fun y hy => decide_eq_true fun hy' => hx ?_
        show x.1.id ∈ l.map fun c => c.1.id
        rw [hid, ← hy']
        exact List.mem_map_of_mem (f := fun c : Pass × List Op => c.1.id) hy
      rw [List.filter_cons_of_neg (by simpa using hid), hrest, List.map_cons, List.count_cons,
        List.count_singleton]
    · rw [List.find?_cons_of_neg (by simpa using hid)] at hfind
      rw [List.filter_cons_of_pos (by simpa using hid), List.map_cons, List.map_cons, List.count_cons,
        List.count_cons, ih hl hfind]
      omega

/-- **A line**: its callback is taken out of the table and is to be called. -/
theorem inv_handleLine (h : Inv due s) (line : Bytes) : Inv due (s.handleLine rt line) := by
  unfold State.handleLine
  split_ifs
  · exact h
  · rcases rt.decode line with _ | msg
    · exact h
    · dsimp only
      rcases hid : msg.id with _ | id
      · exact h
      · dsimp only
        have hconn : ∀ c ∈ s.ipc.pending.filter (fun c => c.1.id ≠ some id), c.1.conn = s.conn :=
          fun c hc => h.conn c (List.mem_of_mem_filter hc)
        have hidle : s.ipc.connected = false → s.ipc.pending.filter (fun c => c.1.id ≠ some id) = [] := by
          intro hc
          rw [h.idle hc]
          rfl
        have hfiled : ((s.ipc.pending.filter fun c => c.1.id ≠ some id).map fun c => c.1.id).Nodup :=
          h.filed.sublist (List.filter_sublist.map _)
        rcases hfind : s.ipc.pending.find? (fun c => c.1.id = some id) with _ | ⟨p, does⟩
        · have hfilter : (s.ipc.pending.filter fun c => c.1.id ≠ some id) = s.ipc.pending := by
            refine List.filter_eq_self.mpr fun c hc => ?_
            simpa using List.find?_eq_none.mp hfind c hc
          rw [hfind, hfilter]
          exact h
        · have hp : p.id = some id := by simpa using List.find?_some hfind
          rw [hfind]
          refine inv_push ⟨h.sync, hidle, hconn, hfiled, fun q => ?_, h.carries, h.carried⟩ ?_
          · have hcount := h.balanced q
            have htaken := count_filter_of_find h.filed hfind q
            unfold State.owed at hcount ⊢
            rw [List.count_append] at hcount ⊢
            rw [List.count_append, show callsOf [Frame.call p does (.response msg)] = [p] from rfl]
            show s.passes.count q = s.calls.count q + _ + _
            dsimp only at hcount htaken ⊢
            omega
          · intro p' does' msg' hmem
            obtain ⟨rfl, -, hmsg⟩ := Frame.call.inj (List.mem_singleton.mp hmem)
            obtain rfl := Reply.response.inj hmsg
            exact ⟨by rw [hid]; simp, by rw [hp, hid]⟩

theorem inv_receive (h : Inv due s) (received : Received) : Inv due (s.receive rt received) := by
  have hread : ∀ rxBuf : Bytes, Inv due { s with ipc := { s.ipc with rxBuf := rxBuf } } := fun _ =>
    ⟨h.sync, h.idle, h.conn, h.filed, h.balanced, h.carries, h.carried⟩
  unfold State.receive
  by_cases hsock : s.ipc.sock = false
  · rw [if_pos hsock]
    exact inv_plain h rfl
  · rw [if_neg hsock]
    rcases received with line | ⟨err, partly⟩ <;> dsimp only
    · exact inv_handleLine (inv_plain (hread _) rfl) _
    · split_ifs
      · exact inv_plain (hread _) rfl
      · exact inv_fail (inv_plain (hread _) rfl) _

theorem inv_connect (h : Inv due s) {created accepted : Bool} {hello : Option Bytes} {taking : Taking}
    (hempty : s.ipc.sock = true → s.ipc.pending = []) :
    Inv due (s.connect rt created accepted hello taking) := by
  -- with or without a socket, the table is empty from here on
  obtain ⟨s', hs', hinv, hpending⟩ : ∃ s', (if s.ipc.sock then s.stop else s) = s' ∧ Inv due s' ∧
      s'.ipc.pending = [] := by
    refine ⟨_, rfl, ?_⟩
    split_ifs with hsock
    · exact ⟨inv_stop h (hempty hsock), rfl⟩
    · refine ⟨h, h.idle ?_⟩
      rw [← h.sync]
      simpa using hsock
  unfold State.connect
  rw [hs']
  dsimp only
  split_ifs
  · exact inv_plain hinv rfl
  · exact inv_plain hinv rfl
  · refine inv_request (inv_plain ?_ rfl) fun _ _ _ c hc => absurd hc List.not_mem_nil
    refine ⟨rfl, fun hc => absurd hc (by simp), fun c hc => absurd hc List.not_mem_nil, List.nodup_nil,
      fun q => ?_, hinv.carries, hinv.carried⟩
    have hcount := hinv.balanced q
    unfold State.owed at hcount
    rw [hpending] at hcount
    exact hcount

/-- **Every piece of work keeps the balance**, where it forgets no callback. -/
theorem inv_advance (h : Inv [] s) (hfine : Fine s) : Inv [] (advance rt s) := by
  unfold advance
  rcases htodo : s.todo with _ | ⟨f, rest⟩
  · exact h
  have hpop := inv_pop h htodo
  unfold Fine at hfine
  rw [htodo] at hfine
  cases f with
  | op op =>
    cases op with
    | connect created accepted hello taking => exact inv_connect hpop hfine
    | request q does =>
      exact inv_request hpop fun hc hline hcallback =>
        hfine hc hline fun hnone => hcallback (by rw [hnone]; rfl)
    | waitEvent taking received =>
      show Inv [] (State.waitEvent rt taking received _)
      unfold State.waitEvent
      split_ifs
      · exact inv_plain hpop rfl
      · exact inv_flush (inv_plain hpop rfl) taking
    | stop => exact inv_plain (inv_stop hpop hfine) rfl
  | call p does reply =>
    refine inv_call hpop fun msg hmsg => ?_
    subst hmsg
    exact h.carried p does msg (by rw [htodo]; exact List.mem_cons_self)
  | disconnected =>
    show Inv [] (State.work rt _ .disconnected)
    unfold State.work
    dsimp only
    split
    · exact hpop
    · refine inv_ops (?_ : Inv [] _) _
      exact ⟨hpop.sync, hpop.idle, hpop.conn, hpop.filed, hpop.balanced, hpop.carries, hpop.carried⟩
  | receive received => exact inv_receive hpop received
  | returns r => exact ⟨hpop.sync, hpop.idle, hpop.conn, hpop.filed, hpop.balanced, hpop.carries, hpop.carried⟩

/-- **Every call keeps the balance**, where no call in the course of it forgets a callback. -/
theorem inv_step (h : Inv [] s) {op : Op} (hcareful : Careful rt s op) : Inv [] (step rt s op).1 :=
  iterate_invariant (C := Fine) (fun _ hs hfine => inv_advance hs hfine) (inv_plain (f := .op op) h rfl) _
    fun k _ => hcareful k

/-- **Every plugin request is answered**, in every run that forgets no callback. -/
theorem answered_of_fine (rt : Runtime) (disconnects : List (List Op)) (ops : List Op)
    (h : ∀ o ∈ trace (step rt) { disconnects := disconnects } ops, Careful rt o.before o.input) :
    Answered (final (step rt) { disconnects := disconnects } ops) ∧
      ∀ o ∈ trace (step rt) { disconnects := disconnects } ops, Answered o.before := by
  have hstep : ∀ (past : List (Occ State Op Returned)) (s : State) (op : Op), Inv [] s ∧ s.todo = [] →
      Careful rt s op → Inv [] (step rt s op).1 ∧ (step rt s op).1.todo = [] :=
    fun _ s op hinv hcareful => ⟨inv_step hinv.1 hcareful, todo_step rt s op⟩
  have hfresh : Inv [] { disconnects := disconnects } ∧ State.todo { disconnects := disconnects } = [] :=
    ⟨inv_fresh disconnects, rfl⟩
  constructor
  · have hend := invariant (I := fun _ s => Inv [] s ∧ s.todo = []) hstep ops [] _ hfresh h
    exact hend.1.answered hend.2
  · intro o ho
    obtain ⟨past, future, hsplit⟩ := List.append_of_mem ho
    have hbefore := (at_step (I := fun _ s => Inv [] s ∧ s.todo = []) hfresh hstep h hsplit).1
    exact hbefore.1.answered hbefore.2

/-! ### A client that is stopped -/

instance (s : State) : Decidable (Fine s) := by
  unfold Fine
  split <;> infer_instance

/-- Nothing happens once everything is done. -/
theorem careful_of_lt {op : Op} (h : ∀ k, k < (s.begin op).weight → Fine ((advance rt)^[k] (s.begin op))) :
    Careful rt s op := by
  intro k
  by_cases hk : k < (s.begin op).weight
  · exact h k hk
  · unfold Fine
    rw [todo_advance rt (s.begin op) (by omega)]
    trivial

/-- A runtime whose one line is the response to the second request. -/
def plainRuntime : Runtime where
  decode line := if line = [123] then some { id := some (.num 2), ok := true } else none
  pairs l := l
  perm l := .refl l

/-- The plugin connects and asks for the rooms; when they come it asks for messages, and when those fail it
asks again, at once. -/
def asked : List Op :=
  [.connect true true (some []) ⟨100, none⟩,
    .request { callback := some 0, taking := ⟨100, none⟩ }
      [.request { callback := some 1, taking := ⟨100, none⟩ } [.request { callback := some 2 } []]]]

/-- The rooms come, then the socket breaks: the handshake that was never answered fails, and the messages. -/
def lost : List Op :=
  asked ++ [.waitEvent ⟨100, none⟩ (.line [123]), .waitEvent ⟨100, none⟩ (.failed "closed" [])]

/-- Its four callbacks are called, the last three of them when the connection is lost. -/
theorem answered_of_fine_lost : Answered (final (step plainRuntime) {} lost) ∧
    (∀ o ∈ trace (step plainRuntime) {} lost, Answered o.before) ∧
    (final (step plainRuntime) {} lost).calls =
      [⟨.given 0, 1, some (.num 2)⟩, ⟨.hello, 1, some (.num 1)⟩, ⟨.given 1, 1, some (.num 3)⟩,
        ⟨.given 2, 1, none⟩] := by
  have h := answered_of_fine plainRuntime [] lost fun o ho => by
    simp only [lost, asked, List.cons_append, List.nil_append, trace, List.mem_cons, List.not_mem_nil,
      or_false] at ho
    rcases ho with rfl | rfl | rfl | rfl <;> exact careful_of_lt (by decide +kernel)
  exact ⟨h.1, h.2, by decide +kernel⟩

/-- **A client that is stopped** while it waits for the rooms: nobody hears of them any more. -/
theorem not_answered_stop : ¬ Answered (final (step plainRuntime) {} (asked ++ [.stop])) := by
  intro h
  have honce := h.once ⟨.given 0, 1, some (.num 2)⟩ (by decide +kernel)
  revert honce
  decide +kernel

end Kmatrix.Ipc.Answers
