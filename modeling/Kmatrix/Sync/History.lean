import Kmatrix.Sync.Restore

/-! # The steps that store events

`process_sync` stores what the server sends, `do_load_older` pages a room backwards and restores it,
`refetch_placeholders` asks for single events again. A `Step` is one of the three together with what
the server answered; `runStep` is what it does to the store, and `processed` the events it gets to
convert, which depends on what is stored: a room that cannot be read ends a batch, a room paged to its
start is not paged again, and only the placeholders of a window are fetched. -/

namespace Kmatrix.Sync.History

open Kmatrix.E2ee.Ratchets Kmatrix.Storage.Seal Kmatrix.Storage.Schema Kmatrix.Storage.Write
open Kmatrix.Storage.Read Kmatrix.Sync.Plaintext Kmatrix.Sync.Events Kmatrix.Sync.Convert
open Kmatrix.Sync.Process Kmatrix.Sync.Rerun Kmatrix.Sync.Restore

/-- How many placeholders are fetched again at once. -/
def repairEvents : ℕ := 25

/-- What the Megolm layer makes of an event of a room while a step runs. -/
abbrev Decrypts := String → RoomEvent → String → String → Option String

/-- The key backup, and the keys held once it was asked. -/
structure Backup where
  imports : String → Option Pickle
  opens : String → String → Option String

/-- **One step**, with the server's answer. A page that came without a backup key is not restored. -/
inductive Step where
  | sync (decrypt : Decrypts) (batch : SyncBatch)
  | loadOlder (decrypt : Decrypts) (room : String) (chunk : List RoomEvent)
      (endToken : Option String) (backup : Option Backup)
  | refetch (decrypt : Decrypts) (room : String) (event : String → Option RoomEvent)

def Step.decrypt : Step → Decrypts
  | .sync decrypt _ => decrypt
  | .loadOlder decrypt _ _ _ _ => decrypt
  | .refetch decrypt _ _ => decrypt

/-- A sync records the edits of a room before it inserts its messages; the other steps take event by
event. -/
def Step.isSync : Step → Bool
  | .sync _ _ => true
  | _ => false

section Run
variable (serde : SerdeJson) (userId : String)

/-- The writes of events stored one after the other. -/
def eventOps (decrypt : Decrypts) (room : String) (evs : List RoomEvent) : List StoreOp :=
  evs.flatMap fun ev => (converts serde decrypt userId room ev).ops

/-- The writes of a page: its events, then the edge. -/
def pageOps (decrypt : Decrypts) (room : String) (chunk : List RoomEvent)
    (endToken : Option String) : List StoreOp :=
  eventOps serde userId decrypt room chunk ++
    [.setBackToken room endToken (endToken.isNone || chunk.isEmpty)]

variable {S : CipherSuite}

/-- The events asked for again. -/
def refetched (st : Store S) (room : String) (event : String → Option RoomEvent) : List RoomEvent :=
  (placeholderEventIds st room repairEvents).filterMap event

/-- **`process_sync`, `do_load_older`, `refetch_placeholders`.** -/
def runStep (rng : ℕ → Salts) (st : Store S) : Step → Store S
  | .sync decrypt batch => processSync (converts serde decrypt userId) rng st batch
  | .loadOlder decrypt room chunk endToken backup =>
    if (backToken st room).2 then st
    else
      let ops := pageOps serde userId decrypt room chunk endToken
      let st' := execOps rng st ops
      match backup with
      | none => st'
      | some b => restoreRoom serde b.imports b.opens room (fun i => rng (ops.length + i)) st'
  | .refetch decrypt room event =>
    execOps rng st (eventOps serde userId decrypt room (refetched st room event))

/-- The events a step converts, each with its room. -/
def processed (st : Store S) : Step → List (String × RoomEvent)
  | .sync _ batch =>
    (batch.join.takeWhile fun p => CanRead st p.1).flatMap fun p => p.2.timeline.map fun ev => (p.1, ev)
  | .loadOlder _ room chunk _ _ =>
    if (backToken st room).2 then [] else chunk.map fun ev => (room, ev)
  | .refetch _ room event => (refetched st room event).map fun ev => (room, ev)

/-- What a step's restore gets out of retrying the message `e`. -/
def retriesOf (rng : ℕ → Salts) (st : Store S) (e : String) : Step → List String
  | .loadOlder decrypt room chunk endToken (some b) =>
    if (backToken st room).2 then []
    else
      ((retried b.imports room
        (execOps rng st (pageOps serde userId decrypt room chunk endToken))).filter fun p =>
          p.1 = e).map (retryText serde b.opens)
  | _ => []

/-- A run, each step with the salts it draws. -/
def runSteps (st : Store S) (run : List (Step × (ℕ → Salts))) : Store S :=
  run.foldl (fun st p => runStep serde userId p.2 st p.1) st

end Run

end Kmatrix.Sync.History
