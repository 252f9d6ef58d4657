import Kmatrix.Storage.View
import Kmatrix.Sync.Convert

/-! # The rooms section of `process_sync`

For every joined room: read the stored room, fold the batch into it, and write in turn the members,
the edits found while converting the timeline, the messages, the room and the pagination edge; after
the last room the token. Every write is a transaction of its own. `convert` is `convertEvent` with
the keys held while the batch is processed. -/

namespace Kmatrix.Sync.Process

open Kmatrix.Storage.Seal Kmatrix.Storage.Schema Kmatrix.Storage.Write Kmatrix.Storage.Read
open Kmatrix.Sync.Events Kmatrix.Sync.Convert

section Room
variable (convert : RoomEvent → Converted) (roomId : String) (jr : JoinedRoom)

/-- The room as it is before the first batch names it. -/
def newRoom (roomId : String) : Room := ⟨roomId, roomId, false, 0, 0, ""⟩

/-- The messages of the timeline. -/
def messagesOf : List Message := jr.timeline.filterMap fun ev => (convert ev).message

/-- The edits of the timeline. -/
def editsIn : List Edit := jr.timeline.filterMap fun ev => (convert ev).edit

/-- The room after the batch, with the messages its timeline was converted to. -/
def finishRoom (msgs : List Message) (stored : Room) : Room :=
  let room := applyHeroes jr (jr.state.foldl applyState stored)
  let room := { room with
    unread := (jr.notificationCount : ℕ)
    encrypted := room.encrypted || jr.timeline.any fun ev => ev.kind = "m.room.encryption" }
  match msgs.getLast? with
  | some last => { room with lastTs := last.ts, lastPreview := preview last.body 64 }
  | none => room

/-- **The room after the batch.** -/
def foldRoom (stored : Room) : Room := finishRoom jr (messagesOf convert jr) stored

/-- **The writes of one room**, in their order. -/
def roomOps (stored : Option Room) : List StoreOp :=
  (if (memberNames jr).isEmpty then [] else [.rememberMembers roomId (memberNames jr)]) ++
    (editsIn convert jr).map Edit.op ++ (messagesOf convert jr).map .insertMessage ++
    [.upsertRoom (foldRoom convert jr (stored.getD (newRoom roomId)))] ++
    match jr.prevBatch with
    | some prev => [.seedBackToken roomId prev]
    | none => []

end Room

section Batch
variable {S : CipherSuite} (convert : String → RoomEvent → Converted)

/-- A run of writes, the `i`-th with the salts `rng i`. -/
def execOps (rng : ℕ → Salts) (st : Store S) (ops : List StoreOp) : Store S :=
  execAll st (ops.mapIdx fun i op => (op, rng i))

/-- **The writes of the rooms section** from the store `st`, and how it ended: the read of a room
can fail, and then nothing further is written. -/
def roomsTrace : (ℕ → Salts) → Store S → List (String × JoinedRoom) → List StoreOp × Except String Unit
  | _, _, [] => ([], .ok ())
  | rng, st, (roomId, jr) :: rest =>
    match getRoom st roomId with
    | .error e => ([], .error e)
    | .ok stored =>
      let ops := roomOps (convert roomId) roomId jr stored
      let (more, result) :=
        roomsTrace (fun i => rng (ops.length + i)) (execOps rng st ops) rest
      (ops ++ more, result)

/-- **The rooms section and the token.** The token is written once every room is stored. -/
def processTrace (rng : ℕ → Salts) (st : Store S) (batch : SyncBatch) :
    List StoreOp × Except String Unit :=
  let (ops, result) := roomsTrace convert rng st batch.join
  match result with
  | .ok () => (ops ++ [.setMeta "sync_token" batch.nextBatch], .ok ())
  | .error e => (ops, .error e)

/-- `process_sync`, uninterrupted. -/
def processSync (rng : ℕ → Salts) (st : Store S) (batch : SyncBatch) : Store S :=
  execOps rng st (processTrace convert rng st batch).1

/-- `process_sync`, stopped after `k` writes. -/
def interrupted (rng : ℕ → Salts) (st : Store S) (batch : SyncBatch) (k : ℕ) : Store S :=
  execOps rng st ((processTrace convert rng st batch).1.take k)

end Batch

end Kmatrix.Sync.Process
