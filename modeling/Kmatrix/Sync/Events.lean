import Kmatrix.Storage.Write
import Kmatrix.Sync.Plaintext
import Mathlib.Algebra.GroupWithZero.Nat
import Mathlib.Data.List.Sort

/-! # What a sync brings

The sync payload, and what the daemon reads off it before it stores anything: the room's name, its
members, its preview line. Numbers are as wide as the source has them. -/

namespace Kmatrix.Sync.Events

open Kmatrix.Storage.Schema Kmatrix.Sync.Plaintext

/-! ### The payload -/

abbrev U32 := Fin (2 ^ 32)

abbrev U64 := Fin (2 ^ 64)

instance neZero_u32 : NeZero (2 ^ 32) := ⟨by decide⟩

instance neZero_u64 : NeZero (2 ^ 64) := ⟨by decide⟩

/-- A room event, state or timeline. -/
structure RoomEvent where
  kind : String := ""
  sender : String := ""
  eventId : String := ""
  originServerTs : U64 := 0
  stateKey : Option String := none
  content : EventContent := {}

structure RoomSummary where
  heroes : List String := []
  joinedMemberCount : U32 := 0
  invitedMemberCount : U32 := 0

/-- A joined room: its state events, its timeline, its counts. -/
structure JoinedRoom where
  state : List RoomEvent := []
  timeline : List RoomEvent := []
  prevBatch : Option String := none
  notificationCount : U32 := 0
  summary : RoomSummary := {}

/-- What the rooms section and the token take from a response. The rooms come out of a hash map: no
id twice, and in an order that may differ from one parse of the response to the next. -/
structure SyncBatch where
  nextBatch : String
  join : List (String × JoinedRoom)
  nodup : (join.map Prod.fst).Nodup

/-! ### The preview line -/

/-- `char::is_control`. -/
def isControl (c : Char) : Bool := c.toNat < 0x20 || (0x7f ≤ c.toNat && c.toNat < 0xa0)

/-- `char::is_whitespace`. -/
def isWhitespace (c : Char) : Bool :=
  (0x9 ≤ c.toNat && c.toNat ≤ 0xd) || (0x2000 ≤ c.toNat && c.toNat ≤ 0x200a) ||
    [0x20, 0x85, 0xa0, 0x1680, 0x2028, 0x2029, 0x202f, 0x205f, 0x3000].contains c.toNat

/-- `str::split_whitespace`. -/
def splitWhitespace (cs : List Char) : List (List Char) :=
  (cs.splitOnP isWhitespace).filter fun w => !w.isEmpty

/-- Collapse a message body to a single line. -/
def preview (body : String) (max : ℕ) : String :=
  let flat := body.toList.map fun c => if isControl c then ' ' else c
  let flat := List.intercalate [' '] (splitWhitespace flat)
  if flat.length ≤ max then String.ofList flat
  else String.ofList (flat.take (max - 1) ++ ['\u2026'])

/-! ### Names -/

/-- `@alice:example.com` to `alice`. -/
def localpart (userId : String) : String :=
  let cs := match userId.toList with
    | '@' :: cs => cs
    | cs => cs
  String.ofList (cs.takeWhile fun c => c ≠ ':')

/-- A hero's display name if the server sent their membership, else their localpart. -/
def heroName (jr : JoinedRoom) (userId : String) : String :=
  let member := (jr.state ++ jr.timeline).find? fun ev =>
    ev.kind = "m.room.member" && ev.stateKey = some userId
  match member.bind fun ev => ev.content.displayname with
  | some name => if name = "" then localpart userId else name
  | none => localpart userId

/-- The listed names, then whoever is left once they and the user are accounted for. -/
def composeName (names : List String) (members : ℕ) : String :=
  -- the length is cast to a `u32`
  let others := members - 1 - names.length % 2 ^ 32
  let listed := ", ".intercalate names
  match others with
  | 0 => listed
  | 1 => listed ++ " and 1 other"
  | n => listed ++ " and " ++ toString n ++ " others"

def nameFromHeroes (jr : JoinedRoom) : Option String :=
  let members := (jr.summary.joinedMemberCount + jr.summary.invitedMemberCount).val
  if jr.summary.heroes.isEmpty then if members = 1 then some "Empty room" else none
  else some (composeName (jr.summary.heroes.map (heroName jr)) members)

/-- The membership the batch carries, as a map: the last event of a user counts. -/
def memberNames (jr : JoinedRoom) : List (String × Option String) :=
  let sent := (jr.state ++ jr.timeline).filterMap fun ev =>
    if ev.kind = "m.room.member" then ev.stateKey.map fun user => (user, ev.content.displayname)
    else none
  ((sent.map Prod.fst).dedup.insertionSort (· ≤ ·)).map fun user =>
    (user, (sent.reverse.find? fun p => p.1 = user).bind Prod.snd)

/-- What one state event does to a room. -/
def applyState (room : Room) (ev : RoomEvent) : Room :=
  if ev.kind = "m.room.name" then
    match ev.content.name with
    | some n => if n = "" then room else { room with name := n }
    | none => room
  else if ev.kind = "m.room.canonical_alias" then
    if room.name = room.id then
      match ev.content.canonicalAlias with
      | some a => { room with name := a }
      | none => room
    else room
  else if ev.kind = "m.room.encryption" then { room with encrypted := true }
  else room

/-- A room that is still named after its id takes its heroes' names. -/
def applyHeroes (jr : JoinedRoom) (room : Room) : Room :=
  if room.name = room.id then
    match nameFromHeroes jr with
    | some n => { room with name := n }
    | none => room
  else room

end Kmatrix.Sync.Events
