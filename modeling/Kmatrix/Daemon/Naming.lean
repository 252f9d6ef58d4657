import Kmatrix.Daemon.Procs

/-! # The naming sweep

`/sync` does not name every room: one that was stored before the summaries were understood keeps its id,
and a bridged direct chat has a member list that reads like a cast. `backfillRoomNames` walks the rooms in
the order of their ids, a batch at a time, and asks the server about those that may need a name; how far
it got is kept in the store. -/

namespace Kmatrix.Daemon.Naming

open Kmatrix.Lib.Threads Kmatrix.Daemon.Procs
open Kmatrix.Storage Kmatrix.Storage.Seal Kmatrix.Storage.Schema
open Kmatrix.Storage.Write (StoreOp)
open Kmatrix.Sync.Plaintext Kmatrix.Sync.Events

def nameBatch : ℕ := 25

def nameSchema : String := "6"

def bridgeUbiquity : ℕ := 3

def smallRoom : ℕ := 8

def heroCap : ℕ := 5

/-! ### The names -/

/-- What a room calls its members; the map is given in key order. -/
abbrev Members := List (String × Option String)

/-- One person's name as this room knows them, else their localpart. -/
def personName (userId : String) (members : Members) : String :=
  match (members.lookup userId).join with
  | some name => if name = "" then localpart userId else name
  | none => localpart userId

/-- A name made of the members, without the bridge's own users where anyone else is there. -/
def nameFromMembers (me : String) (joined : Members) (skip : List String) : Option String :=
  let others := (joined.map Prod.fst).filter fun user => user ≠ me
  let people := others.filter fun user => !skip.contains user
  let people := if people.isEmpty then others else people
  if people.isEmpty then if joined.length ≤ 1 then some "Empty room" else none
  else
    let counted : U32 := Fin.ofNat (2 ^ 32) people.length + 1
    some (composeName ((people.take heroCap).map fun user => personName user joined) counted.val)

/-- Who a direct chat is with, by room: the first of several users counts. -/
def counterpart (direct : List (String × List String)) : List (String × String) :=
  direct.flatMap fun (user, rooms) => rooms.map fun room => (room, user)

/-- Users who turn up in several direct chats without being the other person. -/
def bridgeUsers {S : CipherSuite} (st : Store S) (me : String) (counterpart : List (String × String)) :
    List String :=
  let rooms := (counterpart.map Prod.fst).dedup
  let partners := rooms.filterMap fun room => counterpart.lookup room
  let seen := rooms.flatMap fun room => (Read.memberIds st room).filter fun id =>
    !(id = me || some id = counterpart.lookup room || partners.contains id)
  seen.dedup.filter fun id => bridgeUbiquity ≤ seen.count id

/-- The name a room should have, of what was given and who is in it. -/
def wantedName (me : String) (bridge : List String) (given partner : Option String) (members : Members) :
    Option String :=
  match given, partner with
  | some given, _ => some given
  | none, some user => some (personName user members)
  | none, none => nameFromMembers me members bridge

/-- How far the last sweep got, if it followed the same rules. -/
def cursor {S : CipherSuite} (st : Store S) : Except String String :=
  (Read.getMeta st "room_names_cursor").map fun v =>
    ((v.bind (stripPrefix · nameSchema)).bind (stripPrefix · ":")).getD ""

/-! ### The sweep -/

section Sweep
variable {S : CipherSuite} (login : Login) (counterpart : List (String × String)) (bridge : List String)

/-- The room as it is now gets the name: nothing else of it changes. -/
def renamed (s : Shared S) (room wanted : String) : List Change :=
  match Read.getRoom s.db room with
  | .ok (some stored) => [.store login.number (.upsertRoom { stored with name := wanted })]
  | _ => []

/-- Read the room and write it back, in one section. -/
def rename (room wanted : String) (next : DaemonProc S) : DaemonProc S :=
  .locked (fun s => renamed login s room wanted) fun s ok =>
    match Read.getRoom s.db room with
    | .ok _ => if ok then next else .done
    | .error _ => .done

/-- Look up the members, keep their names, and name the room. -/
def nameRoom (room : Room) (given partner : Option String) (offline next : DaemonProc S) : DaemonProc S :=
  .ask (.memberNames room.id) fun
    | .error _ => offline
    | .ok members => .write [.store login.number (.rememberMembers room.id members)]
      (match wantedName login.us bridge given partner members with
        | some wanted => if room.name = wanted then next else rename login room.id wanted next
        | none => next)

/-- **The rooms of a batch**; `finish` is told how far it got, and whether a lookup failed. -/
def nameRooms (finish : Option String → Bool → DaemonProc S) : List Room → Option String → DaemonProc S
  | [], reached => finish reached false
  | room :: rooms, reached => .read fun s =>
    let partner := counterpart.lookup room.id
    let knownMembers := !(Read.memberIds s.db room.id).isEmpty
    let next := nameRooms finish rooms (some room.id)
    if room.name = room.id || partner.isSome ||
        (!knownMembers && Read.distinctSenders s.db room.id ≤ smallRoom) then
      -- a name the room carries outranks anything computed
      if room.name = room.id then
        nameRoom login bridge room none partner (finish reached true) next
      else .ask (.roomName room.id) fun
        | .error _ => finish reached true
        | .ok given => nameRoom login bridge room given partner (finish reached true) next
    else next

/-- The sweep records how far it got. -/
def finishSweep (done : Bool) (reached : Option String) (offline : Bool) : DaemonProc S :=
  .write
    ((match reached with
      | some id => [.store login.number (.setMeta "room_names_cursor" (nameSchema ++ ":" ++ id))]
      | none => []) ++
      if done && !offline then [.store login.number (.setMeta "room_names_schema" nameSchema)] else [])
    .done

/-- **`backfill_room_names`.** -/
def backfillRoomNames : DaemonProc S :=
  .ask .directRooms fun
    | .error _ => .done
    | .ok direct =>
      let counterpart := Naming.counterpart direct
      .read fun s =>
        let bridge := bridgeUsers s.db login.us counterpart
        match cursor s.db, Read.listRooms s.db with
        | .ok cursor, .ok rooms =>
          let rooms := (rooms.filter fun r => cursor < r.id).insertionSort fun a b => a.id ≤ b.id
          nameRooms login counterpart bridge (finishSweep login (rooms.length ≤ nameBatch))
            (rooms.take nameBatch) none
        | _, _ => .done

end Sweep

/-! ### A sweep whose renamings are looked at one by one -/

/-- **A renaming** is sound if its section is, and what follows is sound from there. -/
theorem sound_rename_of_section {S : CipherSuite} {login : Login} {κ : Type} {k : κ}
    {rules : Rules (Shared S) Change Request Reply κ} {outline : Outline (Shared S) κ} {r wanted : String}
    {next : DaemonProc S} {s : Shared S}
    (h : ∀ s', outline.rely k s s' → outline.inv s' → rules.sections s' (renamed login s' r wanted) → ∀ os,
      outline.Allows k s' (carry Change.exec s' (renamed login s' r wanted) os) ∧
        Sound rules Change.exec note outline k next (carry Change.exec s' (renamed login s' r wanted) os)) :
    Sound rules Change.exec note outline k (rename login r wanted next) s := by
  intro s' hs' hinv hsections os
  obtain ⟨hallows, hnext⟩ := h s' hs' hinv hsections os
  refine ⟨hallows, ?_⟩
  dsimp only
  split
  · split_ifs
    · exact hnext
    · trivial
  · trivial

/-- What the sweep asks. -/
def AskedBySweep : Request → Prop
  | .directRooms | .roomName _ | .memberNames _ => True
  | _ => False

section Sound
variable {S : CipherSuite} {login : Login} {κ : Type} {k : κ}
  {rules : Rules (Shared S) Change Request Reply κ} {outline : Outline (Shared S) κ}
  {good : Change → Prop} {fine : Request → Prop} {track : Shared S → Shared S → Prop}
  (hkeeps : Keeps Change.exec note outline k good fine track)
  {known : Shared S → Room → Prop} {told : Shared S → Room → Option String → Prop}

/-- **What a sweep has to be granted**: what is known of a listed room, and of its given name once that was
looked at, stays known, and a room is renamed soundly from there. -/
structure Grants (login : Login) (rules : Rules (Shared S) Change Request Reply κ)
    (outline : Outline (Shared S) κ) (k : κ) (good : Change → Prop) (fine : Request → Prop)
    (track : Shared S → Shared S → Prop) (known : Shared S → Room → Prop)
    (told : Shared S → Room → Option String → Prop) : Prop where
  fine : ∀ q, AskedBySweep q → fine q
  members : ∀ r names, good (.store login.number (.rememberMembers r names))
  metas : ∀ key v, good (.store login.number (.setMeta key v))
  list : ∀ s rooms, outline.inv s → Read.listRooms s.db = .ok rooms → ∀ x ∈ rooms, known s x
  known_track : ∀ s s' x, track s s' → known s x → known s' x
  told_track : ∀ s s' x given, track s s' → told s x given → told s' x given
  asked : ∀ s x given, known s x → rules.answers s (.roomName x.id) (.ok given) → told s x given
  unasked : ∀ s x, known s x → x.name = x.id → told s x none
  rename : ∀ s x given partner bridge members wanted next, told s x given →
    wantedName login.us bridge given partner members = some wanted → x.name ≠ wanted →
    (∀ s', track s s' → Sound rules Change.exec note outline k next s') →
    Sound rules Change.exec note outline k (rename login x.id wanted next) s

include hkeeps
variable (hgrants : Grants login rules outline k good fine track known told)
include hgrants

theorem sound_nameRoom_of_keeps {bridge : List String} {x : Room} {given partner : Option String}
    {offline next : DaemonProc S} {s : Shared S} (htold : told s x given)
    (hoffline : ∀ s', Sound rules Change.exec note outline k offline s')
    (h : ∀ s', track s s' → Sound rules Change.exec note outline k next s') :
    Sound rules Change.exec note outline k (nameRoom login bridge x given partner offline next) s := by
  refine hkeeps.ask (hgrants.fine (.memberNames x.id) trivial) fun r s₁ hs₁ => ?_
  rcases r with e | members
  · exact hoffline s₁
  · refine hkeeps.write (by simpa using hgrants.members _ _) fun s₂ os hs₂ _ hs₃ => ?_
    have htrack := hkeeps.trans hs₁ (hkeeps.trans hs₂ hs₃)
    split
    · next wanted hwanted =>
      split_ifs with heq
      · exact h _ htrack
      · exact hgrants.rename _ x given partner bridge members wanted next
          (hgrants.told_track _ _ _ _ htrack htold) hwanted heq
          fun s' hs' => h s' (hkeeps.trans htrack hs')
    · exact h _ htrack

theorem sound_nameRooms_of_keeps {cp : List (String × String)} {bridge : List String}
    {finish : Option String → Bool → DaemonProc S}
    (hfinish : ∀ reached offline s, Sound rules Change.exec note outline k (finish reached offline) s)
    (rooms : List Room) (reached : Option String) (s : Shared S) (hknown : ∀ x ∈ rooms, known s x) :
    Sound rules Change.exec note outline k (nameRooms login cp bridge finish rooms reached) s := by
  induction rooms generalizing reached s with
  | nil => exact hfinish _ _ _
  | cons x rooms ih =>
    obtain ⟨hx, hrooms⟩ := List.forall_mem_cons.mp hknown
    have hnext : ∀ s', track s s' → Sound rules Change.exec note outline k
        (nameRooms login cp bridge finish rooms (some x.id)) s' :=
      fun s' hs' => ih _ s' fun y hy => hgrants.known_track _ _ _ hs' (hrooms y hy)
    refine sound_read fun s₁ hs₁ _ => ?_
    have htrack₁ := hkeeps.rely hs₁
    have hx₁ := hgrants.known_track _ _ _ htrack₁ hx
    dsimp only
    split_ifs with _ hname
    · exact sound_nameRoom_of_keeps hkeeps hgrants (hgrants.unasked s₁ x hx₁ hname) (hfinish _ _)
        fun s' hs' => hnext s' (hkeeps.trans htrack₁ hs')
    · intro s₂ hs₂ hinv₂ r hr
      have hasked := hkeeps.notes (.roomName x.id) r hinv₂ (hgrants.fine (.roomName x.id) trivial)
      refine ⟨hasked.1, ?_⟩
      have htrack₂ := hkeeps.trans htrack₁ (hkeeps.rely hs₂)
      rcases r with e | given
      · exact hfinish _ _ _
      · exact sound_nameRoom_of_keeps hkeeps hgrants
          (hgrants.asked s₂ x given (hgrants.known_track _ _ _ htrack₂ hx) hr) (hfinish _ _)
          fun s' hs' => hnext s' (hkeeps.trans htrack₂ hs')
    · exact hnext _ htrack₁

/-- **The naming sweep** is sound. -/
theorem sound_backfillRoomNames_of_keeps (s : Shared S) :
    Sound rules Change.exec note outline k (backfillRoomNames login) s := by
  refine hkeeps.ask (hgrants.fine .directRooms trivial) fun r s₁ _ => ?_
  rcases r with e | direct
  · trivial
  · refine sound_read fun s₂ _ hinv₂ => ?_
    dsimp only
    split
    · next cursor rooms _ hrooms =>
      refine sound_nameRooms_of_keeps hkeeps hgrants (fun reached offline s₃ => ?_) _ _ _ fun x hx => ?_
      · have hdone : (.done : DaemonProc S).Only good fine := trivial
        refine hkeeps.only (Proc.only_write (fun w hw => ?_) hdone) s₃
        rcases List.mem_append.mp hw with hw | hw
        · split at hw
          · obtain rfl := List.mem_singleton.mp hw
            exact hgrants.metas _ _
          · simp at hw
        · split_ifs at hw
          · obtain rfl := List.mem_singleton.mp hw
            exact hgrants.metas _ _
          · simp at hw
      · have hmem := (List.mem_insertionSort _).mp (List.mem_of_mem_take hx)
        exact hgrants.list s₂ rooms hinv₂ hrooms x (List.mem_of_mem_filter hmem)
    · trivial

end Sound

end Kmatrix.Daemon.Naming
