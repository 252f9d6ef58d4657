import Kmatrix.Daemon.Downgrade
import Kmatrix.Daemon.Naming
import Kmatrix.Lib.Alone
import Kmatrix.Lib.Sweep

/-! # The progress of the naming sweep

The sweep walks all rooms, a batch in each pass, and stops where a lookup fails: that is almost always the
radio. Where it is the room, as for one that the account has left, every later pass stops at it again. So the
sweep comes to its end if and only if it asks about no room whose lookups always fail.

A room without an id is in no batch: the cursor starts at the empty text. -/

namespace Kmatrix.Daemon.Sweeping

open Kmatrix.Lib.Keyed Kmatrix.Lib.Threads Kmatrix.Lib.Sweep Kmatrix.Daemon.Procs Kmatrix.Daemon.Naming
open Kmatrix.Storage Kmatrix.Storage.Seal Kmatrix.Storage.Schema
open Kmatrix.Storage.Write (StoreOp)
open Kmatrix.Sync.Plaintext Kmatrix.Sync.Events

/-! ### The server -/

/-- **The server**: the rooms whose lookups always fail, and the `m.direct` maps it may give. -/
structure Server where
  nameFails : String → Bool
  membersFail : String → Bool
  direct : Set (List (String × List String))

/-- A lookup of the room always fails. -/
def Server.fails (server : Server) (room : String) : Prop :=
  server.nameFails room = true ∨ server.membersFail room = true

/-- **Its answers** in a pass: other lookups succeed, with any answer. -/
def Server.answers (server : Server) (direct : List (String × List String)) : (q : Request) → Reply q → Prop
  | .directRooms, r => r = .ok direct
  | .roomName room, r => r.isOk = !server.nameFails room
  | .memberNames room, r => r.isOk = !server.membersFail room
  | _, _ => True

/-! ### One room -/

section Rooms
variable {S : CipherSuite}

/-- Whether the sweep asks about a room. -/
def asks (st : Store S) (counterpart : List (String × String)) (x : Room) : Bool :=
  x.name = x.id || (counterpart.lookup x.id).isSome ||
    ((Read.memberIds st x.id).isEmpty && Read.distinctSenders st x.id ≤ smallRoom)

/-- **It asks in vain**: of a room that is called by its id it asks the members only. -/
def vain (server : Server) (st : Store S) (counterpart : List (String × String)) (x : Room) : Bool :=
  asks st counterpart x && (server.membersFail x.id || (x.name ≠ x.id && server.nameFails x.id))

/-- **Only these rooms are changed.** -/
structure Kept (touched : Set String) (s s' : Shared S) : Prop where
  key : s'.db.key = s.db.key
  rooms : ∀ id ∉ touched, s'.db.db.rooms.lookup id = s.db.db.rooms.lookup id
  members : ∀ id ∉ touched, ∀ user, s'.db.db.members.lookup (id, user) = s.db.db.members.lookup (id, user)
  messages : s'.db.db.messages = s.db.db.messages

/-- The marks of the sweep are not changed either. -/
structure Steady (touched : Set String) (s s' : Shared S) : Prop extends Kept touched s s' where
  metas : s'.db.db.metas = s.db.db.metas

variable {touched touched' : Set String} {s s' s'' : Shared S}

theorem Kept.mono (h : Kept touched s s') (hsub : touched ⊆ touched') : Kept touched' s s' where
  key := h.key
  rooms id hid := h.rooms id fun hmem => hid (hsub hmem)
  members id hid := h.members id fun hmem => hid (hsub hmem)
  messages := h.messages

theorem Kept.trans (h : Kept touched s s') (h' : Kept touched s' s'') : Kept touched s s'' where
  key := h'.key.trans h.key
  rooms id hid := (h'.rooms id hid).trans (h.rooms id hid)
  members id hid user := (h'.members id hid user).trans (h.members id hid user)
  messages := h'.messages.trans h.messages

theorem Steady.refl : Steady touched s s := ⟨⟨rfl, fun _ _ => rfl, fun _ _ _ => rfl, rfl⟩, rfl⟩

theorem Steady.mono (h : Steady touched s s') (hsub : touched ⊆ touched') : Steady touched' s s' :=
  ⟨h.toKept.mono hsub, h.metas⟩

theorem Steady.trans (h : Steady touched s s') (h' : Steady touched s' s'') : Steady touched s s'' :=
  ⟨h.toKept.trans h'.toKept, h'.metas.trans h.metas⟩

/-- A room that is not among them is read as before. -/
theorem Kept.getRoom (h : Kept touched s s') {id : String} (hid : id ∉ touched) :
    Read.getRoom s'.db id = Read.getRoom s.db id := by
  have hread : ∀ p, Read.readRoom s'.db p = Read.readRoom s.db p := by
    intro p
    unfold Read.readRoom Store.reveal
    rw [h.key]
  unfold Read.getRoom
  rw [h.rooms id hid]
  split
  · rw [hread]
  · rfl

theorem memberIds_isEmpty {st : Store S} {room : String} :
    (Read.memberIds st room).isEmpty = true ↔ ∀ user, st.db.members.lookup (room, user) = none := by
  rw [List.isEmpty_iff]
  unfold Read.memberIds
  rw [List.map_eq_nil_iff, List.filter_eq_nil_iff]
  constructor
  · intro h user
    rcases hlookup : st.db.members.lookup (room, user) with _ | name
    · rfl
    · exact absurd (by simp) (h _ (Table.mem_entries.mpr hlookup))
  · rintro h ⟨⟨r, user⟩, name⟩ hmem heq
    obtain rfl : r = room := by simpa using heq
    rw [Table.mem_entries, h user] at hmem
    simp at hmem

/-- It is asked about as before. -/
theorem Kept.vain (h : Kept touched s s') (server : Server) (cp : List (String × String)) {x : Room}
    (hid : x.id ∉ touched) : vain server s'.db cp x = vain server s.db cp x ∧
      asks s'.db cp x = asks s.db cp x := by
  have hmembers : (Read.memberIds s'.db x.id).isEmpty = (Read.memberIds s.db x.id).isEmpty := by
    rw [Bool.eq_iff_iff, memberIds_isEmpty, memberIds_isEmpty]
    exact forall_congr' fun user => by rw [h.members x.id hid user]
  have hasks : asks s'.db cp x = asks s.db cp x := by
    unfold asks Read.distinctSenders
    rw [hmembers, h.messages]
  refine ⟨?_, hasks⟩
  unfold Sweeping.vain
  rw [hasks]

/-! ### The writes of a pass -/

theorem steady_rememberMembers (rng : Salts) (n : ℕ) (room : String) (names : List (String × Option String)) :
    Steady {room} s (Change.exec rng s (.store n (.rememberMembers room names))) := by
  refine ⟨⟨rfl, fun _ _ => rfl, fun id hid user => ?_, rfl⟩, rfl⟩
  have hne : id ≠ room := hid
  have hfold : ∀ (stored : List (String × String)) (t : Table (String × String) String),
      (stored.foldl (fun t p => t.upsert (room, p.1) p.2 fun _ => p.2) t).lookup (id, user) =
        t.lookup (id, user) := by
    intro stored
    induction stored with
    | nil => exact fun t => rfl
    | cons p stored ih =>
      intro t
      rw [List.foldl_cons, ih, Table.lookup_upsert, if_neg fun h => hne (Prod.mk.inj h).1]
  exact hfold _ _

theorem steady_upsertRoom (rng : Salts) (n : ℕ) (r : Room) :
    Steady {r.id} s (Change.exec rng s (.store n (.upsertRoom r))) := by
  refine ⟨⟨rfl, fun id hid => ?_, fun _ _ _ => rfl, rfl⟩, rfl⟩
  have hne : ¬ id = r.id := hid
  simp only [Change.exec, StoreOp.exec, Write.upsertRoom, Write.upsertRoomStmt, Table.lookup_upsert,
    if_neg hne]

/-- What is remembered of the members is in no room's row. -/
theorem getRoom_rememberMembers (rng : Salts) (n : ℕ) (room id : String)
    (names : List (String × Option String)) :
    Read.getRoom (Change.exec rng s (.store n (.rememberMembers room names))).db id =
      Read.getRoom s.db id := rfl

/-! ### One pass -/

/-- The exchange is a lookup of the room. -/
def About (room : String) : Exchange Reply → Prop
  | ⟨.roomName r, _⟩ => r = room
  | ⟨.memberNames r, _⟩ => r = room
  | _ => False

/-- A procedure of the sweep, alone. -/
abbrev EndsIn (server : Server) (direct : List (String × List String)) (p : DaemonProc S) (s : Shared S)
    (tr : List (Exchange Reply)) (s' : Shared S) : Prop :=
  p.Ends Change.exec note (server.answers direct) s tr s'

variable {login : Login} {server : Server} {direct : List (String × List String)} {bridge : List String}
  {cp : List (String × String)} {tr : List (Exchange Reply)}

/-- One write is carried out. -/
theorem carry_one {w : Change} {os : List Salts} (h : [w].length ≤ os.length) (s : Shared S) :
    ∃ rng, carry Change.exec s [w] os = Change.exec rng s w := carry_single h s

/-- **A renaming** reaches what comes after it. -/
theorem ends_rename {x : Room} {wanted : String} {next : DaemonProc S}
    (hread : Read.getRoom s.db x.id = .ok (some x)) (h : EndsIn server direct (rename login x.id wanted next) s tr s') :
    ∃ s₁, Steady {x.id} s s₁ ∧ EndsIn server direct next s₁ tr s' := by
  obtain ⟨os, hos, hnext⟩ := Proc.ends_locked h
  have hwrites : renamed login s x.id wanted =
      [.store login.number (.upsertRoom { x with name := wanted })] := by
    unfold renamed
    rw [hread]
  rw [hwrites] at hos hnext
  obtain ⟨rng, hcarry⟩ := carry_one hos s
  rw [hcarry] at hnext
  simp only [hread, if_true] at hnext
  exact ⟨_, steady_upsertRoom rng login.number { x with name := wanted }, hnext⟩

/-- **One room**: its lookup fails, or it is dealt with. -/
theorem ends_nameRoom {x : Room} {given partner : Option String} {offline next : DaemonProc S}
    (hread : Read.getRoom s.db x.id = .ok (some x))
    (h : EndsIn server direct (nameRoom login bridge x given partner offline next) s tr s') :
    (server.membersFail x.id = true ∧
      ∃ e tr₁, tr = ⟨.memberNames x.id, .error e⟩ :: tr₁ ∧ EndsIn server direct offline s tr₁ s') ∨
    (server.membersFail x.id = false ∧ ∃ members tr₁ s₁, tr = ⟨.memberNames x.id, .ok members⟩ :: tr₁ ∧
      Steady {x.id} s s₁ ∧ EndsIn server direct next s₁ tr₁ s') := by
  obtain ⟨r, tr₁, hr, rfl, hnext⟩ := Proc.ends_ask.mp h
  rcases r with e | members
  · left
    exact ⟨by simpa [Server.answers, Except.isOk, Except.toBool] using hr.symm, e, tr₁, rfl, hnext⟩
  · right
    refine ⟨by simpa [Server.answers, Except.isOk, Except.toBool] using hr.symm, members, tr₁, ?_⟩
    obtain ⟨os, hos, hnext⟩ := Proc.ends_write.mp hnext
    obtain ⟨rng, hcarry⟩ := carry_one hos s
    have hs : note (.memberNames x.id) (.ok members) s = s := rfl
    rw [hs, hcarry] at hnext
    have hsteady := @steady_rememberMembers S s rng login.number x.id members
    split at hnext
    · next wanted _ =>
      split_ifs at hnext
      · exact ⟨_, rfl, hsteady, hnext⟩
      · obtain ⟨s₁, hs₁, hnext⟩ :=
          ends_rename ((getRoom_rememberMembers rng login.number x.id x.id members).trans hread) hnext
        exact ⟨s₁, rfl, hsteady.trans hs₁, hnext⟩
    · exact ⟨_, rfl, hsteady, hnext⟩

/-- The rooms before the first that is asked about in vain. -/
def through (server : Server) (st : Store S) (cp : List (String × String)) (rooms : List Room) : List Room :=
  rooms.takeWhile fun x => !vain server st cp x

/-- **What a pass has done** with the rooms of its batch. -/
structure Walked (server : Server) (cp : List (String × String)) (rooms : List Room) (s s' : Shared S)
    (tr : List (Exchange Reply)) : Prop where
  steady : Steady {id | ∃ x ∈ through server s.db cp rooms, x.id = id} s s'
  asked : ∀ x ∈ through server s.db cp rooms, asks s.db cp x = true →
    ∃ members, (⟨.memberNames x.id, .ok members⟩ : Exchange Reply) ∈ tr
  about : ∀ e ∈ tr, ∀ room, About room e →
    server.fails room ∨ ∃ x ∈ through server s.db cp rooms, x.id = room

/-- It stops at a room it asks about in vain. -/
theorem walked_stop {x : Room} {rooms : List Room} (hvain : vain server s.db cp x = true)
    (habout : ∀ e ∈ tr, ∀ room, About room e → server.fails room) : Walked server cp (x :: rooms) s s tr := by
  have hthrough : through server s.db cp (x :: rooms) = [] := List.takeWhile_cons_of_neg (by simp [hvain])
  exact ⟨Steady.refl, by simp [hthrough], fun e he room habt => Or.inl (habout e he room habt)⟩

/-- It goes on after a room that it does not. -/
theorem walked_cons {x : Room} {rooms : List Room} {s₁ : Shared S} {tr₁ : List (Exchange Reply)}
    (hvain : vain server s.db cp x = false) (hnotin : x.id ∉ rooms.map Room.id) (hs₁ : Steady {x.id} s s₁)
    (hasked : asks s.db cp x = true →
      ∃ members, (⟨.memberNames x.id, .ok members⟩ : Exchange Reply) ∈ tr)
    (habout : ∀ e ∈ tr, ∀ room, About room e → x.id = room) (h : Walked server cp rooms s₁ s' tr₁) :
    Walked server cp (x :: rooms) s s' (tr ++ tr₁) ∧
      through server s.db cp (x :: rooms) = x :: through server s.db cp rooms ∧
      through server s₁.db cp rooms = through server s.db cp rooms ∧
      rooms.any (vain server s₁.db cp) = rooms.any (vain server s.db cp) := by
  have hsame : ∀ y ∈ rooms, vain server s₁.db cp y = vain server s.db cp y ∧
      asks s₁.db cp y = asks s.db cp y := by
    refine fun y hy => hs₁.vain server cp fun hyx => hnotin ?_
    rw [← show y.id = x.id from hyx]
    exact List.mem_map_of_mem hy
  have hcons : through server s.db cp (x :: rooms) = x :: through server s.db cp rooms :=
    List.takeWhile_cons_of_pos (by simp [hvain])
  have hthrough : through server s₁.db cp rooms = through server s.db cp rooms :=
    takeWhile_congr fun y hy => by rw [(hsame y hy).1]
  obtain ⟨hsteady₁, hasked₁, habout₁⟩ := h
  rw [hthrough] at hsteady₁ hasked₁ habout₁
  have hany : rooms.any (vain server s₁.db cp) = rooms.any (vain server s.db cp) := by
    rw [Bool.eq_iff_iff, List.any_eq_true, List.any_eq_true]
    exact exists_congr fun y => and_congr_right fun hy => by rw [(hsame y hy).1]
  refine ⟨⟨?_, fun y hy hasks => ?_, fun e he room habt => ?_⟩, hcons, hthrough, hany⟩
  · rw [hcons]
    refine (hs₁.mono ?_).trans (hsteady₁.mono ?_)
    · rintro _ rfl
      exact ⟨x, by simp, rfl⟩
    · rintro _ ⟨y, hy, rfl⟩
      exact ⟨y, List.mem_cons_of_mem _ hy, rfl⟩
  · rw [hcons] at hy
    rcases List.mem_cons.mp hy with rfl | hy
    · obtain ⟨members, hmem⟩ := hasked hasks
      exact ⟨members, List.mem_append_left _ hmem⟩
    · rw [← (hsame y (List.takeWhile_subset _ hy)).2] at hasks
      obtain ⟨members, hmem⟩ := hasked₁ y hy hasks
      exact ⟨members, List.mem_append_right _ hmem⟩
  · rw [hcons]
    rcases List.mem_append.mp he with he | he
    · exact Or.inr ⟨x, by simp, habout e he room habt⟩
    · rcases habout₁ e he room habt with hfails | ⟨y, hy, rfl⟩
      · exact Or.inl hfails
      · exact Or.inr ⟨y, List.mem_cons_of_mem _ hy, rfl⟩

theorem nameRooms_cons (finish : Option String → Bool → DaemonProc S) (x : Room) (rooms : List Room)
    (reached : Option String) : nameRooms login cp bridge finish (x :: rooms) reached = .read fun s =>
      if asks s.db cp x = true then
        if x.name = x.id then
          nameRoom login bridge x none (cp.lookup x.id) (finish reached true)
            (nameRooms login cp bridge finish rooms (some x.id))
        else .ask (.roomName x.id) fun
          | .error _ => finish reached true
          | .ok given => nameRoom login bridge x given (cp.lookup x.id) (finish reached true)
            (nameRooms login cp bridge finish rooms (some x.id))
      else nameRooms login cp bridge finish rooms (some x.id) := by
  rw [nameRooms]
  simp only [Bool.not_not, asks]
  rfl

/-- **The rooms of a batch**, up to the first that is asked about in vain. -/
theorem ends_nameRooms {finish : Option String → Bool → DaemonProc S} (rooms : List Room)
    {reached : Option String} (hnodup : (rooms.map Room.id).Nodup)
    (hread : ∀ x ∈ rooms, Read.getRoom s.db x.id = .ok (some x))
    (h : EndsIn server direct (nameRooms login cp bridge finish rooms reached) s tr s') :
    ∃ tr₁ tr₂ s₁, tr = tr₁ ++ tr₂ ∧ Walked server cp rooms s s₁ tr₁ ∧
      EndsIn server direct (finish (((through server s.db cp rooms).getLast?.map Room.id).or reached)
        (rooms.any (vain server s.db cp))) s₁ tr₂ s' := by
  induction rooms generalizing reached s tr with
  | nil => exact ⟨[], tr, s, rfl, ⟨Steady.refl, by simp [through], by simp⟩, h⟩
  | cons x rooms ih =>
    obtain ⟨hnotin, hnodup⟩ := List.nodup_cons.mp hnodup
    obtain ⟨hx, hrooms⟩ := List.forall_mem_cons.mp hread
    -- the two ways on
    have hstop : vain server s.db cp x = true → ∀ tr₁ tr₂,
        (∀ e ∈ tr₁, ∀ room, About room e → server.fails room) →
        EndsIn server direct (finish reached true) s tr₂ s' →
        ∃ tr₁' tr₂' s₁, tr₁ ++ tr₂ = tr₁' ++ tr₂' ∧ Walked server cp (x :: rooms) s s₁ tr₁' ∧
          EndsIn server direct (finish (((through server s.db cp (x :: rooms)).getLast?.map Room.id).or reached)
            ((x :: rooms).any (vain server s.db cp))) s₁ tr₂' s' := by
      intro hvain tr₁ tr₂ habout hfinish
      refine ⟨tr₁, tr₂, s, rfl, walked_stop hvain habout, ?_⟩
      have hthrough : through server s.db cp (x :: rooms) = [] := List.takeWhile_cons_of_neg (by simp [hvain])
      rw [hthrough, List.any_cons, hvain]
      exact hfinish
    have hgo : vain server s.db cp x = false → ∀ tr₀ tr₁ s₁, Steady {x.id} s s₁ →
        (asks s.db cp x = true → ∃ members, (⟨.memberNames x.id, .ok members⟩ : Exchange Reply) ∈ tr₀) →
        (∀ e ∈ tr₀, ∀ room, About room e → x.id = room) →
        EndsIn server direct (nameRooms login cp bridge finish rooms (some x.id)) s₁ tr₁ s' →
        ∃ tr₁' tr₂' s₁, tr₀ ++ tr₁ = tr₁' ++ tr₂' ∧ Walked server cp (x :: rooms) s s₁ tr₁' ∧
          EndsIn server direct (finish (((through server s.db cp (x :: rooms)).getLast?.map Room.id).or reached)
            ((x :: rooms).any (vain server s.db cp))) s₁ tr₂' s' := by
      intro hvain tr₀ tr₁ s₁ hs₁ hasked habout hnext
      obtain ⟨tr₂, tr₃, s₂, rfl, hwalked, hfinish⟩ := ih hnodup (fun y hy => by
        rw [hs₁.getRoom fun hyx => hnotin (by
          rw [← show y.id = x.id from hyx]
          exact List.mem_map_of_mem hy)]
        exact hrooms y hy) hnext
      obtain ⟨hwalked', hcons, hthrough, hany⟩ := walked_cons hvain hnotin hs₁ hasked habout hwalked
      refine ⟨tr₀ ++ tr₂, tr₃, s₂, by rw [List.append_assoc], hwalked', ?_⟩
      rw [hthrough, hany] at hfinish
      rw [hcons, List.any_cons, hvain, Bool.false_or, List.getLast?_cons]
      rcases hlast : (through server s.db cp rooms).getLast? with _ | last
      · rw [hlast] at hfinish
        exact hfinish
      · rw [hlast] at hfinish
        exact hfinish
    rw [nameRooms_cons] at h
    replace h := Proc.ends_read.mp h
    split_ifs at h with hasks hname
    · -- the members only
      rcases ends_nameRoom hx h with ⟨hfails, e, tr₁, rfl, hfinish⟩ | ⟨hfine, members, tr₁, s₁, rfl, hs₁, hnext⟩
      · refine hstop (by simp [vain, hasks, hfails]) [_] tr₁ (fun e he room habt => ?_) hfinish
        obtain rfl := List.mem_singleton.mp he
        obtain rfl : x.id = room := habt
        exact Or.inr hfails
      · refine hgo (by simp [vain, hfine, hname]) [_] tr₁ s₁ hs₁ (fun _ => ⟨members, by simp⟩)
          (fun e he room habt => ?_) hnext
        obtain rfl := List.mem_singleton.mp he
        exact habt
    · -- the name, and the members
      obtain ⟨r, tr₁, hr, rfl, hnext⟩ := Proc.ends_ask.mp h
      have hs : note (.roomName x.id) r s = s := rfl
      rw [hs] at hnext
      rcases r with e | given
      · have hfails : server.nameFails x.id = true := by
          simpa [Server.answers, Except.isOk, Except.toBool] using hr.symm
        refine hstop (by simp [vain, hasks, hname, hfails]) [_] tr₁ (fun e he room habt => ?_) hnext
        obtain rfl := List.mem_singleton.mp he
        obtain rfl : x.id = room := habt
        exact Or.inl hfails
      · have hfine : server.nameFails x.id = false := by
          simpa [Server.answers, Except.isOk, Except.toBool] using hr.symm
        rcases ends_nameRoom hx hnext with
          ⟨hfails, e, tr₂, rfl, hfinish⟩ | ⟨hfine', members, tr₂, s₁, rfl, hs₁, hnext⟩
        · refine hstop (by simp [vain, hasks, hfails]) [_, _] tr₂ (fun e he room habt => ?_) hfinish
          rcases List.mem_cons.mp he with rfl | he
          · obtain rfl : x.id = room := habt
            exact Or.inr hfails
          · obtain rfl := List.mem_singleton.mp he
            obtain rfl : x.id = room := habt
            exact Or.inr hfails
        · refine hgo (by simp [vain, hfine, hfine']) [_, _] tr₂ s₁ hs₁ (fun _ => ⟨members, by simp⟩)
            (fun e he room habt => ?_) hnext
          rcases List.mem_cons.mp he with rfl | he
          · exact habt
          · obtain rfl := List.mem_singleton.mp he
            exact habt
    · -- nothing is asked
      have hvain : vain server s.db cp x = false := by simp [vain, hasks]
      exact hgo hvain [] tr s Steady.refl (fun hasks' => absurd hasks' hasks) (by simp) h

/-! ### The end of a pass -/

/-- **How far the sweep got**: the id of the last room it has dealt with, or nothing. -/
def place (st : Store S) : String :=
  (((st.db.metas.lookup "room_names_cursor").bind (stripPrefix · nameSchema)).bind
    (stripPrefix · ":")).getD ""

/-- The sweep has reported that it is done. -/
def Reported (st : Store S) : Prop := Read.getMeta st "room_names_schema" = .ok (some nameSchema)

theorem cursor_eq (st : Store S) : Naming.cursor st = .ok (place st) := by
  have hplain : secretMetaLabel "room_names_cursor" = none := by decide
  unfold Naming.cursor Read.getMeta
  rw [hplain]
  rfl

theorem reported_iff {st : Store S} :
    Reported st ↔ st.db.metas.lookup "room_names_schema" = some nameSchema := by
  have hplain : secretMetaLabel "room_names_schema" = none := by decide
  unfold Reported Read.getMeta
  rw [hplain]
  exact ⟨Except.ok.inj, congrArg _⟩

theorem kept_setMeta (rng : Salts) (n : ℕ) (k v : String) :
    Kept touched s (Change.exec rng s (.store n (.setMeta k v))) :=
  ⟨rfl, fun _ _ => rfl, fun _ _ _ => rfl, rfl⟩

theorem metas_setMeta (rng : Salts) (n : ℕ) {k : String} (v : String) (hplain : secretMetaLabel k = none)
    (k' : String) : (Change.exec rng s (.store n (.setMeta k v))).db.db.metas.lookup k' =
      if k' = k then some v else s.db.db.metas.lookup k' := by
  simp only [Change.exec, StoreOp.exec, Write.setMeta, Write.setMetaStmt, hplain, Table.lookup_upsert]
  split_ifs
  · rcases s.db.db.metas.lookup k <;> rfl
  · rfl

theorem place_setMeta (rng : Salts) (n : ℕ) (id : String) :
    place (Change.exec rng s (.store n (.setMeta "room_names_cursor" (nameSchema ++ ":" ++ id)))).db = id := by
  unfold place
  rw [metas_setMeta rng n _ (by decide), if_pos rfl, String.append_assoc]
  simp only [Option.bind_some, stripPrefix_append, Option.getD_some]

/-- The flag is set at the end only. -/
theorem carry_flag {done offline : Bool} {os : List Salts}
    (hos : (if (done && !offline) = true then
      [Change.store login.number (.setMeta "room_names_schema" nameSchema)] else []).length ≤ os.length) :
    ∃ s', carry Change.exec s (if (done && !offline) = true then
        [Change.store login.number (.setMeta "room_names_schema" nameSchema)] else []) os = s' ∧
      Kept touched s s' ∧ place s'.db = place s.db ∧
      (Reported s'.db ↔ Reported s.db ∨ (done = true ∧ offline = false)) := by
  by_cases hflag : done = true ∧ offline = false
  · have hwrites : (if (done && !offline) = true then
        [Change.store login.number (.setMeta "room_names_schema" nameSchema)] else []) =
        [Change.store login.number (.setMeta "room_names_schema" nameSchema)] := by simp [hflag]
    rw [hwrites] at hos ⊢
    obtain ⟨rng, hcarry⟩ := carry_one hos s
    refine ⟨_, hcarry, kept_setMeta rng login.number _ _, ?_, ?_⟩
    · unfold place
      rw [metas_setMeta rng login.number _ (by decide), if_neg (by decide)]
    · rw [reported_iff, metas_setMeta rng login.number _ (by decide), if_pos rfl]
      simp [hflag]
  · have hwrites : (if (done && !offline) = true then
        [Change.store login.number (.setMeta "room_names_schema" nameSchema)] else []) = [] :=
      if_neg (by simpa using hflag)
    rw [hwrites]
    exact ⟨s, rfl, Steady.refl.toKept, rfl, (or_iff_left hflag).symm⟩

/-- **The marks a pass leaves.** -/
theorem ends_finishSweep {done offline : Bool} {reached : Option String}
    (h : EndsIn server direct (finishSweep login done reached offline) s tr s') :
    tr = [] ∧ Kept touched s s' ∧ place s'.db = reached.getD (place s.db) ∧
      (Reported s'.db ↔ Reported s.db ∨ (done = true ∧ offline = false)) := by
  obtain ⟨os, hos, hdone⟩ := Proc.ends_write.mp h
  obtain ⟨rfl, rfl⟩ := Proc.ends_done hdone
  refine ⟨rfl, ?_⟩
  rcases reached with _ | id
  · obtain ⟨s₂, hs₂, hflag⟩ := @carry_flag S touched s login done offline os hos
    rw [← hs₂] at hflag
    exact hflag
  · rcases os with _ | ⟨rng, os⟩
    · simp at hos
    · obtain ⟨s₂, hs₂, hkept, hplace, hreported⟩ := @carry_flag S touched
        (Change.exec rng s (.store login.number (.setMeta "room_names_cursor" (nameSchema ++ ":" ++ id))))
        login done offline os (Nat.le_of_succ_le_succ hos)
      rw [← hs₂] at hkept hplace hreported
      refine ⟨(kept_setMeta rng login.number _ _).trans hkept,
        hplace.trans (place_setMeta rng login.number id), hreported.trans (or_congr_left ?_)⟩
      rw [reported_iff, reported_iff, metas_setMeta rng login.number _ (by decide), if_neg (by decide)]

/-! ### The rooms that are waiting -/

/-- **The rooms above the cursor**, in the order of their ids. -/
def waiting (st : Store S) : List Room :=
  match Read.listRooms st with
  | .ok rooms => (rooms.filter fun r => place st < r.id).insertionSort fun a b => a.id ≤ b.id
  | .error _ => []

theorem mem_listRooms {st : Store S} {rooms : List Room} (hrooms : Read.listRooms st = .ok rooms) {x : Room} :
    x ∈ rooms ↔ Read.getRoom st x.id = .ok (some x) := by
  obtain ⟨hread, hlisted⟩ := Downgrade.mem_of_mapM hrooms
  unfold Read.getRoom
  constructor
  · intro hx
    obtain ⟨p, hp, hpx⟩ := hlisted x hx
    rw [Read.roomRows, List.mem_insertionSort] at hp
    have hlookup : st.db.rooms.lookup p.1 = some p.2 := Table.mem_entries.mp hp
    rw [(Downgrade.readRoom_ok hpx).1, hlookup]
    dsimp only
    rw [hpx]
    rfl
  · intro hx
    rcases hlookup : st.db.rooms.lookup x.id with _ | row
    · rw [hlookup] at hx
      simp at hx
    · rw [hlookup] at hx
      have hmem : (x.id, row) ∈ Read.roomRows st.db := by
        rw [Read.roomRows, List.mem_insertionSort]
        exact Table.mem_entries.mpr hlookup
      obtain ⟨y, hy, hread'⟩ := hread _ hmem
      dsimp only at hx
      rw [hread'] at hx
      obtain rfl : y = x := Option.some.inj (Except.ok.inj hx)
      exact hy

theorem nodup_listRooms {st : Store S} {rooms : List Room} (hrooms : Read.listRooms st = .ok rooms) :
    (rooms.map Room.id).Nodup := by
  have hids : ∀ (rows : List (String × RoomRow String)) (rooms : List Room),
      rows.mapM (Read.readRoom st) = .ok rooms → rooms.map Room.id = rows.map Prod.fst := by
    intro rows
    induction rows with
    | nil =>
      intro rooms h
      obtain rfl : [] = rooms := by simpa [pure, Except.pure] using h
      rfl
    | cons p rows ih =>
      intro rooms h
      rw [List.mapM_cons] at h
      rcases hp : Read.readRoom st p with e | r
      · simp [hp, bind, Except.bind] at h
      · rcases hrest : rows.mapM (Read.readRoom st) with e | rest
        · simp [hp, hrest, bind, Except.bind] at h
        · obtain rfl : r :: rest = rooms := by simpa [hp, hrest, bind, Except.bind, pure, Except.pure] using h
          rw [List.map_cons, List.map_cons, ih rest hrest, (Downgrade.readRoom_ok hp).1]
  rw [hids _ _ hrooms]
  exact ((List.perm_insertionSort _ _).map Prod.fst).nodup_iff.mpr (Table.entries_keys_nodup _)

theorem mem_waiting {st : Store S} {rooms : List Room} (hrooms : Read.listRooms st = .ok rooms) {x : Room} :
    x ∈ waiting st ↔ Read.getRoom st x.id = .ok (some x) ∧ place st < x.id := by
  unfold waiting
  rw [hrooms]
  dsimp only
  rw [List.mem_insertionSort, List.mem_filter, mem_listRooms hrooms]
  simp

theorem sorted_waiting (st : Store S) : (waiting st).Pairwise fun a b => a.id < b.id := by
  unfold waiting
  split
  · next rooms hrooms =>
    set above := rooms.filter fun r => decide (place st < r.id) with habove
    have hnodup : (above.map Room.id).Nodup := by
      rw [habove]
      exact (nodup_listRooms hrooms).sublist (List.filter_sublist.map _)
    have hsorted : (above.insertionSort fun a b => a.id ≤ b.id).Pairwise fun a b => a.id ≤ b.id :=
      List.pairwise_insertionSort _ _
    have hne : (above.insertionSort fun a b => a.id ≤ b.id).Pairwise fun a b => a.id ≠ b.id := by
      rw [← List.pairwise_map]
      exact ((List.perm_insertionSort _ _).map Room.id).nodup_iff.mpr hnodup
    exact (hsorted.and hne).imp fun h => lt_of_le_of_ne h.1 h.2
  · exact List.Pairwise.nil

theorem nodup_waiting (st : Store S) : ((waiting st).map Room.id).Nodup := by
  unfold List.Nodup
  rw [List.pairwise_map]
  exact (sorted_waiting st).imp fun h => h.ne

/-- Two listings in order of the same rooms are the same. -/
theorem waiting_unique {xs ys : List Room} (hxs : xs.Pairwise fun a b => a.id < b.id)
    (hys : ys.Pairwise fun a b => a.id < b.id) (h : ∀ x, x ∈ xs ↔ x ∈ ys) : xs = ys := by
  have hnodup : ∀ {zs : List Room}, (zs.Pairwise fun a b => a.id < b.id) → zs.Nodup :=
    fun hzs => hzs.imp fun hlt heq => by rw [heq] at hlt; exact lt_irrefl _ hlt
  refine List.Perm.eq_of_pairwise (fun a b _ _ hab hba => absurd hba hab.asymm) hxs hys ?_
  exact (List.perm_ext_iff_of_nodup (hnodup hxs) (hnodup hys)).mpr h

/-! ### The pass as a turn -/

/-- Nothing is in the way at a room that is not asked about in vain. -/
def fine (server : Server) (st : Store S) (direct : List (String × List String)) (x : Room) : Bool :=
  !vain server st (counterpart direct) x

/-- **What a pass has done.** -/
structure Passed (server : Server) (direct : List (String × List String)) (s s' : Shared S)
    (tr : List (Exchange Reply)) : Prop where
  walked : ∃ s₁ tr₁, tr = ⟨.directRooms, .ok direct⟩ :: tr₁ ∧
    Walked server (counterpart direct) ((waiting s.db).take nameBatch) s s₁ tr₁ ∧ Kept ∅ s₁ s'
  moved : place s'.db =
    Lib.Sweep.cursor Room.id (place s.db) (dealt nameBatch (fine server s.db direct) (waiting s.db))
  reported : Reported s'.db ↔
    Reported s.db ∨ Lib.Sweep.Ends nameBatch (fine server s.db direct) (waiting s.db)

/-- **One pass** is one turn of a sweep. -/
theorem passed_backfillRoomNames {rooms : List Room} (hrooms : Read.listRooms s.db = .ok rooms)
    (h : EndsIn server direct (backfillRoomNames login) s tr s') : Passed server direct s s' tr := by
  obtain ⟨r, tr₁, rfl, rfl, hnext⟩ := Proc.ends_ask.mp h
  replace hnext := Proc.ends_read.mp hnext
  have hs : note .directRooms (.ok direct) s = s := rfl
  rw [hs, cursor_eq, hrooms] at hnext
  dsimp only at hnext
  have hwaiting : (rooms.filter fun r => decide (place s.db < r.id)).insertionSort (fun a b => a.id ≤ b.id) =
      waiting s.db := by
    unfold waiting
    rw [hrooms]
  rw [hwaiting] at hnext
  obtain ⟨tr₂, tr₃, s₁, rfl, hwalked, hfinish⟩ := ends_nameRooms _
    ((nodup_waiting s.db).sublist ((List.take_sublist _ _).map _))
    (fun x hx => ((mem_waiting hrooms).mp (List.mem_of_mem_take hx)).1) hnext
  obtain ⟨rfl, hkept, hplace, hreported⟩ := @ends_finishSweep S ∅ _ _ _ _ _ _ _ _ _ hfinish
  have hmarks : ∀ k, s₁.db.db.metas.lookup k = s.db.db.metas.lookup k := by
    intro k
    rw [hwalked.steady.metas]
  refine ⟨⟨s₁, tr₂, by rw [List.append_nil], hwalked, hkept⟩, ?_, ?_⟩
  · rw [hplace, Option.or_none]
    unfold Lib.Sweep.cursor place
    rw [hmarks]
    rfl
  · rw [hreported, reported_iff, reported_iff, hmarks]
    unfold Lib.Sweep.Ends
    refine or_congr_right (and_congr (by simp) ?_)
    rw [← Bool.not_eq_true, List.any_eq_true, not_exists]
    exact forall_congr' fun x => by simp [fine]

/-- Only rooms at or below the new cursor are changed. -/
theorem Passed.kept (h : Passed server direct s s' tr) : Kept {id | id ≤ place s'.db} s s' := by
  obtain ⟨s₁, tr₁, -, hwalked, hkept⟩ := h.walked
  refine (hwalked.steady.toKept.mono ?_).trans (hkept.mono (Set.empty_subset _))
  rintro _ ⟨x, hx, rfl⟩
  have hle := le_cursor (c := place s.db) (sorted_waiting s.db) hx
  have hmoved := h.moved
  exact hle.trans_eq hmoved.symm

theorem Passed.place_le {rooms : List Room} (hrooms : Read.listRooms s.db = .ok rooms)
    (h : Passed server direct s s' tr) : place s.db ≤ place s'.db := by
  rw [h.moved]
  exact cursor_ge fun x hx => ((mem_waiting hrooms).mp hx).2

/-- **What is left waiting**, with the rooms as they were. -/
theorem Passed.left {rooms rooms' : List Room} (hrooms : Read.listRooms s.db = .ok rooms)
    (hrooms' : Read.listRooms s'.db = .ok rooms') (h : Passed server direct s s' tr) :
    waiting s'.db = left nameBatch (fine server s.db direct) (waiting s.db) := by
  have habove : ∀ x ∈ waiting s.db, place s.db < x.id := fun x hx => ((mem_waiting hrooms).mp hx).2
  have hsorted := sorted_waiting s.db
  have hread : ∀ x : Room, place s'.db < x.id → Read.getRoom s'.db x.id = Read.getRoom s.db x.id :=
    fun x hlt => h.kept.getRoom fun hle => absurd hlt (not_lt_of_ge hle)
  refine waiting_unique (sorted_waiting s'.db) (hsorted.sublist (List.drop_sublist _ _)) fun x => ?_
  rw [mem_waiting hrooms', left_of_cursor hsorted habove, ← h.moved, mem_waiting hrooms]
  constructor
  · rintro ⟨hx, hlt⟩
    exact ⟨⟨(hread x hlt).symm.trans hx, lt_of_le_of_lt (h.place_le hrooms) hlt⟩, hlt⟩
  · rintro ⟨⟨hx, -⟩, hlt⟩
    exact ⟨(hread x hlt).trans hx, hlt⟩

/-! ### Pass after pass -/

/-- **Passes**, one after the other, in a store that can be read. -/
structure Passes (server : Server) (login : Login) (s : Shared S) where
  state : ℕ → Shared S
  direct : ℕ → List (String × List String)
  trace : ℕ → List (Exchange Reply)
  start : state 0 = s
  given : ∀ i, direct i ∈ server.direct
  pass : ∀ i, EndsIn server (direct i) (backfillRoomNames login) (state i) (trace i) (state (i + 1))
  readable : ∀ i, ∃ rooms, Read.listRooms (state i).db = .ok rooms

/-- **A pass visits a room**: it gets past it, and has looked its members up if it asks about it. -/
def Passes.Visits (p : Passes server login s) (i : ℕ) (x : Room) : Prop :=
  place (p.state i).db < x.id ∧ x.id ≤ place (p.state (i + 1)).db ∧
    (asks (p.state i).db (counterpart (p.direct i)) x = true →
      ∃ members, (⟨.memberNames x.id, .ok members⟩ : Exchange Reply) ∈ p.trace i)

/-- **The sweep is through**: each room whose lookups do not fail was visited by one pass, no other pass
has looked it up, and the sweep has reported that it is done. -/
def Passes.Swept (p : Passes server login s) (n : ℕ) : Prop :=
  (∀ rooms, Read.listRooms s.db = .ok rooms → ∀ x ∈ rooms, ¬ server.fails x.id →
    ∃ i < n, p.Visits i x ∧ ∀ j, (p.Visits j x ∨ ∃ e ∈ p.trace j, About x.id e) → j = i) ∧
  Reported (p.state n).db

variable (p : Passes server login s)

theorem Passes.passed (i : ℕ) : Passed server (p.direct i) (p.state i) (p.state (i + 1)) (p.trace i) := by
  obtain ⟨rooms, hrooms⟩ := p.readable i
  exact passed_backfillRoomNames hrooms (p.pass i)

/-- A pass is a run of the pool in which nothing else is started. -/
theorem Passes.runs {κ : Type} (k : κ) (reply : (q : Request) → Reply q) (i : ℕ) :
    ∃ run, (⟨p.state i, [(k, backfillRoomNames login)]⟩ : Pool (Shared S) Change Request Reply κ).runs
      Change.exec note run = ⟨p.state (i + 1), []⟩ := (p.pass i).runs reply k

/-- The passes are the turns of a sweep. -/
theorem Passes.turns : Turns nameBatch (fun i => fine server (p.state i).db (p.direct i))
    fun i => waiting (p.state i).db := by
  intro i
  obtain ⟨rooms, hrooms⟩ := p.readable i
  obtain ⟨rooms', hrooms'⟩ := p.readable (i + 1)
  exact (p.passed i).left hrooms hrooms'

theorem Passes.place_mono {i j : ℕ} (hij : i ≤ j) : place (p.state i).db ≤ place (p.state j).db := by
  refine monotone_nat_of_le_succ (f := fun i => place (p.state i).db) (fun i => ?_) hij
  obtain ⟨rooms, hrooms⟩ := p.readable i
  exact (p.passed i).place_le hrooms

/-- The cursor gets past an id in one pass. -/
theorem Passes.once {id : String} {i j : ℕ}
    (hi : place (p.state i).db < id ∧ id ≤ place (p.state (i + 1)).db)
    (hj : place (p.state j).db < id ∧ id ≤ place (p.state (j + 1)).db) : j = i := by
  rcases Nat.lt_trichotomy i j with h | rfl | h
  · exact absurd (hi.2.trans (p.place_mono h)) hj.1.not_ge
  · rfl
  · exact absurd (hj.2.trans (p.place_mono h)) hi.1.not_ge

/-- A room that is waiting is asked about as at the start. -/
theorem Passes.fine_eq {i : ℕ} {x : Room} (hx : x ∈ waiting (p.state i).db)
    (direct : List (String × List String)) :
    fine server (p.state i).db direct x = fine server s.db direct x := by
  induction i with
  | zero => rw [p.start]
  | succ i ih =>
    obtain ⟨rooms, hrooms⟩ := p.readable (i + 1)
    have hlt := ((mem_waiting hrooms).mp hx).2
    have hsame := ((p.passed i).kept.vain server (counterpart direct) (not_le_of_gt hlt)).1
    rw [p.turns.left i] at hx
    rw [← ih (mem_of_left hx)]
    unfold fine
    rw [hsame]

/-- What a turn deals with, the pass visits. -/
theorem Passes.visits {i : ℕ} {x : Room}
    (hx : x ∈ dealt nameBatch (fine server (p.state i).db (p.direct i)) (waiting (p.state i).db)) :
    p.Visits i x := by
  obtain ⟨rooms, hrooms⟩ := p.readable i
  obtain ⟨s₁, tr₁, htrace, hwalked, -⟩ := (p.passed i).walked
  refine ⟨((mem_waiting hrooms).mp (mem_of_dealt hx)).2, ?_, fun hasks => ?_⟩
  · rw [(p.passed i).moved]
    exact le_cursor (sorted_waiting _) hx
  · obtain ⟨members, hmem⟩ := hwalked.asked x hx hasks
    exact ⟨members, by rw [htrace]; exact List.mem_cons_of_mem _ hmem⟩

/-- A room whose lookups do not fail is looked up by the pass that gets past it. -/
theorem Passes.looked {i : ℕ} {room : String} (hfails : ¬ server.fails room)
    (h : ∃ e ∈ p.trace i, About room e) :
    place (p.state i).db < room ∧ room ≤ place (p.state (i + 1)).db := by
  obtain ⟨e, he, habout⟩ := h
  obtain ⟨s₁, tr₁, htrace, hwalked, -⟩ := (p.passed i).walked
  rw [htrace] at he
  rcases List.mem_cons.mp he with rfl | he
  · exact habout.elim
  · rcases hwalked.about e he room habout with h | ⟨y, hy, rfl⟩
    · exact absurd h hfails
    · obtain ⟨hlt, hle, -⟩ := p.visits hy
      exact ⟨hlt, hle⟩

/-- Only the empty text is not above the empty text. -/
theorem empty_lt {id : String} : "" < id ↔ id ≠ "" := by
  rw [String.lt_iff_toList_lt, Ne, ← String.toList_inj]
  rcases id.toList with _ | ⟨c, cs⟩
  · simp
  · simp

theorem not_lt_empty (id : String) : ¬ id < "" := by
  rw [String.lt_iff_toList_lt]
  exact List.not_lt_nil _

/-- **The sweep gets through** where no room is asked about in vain. -/
theorem Passes.swept {rooms : List Room} (hrooms : Read.listRooms s.db = .ok rooms) (hplace : place s.db = "")
    (hid : ∀ x ∈ rooms, x.id = "" → server.fails x.id)
    (hfine : ∀ direct ∈ server.direct, ∀ x ∈ rooms, x.id ≠ "" →
      vain server s.db (counterpart direct) x = false) : ∃ n, p.Swept n := by
  have hfirst : ∀ x, x ∈ waiting (p.state 0).db ↔ x ∈ rooms ∧ x.id ≠ "" := by
    intro x
    rw [p.start, mem_waiting hrooms, hplace, empty_lt, ← mem_listRooms hrooms]
  obtain ⟨n, hends⟩ := ends_of_fine p.turns (by decide) fun i x hx => by
    obtain ⟨hmem, hne⟩ := (hfirst x).mp (mem_first p.turns hx)
    rw [p.fine_eq hx]
    unfold fine
    rw [hfine _ (p.given i) x hmem hne]
    rfl
  refine ⟨n + 1, fun rooms' hrooms' x hx hfails => ?_, (p.passed n).reported.mpr (Or.inr hends)⟩
  obtain rfl : rooms = rooms' := Except.ok.inj (hrooms.symm.trans hrooms')
  have hx₀ : x ∈ waiting (p.state 0).db := (hfirst x).mpr ⟨hx, fun h => hfails (hid x hx h)⟩
  have hgone : x ∉ waiting (p.state (n + 1)).db := by
    rw [p.turns.left n, hends.left_eq]
    exact List.not_mem_nil
  obtain ⟨i, hi, hdealt⟩ := exists_dealt p.turns hx₀ hgone
  have hvisits := p.visits hdealt
  refine ⟨i, hi, hvisits, fun j hj => p.once ⟨hvisits.1, hvisits.2.1⟩ ?_⟩
  rcases hj with hj | hj
  · exact ⟨hj.1, hj.2.1⟩
  · exact p.looked hfails hj

/-- **It never does** where a room is asked about in vain, in every pass. -/
theorem Passes.not_reported {rooms : List Room} (hrooms : Read.listRooms s.db = .ok rooms)
    (hplace : place s.db = "") (hnew : ¬ Reported s.db) {x : Room} (hx : x ∈ rooms) (hne : x.id ≠ "")
    (hvain : ∀ i, vain server s.db (counterpart (p.direct i)) x = true) (n : ℕ) :
    ¬ Reported (p.state n).db := by
  have hx₀ : x ∈ waiting (p.state 0).db := by
    rw [p.start, mem_waiting hrooms, hplace, empty_lt]
    exact ⟨(mem_listRooms hrooms).mp hx, hne⟩
  induction n with
  | zero =>
    rw [p.start]
    exact hnew
  | succ n ih =>
    rw [(p.passed n).reported, not_or]
    refine ⟨ih, (stuck p.turns hx₀ (fun i hi => ?_) n).2⟩
    rw [p.fine_eq hi]
    unfold fine
    rw [hvain i]
    rfl

/-! ### Passes that rename nothing -/

/-- No room is changed. -/
def Quiet (s s' : Shared S) : Prop := s'.db.key = s.db.key ∧ s'.db.db.rooms = s.db.db.rooms

omit s s' s'' in
theorem Quiet.trans {s s' s'' : Shared S} (h : Quiet s s') (h' : Quiet s' s'') : Quiet s s'' :=
  ⟨h'.1.trans h.1, h'.2.trans h.2⟩

theorem Quiet.listRooms (h : Quiet s s') : Read.listRooms s'.db = Read.listRooms s.db := by
  have hread : Read.readRoom s'.db = Read.readRoom s.db := by
    funext r
    unfold Read.readRoom Store.reveal
    rw [h.1]
  unfold Read.listRooms Read.roomRows
  rw [hread, h.2]

/-- It ends somewhere, and no room is changed. -/
def Quietly (server : Server) (direct : List (String × List String)) (q : DaemonProc S) (s : Shared S) : Prop :=
  ∃ tr s', EndsIn server direct q s tr s' ∧ Quiet s s'

/-- The members of a room that is called by its id, of whom one has the id for a name. -/
theorem wantedName_id (me id : String) (bridge : List String) (partner : Option String) (hid : id ≠ "") :
    wantedName me bridge none partner [(partner.getD (me ++ "!"), some id)] = some id := by
  rcases partner with _ | user
  · have hne : me ++ "!" ≠ me := by
      intro h
      have hlength := congrArg String.length h
      simp at hlength
    have hpeople : (if ([me ++ "!"].filter fun user => !bridge.contains user).isEmpty = true then [me ++ "!"]
        else [me ++ "!"].filter fun user => !bridge.contains user) = [me ++ "!"] := by
      simp
    simp only [wantedName, Option.getD_none]
    unfold nameFromMembers
    simp only [List.map_cons, List.map_nil, List.filter_cons, hne, ne_eq, not_false_eq_true, decide_true,
      if_true, List.filter_nil] at hpeople ⊢
    rw [hpeople]
    simp only [List.isEmpty_cons, Bool.false_eq_true, if_false]
    have hname : personName (me ++ "!") [(me ++ "!", some id)] = id := by simp [personName, hid]
    have htake : [me ++ "!"].take heroCap = [me ++ "!"] := rfl
    rw [htake, List.map_singleton, hname]
    exact congrArg some (rfl : ", ".intercalate [id] = id)
  · simp [wantedName, personName, hid]

theorem quietly_read {next : Shared S → DaemonProc S} (h : Quietly server direct (next s) s) :
    Quietly server direct (.read next) s := by
  obtain ⟨tr, s', hends, hquiet⟩ := h
  exact ⟨tr, s', Proc.ends_read.mpr hends, hquiet⟩

theorem quietly_ask {q : Request} {r : Reply q} {next : Reply q → DaemonProc S}
    (hr : server.answers direct q r) (hnote : note q r s = s) (h : Quietly server direct (next r) s) :
    Quietly server direct (.ask q next) s := by
  obtain ⟨tr, s', hends, hquiet⟩ := h
  rw [← hnote] at hends
  exact ⟨⟨q, r⟩ :: tr, s', .ask hr hends, hquiet⟩

theorem quietly_nameRoom {x : Room} {given partner : Option String} {offline next : DaemonProc S}
    (hgiven : given = some x.name ∨ given = none ∧ x.name = x.id) (hid : x.id ≠ "")
    (hoffline : Quietly server direct offline s)
    (hnext : ∀ s₁, Quiet s s₁ → Quietly server direct next s₁) :
    Quietly server direct (nameRoom login bridge x given partner offline next) s := by
  rcases hfails : server.membersFail x.id with _ | _
  · -- the members, which give the name it has
    have hwanted : wantedName login.us bridge given partner
        [(partner.getD (login.us ++ "!"), some x.id)] = some x.name := by
      rcases hgiven with rfl | ⟨rfl, hname⟩
      · rfl
      · rw [hname]
        exact wantedName_id login.us x.id bridge partner hid
    let members : Members := [(partner.getD (login.us ++ "!"), some x.id)]
    have hquiet : Quiet s (Change.exec (fun _ => zeroSalt) s
        (.store login.number (.rememberMembers x.id members))) := ⟨rfl, rfl⟩
    obtain ⟨tr, s', hends, hquiet'⟩ := hnext _ hquiet
    have hanswer : server.answers direct (.memberNames x.id) (.ok members) := by
      show (Except.ok members : Except String Members).isOk = _
      rw [hfails]
      rfl
    refine quietly_ask hanswer rfl ⟨tr, s', Proc.ends_write.mpr ?_, hquiet.trans hquiet'⟩
    refine ⟨[fun _ => zeroSalt], le_rfl, ?_⟩
    rw [hwanted]
    dsimp only
    rw [if_pos rfl]
    exact hends
  · have hanswer : server.answers direct (.memberNames x.id) (.error "forbidden") := by
      show (Except.error "forbidden" : Except String Members).isOk = _
      rw [hfails]
      rfl
    exact quietly_ask hanswer rfl hoffline

theorem quietly_nameRooms {finish : Option String → Bool → DaemonProc S} (rooms : List Room)
    (reached : Option String) (hid : ∀ x ∈ rooms, x.id ≠ "")
    (hfinish : ∀ reached offline s₁, Quietly server direct (finish reached offline) s₁) (s : Shared S) :
    Quietly server direct (nameRooms login cp bridge finish rooms reached) s := by
  induction rooms generalizing reached s with
  | nil => exact hfinish _ _ _
  | cons x rooms ih =>
    obtain ⟨hx, hrooms⟩ := List.forall_mem_cons.mp hid
    rw [nameRooms_cons]
    refine quietly_read ?_
    split_ifs with hasks hname
    · exact quietly_nameRoom (Or.inr ⟨rfl, hname⟩) hx (hfinish _ _ _) fun s₁ _ => ih _ hrooms s₁
    · rcases hfails : server.nameFails x.id with _ | _
      · have hanswer : server.answers direct (.roomName x.id) (.ok (some x.name)) := by
          show (Except.ok (some x.name) : Except String (Option String)).isOk = _
          rw [hfails]
          rfl
        exact quietly_ask hanswer rfl
          (quietly_nameRoom (Or.inl rfl) hx (hfinish _ _ _) fun s₁ _ => ih _ hrooms s₁)
      · have hanswer : server.answers direct (.roomName x.id) (.error "forbidden") := by
          show (Except.error "forbidden" : Except String (Option String)).isOk = _
          rw [hfails]
          rfl
        exact quietly_ask hanswer rfl (hfinish _ _ _)
    · exact ih _ hrooms s

theorem quietly_finishSweep (done : Bool) (reached : Option String) (offline : Bool) (s : Shared S) :
    Quietly server direct (finishSweep login done reached offline) s := by
  refine ⟨[], _, Proc.ends_write.mpr ⟨List.replicate 2 fun _ => zeroSalt, ?_, .done⟩, ?_⟩
  · rcases reached with _ | id
    · rcases done && !offline with _ | _ <;> simp
    · rcases done && !offline with _ | _ <;> simp
  · rcases reached with _ | id
    · rcases done && !offline with _ | _ <;> exact ⟨rfl, rfl⟩
    · rcases done && !offline with _ | _ <;> exact ⟨rfl, rfl⟩

theorem quietly_backfillRoomNames {rooms : List Room} (hrooms : Read.listRooms s.db = .ok rooms) :
    Quietly server direct (backfillRoomNames login) s := by
  refine quietly_ask (q := .directRooms) (r := Except.ok direct) rfl rfl (quietly_read ?_)
  rw [cursor_eq, hrooms]
  refine quietly_nameRooms _ _ (fun x hx hempty => ?_) (quietly_finishSweep _) s
  have hmem := (List.mem_insertionSort _).mp (List.mem_of_mem_take hx)
  have hlt : place s.db < x.id := by simpa using (List.mem_filter.mp hmem).2
  rw [hempty] at hlt
  exact not_lt_empty _ hlt

/-- **There are passes** with the same `m.direct` map each time. -/
theorem exists_passes {rooms : List Room} (hrooms : Read.listRooms s.db = .ok rooms)
    (hdirect : direct ∈ server.direct) : ∃ p : Passes server login s, ∀ i, p.direct i = direct := by
  have hstep : ∀ s₁ : { s₁ : Shared S // Read.listRooms s₁.db = .ok rooms }, ∃ x : List (Exchange Reply) ×
      { s₁ : Shared S // Read.listRooms s₁.db = .ok rooms },
      EndsIn server direct (backfillRoomNames login) s₁.val x.1 x.2.val := by
    rintro ⟨s₁, hs₁⟩
    obtain ⟨tr, s', hends, hquiet⟩ := @quietly_backfillRoomNames S s₁ login server direct rooms hs₁
    exact ⟨⟨tr, s', hquiet.listRooms.trans hs₁⟩, hends⟩
  choose next hnext using hstep
  let states : ℕ → { s₁ : Shared S // Read.listRooms s₁.db = .ok rooms } :=
    fun n => Nat.rec ⟨s, hrooms⟩ (fun _ s₁ => (next s₁).2) n
  exact ⟨⟨fun i => (states i).val, fun _ => direct, fun i => (next (states i)).1, rfl, fun _ => hdirect,
    fun i => hnext (states i), fun i => ⟨rooms, (states i).property⟩⟩, fun _ => rfl⟩

/-- **When the sweep gets through**: exactly when it asks about no room in vain, and each room without an id
is one whose lookups fail. -/
theorem swept_iff {rooms : List Room} (hrooms : Read.listRooms s.db = .ok rooms)
    (hdirect : server.direct.Nonempty) (hplace : place s.db = "") (hnew : ¬ Reported s.db) :
    (∀ p : Passes server login s, ∃ n, p.Swept n) ↔
      (∀ x ∈ rooms, x.id = "" → server.fails x.id) ∧
      ∀ direct ∈ server.direct, ∀ x ∈ rooms, x.id ≠ "" →
        vain server s.db (counterpart direct) x = false := by
  constructor
  · intro h
    refine ⟨fun x hx hempty => ?_, fun direct hmem x hx hne => ?_⟩
    · -- no pass gets past the empty id
      by_contra hfails
      obtain ⟨direct, hmem⟩ := hdirect
      obtain ⟨p, -⟩ := @exists_passes S s login server direct rooms hrooms hmem
      obtain ⟨n, hswept, -⟩ := h p
      obtain ⟨i, -, ⟨hlt, -, -⟩, -⟩ := hswept rooms hrooms x hx hfails
      rw [hempty] at hlt
      exact not_lt_empty _ hlt
    · by_contra hvain
      obtain ⟨p, hp⟩ := @exists_passes S s login server direct rooms hrooms hmem
      obtain ⟨n, -, hreported⟩ := h p
      refine p.not_reported hrooms hplace hnew hx hne (fun i => ?_) n hreported
      rw [hp i]
      simpa using hvain
  · rintro ⟨hid, hfine⟩ p
    exact p.swept hrooms hplace hid hfine

end Rooms

/-! ### A room that was left -/

/-- A store of two rooms, of which the second is called by its id. -/
def twoRooms (name : String) : Shared copySuite :=
  let st : Store copySuite := (StoreOp.upsertRoom ⟨"!left", name, false, 0, 0, ""⟩).exec (fun _ => zeroSalt)
    E2ee.Effects.blankStore
  let st := (StoreOp.rememberMembers "!left" [("@bob:x", some "Bob")]).exec (fun _ => zeroSalt) st
  ⟨(StoreOp.upsertRoom ⟨"!open", "!open", false, 0, 0, ""⟩).exec (fun _ => zeroSalt) st, none, none, none, []⟩

/-- Nothing can be looked up about a room that was left. -/
def leftServer : Server := ⟨fun room => room = "!left", fun room => room = "!left", {[]}⟩

def anyone : Login := ⟨0, ⟨"https://example.org", "@us", "DEVICE", "token"⟩⟩

/-- A room that was left, but has a name and known members, is in nobody's way. -/
theorem swept_named : Nonempty (Passes leftServer anyone (twoRooms "Team")) ∧
    ∀ p : Passes leftServer anyone (twoRooms "Team"), ∃ n, p.Swept n := by
  have hrooms : Read.listRooms (twoRooms "Team").db =
      .ok [⟨"!left", "Team", false, 0, 0, ""⟩, ⟨"!open", "!open", false, 0, 0, ""⟩] := by decide +kernel
  obtain ⟨p, -⟩ : ∃ p : Passes leftServer anyone (twoRooms "Team"), ∀ i, p.direct i = [] :=
    exists_passes hrooms rfl
  refine ⟨⟨p⟩, (swept_iff hrooms (Set.singleton_nonempty _) (by decide +kernel)
    (by rw [reported_iff]; decide +kernel)).mpr ⟨by simp, ?_⟩⟩
  rintro direct rfl
  decide +kernel

/-- **A room that was left without a name stops the sweep for good.** -/
theorem not_swept_left : ¬ ∀ p : Passes leftServer anyone (twoRooms "!left"), ∃ n, p.Swept n := by
  intro h
  have hrooms : Read.listRooms (twoRooms "!left").db =
      .ok [⟨"!left", "!left", false, 0, 0, ""⟩, ⟨"!open", "!open", false, 0, 0, ""⟩] := by decide +kernel
  obtain ⟨p, hp⟩ : ∃ p : Passes leftServer anyone (twoRooms "!left"), ∀ i, p.direct i = [] :=
    exists_passes hrooms rfl
  obtain ⟨n, -, hreported⟩ := h p
  refine p.not_reported hrooms (by decide +kernel) (by rw [reported_iff]; decide +kernel)
    (x := ⟨"!left", "!left", false, 0, 0, ""⟩) (by simp) (by decide) (fun i => ?_) n hreported
  rw [hp i]
  decide +kernel

end Kmatrix.Daemon.Sweeping
