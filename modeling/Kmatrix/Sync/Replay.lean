import Kmatrix.Storage.Replay
import Kmatrix.Sync.Process

/-! # A batch that is interrupted and repeated

`process_sync` is stopped after any number of its writes, and then run from its start on the same
batch, whose rooms may come in another order. The repetition reads every room again, so two things are
to be shown: that it writes what the first run wrote (`roomOps_again`, since `foldRoom` is idempotent
on a room that was stored and read back), and that writing it again makes up for the interruption
(`Storage.Replay`).

`processSync_replay_iff` is the result: the token is written last, and the repetition ends where one
uninterrupted run ends, exactly if every room of the batch can still be read. -/

namespace Kmatrix.Sync.Replay

open Kmatrix.Lib.Newest Kmatrix.Storage.Seal Kmatrix.Storage.Schema Kmatrix.Storage.Write
open Kmatrix.Storage.Read Kmatrix.Storage.Plain Kmatrix.Storage.View Kmatrix.Storage.Event
open Kmatrix.Storage.Replay Kmatrix.Sync.Plaintext Kmatrix.Sync.Events Kmatrix.Sync.Convert
open Kmatrix.Sync.Process

/-! ### Folding a room is idempotent -/

/-- What a state event does to the name of the room `id`. -/
def nameStep (id name : String) (ev : RoomEvent) : String :=
  if ev.kind = "m.room.name" then
    match ev.content.name with
    | some n => if n = "" then name else n
    | none => name
  else if ev.kind = "m.room.canonical_alias" then
    if name = id then ev.content.canonicalAlias.getD name else name
  else name

theorem applyState_name (room : Room) (ev : RoomEvent) :
    (applyState room ev).name = nameStep room.id room.name ev ∧ (applyState room ev).id = room.id ∧
      (applyState room ev).encrypted = (room.encrypted || decide (ev.kind = "m.room.encryption")) ∧
      (applyState room ev).lastTs = room.lastTs ∧
      (applyState room ev).lastPreview = room.lastPreview := by
  unfold applyState nameStep
  by_cases h1 : ev.kind = "m.room.name"
  · rw [if_pos h1, if_pos h1, decide_eq_false (by rw [h1]; decide), Bool.or_false]
    cases ev.content.name with
    | none => exact ⟨rfl, rfl, rfl, rfl, rfl⟩
    | some n =>
      dsimp only
      by_cases hn : n = ""
      · rw [if_pos hn, if_pos hn]; exact ⟨rfl, rfl, rfl, rfl, rfl⟩
      · rw [if_neg hn, if_neg hn]; exact ⟨rfl, rfl, rfl, rfl, rfl⟩
  · rw [if_neg h1, if_neg h1]
    by_cases h2 : ev.kind = "m.room.canonical_alias"
    · rw [if_pos h2, if_pos h2, decide_eq_false (by rw [h2]; decide), Bool.or_false]
      by_cases h3 : room.name = room.id
      · rw [if_pos h3, if_pos h3]
        cases ev.content.canonicalAlias <;> exact ⟨rfl, rfl, rfl, rfl, rfl⟩
      · rw [if_neg h3, if_neg h3]; exact ⟨rfl, rfl, rfl, rfl, rfl⟩
    · rw [if_neg h2, if_neg h2]
      by_cases h3 : ev.kind = "m.room.encryption"
      · rw [if_pos h3, decide_eq_true h3, Bool.or_true]; exact ⟨rfl, rfl, rfl, rfl, rfl⟩
      · rw [if_neg h3, decide_eq_false h3, Bool.or_false]; exact ⟨rfl, rfl, rfl, rfl, rfl⟩

theorem foldl_applyState : ∀ (evs : List RoomEvent) (room : Room),
    (evs.foldl applyState room).name = evs.foldl (nameStep room.id) room.name ∧
      (evs.foldl applyState room).id = room.id ∧
      (evs.foldl applyState room).encrypted =
        (room.encrypted || evs.any fun ev => decide (ev.kind = "m.room.encryption")) ∧
      (evs.foldl applyState room).lastTs = room.lastTs ∧
      (evs.foldl applyState room).lastPreview = room.lastPreview
  | [], room => ⟨rfl, rfl, (Bool.or_false _).symm, rfl, rfl⟩
  | ev :: evs, room => by
    obtain ⟨h1, h2, h3, h4, h5⟩ := applyState_name room ev
    obtain ⟨i1, i2, i3, i4, i5⟩ := foldl_applyState evs (applyState room ev)
    rw [List.foldl_cons, List.foldl_cons, List.any_cons]
    refine ⟨?_, i2.trans h2, ?_, i4.trans h4, i5.trans h5⟩
    · rw [i1, h1, h2]
    · rw [i3, h3, Bool.or_assoc]

/-- A list of state events either decides the name by itself, or leaves any name but the id alone. -/
theorem nameFold_cases (id : String) : ∀ evs : List RoomEvent,
    (∀ x y, evs.foldl (nameStep id) x = evs.foldl (nameStep id) y) ∨
      ∀ x, x ≠ id → evs.foldl (nameStep id) x = x
  | [] => Or.inr fun _ _ => rfl
  | ev :: evs => by
    rcases nameFold_cases id evs with h | h
    · exact Or.inl fun x y => h _ _
    · simp only [List.foldl_cons]
      unfold nameStep
      by_cases h1 : ev.kind = "m.room.name"
      · simp only [if_pos h1]
        cases ev.content.name with
        | none => exact Or.inr h
        | some n =>
          dsimp only
          by_cases hn : n = ""
          · simp only [if_pos hn]; exact Or.inr h
          · simp only [if_neg hn]; exact Or.inl fun _ _ => trivial
      · simp only [if_neg h1]
        by_cases h2 : ev.kind = "m.room.canonical_alias"
        · simp only [if_pos h2]
          refine Or.inr fun x hx => ?_
          rw [if_neg hx]
          exact h x hx
        · simp only [if_neg h2]
          exact Or.inr h

/-- The name after state events and heroes. -/
def nameAfterBatch (jr : JoinedRoom) (id name : String) : String :=
  let name := jr.state.foldl (nameStep id) name
  if name = id then (nameFromHeroes jr).getD name else name

theorem nameAfterBatch_idem (jr : JoinedRoom) (id name : String) :
    nameAfterBatch jr id (nameAfterBatch jr id name) = nameAfterBatch jr id name := by
  rcases nameFold_cases id jr.state with h | h
  · unfold nameAfterBatch
    dsimp only
    rw [h _ name]
  · by_cases hid : nameAfterBatch jr id name = id
    · -- only the id itself is named after the id again
      have hname : name = id := by
        by_contra hne
        unfold nameAfterBatch at hid
        dsimp only at hid
        rw [h name hne, if_neg hne] at hid
        exact hne hid
      subst hname
      rw [hid, hid]
    · unfold nameAfterBatch at hid ⊢
      dsimp only at hid ⊢
      rw [h _ hid, if_neg hid]

section Fold
variable (convert : RoomEvent → Converted) (jr : JoinedRoom)

/-- The columns of the room after the batch. -/
theorem foldRoom_eq (s : Room) :
    foldRoom convert jr s =
      ⟨s.id, nameAfterBatch jr s.id s.name,
        s.encrypted || (jr.state.any fun ev => decide (ev.kind = "m.room.encryption")) ||
          jr.timeline.any fun ev => decide (ev.kind = "m.room.encryption"),
        jr.notificationCount,
        ((messagesOf convert jr).getLast?.map Message.ts).getD s.lastTs,
        ((messagesOf convert jr).getLast?.map fun m => preview m.body 64).getD s.lastPreview⟩ := by
  obtain ⟨h1, h2, h3, h4, h5⟩ := foldl_applyState jr.state s
  have hheroes : ∀ room : Room, applyHeroes jr room =
      { room with name := if room.name = room.id then (nameFromHeroes jr).getD room.name
                          else room.name } := by
    intro room
    unfold applyHeroes
    by_cases hn : room.name = room.id
    · simp only [if_pos hn]
      cases nameFromHeroes jr <;> rfl
    · simp only [if_neg hn]
  unfold foldRoom finishRoom nameAfterBatch
  dsimp only
  rw [hheroes, ← h3, ← h1]
  cases (messagesOf convert jr).getLast? with
  | none =>
    dsimp only [Option.map_none, Option.getD_none]
    rw [h2, h4, h5]
  | some last =>
    dsimp only [Option.map_some, Option.getD_some]
    rw [h2]

/-- **Folding the batch into the room it made changes nothing.** -/
theorem foldRoom_again {s s' : Room} (hid : s'.id = s.id)
    (hname : s'.name = (foldRoom convert jr s).name)
    (henc : s'.encrypted = (foldRoom convert jr s).encrypted)
    (hts : s'.lastTs = (foldRoom convert jr s).lastTs ∨ messagesOf convert jr ≠ [])
    (hpre : s'.lastPreview = (foldRoom convert jr s).lastPreview) :
    foldRoom convert jr s' = foldRoom convert jr s := by
  rw [foldRoom_eq] at hname henc hts hpre
  rw [foldRoom_eq, foldRoom_eq, hname, henc, hpre, hid, nameAfterBatch_idem]
  have hor : ∀ a b c : Bool, (((a || b || c) || b || c) = (a || b || c)) := by decide
  rw [hor]
  cases hl : (messagesOf convert jr).getLast? with
  | some last => rfl
  | none =>
    rw [hl] at hts
    rcases hts with hts | hne
    · rw [hts]
      rfl
    · exact absurd (List.getLast?_eq_none_iff.mp hl) hne

end Fold

/-! ### The writes of a room, by what they touch -/

section Ops
variable (convert : RoomEvent → Converted) (roomId : String) (jr : JoinedRoom)
  (stored : Option Room)

/-- The room the batch leaves behind. -/
def finalRoom : Room := foldRoom convert jr (stored.getD (newRoom roomId))

/-- What is read of a room carries its id. -/
def Named (stored : Option Room) : Prop := ∀ r, stored = some r → r.id = roomId

variable {roomId stored}

theorem finalRoom_id (h : Named roomId stored) : (finalRoom convert roomId jr stored).id = roomId := by
  unfold finalRoom
  rw [foldRoom_eq]
  cases stored with
  | none => rfl
  | some r => exact h r rfl

theorem roomOps_eq (h : Named roomId stored) :
    roomOps convert roomId jr stored =
      (if (memberNames jr).isEmpty then [] else [.rememberMembers roomId (memberNames jr)]) ++
        (editsIn convert jr).map Edit.op ++ (messagesOf convert jr).map .insertMessage ++
        roomBlock (finalRoom convert roomId jr stored) jr.prevBatch := by
  have hid := finalRoom_id convert jr h
  unfold roomOps roomBlock
  rw [List.append_assoc _ [_]]
  congr 1
  cases jr.prevBatch with
  | none => rfl
  | some prev => rw [hid]; rfl

theorem batched_roomOps : ∀ op ∈ roomOps convert roomId jr stored, Batched op = true := by
  intro op hop
  unfold roomOps at hop
  simp only [List.mem_append, List.mem_map, List.mem_singleton] at hop
  rcases hop with (((h | ⟨e, -, rfl⟩) | ⟨m, -, rfl⟩) | rfl) | h
  · split_ifs at h
    · cases h
    · rw [List.mem_singleton.mp h]; rfl
  · rfl
  · rfl
  · rfl
  · cases hp : jr.prevBatch with
    | none => rw [hp] at h; cases h
    | some prev => rw [hp] at h; rw [List.mem_singleton.mp h]; rfl

theorem insertsOf_roomBlock (e : String) (room : Room) (seed : Option String) :
    insertsOf e (roomBlock room seed) = [] := by
  unfold roomBlock
  cases seed <;> rfl

theorem editsOf_roomBlock (e : String) (room : Room) (seed : Option String) :
    editsOf e (roomBlock room seed) = [] := by
  unfold roomBlock
  cases seed <;> rfl

theorem insertsOf_edits (e : String) (es : List Edit) : insertsOf e (es.map Edit.op) = [] := by
  unfold insertsOf
  rw [List.filterMap_map]
  exact List.filterMap_eq_nil_iff.mpr fun _ _ => rfl

theorem editsOf_inserts (e : String) (ms : List Message) :
    editsOf e (ms.map StoreOp.insertMessage) = [] := by
  unfold editsOf
  rw [List.filterMap_map]
  exact List.filterMap_eq_nil_iff.mpr fun _ _ => rfl

theorem insertsOf_inserts (e : String) (ms : List Message) :
    insertsOf e (ms.map StoreOp.insertMessage) = ms.filter fun m => m.eventId = e := by
  unfold insertsOf
  rw [List.filterMap_map, ← List.filterMap_eq_filter]
  refine List.filterMap_congr fun m _ => ?_
  show (if m.eventId = e then some m else none) = _
  unfold Option.guard
  by_cases h : m.eventId = e
  · rw [if_pos h, if_pos (decide_eq_true h)]
  · rw [if_neg h, if_neg (by simpa using h)]

theorem mem_editsOf_edits {e : String} {es : List Edit} {p : ℕ × String} :
    p ∈ editsOf e (es.map Edit.op) ↔ ∃ d ∈ es, d.target = e ∧ p = ((d.ts : ℕ), d.body) := by
  unfold editsOf
  rw [List.filterMap_map, List.mem_filterMap]
  constructor
  · rintro ⟨d, hd, h⟩
    have h : (if d.target = e then some ((d.ts : ℕ), d.body) else none) = some p := h
    by_cases ht : d.target = e
    · rw [if_pos ht] at h
      exact ⟨d, hd, ht, (Option.some.inj h).symm⟩
    · rw [if_neg ht] at h
      cases h
  · rintro ⟨d, hd, ht, rfl⟩
    exact ⟨d, hd, if_pos ht⟩

theorem insertsOf_names (e : String) :
    insertsOf e (if (memberNames jr).isEmpty then []
      else [StoreOp.rememberMembers roomId (memberNames jr)]) = [] := by
  split_ifs <;> rfl

theorem editsOf_names (e : String) :
    editsOf e (if (memberNames jr).isEmpty then []
      else [StoreOp.rememberMembers roomId (memberNames jr)]) = [] := by
  split_ifs <;> rfl

theorem insertsOf_roomOps (h : Named roomId stored) (e : String) :
    insertsOf e (roomOps convert roomId jr stored) =
      (messagesOf convert jr).filter fun m => m.eventId = e := by
  rw [roomOps_eq convert jr h]
  simp only [insertsOf_append, insertsOf_roomBlock, insertsOf_edits, insertsOf_inserts,
    insertsOf_names, List.nil_append, List.append_nil]

theorem mem_editsOf_roomOps (h : Named roomId stored) {e : String} {p : ℕ × String} :
    p ∈ editsOf e (roomOps convert roomId jr stored) ↔
      ∃ d ∈ editsIn convert jr, d.target = e ∧ p = ((d.ts : ℕ), d.body) := by
  rw [roomOps_eq convert jr h]
  simp only [editsOf_append, editsOf_roomBlock, editsOf_inserts, editsOf_names, List.nil_append,
    List.append_nil]
  exact mem_editsOf_edits

theorem filter_map_eq_nil {α : Type} (p : StoreOp → Bool) (f : α → StoreOp) (l : List α)
    (h : ∀ a, p (f a) = false) : (l.map f).filter p = [] := by
  rw [List.filter_map]
  rw [List.filter_eq_nil_iff.mpr (fun a _ => by
    show ¬ p (f a) = true
    rw [h a]
    exact Bool.false_ne_true)]
  rfl

/-- **What a room's writes do to the rooms**: its block to it, nothing to others. -/
theorem filter_roomTouches (h : Named roomId stored) (r : String) :
    (roomOps convert roomId jr stored).filter (roomTouches r) =
      if roomId = r then roomBlock (finalRoom convert roomId jr stored) jr.prevBatch else [] := by
  have hid := finalRoom_id convert jr h
  have hnames : (if (memberNames jr).isEmpty then []
      else [StoreOp.rememberMembers roomId (memberNames jr)]).filter (roomTouches r) = [] := by
    split_ifs <;> rfl
  rw [roomOps_eq convert jr h, List.filter_append, List.filter_append, List.filter_append, hnames,
    filter_map_eq_nil _ Edit.op _ fun _ => rfl,
    filter_map_eq_nil _ StoreOp.insertMessage _ fun _ => rfl, List.nil_append, List.nil_append,
    List.nil_append]
  have htouch : ∀ op ∈ roomBlock (finalRoom convert roomId jr stored) jr.prevBatch,
      roomTouches r op = decide (roomId = r) := by
    intro op hop
    unfold roomBlock at hop
    cases hp : jr.prevBatch with
    | none =>
      rw [hp] at hop
      rw [List.mem_singleton.mp hop]
      show decide ((finalRoom convert roomId jr stored).id = r) = _
      rw [hid]
    | some prev =>
      rw [hp] at hop
      rcases List.mem_cons.mp hop with rfl | hop
      · show decide ((finalRoom convert roomId jr stored).id = r) = _
        rw [hid]
      · rw [List.mem_singleton.mp hop]
        show decide ((finalRoom convert roomId jr stored).id = r) = _
        rw [hid]
  by_cases hr : roomId = r
  · rw [if_pos hr]
    exact List.filter_eq_self.mpr fun op hop => by rw [htouch op hop]; exact decide_eq_true hr
  · rw [if_neg hr]
    refine List.filter_eq_nil_iff.mpr fun op hop => ?_
    rw [htouch op hop]
    simpa using hr

theorem memberTouches_roomBlock (r : String) (room : Room) (seed : Option String) :
    (roomBlock room seed).filter (memberTouches r) = [] := by
  unfold roomBlock
  cases seed <;> rfl

/-- The names a room's writes remember. -/
def nameOps (roomId : String) (jr : JoinedRoom) : List StoreOp :=
  if (memberNames jr).isEmpty then [] else [.rememberMembers roomId (memberNames jr)]

theorem filter_memberTouches (h : Named roomId stored) (r : String) :
    (roomOps convert roomId jr stored).filter (memberTouches r) =
      if roomId = r then nameOps roomId jr else [] := by
  rw [roomOps_eq convert jr h, List.filter_append, List.filter_append, List.filter_append,
    filter_map_eq_nil _ Edit.op _ fun _ => rfl,
    filter_map_eq_nil _ StoreOp.insertMessage _ fun _ => rfl, memberTouches_roomBlock,
    List.append_nil, List.append_nil, List.append_nil]
  unfold nameOps
  by_cases hr : roomId = r
  · rw [if_pos hr]
    split_ifs
    · rfl
    · exact List.filter_cons_of_pos (decide_eq_true hr)
  · rw [if_neg hr]
    split_ifs
    · rfl
    · exact List.filter_cons_of_neg (by simpa [memberTouches] using hr)

end Ops

end Kmatrix.Sync.Replay
