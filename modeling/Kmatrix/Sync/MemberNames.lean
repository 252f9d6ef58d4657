import Kmatrix.Lib.Batching
import Kmatrix.Sync.Rerun
import Mathlib.Data.List.Dedup

/-! # The names of the members

A batch brings member events in its state block and its timeline, and what a room calls its members should
not depend on how the server has cut them into batches: for each user it is the last display name that was
not empty. `process_sync` collapses the events of a batch to a map with the last event of each user, and
`remember_members` skips those without a name. So a name is not learned where the same batch ends, for that
user, with an event that has none. -/

namespace Kmatrix.Sync.MemberNames

open Kmatrix.Lib.Keyed Kmatrix.Lib.Batching Kmatrix.Storage.Seal Kmatrix.Storage.Schema
open Kmatrix.Storage.Write Kmatrix.Storage.Plain Kmatrix.Storage.Replay
open Kmatrix.Sync.Events Kmatrix.Sync.Convert Kmatrix.Sync.Process Kmatrix.Sync.Replay Kmatrix.Sync.Rerun

/-! ### What the batches bring -/

/-- The member events of a room in a batch, the state block before the timeline. -/
def memberEvents (room : String) (batch : SyncBatch) : List RoomEvent :=
  ((batch.join.lookup room).elim [] fun jr => jr.state ++ jr.timeline).filter fun ev =>
    ev.kind = "m.room.member"

/-- What they report: an empty name is none, and an event without a user is about nobody. -/
def reports (evs : List RoomEvent) : List (Report String String) :=
  evs.filterMap fun ev => ev.stateKey.map fun user => (user, ev.content.displayname.filter fun n => n ≠ "")

section Batch
variable {S : CipherSuite} {convert : String → RoomEvent → Converted} {rng : ℕ → Salts} {st st' : Store S}
  {batch : SyncBatch} {batches : List SyncBatch} {room user : String}

/-- **What the room calls the user**, as it is stored. -/
def nameOf (st : Store S) (room user : String) : Option String :=
  ((contents st).members.lookup (room, user)).join

/-- **The batches were processed**, one after the other and each to its end. -/
inductive Processed : Store S → List SyncBatch → Store S → Prop
  | nil {st : Store S} : Processed st [] st
  | cons {st st' : Store S} {batch : SyncBatch} {batches : List SyncBatch}
      (convert : String → RoomEvent → Converted) (rng : ℕ → Salts)
      (hok : (processTrace convert rng st batch).2 = .ok ())
      (h : Processed (processSync convert rng st batch) batches st') : Processed st (batch :: batches) st'

/-! ### One batch -/

theorem named_cons (u : String) (d : Option String) (names : List (String × Option String)) :
    named ((u, d) :: names) = ((d.filter fun n => n ≠ "").map fun n => (u, n)).toList ++ named names := by
  unfold named
  rw [List.filterMap_cons]
  rcases d with _ | n
  · rfl
  · by_cases hn : n = ""
    · simp [hn]
    · simp [hn, Option.filter]

/-- A map with the names of some users changes the name of one only if it has one for them. -/
theorem nameAfter_named {users : List String} (hnodup : users.Nodup) (f : String → Option String)
    (s : Option (Option String)) :
    nameAfter (room, user) s room ((named (users.map fun u => (u, f u))).map fun p => (p.1, some p.2)) =
      if user ∈ users then (((f user).filter fun n => n ≠ "").map some).or s else s := by
  induction users generalizing s with
  | nil => rfl
  | cons u users ih =>
    obtain ⟨hu, hnodup⟩ := List.nodup_cons.mp hnodup
    have hstep : nameAfter (room, user) s room ((named ((u :: users).map fun u => (u, f u))).map
        fun p => (p.1, some p.2)) = nameAfter (room, user)
          (if user = u then (((f u).filter fun n => n ≠ "").map some).or s else s) room
          ((named (users.map fun u => (u, f u))).map fun p => (p.1, some p.2)) := by
      rw [List.map_cons, named_cons]
      rcases (f u).filter fun n => n ≠ "" with _ | n
      · simp
      · by_cases hu : user = u
        · simp [nameAfter, hu]
        · simp [nameAfter, hu]
    rw [hstep, ih hnodup]
    by_cases heq : user = u
    · simp [heq, hu]
    · simp [heq]

/-- **What a batch leaves** of a user's name. -/
theorem nameAfter_memberNames (jr : JoinedRoom) (s : Option (Option String)) :
    nameAfter (room, user) s room ((named (memberNames jr)).map fun p => (p.1, some p.2)) =
      ((final (reports ((jr.state ++ jr.timeline).filter fun ev => ev.kind = "m.room.member")) user).map
        some).or s := by
  set sent := (jr.state ++ jr.timeline).filterMap fun ev =>
    if ev.kind = "m.room.member" then ev.stateKey.map fun user => (user, ev.content.displayname)
    else none with hsent
  have hreports : reports ((jr.state ++ jr.timeline).filter fun ev => ev.kind = "m.room.member") =
      sent.map fun p => (p.1, p.2.filter fun n => n ≠ "") := by
    rw [hsent]
    unfold reports
    rw [List.filterMap_filter, List.map_filterMap]
    refine List.filterMap_congr fun ev _ => ?_
    by_cases hkind : ev.kind = "m.room.member"
    · rcases ev.stateKey with _ | key <;> simp [hkind]
    · simp [hkind]
  have hfinal : final (reports ((jr.state ++ jr.timeline).filter fun ev => ev.kind = "m.room.member")) user =
      ((sent.reverse.find? fun p => p.1 = user).bind Prod.snd).filter fun n => n ≠ "" := by
    unfold final
    rw [hreports, ← List.map_reverse, List.find?_map]
    have hcomp : ((fun e : Report String String => decide (e.1 = user)) ∘
        fun p : String × Option String => (p.1, p.2.filter fun n => n ≠ "")) =
        fun p : String × Option String => decide (p.1 = user) := rfl
    rw [hcomp]
    generalize sent.reverse.find? (fun p => decide (p.1 = user)) = found
    rcases found with _ | p
    · rfl
    · rfl
  have hnodup : ((sent.map Prod.fst).dedup.insertionSort (· ≤ ·)).Nodup :=
    (List.perm_insertionSort _ _).nodup_iff.mpr (List.nodup_dedup _)
  have hnames : memberNames jr = ((sent.map Prod.fst).dedup.insertionSort (· ≤ ·)).map fun user =>
      (user, (sent.reverse.find? fun p => p.1 = user).bind Prod.snd) := rfl
  rw [hnames, nameAfter_named hnodup, hfinal]
  split_ifs with hmem
  · rfl
  · have hnone : sent.reverse.find? (fun p => p.1 = user) = none := by
      rw [List.find?_eq_none]
      intro p hp heq
      rw [List.mem_insertionSort, List.mem_dedup] at hmem
      have hfst : p.1 = user := by simpa using heq
      exact hmem (hfst ▸ List.mem_map_of_mem (List.mem_reverse.mp hp))
    rw [hnone]
    rfl

/-- **One batch**: the last report of the user counts, if it tells a name. -/
theorem nameOf_processSync (hok : (processTrace convert rng st batch).2 = .ok ()) :
    nameOf (processSync convert rng st batch) room user =
      (final (reports (memberEvents room batch)) user).or (nameOf st room user) := by
  have hread := processTrace_ok_iff.mp hok
  have hs := named_storedRoom st
  have hrun : (contents (processSync convert rng st batch)).members.lookup (room, user) =
      memberRun some (room, user) ((contents st).members.lookup (room, user))
        ((blocks convert (storedRoom st) batch.join).filter (memberTouches room)) := by
    unfold processSync
    rw [contents_execOps, member_runPlain, processTrace_eq hread, memberRun_filter, List.filter_append,
      filter_token _ rfl, List.append_nil]
  unfold nameOf
  rw [hrun]
  rcases hlookup : batch.join.lookup room with _ | jr
  · have hne : ∀ p ∈ batch.join, p.1 ≠ room := by
      intro p hp heq
      rw [List.lookup_eq_none_iff] at hlookup
      simpa [heq] using hlookup p hp
    rw [members_blocks_none convert hs hne]
    simp [memberEvents, hlookup, reports, final, memberRun]
  · have hmem : (room, jr) ∈ batch.join := List.lookup_eq_some_iff.mp hlookup |>.elim fun l h => by
      obtain ⟨l₂, h, -⟩ := h
      rw [h]
      simp
    rw [members_blocks convert hs batch.nodup hmem]
    have hevents : memberEvents room batch =
        (jr.state ++ jr.timeline).filter fun ev => ev.kind = "m.room.member" := by
      simp [memberEvents, hlookup]
    have hstep := @nameAfter_memberNames room user jr ((contents st).members.lookup (room, user))
    rw [hevents]
    have hmemberRun : memberRun some (room, user) ((contents st).members.lookup (room, user))
        (nameOps room jr) = nameAfter (room, user) ((contents st).members.lookup (room, user)) room
          ((named (memberNames jr)).map fun p => (p.1, some p.2)) := by
      unfold nameOps
      split_ifs with hempty
      · rw [List.isEmpty_iff.mp hempty]
        rfl
      · rfl
    rw [hmemberRun, hstep]
    rcases final _ user with _ | n <;> rfl

/-! ### Batch after batch -/

/-- **What the batches leave** is what is held of their reports. -/
theorem nameOf_processed (h : Processed st batches st') :
    nameOf st' room user =
      held (nameOf st room) (batches.map fun batch => reports (memberEvents room batch)) user := by
  induction h with
  | nil => rfl
  | cons convert rng hok _ ih =>
    rw [ih]
    unfold held
    rw [List.map_cons, List.foldl_cons, nameOf_processSync hok]

theorem flatten_reports (batches : List SyncBatch) :
    (batches.map fun batch => reports (memberEvents room batch)).flatten =
      reports (batches.flatMap (memberEvents room)) := by
  unfold reports
  rw [List.filterMap_flatMap, List.flatMap_def]

/-- **When names do not depend on batching**: two ways to cut the same member events leave the same names,
each the last that was not empty, exactly where both settle every user. -/
theorem learned_iff {s₁ s₂ : Store S} {batches' : List SyncBatch} (h₁ : Processed st batches s₁)
    (h₂ : Processed st batches' s₂)
    (hsame : batches.flatMap (memberEvents room) = batches'.flatMap (memberEvents room)) :
    (∀ user, nameOf s₁ room user = nameOf s₂ room user ∧ nameOf s₁ room user =
      (told (reports (batches.flatMap (memberEvents room))) user).or (nameOf st room user)) ↔
    ∀ user, Settles (nameOf st room) (batches.map fun batch => reports (memberEvents room batch)) user ∧
      Settles (nameOf st room) (batches'.map fun batch => reports (memberEvents room batch)) user := by
  refine forall_congr' fun user => ?_
  rw [← held_iff, ← held_iff, flatten_reports, flatten_reports, ← hsame, nameOf_processed h₁,
    nameOf_processed h₂]
  constructor
  · rintro ⟨heq, htold⟩
    exact ⟨htold, heq ▸ htold⟩
  · rintro ⟨htold, htold'⟩
    exact ⟨htold.trans htold'.symm, htold⟩

end Batch

/-! ### An event without a name -/

/-- Alice as the server reports her. -/
def alice (displayname : Option String) : RoomEvent :=
  { kind := "m.room.member", stateKey := some "@alice:x", content := { displayname := displayname } }

def oneRoom (state timeline : List RoomEvent) : SyncBatch :=
  ⟨"next", [("!r", { state := state, timeline := timeline })], List.nodup_singleton "!r"⟩

/-- Nothing can be decrypted. -/
def noKeys : String → RoomEvent → Converted := fun _ _ => ⟨none, none⟩

/-- The batches are processed with salts of zeros, in an empty store. -/
def after (batches : List SyncBatch) : Store copySuite :=
  batches.foldl (fun st batch => processSync noKeys (fun _ _ => zeroSalt) st batch) ⟨Tables.empty, none⟩

theorem processed_two {b₁ b₂ : SyncBatch}
    (hok₁ : (processTrace noKeys (fun _ _ => zeroSalt) (after []) b₁).2 = .ok ())
    (hok₂ : (processTrace noKeys (fun _ _ => zeroSalt) (after [b₁]) b₂).2 = .ok ()) :
    Processed (after []) [b₁, b₂] (after [b₁, b₂]) := .cons noKeys _ hok₁ (.cons noKeys _ hok₂ .nil)

/-- Where the event without a name comes in a batch of its own, it hides nothing, whatever the block. -/
theorem learned_alice :
    nameOf (after [oneRoom [alice (some "Alice")] [], oneRoom [alice none] []]) "!r" "@alice:x" =
        nameOf (after [oneRoom [] [alice (some "Alice")], oneRoom [] [alice none]]) "!r" "@alice:x" ∧
      nameOf (after [oneRoom [alice (some "Alice")] [], oneRoom [alice none] []]) "!r" "@alice:x" =
        some "Alice" := by
  have hsettles : ∀ user, Settles (nameOf (after []) "!r")
      [[("@alice:x", some "Alice")], [("@alice:x", none)]] user := by
    intro user
    rw [← held_iff]
    by_cases huser : "@alice:x" = user
    · simp [held, final, told, huser]
    · simp [held, final, told, huser]
  have hstate : Processed (after []) [oneRoom [alice (some "Alice")] [], oneRoom [alice none] []]
      (after [oneRoom [alice (some "Alice")] [], oneRoom [alice none] []]) :=
    processed_two (by decide +kernel) (by decide +kernel)
  have htimeline : Processed (after []) [oneRoom [] [alice (some "Alice")], oneRoom [] [alice none]]
      (after [oneRoom [] [alice (some "Alice")], oneRoom [] [alice none]]) :=
    processed_two (by decide +kernel) (by decide +kernel)
  have hlearned := (@learned_iff _ _ _ "!r" _ _ _ hstate htimeline rfl).mpr
    fun user => ⟨hsettles user, hsettles user⟩
  refine ⟨(hlearned "@alice:x").1, (hlearned "@alice:x").2.trans ?_⟩
  decide +kernel

/-- **A name is not learned** where the batch ends with an event that has none. -/
theorem not_learned_oneBatch :
    ¬ ∀ (st s₁ s₂ : Store copySuite) (batches batches' : List SyncBatch), Processed st batches s₁ →
      Processed st batches' s₂ →
      batches.flatMap (memberEvents "!r") = batches'.flatMap (memberEvents "!r") →
      ∀ user, nameOf s₁ "!r" user = nameOf s₂ "!r" user ∧ nameOf s₁ "!r" user =
        (told (reports (batches.flatMap (memberEvents "!r"))) user).or (nameOf st "!r" user) := by
  intro h
  have hone : Processed (after []) [oneRoom [alice (some "Alice"), alice none] []]
      (after [oneRoom [alice (some "Alice"), alice none] []]) :=
    .cons noKeys (fun _ _ => zeroSalt) (by decide +kernel) .nil
  have htwo : Processed (after []) [oneRoom [alice (some "Alice")] [], oneRoom [alice none] []]
      (after [oneRoom [alice (some "Alice")] [], oneRoom [alice none] []]) :=
    processed_two (by decide +kernel) (by decide +kernel)
  have hsame := (h _ _ _ _ _ hone htwo rfl "@alice:x").1
  have hnone : nameOf (after [oneRoom [alice (some "Alice"), alice none] []]) "!r" "@alice:x" = none := by
    decide +kernel
  have hsome : nameOf (after [oneRoom [alice (some "Alice")] [], oneRoom [alice none] []]) "!r" "@alice:x" =
      some "Alice" := by decide +kernel
  rw [hnone, hsome] at hsame
  simp at hsame

end Kmatrix.Sync.MemberNames
