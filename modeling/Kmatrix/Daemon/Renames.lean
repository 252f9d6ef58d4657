import Kmatrix.Daemon.GivenNames
import Mathlib.Data.List.DropRight

/-! # Renames

After every batch a room should have a name, and be called by the latest `m.room.name` so far, whether it
came in a state block or in a timeline. The daemon folds the state block only: `nameAfter_eq` says what of
it decides, the last name in it, or for a room without a name the first alias and then the heroes. A rename
that comes in a timeline, as it does once the room is in sync, is not seen. -/

namespace Kmatrix.Daemon.Renames

open Kmatrix.Lib.Threads Kmatrix.Daemon.Procs Kmatrix.Daemon.Names Kmatrix.Daemon.GivenNames
open Kmatrix.Storage Kmatrix.Storage.Seal Kmatrix.Storage.Schema
open Kmatrix.Sync Kmatrix.Sync.Plaintext Kmatrix.Sync.Events Kmatrix.Sync.Process

/-! ### The name after a block -/

/-- The names in a list of events. -/
abbrev names (evs : List RoomEvent) : List String := evs.filterMap nameIn

/-- What the room is called by the names of the state block. -/
def called (stored : String) (block : List RoomEvent) : String := (names block).getLast?.getD stored

/-- The first alias after the last name of the block, other than the id. -/
def aliasAfter (room : String) (block : List RoomEvent) : Option String :=
  ((block.rtakeWhile fun ev => (nameIn ev).isNone).filterMap aliasIn).find? fun a => a ≠ room

/-- **What a room is called that has no name but its id**: its alias, or its heroes. -/
def fallback (room : String) (jr : JoinedRoom) : String :=
  (aliasAfter room jr.state).getD ((nameFromHeroes jr).getD room)

theorem foldl_called (r : Room) (block : List RoomEvent) :
    (block.foldl applyState r).name =
      if called r.name block = r.id then (aliasAfter r.id block).getD r.id else called r.name block := by
  induction block using List.reverseRecOn with
  | nil =>
    rw [List.foldl_nil]
    split_ifs with h
    · exact h
    · rfl
  | append_singleton block ev ih =>
    have hid : (block.foldl applyState r).id = r.id := foldl_applyState_id block
    rw [List.foldl_append, List.foldl_cons, List.foldl_nil]
    rcases hname : nameIn ev with _ | n
    · have hcalled : called r.name (block ++ [ev]) = called r.name block := by
        simp [called, names, List.filterMap_append, hname]
      have hafter : aliasAfter r.id (block ++ [ev]) = (aliasAfter r.id block).or
          ((aliasIn ev).filter fun a => a ≠ r.id) := by
        unfold aliasAfter
        rw [List.rtakeWhile_concat_pos _ _ _ (by simp [hname]), List.filterMap_append, List.find?_append]
        rcases halias : aliasIn ev with _ | a
        · simp [halias]
        · by_cases ha : a = r.id
          · simp [halias, ha, Option.filter]
          · simp [halias, ha, Option.filter]
      rw [hcalled, hafter]
      by_cases hunnamed : called r.name block = r.id
      · rw [if_pos hunnamed] at ih ⊢
        rcases halias : aliasIn ev with _ | a
        · rw [applyState_kept hname (Or.inr halias), ih]
          simp
        · rcases hfound : aliasAfter r.id block with _ | found
          · -- the first alias counts
            rw [hfound] at ih
            have hr : (block.foldl applyState r).name = (block.foldl applyState r).id := ih.trans hid.symm
            rw [applyState_alias halias hr]
            by_cases ha : a = r.id
            · simp [ha, Option.filter]
            · simp [ha, Option.filter]
          · have hne : found ≠ r.id := by
              have hfind := List.find?_some hfound
              simpa using hfind
            rw [hfound] at ih
            have hr : (block.foldl applyState r).name ≠ (block.foldl applyState r).id := by
              rw [ih, hid]
              exact hne
            rw [applyState_kept hname (Or.inl hr), ih]
            rfl
      · rw [if_neg hunnamed] at ih ⊢
        have hr : (block.foldl applyState r).name ≠ (block.foldl applyState r).id := by
          rw [ih, hid]
          exact hunnamed
        rw [applyState_kept hname (Or.inl hr), ih]
    · have hcalled : called r.name (block ++ [ev]) = n := by
        simp [called, names, List.filterMap_append, hname]
      have hafter : aliasAfter r.id (block ++ [ev]) = none := by
        unfold aliasAfter
        rw [List.rtakeWhile_concat_neg _ _ _ (by simp [hname])]
        rfl
      rw [applyState_name hname, hcalled, hafter]
      split_ifs with h
      · exact h
      · rfl

/-- **The name after a batch**, by what decides it. -/
theorem nameAfter_eq (room stored : String) (jr : JoinedRoom) :
    nameAfter room stored jr =
      if called stored jr.state = room then fallback room jr else called stored jr.state := by
  have hblock := foldl_called { newRoom room with name := stored } jr.state
  have hid := @foldl_applyState_id { newRoom room with name := stored } jr.state
  have hroom : ({ newRoom room with name := stored } : Room).id = room := rfl
  rw [hroom] at hblock hid
  dsimp only at hblock
  unfold nameAfter applyHeroes fallback
  rw [hid, hblock]
  split_ifs with h₁ h₂
  · rcases hfound : aliasAfter room jr.state with _ | found
    · split
      · next n hn => simp [hn]
      · next hn =>
        rw [hblock]
        simp [hn, h₁, hfound]
    · have hne : found ≠ room := by
        have hfind := List.find?_some hfound
        simpa using hfind
      rw [hfound] at h₂
      exact absurd h₂ hne
  · rw [hblock, if_pos h₁]
    rcases hfound : aliasAfter room jr.state with _ | found
    · rw [hfound] at h₂
      exact absurd rfl h₂
    · rfl
  · rw [hblock, if_neg h₁]

/-! ### The latest name -/

/-- **The latest `m.room.name`** of the batches, state before timeline. -/
def latest (bs : List JoinedRoom) : Option String :=
  (names (bs.flatMap fun jr => jr.state ++ jr.timeline)).getLast?

theorem latest_append (bs : List JoinedRoom) (jr : JoinedRoom) :
    latest (bs ++ [jr]) =
      (names jr.timeline).getLast?.or ((names jr.state).getLast?.or (latest bs)) := by
  unfold latest names
  rw [List.flatMap_append, List.filterMap_append, List.getLast?_append, List.flatMap_singleton,
    List.filterMap_append, List.getLast?_append, Option.or_assoc]

/-- **The name is seen**: after a batch the room has a name, and it is the latest that was given. -/
def Seen (bs : List JoinedRoom) (name : Option String) : Prop :=
  bs ≠ [] → ∃ n, name = some n ∧ n ≠ "" ∧ ∀ m, latest bs = some m → n = m

/-- **The condition.** The last name in the timeline is what the room is called without it. Where a room is
called by its id, its alias or its heroes are not empty, and it has none if the id was given as its name. -/
structure Fits (room : String) (bs : List JoinedRoom) (stored : String) (jr : JoinedRoom) : Prop where
  timeline : ∀ m, (names jr.timeline).getLast? = some m →
    m = if called stored jr.state = room then fallback room jr else called stored jr.state
  unnamed : called stored jr.state = room → fallback room jr ≠ ""
  named : called stored jr.state = room → names jr.timeline = [] →
    ((names jr.state).getLast?.or (latest bs)).isSome → fallback room jr = room

theorem name_ne_empty {evs : List RoomEvent} {n : String} (h : (names evs).getLast? = some n) : n ≠ "" := by
  obtain ⟨ev, -, hev⟩ := List.mem_filterMap.mp (List.mem_of_getLast? h)
  unfold nameIn at hev
  split_ifs at hev
  simpa using (Option.filter_eq_some_iff.mp hev).2

/-- The name a room is called by its state is the latest, unless the timeline has one. -/
theorem called_eq {room m : String} {bs : List JoinedRoom} {name : Option String} {jr : JoinedRoom}
    (h : Seen bs name) (hm : ((names jr.state).getLast?.or (latest bs)) = some m) :
    called (name.getD room) jr.state = m := by
  unfold called
  rcases hlast : (names jr.state).getLast? with _ | n
  · rw [hlast, Option.none_or] at hm
    rcases bs with _ | ⟨b, bs⟩
    · simp [latest, names] at hm
    · obtain ⟨n, hn, -, heq⟩ := h (by simp)
      rw [hn]
      exact heq m hm
  · rw [hlast] at hm
    exact Option.some.inj hm

/-- A room that is not called by its id is not called by nothing. -/
theorem called_ne_empty {room : String} {bs : List JoinedRoom} {name : Option String} {jr : JoinedRoom}
    (h : Seen bs name) (hnew : bs = [] → name = none)
    (hid : ¬ called (name.getD room) jr.state = room) : called (name.getD room) jr.state ≠ "" := by
  unfold called at hid ⊢
  rcases hlast : (names jr.state).getLast? with _ | n
  · -- the stored name, which is not the id
    rcases bs with _ | ⟨b, bs⟩
    · exact absurd (by simp [hlast, hnew rfl]) hid
    · obtain ⟨n, hn, hne, -⟩ := h (by simp)
      rw [hn]
      exact hne
  · exact name_ne_empty hlast

/-- **A batch is seen if and only if it fits.** -/
theorem seen_append {room : String} {bs : List JoinedRoom} {name : Option String} {jr : JoinedRoom}
    (h : Seen bs name) (hnew : bs = [] → name = none) :
    Seen (bs ++ [jr]) (some (nameAfter room (name.getD room) jr)) ↔ Fits room bs (name.getD room) jr := by
  constructor
  · intro hseen
    obtain ⟨n, hn, hne, hlatest⟩ := hseen (by simp)
    obtain rfl := Option.some.inj hn
    rw [latest_append] at hlatest
    rw [nameAfter_eq] at hne hlatest
    refine ⟨fun m hm => ?_, fun hid => ?_, fun hid htimeline hgiven => ?_⟩
    · rw [hm] at hlatest
      exact (hlatest m rfl).symm
    · rwa [if_pos hid] at hne
    · obtain ⟨m, hm⟩ := Option.isSome_iff_exists.mp hgiven
      rw [htimeline, List.getLast?_nil, Option.none_or, hm, if_pos hid] at hlatest
      exact (hlatest m rfl).trans ((called_eq h hm).symm.trans hid)
  · refine fun hfits _ => ⟨_, rfl, ?_, fun m hm => ?_⟩
    · rw [nameAfter_eq]
      split_ifs with hid
      · exact hfits.unnamed hid
      · exact called_ne_empty h hnew hid
    · rw [nameAfter_eq]
      rw [latest_append] at hm
      rcases htimeline : (names jr.timeline).getLast? with _ | t
      · rw [htimeline, Option.none_or] at hm
        have hcalled := @called_eq room _ _ _ _ h hm
        split_ifs with hid
        · have hfallback := hfits.named hid (List.getLast?_eq_none_iff.mp htimeline) (by rw [hm]; rfl)
          exact hfallback.trans (hid.symm.trans hcalled)
        · exact hcalled
      · rw [htimeline] at hm
        rw [← Option.some.inj hm]
        exact (hfits.timeline t htimeline).symm

/-- **The watch**: sync rounds only. -/
def watch (room : String) : Watch where
  holds bs name := Seen bs name ∧ (bs = [] → name = none)
  takes bs name jr := Fits room bs (name.getD room) jr
  renames _ := True
  given _ _ := True
  sweeps := False

theorem preserved_watch (room us : String) : (watch room).Preserved room us where
  batch bs name jr hholds htakes := ⟨(seen_append hholds.1 hholds.2).mpr htakes, by simp⟩
  rename h := h.elim

/-- **Renames are seen, and names never vanish**, in every run of batches that fit. -/
theorem seen_of_lawful {S : CipherSuite} {serde : SerdeJson} {layer : Layer S} {login : Login}
    {room : String} {p : Pool (Shared S) Change Request Reply Role}
    {run : List (Event (Shared S) Change Request Reply Role Salts)} (hprocs : p.procs = [])
    (hbatches : batches room p.state.log = []) (hrow : nameOf p.state.db room = none)
    (hlawful : p.Lawful (rules serde layer login room (watch room)) Change.exec note run) :
    Seen (batches room (p.runs Change.exec note run).state.log)
      (nameOf (p.runs Change.exec note run).state.db room) := by
  refine (Watch.run (preserved_watch room login.us) hprocs ?_ hlawful).1
  rw [hbatches, hrow]
  exact ⟨fun h => absurd rfl h, fun _ => rfl⟩

/-! ### A room that gets its name, and one that is renamed -/

/-- The condition, evaluated. -/
def fits (room : String) (bs : List JoinedRoom) (stored : String) (jr : JoinedRoom) : Bool :=
  ((names jr.timeline).getLast?.all fun m =>
    m = if called stored jr.state = room then fallback room jr else called stored jr.state) &&
  (called stored jr.state ≠ room || (fallback room jr ≠ "" &&
    ((names jr.timeline) ≠ [] || ((names jr.state).getLast?.or (latest bs)).isNone ||
      fallback room jr = room)))

theorem fits_of_check {room stored : String} {bs : List JoinedRoom} {jr : JoinedRoom}
    (h : fits room bs stored jr = true) : Fits room bs stored jr := by
  simp only [fits, Bool.and_eq_true, Bool.or_eq_true, decide_eq_true_eq, Option.all_eq_true] at h
  obtain ⟨htimeline, hcases⟩ := h
  refine ⟨htimeline, fun hid => ?_, fun hid hnone hgiven => ?_⟩
  · rcases hcases with hne | ⟨hne, -⟩
    · exact absurd hid hne
    · exact hne
  · rcases hcases with hne | ⟨-, (hne | hnew) | heq⟩
    · exact absurd hid hne
    · exact absurd hnone hne
    · rw [Option.isNone_iff_eq_none] at hnew
      rw [hnew] at hgiven
      simp at hgiven
    · exact heq

def checks : Checks where
  takes bs name jr := fits "!r" bs (name.getD "!r") jr
  renames _ := true
  given _ _ := true

/-- A state event that names the room. -/
def naming (name : String) : RoomEvent :=
  { kind := "m.room.name", stateKey := some "", content := { name := some name } }

/-- The heroes come first, and the name in a state block. -/
theorem seen_named :
    Seen (batches "!r" (fresh.runs Change.exec note
        (syncRound GivenNames.unnamedRoom ++ syncRound { state := [naming "Team"] })).state.log)
      (nameOf (fresh.runs Change.exec note
        (syncRound GivenNames.unnamedRoom ++ syncRound { state := [naming "Team"] })).state.db "!r") := by
  refine @seen_of_lawful _ Backlog.noPlaintext Backlog.idleLayer ours "!r" fresh _ rfl rfl rfl
    (lawful_of_checks (C := checks) (fun _ _ _ h => fits_of_check h) (fun _ _ => trivial)
      (fun _ _ _ => trivial) (fun e he => ?_) ?_)
  · rcases List.mem_append.mp he with he | he
    · exact told_round _ _ e he
    · exact told_round _ _ e he
  · decide +kernel

/-- What happens in the runs here is no matter. -/
def anything (room : String) : Watch := { watch room with
  takes _ _ _ := True }

/-- **A rename is not seen**: it comes in the timeline of a room that is in sync. -/
theorem not_seen_timeline :
    ¬ ∀ run, fresh.Lawful (rules Backlog.noPlaintext Backlog.idleLayer ours "!r" (anything "!r"))
        Change.exec note run →
      Seen (batches "!r" (fresh.runs Change.exec note run).state.log)
        (nameOf (fresh.runs Change.exec note run).state.db "!r") := by
  intro h
  have hseen := h (syncRound { state := [naming "Old"] } ++ syncRound { timeline := [naming "New"] }) <|
    lawful_of_checks (C := ⟨fun _ _ _ => true, fun _ => true, fun _ _ => true⟩)
      (fun _ _ _ _ => trivial) (fun _ _ => trivial) (fun _ _ _ => trivial) (fun e he => by
        rcases List.mem_append.mp he with he | he
        · exact told_round _ _ e he
        · exact told_round _ _ e he) (by decide +kernel)
  obtain ⟨n, hn, -, hlatest⟩ := hseen (by decide +kernel)
  have hname : nameOf (fresh.runs Change.exec note
      (syncRound { state := [naming "Old"] } ++ syncRound { timeline := [naming "New"] })).state.db "!r" =
      some "Old" := by decide +kernel
  have heq := hlatest "New" (by decide +kernel)
  rw [hname, heq] at hn
  simp at hn

end Kmatrix.Daemon.Renames
