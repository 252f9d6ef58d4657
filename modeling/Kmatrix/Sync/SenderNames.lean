import Kmatrix.Lib.Window
import Kmatrix.Storage.Recent
import Kmatrix.Sync.Restore

/-! # Naming who is on the screen

Opening a room looks up eight of the senders in its newest messages whose names are not known. A sender
without a profile name stays unknown and is looked up again the next time, so senders without one may fill
the eight: `names_iff` says exactly when everybody on the screen who has a name gets it in the end. -/

namespace Kmatrix.Sync.SenderNames

open Kmatrix.Lib Kmatrix.Lib.Keyed Kmatrix.Storage.Seal Kmatrix.Storage.Schema Kmatrix.Storage.Write Kmatrix.Storage.Read
open Kmatrix.Storage.Plain Kmatrix.Sync.Restore
open Kmatrix.Storage.Recent (lookup_members)
open Kmatrix.Storage.RoundTrip (kept_eq_some_iff)

def senderLookups : ℕ := 8

/-- **What `profile_name` answers**: a name that is not empty, or none, also where the request fails. -/
structure Profiles where
  name : String → Option String
  nonempty : ∀ user, name user ≠ some ""

/-- One message: its sender is noted, if there is no name. -/
def noted (seen : List String) (m : Message) : List String :=
  if m.senderName.isNone && !seen.contains m.sender then seen ++ [m.sender] else seen

/-- The senders without a name, each once, in the order of their messages. -/
def unknownSenders (msgs : List Message) : List String := msgs.foldl noted []

section Visits
variable {S : CipherSuite} (profiles : Profiles) (room : String)

/-- What was found of the senders that were looked up, in key order. -/
def found (users : List String) : List (String × Option String) :=
  (users.filterMap fun user => (profiles.name user).map fun name => (user, some name)).insertionSort
    fun a b => a.1 ≤ b.1

/-- **`name_visible_senders`.** -/
def nameVisibleSenders (rng : Salts) (st : Store S) : Store S :=
  match recentMessages st room backupRestoreWindow with
  | .error _ => st
  | .ok msgs =>
    let found := found profiles ((unknownSenders msgs).take senderLookups)
    if found.isEmpty then st else rememberMembers st rng room found

/-- The store after the room was opened `k` times. -/
def visited (rngs : ℕ → Salts) (st : Store S) : ℕ → Store S
  | 0 => st
  | k + 1 => nameVisibleSenders profiles room (rngs k) (visited rngs st k)

/-- A sender without a profile name. -/
def silent (user : String) : Bool := (profiles.name user).isNone

/-- What looking `users` up makes of a message. -/
def filled (users : List String) (m : Message) : Message :=
  if m.senderName.isNone && users.contains m.sender then { m with senderName := profiles.name m.sender } else m

end Visits

/-! ### The senders -/

section Senders
variable {profiles : Profiles} {seen : List String} {m : Message}

theorem noted_new (hname : m.senderName = none) (hnew : m.sender ∉ seen) : noted seen m = seen ++ [m.sender] := by
  unfold noted
  rw [if_pos (by simp [hname, hnew])]

theorem noted_old (h : m.senderName ≠ none ∨ m.sender ∈ seen) : noted seen m = seen := by
  unfold noted
  refine if_neg fun hnew => ?_
  rw [Bool.and_eq_true, Option.isNone_iff_eq_none, Bool.not_eq_true', List.contains_eq_mem,
    decide_eq_false_iff_not] at hnew
  exact h.elim (fun h => h hnew.1) fun h => hnew.2 h

theorem mem_noted {u : String} : u ∈ noted seen m ↔ u ∈ seen ∨ m.senderName = none ∧ m.sender = u := by
  by_cases h : m.senderName ≠ none ∨ m.sender ∈ seen
  · rw [noted_old h]
    refine ⟨Or.inl, fun hu => hu.elim id fun hu => ?_⟩
    exact h.elim (fun h => absurd hu.1 h) fun h => hu.2 ▸ h
  · rw [not_or, not_not] at h
    rw [noted_new h.1 h.2, List.mem_append, List.mem_singleton]
    refine or_congr_right ⟨fun hu => ⟨h.1, hu.symm⟩, fun hu => hu.2.symm⟩

theorem mem_foldl_noted {u : String} (msgs : List Message) :
    u ∈ msgs.foldl noted seen ↔ u ∈ seen ∨ ∃ m ∈ msgs, m.senderName = none ∧ m.sender = u := by
  induction msgs generalizing seen with
  | nil => simp
  | cons m msgs ih =>
    rw [List.foldl_cons, ih, mem_noted, List.exists_mem_cons_iff, or_assoc]

theorem nodup_foldl_noted (msgs : List Message) (h : seen.Nodup) : (msgs.foldl noted seen).Nodup := by
  induction msgs generalizing seen with
  | nil => exact h
  | cons m msgs ih =>
    refine ih ?_
    by_cases hold : m.senderName ≠ none ∨ m.sender ∈ seen
    · rw [noted_old hold]
      exact h
    · rw [not_or, not_not] at hold
      rw [noted_new hold.1 hold.2]
      refine List.Nodup.append h (List.nodup_singleton _) ?_
      simpa using hold.2

/-- Looking `users` up leaves this sender unknown. -/
def leaves (profiles : Profiles) (users : List String) (u : String) : Bool :=
  !(users.contains u && !silent profiles u)

theorem filled_sender (users : List String) (m : Message) : (filled profiles users m).sender = m.sender := by
  unfold filled
  split_ifs <;> rfl

theorem filled_name (users : List String) (m : Message) :
    (filled profiles users m).senderName = none ↔ m.senderName = none ∧ leaves profiles users m.sender = true := by
  unfold filled leaves silent
  rcases hname : m.senderName with _ | name
  · rcases profiles.name m.sender with _ | name <;> by_cases hin : m.sender ∈ users <;> simp [hname, hin]
  · simp [hname]

theorem filled_leaves (users : List String) (h : leaves profiles users m.sender = true) :
    filled profiles users m = m := by
  unfold filled
  split_ifs with hfill
  · rw [Bool.and_eq_true, Option.isNone_iff_eq_none] at hfill
    have hin : m.sender ∈ users := by simpa using hfill.2
    have hsilent : profiles.name m.sender = none := by
      simpa [leaves, silent, hin] using h
    rw [hsilent, ← hfill.1]
  · rfl

/-- One message, with the names that were found. -/
theorem noted_filled (users : List String) (m : Message) :
    noted (seen.filter (leaves profiles users)) (filled profiles users m) =
      (noted seen m).filter (leaves profiles users) := by
  by_cases hname : m.senderName = none
  · rcases hleaves : leaves profiles users m.sender with _ | _
    · have hfilled : (filled profiles users m).senderName ≠ none := by
        rw [Ne, filled_name, hleaves]
        simp
      rw [noted_old (Or.inl hfilled)]
      by_cases hin : m.sender ∈ seen
      · rw [noted_old (Or.inr hin)]
      · rw [noted_new hname hin, List.filter_append]
        simp [hleaves]
    · have hfilled : (filled profiles users m).senderName = none := (filled_name users m).mpr ⟨hname, hleaves⟩
      by_cases hin : m.sender ∈ seen
      · rw [noted_old (Or.inr hin), noted_old (Or.inr ?_)]
        rw [filled_sender]
        exact List.mem_filter.mpr ⟨hin, hleaves⟩
      · rw [noted_new hname hin, noted_new hfilled ?_, filled_sender, List.filter_append]
        · simp [hleaves]
        · rw [filled_sender]
          exact fun h => hin (List.mem_of_mem_filter h)
  · have hfilled : (filled profiles users m).senderName ≠ none := fun h => hname ((filled_name users m).mp h).1
    rw [noted_old (Or.inl hname), noted_old (Or.inl hfilled)]

/-- **Filling names in takes their senders out.** -/
theorem unknown_filled (users : List String) (msgs : List Message) :
    unknownSenders (msgs.map (filled profiles users)) = (unknownSenders msgs).filter (leaves profiles users) := by
  have hfold : ∀ (msgs : List Message) (seen : List String),
      (msgs.map (filled profiles users)).foldl noted (seen.filter (leaves profiles users)) =
        (msgs.foldl noted seen).filter (leaves profiles users) := by
    intro msgs
    induction msgs with
    | nil => exact fun _ => rfl
    | cons m msgs ih =>
      intro seen
      rw [List.map_cons, List.foldl_cons, List.foldl_cons, noted_filled, ih]
  exact hfold msgs []

/-- **One visit is one round.** -/
theorem unknown_round (msgs : List Message) :
    unknownSenders (msgs.map (filled profiles ((unknownSenders msgs).take senderLookups))) =
      Window.round senderLookups (silent profiles) (unknownSenders msgs) := by
  rw [unknown_filled]
  have hnodup : (unknownSenders msgs).Nodup := nodup_foldl_noted msgs List.nodup_nil
  unfold Window.round
  generalize unknownSenders msgs = xs at hnodup ⊢
  conv_lhs => rw [← List.take_append_drop senderLookups xs]
  rw [List.filter_append]
  rw [← List.take_append_drop senderLookups xs, List.nodup_append] at hnodup
  congr 1
  · refine List.filter_congr fun u hu => ?_
    rw [List.take_append_drop]
    simp [leaves, hu]
  · refine List.filter_eq_self.mpr fun u hu => ?_
    rw [List.take_append_drop]
    have hnot : u ∉ xs.take senderLookups := fun h => hnodup.2.2 u h u hu rfl
    simp [leaves, hnot]

end Senders

/-! ### The store -/

section Store
variable {S : CipherSuite} {profiles : Profiles} {room : String} {limit : ℕ} {st : Store S}
  {msgs : List Message} {users : List String}

/-- The readings of a list, one by one. -/
theorem mapM_ok {α β ε : Type} {f : α → Except ε β} : ∀ {l : List α} {bs : List β},
    l.mapM f = .ok bs ↔ List.Forall₂ (fun a b => f a = .ok b) l bs
  | [], bs => by
    rw [List.mapM_nil, List.forall₂_nil_left_iff]
    exact ⟨fun h => (Except.ok.inj h).symm, fun h => h ▸ rfl⟩
  | a :: l, bs => by
    rw [List.mapM_cons, List.forall₂_cons_left_iff]
    constructor
    · intro h
      rcases hf : f a with e | b
      · rw [hf] at h
        cases h
      rcases hl : l.mapM f with e | bs'
      · rw [hf, hl] at h
        cases h
      rw [hf, hl] at h
      exact ⟨b, bs', rfl, mapM_ok.mp hl, (Except.ok.inj h).symm⟩
    · rintro ⟨b, bs', hb, hbs, rfl⟩
      rw [hb, mapM_ok.mpr hbs]
      rfl

theorem exists_of_forall₂ {α β : Type} {R : α → β → Prop} {l : List α} {bs : List β} (h : List.Forall₂ R l bs)
    {b : β} (hb : b ∈ bs) : ∃ a ∈ l, R a b := by
  induction h with
  | nil => cases hb
  | cons hR _ ih =>
    rcases List.mem_cons.mp hb with rfl | hb
    · exact ⟨_, List.mem_cons_self, hR⟩
    · obtain ⟨a, ha, hR⟩ := ih hb
      exact ⟨a, List.mem_cons_of_mem _ ha, hR⟩

/-- **The messages of a room are its rows.** -/
theorem recentMessages_ok : recentMessages st room limit = .ok msgs ↔
    List.Forall₂ (fun row m => readMessage st row = .ok m) (newest st.db (inRoom room) limit) msgs.reverse := by
  rw [← mapM_ok]
  unfold recentMessages
  constructor
  · intro h
    rcases hrows : (newest st.db (inRoom room) limit).mapM (readMessage st) with e | out
    · rw [hrows] at h
      cases h
    · rw [hrows] at h
      rw [← Except.ok.inj h, List.reverse_reverse]
  · intro h
    rw [h]
    exact congrArg Except.ok (List.reverse_reverse msgs)

/-- A row is read by its cells, and by the name of its sender. -/
structure Reads (st : Store S) (row : String × MessageRow String) (m : Message) : Prop where
  body : st.reveal "message.body" row.2.body = .ok m.body
  name : st.revealOpt "member.name" (st.db.members.lookup (row.2.room, row.2.sender)) = .ok m.senderName
  ciphertext : st.revealOpt "message.ciphertext" row.2.ciphertext = .ok m.ciphertext
  rest : m = ⟨row.1, row.2.room, row.2.sender, asU64 row.2.ts, m.senderName, m.body, row.2.encrypted ≠ 0,
    row.2.decrypted ≠ 0, row.2.mine ≠ 0, row.2.sessionId, m.ciphertext⟩

theorem readMessage_ok {row : String × MessageRow String} {m : Message} :
    readMessage st row = .ok m ↔ Reads st row m := by
  constructor
  · intro h
    unfold readMessage at h
    dsimp only at h
    rcases hbody : st.reveal "message.body" row.2.body with e | body
    · rw [hbody] at h
      cases h
    rcases hname : st.revealOpt "member.name" (st.db.members.lookup (row.2.room, row.2.sender)) with e | name
    · rw [hbody, hname] at h
      cases h
    rcases hciphertext : st.revealOpt "message.ciphertext" row.2.ciphertext with e | ciphertext
    · rw [hbody, hname, hciphertext] at h
      cases h
    rw [hbody, hname, hciphertext] at h
    cases h
    exact ⟨hbody, hname, hciphertext, rfl⟩
  · rintro ⟨hbody, hname, hciphertext, hrest⟩
    unfold readMessage
    dsimp only
    rw [hbody, hname, hciphertext, hrest]
    rfl

/-- The name a message has is that of its sender. -/
theorem name_of_recent (h : recentMessages st room limit = .ok msgs) {m : Message} (hm : m ∈ msgs) :
    st.revealOpt "member.name" (st.db.members.lookup (room, m.sender)) = .ok m.senderName := by
  obtain ⟨row, hrow, hread⟩ := exists_of_forall₂ (recentMessages_ok.mp h) (List.mem_reverse.mpr hm)
  have hreads := readMessage_ok.mp hread
  have hroom : row.2.room = room := by simpa [inRoom] using (of_mem_newest hrow).2
  have hsender : m.sender = row.2.sender := by rw [hreads.rest]
  rw [hsender, ← hroom]
  exact hreads.name

theorem mem_named {u name : String} :
    (u, name) ∈ named (found profiles users) ↔ u ∈ users ∧ profiles.name u = some name := by
  have hfound : ∀ x : String × Option String, x ∈ found profiles users ↔
      ∃ user ∈ users, ∃ name, profiles.name user = some name ∧ (user, some name) = x := by
    intro x
    unfold found
    rw [List.mem_insertionSort, List.mem_filterMap]
    simp only [Option.map_eq_some_iff]
  unfold named
  rw [List.mem_filterMap]
  constructor
  · rintro ⟨x, hx, hname⟩
    obtain ⟨user, huser, name', hname', rfl⟩ := (hfound x).mp hx
    dsimp only at hname
    split_ifs at hname
    cases hname
    exact ⟨huser, hname'⟩
  · rintro ⟨huser, hname⟩
    refine ⟨(u, some name), (hfound _).mpr ⟨u, huser, name, hname, rfl⟩, ?_⟩
    dsimp only
    rw [if_neg]
    rintro rfl
    exact profiles.nonempty u hname

/-- **The names after they were stored**: those that were found are new. -/
theorem lookup_found (rng : Salts) (u : String) :
    (u ∈ users ∧ ∃ salt name, profiles.name u = some name ∧
      (rememberMembers st rng room (found profiles users)).db.members.lookup (room, u) =
        some (st.protect salt name)) ∨
    (leaves profiles users u = true ∧
      (rememberMembers st rng room (found profiles users)).db.members.lookup (room, u) =
        st.db.members.lookup (room, u)) := by
  have hlookup : (rememberMembers st rng room (found profiles users)).db.members.lookup (room, u) =
      ((((named (found profiles users)).mapIdx fun i p => (p.1, st.protect (rng i) p.2)).filter
        fun p => p.1 = u).map Prod.snd).getLast?.or (st.db.members.lookup (room, u)) := by
    have h := lookup_members room u ((named (found profiles users)).mapIdx fun i p => (p.1, st.protect (rng i) p.2))
      st.db.members room
    rw [if_pos rfl] at h
    exact h
  rcases hlast : ((((named (found profiles users)).mapIdx fun i p => (p.1, st.protect (rng i) p.2)).filter
      fun p => p.1 = u).map Prod.snd).getLast? with _ | cell
  · refine Or.inr ⟨?_, by rw [hlookup, hlast, Option.none_or]⟩
    -- it was not found, so it is silent or was not looked up
    have hnone := List.getLast?_eq_none_iff.mp hlast
    unfold leaves silent
    rw [Bool.not_eq_true', ← Bool.not_eq_true, Bool.and_eq_true, not_and]
    intro huser hname
    obtain ⟨name, hname⟩ := Option.isSome_iff_exists.mp (by simpa using hname)
    obtain ⟨i, hi, hget⟩ := List.getElem_of_mem (mem_named.mpr ⟨by simpa using huser, hname⟩)
    have hmem : (u, st.protect (rng i) name) ∈
        (named (found profiles users)).mapIdx fun i p => (p.1, st.protect (rng i) p.2) :=
      List.mem_mapIdx.mpr ⟨i, hi, by rw [hget]⟩
    have hin := List.mem_map_of_mem (f := Prod.snd) (List.mem_filter.mpr ⟨hmem, by simp⟩ :
      (u, st.protect (rng i) name) ∈ List.filter (fun p => decide (p.1 = u)) _)
    rw [hnone] at hin
    cases hin
  · obtain ⟨p, hp, rfl⟩ := List.mem_map.mp (List.mem_of_getLast? hlast)
    obtain ⟨hp, hu⟩ := List.mem_filter.mp hp
    obtain ⟨i, hi, rfl⟩ := List.mem_mapIdx.mp hp
    have hu : ((named (found profiles users))[i]).1 = u := by simpa using hu
    have hmem : (u, ((named (found profiles users))[i]).2) ∈ named (found profiles users) := by
      rw [← hu]
      exact List.getElem_mem hi
    obtain ⟨huser, hname⟩ := mem_named.mp hmem
    exact Or.inl ⟨huser, rng i, _, hname, by rw [hlookup, hlast, Option.some_or]⟩

/-- **One visit**: the messages read as before, with the names that were found. -/
theorem recent_named (h : recentMessages st room limit = .ok msgs)
    (hkept : ∀ u name, profiles.name u = some name → kept st name = some name)
    (husers : ∀ u ∈ users, u ∈ unknownSenders msgs) (rng : Salts) :
    recentMessages (rememberMembers st rng room (found profiles users)) room limit =
      .ok (msgs.map (filled profiles users)) := by
  rw [recentMessages_ok, ← List.map_reverse, List.forall₂_map_right_iff]
  have hrows := (List.forall₂_and_left _ _).mpr ⟨fun row hrow => (of_mem_newest hrow).2, recentMessages_ok.mp h⟩
  refine hrows.imp fun row m ⟨hroom, hread⟩ => ?_
  have hroom : row.2.room = room := by simpa [inRoom] using hroom
  obtain ⟨hbody, hname, hciphertext, hrest⟩ := readMessage_ok.mp hread
  have hsender : m.sender = row.2.sender := by rw [hrest]
  rw [hroom] at hname
  rw [readMessage_ok]
  have hfound := @lookup_found S profiles room st users rng row.2.sender
  rcases hfound with ⟨huser, salt, name, hprofile, hlookup⟩ | ⟨hleaves, hlookup⟩
  · -- all messages of the sender are without a name
    have hnone : m.senderName = none := by
      obtain ⟨m', hm', hnone, hsame⟩ := (mem_foldl_noted msgs).mp (husers _ huser) |>.resolve_left (by simp)
      have hname' := name_of_recent h hm'
      rw [hsame, hname, hnone] at hname'
      exact Except.ok.inj hname'
    have hfilled : filled profiles users m = { m with senderName := some name } := by
      unfold filled
      rw [if_pos (by simp [hnone, hsender, huser]), hsender, hprofile]
    rw [hfilled]
    refine ⟨hbody, ?_, hciphertext, ?_⟩
    · rw [hroom, hlookup]
      have hreveal : st.reveal "member.name" (st.protect salt name) = .ok name := by
        rw [reveal_ok, look_protect]
        exact hkept _ _ hprofile
      exact congrArg (Except.map some) hreveal
    · rw [hrest]
  · rw [filled_leaves users (by rw [hsender]; exact hleaves)]
    refine ⟨hbody, ?_, hciphertext, hrest⟩
    rw [hroom, hlookup]
    exact hname

end Store

/-! ### Many visits -/

section Visits
variable {S : CipherSuite} {profiles : Profiles} {room : String} {st : Store S} {msgs msgs' : List Message}

/-- **A message with its name**: as it was, or with the profile name of its sender where it had none. -/
def Given (profiles : Profiles) (m m' : Message) : Prop :=
  m' = m ∨ m.senderName = none ∧ profiles.name m.sender ≠ none ∧
    m' = { m with senderName := profiles.name m.sender }

theorem given_filled (users : List String) (m : Message) : Given profiles m (filled profiles users m) := by
  rcases hleaves : leaves profiles users m.sender with _ | _
  · by_cases hname : m.senderName = none
    · have hin : m.sender ∈ users ∧ profiles.name m.sender ≠ none := by
        simpa [leaves, silent, Option.isSome_iff_ne_none] using hleaves
      refine Or.inr ⟨hname, hin.2, ?_⟩
      unfold filled
      rw [if_pos (by simp [hname, hin.1])]
    · refine Or.inl ?_
      unfold filled
      rw [if_neg (by simp [hname])]
  · exact Or.inl (filled_leaves users hleaves)

theorem Given.trans {a b c : Message} (hab : Given profiles a b) (hbc : Given profiles b c) : Given profiles a c := by
  rcases hab with rfl | ⟨hname, hprofile, rfl⟩
  · exact hbc
  · rcases hbc with rfl | ⟨hnone, -, -⟩
    · exact Or.inr ⟨hname, hprofile, rfl⟩
    · exact absurd hnone hprofile

theorem key_nameVisibleSenders (rng : Salts) : (nameVisibleSenders profiles room rng st).key = st.key := by
  unfold nameVisibleSenders
  rcases recentMessages st room backupRestoreWindow with e | msgs
  · rfl
  · dsimp only
    split_ifs <;> rfl

/-- **What a visit leaves.** -/
theorem recent_visit (h : recentMessages st room backupRestoreWindow = .ok msgs)
    (hkept : ∀ u name, profiles.name u = some name → kept st name = some name) (rng : Salts) :
    recentMessages (nameVisibleSenders profiles room rng st) room backupRestoreWindow =
      .ok (msgs.map (filled profiles ((unknownSenders msgs).take senderLookups))) := by
  unfold nameVisibleSenders
  rw [h]
  dsimp only
  split_ifs with hempty
  · -- nobody was found
    rw [h]
    have hsame : msgs.map (filled profiles ((unknownSenders msgs).take senderLookups)) = msgs := by
      refine List.map_congr_left (fun m _ => filled_leaves _ ?_) |>.trans (List.map_id msgs)
      unfold leaves silent
      rw [Bool.not_eq_true', ← Bool.not_eq_true, Bool.and_eq_true, not_and]
      intro hin hname
      obtain ⟨name, hname⟩ := Option.isSome_iff_exists.mp (by simpa using hname)
      have hmem := mem_named.mpr ⟨by simpa using hin, hname⟩
      rw [List.isEmpty_iff.mp hempty] at hmem
      cases hmem
    rw [hsame]
  · exact recent_named h hkept (fun u hu => List.mem_of_mem_take hu) rng

/-- **Visit after visit** the senders that are looked up are those of the rounds. -/
theorem recent_visited (h : recentMessages st room backupRestoreWindow = .ok msgs)
    (hkept : ∀ u name, profiles.name u = some name → kept st name = some name) (rngs : ℕ → Salts) (k : ℕ) :
    ∃ msgs', recentMessages (visited profiles room rngs st k) room backupRestoreWindow = .ok msgs' ∧
      List.Forall₂ (Given profiles) msgs msgs' ∧
      unknownSenders msgs' = (Window.round senderLookups (silent profiles))^[k] (unknownSenders msgs) ∧
      (visited profiles room rngs st k).key = st.key := by
  induction k with
  | zero => exact ⟨msgs, h, List.forall₂_same.mpr fun m _ => Or.inl rfl, rfl, rfl⟩
  | succ k ih =>
    obtain ⟨msgs', hread, hgiven, hunknown, hkey⟩ := ih
    have hkept' : ∀ u name, profiles.name u = some name →
        kept (visited profiles room rngs st k) name = some name := by
      intro u name hname
      unfold kept
      rw [hkey]
      exact hkept u name hname
    refine ⟨_, recent_visit hread hkept' (rngs k), ?_, ?_, (key_nameVisibleSenders (rngs k)).trans hkey⟩
    · rw [List.forall₂_map_right_iff]
      exact hgiven.imp fun m m' hm => hm.trans (given_filled _ m')
    · rw [unknown_round, hunknown, Function.iterate_succ_apply']

/-- **Everybody on the screen gets their name**, visit after visit, exactly when fewer than eight senders
who have none stand before each of the others; and nothing but names changes. In a store without a key no
name may begin with `k1:`. -/
theorem names_iff (h : recentMessages st room backupRestoreWindow = .ok msgs)
    (hnames : st.key ≠ none ∨ ∀ u name, profiles.name u = some name → startsWith name encPrefix = false)
    (rngs : ℕ → Salts) :
    (∀ k, ∃ msgs', recentMessages (visited profiles room rngs st k) room backupRestoreWindow = .ok msgs' ∧
      List.Forall₂ (Given profiles) msgs msgs') ∧
    ((∃ k, ∀ j, k ≤ j → ∀ msgs', recentMessages (visited profiles room rngs st j) room backupRestoreWindow = .ok msgs' →
        ∀ m ∈ msgs', m.senderName = none → profiles.name m.sender = none) ↔
      Window.Reachable senderLookups (silent profiles) (unknownSenders msgs)) := by
  have hkept : ∀ u name, profiles.name u = some name → kept st name = some name := fun u name hname =>
    kept_eq_some_iff.mpr (hnames.imp_right fun hclear => hclear u name hname)
  refine ⟨fun k => ?_, Iff.trans ?_ Window.settles_iff⟩
  · obtain ⟨msgs', hread, hgiven, -, -⟩ := recent_visited h hkept rngs k
    exact ⟨msgs', hread, hgiven⟩
  have hunknown : ∀ {msgs : List Message} {u : String},
      u ∈ unknownSenders msgs ↔ ∃ m ∈ msgs, m.senderName = none ∧ m.sender = u := by
    intro msgs u
    unfold unknownSenders
    rw [mem_foldl_noted]
    simp
  constructor
  · rintro ⟨k, hk⟩
    obtain ⟨msgs', hread, -, hrounds, -⟩ := recent_visited h hkept rngs k
    refine ⟨k, fun u hu => ?_⟩
    rw [← hrounds, hunknown] at hu
    obtain ⟨m, hm, hname, rfl⟩ := hu
    exact Option.isNone_iff_eq_none.mpr (hk k le_rfl msgs' hread m hm hname)
  · rintro ⟨k, hk⟩
    refine ⟨k, fun j hj msgs' hread m hm hname => ?_⟩
    obtain ⟨msgs'', hread', -, hrounds, -⟩ := recent_visited h hkept rngs j
    rw [hread] at hread'
    cases hread'
    have hmem : m.sender ∈ (Window.round senderLookups (silent profiles))^[j] (unknownSenders msgs) := by
      rw [← hrounds, hunknown]
      exact ⟨m, hm, hname, rfl⟩
    exact Option.isNone_iff_eq_none.mp (Window.settled hj hk _ hmem)

/-- Who wrote in the room, oldest message first. -/
def writers : List (String × String) :=
  [("$0", "@quiet:x"), ("$1", "@ann:x"), ("$2", "@mute:x"), ("$3", "@ben:x"), ("$4", "@cat:x"),
    ("$5", "@dan:x"), ("$6", "@eve:x"), ("$7", "@fay:x"), ("$8", "@gus:x"), ("$9", "@hal:x"),
    ("$10", "@ann:x")]

/-- Their messages, stored before anybody was asked for a name. -/
def nameless : Store copySuite :=
  execAll ⟨Tables.empty, none⟩ (writers.mapIdx fun i w =>
    (.insertMessage ⟨w.1, "!r", w.2, i, none, "hi", false, true, false, none, none⟩, fun _ => zeroSalt))

/-- Who has a profile name: all but the first and the third. -/
def theirNames : List (String × String) :=
  [("@ann:x", "Ann"), ("@ben:x", "Ben"), ("@cat:x", "Cat"), ("@dan:x", "Dan"), ("@eve:x", "Eve"),
    ("@fay:x", "Fay"), ("@gus:x", "Gus"), ("@hal:x", "Hal")]

theorem mem_theirNames {user name : String} (h : theirNames.lookup user = some name) :
    (user, name) ∈ theirNames := by
  obtain ⟨before, after, hnames, -⟩ := List.lookup_eq_some_iff.mp h
  rw [hnames]
  exact List.mem_append_right _ List.mem_cons_self

def eightNames : Profiles where
  name user := theirNames.lookup user
  nonempty user hname := by
    have hsome : ∀ p ∈ theirNames, p.2 ≠ "" := by decide
    exact hsome _ (mem_theirNames hname) rfl

theorem names_iff_eight : ∃ k, ∀ j, k ≤ j → ∀ msgs',
    recentMessages (visited eightNames "!r" (fun _ _ => zeroSalt) nameless j) "!r" backupRestoreWindow = .ok msgs' →
      ∀ m ∈ msgs', m.senderName = none → eightNames.name m.sender = none := by
  have h : recentMessages nameless "!r" backupRestoreWindow =
      .ok (writers.mapIdx fun i w => ⟨w.1, "!r", w.2, i, none, "hi", false, true, false, none, none⟩) := by
    decide +kernel
  -- the first visit names six of the ten, the second the other two who have a name
  refine (names_iff h (Or.inr fun u name hname => ?_) fun _ _ => zeroSalt).2.mpr
    (Window.settles_iff.mp ⟨2, by decide +kernel⟩)
  have hclear : ∀ p ∈ theirNames, startsWith p.2 encPrefix = false := by decide
  exact hclear _ (mem_theirNames hname)

end Visits

end Kmatrix.Sync.SenderNames
