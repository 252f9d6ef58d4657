import Kmatrix.Daemon.Names

/-! # Given names

A room is called what its state says: its `m.room.name`, or else its canonical alias. Only a room without
either is named after its heroes, its members, or whom the chat is with. The daemon tells the two apart by
comparing the stored name with the room's id, and the sweep by asking for the `m.room.name`.

So a name that is not the id wins for good. An alias does not: a room that was named after its heroes does
not take it, and the sweep, which does not ask for it, names the room after its members. -/

namespace Kmatrix.Daemon.GivenNames

open Kmatrix.Lib.Threads Kmatrix.Daemon.Procs Kmatrix.Daemon.Naming Kmatrix.Daemon.Names
open Kmatrix.Storage Kmatrix.Storage.Seal Kmatrix.Storage.Schema
open Kmatrix.Sync Kmatrix.Sync.Plaintext Kmatrix.Sync.Events Kmatrix.Sync.Process

/-! ### What the state blocks say -/

/-- The room's `m.room.name` and its canonical alias. -/
structure Given where
  name : Option String
  canonicalAlias : Option String

/-- The name in the event, if it is one that gives a name. -/
def nameIn (ev : RoomEvent) : Option String :=
  if ev.kind = "m.room.name" then ev.content.name.filter fun n => n ≠ "" else none

/-- The alias in the event, which may be empty. -/
def aliasIn (ev : RoomEvent) : Option String :=
  if ev.kind = "m.room.canonical_alias" then ev.content.canonicalAlias else none

/-- A state event replaces the one before it; an empty text takes the name or the alias away. -/
def Given.event (g : Given) (ev : RoomEvent) : Given :=
  if ev.kind = "m.room.name" then { g with name := nameIn ev }
  else if ev.kind = "m.room.canonical_alias" then
    { g with canonicalAlias := (aliasIn ev).filter fun a => a ≠ "" }
  else g

/-- **What was given** in the state blocks of the batches. -/
def given (bs : List JoinedRoom) : Given :=
  bs.foldl (fun g jr => jr.state.foldl Given.event g) ⟨none, none⟩

/-- **What the room is called**: its name, or if there is none its alias. -/
def Given.wanted (g : Given) : Option String := g.name.or g.canonicalAlias

theorem given_append (bs : List JoinedRoom) (jr : JoinedRoom) :
    given (bs ++ [jr]) = jr.state.foldl Given.event (given bs) := by
  unfold given
  rw [List.foldl_append]
  rfl

/-! ### What the daemon makes of a state block -/

section Block
variable {r : Room} {ev : RoomEvent}

theorem applyState_name {n : String} (h : nameIn ev = some n) : (applyState r ev).name = n := by
  unfold nameIn at h
  split_ifs at h with hkind
  obtain ⟨hn, hne⟩ := Option.filter_eq_some_iff.mp h
  have hne' : n ≠ "" := by simpa using hne
  unfold applyState
  rw [if_pos hkind, hn]
  dsimp only
  rw [if_neg hne']

theorem applyState_alias {a : String} (h : aliasIn ev = some a) (hr : r.name = r.id) :
    (applyState r ev).name = a := by
  unfold aliasIn at h
  split_ifs at h with hkind
  unfold applyState
  rw [if_neg (by rw [hkind]; decide), if_pos hkind, if_pos hr, h]

/-- What gives no name, and no alias to a room without one, leaves the name as it is. -/
theorem applyState_kept (hname : nameIn ev = none) (halias : r.name ≠ r.id ∨ aliasIn ev = none) :
    (applyState r ev).name = r.name := by
  unfold nameIn at hname
  unfold aliasIn at halias
  unfold applyState
  split_ifs with h₁ h₂ h₃ h₄
  · rw [if_pos h₁] at hname
    split
    · next n hn =>
      have hempty : n = "" := by simpa [hn, Option.filter] using hname
      rw [if_pos hempty]
    · rfl
  · rw [if_pos h₂] at halias
    rcases halias with hne | hnone
    · exact absurd h₃ hne
    · rw [hnone]
  · rfl
  · rfl
  · rfl

theorem foldl_applyState_id (evs : List RoomEvent) : (evs.foldl applyState r).id = r.id :=
  (Sync.Replay.foldl_applyState evs r).2.1

/-- **A name that is not the id is the name after the block.** -/
theorem foldl_named (g : Given) {n : String} (hne : n ≠ r.id) (hbase : g.name = some n → r.name = n)
    (evs : List RoomEvent) (h : (evs.foldl Given.event g).name = some n) :
    (evs.foldl applyState r).name = n := by
  induction evs using List.reverseRecOn with
  | nil => exact hbase h
  | append_singleton evs ev ih =>
    rw [List.foldl_append, List.foldl_cons, List.foldl_nil] at h ⊢
    unfold Given.event at h
    split_ifs at h with h₁ h₂
    · exact applyState_name h
    · have hname := ih h
      have hid : (evs.foldl applyState r).name ≠ (evs.foldl applyState r).id := by
        rw [hname, foldl_applyState_id]
        exact hne
      exact (applyState_kept (by simp [nameIn, h₁]) (Or.inl hid)).trans hname
    · have hname := ih h
      exact (applyState_kept (by simp [nameIn, h₁]) (Or.inr (by simp [aliasIn, h₂]))).trans hname

/-- A room that is named keeps its name where none is given. -/
theorem foldl_kept (hne : r.name ≠ r.id) {evs : List RoomEvent} (h : ∀ ev ∈ evs, nameIn ev = none) :
    (evs.foldl applyState r).name = r.name := by
  induction evs generalizing r with
  | nil => rfl
  | cons ev evs ih =>
    obtain ⟨hev, hevs⟩ := List.forall_mem_cons.mp h
    have hname := applyState_kept hev (Or.inl hne)
    have hid : (applyState r ev).id = r.id := @foldl_applyState_id r [ev]
    exact (ih (by rw [hname, hid]; exact hne) hevs).trans hname

/-- A room that is called by its id takes the first alias. -/
theorem foldl_alias (hr : r.name = r.id) {a : String} (ha : a ≠ r.id) {evs : List RoomEvent}
    (h : ∀ ev ∈ evs, nameIn ev = none) (hfirst : (evs.filterMap aliasIn).head? = some a) :
    (evs.foldl applyState r).name = a := by
  induction evs generalizing r with
  | nil => simp at hfirst
  | cons ev evs ih =>
    obtain ⟨hev, hevs⟩ := List.forall_mem_cons.mp h
    have hid : (applyState r ev).id = r.id := @foldl_applyState_id r [ev]
    rw [List.filterMap_cons] at hfirst
    rcases halias : aliasIn ev with _ | a'
    · rw [halias] at hfirst
      have hname : (applyState r ev).name = r.name := applyState_kept hev (Or.inr halias)
      exact ih (by rw [hname, hid]; exact hr) (by rw [hid]; exact ha) hevs hfirst
    · rw [halias] at hfirst
      obtain rfl : a' = a := by simpa using hfirst
      have hname := applyState_alias halias hr
      exact (foldl_kept (by rw [hname, hid]; exact ha) hevs).trans hname

end Block

/-! ### The condition -/

/-- **The batch is taken as it is meant**: a name that is given is not the room's id. Where only an alias
is, the block names the room nowhere, and either it is called so already, or it is called by its id and the
first alias of the block is the one. -/
def adopts (room : String) (g : Given) (stored : String) (block : List RoomEvent) : Bool :=
  match block.foldl Given.event g with
  | ⟨some n, _⟩ => n ≠ room
  | ⟨none, some a⟩ => a ≠ room && block.all (fun ev => (nameIn ev).isNone) &&
      (stored = a || (stored = room && (block.filterMap aliasIn).head? = some a))
  | ⟨none, none⟩ => true

/-- **The name after a batch that is taken** is what the room is called. -/
theorem nameAfter_adopts {room stored n : String} {g : Given} {jr : JoinedRoom}
    (hadopts : adopts room g stored jr.state = true) (hstored : ∀ n, g.wanted = some n → stored = n)
    (h : (jr.state.foldl Given.event g).wanted = some n) : nameAfter room stored jr = n := by
  have hheroes : ∀ r : Room, r.name = n → n ≠ r.id → (applyHeroes jr r).name = n := by
    intro r hr hne
    unfold applyHeroes
    rw [if_neg (by rw [hr]; exact hne)]
    exact hr
  unfold adopts at hadopts
  rcases hg : jr.state.foldl Given.event g with ⟨_ | m, _ | a⟩
  · rw [hg] at h
    simp [Given.wanted] at h
  · -- only an alias was given
    rw [hg] at h hadopts
    obtain rfl : a = n := by simpa [Given.wanted] using h
    simp only [Bool.and_eq_true, Bool.or_eq_true, decide_eq_true_eq, List.all_eq_true,
      Option.isNone_iff_eq_none] at hadopts
    obtain ⟨⟨hne, hnames⟩, hcases⟩ := hadopts
    refine hheroes _ ?_ (by rw [foldl_applyState_id]; exact hne)
    rcases hcases with rfl | ⟨rfl, hfirst⟩
    · exact foldl_kept hne hnames
    · exact foldl_alias rfl hne hnames hfirst
  all_goals
    rw [hg] at h hadopts
    obtain rfl : m = n := by simpa [Given.wanted] using h
    have hne : m ≠ room := by simpa using hadopts
    refine hheroes _ (foldl_named g hne (fun hm => ?_) jr.state (by rw [hg]))
      (by rw [foldl_applyState_id]; exact hne)
    exact hstored m (by simp [Given.wanted, hm])

/-- **The watch**: the server says of the name what the state blocks said, and no sweep comes to rename a
room that has only an alias. -/
def watch (room : String) : Watch where
  holds bs name := (∀ n, (given bs).wanted = some n → name = some n) ∧
    ∀ n, (given bs).name = some n → n ≠ room
  takes bs name jr := adopts room (given bs) (name.getD room) jr.state = true
  renames bs := (given bs).name = none → (given bs).canonicalAlias = none
  given bs answer := (given bs).wanted.isSome → answer = (given bs).name
  sweeps := True

theorem preserved_watch (room us : String) : (watch room).Preserved room us where
  batch bs name jr hholds htakes := by
    obtain ⟨hname, -⟩ := hholds
    refine ⟨fun n hn => ?_, fun n hn => ?_⟩
    · rw [given_append] at hn
      refine congrArg some (nameAfter_adopts htakes (fun m hm => ?_) hn)
      rw [hname m hm]
      rfl
    · rw [given_append] at hn
      unfold watch adopts at htakes
      dsimp only at htakes
      rcases hg : jr.state.foldl Given.event (given bs) with ⟨m, a⟩
      rw [hg] at hn htakes
      obtain rfl : m = some n := hn
      simpa using htakes
  rename _ bs listed name answer partner bridge members wanted hlisted hholds htold hwanted hne hrenames := by
    -- a name would have been asked for, and is what the room is called already
    have hnone : (given bs).name = none := by
      rcases hn : (given bs).name with _ | n
      · rfl
      · have hcalled : listed = n := Option.some.inj (hlisted.1 n (by simp [Given.wanted, hn]))
        rcases htold with htold | ⟨hid, -⟩
        · have hanswer : answer = some n := hn ▸ htold (by simp [Given.wanted, hn])
          rw [hanswer] at hwanted
          have heq : n = wanted := Option.some.inj hwanted
          exact absurd (hcalled.trans heq) hne
        · exact absurd (hcalled.symm.trans hid) (hlisted.2 n hn)
    have hunnamed : (given bs).wanted = none := by simp [Given.wanted, hnone, hrenames hnone]
    exact ⟨fun n hn => by simp [hunnamed] at hn, fun n hn => by simp [hnone] at hn⟩

/-- **Given names win**, in every run in which the batches are taken as they are meant and no sweep
renames a room that has only an alias. -/
theorem named_of_lawful {S : CipherSuite} {serde : SerdeJson} {layer : Layer S} {login : Login}
    {room : String} {p : Pool (Shared S) Change Request Reply Role}
    {run : List (Event (Shared S) Change Request Reply Role Salts)} (hprocs : p.procs = [])
    (hbatches : batches room p.state.log = [])
    (hlawful : p.Lawful (rules serde layer login room (watch room)) Change.exec note run) {n : String}
    (hn : (given (batches room (p.runs Change.exec note run).state.log)).wanted = some n) :
    nameOf (p.runs Change.exec note run).state.db room = some n := by
  refine (Watch.run (preserved_watch room login.us) hprocs ?_ hlawful).1 n hn
  rw [hbatches]
  exact ⟨fun n hn => by simp [given, Given.wanted] at hn, fun n hn => by simp [given] at hn⟩

/-! ### A room with a name, and one with an alias -/

def checks : Checks where
  takes bs name jr := adopts "!r" (given bs) (name.getD "!r") jr.state
  renames bs := (given bs).name ≠ none || (given bs).canonicalAlias = none
  given bs answer := (given bs).wanted = none || answer = (given bs).name

/-- The room has a name. -/
def namedRoom : JoinedRoom :=
  { state := [{ kind := "m.room.name", stateKey := some "", content := { name := some "Team" } }] }

/-- A room with a name stays so when it turns out to be a direct chat. -/
theorem named_sweep :
    nameOf (fresh.runs Change.exec note (syncRound namedRoom ++ sweep (some "Team"))).state.db "!r" =
      some "Team" := by
  refine @named_of_lawful _ Backlog.noPlaintext Backlog.idleLayer ours "!r" fresh _ rfl rfl
    (lawful_of_checks (C := checks) (fun _ _ _ h => h) (fun bs h hnone => ?_) (fun bs answer h hsome => ?_)
      (fun e he => ?_) ?_) _ ?_
  · simpa [checks, hnone] using h
  · simp only [checks, Bool.or_eq_true, decide_eq_true_eq] at h
    rcases h with hnone | heq
    · rw [hnone] at hsome
      simp at hsome
    · exact heq
  · rcases List.mem_append.mp he with he | he
    · exact told_round _ _ e he
    · exact told_sweep _ e he
  · decide +kernel
  · decide +kernel

/-- Its members are known before its alias is. -/
def unnamedRoom : JoinedRoom := { summary := { heroes := ["@bob:x"], joinedMemberCount := 2 } }

def aliasedRoom : JoinedRoom :=
  { state := [{ kind := "m.room.canonical_alias", stateKey := some "",
                content := { canonicalAlias := some "#team:x" } }] }

/-- What happens in the runs here is no matter. -/
def anything (room : String) : Watch := { watch room with
  takes _ _ _ := True
  renames _ := True }

/-- **An alias does not win**: the room was named after its heroes before. -/
theorem not_named_alias :
    ¬ ∀ run, fresh.Lawful (rules Backlog.noPlaintext Backlog.idleLayer ours "!r" (anything "!r"))
        Change.exec note run →
      ∀ n, (given (batches "!r" (fresh.runs Change.exec note run).state.log)).wanted = some n →
        nameOf (fresh.runs Change.exec note run).state.db "!r" = some n := by
  intro h
  have hlawful : fresh.Lawful (rules Backlog.noPlaintext Backlog.idleLayer ours "!r" (anything "!r"))
      Change.exec note (syncRound unnamedRoom ++ syncRound aliasedRoom) := by
    refine lawful_of_checks (C := ⟨fun _ _ _ => true, fun _ => true, checks.given⟩)
      (fun _ _ _ _ => trivial) (fun _ _ => trivial) (fun bs answer h hsome => ?_) (fun e he => ?_) ?_
    · simp only [checks, Bool.or_eq_true, decide_eq_true_eq] at h
      rcases h with hnone | heq
      · rw [hnone] at hsome
        simp at hsome
      · exact heq
    · rcases List.mem_append.mp he with he | he
      · exact told_round _ _ e he
      · exact told_round _ _ e he
    · decide +kernel
  have hname : nameOf
      (fresh.runs Change.exec note (syncRound unnamedRoom ++ syncRound aliasedRoom)).state.db "!r" =
      some "bob" := by decide +kernel
  have halias := h _ hlawful "#team:x" (by decide +kernel)
  rw [hname] at halias
  simp at halias

end Kmatrix.Daemon.GivenNames
