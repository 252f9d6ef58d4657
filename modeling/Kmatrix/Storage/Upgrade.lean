import Kmatrix.Storage.Edits

/-! # Inserting a message again

The conflict clause of the message insert replaces the body and the `decrypted` flag together, whatever
the row says already. A row becomes readable by an insert that is decrypted, or by an upgrade once it
is there (`Unlocks`); an insert of the placeholder after that locks it again.

**Inserts only upgrade** exactly in the runs in which no placeholder of an event is inserted after
something has made the event readable (`onlyUpgrades_iff`). -/

namespace Kmatrix.Storage.Upgrade

open Kmatrix.Lib.Keyed Kmatrix.Storage.Seal Kmatrix.Storage.Schema Kmatrix.Storage.Write
open Kmatrix.Storage.Plain Kmatrix.Storage.Event Kmatrix.Storage.Edits
open Kmatrix.Storage.AtRest (freshStore)

/-! ### One event -/

/-- The row is there and decrypted. -/
def Readable (s : EventState) : Prop := ∃ row, s.row = some row ∧ row.decrypted ≠ 0

/-- **What has made the event readable**: it was, or a decrypted insert, or an upgrade of a row that was
there. -/
inductive Unlocks (e : String) (s : EventState) (ops : List StoreOp) : Prop where
  | already : Readable s → Unlocks e s ops
  | insert (m : Message) : .insertMessage m ∈ ops → m.eventId = e → m.decrypted = true →
      Unlocks e s ops
  | upgrade (before after : List StoreOp) (body : String) :
      ops = before ++ .upgradeMessage e body :: after →
      (s.row.isSome = true ∨ ∃ m, StoreOp.insertMessage m ∈ before ∧ m.eventId = e) →
      Unlocks e s ops

section Steps
variable (keep : String → Option String) {e : String} {s : EventState}

theorem readable_insert (m : Message) :
    Readable ⟨s.edit, some (insertRow keep s m)⟩ ↔ m.decrypted = true := by
  have hrow : (insertRow keep s m).decrypted = boolI64 m.decrypted := by
    unfold insertRow
    cases s.row <;> rfl
  unfold Readable
  simp only [Option.some.injEq, exists_eq_left']
  rw [hrow, boolI64_ne_zero]

/-- **What an operation other than an insert leaves readable**: it never locks a row. -/
theorem readable_eventStep {op : StoreOp} (hop : op ≠ .clear)
    (hm : ∀ m, op = .insertMessage m → m.eventId = e → m.decrypted = true) (h : Readable s) :
    Readable (eventStep keep e s op) := by
  obtain ⟨row, hrow, hne⟩ := h
  cases op with
  | insertMessage m =>
    show Readable (if m.eventId = e then _ else s)
    split_ifs with he
    · exact (readable_insert keep m).mpr (hm m rfl he)
    · exact ⟨row, hrow, hne⟩
  | upgradeMessage e' body =>
    show Readable (if e' = e then _ else s)
    split_ifs
    · exact ⟨upgradeRow s.edit (keep body) row, by rw [hrow]; rfl, one_ne_zero⟩
    · exact ⟨row, hrow, hne⟩
  | recordEdit target ts body =>
    show Readable (if target = e then editStep s _ else s)
    unfold editStep
    split_ifs
    · exact ⟨{ row with body := keep body }, by rw [hrow]; rfl, hne⟩
    · exact ⟨row, hrow, hne⟩
    · exact ⟨row, hrow, hne⟩
  | clear => exact absurd rfl hop
  | _ => exact ⟨row, hrow, hne⟩

/-- **What makes a row readable** in one step. -/
theorem unlocked_of_eventStep {op : StoreOp} (h : Readable (eventStep keep e s op)) :
    Readable s ∨ (∃ m, op = .insertMessage m ∧ m.eventId = e ∧ m.decrypted = true) ∨
      ∃ body, op = .upgradeMessage e body ∧ s.row.isSome = true := by
  cases op with
  | insertMessage m =>
    have h' : Readable (if m.eventId = e then _ else s) := h
    split_ifs at h' with he
    · exact Or.inr (Or.inl ⟨m, rfl, he, (readable_insert keep m).mp h'⟩)
    · exact Or.inl h'
  | upgradeMessage e' body =>
    have h' : Readable (if e' = e then _ else s) := h
    split_ifs at h' with he
    · obtain ⟨row, hrow, -⟩ := h'
      obtain ⟨row', hrow', -⟩ := Option.map_eq_some_iff.mp hrow
      exact Or.inr (Or.inr ⟨body, by rw [he], by rw [hrow']; rfl⟩)
    · exact Or.inl h'
  | recordEdit target ts body =>
    have h' : Readable (if target = e then editStep s _ else s) := h
    unfold editStep at h'
    split_ifs at h'
    · obtain ⟨row, hrow, hne⟩ := h'
      obtain ⟨row', hrow', rfl⟩ := Option.map_eq_some_iff.mp hrow
      exact Or.inl ⟨row', hrow', hne⟩
    · exact Or.inl h'
    · exact Or.inl h'
  | clear =>
    obtain ⟨row, hrow, -⟩ := h
    cases hrow
  | _ => exact Or.inl h

end Steps

/-! ### Runs on one event -/

section Runs
variable (keep : String → Option String) {e : String} {s : EventState}

theorem Unlocks.append {ops : List StoreOp} (h : Unlocks e s ops) (op : StoreOp) :
    Unlocks e s (ops ++ [op]) := by
  cases h with
  | already h => exact .already h
  | insert m hm he hd => exact .insert m (List.mem_append_left _ hm) he hd
  | upgrade before after body heq hrow =>
    exact .upgrade before (after ++ [op]) body (by rw [heq]; simp) hrow

/-- Where a row is there after a run, it was, or the run inserted it. -/
theorem inserted_of_row : ∀ (ops : List StoreOp) (s : EventState),
    (eventRun keep e s ops).row.isSome = true →
    s.row.isSome = true ∨ ∃ m, .insertMessage m ∈ ops ∧ m.eventId = e
  | [], _, h => Or.inl h
  | op :: ops, s, h => by
    rcases inserted_of_row ops _ h with h | ⟨m, hm, he⟩
    · cases op with
      | insertMessage m =>
        have h' : (if m.eventId = e then _ else s).row.isSome = true := h
        by_cases he : m.eventId = e
        · exact Or.inr ⟨m, List.mem_cons_self, he⟩
        · rw [if_neg he] at h'
          exact Or.inl h'
      | upgradeMessage e' body =>
        have h' : (if e' = e then _ else s).row.isSome = true := h
        split_ifs at h'
        · rw [Option.isSome_map] at h'
          exact Or.inl h'
        · exact Or.inl h'
      | recordEdit target ts body =>
        have h' : (if target = e then editStep s _ else s).row.isSome = true := h
        unfold editStep at h'
        split_ifs at h'
        · rw [Option.isSome_map] at h'
          exact Or.inl h'
        · exact Or.inl h'
        · exact Or.inl h'
      | clear => cases h
      | _ => exact Or.inl h
    · exact Or.inr ⟨m, List.mem_cons_of_mem _ hm, he⟩

/-- **A readable row has been unlocked.** -/
theorem unlocks_of_readable (ops : List StoreOp) (h : Readable (eventRun keep e s ops)) :
    Unlocks e s ops := by
  induction ops using List.reverseRecOn with
  | nil => exact .already h
  | append_singleton ops op ih =>
    rw [eventRun_append] at h
    rcases unlocked_of_eventStep keep h with h | ⟨m, rfl, he, hd⟩ | ⟨body, rfl, hrow⟩
    · exact (ih h).append op
    · exact .insert m (by simp) he hd
    · exact .upgrade ops [] body rfl (inserted_of_row keep ops s hrow)

/-- No insert of the event locks it. -/
def Keeps (e : String) (s : EventState) (ops : List StoreOp) : Prop :=
  ∀ before m after, ops = before ++ .insertMessage m :: after → m.eventId = e →
    Readable (eventRun keep e s before) → m.decrypted = true

/-- **An unlocked row is readable**, as long as no insert has locked it. -/
theorem readable_of_unlocks (ops : List StoreOp) (hclear : .clear ∉ ops) (hkeeps : Keeps keep e s ops)
    (h : Unlocks e s ops) : Readable (eventRun keep e s ops) := by
  induction ops using List.reverseRecOn with
  | nil =>
    cases h with
    | already h => exact h
    | insert m hm => cases hm
    | upgrade before after body heq => exact absurd heq (by simp)
  | append_singleton ops op ih =>
    rw [List.mem_append, not_or] at hclear
    have hop : op ≠ .clear := fun hop => hclear.2 (by rw [hop]; exact List.mem_singleton_self _)
    have hbefore : Keeps keep e s ops := fun before m after heq =>
      hkeeps before m (after ++ [op]) (by rw [heq]; simp)
    rw [eventRun_append]
    -- an unlocking before the last operation, which keeps it, or the last operation itself
    have hstep : Unlocks e s ops → Readable (eventStep keep e (eventRun keep e s ops) op) := by
      intro hu
      have hread := ih hclear.1 hbefore hu
      exact readable_eventStep keep hop
        (fun m hm he => hkeeps ops m [] (by rw [hm]) he hread) hread
    cases h with
    | already h => exact hstep (.already h)
    | insert m hm he hd =>
      rcases List.mem_append.mp hm with hm | hm
      · exact hstep (.insert m hm he hd)
      · obtain rfl := List.mem_singleton.mp hm
        show Readable (if m.eventId = e then _ else _)
        rw [if_pos he]
        exact (readable_insert keep m).mpr hd
    | upgrade before after body heq hrow =>
      rcases List.eq_nil_or_concat after with rfl | ⟨after, op', rfl⟩
      · obtain ⟨rfl, hop'⟩ := List.append_inj' heq rfl
        obtain rfl := List.singleton_inj.mp hop'
        obtain ⟨row, hsome⟩ := Option.isSome_iff_exists.mp
          (row_eventRun keep e ops s hclear.1 hrow)
        show Readable (if e = e then _ else _)
        rw [if_pos rfl]
        exact ⟨upgradeRow _ (keep body) row, by rw [hsome]; rfl, one_ne_zero⟩
      · rw [List.concat_eq_append, ← List.cons_append, ← List.append_assoc] at heq
        exact hstep (.upgrade before after body (List.append_inj_left' heq rfl) hrow)

/-- **No insert locks a readable row** exactly where no placeholder comes after an unlocking. -/
theorem keeps_iff (ops : List StoreOp) (hclear : .clear ∉ ops) :
    Keeps keep e s ops ↔ ∀ before m after, ops = before ++ .insertMessage m :: after →
      m.eventId = e → m.decrypted = false → ¬ Unlocks e s before := by
  constructor
  · intro hkeeps before m after heq he hd hu
    have hbefore : Keeps keep e s before := fun before' m' after' heq' =>
      hkeeps before' m' (after' ++ .insertMessage m :: after) (by rw [heq, heq']; simp)
    have hread := readable_of_unlocks keep before (fun hmem => hclear (by rw [heq]; simp [hmem]))
      hbefore hu
    rw [hkeeps before m after heq he hread] at hd
    cases hd
  · intro hno before m after heq he hread
    by_contra hd
    exact hno before m after heq he (by simpa using hd) (unlocks_of_readable keep before hread)

end Runs

/-! ### The store -/

section Store
variable {S : CipherSuite} (st : Store S) (e : String)

/-- The row of the event, decrypted, with what its body says. -/
def Says (body : Option String) : Prop :=
  ∃ row, st.db.messages.lookup e = some row ∧ row.decrypted ≠ 0 ∧ look st row.body = body

/-- **Inserts only upgrade**: where the row of the event is decrypted, an insert of the event leaves it
decrypted, and a placeholder leaves its body as it is. -/
def OnlyUpgrades (run : List (StoreOp × Salts)) : Prop :=
  ∀ before m rng after, run = before ++ (.insertMessage m, rng) :: after → m.eventId = e →
    ∀ body, Says (execAll st before) e body →
      ∃ body', Says (execAll st (before ++ [(.insertMessage m, rng)])) e body' ∧
        (m.decrypted = false → body' = body)

theorem readable_eventOf : Readable (eventOf (plain st) e) ↔ ∃ body, Says st e body := by
  unfold Readable Says eventOf
  show (∃ row, (plain st).messages.lookup e = some row ∧ _) ↔ _
  rw [messages_plain]
  constructor
  · rintro ⟨row, hrow, hne⟩
    obtain ⟨row', hrow', rfl⟩ := Option.map_eq_some_iff.mp hrow
    exact ⟨_, row', hrow', hne, rfl⟩
  · rintro ⟨body, row, hrow, hne, -⟩
    exact ⟨_, by rw [hrow]; rfl, hne⟩

theorem readable_execAll (run : List (StoreOp × Salts)) :
    Readable (eventRun (kept st) e (eventOf (plain st) e) (run.map Prod.fst)) ↔
      ∃ body, Says (execAll st run) e body := by
  rw [← readable_eventOf, plain_execAll, eventOf_runPlain]

/-- **Inserts only upgrade** in exactly the runs of a login in which no placeholder of the event comes
after the event has been made readable. -/
theorem onlyUpgrades_iff (run : List (StoreOp × Salts)) (hlogin : .clear ∉ run.map Prod.fst) :
    OnlyUpgrades st e run ↔
      ∀ before m after, run.map Prod.fst = before ++ .insertMessage m :: after → m.eventId = e →
        m.decrypted = false → ¬ Unlocks e (eventOf (plain st) e) before := by
  rw [← keeps_iff (kept st) _ hlogin]
  constructor
  · intro hup before m after heq he hread
    obtain ⟨run₁, run₂, rfl, rfl, hrest⟩ := List.map_eq_append_iff.mp heq
    obtain ⟨⟨op, rng⟩, run₃, rfl, hop, rfl⟩ := List.map_eq_cons_iff.mp hrest
    obtain rfl : op = .insertMessage m := hop
    obtain ⟨body, hsays⟩ := (readable_execAll st e run₁).mp hread
    obtain ⟨body', hsays', -⟩ := hup run₁ m rng run₃ rfl he body hsays
    have hafter := (readable_execAll st e _).mpr ⟨body', hsays'⟩
    rw [List.map_append, eventRun_append] at hafter
    have hinsert : Readable (if m.eventId = e then _ else _) := hafter
    rw [if_pos he] at hinsert
    exact (readable_insert (kept st) m).mp hinsert
  · intro hkeeps before m rng after heq he body hsays
    have hread := (readable_execAll st e before).mpr ⟨body, hsays⟩
    have hd := hkeeps (before.map Prod.fst) m (after.map Prod.fst) (by rw [heq]; simp) he hread
    have hafter : Readable (eventRun (kept st) e (eventOf (plain st) e)
        ((before ++ [(StoreOp.insertMessage m, rng)]).map Prod.fst)) := by
      rw [List.map_append, eventRun_append]
      show Readable (if m.eventId = e then _ else _)
      rw [if_pos he]
      exact (readable_insert (kept st) m).mpr hd
    obtain ⟨body', hsays'⟩ := (readable_execAll st e _).mp hafter
    exact ⟨body', hsays', fun hf => by rw [hd] at hf; cases hf⟩

end Store

/-! ### A placeholder after the text -/

/-- The placeholder, and the text once its key is there. -/
def unlockedRun : List (StoreOp × Salts) :=
  [(.insertMessage helloMessage, fun _ => zeroSalt), (.upgradeMessage "$e" "hello", fun _ => zeroSalt)]

theorem onlyUpgrades_unlockedRun : OnlyUpgrades freshStore "$e" unlockedRun := by
  refine (onlyUpgrades_iff freshStore "$e" unlockedRun (by decide)).mpr ?_
  intro before m after heq he hd hu
  rcases before with _ | ⟨op, _ | ⟨op', before⟩⟩
  · cases hu with
    | already h =>
      obtain ⟨row, hrow, -⟩ := h
      have hnone : (eventOf (plain freshStore) "$e").row = none := by decide +kernel
      rw [hnone] at hrow
      cases hrow
    | insert m' hm => cases hm
    | upgrade before after body heq' => exact absurd heq' (by simp)
  · exact absurd heq (by simp [unlockedRun])
  · exact absurd (congrArg List.length heq) (by simp [unlockedRun])

/-- The event with its text, and the same event as it is seen without the key. -/
def lockedRun : List (StoreOp × Salts) :=
  [(.insertMessage { helloMessage with body := "hello", decrypted := true, sessionId := none,
                                       ciphertext := none }, fun _ => zeroSalt),
    (.insertMessage helloMessage, fun _ => zeroSalt)]

/-- The second insert locks the row. -/
theorem not_onlyUpgrades_lockedRun : ¬ OnlyUpgrades freshStore "$e" lockedRun := by
  intro h
  have hread : ((execAll freshStore (lockedRun.take 1)).db.messages.lookup "$e").map
      MessageRow.decrypted = some 1 := by decide +kernel
  obtain ⟨row, hrow, hone⟩ := Option.map_eq_some_iff.mp hread
  obtain ⟨body, ⟨row', hrow', hne, -⟩, -⟩ := h (lockedRun.take 1) helloMessage (fun _ => zeroSalt) []
    rfl rfl _ ⟨row, hrow, by rw [hone]; exact one_ne_zero, rfl⟩
  have hlocked : ((execAll freshStore lockedRun).db.messages.lookup "$e").map
      MessageRow.decrypted = some 0 := by decide +kernel
  rw [show execAll freshStore lockedRun = execAll freshStore (lockedRun.take 1 ++
    [(StoreOp.insertMessage helloMessage, fun _ => zeroSalt)]) from rfl, hrow'] at hlocked
  exact hne (Option.some.inj hlocked)

end Kmatrix.Storage.Upgrade
