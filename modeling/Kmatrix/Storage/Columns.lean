import Kmatrix.Lib.Crash
import Kmatrix.Lib.Ddl
import Kmatrix.Storage.Schema

/-! # Opening the database of an earlier release

`open` runs `SCHEMA`, which makes the tables that are missing, and `migrate`, which asks what columns two of
them have and adds those that are missing. Each statement is on disk when it is done, and the daemon may be
killed between any two, or one may fail.

The columns are asked for once for each table, so `migrate` goes wrong if it adds one twice, and an old row
is lost to the daemon if a query names a column it lacks. `opened_complete`: however many openings were
cut off, the next one that is not finds everything as the first release that wrote it left it. -/

namespace Kmatrix.Storage.Columns

open Kmatrix.Lib.Crash Kmatrix.Lib.Ddl Kmatrix.Lib.Keyed Kmatrix.Storage.Schema Kmatrix.E2ee.Ratchets

/-- What a cell may hold, `NULL` apart. -/
inductive Cell where
  | integer (i : ℤ)
  | text (s : String)
  deriving DecidableEq

deriving instance DecidableEq for Column, Statement

/-! ### The schema -/

def nullable (name : String) : Column Cell := ⟨name, false, none⟩

def required (name : String) : Column Cell := ⟨name, true, none⟩

def backDone : Column Cell := ⟨"back_done", true, some (.integer 0)⟩

/-- The tables of `SCHEMA`. -/
def schema : List (String × List (Column Cell)) :=
  [("meta", [nullable "k", required "v"]),
    ("room", [nullable "id", required "name", required "encrypted", required "unread", required "last_ts",
      required "last_preview", nullable "back_token", backDone]),
    ("message", [nullable "event_id", required "room", required "sender", required "ts", required "body",
      required "encrypted", required "decrypted", required "mine", nullable "session_id", nullable "ciphertext"]),
    ("pickle", [required "kind", required "id", required "extra", required "pickle"]),
    ("edit", [nullable "target", required "ts", required "body"]),
    ("member", [required "room", required "user_id", required "name"])]

def create (table : String) : Statement Cell := .createTable table (columnsOf schema table)

/-- **`SCHEMA`**, statement by statement. -/
def statements : List (Statement Cell) :=
  [create "meta", create "room", create "message", .createIndex "message_room_ts" "message" ["room", "ts"],
    create "pickle", create "edit", create "member"]

/-- The columns that were added after a release. -/
def added : List (String × List (Column Cell)) :=
  [("message", [nullable "session_id", nullable "ciphertext"]), ("room", [nullable "back_token", backDone])]

/-! ### The code -/

inductive Effect where
  | statement (s : Statement Cell)
  | tableInfo (table : String)

abbrev Answer : Effect → Type
  | .statement _ => Except String Unit
  | .tableInfo _ => Except String (List String)

/-- **What an effect does** to the file: the disk may fail it, and then nothing happens. -/
def exec (fault : Option String) (db : Database Cell) : (e : Effect) → Answer e × Database Cell
  | .statement s =>
    match fault with
    | some e => (.error e, db)
    | none =>
      match db.exec s with
      | .ok db' => (.ok (), db')
      | .error e => (.error e, db)
  | .tableInfo table =>
    match fault with
    | some e => (.error e, db)
    | none => (.ok (db.tableInfo table), db)

abbrev Code := Act Unit Effect Answer

def execute (s : Statement Cell) : Code Unit := ⟨fun u => .act (.statement s) fun r => .ret (r, u)⟩

def tableInfo (table : String) : Code (List String) := ⟨fun u => .act (.tableInfo table) fun r => .ret (r, u)⟩

/-- `with_context`. -/
def withContext {α : Type} (text : String) (m : Code α) : Code α := do
  match ← Act.attempt m with
  | .ok a => return a
  | .error e => Act.fail (text ++ ": " ++ e)

/-- One column of `migrate`. -/
def addMissing (table : String) (present : List String) (c : Column Cell) : Code Unit :=
  if present.contains c.name then pure ()
  else withContext ("add " ++ table ++ " column " ++ c.name) (execute (.addColumn table c))

/-- One table of `migrate`. -/
def migrateTable (entry : String × List (Column Cell)) : Code Unit := do
  let present ← withContext ("inspect " ++ entry.1 ++ " columns") (tableInfo entry.1)
  Act.fold (fun _ c => addMissing entry.1 present c) () entry.2

def migrate : Code Unit := Act.fold (fun _ entry => migrateTable entry) () added

def createSchema : Code Unit := withContext "create schema" (Act.fold (fun _ s => execute s) () statements)

/-- **`open`**, as far as it concerns the schema. -/
def openSchema : Code Unit := do
  createSchema
  migrate

/-- **Openings**, one after the other: each over its outcomes, and cut off where they end. -/
def opened (db : Database Cell) (openings : List (List (Option String))) : Database Cell :=
  openings.foldl (fun db os => (run exec (openSchema.run ()) db os).2) db

/-! ### What the store reads -/

section Rows
variable (readPickle : String → Option Pickle)

/-- An optional text. -/
def optText : Option Cell → Option (Option String)
  | none => some none
  | some (.text s) => some (some s)
  | some (.integer _) => none

def metaOf : List (Option Cell) → Option (String × String)
  | [some (.text k), some (.text v)] => some (k, v)
  | _ => none

def roomOf : List (Option Cell) → Option (String × RoomRow String)
  | [some (.text id), some (.text name), some (.integer encrypted), some (.integer unread),
      some (.integer lastTs), some (.text lastPreview), backToken, some (.integer backDone)] =>
    (optText backToken).map fun backToken =>
      (id, ⟨name, encrypted, unread, lastTs, lastPreview, backToken, backDone⟩)
  | _ => none

def messageOf : List (Option Cell) → Option (String × MessageRow String)
  | [some (.text eventId), some (.text room), some (.text sender), some (.integer ts), some (.text body),
      some (.integer encrypted), some (.integer decrypted), some (.integer mine), sessionId, ciphertext] => do
    return (eventId, ⟨room, sender, ts, body, encrypted, decrypted, mine, ← optText sessionId,
      ← optText ciphertext⟩)
  | _ => none

def pickleOf : List (Option Cell) → Option ((String × String) × PickleRow)
  | [some (.text kind), some (.text id), some (.text extra), some (.text pickle)] =>
    (readPickle pickle).map fun pickle => ((kind, id), ⟨extra, pickle⟩)
  | _ => none

def editOf : List (Option Cell) → Option (String × EditRow String)
  | [some (.text target), some (.integer ts), some (.text body)] => some (target, ⟨ts, body⟩)
  | _ => none

def memberOf : List (Option Cell) → Option ((String × String) × String)
  | [some (.text room), some (.text userId), some (.text name)] => some ((room, userId), name)
  | _ => none

/-- The rows of a table with their keys. -/
def entries {κ ρ : Type} (t : Table κ ρ) : List (κ × ρ) := t.rows.map fun r => (r.key, r.val)

/-- **These are the tables**, read from the rows that `rows` gives of each. -/
structure Reads (rows : String → Option (List (List (Option Cell)))) (t : Tables String) : Prop where
  metas : (rows "meta").bind (List.mapM metaOf) = some (entries t.metas)
  rooms : (rows "room").bind (List.mapM roomOf) = some (entries t.rooms)
  messages : (rows "message").bind (List.mapM messageOf) = some (entries t.messages)
  pickles : (rows "pickle").bind (List.mapM (pickleOf readPickle)) = some (entries t.pickles)
  edits : (rows "edit").bind (List.mapM editOf) = some (entries t.edits)
  members : (rows "member").bind (List.mapM memberOf) = some (entries t.members)

end Rows

/-! ### The rules -/

section Rules
variable {ω ο α β : Type} {exec : ο → ω → (e : Effect) → Answer e × ω} {D : ω → Prop}

theorem safe_withContext {text : String} {m : Code α} {w : ω} {Q : Except String α × Unit → ω → Prop}
    (h : Safe exec D (fun r w' => match r.1 with
      | .ok a => Q (.ok a, ()) w'
      | .error e => Q (.error (text ++ ": " ++ e), ()) w') (m.run ()) w) :
    Safe exec D Q ((withContext text m).run ()) w := by
  refine Act.safe_bind.mpr (Act.safe_attempt.mpr (h.mono ?_))
  rintro ⟨e | a, u⟩ w' hr
  · exact hr
  · exact hr

/-- **The loop rule**, for a list that is known: each round knows where it is. -/
theorem safe_each {f : β → Code Unit} {xs : List β} {I : List β → ω → Prop} {J : ω → Prop}
    (hround : ∀ done x rest w, xs = done ++ x :: rest → I done w → Safe exec D (fun r w' => match r.1 with
      | .ok _ => I (done ++ [x]) w'
      | .error _ => J w') ((f x).run ()) w) {w : ω} (h : I [] w) :
    Safe exec D (fun r w' => match r.1 with
      | .ok _ => I xs w'
      | .error _ => J w') ((Act.fold (fun _ x => f x) () xs).run ()) w := by
  suffices hrest : ∀ (rest done : List β) (w : ω), xs = done ++ rest → I done w →
      Safe exec D (fun r w' => match r.1 with
        | .ok _ => I xs w'
        | .error _ => J w') ((Act.fold (fun _ x => f x) () rest).run ()) w from hrest xs [] w rfl h
  intro rest
  induction rest with
  | nil =>
    intro done w hxs h
    rw [hxs, List.append_nil]
    exact h
  | cons x rest ih =>
    intro done w hxs h
    refine Act.safe_bind.mpr ((hround done x rest w hxs h).mono ?_)
    rintro ⟨e | ⟨⟩, u⟩ w' h'
    · exact h'
    · exact ih (done ++ [x]) w' (by rw [hxs, List.append_assoc, List.singleton_append]) h'

end Rules

/-! ### One opening -/

section Opening
variable {db₀ : Database Cell}

abbrev addedTo (table : String) : List (Column Cell) := columnsOf added table

abbrev World := Database Cell × List (Effect × Option String)

theorem distinct_schema (table : String) : ((columnsOf schema table).map Column.name).Nodup := by
  have hall : ∀ entry ∈ schema, (entry.2.map Column.name).Nodup := by decide
  rcases columnsOf_mem schema table with h | h
  · rw [h]
    exact List.nodup_nil
  · exact hall _ h

/-- **What is kept**: the rows are seen as they were, and the database is still one to be opened. -/
structure Kept (db₀ : Database Cell) (w : World) : Prop where
  fits : Fits schema addedTo w.1
  view : ∀ table, w.1.view schema table = db₀.view schema table

/-- A statement was failed by the disk. -/
def Faulty (w : World) : Prop := ∃ y ∈ w.2, y.2 ≠ none

/-- **One statement**, where it does not fail by itself. -/
theorem safe_execute {s : Statement Cell} (hs : s.Of schema) {w : World} (hw : Kept db₀ w)
    (hok : ∃ db', w.1.exec s = .ok db') :
    Safe (recording exec) (Kept db₀) (fun r w' => match r.1 with
      | .ok _ => Kept db₀ w' ∧ w.1.exec s = .ok w'.1
      | .error _ => Kept db₀ w' ∧ Faulty w') ((execute s).run ()) w := by
  refine ⟨hw, fun fault => ?_⟩
  rcases fault with _ | e
  · obtain ⟨db', hdb'⟩ := hok
    have hexec : recording exec none w (.statement s) = (.ok (), db', w.2 ++ [(.statement s, none)]) := by
      unfold recording exec
      dsimp only
      rw [hdb']
    rw [hexec]
    exact ⟨⟨fits_exec hs hw.fits hdb', fun t => (view_exec distinct_schema hs hdb' t).trans (hw.view t)⟩, hdb'⟩
  · exact ⟨⟨hw.fits, hw.view⟩, _, List.mem_append_right _ (List.mem_singleton_self _), Option.some_ne_none e⟩

/-- The question for the columns. -/
theorem safe_tableInfo {table : String} {w : World} (hw : Kept db₀ w) :
    Safe (recording exec) (Kept db₀) (fun r w' => match r.1 with
      | .ok present => Kept db₀ w' ∧ w'.1 = w.1 ∧ present = w.1.tableInfo table
      | .error _ => Kept db₀ w' ∧ Faulty w') ((tableInfo table).run ()) w := by
  refine ⟨hw, fun fault => ?_⟩
  rcases fault with _ | e
  · exact ⟨⟨hw.fits, hw.view⟩, rfl, rfl⟩
  · exact ⟨⟨hw.fits, hw.view⟩, _, List.mem_append_right _ (List.mem_singleton_self _), Option.some_ne_none e⟩

/-! #### The tables -/

/-- What a statement of `SCHEMA` needs is made before it. -/
def ready (done : List (Statement Cell)) : Statement Cell → Bool
  | .createTable table columns => columns = columnsOf schema table
  | .createIndex _ table columns => create table ∈ done &&
      columns.all fun name => (columnsOf schema table).any fun c => c.name = name && c ∉ addedTo table
  | .addColumn _ _ => false

def readyAll (done : List (Statement Cell)) : List (Statement Cell) → Bool
  | [] => true
  | s :: rest => ready done s && readyAll (done ++ [s]) rest

theorem ready_of_split {done before rest : List (Statement Cell)} {s : Statement Cell}
    (h : readyAll done (before ++ s :: rest) = true) : ready (done ++ before) s = true := by
  induction before generalizing done with
  | nil =>
    rw [List.append_nil]
    exact (Bool.and_eq_true_iff.mp h).1
  | cons x before ih =>
    have hih := ih (Bool.and_eq_true_iff.mp h).2
    rwa [List.append_assoc, List.singleton_append] at hih

theorem ready_statements {done rest : List (Statement Cell)} {s : Statement Cell}
    (h : statements = done ++ s :: rest) : ready done s = true := by
  have hall : readyAll [] statements = true := by decide
  rw [h] at hall
  exact ready_of_split hall

theorem exec_of_ready {done : List (Statement Cell)} {s : Statement Cell} (hready : ready done s = true) {w : World}
    (hw : Kept db₀ w) (hdone : ∀ x ∈ done, Made w.1 x) : s.Of schema ∧ ∃ db', w.1.exec s = .ok db' := by
  rcases s with ⟨table, columns⟩ | ⟨index, table, columns⟩ | ⟨table, c⟩
  · obtain rfl : columns = columnsOf schema table := of_decide_eq_true hready
    exact ⟨.createTable table, exec_createTable table (distinct_schema table)⟩
  · obtain ⟨hmade, hcolumns⟩ := Bool.and_eq_true_iff.mp hready
    obtain ⟨r, hr⟩ := hdone _ (of_decide_eq_true hmade)
    refine ⟨.createIndex index table columns, exec_createIndex index hr fun name hname => ?_⟩
    -- the columns of the index are of the first release
    obtain ⟨c, hc, hold⟩ := List.any_eq_true.mp (List.all_eq_true.mp hcolumns name hname)
    obtain ⟨hcname, hcadded⟩ := Bool.and_eq_true_iff.mp hold
    obtain rfl := of_decide_eq_true hcname
    exact (hw.fits.lacking table r hr c hc).resolve_right (of_decide_eq_true hcadded)
  · cases hready

/-- **`SCHEMA`.** -/
theorem safe_createSchema {w : World} (hw : Kept db₀ w) :
    Safe (recording exec) (Kept db₀) (fun r w' => match r.1 with
      | .ok _ => Kept db₀ w' ∧ ∀ s ∈ statements, Made w'.1 s
      | .error _ => Kept db₀ w' ∧ Faulty w') (createSchema.run ()) w := by
  refine safe_withContext ((safe_each (I := fun done w => Kept db₀ w ∧ ∀ s ∈ done, Made w.1 s)
    (J := fun w => Kept db₀ w ∧ Faulty w) ?_ ⟨hw, fun _ h => absurd h List.not_mem_nil⟩).mono ?_)
  · rintro done s rest w hsplit ⟨hw, hdone⟩
    obtain ⟨hs, hok⟩ := exec_of_ready (ready_statements hsplit) hw hdone
    refine (safe_execute hs hw hok).mono ?_
    rintro ⟨e | ⟨⟩, u⟩ w' h'
    · exact h'
    · refine ⟨h'.1, fun x hx => ?_⟩
      rcases List.mem_append.mp hx with hx | hx
      · exact (hdone x hx).grows (grows_exec h'.2)
      · rw [List.mem_singleton.mp hx]
        exact made_exec h'.2
  · rintro ⟨e | ⟨⟩, u⟩ w' h'
    · exact h'
    · exact h'

/-! #### The columns -/

theorem added_lawful : ∀ entry ∈ added, create entry.1 ∈ statements ∧ (entry.2.map Column.name).Nodup ∧
    ∀ c ∈ entry.2, c ∈ columnsOf schema entry.1 ∧ ¬ (c.notNull ∧ c.default.isNone) := by decide

/-- **One table**: what is missing is added, and nothing twice. -/
theorem safe_migrateTable {entry : String × List (Column Cell)} (hentry : entry ∈ added) {w : World}
    (hw : Kept db₀ w) (hmade : ∀ s ∈ statements, Made w.1 s) :
    Safe (recording exec) (Kept db₀) (fun r w' => match r.1 with
      | .ok _ => Kept db₀ w' ∧ Grows w.1 w'.1 ∧ ∀ c ∈ entry.2, Made w'.1 (.addColumn entry.1 c)
      | .error _ => Kept db₀ w' ∧ Faulty w') ((migrateTable entry).run ()) w := by
  obtain ⟨hcreate, hnodup, hcolumns⟩ := added_lawful entry hentry
  obtain ⟨r₀, hr₀⟩ := hmade _ hcreate
  refine Act.safe_bind.mpr (safe_withContext ((safe_tableInfo hw).mono ?_))
  rintro ⟨e | present, u⟩ w₁ h₁
  · exact h₁
  obtain ⟨hw₁, hsame, hpresent⟩ := h₁
  have hnames : present = r₀.names := by
    rw [hpresent]
    unfold Database.tableInfo
    rw [hr₀]
    rfl
  -- the columns are those that were there, and those that were added since
  refine (safe_each (I := fun done w' => Kept db₀ w' ∧ Grows w.1 w'.1 ∧ (∀ c ∈ done, Made w'.1 (.addColumn entry.1 c)) ∧
    ∀ r, w'.1.tables entry.1 = some r → ∀ name ∈ r.names, name ∈ present ∨ name ∈ done.map Column.name)
    (J := fun w' => Kept db₀ w' ∧ Faulty w') ?_ ?_).mono ?_
  · rintro done c rest w' hsplit ⟨hw', hgrows, hdone, hr⟩
    have hc : c ∈ entry.2 := by
      rw [hsplit]
      exact List.mem_append_right _ List.mem_cons_self
    obtain ⟨r, hrw, hbegins⟩ := hgrows.tables entry.1 r₀ hr₀
    unfold addMissing
    split_ifs with hthere
    · -- it was there
      have hin : c.name ∈ r.names := hbegins.subset (hnames ▸ List.contains_iff_mem.mp hthere)
      refine ⟨hw', hgrows, fun d hd => ?_, fun r' hr' name hname => ?_⟩
      · rcases List.mem_append.mp hd with hd | hd
        · exact hdone d hd
        · rw [List.mem_singleton.mp hd]
          exact ⟨r, hrw, hin⟩
      · rw [List.map_append]
        exact (hr r' hr' name hname).imp_right (List.mem_append_left _)
    · have hfresh : c.name ∉ r.names := by
        intro hin
        rcases hr r hrw c.name hin with hin | hin
        · exact hthere (List.contains_iff_mem.mpr hin)
        · rw [hsplit, List.map_append, List.map_cons, List.nodup_append] at hnodup
          exact hnodup.2.2 _ hin _ List.mem_cons_self rfl
      have hexec := exec_addColumn hrw hfresh (hcolumns c hc).2
      refine safe_withContext ((safe_execute (.addColumn (hcolumns c hc).1) hw' ⟨_, hexec⟩).mono ?_)
      rintro ⟨e | ⟨⟩, u⟩ w'' h''
      · exact h''
      obtain ⟨hw'', hdid⟩ := h''
      refine ⟨hw'', hgrows.trans (grows_exec hdid), fun d hd => ?_, fun r' hr' name hname => ?_⟩
      · rcases List.mem_append.mp hd with hd | hd
        · exact (hdone d hd).grows (grows_exec hdid)
        · rw [List.mem_singleton.mp hd]
          exact made_exec hdid
      · rw [hexec] at hdid
        rw [← Except.ok.inj hdid, put_same] at hr'
        cases hr'
        rw [names_add, List.mem_append, List.mem_singleton] at hname
        rw [List.map_append, List.mem_append]
        rcases hname with hname | rfl
        · exact (hr r hrw name hname).imp_right Or.inl
        · exact Or.inr (Or.inr (List.mem_singleton_self _))
  · rw [hsame]
    refine ⟨hw₁, Grows.refl _, fun _ h => absurd h List.not_mem_nil, fun r hr name hname => Or.inl ?_⟩
    rw [hr₀] at hr
    cases hr
    rw [hnames]
    exact hname
  · rintro ⟨e | ⟨⟩, u⟩ w' h'
    · exact h'
    · exact ⟨h'.1, h'.2.1, h'.2.2.1⟩

/-- **Nothing is left to do.** -/
def Settled (db : Database Cell) : Prop :=
  (∀ s ∈ statements, Made db s) ∧ ∀ entry ∈ added, ∀ c ∈ entry.2, Made db (.addColumn entry.1 c)

/-- **An opening.** -/
theorem safe_openSchema {w : World} (hw : Kept db₀ w) :
    Safe (recording exec) (Kept db₀) (fun r w' => match r.1 with
      | .ok _ => Kept db₀ w' ∧ Settled w'.1
      | .error _ => Kept db₀ w' ∧ Faulty w') (openSchema.run ()) w := by
  refine Act.safe_bind.mpr ((safe_createSchema hw).mono ?_)
  rintro ⟨e | ⟨⟩, u⟩ w₁ h₁
  · exact h₁
  refine (safe_each (I := fun done w' => Kept db₀ w' ∧ (∀ s ∈ statements, Made w'.1 s) ∧
    ∀ entry ∈ done, ∀ c ∈ entry.2, Made w'.1 (.addColumn entry.1 c))
    (J := fun w' => Kept db₀ w' ∧ Faulty w') ?_
    ⟨h₁.1, h₁.2, fun _ h => absurd h List.not_mem_nil⟩).mono ?_
  · rintro done entry rest w' hsplit ⟨hw', hmade, hdone⟩
    have hentry : entry ∈ added := by
      rw [hsplit]
      exact List.mem_append_right _ List.mem_cons_self
    refine (safe_migrateTable hentry hw' hmade).mono ?_
    rintro ⟨e | ⟨⟩, u⟩ w'' h''
    · exact h''
    obtain ⟨hw'', hgrows, hnew⟩ := h''
    refine ⟨hw'', fun s hs => (hmade s hs).grows hgrows, fun x hx c hc => ?_⟩
    rcases List.mem_append.mp hx with hx | hx
    · exact (hdone x hx c hc).grows hgrows
    · rw [List.mem_singleton.mp hx] at hc ⊢
      exact hnew c hc
  · rintro ⟨e | ⟨⟩, u⟩ w' h'
    · exact h'
    · exact ⟨h'.1, h'.2.1, h'.2.2⟩

end Opening

/-! ### Openings, one after the other -/

section Openings
variable {db : Database Cell}

/-- **A settled database is left alone.** -/
theorem safe_settled (h : Settled db) :
    Safe exec (fun w => w = db) (fun _ w => w = db) (openSchema.run ()) db := by
  have hadd : ∀ s ∈ statements, ∀ table c, s ≠ .addColumn table c := by
    intro s hs table c
    rintro rfl
    simp [statements, create] at hs
  refine Act.safe_bind.mpr (safe_withContext ((safe_each (I := fun _ w => w = db) (J := fun w => w = db)
    ?_ rfl).mono ?_))
  · rintro done s rest w hsplit rfl
    have hs : s ∈ statements := by
      rw [hsplit]
      exact List.mem_append_right _ List.mem_cons_self
    refine ⟨rfl, fun fault => ?_⟩
    rcases fault with _ | e
    · have hexec : exec none w (.statement s) = (.ok (), w) := by
        unfold exec
        dsimp only
        rw [exec_made (h.1 s hs) (hadd s hs)]
      rw [hexec]
      exact rfl
    · exact rfl
  rintro ⟨e | ⟨⟩, u⟩ w hw
  · exact hw
  · obtain rfl : w = db := hw
    refine (safe_each (I := fun _ w' => w' = w) (J := fun w' => w' = w) ?_ rfl).mono ?_
    · rintro done entry rest w' hsplit rfl
      have hentry : entry ∈ added := by
        rw [hsplit]
        exact List.mem_append_right _ List.mem_cons_self
      refine Act.safe_bind.mpr (safe_withContext ⟨rfl, fun fault => ?_⟩)
      rcases fault with _ | e
      · -- every column is among those that are there
        refine safe_each (I := fun _ w => w = w') (J := fun w => w = w') ?_ rfl
        rintro done' c rest' w hsplit' rfl
        obtain ⟨r, hr, hname⟩ := h.2 entry hentry c (by
          rw [hsplit']
          exact List.mem_append_right _ List.mem_cons_self)
        have hthere : (w.tableInfo entry.1).contains c.name = true := by
          unfold Database.tableInfo
          rw [hr]
          exact List.contains_iff_mem.mpr hname
        unfold addMissing
        rw [if_pos hthere]
        exact rfl
      · exact rfl
    · rintro ⟨e | ⟨⟩, u⟩ w' hw'
      · exact hw'
      · exact hw'

theorem complete_of_settled (hfits : Fits schema addedTo db) (h : Settled db) {table : String}
    (ht : table ∈ schema.map Prod.fst) :
    ∃ r, db.tables table = some r ∧ ∀ c ∈ columnsOf schema table, c.name ∈ r.names := by
  have hall : ∀ table ∈ schema.map Prod.fst, create table ∈ statements := by decide
  obtain ⟨r, hr⟩ := h.1 _ (hall table ht)
  refine ⟨r, hr, fun c hc => (hfits.lacking table r hr c hc).elim id fun hadded => ?_⟩
  rcases columnsOf_mem added table with hnone | hentry
  · rw [addedTo, hnone] at hadded
    cases hadded
  · obtain ⟨r', hr', hname⟩ := h.2 _ hentry c hadded
    rw [hr] at hr'
    cases hr'
    exact hname

theorem kept_run (hfits : Fits schema addedTo db) (os : List (Option String)) :
    Fits schema addedTo (run exec (openSchema.run ()) db os).2 ∧
      ∀ table, (run exec (openSchema.run ()) db os).2.view schema table = db.view schema table := by
  obtain ⟨hret, hkill⟩ := (safe_openSchema (w := (db, [])) ⟨hfits, fun _ => rfl⟩).run_trail os
  rcases hr : run exec (openSchema.run ()) db os with ⟨_ | ⟨e | ⟨⟩, u⟩, w⟩
  · have hkept := hkill w hr
    exact ⟨hkept.fits, hkept.view⟩
  · have hkept := (hret _ w hr).1
    exact ⟨hkept.fits, hkept.view⟩
  · have hkept := (hret _ w hr).1
    exact ⟨hkept.fits, hkept.view⟩

theorem kept_opened (hfits : Fits schema addedTo db) (openings : List (List (Option String))) :
    Fits schema addedTo (opened db openings) ∧
      ∀ table, (opened db openings).view schema table = db.view schema table := by
  induction openings generalizing db with
  | nil => exact ⟨hfits, fun _ => rfl⟩
  | cons os openings ih =>
    obtain ⟨hfits', hview⟩ := kept_run hfits os
    obtain ⟨hrest, hview'⟩ := ih hfits'
    exact ⟨hrest, fun table => (hview' table).trans (hview table)⟩

theorem opened_settled (h : Settled db) (openings : List (List (Option String))) : opened db openings = db := by
  induction openings with
  | nil => rfl
  | cons os openings ih =>
    obtain ⟨hret, hkill⟩ := (safe_settled h).run os
    have hsame : (run exec (openSchema.run ()) db os).2 = db := by
      rcases hr : run exec (openSchema.run ()) db os with ⟨_ | a, w⟩
      · exact hkill w hr
      · exact hret a w hr
    unfold opened at ih ⊢
    rw [List.foldl_cons, hsame]
    exact ih

/-- **Every release's database is opened**: after any openings, wherever they were cut off, an opening fails
only if the disk does; and one that succeeds finds in each table exactly the columns of the schema, reads every
row that was there, with the defaults in the columns it lacked, and leaves nothing to do. -/
theorem opened_complete {readPickle : String → Option Pickle} {t : Tables String} (hfits : Fits schema addedTo db)
    (hreads : Reads readPickle (fun table => some (db.view schema table)) t)
    (openings : List (List (Option String))) :
    (∀ os e db', run exec (openSchema.run ()) (opened db openings) os = (some (.error e, ()), db') →
      ∃ fault ∈ os, fault ≠ none) ∧
    (∃ n db', run exec (openSchema.run ()) (opened db openings) (List.replicate n none) =
      (some (.ok (), ()), db')) ∧
    ∀ os db', run exec (openSchema.run ()) (opened db openings) os = (some (.ok (), ()), db') →
      Reads readPickle (db'.selectAll schema) t ∧
      (∀ table ∈ schema.map Prod.fst, ∃ r, db'.tables table = some r ∧
        r.names.Perm ((columnsOf schema table).map Column.name)) ∧
      ∀ openings', opened db' openings' = db' := by
  obtain ⟨hfits', hview⟩ := kept_opened hfits openings
  have hsafe := safe_openSchema (w := (opened db openings, [])) ⟨hfits', fun _ => rfl⟩
  have herror : ∀ os e db', run exec (openSchema.run ()) (opened db openings) os = (some (.error e, ()), db') →
      ∃ fault ∈ os, fault ≠ none := by
    intro os e db' hr
    obtain ⟨y, hy, hfault⟩ := ((hsafe.run_trail os).1 _ db' hr).2
    exact ⟨y.2, mem_trail hy, hfault⟩
  refine ⟨herror, ?_, fun os db' hr => ?_⟩
  · have hreturns : ∃ n r db', run exec (openSchema.run ()) (opened db openings) ((List.range n).map fun _ => none) =
        (some r, db') := run_returns _ _ fun _ => none
    obtain ⟨n, ⟨e | ⟨⟩, u⟩, db', hr⟩ := hreturns
    · rw [List.map_const', List.length_range] at hr
      obtain ⟨fault, hmem, hfault⟩ := herror _ e db' hr
      exact absurd (List.eq_of_mem_replicate hmem) hfault
    · rw [List.map_const', List.length_range] at hr
      exact ⟨n, db', hr⟩
  · obtain ⟨hkept, hsettled⟩ := (hsafe.run_trail os).1 _ db' hr
    have hcomplete : ∀ table ∈ schema.map Prod.fst,
        ∃ r, db'.tables table = some r ∧ ∀ c ∈ columnsOf schema table, c.name ∈ r.names :=
      fun table ht => complete_of_settled hkept.fits hsettled ht
    have hselect : ∀ table ∈ schema.map Prod.fst, db'.selectAll schema table = some (db.view schema table) := by
      intro table ht
      obtain ⟨r, hr, hnames⟩ := hcomplete table ht
      unfold Database.selectAll
      rw [← hview table, ← hkept.view table, Database.view, hr]
      exact select_of_complete hnames
    refine ⟨⟨?_, ?_, ?_, ?_, ?_, ?_⟩, fun table ht => ?_, fun openings' => opened_settled hsettled openings'⟩
    · rw [hselect "meta" (by decide)]
      exact hreads.metas
    · rw [hselect "room" (by decide)]
      exact hreads.rooms
    · rw [hselect "message" (by decide)]
      exact hreads.messages
    · rw [hselect "pickle" (by decide)]
      exact hreads.pickles
    · rw [hselect "edit" (by decide)]
      exact hreads.edits
    · rw [hselect "member" (by decide)]
      exact hreads.members
    · obtain ⟨r, hr, hnames⟩ := hcomplete table ht
      refine ⟨r, hr, (List.perm_ext_iff_of_nodup r.distinct (distinct_schema table)).mpr fun name => ?_⟩
      refine ⟨hkept.fits.known table r hr name, fun hmem => ?_⟩
      obtain ⟨c, hc, rfl⟩ := List.mem_map.mp hmem
      exact hnames c hc

/-- A message table from before ciphertexts were kept. -/
def oldMessages : Relation Cell where
  columns := (columnsOf schema "message").take 8
  rows := [[some (.text "$old"), some (.text "!r"), some (.text "@a:x"), some (.integer 5), some (.text "[encrypted]"),
    some (.integer 1), some (.integer 0), some (.integer 0)]]
  distinct := by decide
  width := by decide

def oldDatabase : Database Cell := ⟨fun table => if table = "message" then some oldMessages else none, []⟩

def oldTables : Tables String :=
  { Tables.empty with
    messages := Table.empty.append "$old" ⟨"!r", "@a:x", 5, "[encrypted]", 1, 0, 0, none, none⟩ List.not_mem_nil }

/-- The old message is read, though the first opening was cut off behind the fifth statement. -/
theorem opened_complete_old : ∃ n db',
    run exec (openSchema.run ()) (opened oldDatabase [List.replicate 5 none]) (List.replicate n none) =
      (some (.ok (), ()), db') ∧ Reads (fun _ => none) (db'.selectAll schema) oldTables := by
  have hfits : Fits schema addedTo oldDatabase := by
    constructor
    · intro table r hr
      unfold oldDatabase at hr
      dsimp only at hr
      split_ifs at hr with ht
      cases hr
      subst ht
      decide
    · intro table r hr
      unfold oldDatabase at hr
      dsimp only at hr
      split_ifs at hr with ht
      cases hr
      subst ht
      decide
  have hreads : Reads (fun _ => none) (fun table => some (oldDatabase.view schema table)) oldTables :=
    ⟨rfl, rfl, rfl, rfl, rfl, rfl⟩
  have h := opened_complete hfits hreads [List.replicate 5 none]
  obtain ⟨n, db', hr⟩ := h.2.1
  exact ⟨n, db', hr, (h.2.2 _ db' hr).1⟩

end Openings

end Kmatrix.Storage.Columns
