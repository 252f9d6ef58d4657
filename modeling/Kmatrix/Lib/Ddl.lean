import Mathlib.Data.List.Nodup
import Mathlib.Data.List.Perm.Subperm
import Mathlib.Tactic.Common

/-! # Tables that gain columns

A database of tables with named columns, and the statements that make it grow: a table is made if there is
none of its name, and a column is added behind the others, which fills it with its default. `view` is how a
program that knows a schema sees rows that may lack some of its columns.

* `view_exec`: a statement of the schema leaves the view as it is.
* `select_of_complete`: where no column is missing the view is what a query answers. -/

namespace Kmatrix.Lib.Ddl

/-- **A column** as it is declared; a cell without a value is `NULL`. -/
structure Column (V : Type) where
  name : String
  notNull : Bool
  default : Option V

/-- **A table**: each row has a cell for each column. -/
structure Relation (V : Type) where
  columns : List (Column V)
  rows : List (List (Option V))
  distinct : (columns.map Column.name).Nodup
  width : ∀ row ∈ rows, row.length = columns.length

structure Database (V : Type) where
  tables : String → Option (Relation V)
  indexes : List String

inductive Statement (V : Type) where
  /-- `CREATE TABLE IF NOT EXISTS`. -/
  | createTable (table : String) (columns : List (Column V))
  /-- `CREATE INDEX IF NOT EXISTS`. -/
  | createIndex (index table : String) (columns : List String)
  /-- `ALTER TABLE … ADD COLUMN`. -/
  | addColumn (table : String) (column : Column V)

section Tables
variable {V : Type}

/-- The names of the columns. -/
def Relation.names (r : Relation V) : List String := r.columns.map Column.name

/-- The cell of a row in the column of this name. -/
def Relation.cell (r : Relation V) (row : List (Option V)) (name : String) : Option (Option V) :=
  (r.names.zip row).lookup name

/-- **How a program sees the rows** of a table: a column that is missing reads as its default. -/
def Relation.view (declared : List (Column V)) (r : Relation V) : List (List (Option V)) :=
  r.rows.map fun row => declared.map fun c => (r.cell row c.name).getD c.default

/-- `SELECT` of these columns. -/
def Relation.select (r : Relation V) (names : List String) : Option (List (List (Option V))) :=
  r.rows.mapM fun row => names.mapM (r.cell row)

/-- A table without rows. -/
def Relation.fresh (columns : List (Column V)) (h : (columns.map Column.name).Nodup) : Relation V :=
  ⟨columns, [], h, fun _ hrow => absurd hrow List.not_mem_nil⟩

/-- The table with one more column. -/
def Relation.add (r : Relation V) (c : Column V) (h : c.name ∉ r.names) : Relation V where
  columns := r.columns ++ [c]
  rows := r.rows.map fun row => row ++ [c.default]
  distinct := by
    rw [List.map_append, List.map_singleton]
    refine r.distinct.append (List.nodup_singleton _) ?_
    rw [List.disjoint_singleton]
    exact h
  width := by
    intro row hrow
    obtain ⟨old, hold, rfl⟩ := List.mem_map.mp hrow
    rw [List.length_append, List.length_append, r.width old hold, List.length_singleton, List.length_singleton]

def Database.put (db : Database V) (table : String) (r : Relation V) : Database V :=
  { db with tables := fun t => if t = table then some r else db.tables t }

/-- **What a statement does**, or why it fails. -/
def Database.exec (db : Database V) : Statement V → Except String (Database V)
  | .createTable table columns =>
    match db.tables table with
    | some _ => .ok db
    | none =>
      if h : (columns.map Column.name).Nodup then .ok (db.put table (.fresh columns h))
      else .error "duplicate column name"
  | .createIndex index table columns =>
    if index ∈ db.indexes then .ok db
    else
      match db.tables table with
      | none => .error "no such table"
      | some r =>
        if ∀ name ∈ columns, name ∈ r.names then .ok { db with indexes := db.indexes ++ [index] }
        else .error "no such column"
  | .addColumn table c =>
    match db.tables table with
    | none => .error "no such table"
    | some r =>
      if h : c.name ∈ r.names then .error "duplicate column name"
      else if c.notNull ∧ c.default.isNone then .error "Cannot add a NOT NULL column with default value NULL"
      else .ok (db.put table (r.add c h))

/-- `PRAGMA table_info`: the names of the columns, none of a table that is missing. -/
def Database.tableInfo (db : Database V) (table : String) : List String :=
  ((db.tables table).map Relation.names).getD []

end Tables

/-! ### The cells of a row -/

section Cells
variable {V : Type} {r : Relation V} {c : Column V} {row : List (Option V)} {name : String}

theorem lookup_zip_isSome {names : List String} (hlen : row.length = names.length) (h : name ∈ names) :
    ((names.zip row).lookup name).isSome := by
  induction names generalizing row with
  | nil => cases h
  | cons n names ih =>
    obtain ⟨v, row, rfl⟩ := List.exists_cons_of_length_eq_add_one hlen
    rw [List.zip_cons_cons, List.lookup_cons]
    rcases hn : name == n with _ | _
    · have hne : name ≠ n := by simpa using hn
      exact ih (by simpa using hlen) (List.mem_of_ne_of_mem hne h)
    · rfl

theorem lookup_zip_none {names : List String} (h : name ∉ names) : (names.zip row).lookup name = none := by
  rw [List.lookup_eq_none_iff]
  rintro ⟨n, v⟩ hmem
  have hn : n ∈ names := (List.of_mem_zip hmem).1
  have hne : name ≠ n := fun heq => h (heq ▸ hn)
  simpa using hne

theorem cell_isSome (hrow : row ∈ r.rows) (h : name ∈ r.names) : (r.cell row name).isSome := by
  refine lookup_zip_isSome ?_ h
  unfold Relation.names
  rw [List.length_map]
  exact r.width row hrow

theorem cell_none (h : name ∉ r.names) : r.cell row name = none := lookup_zip_none h

theorem names_add (h : c.name ∉ r.names) : (r.add c h).names = r.names ++ [c.name] := by
  unfold Relation.names Relation.add
  rw [List.map_append, List.map_singleton]

/-- The cells of a table that has gained a column: the old ones, and the default. -/
theorem cell_add (h : c.name ∉ r.names) (hrow : row ∈ r.rows) :
    (r.add c h).cell (row ++ [c.default]) name = if name = c.name then some c.default else r.cell row name := by
  have hlen : r.names.length = row.length := by
    unfold Relation.names
    rw [List.length_map, r.width row hrow]
  unfold Relation.cell
  rw [names_add, List.zip_append hlen, List.lookup_append]
  split_ifs with hname
  · rw [hname, lookup_zip_none h]
    simp
  · have hne : (name == c.name) = false := beq_eq_false_iff_ne.mpr hname
    simp [List.lookup_cons, hne]

/-- **A column that is added is seen as before.** -/
theorem view_add {declared : List (Column V)} (h : c.name ∉ r.names)
    (hdeclared : ∀ d ∈ declared, d.name = c.name → d.default = c.default) :
    (r.add c h).view declared = r.view declared := by
  unfold Relation.view
  have hrows : (r.add c h).rows = r.rows.map fun row => row ++ [c.default] := rfl
  rw [hrows, List.map_map]
  refine List.map_congr_left fun row hrow => List.map_congr_left fun d hd => ?_
  dsimp only [Function.comp_apply]
  rw [cell_add h hrow]
  split_ifs with hname
  · rw [hname, cell_none h, Option.getD_some, Option.getD_none, hdeclared d hd hname]
  · rfl

theorem mapM_some {α β : Type} {f : α → Option β} {g : α → β} : ∀ {l : List α}, (∀ a ∈ l, f a = some (g a)) →
    l.mapM f = some (l.map g)
  | [], _ => rfl
  | a :: l, h => by
    rw [List.mapM_cons, h a List.mem_cons_self, mapM_some fun b hb => h b (List.mem_cons_of_mem _ hb)]
    rfl

/-- **Where no column is missing the view is what is selected.** -/
theorem select_of_complete {declared : List (Column V)} (h : ∀ c ∈ declared, c.name ∈ r.names) :
    r.select (declared.map Column.name) = some (r.view declared) := by
  refine mapM_some fun row hrow => ?_
  rw [mapM_some (g := fun name => (r.cell row name).getD none)]
  · rw [List.map_map]
    refine congrArg some (List.map_congr_left fun c hc => ?_)
    obtain ⟨v, hv⟩ := Option.isSome_iff_exists.mp (cell_isSome hrow (h c hc))
    dsimp only [Function.comp_apply]
    rw [hv, Option.getD_some, Option.getD_some]
  · intro name hname
    obtain ⟨c, hc, rfl⟩ := List.mem_map.mp hname
    obtain ⟨v, hv⟩ := Option.isSome_iff_exists.mp (cell_isSome hrow (h c hc))
    rw [hv, Option.getD_some]

end Cells

/-! ### The schema of a program -/

section Schema
variable {V : Type} (schema : List (String × List (Column V)))

/-- The columns a program knows of a table. -/
def columnsOf (table : String) : List (Column V) := (schema.lookup table).getD []

theorem columnsOf_mem (table : String) : columnsOf schema table = [] ∨ (table, columnsOf schema table) ∈ schema := by
  unfold columnsOf
  rcases h : schema.lookup table with _ | columns
  · exact Or.inl rfl
  · obtain ⟨before, after, hsplit, -⟩ := List.lookup_eq_some_iff.mp h
    refine Or.inr ?_
    rw [hsplit, Option.getD_some]
    exact List.mem_append_right _ List.mem_cons_self

/-- **How a program sees a database.** -/
def Database.view (db : Database V) (table : String) : List (List (Option V)) :=
  ((db.tables table).map (Relation.view (columnsOf schema table))).getD []

/-- `SELECT` of all the columns that the program knows of a table. -/
def Database.selectAll (db : Database V) (table : String) : Option (List (List (Option V))) :=
  (db.tables table).bind fun r => r.select ((columnsOf schema table).map Column.name)

/-- **A statement of the schema.** -/
inductive Statement.Of : Statement V → Prop
  | createTable (table : String) : Of (.createTable table (columnsOf schema table))
  | createIndex (index table : String) (columns : List String) : Of (.createIndex index table columns)
  | addColumn {table : String} {c : Column V} (hc : c ∈ columnsOf schema table) : Of (.addColumn table c)

/-- What a database may be before a program opens it: its tables have no columns that the program does not
know, and lack none but those that are `added`. -/
structure Fits (added : String → List (Column V)) (db : Database V) : Prop where
  known : ∀ table r, db.tables table = some r → ∀ name ∈ r.names, name ∈ (columnsOf schema table).map Column.name
  lacking : ∀ table r, db.tables table = some r → ∀ c ∈ columnsOf schema table, c.name ∈ r.names ∨ c ∈ added table

/-- **A table is complete**: it is there, with all the columns. -/
def Complete (db : Database V) (table : String) : Prop :=
  ∃ r, db.tables table = some r ∧ ∀ c ∈ columnsOf schema table, c.name ∈ r.names

end Schema

section Steps
variable {V : Type} {schema : List (String × List (Column V))} {added : String → List (Column V)}
  {db db' : Database V} {s : Statement V}

theorem put_same (db : Database V) (table : String) (r : Relation V) : (db.put table r).tables table = some r :=
  if_pos rfl

theorem put_other {table t : String} (r : Relation V) (h : t ≠ table) : (db.put table r).tables t = db.tables t :=
  if_neg h

/-- **What a statement is for** is there. -/
def Made (db : Database V) : Statement V → Prop
  | .createTable table _ => ∃ r, db.tables table = some r
  | .createIndex index _ _ => index ∈ db.indexes
  | .addColumn table c => ∃ r, db.tables table = some r ∧ c.name ∈ r.names

/-- **What a statement can do**: make a table, an index or a column, or find what it is for. -/
inductive Did (db : Database V) : Statement V → Database V → Prop
  | table {table : String} {columns : List (Column V)} (h : (columns.map Column.name).Nodup)
      (hnone : db.tables table = none) : Did db (.createTable table columns) (db.put table (.fresh columns h))
  | index (index table : String) (columns : List String) :
      Did db (.createIndex index table columns) { db with indexes := db.indexes ++ [index] }
  | column {table : String} {c : Column V} {r : Relation V} (hr : db.tables table = some r) (h : c.name ∉ r.names) :
      Did db (.addColumn table c) (db.put table (r.add c h))
  | found {s : Statement V} (h : Made db s) : Did db s db

theorem did_of_exec (h : db.exec s = .ok db') : Did db s db' := by
  rcases s with ⟨table, columns⟩ | ⟨index, table, columns⟩ | ⟨table, c⟩
  · unfold Database.exec at h
    dsimp only at h
    split at h
    · rename_i r hr
      cases h
      exact .found ⟨r, hr⟩
    · rename_i hnone
      split_ifs at h with hdistinct
      cases h
      exact .table hdistinct hnone
  · unfold Database.exec at h
    dsimp only at h
    split_ifs at h with hindex
    · cases h
      exact .found hindex
    · split at h
      · cases h
      · split_ifs at h
        cases h
        exact .index index table columns
  · unfold Database.exec at h
    dsimp only at h
    split at h
    · cases h
    · rename_i r hr
      split_ifs at h with hname hnull
      cases h
      exact .column hr hname

/-- **A statement of the schema leaves the view as it is.** -/
theorem view_exec (hdistinct : ∀ table, ((columnsOf schema table).map Column.name).Nodup) (hs : s.Of schema)
    (h : db.exec s = .ok db') (t : String) : db'.view schema t = db.view schema t := by
  unfold Database.view
  rcases did_of_exec h with @⟨table, columns, hnodup, hnone⟩ | ⟨index, table, columns⟩ |
    @⟨table, c, r, hr, hname⟩ | -
  · by_cases ht : t = table
    · subst ht
      rw [put_same, hnone]
      rfl
    · rw [put_other _ ht]
  · rfl
  · by_cases ht : t = table
    · subst ht
      have hc : c ∈ columnsOf schema t := by
        cases hs
        assumption
      rw [put_same, hr, Option.map_some, Option.map_some, view_add]
      intro d hd heq
      rw [List.inj_on_of_nodup_map (hdistinct t) hd hc heq]
    · rw [put_other _ ht]
  · rfl

/-- **Nothing is taken away**, and columns are added behind the others. -/
structure Grows (db db' : Database V) : Prop where
  tables : ∀ table r, db.tables table = some r → ∃ r', db'.tables table = some r' ∧ r.names <+: r'.names
  indexes : ∀ index ∈ db.indexes, index ∈ db'.indexes

theorem Grows.refl (db : Database V) : Grows db db := ⟨fun _ r h => ⟨r, h, List.prefix_refl _⟩, fun _ h => h⟩

theorem Grows.trans {db'' : Database V} (h : Grows db db') (h' : Grows db' db'') : Grows db db'' := by
  refine ⟨fun table r hr => ?_, fun index hi => h'.indexes index (h.indexes index hi)⟩
  obtain ⟨r', hr', hbegins⟩ := h.tables table r hr
  obtain ⟨r'', hr'', hbegins'⟩ := h'.tables table r' hr'
  exact ⟨r'', hr'', hbegins.trans hbegins'⟩

/-- A table that is put where there was none, or a longer one. -/
theorem grows_put {table : String} {r' : Relation V}
    (h : ∀ r, db.tables table = some r → r.names <+: r'.names) : Grows db (db.put table r') := by
  refine ⟨fun t r hr => ?_, fun _ hi => hi⟩
  by_cases ht : t = table
  · subst ht
    exact ⟨r', put_same _ _ _, h r hr⟩
  · exact ⟨r, by rw [put_other _ ht, hr], List.prefix_refl _⟩

theorem grows_exec (h : db.exec s = .ok db') : Grows db db' := by
  rcases did_of_exec h with @⟨table, columns, hnodup, hnone⟩ | ⟨index, table, columns⟩ |
    @⟨table, c, r, hr, hname⟩ | -
  · refine grows_put fun r hr => ?_
    rw [hnone] at hr
    cases hr
  · exact ⟨fun t r hr => ⟨r, hr, List.prefix_refl _⟩, fun i hi => List.mem_append_left _ hi⟩
  · refine grows_put fun r' hr' => ?_
    rw [hr] at hr'
    cases hr'
    rw [names_add]
    exact List.prefix_append _ _
  · exact Grows.refl db

theorem Made.grows (h : Made db s) (hgrows : Grows db db') : Made db' s := by
  rcases s with ⟨table, columns⟩ | ⟨index, table, columns⟩ | ⟨table, c⟩
  · obtain ⟨r, hr⟩ := h
    obtain ⟨r', hr', -⟩ := hgrows.tables table r hr
    exact ⟨r', hr'⟩
  · exact hgrows.indexes index h
  · obtain ⟨r, hr, hname⟩ := h
    obtain ⟨r', hr', hbegins⟩ := hgrows.tables table r hr
    exact ⟨r', hr', hbegins.subset hname⟩

theorem made_exec (h : db.exec s = .ok db') : Made db' s := by
  rcases did_of_exec h with @⟨table, columns, hnodup, hnone⟩ | ⟨index, table, columns⟩ |
    @⟨table, c, r, hr, hname⟩ | hmade
  · exact ⟨_, put_same _ _ _⟩
  · exact List.mem_append_right _ (List.mem_singleton_self _)
  · refine ⟨_, put_same _ _ _, ?_⟩
    rw [names_add]
    exact List.mem_append_right _ (List.mem_singleton_self _)
  · exact hmade

theorem fits_exec (hs : s.Of schema) (hfits : Fits schema added db) (h : db.exec s = .ok db') :
    Fits schema added db' := by
  have hput : ∀ {table r}, (∀ name ∈ r.names, name ∈ (columnsOf schema table).map Column.name) →
      (∀ c ∈ columnsOf schema table, c.name ∈ r.names ∨ c ∈ added table) →
        Fits schema added (db.put table r) := by
    intro table r hknown hlacking
    refine ⟨fun t r' ht => ?_, fun t r' ht => ?_⟩
    · by_cases hsame : t = table
      · subst hsame
        rw [put_same] at ht
        cases ht
        exact hknown
      · exact hfits.known t r' (by rwa [put_other _ hsame] at ht)
    · by_cases hsame : t = table
      · subst hsame
        rw [put_same] at ht
        cases ht
        exact hlacking
      · exact hfits.lacking t r' (by rwa [put_other _ hsame] at ht)
  rcases did_of_exec h with @⟨table, columns, hnodup, hnone⟩ | ⟨index, table, columns⟩ |
    @⟨table, c, r, hr, hname⟩ | -
  · cases hs
    exact hput (fun name hmem => hmem) fun c hc => Or.inl (List.mem_map_of_mem hc)
  · exact ⟨hfits.known, hfits.lacking⟩
  · have hc : c ∈ columnsOf schema table := by
      cases hs
      assumption
    refine hput (fun name hmem => ?_) fun d hd => ?_
    · rw [names_add, List.mem_append, List.mem_singleton] at hmem
      rcases hmem with hmem | rfl
      · exact hfits.known table r hr name hmem
      · exact List.mem_map_of_mem hc
    · rw [names_add, List.mem_append]
      exact (hfits.lacking table r hr d hd).imp_left Or.inl
  · exact hfits

/-! #### Statements that do not fail -/

theorem exec_createTable (table : String) {columns : List (Column V)} (h : (columns.map Column.name).Nodup) :
    ∃ db', db.exec (.createTable table columns) = .ok db' := by
  unfold Database.exec
  dsimp only
  split
  · exact ⟨_, rfl⟩
  · rw [dif_pos h]
    exact ⟨_, rfl⟩

theorem exec_createIndex (index : String) {table : String} {columns : List String} {r : Relation V}
    (hr : db.tables table = some r) (h : ∀ name ∈ columns, name ∈ r.names) :
    ∃ db', db.exec (.createIndex index table columns) = .ok db' := by
  unfold Database.exec
  dsimp only
  split_ifs
  · exact ⟨_, rfl⟩
  · rw [hr]
    dsimp only
    rw [if_pos h]
    exact ⟨_, rfl⟩

theorem exec_addColumn {table : String} {c : Column V} {r : Relation V} (hr : db.tables table = some r)
    (hname : c.name ∉ r.names) (hnull : ¬ (c.notNull ∧ c.default.isNone)) :
    db.exec (.addColumn table c) = .ok (db.put table (r.add c hname)) := by
  unfold Database.exec
  dsimp only
  rw [hr]
  dsimp only
  rw [dif_neg hname, if_neg hnull]

/-- A table or an index that is there is not made again. -/
theorem exec_made (h : Made db s) (hs : ∀ table c, s ≠ .addColumn table c) : db.exec s = .ok db := by
  rcases s with ⟨table, columns⟩ | ⟨index, table, columns⟩ | ⟨table, c⟩
  · obtain ⟨r, hr⟩ := h
    unfold Database.exec
    dsimp only
    rw [hr]
  · exact if_pos h
  · exact absurd rfl (hs table c)

end Steps

end Kmatrix.Lib.Ddl
