import Mathlib.Data.List.Nodup
import Mathlib.Data.List.Perm.Basic
import Mathlib.Data.List.Sort
import Mathlib.Tactic.Common

/-! # Keyed tables

A table of an SQL database with a primary key beside its rowid: the rows in rowid order, the keys
distinct. Both facts are fields, so every operation below returns a table again.

* `upsert k v f` is `INSERT … ON CONFLICT (key) DO UPDATE`: the row with key `k` becomes `f` of what
  it was, or the row `v` is appended under a new rowid.
* `modify k f` is `UPDATE … WHERE key = k`.
* `mapVal f` rewrites the columns of every row, keys and rowids kept.

Two tables are compared by `lookup`, which forgets the rowids. Every operation has one lemma saying
what it does to `lookup` and one saying how it commutes with `mapVal`. -/

namespace Kmatrix.Lib.Keyed

/-- A row: its rowid, its primary key, its other columns. -/
structure Row (κ ρ : Type) where
  rowid : ℤ
  key : κ
  val : ρ

/-- **A table**: the rows in rowid order, no key twice. -/
@[ext]
structure Table (κ ρ : Type) where
  rows : List (Row κ ρ)
  sorted : rows.Pairwise fun a b => a.rowid < b.rowid
  nodup : (rows.map Row.key).Nodup

namespace Table

variable {κ ρ σ τ : Type}

/-- The table without rows. -/
def empty : Table κ ρ := ⟨[], List.Pairwise.nil, List.nodup_nil⟩

/-- The rowid the next insert takes: one above the largest, `1` in an empty table. -/
def nextRowid (t : Table κ ρ) : ℤ :=
  match t.rows.getLast? with
  | none => 1
  | some r => r.rowid + 1

theorem rowid_lt_next (t : Table κ ρ) {r : Row κ ρ} (hr : r ∈ t.rows) : r.rowid < t.nextRowid := by
  obtain ⟨rs, hs, hn⟩ := t
  simp only [nextRowid] at hr ⊢
  rcases List.eq_nil_or_concat rs with rfl | ⟨init, last, rfl⟩
  · simp at hr
  · simp only [List.concat_eq_append, List.getLast?_append, List.getLast?_singleton,
      Option.some_or] at hr ⊢
    rw [List.concat_eq_append, List.pairwise_append] at hs
    rcases List.mem_append.mp hr with h | h
    · have := hs.2.2 r h last (by simp)
      omega
    · rw [List.mem_singleton.mp h]; omega

/-- The columns of a row rewritten, its rowid and key kept. -/
def Row.mapVal (f : ℤ → κ → ρ → σ) (r : Row κ ρ) : Row κ σ := ⟨r.rowid, r.key, f r.rowid r.key r.val⟩

/-- **Every row rewritten**, its rowid and key kept. -/
def mapVal (f : ℤ → κ → ρ → σ) (t : Table κ ρ) : Table κ σ where
  rows := t.rows.map (Row.mapVal f)
  sorted := by
    rw [List.pairwise_map]; exact t.sorted
  nodup := by
    rw [List.map_map]; exact t.nodup

@[simp] theorem rows_mapVal (f : ℤ → κ → ρ → σ) (t : Table κ ρ) :
    (t.mapVal f).rows = t.rows.map (Row.mapVal f) := rfl

@[simp] theorem rows_empty : (empty : Table κ ρ).rows = [] := rfl

theorem mapVal_mapVal (f : ℤ → κ → ρ → σ) (g : ℤ → κ → σ → τ) (t : Table κ ρ) :
    (t.mapVal f).mapVal g = t.mapVal fun i k v => g i k (f i k v) := by
  ext1
  simp only [rows_mapVal, List.map_map]
  rfl

theorem mapVal_congr {f g : ℤ → κ → ρ → σ} {t : Table κ ρ}
    (h : ∀ r ∈ t.rows, f r.rowid r.key r.val = g r.rowid r.key r.val) :
    t.mapVal f = t.mapVal g := by
  ext1
  simp only [rows_mapVal]
  refine List.map_congr_left fun r hr => ?_
  simp only [Row.mapVal, h r hr]

theorem mapVal_id (t : Table κ ρ) : t.mapVal (fun _ _ v => v) = t := by
  ext1
  simp only [rows_mapVal]
  exact List.map_id _

@[simp] theorem mapVal_empty (f : ℤ → κ → ρ → σ) : (empty : Table κ ρ).mapVal f = empty := rfl

theorem keys_mapVal (f : ℤ → κ → ρ → σ) (t : Table κ ρ) :
    (t.mapVal f).rows.map Row.key = t.rows.map Row.key := by
  rw [rows_mapVal, List.map_map]; rfl

theorem nextRowid_mapVal (f : ℤ → κ → ρ → σ) (t : Table κ ρ) :
    (t.mapVal f).nextRowid = t.nextRowid := by
  unfold nextRowid
  rw [rows_mapVal, List.getLast?_map]
  cases t.rows.getLast? <;> rfl

/-- A row under a new key. -/
def append (t : Table κ ρ) (k : κ) (v : ρ) (h : k ∉ t.rows.map Row.key) : Table κ ρ where
  rows := t.rows ++ [⟨t.nextRowid, k, v⟩]
  sorted := by
    rw [List.pairwise_append]
    refine ⟨t.sorted, List.pairwise_singleton _ _, ?_⟩
    intro a ha b hb
    rw [List.mem_singleton.mp hb]
    exact t.rowid_lt_next ha
  nodup := by
    rw [List.map_append, List.nodup_append]
    refine ⟨t.nodup, List.nodup_singleton _, ?_⟩
    intro a ha b hb
    obtain ⟨r, hr, rfl⟩ := List.mem_map.mp hb
    rw [List.mem_singleton.mp hr]
    intro hab
    exact h (by rw [← show a = k from hab]; exact ha)

@[simp] theorem rows_append (t : Table κ ρ) (k : κ) (v : ρ) (h : k ∉ t.rows.map Row.key) :
    (t.append k v h).rows = t.rows ++ [⟨t.nextRowid, k, v⟩] := rfl

/-- The keyed rows, in rowid order. -/
def entries (t : Table κ ρ) : List (κ × ρ) := t.rows.map fun r => (r.key, r.val)

theorem entries_keys_nodup (t : Table κ ρ) : (t.entries.map Prod.fst).Nodup := by
  unfold entries; rw [List.map_map]; exact t.nodup

section Keys
variable [DecidableEq κ]

/-- The row stored under `k`, without its rowid. -/
def lookup (t : Table κ ρ) (k : κ) : Option ρ := (t.rows.find? fun r => r.key = k).map Row.val

/-- `UPDATE … WHERE key = k`. -/
def modify (t : Table κ ρ) (k : κ) (f : ρ → ρ) : Table κ ρ :=
  t.mapVal fun _ k' v => if k' = k then f v else v

/-- **`INSERT … ON CONFLICT (key) DO UPDATE`.** -/
def upsert (t : Table κ ρ) (k : κ) (v : ρ) (f : ρ → ρ) : Table κ ρ :=
  if h : k ∈ t.rows.map Row.key then t.modify k f else t.append k v h

/-- Every row satisfies `P`. -/
def All (P : κ → ρ → Prop) (t : Table κ ρ) : Prop := ∀ k v, t.lookup k = some v → P k v

/-! ### `lookup` -/

@[simp] theorem lookup_empty (k : κ) : (empty : Table κ ρ).lookup k = none := rfl

theorem lookup_eq_none {t : Table κ ρ} {k : κ} : t.lookup k = none ↔ k ∉ t.rows.map Row.key := by
  unfold lookup
  rw [Option.map_eq_none_iff, List.find?_eq_none, List.mem_map]
  simp only [decide_eq_true_eq, not_exists, not_and]

theorem mem_keys {t : Table κ ρ} {k : κ} : k ∈ t.rows.map Row.key ↔ ∃ v, t.lookup k = some v := by
  rw [← Option.ne_none_iff_exists', Ne, lookup_eq_none, not_not]

theorem lookup_eq_some {t : Table κ ρ} {k : κ} {v : ρ} :
    t.lookup k = some v ↔ ∃ r ∈ t.rows, r.key = k ∧ r.val = v := by
  obtain ⟨rs, hs, hn⟩ := t
  unfold lookup
  dsimp only
  clear hs
  induction rs with
  | nil => simp
  | cons r rs ih =>
    simp only [List.map_cons, List.nodup_cons] at hn
    by_cases hk : r.key = k
    · rw [List.find?_cons_of_pos (by simpa using hk)]
      simp only [Option.map_some, Option.some.injEq]
      constructor
      · intro h; exact ⟨r, by simp, hk, h⟩
      · rintro ⟨r', hr', hk', hv'⟩
        rcases List.mem_cons.mp hr' with rfl | hr'
        · exact hv'
        · exact absurd (List.mem_map.mpr ⟨r', hr', by rw [hk', hk]⟩) hn.1
    · rw [List.find?_cons_of_neg (by simpa using hk), ih hn.2]
      constructor
      · rintro ⟨r', hr', h⟩; exact ⟨r', List.mem_cons_of_mem _ hr', h⟩
      · rintro ⟨r', hr', hk', hv'⟩
        rcases List.mem_cons.mp hr' with rfl | hr'
        · exact absurd hk' hk
        · exact ⟨r', hr', hk', hv'⟩

theorem lookup_of_mem {t : Table κ ρ} {r : Row κ ρ} (hr : r ∈ t.rows) :
    t.lookup r.key = some r.val := lookup_eq_some.mpr ⟨r, hr, rfl, rfl⟩

/-- A key that is there is there once. -/
theorem length_filter_key {t : Table κ ρ} {k : κ} {v : ρ} (h : t.lookup k = some v) :
    (t.rows.filter fun r => r.key = k).length = 1 := by
  have hcount : (t.rows.map Row.key).count k = 1 :=
    List.count_eq_one_of_mem t.nodup (mem_keys.mpr ⟨v, h⟩)
  rw [List.count, List.countP_map, List.countP_eq_length_filter] at hcount
  rw [← hcount]
  congr 1

theorem all_iff_rows {P : κ → ρ → Prop} {t : Table κ ρ} :
    t.All P ↔ ∀ r ∈ t.rows, P r.key r.val := by
  constructor
  · intro h r hr; exact h _ _ (lookup_of_mem hr)
  · intro h k v hv
    obtain ⟨r, hr, rfl, rfl⟩ := lookup_eq_some.mp hv
    exact h r hr

@[simp] theorem lookup_mapVal (f : κ → ρ → σ) (t : Table κ ρ) (k : κ) :
    (t.mapVal fun _ => f).lookup k = (t.lookup k).map (f k) := by
  unfold lookup
  rw [rows_mapVal, List.find?_map, Option.map_map, Option.map_map]
  cases h : t.rows.find? (fun r => r.key = k) with
  | none =>
    have h' : t.rows.find? ((fun r => decide (r.key = k)) ∘ Row.mapVal fun _ => f) = none := h
    rw [h']; rfl
  | some r =>
    have h' : t.rows.find? ((fun r => decide (r.key = k)) ∘ Row.mapVal fun _ => f) = some r := h
    have hk : r.key = k := by simpa using List.find?_some h
    rw [h']
    simp only [Option.map_some, Function.comp, Row.mapVal, hk]

@[simp] theorem lookup_modify (t : Table κ ρ) (k k' : κ) (f : ρ → ρ) :
    (t.modify k f).lookup k' = if k' = k then (t.lookup k').map f else t.lookup k' := by
  unfold modify
  rw [lookup_mapVal (fun k'' v => if k'' = k then f v else v)]
  split_ifs with h
  · rfl
  · exact Option.map_id'

theorem lookup_append (t : Table κ ρ) (k k' : κ) (v : ρ) (h : k ∉ t.rows.map Row.key) :
    (t.append k v h).lookup k' = if k' = k then some v else t.lookup k' := by
  have happ : (t.append k v h).lookup k' =
      ((t.rows.find? fun r => r.key = k').or
        (if k' = k then some ⟨t.nextRowid, k, v⟩ else none)).map Row.val := by
    unfold lookup append
    dsimp only
    rw [List.find?_append, List.find?_singleton]
    congr 2
    by_cases hk : k' = k
    · simp [hk]
    · simp [hk, Ne.symm hk]
  rw [happ]
  split_ifs with hk
  · subst hk
    have hn := lookup_eq_none.mpr h
    unfold lookup at hn
    rw [Option.map_eq_none_iff.mp hn]; rfl
  · rw [Option.or_none]; rfl

@[simp] theorem lookup_upsert (t : Table κ ρ) (k k' : κ) (v : ρ) (f : ρ → ρ) :
    (t.upsert k v f).lookup k' =
      if k' = k then some ((t.lookup k).elim v f) else t.lookup k' := by
  unfold upsert
  split
  · next h =>
    obtain ⟨w, hw⟩ := mem_keys.mp h
    rw [lookup_modify]
    split_ifs with hk
    · subst hk; rw [hw]; rfl
    · rfl
  · next h =>
    rw [lookup_append, lookup_eq_none.mpr h]; rfl

/-- Writing what is stored already changes nothing. -/
theorem upsert_self {t : Table κ ρ} {k : κ} {v w : ρ} (h : t.lookup k = some v) :
    (t.upsert k w fun _ => v) = t := by
  unfold upsert
  rw [dif_pos (mem_keys.mpr ⟨v, h⟩)]
  refine Eq.trans (mapVal_congr fun r hr => ?_) t.mapVal_id
  split_ifs with hk
  · rw [← hk, lookup_of_mem hr] at h
    exact (Option.some.inj h).symm
  · rfl

/-! ### `All` -/

theorem all_empty (P : κ → ρ → Prop) : (empty : Table κ ρ).All P := by
  intro k v h; simp at h

theorem All.modify {P : κ → ρ → Prop} {t : Table κ ρ} (h : t.All P) {k : κ} {f : ρ → ρ}
    (hf : ∀ v, t.lookup k = some v → P k v → P k (f v)) : (t.modify k f).All P := by
  intro k' v hv
  rw [lookup_modify] at hv
  split_ifs at hv with hk
  · subst hk
    obtain ⟨w, hw, rfl⟩ := Option.map_eq_some_iff.mp hv
    exact hf w hw (h _ _ hw)
  · exact h _ _ hv

theorem All.upsert {P : κ → ρ → Prop} {t : Table κ ρ} (h : t.All P) {k : κ} {v : ρ} {f : ρ → ρ}
    (hv : P k v) (hf : ∀ w, t.lookup k = some w → P k w → P k (f w)) : (t.upsert k v f).All P := by
  intro k' w hw
  rw [lookup_upsert] at hw
  split_ifs at hw with hk
  · subst hk
    cases hl : t.lookup k' with
    | none => rw [hl] at hw; cases hw; exact hv
    | some u => rw [hl] at hw; cases hw; exact hf u hl (h _ _ hl)
  · exact h _ _ hw

/-! ### Rewriting every row commutes with the operations -/

theorem modify_mapVal (f : κ → ρ → σ) (t : Table κ ρ) (k : κ) (g : ρ → ρ) (g' : σ → σ)
    (hg : ∀ v, t.lookup k = some v → f k (g v) = g' (f k v)) :
    (t.modify k g).mapVal (fun _ => f) = (t.mapVal fun _ => f).modify k g' := by
  unfold modify
  rw [mapVal_mapVal, mapVal_mapVal]
  refine mapVal_congr fun r hr => ?_
  split_ifs with hk
  · subst hk; exact hg _ (lookup_of_mem hr)
  · rfl

theorem upsert_mapVal (f : κ → ρ → σ) (t : Table κ ρ) (k : κ) (v : ρ) (g : ρ → ρ) (g' : σ → σ)
    (hg : ∀ w, t.lookup k = some w → f k (g w) = g' (f k w)) :
    (t.upsert k v g).mapVal (fun _ => f) = (t.mapVal fun _ => f).upsert k (f k v) g' := by
  by_cases h : k ∈ t.rows.map Row.key
  · have h' : k ∈ (t.mapVal fun _ => f).rows.map Row.key := by rw [keys_mapVal]; exact h
    unfold upsert
    rw [dif_pos h, dif_pos h']
    exact modify_mapVal f t k g g' hg
  · have h' : k ∉ (t.mapVal fun _ => f).rows.map Row.key := by rw [keys_mapVal]; exact h
    unfold upsert
    rw [dif_neg h, dif_neg h']
    ext1
    simp only [rows_mapVal, rows_append, nextRowid_mapVal, List.map_append]
    rfl

/-! ### Tables with the same rows -/

theorem mem_entries {t : Table κ ρ} {k : κ} {v : ρ} :
    (k, v) ∈ t.entries ↔ t.lookup k = some v := by
  rw [lookup_eq_some]
  unfold entries
  simp only [List.mem_map, Prod.mk.injEq]

end Keys

end Table

end Kmatrix.Lib.Keyed
