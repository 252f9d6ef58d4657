import Kmatrix.Lib.Keyed

/-! # Rewriting a table in chunks

A table too large to hold in memory is rewritten by a cursor: read the next `chunk` rows above the
cursor in rowid order, rewrite each of them, move the cursor to the last rowid read, and stop at the
first empty chunk. `f` looks at one row and threads a state; it may fail, it may leave the row alone,
or it may update it.

* `walk` terminates: each turn leaves fewer rows above the cursor.
* `walk_spec`: with a positive chunk size a walk that does not fail has looked at exactly the rows
  above the cursor it was started at, each once and as it was before the walk. -/

namespace Kmatrix.Lib.Walk

open Kmatrix.Lib.Keyed

variable {κ ρ σ ε : Type}

/-- What `f` did with the row `r`: `w` is what it left behind. -/
def Puts (f : σ → Row κ ρ → Except ε (Option (σ × (ρ → ρ)))) (r : Row κ ρ) (w : ρ) : Prop :=
  ∃ s, (f s r = .ok none ∧ w = r.val) ∨ ∃ p, f s r = .ok (some p) ∧ w = p.2 r.val

/-- `UPDATE … WHERE rowid = r.rowid`. -/
def setRowid (t : Table κ ρ) (r : Row κ ρ) (u : ρ → ρ) : Table κ ρ :=
  t.mapVal fun j _ w => if j = r.rowid then u w else w

/-- `UPDATE … WHERE key = r.key`. -/
def setKey [DecidableEq κ] (t : Table κ ρ) (r : Row κ ρ) (u : ρ → ρ) : Table κ ρ :=
  t.modify r.key u

/-- One row, read beforehand, rewritten by `upd`. -/
def rewriteRow (upd : Table κ ρ → Row κ ρ → (ρ → ρ) → Table κ ρ)
    (f : σ → Row κ ρ → Except ε (Option (σ × (ρ → ρ)))) (st : σ × Table κ ρ) (r : Row κ ρ) :
    Except ε (σ × Table κ ρ) :=
  match f st.1 r with
  | .error e => .error e
  | .ok none => .ok st
  | .ok (some p) => .ok (p.1, upd st.2 r p.2)

/-- The rows `rs`, read beforehand, rewritten in turn. -/
def rewriteRows (upd : Table κ ρ → Row κ ρ → (ρ → ρ) → Table κ ρ)
    (f : σ → Row κ ρ → Except ε (Option (σ × (ρ → ρ)))) :
    σ × Table κ ρ → List (Row κ ρ) → Except ε (σ × Table κ ρ)
  | st, [] => .ok st
  | st, r :: rs =>
    match rewriteRow upd f st r with
    | .error e => .error e
    | .ok st => rewriteRows upd f st rs

/-- `SELECT … WHERE rowid > after ORDER BY rowid LIMIT chunk`. -/
def chunkFrom (t : Table κ ρ) (after : ℤ) (chunk : ℕ) : List (Row κ ρ) :=
  (t.rows.filter fun r => after < r.rowid).take chunk

/-- How many rows are above the cursor. -/
def above (t : Table κ ρ) (after : ℤ) : ℕ := (t.rows.filter fun r => after < r.rowid).length

variable {upd : Table κ ρ → Row κ ρ → (ρ → ρ) → Table κ ρ}
  {f : σ → Row κ ρ → Except ε (Option (σ × (ρ → ρ)))}

/-- `upd` changes the row it is given and no other. -/
def Updates (upd : Table κ ρ → Row κ ρ → (ρ → ρ) → Table κ ρ) : Prop :=
  ∀ t r u, r ∈ t.rows → upd t r u = setRowid t r u

/-! ### One row -/

theorem rowids_nodup (t : Table κ ρ) : (t.rows.map Row.rowid).Nodup := by
  rw [List.Nodup, List.pairwise_map]
  exact t.sorted.imp fun h => ne_of_lt h

theorem rowid_inj {t : Table κ ρ} {a b : Row κ ρ} (ha : a ∈ t.rows) (hb : b ∈ t.rows)
    (h : a.rowid = b.rowid) : a = b :=
  List.inj_on_of_nodup_map (rowids_nodup t) ha hb h

theorem key_inj {t : Table κ ρ} {a b : Row κ ρ} (ha : a ∈ t.rows) (hb : b ∈ t.rows)
    (h : a.key = b.key) : a = b :=
  List.inj_on_of_nodup_map t.nodup ha hb h

theorem updates_setRowid : Updates (setRowid : Table κ ρ → _) := fun _ _ _ _ => rfl

/-- An update by key touches the row the key was read from. -/
theorem updates_setKey [DecidableEq κ] : Updates (setKey : Table κ ρ → _) := by
  intro t b u hb
  refine Table.mapVal_congr fun r hr => ?_
  by_cases h : r = b
  · rw [h, if_pos rfl, if_pos rfl]
  · rw [if_neg (fun hk => h (key_inj hr hb hk)), if_neg (fun hi => h (rowid_inj hr hb hi))]

theorem rewriteRow_eq (hupd : Updates upd) {s : σ} {t : Table κ ρ} {st' : σ × Table κ ρ}
    {b : Row κ ρ} (hb : b ∈ t.rows) (h : rewriteRow upd f (s, t) b = .ok st') :
    ∃ w, Puts f b w ∧ st'.2 = setRowid t b fun _ => w := by
  unfold rewriteRow at h
  dsimp only at h
  split at h
  · cases h
  · next hf =>
    cases h
    refine ⟨b.val, ⟨s, Or.inl ⟨hf, rfl⟩⟩, ?_⟩
    refine t.mapVal_id.symm.trans (Table.mapVal_congr fun r hr => ?_)
    by_cases hi : r.rowid = b.rowid
    · rw [if_pos hi, rowid_inj hr hb hi]
    · rw [if_neg hi]
  · next p hf =>
    cases h
    refine ⟨p.2 b.val, ⟨s, Or.inr ⟨p, hf, rfl⟩⟩, (hupd t b p.2 hb).trans ?_⟩
    refine Table.mapVal_congr fun r hr => ?_
    by_cases hi : r.rowid = b.rowid
    · rw [if_pos hi, if_pos hi, rowid_inj hr hb hi]
    · rw [if_neg hi, if_neg hi]

/-! ### Several rows -/

theorem rewriteRows_cons {st st' : σ × Table κ ρ} {b : Row κ ρ} {bs : List (Row κ ρ)}
    (h : rewriteRows upd f st (b :: bs) = .ok st') :
    ∃ st1, rewriteRow upd f st b = .ok st1 ∧ rewriteRows upd f st1 bs = .ok st' := by
  unfold rewriteRows at h
  split at h
  · cases h
  · next st1 h1 => exact ⟨st1, h1, h⟩

/-- **Rows read beforehand**: exactly they are rewritten, each as it was. -/
theorem rewriteRows_spec (hupd : Updates upd) : ∀ (bs : List (Row κ ρ)) (s : σ) (t : Table κ ρ)
    (st' : σ × Table κ ρ), (∀ b ∈ bs, b ∈ t.rows) → (bs.map Row.rowid).Nodup →
    rewriteRows upd f (s, t) bs = .ok st' →
    ∃ g : ℤ → ρ → ρ, (∀ b ∈ bs, Puts f b (g b.rowid b.val)) ∧
      st'.2 = t.mapVal fun i _ v => if i ∈ bs.map Row.rowid then g i v else v
  | [], s, t, st', _, _, h => by
    cases h
    refine ⟨fun _ v => v, by simp, ?_⟩
    simp only [List.map_nil, List.not_mem_nil, if_false]
    exact t.mapVal_id.symm
  | b :: bs, s, t, st', hmem, hnd, h => by
    rw [List.map_cons, List.nodup_cons] at hnd
    obtain ⟨⟨s1, t1⟩, h1, h2⟩ := rewriteRows_cons h
    obtain ⟨w, hw, ht1⟩ := rewriteRow_eq hupd (hmem b (by simp)) h1
    have hne : ∀ b' ∈ bs, b'.rowid ≠ b.rowid := by
      intro b' hb' he
      exact hnd.1 (by rw [← he]; exact List.mem_map_of_mem hb')
    -- the rows still to come are untouched so far
    have hrest : ∀ b' ∈ bs, b' ∈ t1.rows := by
      intro b' hb'
      rw [show t1 = _ from ht1]
      unfold setRowid
      rw [Table.rows_mapVal, List.mem_map]
      refine ⟨b', hmem b' (by simp [hb']), ?_⟩
      show Row.mk b'.rowid b'.key (if b'.rowid = b.rowid then w else b'.val) = b'
      rw [if_neg (hne b' hb')]
    obtain ⟨g, hg, hst⟩ := rewriteRows_spec hupd bs s1 t1 st' hrest hnd.2 h2
    refine ⟨fun i v => if i = b.rowid then w else g i v, ?_, ?_⟩
    · intro b' hb'
      show Puts f b' (if b'.rowid = b.rowid then w else g b'.rowid b'.val)
      rcases List.mem_cons.mp hb' with rfl | hb'
      · rw [if_pos rfl]; exact hw
      · rw [if_neg (hne b' hb')]; exact hg b' hb'
    · rw [hst, show t1 = _ from ht1]
      unfold setRowid
      rw [Table.mapVal_mapVal]
      refine Table.mapVal_congr fun r _ => ?_
      dsimp only
      by_cases hi : r.rowid = b.rowid
      · rw [if_pos hi, if_neg (by rw [hi]; exact hnd.1), if_pos (by simp [hi]), if_pos hi]
      · rw [if_neg hi, if_neg hi]
        by_cases hm : r.rowid ∈ bs.map Row.rowid
        · rw [if_pos hm, if_pos (by rw [List.map_cons]; exact List.mem_cons_of_mem _ hm)]
        · rw [if_neg hm, if_neg (by
            rw [List.map_cons, List.mem_cons]
            rintro (h | h)
            · exact hi h
            · exact hm h)]

/-- **The whole table**, materialized before it is rewritten. -/
theorem rewriteRows_all (hupd : Updates upd) {s : σ} {t : Table κ ρ} {st' : σ × Table κ ρ}
    (h : rewriteRows upd f (s, t) t.rows = .ok st') :
    ∃ g : ℤ → ρ → ρ, (∀ r ∈ t.rows, Puts f r (g r.rowid r.val)) ∧
      st'.2 = t.mapVal fun i _ v => g i v := by
  obtain ⟨g, hg, hst⟩ := rewriteRows_spec hupd t.rows s t st' (fun _ hb => hb) (rowids_nodup t) h
  refine ⟨g, hg, hst.trans (Table.mapVal_congr fun r hr => ?_)⟩
  rw [if_pos (List.mem_map_of_mem hr)]

theorem rowids_rewriteRows : ∀ (bs : List (Row κ ρ)) (st st' : σ × Table κ ρ),
    rewriteRows setRowid f st bs = .ok st' → st'.2.rows.map Row.rowid = st.2.rows.map Row.rowid
  | [], st, st', h => by cases h; rfl
  | b :: bs, st, st', h => by
    obtain ⟨st1, h1, h2⟩ := rewriteRows_cons h
    rw [rowids_rewriteRows bs st1 st' h2]
    unfold rewriteRow at h1
    split at h1
    · cases h1
    · cases h1; rfl
    · cases h1
      unfold setRowid
      rw [Table.rows_mapVal, List.map_map]; rfl

/-- Only `f` fails. -/
theorem rewriteRows_error : ∀ (bs : List (Row κ ρ)) (st : σ × Table κ ρ) (e : ε),
    rewriteRows upd f st bs = .error e → ∃ s r, f s r = .error e
  | [], st, e, h => by cases h
  | b :: bs, st, e, h => by
    unfold rewriteRows at h
    split at h
    · next e' h1 =>
      cases h
      unfold rewriteRow at h1
      split at h1
      · next hf => cases h1; exact ⟨_, _, hf⟩
      · cases h1
      · cases h1
    · exact rewriteRows_error bs _ e h

/-! ### One chunk -/

theorem chunk_sublist (t : Table κ ρ) (after : ℤ) (chunk : ℕ) :
    (chunkFrom t after chunk).Sublist t.rows :=
  (List.take_sublist _ _).trans List.filter_sublist

theorem mem_of_mem_chunk {t : Table κ ρ} {after : ℤ} {chunk : ℕ} {r : Row κ ρ}
    (h : r ∈ chunkFrom t after chunk) : r ∈ t.rows ∧ after < r.rowid := by
  have h1 := List.mem_filter.mp (List.mem_of_mem_take h)
  exact ⟨h1.1, by simpa using h1.2⟩

theorem chunk_nodup (t : Table κ ρ) (after : ℤ) (chunk : ℕ) :
    ((chunkFrom t after chunk).map Row.rowid).Nodup :=
  ((chunk_sublist t after chunk).map Row.rowid).nodup (rowids_nodup t)

/-- A chunk holds every row above the cursor up to its own last one. -/
theorem mem_chunk_iff {t : Table κ ρ} {after : ℤ} {chunk : ℕ} {last : Row κ ρ}
    (hl : (chunkFrom t after chunk).getLast? = some last) {r : Row κ ρ} (hr : r ∈ t.rows) :
    r ∈ chunkFrom t after chunk ↔ after < r.rowid ∧ r.rowid ≤ last.rowid := by
  have hlast : last ∈ chunkFrom t after chunk := List.mem_of_getLast? hl
  have hsorted := t.sorted.sublist (chunk_sublist t after chunk)
  constructor
  · intro h
    refine ⟨(mem_of_mem_chunk h).2, ?_⟩
    obtain ⟨init, hi⟩ := List.getLast?_eq_some_iff.mp hl
    rw [hi] at h hsorted
    rcases List.mem_append.mp h with h1 | h1
    · exact ((List.pairwise_append.mp hsorted).2.2 r h1 last (by simp)).le
    · rw [List.mem_singleton.mp h1]
  · rintro ⟨h1, h2⟩
    have hf : r ∈ t.rows.filter fun r => after < r.rowid :=
      List.mem_filter.mpr ⟨hr, by simpa using h1⟩
    rw [← List.take_append_drop chunk (t.rows.filter _)] at hf
    rcases List.mem_append.mp hf with h | h
    · exact h
    · -- a row behind the chunk lies above its last row
      have hs := t.sorted.sublist (List.filter_sublist (p := fun r => decide (after < r.rowid)))
      rw [← List.take_append_drop chunk (t.rows.filter _)] at hs
      have := (List.pairwise_append.mp hs).2.2 last hlast r h
      omega

theorem mem_chunk_rowid_iff {t : Table κ ρ} {after : ℤ} {chunk : ℕ} {last : Row κ ρ}
    (hl : (chunkFrom t after chunk).getLast? = some last) {r : Row κ ρ} (hr : r ∈ t.rows) :
    r.rowid ∈ (chunkFrom t after chunk).map Row.rowid ↔
      after < r.rowid ∧ r.rowid ≤ last.rowid := by
  rw [← mem_chunk_iff hl hr]
  constructor
  · intro h
    obtain ⟨r', hr', he⟩ := List.mem_map.mp h
    rwa [← rowid_inj (mem_of_mem_chunk hr').1 hr he]
  · intro h; exact List.mem_map_of_mem h

theorem above_eq (t : Table κ ρ) (after : ℤ) :
    above t after = ((t.rows.map Row.rowid).filter fun i => after < i).length := by
  unfold above
  rw [List.filter_map, List.length_map]; rfl

/-- A turn of the walk leaves fewer rows above the cursor. -/
theorem above_lt {s : σ} {t : Table κ ρ} {after : ℤ} {chunk : ℕ} {last : Row κ ρ}
    {st' : σ × Table κ ρ} (hl : (chunkFrom t after chunk).getLast? = some last)
    (h : rewriteRows setRowid f (s, t) (chunkFrom t after chunk) = .ok st') :
    above st'.2 last.rowid < above t after := by
  rw [above_eq, rowids_rewriteRows _ _ _ h, ← above_eq]
  have hlast := mem_of_mem_chunk (List.mem_of_getLast? hl)
  have hsub : (t.rows.filter fun r => last.rowid < r.rowid) =
      (t.rows.filter fun r => after < r.rowid).filter fun r => last.rowid < r.rowid := by
    rw [List.filter_filter]
    refine List.filter_congr fun r _ => ?_
    by_cases h : last.rowid < r.rowid
    · have : after < r.rowid := by omega
      simp [h, this]
    · simp [h]
  unfold above
  rw [hsub, List.length_filter_lt_length_iff_exists]
  exact ⟨last, List.mem_filter.mpr ⟨hlast.1, by simpa using hlast.2⟩, by simp⟩

/-! ### The walk -/

/-- **The walk** from the cursor `after`. -/
def walk (chunk : ℕ) (f : σ → Row κ ρ → Except ε (Option (σ × (ρ → ρ)))) (s : σ) (t : Table κ ρ)
    (after : ℤ) : Except ε (σ × Table κ ρ) :=
  match _hl : (chunkFrom t after chunk).getLast? with
  | none => .ok (s, t)
  | some last =>
    match _h : rewriteRows setRowid f (s, t) (chunkFrom t after chunk) with
    | .error e => .error e
    | .ok st => walk chunk f st.1 st.2 last.rowid
termination_by above t after
decreasing_by exact above_lt _hl _h

theorem walk_error {chunk : ℕ} (s : σ) (t : Table κ ρ) (after : ℤ) (e : ε)
    (h : walk chunk f s t after = .error e) : ∃ s r, f s r = .error e := by
  induction s, t, after using walk.induct chunk f with
  | case1 s t after hl =>
    unfold walk at h
    split at h
    · cases h
    · next hl' => rw [hl] at hl'; cases hl'
  | case2 s t after last hl e' he =>
    unfold walk at h
    split at h
    · cases h
    · split at h
      · next he' => cases h; exact rewriteRows_error _ _ _ he'
      · next hst => rw [he] at hst; cases hst
  | case3 s t after last hl st hst ih =>
    unfold walk at h
    split at h
    · cases h
    · next last' hl' =>
      rw [hl] at hl'
      cases hl'
      split at h
      · next he' => rw [hst] at he'; cases he'
      · next st1 hst1 =>
        rw [hst] at hst1
        cases hst1
        exact ih h

/-- **Exactly the rows above the cursor are rewritten**, each as it was before the walk. -/
theorem walk_spec {chunk : ℕ} (hc : 0 < chunk) (s : σ) (t : Table κ ρ) (after : ℤ)
    (st' : σ × Table κ ρ) (h : walk chunk f s t after = .ok st') :
    ∃ g : ℤ → ρ → ρ, (∀ r ∈ t.rows, after < r.rowid → Puts f r (g r.rowid r.val)) ∧
      st'.2 = t.mapVal fun i _ v => if after < i then g i v else v := by
  induction s, t, after using walk.induct chunk f with
  | case1 s t after hl =>
    -- no row is above the cursor
    have hnil : ∀ r ∈ t.rows, ¬ after < r.rowid := by
      have htake := List.getLast?_eq_none_iff.mp hl
      unfold chunkFrom at htake
      rcases List.take_eq_nil_iff.mp htake with h | h
      · omega
      · intro r hr
        simpa using List.filter_eq_nil_iff.mp h r hr
    have hst : st' = (s, t) := by
      unfold walk at h
      split at h
      · cases h; rfl
      · next hl' => rw [hl] at hl'; cases hl'
    subst hst
    refine ⟨fun _ v => v, fun r hr hlt => absurd hlt (hnil r hr), ?_⟩
    refine t.mapVal_id.symm.trans (Table.mapVal_congr fun r hr => ?_)
    rw [if_neg (hnil r hr)]
  | case2 s t after last hl e he =>
    exfalso
    unfold walk at h
    split at h
    · next hl' => rw [hl] at hl'; cases hl'
    · split at h
      · cases h
      · next he' => rw [he] at he'; cases he'
  | case3 s t after last hl st hst ih =>
    have hstep : walk chunk f st.1 st.2 last.rowid = .ok st' := by
      unfold walk at h
      split at h
      · next hl' => rw [hl] at hl'; cases hl'
      · next last' hl' =>
        rw [hl] at hl'
        cases hl'
        split at h
        · cases h
        · next st1 hst1 =>
          rw [hst] at hst1
          cases hst1
          exact h
    obtain ⟨g1, hg1, hwalk⟩ := ih hstep
    obtain ⟨g0, hg0, hrows⟩ := rewriteRows_spec updates_setRowid (chunkFrom t after chunk) s t st
      (fun b hb => (mem_of_mem_chunk hb).1) (chunk_nodup t after chunk) hst
    have hlt : after < last.rowid := (mem_of_mem_chunk (List.mem_of_getLast? hl)).2
    refine ⟨fun i v => if last.rowid < i then g1 i v else g0 i v, ?_, ?_⟩
    · intro r hr hafter
      show Puts f r (if last.rowid < r.rowid then g1 r.rowid r.val else g0 r.rowid r.val)
      by_cases hlast : last.rowid < r.rowid
      · rw [if_pos hlast]
        -- behind the chunk, so still as it was
        have hr1 : r ∈ st.2.rows := by
          rw [hrows, Table.rows_mapVal, List.mem_map]
          refine ⟨r, hr, ?_⟩
          show Row.mk r.rowid r.key (if r.rowid ∈ _ then _ else r.val) = r
          rw [if_neg (fun h => by have := (mem_chunk_rowid_iff hl hr).mp h; omega)]
        exact hg1 r hr1 hlast
      · rw [if_neg hlast]
        exact hg0 r ((mem_chunk_iff hl hr).mpr ⟨hafter, by omega⟩)
    · rw [hwalk, hrows, Table.mapVal_mapVal]
      refine Table.mapVal_congr fun r hr => ?_
      have hmem := mem_chunk_rowid_iff hl hr
      dsimp only
      by_cases hlast : last.rowid < r.rowid
      · rw [if_pos hlast, if_neg (fun h => by have := hmem.mp h; omega), if_pos (by omega),
          if_pos hlast]
      · rw [if_neg hlast]
        by_cases hafter : after < r.rowid
        · rw [if_pos (hmem.mpr ⟨hafter, by omega⟩), if_pos hafter, if_neg hlast]
        · rw [if_neg (fun h => hafter (hmem.mp h).1), if_neg hafter]

end Kmatrix.Lib.Walk
