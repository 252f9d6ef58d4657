import Kmatrix.Lib.Walk
import Kmatrix.Storage.View

/-! # The one-time migration

`encrypt_existing` seals every covered cell of a database that has no `store_encrypted` flag, in one
transaction, and `Store::open` runs it. Statements are counted: `faults n` says that the `n`-th one
fails, and `rng (2 * n)`, `rng (2 * n + 1)` are the salts drawn for it.

* `encryptAll_recodes`: a body that runs to its end has changed nothing but covered cells without
  the prefix, and each of those into a sealed form of itself.
* `encryptExisting_spec`: the transaction is all or nothing, and what it commits reads as before. -/

namespace Kmatrix.Storage.Migrate

open Kmatrix.Lib.Keyed Kmatrix.Lib.Walk Kmatrix.Storage.Seal Kmatrix.Storage.Schema
open Kmatrix.Storage.Write Kmatrix.Storage.Read Kmatrix.Storage.Plain Kmatrix.Storage.View

/-! ### The passes -/

/-- Rows a chunk of the walk holds. -/
def chunkSize : ℕ := 512

section Passes
variable (S : CipherSuite) (master : Key) (rng : Salts) (faults : ℕ → Bool)

/-- The `n`-th statement of the transaction, named by `context` where it fails. -/
def statement (context : String) (n : ℕ) : Except String ℕ :=
  if faults n then .error context else .ok (n + 1)

/-- A cell that carries the prefix is done. -/
def done (cell : String) : Bool := startsWith cell encPrefix

/-- A cell left as it is, or sealed. -/
def sealUnlessDone (salt : Salt) (cell : String) : String :=
  if done cell then cell else sealValue S master salt cell

/-- The three secrets of `meta`. -/
def encryptMetas : List (String × String) → ℕ × Table String String →
    Except String (ℕ × Table String String)
  | [], st => .ok st
  | (key, label) :: keys, (n, t) =>
    match t.lookup key with
    | none => encryptMetas keys (n, t)
    | some value =>
      if done value then encryptMetas keys (n, t)
      else
        match statement faults ("encrypt " ++ label) n with
        | .error e => .error e
        | .ok n' =>
          encryptMetas keys (n', t.modify key fun _ => sealValue S master (rng (2 * n)) value)

def encryptRoom (n : ℕ) (r : Row String (RoomRow String)) :
    Except String (Option (ℕ × (RoomRow String → RoomRow String))) :=
  if done r.val.name && done r.val.lastPreview then .ok none
  else
    let name := sealUnlessDone S master (rng (2 * n)) r.val.name
    let preview := sealUnlessDone S master (rng (2 * n + 1)) r.val.lastPreview
    (statement faults ("encrypt room " ++ r.key) n).map fun n' =>
      some (n', fun row => { row with name := name, lastPreview := preview })

def encryptMessage (n : ℕ) (r : Row String (MessageRow String)) :
    Except String (Option (ℕ × (MessageRow String → MessageRow String))) :=
  let ciphertextDone := match r.val.ciphertext with
    | some c => done c
    | none => true
  if done r.val.body && ciphertextDone then .ok none
  else
    let body := sealUnlessDone S master (rng (2 * n)) r.val.body
    let ciphertext := r.val.ciphertext.map (sealUnlessDone S master (rng (2 * n + 1)))
    (statement faults ("encrypt message rowid " ++ toString r.rowid) n).map fun n' =>
      some (n', fun row => { row with body := body, ciphertext := ciphertext })

def encryptEdit (n : ℕ) (r : Row String (EditRow String)) :
    Except String (Option (ℕ × (EditRow String → EditRow String))) :=
  if done r.val.body then .ok none
  else
    let body := sealValue S master (rng (2 * n)) r.val.body
    (statement faults ("encrypt edit of " ++ r.key) n).map fun n' =>
      some (n', fun row => { row with body := body })

def encryptMember (n : ℕ) (r : Row (String × String) String) :
    Except String (Option (ℕ × (String → String))) :=
  if done r.val then .ok none
  else
    let name := sealValue S master (rng (2 * n)) r.val
    (statement faults ("encrypt member rowid " ++ toString r.rowid) n).map fun n' =>
      some (n', fun _ => name)

/-- **The body of the transaction**: the five passes, then the flag. -/
def encryptAll (db : Tables String) : Except String (Tables String) := do
  let n ← statement faults "begin store encryption" 0
  let (n, metas) ← encryptMetas S master rng faults secretMetaKeys (n, db.metas)
  let (n, rooms) ← rewriteRows setKey (encryptRoom S master rng faults) (n, db.rooms) db.rooms.rows
  let (n, messages) ← walk chunkSize (encryptMessage S master rng faults) n db.messages 0
  let (n, edits) ← rewriteRows setKey (encryptEdit S master rng faults) (n, db.edits) db.edits.rows
  let (n, members) ← walk chunkSize (encryptMember S master rng faults) n db.members 0
  let n ← statement faults "mark store encrypted" n
  let _ ← statement faults "commit store encryption" n
  return markEncrypted
    { db with metas := metas, rooms := rooms, messages := messages, edits := edits,
              members := members } "1"

/-- **`encrypt_existing`**: the transaction commits whole, or is rolled back. -/
def encryptExisting (db : Tables String) : Tables String × Except String Unit :=
  match encryptAll S master rng faults db with
  | .error e => (db, .error e)
  | .ok db' => (db', .ok ())

/-- `store_encrypted = '1'`. -/
def flagged {C : Type} [DecidableEq C] (one : C) (db : Tables C) : Bool :=
  db.metas.lookup encryptedFlag = some one

/-- **`Store::open`** on a database whose schema is in place; `path` only appears in the error. -/
def openStore (path : String) (key : Option Key) (db : Tables String) :
    Tables String × Except String (Store S) :=
  match key with
  | some master =>
    if flagged "1" db then (db, .ok ⟨db, key⟩)
    else
      match encryptExisting S master rng faults db with
      | (db', .ok ()) => (db', .ok ⟨db', key⟩)
      | (db', .error e) => (db', .error e)
  | none =>
    if flagged "1" db then
      (db, .error ("store database " ++ path ++ " is encrypted but no store key was supplied -- " ++
        "the key file is missing or unreadable. The message history, the room list and the " ++
        "access token in it cannot be read or recovered without that key. Nothing has been " ++
        "modified; restore the key file."))
    else (db, .ok ⟨db, key⟩)

end Passes

/-! ### What a pass does to one cell -/

section Cells
variable {S : CipherSuite} {master : Key}

/-- **A cell after the migration**: as it was where it carried the prefix, else a sealed form. -/
def Recoded (S : CipherSuite) (master : Key) (old new : String) : Prop :=
  (done old = true ∧ new = old) ∨ (done old = false ∧ ∃ salt, new = sealValue S master salt old)

theorem recoded_sealUnlessDone (salt : Salt) (cell : String) :
    Recoded S master cell (sealUnlessDone S master salt cell) := by
  unfold sealUnlessDone
  by_cases h : done cell = true
  · rw [if_pos h]; exact Or.inl ⟨h, rfl⟩
  · rw [if_neg h]; exact Or.inr ⟨by simpa using h, salt, rfl⟩

theorem Recoded.done {old new : String} (h : Recoded S master old new) : done new = true := by
  rcases h with ⟨hd, rfl⟩ | ⟨_, salt, rfl⟩
  · exact hd
  · exact startsWith_seal master salt old

/-- A recoded cell reads as before. -/
theorem Recoded.reveal {old new : String} (h : Recoded S master old new) (column : String) :
    unsealValue S (some master) column new = unsealValue S (some master) column old := by
  rcases h with ⟨_, rfl⟩ | ⟨hd, salt, rfl⟩
  · rfl
  · rw [unseal_seal, unseal_plain hd]

/-- A second migration leaves it alone. -/
theorem Recoded.again {old new new' : String} (h : Recoded S master old new)
    (h' : Recoded S master new new') : new' = new := by
  rcases h' with ⟨_, h'⟩ | ⟨hd, _⟩
  · exact h'
  · rw [h.done] at hd; cases hd

/-- Cells that may be absent, recoded. -/
inductive RecodedOpt (S : CipherSuite) (master : Key) : Option String → Option String → Prop where
  | none : RecodedOpt S master none none
  | some {old new : String} : Recoded S master old new → RecodedOpt S master (some old) (some new)

/-- A room row whose two cells were recoded, the rest kept. -/
def RecodedRoom (S : CipherSuite) (master : Key) (old new : RoomRow String) : Prop :=
  ∃ name preview, Recoded S master old.name name ∧ Recoded S master old.lastPreview preview ∧
    new = { old with name := name, lastPreview := preview }

def RecodedMessage (S : CipherSuite) (master : Key) (old new : MessageRow String) : Prop :=
  ∃ body ciphertext, Recoded S master old.body body ∧
    RecodedOpt S master old.ciphertext ciphertext ∧
    new = { old with body := body, ciphertext := ciphertext }

def RecodedEdit (S : CipherSuite) (master : Key) (old new : EditRow String) : Prop :=
  ∃ body, Recoded S master old.body body ∧ new = { old with body := body }

/-- A `meta` value: recoded where it is a secret, else kept. -/
def RecodedMeta (S : CipherSuite) (master : Key) (k old new : String) : Prop :=
  if (secretMetaLabel k).isSome then Recoded S master old new else new = old

/-- Every row kept with its rowid and key, and its columns related by `R`. -/
def Rowwise {κ ρ : Type} (R : κ → ρ → ρ → Prop) (t t' : Table κ ρ) : Prop :=
  ∃ g : ℤ → κ → ρ → ρ, (∀ r ∈ t.rows, R r.key r.val (g r.rowid r.key r.val)) ∧ t' = t.mapVal g

/-- **A database after the migration**, but for the flag. -/
structure RecodedTables (S : CipherSuite) (master : Key) (old new : Tables String) : Prop where
  metas : Rowwise (RecodedMeta S master) old.metas new.metas
  rooms : Rowwise (fun _ => RecodedRoom S master) old.rooms new.rooms
  messages : Rowwise (fun _ => RecodedMessage S master) old.messages new.messages
  pickles : new.pickles = old.pickles
  edits : Rowwise (fun _ => RecodedEdit S master) old.edits new.edits
  members : Rowwise (fun _ => Recoded S master) old.members new.members

theorem Rowwise.refl {κ ρ : Type} {R : κ → ρ → ρ → Prop} {t : Table κ ρ}
    (h : ∀ r ∈ t.rows, R r.key r.val r.val) : Rowwise R t t :=
  ⟨fun _ _ v => v, h, t.mapVal_id.symm⟩

theorem Rowwise.mono {κ ρ : Type} {R R' : κ → ρ → ρ → Prop} {t t' : Table κ ρ}
    (h : Rowwise R t t') (hR : ∀ k a b, R k a b → R' k a b) : Rowwise R' t t' := by
  obtain ⟨g, hg, ht⟩ := h
  exact ⟨g, fun r hr => hR _ _ _ (hg r hr), ht⟩

theorem Rowwise.trans {κ ρ : Type} {R R' : κ → ρ → ρ → Prop} {t t' t'' : Table κ ρ}
    (h : Rowwise R t t') (h' : Rowwise R' t' t'') :
    Rowwise (fun k a c => ∃ b, R k a b ∧ R' k b c) t t'' := by
  obtain ⟨g, hg, rfl⟩ := h
  obtain ⟨g', hg', rfl⟩ := h'
  refine ⟨fun i k v => g' i k (g i k v), fun r hr => ⟨_, hg r hr, ?_⟩, Table.mapVal_mapVal _ _ _⟩
  exact hg' ⟨r.rowid, r.key, g r.rowid r.key r.val⟩ (List.mem_map.mpr ⟨r, hr, rfl⟩)

theorem Rowwise.lookup {κ ρ : Type} [DecidableEq κ] {R : κ → ρ → ρ → Prop} {t t' : Table κ ρ}
    (h : Rowwise R t t') {k : κ} {w : ρ} (hw : t'.lookup k = some w) :
    ∃ v, t.lookup k = some v ∧ R k v w := by
  obtain ⟨g, hg, rfl⟩ := h
  obtain ⟨r, hr, rfl, rfl⟩ := Table.lookup_eq_some.mp hw
  obtain ⟨r0, hr0, rfl⟩ := List.mem_map.mp hr
  exact ⟨r0.val, Table.lookup_of_mem hr0, hg r0 hr0⟩

/-- Tables related row by row are one table to whoever sees related rows alike. -/
theorem Rowwise.mapVal_eq {κ ρ τ : Type} {R : κ → ρ → ρ → Prop} {t t' : Table κ ρ}
    (h : Rowwise R t t') {f : κ → ρ → τ} (hf : ∀ k a b, R k a b → f k b = f k a) :
    (t'.mapVal fun _ => f) = t.mapVal fun _ => f := by
  obtain ⟨g, hg, rfl⟩ := h
  rw [Table.mapVal_mapVal]
  exact Table.mapVal_congr fun r hr => hf _ _ _ (hg r hr)

/-- Tables related row by row by a relation that leaves nothing to choose. -/
theorem Rowwise.eq {κ ρ : Type} {R : κ → ρ → ρ → Prop} {t t' : Table κ ρ}
    (h : Rowwise R t t') (hR : ∀ r ∈ t.rows, ∀ b, R r.key r.val b → b = r.val) : t' = t := by
  obtain ⟨g, hg, rfl⟩ := h
  refine Eq.trans (Table.mapVal_congr fun r hr => ?_) t.mapVal_id
  exact hR r hr _ (hg r hr)

end Cells

/-! ### The passes recode -/

section Passes
variable {S : CipherSuite} {master : Key} {rng : Salts} {faults : ℕ → Bool}

theorem statement_error {context e : String} {n : ℕ}
    (h : statement faults context n = .error e) : faults n = true := by
  unfold statement at h
  split_ifs at h with hf
  exact hf

/-- Of a statement that is followed by an update, either nothing or the update is left. -/
theorem statement_map {ρ : Type} {context : String} {n : ℕ} {u : ρ → ρ} {p : ℕ × (ρ → ρ)}
    (h : (statement faults context n).map (fun n' => some (n', u)) = .ok (some p)) : p.2 = u := by
  unfold statement at h
  split_ifs at h
  · cases h
  · cases h; rfl

theorem statement_map_ne {ρ : Type} {context : String} {n : ℕ} {u : ρ → ρ} :
    (statement faults context n).map (fun n' => some (n', u)) ≠ .ok none := by
  unfold statement
  split_ifs <;> intro h <;> cases h

theorem statement_map_error {ρ : Type} {context e : String} {n : ℕ} {u : ρ → ρ}
    (h : (statement faults context n).map (fun n' => some (n', u)) = .error e) :
    faults n = true := by
  unfold statement at h
  split_ifs at h with hf
  · exact hf
  · cases h

theorem recoded_of_done {cell : String} (h : done cell = true) : Recoded S master cell cell :=
  Or.inl ⟨h, rfl⟩

theorem recoded_seal {cell : String} (h : ¬ done cell = true) (salt : Salt) :
    Recoded S master cell (sealValue S master salt cell) := Or.inr ⟨by simpa using h, salt, rfl⟩

theorem recodedOpt_map (salt : Salt) (cell : Option String) :
    RecodedOpt S master cell (cell.map (sealUnlessDone S master salt)) := by
  cases cell with
  | none => exact .none
  | some c => exact .some (recoded_sealUnlessDone salt c)

theorem encryptRoom_puts {r : Row String (RoomRow String)} {w : RoomRow String}
    (h : Puts (encryptRoom S master rng faults) r w) : RecodedRoom S master r.val w := by
  obtain ⟨n, ⟨hf, rfl⟩ | ⟨p, hf, rfl⟩⟩ := h
  all_goals
    unfold encryptRoom at hf
    dsimp only at hf
    split_ifs at hf with hd
  · rw [Bool.and_eq_true] at hd
    exact ⟨_, _, recoded_of_done hd.1, recoded_of_done hd.2, rfl⟩
  · exact absurd hf statement_map_ne
  · cases hf
  · rw [statement_map hf]
    exact ⟨_, _, recoded_sealUnlessDone _ _, recoded_sealUnlessDone _ _, rfl⟩

theorem encryptMessage_puts {r : Row String (MessageRow String)} {w : MessageRow String}
    (h : Puts (encryptMessage S master rng faults) r w) : RecodedMessage S master r.val w := by
  obtain ⟨n, ⟨hf, rfl⟩ | ⟨p, hf, rfl⟩⟩ := h
  all_goals
    unfold encryptMessage at hf
    dsimp only at hf
    split_ifs at hf with hd
  · rw [Bool.and_eq_true] at hd
    refine ⟨_, _, recoded_of_done hd.1, ?_, rfl⟩
    cases hc : r.val.ciphertext with
    | none => exact .none
    | some c =>
      have hcd := hd.2
      rw [hc] at hcd
      exact .some (recoded_of_done hcd)
  · exact absurd hf statement_map_ne
  · cases hf
  · rw [statement_map hf]
    exact ⟨_, _, recoded_sealUnlessDone _ _, recodedOpt_map _ _, rfl⟩

theorem encryptEdit_puts {r : Row String (EditRow String)} {w : EditRow String}
    (h : Puts (encryptEdit S master rng faults) r w) : RecodedEdit S master r.val w := by
  obtain ⟨n, ⟨hf, rfl⟩ | ⟨p, hf, rfl⟩⟩ := h
  all_goals
    unfold encryptEdit at hf
    dsimp only at hf
    split_ifs at hf with hd
  · exact ⟨_, recoded_of_done hd, rfl⟩
  · exact absurd hf statement_map_ne
  · cases hf
  · rw [statement_map hf]
    exact ⟨_, recoded_seal hd _, rfl⟩

theorem encryptMember_puts {r : Row (String × String) String} {w : String}
    (h : Puts (encryptMember S master rng faults) r w) : Recoded S master r.val w := by
  obtain ⟨n, ⟨hf, rfl⟩ | ⟨p, hf, rfl⟩⟩ := h
  all_goals
    unfold encryptMember at hf
    dsimp only at hf
    split_ifs at hf with hd
  · exact recoded_of_done hd
  · exact absurd hf statement_map_ne
  · cases hf
  · rw [statement_map hf]
    exact recoded_seal hd _

/-- A `meta` value whose key is in `keys`, recoded; every other value kept. -/
def RecodedKeys (S : CipherSuite) (master : Key) (keys : List (String × String))
    (k old new : String) : Prop :=
  if k ∈ keys.map Prod.fst then Recoded S master old new else new = old

theorem encryptMetas_rowwise : ∀ (keys : List (String × String)) (n : ℕ) (t : Table String String)
    (st' : ℕ × Table String String), encryptMetas S master rng faults keys (n, t) = .ok st' →
    Rowwise (RecodedKeys S master keys) t st'.2
  | [], n, t, st', h => by
    cases h
    refine Rowwise.refl fun r _ => ?_
    unfold RecodedKeys
    rw [if_neg (by simp)]
  | (key, label) :: keys, n, t, st', h => by
    -- what the first key leaves behind, and the rest of the pass from there
    obtain ⟨n1, t1, h1, hrest⟩ : ∃ n1 t1, Rowwise (RecodedKeys S master [(key, label)]) t t1 ∧
        encryptMetas S master rng faults keys (n1, t1) = .ok st' := by
      unfold encryptMetas at h
      cases hl : t.lookup key with
      | none =>
        rw [hl] at h
        refine ⟨n, t, Rowwise.refl fun r hr => ?_, h⟩
        have hk : r.key ≠ key := by
          rintro rfl
          rw [Table.lookup_of_mem hr] at hl
          cases hl
        unfold RecodedKeys
        rw [if_neg (by simpa using hk)]
      | some value =>
        rw [hl] at h
        dsimp only at h
        have hval : ∀ r ∈ t.rows, r.key = key → r.val = value := by
          rintro r hr rfl
          rw [Table.lookup_of_mem hr] at hl
          exact Option.some.inj hl
        split_ifs at h with hd
        · refine ⟨n, t, Rowwise.refl fun r hr => ?_, h⟩
          unfold RecodedKeys
          split_ifs with hk
          · rw [hval r hr (by simpa using hk)]
            exact recoded_of_done hd
          · rfl
        · split at h
          · cases h
          · refine ⟨_, _, ⟨_, fun r hr => ?_, rfl⟩, h⟩
            unfold RecodedKeys
            by_cases hk : r.key = key
            · rw [if_pos (by simpa using hk), if_pos hk, hval r hr hk]
              exact recoded_seal hd _
            · rw [if_neg (by simpa using hk), if_neg hk]
    have h2 := encryptMetas_rowwise keys n1 t1 st' hrest
    refine (h1.trans h2).mono fun k a c hac => ?_
    obtain ⟨b, hb, hc⟩ := hac
    unfold RecodedKeys at hb hc ⊢
    simp only [List.map_cons, List.mem_cons]
    by_cases hk : k = key <;> by_cases hks : k ∈ keys.map Prod.fst
    · rw [if_pos (by simpa using hk)] at hb
      rw [if_pos hks] at hc
      rw [if_pos (Or.inl hk), hb.again hc]
      exact hb
    · rw [if_pos (by simpa using hk)] at hb
      rw [if_neg hks] at hc
      rw [if_pos (Or.inl hk), hc]
      exact hb
    · rw [if_neg (by simpa using hk)] at hb
      rw [if_pos hks, hb] at hc
      rw [if_pos (Or.inr hks)]
      exact hc
    · rw [if_neg (by simpa using hk)] at hb
      rw [if_neg hks] at hc
      rw [if_neg (by rintro (h | h); exacts [hk h, hks h]), hc, hb]

theorem secretMetaLabel_isSome (k : String) :
    (secretMetaLabel k).isSome = true ↔ k ∈ secretMetaKeys.map Prod.fst := by
  unfold secretMetaLabel
  rw [Option.isSome_map, List.find?_isSome, List.mem_map]
  constructor
  · rintro ⟨p, hp, hk⟩; exact ⟨p, hp, by simpa using hk⟩
  · rintro ⟨p, hp, hk⟩; exact ⟨p, hp, by simpa using hk⟩

theorem rowwise_of_rewriteRows {κ ρ : Type} [DecidableEq κ] {R : ρ → ρ → Prop}
    {f : ℕ → Row κ ρ → Except String (Option (ℕ × (ρ → ρ)))}
    (hf : ∀ r w, Puts f r w → R r.val w) {n : ℕ} {t : Table κ ρ} {st' : ℕ × Table κ ρ}
    (h : rewriteRows setKey f (n, t) t.rows = .ok st') : Rowwise (fun _ => R) t st'.2 := by
  obtain ⟨g, hg, ht⟩ := rewriteRows_all updates_setKey h
  exact ⟨fun i _ v => g i v, fun r hr => hf r _ (hg r hr), ht⟩

theorem rowwise_of_walk {κ ρ : Type} {R : ρ → ρ → Prop}
    {f : ℕ → Row κ ρ → Except String (Option (ℕ × (ρ → ρ)))}
    (hf : ∀ r w, Puts f r w → R r.val w) {n : ℕ} {t : Table κ ρ} {st' : ℕ × Table κ ρ}
    (hpos : ∀ r ∈ t.rows, 0 < r.rowid) (h : walk chunkSize f n t 0 = .ok st') :
    Rowwise (fun _ => R) t st'.2 := by
  obtain ⟨g, hg, ht⟩ := walk_spec (by decide) n t 0 st' h
  refine ⟨fun i _ v => if 0 < i then g i v else v, fun r hr => ?_, ht⟩
  dsimp only
  rw [if_pos (hpos r hr)]
  exact hf r _ (hg r hr (hpos r hr))

theorem of_bind_ok {α β ε : Type} {f : α → Except ε β} {r : β} : ∀ {x : Except ε α},
    x >>= f = .ok r → ∃ a, x = .ok a ∧ f a = .ok r
  | .ok a, h => ⟨a, rfl, h⟩

theorem of_bind_error {α β ε : Type} {f : α → Except ε β} {e : ε} : ∀ {x : Except ε α},
    x >>= f = .error e → x = .error e ∨ ∃ a, x = .ok a ∧ f a = .error e
  | .error _, h => by cases h; exact Or.inl rfl
  | .ok a, h => Or.inr ⟨a, rfl, h⟩

/-- **What the body of the transaction did**, where it ran to its end. -/
theorem encryptAll_recodes {db db' : Tables String} (hm : ∀ r ∈ db.messages.rows, 0 < r.rowid)
    (hn : ∀ r ∈ db.members.rows, 0 < r.rowid) (h : encryptAll S master rng faults db = .ok db') :
    ∃ db1, RecodedTables S master db db1 ∧ db' = markEncrypted db1 "1" := by
  unfold encryptAll at h
  obtain ⟨n0, -, h⟩ := of_bind_ok h
  obtain ⟨⟨n1, metas⟩, hmetas, h⟩ := of_bind_ok h
  obtain ⟨⟨n2, rooms⟩, hrooms, h⟩ := of_bind_ok h
  obtain ⟨⟨n3, messages⟩, hmessages, h⟩ := of_bind_ok h
  obtain ⟨⟨n4, edits⟩, hedits, h⟩ := of_bind_ok h
  obtain ⟨⟨n5, members⟩, hmembers, h⟩ := of_bind_ok h
  obtain ⟨n6, -, h⟩ := of_bind_ok h
  obtain ⟨n7, -, h⟩ := of_bind_ok h
  cases h
  refine ⟨{ db with metas := metas, rooms := rooms, messages := messages, edits := edits,
                    members := members }, ⟨?_, ?_, ?_, rfl, ?_, ?_⟩, rfl⟩
  · refine (encryptMetas_rowwise secretMetaKeys _ _ _ hmetas).mono fun k a b hab => ?_
    unfold RecodedKeys at hab
    unfold RecodedMeta
    simp only [secretMetaLabel_isSome]
    exact hab
  · exact rowwise_of_rewriteRows (fun _ _ => encryptRoom_puts) hrooms
  · exact rowwise_of_walk (fun _ _ => encryptMessage_puts) hm hmessages
  · exact rowwise_of_rewriteRows (fun _ _ => encryptEdit_puts) hedits
  · exact rowwise_of_walk (fun _ _ => encryptMember_puts) hn hmembers

/-! ### The body fails only where a statement does -/

theorem encryptMetas_error : ∀ (keys : List (String × String)) (st : ℕ × Table String String)
    (e : String), encryptMetas S master rng faults keys st = .error e → ∃ n, faults n = true
  | [], st, e, h => by cases h
  | (key, label) :: keys, (n, t), e, h => by
    unfold encryptMetas at h
    cases hl : t.lookup key with
    | none => rw [hl] at h; exact encryptMetas_error keys _ e h
    | some value =>
      rw [hl] at h
      dsimp only at h
      split_ifs at h with hd
      · exact encryptMetas_error keys _ e h
      · split at h
        · next hs => exact ⟨n, statement_error hs⟩
        · exact encryptMetas_error keys _ e h

theorem encryptRoom_error {n : ℕ} {r : Row String (RoomRow String)} {e : String}
    (h : encryptRoom S master rng faults n r = .error e) : faults n = true := by
  unfold encryptRoom at h
  split_ifs at h
  exact statement_map_error h

theorem encryptMessage_error {n : ℕ} {r : Row String (MessageRow String)} {e : String}
    (h : encryptMessage S master rng faults n r = .error e) : faults n = true := by
  unfold encryptMessage at h
  dsimp only at h
  split_ifs at h
  exact statement_map_error h

theorem encryptEdit_error {n : ℕ} {r : Row String (EditRow String)} {e : String}
    (h : encryptEdit S master rng faults n r = .error e) : faults n = true := by
  unfold encryptEdit at h
  split_ifs at h
  exact statement_map_error h

theorem encryptMember_error {n : ℕ} {r : Row (String × String) String} {e : String}
    (h : encryptMember S master rng faults n r = .error e) : faults n = true := by
  unfold encryptMember at h
  split_ifs at h
  exact statement_map_error h

theorem encryptAll_error {db : Tables String} {e : String}
    (h : encryptAll S master rng faults db = .error e) : ∃ n, faults n = true := by
  unfold encryptAll at h
  rcases of_bind_error h with h | ⟨n0, -, h⟩
  · exact ⟨_, statement_error h⟩
  rcases of_bind_error h with h | ⟨p1, -, h⟩
  · exact encryptMetas_error _ _ _ h
  rcases of_bind_error h with h | ⟨p2, -, h⟩
  · obtain ⟨n, r, hf⟩ := rewriteRows_error _ _ _ h
    exact ⟨n, encryptRoom_error hf⟩
  rcases of_bind_error h with h | ⟨p3, -, h⟩
  · obtain ⟨n, r, hf⟩ := walk_error _ _ _ _ h
    exact ⟨n, encryptMessage_error hf⟩
  rcases of_bind_error h with h | ⟨p4, -, h⟩
  · obtain ⟨n, r, hf⟩ := rewriteRows_error _ _ _ h
    exact ⟨n, encryptEdit_error hf⟩
  rcases of_bind_error h with h | ⟨p5, -, h⟩
  · obtain ⟨n, r, hf⟩ := walk_error _ _ _ _ h
    exact ⟨n, encryptMember_error hf⟩
  rcases of_bind_error h with h | ⟨n6, -, h⟩
  · exact ⟨_, statement_error h⟩
  rcases of_bind_error h with h | ⟨n7, -, h⟩
  · exact ⟨_, statement_error h⟩
  · cases h

end Passes

/-! ### What the migration leaves behind -/

/-- **Every covered cell** satisfies `P`. -/
structure AllCells (P : String → Prop) (db : Tables String) : Prop where
  metas : db.metas.All fun k v => (secretMetaLabel k).isSome = true → P v
  rooms : db.rooms.All fun _ row => P row.name ∧ P row.lastPreview
  messages : db.messages.All fun _ row => P row.body ∧ ∀ c, row.ciphertext = some c → P c
  edits : db.edits.All fun _ row => P row.body
  members : db.members.All fun _ name => P name

section After
variable {S : CipherSuite} {master : Key} {old new : Tables String}

theorem secretMetaLabel_flag : secretMetaLabel encryptedFlag = none := by decide

/-- The flag is none of the covered cells. -/
theorem AllCells.markEncrypted {P : String → Prop} {db : Tables String} (h : AllCells P db) :
    AllCells P (markEncrypted db "1") := by
  refine ⟨?_, h.rooms, h.messages, h.edits, h.members⟩
  refine h.metas.upsert ?_ ?_
  · intro hs; rw [secretMetaLabel_flag] at hs; cases hs
  · intro w _ _ hs; rw [secretMetaLabel_flag] at hs; cases hs

theorem RecodedTables.done (h : RecodedTables S master old new) :
    AllCells (fun c => done c = true) new := by
  refine ⟨?_, ?_, ?_, ?_, ?_⟩
  · intro k v hv hs
    obtain ⟨w, -, hw⟩ := h.metas.lookup hv
    unfold RecodedMeta at hw
    rw [if_pos hs] at hw
    exact hw.done
  · intro k v hv
    obtain ⟨w, -, name, preview, hn, hp, rfl⟩ := h.rooms.lookup hv
    exact ⟨hn.done, hp.done⟩
  · intro k v hv
    obtain ⟨w, -, body, ciphertext, hb, hc, rfl⟩ := h.messages.lookup hv
    refine ⟨hb.done, ?_⟩
    rintro c rfl
    generalize w.ciphertext = o at hc
    cases hc with
    | some hc => exact hc.done
  · intro k v hv
    obtain ⟨w, -, body, hb, rfl⟩ := h.edits.lookup hv
    exact hb.done
  · intro k v hv
    obtain ⟨w, -, hn⟩ := h.members.lookup hv
    exact hn.done

/-- **The migrated database reads as the old one**, under the key. -/
theorem RecodedTables.view_eq (h : RecodedTables S master old new) :
    view (⟨new, some master⟩ : Store S) = view (⟨old, some master⟩ : Store S) := by
  have hcell : ∀ a b, Recoded S master a b →
      (fun column => unsealValue S (some master) column b) =
        fun column => unsealValue S (some master) column a :=
    fun a b hab => funext fun column => hab.reveal column
  refine Tables.ext ?_ ?_ ?_ h.pickles ?_ ?_
  · refine h.metas.mapVal_eq fun k a b hab => ?_
    unfold RecodedMeta at hab
    split_ifs at hab with hs
    · simp only [if_pos hs]
      exact hcell a b hab
    · rw [hab]
  · refine h.rooms.mapVal_eq fun k a b hab => ?_
    obtain ⟨name, preview, hn, hp, rfl⟩ := hab
    exact congrArg₂ (fun x y => (⟨x, a.encrypted, a.unread, a.lastTs, y, a.backToken, a.backDone⟩ :
      RoomRow Reading)) (hcell _ _ hn) (hcell _ _ hp)
  · refine h.messages.mapVal_eq fun k a b hab => ?_
    obtain ⟨body, ciphertext, hb, hc, rfl⟩ := hab
    have hct : ciphertext.map (fun c column => unsealValue S (some master) column c) =
        a.ciphertext.map fun c column => unsealValue S (some master) column c := by
      generalize a.ciphertext = o at hc
      cases hc with
      | none => rfl
      | some hc => exact congrArg some (hcell _ _ hc)
    exact congrArg₂ (fun x y => (⟨a.room, a.sender, a.ts, x, a.encrypted, a.decrypted, a.mine,
      a.sessionId, y⟩ : MessageRow Reading)) (hcell _ _ hb) hct
  · refine h.edits.mapVal_eq fun k a b hab => ?_
    obtain ⟨body, hb, rfl⟩ := hab
    exact congrArg (fun x => (⟨a.ts, x⟩ : EditRow Reading)) (hcell _ _ hb)
  · exact h.members.mapVal_eq fun k a b hab => hcell a b hab

/-- A recoding of a database whose covered cells are done changes nothing. -/
theorem RecodedTables.eq_of_done (h : RecodedTables S master old new)
    (hd : AllCells (fun c => Migrate.done c = true) old) : new = old := by
  have hcell : ∀ a b, Migrate.done a = true → Recoded S master a b → b = a := by
    intro a b ha hab
    rcases hab with ⟨_, h⟩ | ⟨hna, _⟩
    · exact h
    · rw [ha] at hna; cases hna
  refine Tables.ext ?_ ?_ ?_ h.pickles ?_ ?_
  · refine h.metas.eq fun r hr b hab => ?_
    unfold RecodedMeta at hab
    split_ifs at hab with hs
    · exact hcell _ _ (Table.all_iff_rows.mp hd.metas r hr hs) hab
    · exact hab
  · refine h.rooms.eq fun r hr b hab => ?_
    obtain ⟨name, preview, hn, hp, rfl⟩ := hab
    have hr' := Table.all_iff_rows.mp hd.rooms r hr
    rw [hcell _ _ hr'.1 hn, hcell _ _ hr'.2 hp]
  · refine h.messages.eq fun r hr b hab => ?_
    obtain ⟨body, ciphertext, hb, hc, rfl⟩ := hab
    have hr' := Table.all_iff_rows.mp hd.messages r hr
    have hct : ciphertext = r.val.ciphertext := by
      have hall := hr'.2
      generalize r.val.ciphertext = o at hc hall
      cases hc with
      | none => rfl
      | some hc => rw [hcell _ _ (hall _ rfl) hc]
    rw [hcell _ _ hr'.1 hb, hct]
  · refine h.edits.eq fun r hr b hab => ?_
    obtain ⟨body, hb, rfl⟩ := hab
    rw [hcell _ _ (Table.all_iff_rows.mp hd.edits r hr) hb]
  · exact h.members.eq fun r hr b hab => hcell _ _ (Table.all_iff_rows.mp hd.members r hr) hab

/-- The flag aside, marking a database changes no view. -/
theorem view_markEncrypted (db : Tables String) (key : Option Key) :
    view (⟨markEncrypted db "1", key⟩ : Store S) =
      setMetaStmt (view (⟨db, key⟩ : Store S)) encryptedFlag fun _ => .ok "1" := by
  refine (map_setMeta _ _ db encryptedFlag "1").trans ?_
  rw [secretMetaLabel_flag]; rfl

theorem flagged_markEncrypted (db : Tables String) : flagged "1" (markEncrypted db "1") = true := by
  unfold flagged markEncrypted setMetaStmt
  rw [Table.lookup_upsert, if_pos rfl]
  cases db.metas.lookup encryptedFlag <;> rfl

theorem markEncrypted_of_flagged {db : Tables String} (h : flagged "1" db = true) :
    markEncrypted db "1" = db := by
  have hl : db.metas.lookup encryptedFlag = some "1" := by
    unfold flagged at h
    exact of_decide_eq_true h
  exact Tables.ext (Table.upsert_self hl) rfl rfl rfl rfl rfl

theorem Rowwise.pos {κ ρ : Type} {R : κ → ρ → ρ → Prop} {t t' : Table κ ρ} (h : Rowwise R t t')
    (hpos : ∀ r ∈ t.rows, 0 < r.rowid) : ∀ r ∈ t'.rows, 0 < r.rowid := by
  obtain ⟨g, -, rfl⟩ := h
  intro r hr
  obtain ⟨r0, hr0, rfl⟩ := List.mem_map.mp hr
  exact hpos r0 hr0

/-- The accessors return the same of both stores, but for the flag. -/
structure ReadsAlike (a b : Store S) : Prop where
  getMeta : ∀ k, k ≠ encryptedFlag → getMeta a k = getMeta b k
  loadSession : ∀ parse, loadSession a parse = loadSession b parse
  listRooms : listRooms a = listRooms b
  getRoom : ∀ id, getRoom a id = getRoom b id
  recentMessages : ∀ room limit, recentMessages a room limit = recentMessages b room limit
  undecryptedInRoom : ∀ room limit, undecryptedInRoom a room limit = undecryptedInRoom b room limit

theorem readsAlike_of_view {a b : Store S}
    (h : view a = setMetaStmt (view b) encryptedFlag fun _ => .ok "1") : ReadsAlike a b := by
  have hmeta : ∀ k, k ≠ encryptedFlag → (view a).metas.lookup k = (view b).metas.lookup k := by
    intro k hk
    rw [h]
    unfold setMetaStmt
    rw [Table.lookup_upsert, if_neg hk]
  refine ⟨fun k hk => getMeta_congr (hmeta k hk), fun _ => loadSession_congr (hmeta _ (by decide)),
    listRooms_congr ?_, fun _ => getRoom_congr ?_, fun _ _ => recentMessages_congr ?_ ?_,
    fun _ _ => undecryptedInRoom_congr ?_⟩
  all_goals rw [h]; rfl

end After

/-! ### The transaction -/

/-- **The migration is all or nothing.** On a database whose rowids are positive it either fails,
which takes a failing statement, and changes nothing; or it sets the flag, seals exactly the covered
cells without the prefix, and leaves a database that reads under the key as the old one did and that
a second migration does not change. -/
theorem encryptExisting_spec (S : CipherSuite) (master : Key) (rng : Salts) (faults : ℕ → Bool)
    (db : Tables String) (hmessages : ∀ r ∈ db.messages.rows, 0 < r.rowid)
    (hmembers : ∀ r ∈ db.members.rows, 0 < r.rowid) :
    ((∃ e, encryptExisting S master rng faults db = (db, .error e)) ∧ ∃ n, faults n = true) ∨
    ∃ db1 db', encryptExisting S master rng faults db = (db', .ok ()) ∧
      RecodedTables S master db db1 ∧ db' = markEncrypted db1 "1" ∧ flagged "1" db' = true ∧
      AllCells (fun c => startsWith c encPrefix = true) db' ∧
      ReadsAlike (⟨db', some master⟩ : Store S) ⟨db, some master⟩ ∧
      ∀ rng' faults', (encryptExisting S master rng' faults' db').1 = db' := by
  cases h : encryptAll S master rng faults db with
  | error e =>
    refine Or.inl ⟨⟨e, ?_⟩, encryptAll_error h⟩
    unfold encryptExisting
    rw [h]
  | ok db' =>
    obtain ⟨db1, hrec, rfl⟩ := encryptAll_recodes hmessages hmembers h
    have hdone : AllCells (fun c => done c = true) (markEncrypted db1 "1") :=
      hrec.done.markEncrypted
    refine Or.inr ⟨db1, _, ?_, hrec, rfl, flagged_markEncrypted db1, hdone, ?_, ?_⟩
    · unfold encryptExisting
      rw [h]
    · refine readsAlike_of_view ?_
      rw [view_markEncrypted, hrec.view_eq]
    · intro rng' faults'
      unfold encryptExisting
      cases h' : encryptAll S master rng' faults' (markEncrypted db1 "1") with
      | error e => rfl
      | ok db2 =>
        have hm : ∀ r ∈ (markEncrypted db1 "1").messages.rows, 0 < r.rowid :=
          hrec.messages.pos hmessages
        have hn : ∀ r ∈ (markEncrypted db1 "1").members.rows, 0 < r.rowid :=
          hrec.members.pos hmembers
        obtain ⟨db3, hrec', rfl⟩ := encryptAll_recodes hm hn h'
        rw [hrec'.eq_of_done hdone]
        exact markEncrypted_of_flagged (flagged_markEncrypted db1)

/-- A database written without a key: one message, its text in the clear. -/
def legacyTables : Tables String :=
  insertMessageStmt Tables.empty
    ⟨"$e", "!r", "@s", 7, none, "hello", true, false, false, some "sid", some "ct"⟩ "hello" (some "ct")

theorem encryptExisting_spec_legacy :
    ∃ db', encryptExisting copySuite zeroKey (fun _ => zeroSalt) (fun _ => false) legacyTables =
      (db', .ok ()) ∧ flagged "1" db' = true := by
  rcases encryptExisting_spec copySuite zeroKey (fun _ => zeroSalt) (fun _ => false) legacyTables
    (by decide) (by decide) with ⟨-, n, hn⟩ | ⟨db1, db', hrun, -, -, hflag, -⟩
  · cases hn
  · exact ⟨db', hrun, hflag⟩

end Kmatrix.Storage.Migrate
