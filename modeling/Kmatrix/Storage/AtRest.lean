import Kmatrix.Storage.Migrate
import Mathlib.Data.List.Induction

/-! # Encryption at rest

A run is a list of attempts: an operation, the salts it draws, and how it ended. An operation that
fails is rolled back, with one exception: `clear` deletes in one batch, puts the flag back in a
statement of its own and then vacuums, so it can fail with its deletions in effect.

* `allCells_attempts`: in every state of every run, whatever fails, every covered cell is a sealed
  value.
* `flagged_attempts_iff`: the flag is set after every operation that returns, exactly when no
  operation but `clear` returns while a `clear` that was cut short has not been repeated. -/

namespace Kmatrix.Storage.AtRest

open Kmatrix.Lib.Keyed Kmatrix.Storage.Seal Kmatrix.Storage.Schema Kmatrix.Storage.Write
open Kmatrix.Storage.Migrate

/-! ### Runs in which operations fail -/

/-- How an operation ended. -/
inductive Ending where
  /-- It returned. -/
  | returned
  /-- It failed and was rolled back. -/
  | rolledBack
  /-- `clear` failed with its first `deletes` deletions in effect and the flag not put back. -/
  | cutShort (deletes : ℕ)
  /-- `clear` failed in `VACUUM` or in the checkpoint. -/
  | unvacuumed
  deriving DecidableEq, Repr

/-- The first deletions of the batch, in its order. -/
def deleteFirst {C : Type} (n : ℕ) (db : Tables C) : Tables C where
  metas := if 0 < n then Table.empty else db.metas
  rooms := if 1 < n then Table.empty else db.rooms
  messages := if 2 < n then Table.empty else db.messages
  edits := if 3 < n then Table.empty else db.edits
  members := if 4 < n then Table.empty else db.members
  pickles := if 5 < n then Table.empty else db.pickles

structure Attempt where
  op : StoreOp
  salts : Salts
  ending : Ending

section Runs
variable {S : CipherSuite}

/-- **One attempt.** -/
def attempt (st : Store S) (a : Attempt) : Store S :=
  match a.ending, a.op with
  | .returned, op => op.exec a.salts st
  | .cutShort n, .clear => { st with db := deleteFirst n st.db }
  | .unvacuumed, .clear => Write.clear st
  | _, _ => st

def attempts (st : Store S) (run : List Attempt) : Store S := run.foldl attempt st

/-- All six deletions are the whole wipe. -/
theorem deleteFirst_six (st : Store S) : { st with db := deleteFirst 6 st.db } = wipe st := rfl

@[simp] theorem key_attempt (st : Store S) (a : Attempt) : (attempt st a).key = st.key := by
  obtain ⟨op, salts, ending⟩ := a
  rcases ending with _ | _ | n | _
  · exact key_exec salts st op
  · rfl
  · cases op <;> rfl
  · cases op with
    | clear => exact key_exec salts st .clear
    | _ => rfl

@[simp] theorem key_attempts (run : List Attempt) :
    ∀ st : Store S, (attempts st run).key = st.key := by
  induction run with
  | nil => intro st; rfl
  | cons a run ih =>
    intro st
    show (attempts (attempt st a) run).key = st.key
    rw [ih, key_attempt]

theorem attempts_append (st : Store S) (run : List Attempt) (a : Attempt) :
    attempts st (run ++ [a]) = attempt (attempts st run) a := List.foldl_append

/-! ### Every covered cell is sealed -/

/-- A `k1:` value that `seal` made of some text, and not that text. -/
def Sealed (S : CipherSuite) (master : Key) (cell : String) : Prop :=
  startsWith cell encPrefix = true ∧ ∃ salt p, cell = sealValue S master salt p ∧ cell ≠ p

theorem sealed_sealValue (master : Key) (salt : Salt) (p : String) :
    Sealed S master (sealValue S master salt p) :=
  ⟨startsWith_seal master salt p, salt, p, rfl, seal_ne master salt p⟩

theorem sealed_protect {st : Store S} {master : Key} (h : st.key = some master) (salt : Salt)
    (p : String) : Sealed S master (st.protect salt p) := by
  unfold Store.protect
  rw [h]
  exact sealed_sealValue master salt p

variable {P : String → Prop}

/-- A database without rows has no cell. -/
theorem allCells_empty : AllCells P Tables.empty :=
  ⟨Table.all_empty _, Table.all_empty _, Table.all_empty _, Table.all_empty _, Table.all_empty _⟩

section Statements
variable {db : Tables String} (h : AllCells P db)
include h

theorem allCells_setMeta {k v : String} (hv : (secretMetaLabel k).isSome = true → P v) :
    AllCells P (setMetaStmt db k v) :=
  ⟨h.metas.upsert hv fun _ _ _ => hv, h.rooms, h.messages, h.edits, h.members⟩

theorem allCells_upsertRoom {r : Room} {name preview : String} (hn : P name) (hp : P preview) :
    AllCells P (upsertRoomStmt db r name preview) :=
  ⟨h.metas, h.rooms.upsert ⟨hn, hp⟩ fun _ _ _ => ⟨hn, hp⟩, h.messages, h.edits, h.members⟩

/-- The body copied out of the edit table is a cell too. -/
theorem allCells_coalesceEdit {e body : String} (hb : P body) : P (coalesceEdit db e body) := by
  unfold coalesceEdit
  cases hl : db.edits.lookup e with
  | none => exact hb
  | some edit => exact h.edits e edit hl

theorem allCells_insertMessage {m : Message} {body : String} {ciphertext : Option String}
    (hb : P body) (hc : ∀ c, ciphertext = some c → P c) :
    AllCells P (insertMessageStmt db m body ciphertext) :=
  ⟨h.metas, h.rooms,
    h.messages.upsert ⟨allCells_coalesceEdit h hb, hc⟩
      fun _ _ _ => ⟨allCells_coalesceEdit h hb, hc⟩,
    h.edits, h.members⟩

theorem allCells_upgradeMessage {e body : String} (hb : P body) :
    AllCells P (upgradeMessageStmt db e body) :=
  ⟨h.metas, h.rooms,
    h.messages.modify fun _ _ _ => ⟨allCells_coalesceEdit h hb, fun _ hc => by cases hc⟩,
    h.edits, h.members⟩

theorem allCells_recordEdit {target body : String} {ts : ℤ} (hb : P body) :
    AllCells P (recordEditStmt db target ts body).1 := by
  unfold recordEditStmt
  split_ifs
  · exact ⟨h.metas, h.rooms, h.messages.modify fun _ _ hrow => ⟨hb, hrow.2⟩,
      h.edits.upsert hb fun _ _ _ => hb, h.members⟩
  · exact h

theorem allCells_rememberMembers {room : String} {names : List (String × String)}
    (hn : ∀ p ∈ names, P p.2) : AllCells P (rememberMembersStmt db room names) := by
  refine ⟨h.metas, h.rooms, h.messages, h.edits, ?_⟩
  have hm := h.members
  unfold rememberMembersStmt
  dsimp only
  generalize db.members = t at hm
  induction names generalizing t with
  | nil => exact hm
  | cons p names ih =>
    have hp : P p.2 := hn p (by simp)
    exact ih (fun q hq => hn q (by simp [hq])) _ (hm.upsert hp fun _ _ _ => hp)

theorem allCells_seedBackToken {room token : String} :
    AllCells P (seedBackTokenStmt db room token).1 := by
  unfold seedBackTokenStmt
  split
  · split_ifs
    · exact ⟨h.metas, h.rooms.modify fun _ _ hrow => hrow, h.messages, h.edits, h.members⟩
    · exact h
  · exact h

theorem allCells_setBackToken {room : String} {token : Option String} {done : Bool} :
    AllCells P (setBackTokenStmt db room token done) :=
  ⟨h.metas, h.rooms.modify fun _ _ hrow => hrow, h.messages, h.edits, h.members⟩

theorem allCells_deleteFirst (n : ℕ) : AllCells P (deleteFirst n db) := by
  refine ⟨?_, ?_, ?_, ?_, ?_⟩ <;> unfold deleteFirst <;> dsimp only <;> split_ifs
  · exact Table.all_empty _
  · exact h.metas
  · exact Table.all_empty _
  · exact h.rooms
  · exact Table.all_empty _
  · exact h.messages
  · exact Table.all_empty _
  · exact h.edits
  · exact Table.all_empty _
  · exact h.members

end Statements

/-- **An operation writes protected texts** and copies of cells, nothing else. -/
theorem allCells_exec {st : Store S} (hp : ∀ salt p, P (st.protect salt p))
    (h : AllCells P st.db) (rng : Salts) (op : StoreOp) : AllCells P (op.exec rng st).db := by
  have hmeta : ∀ k v, AllCells P (setMeta st rng k v).db := by
    intro k v
    refine allCells_setMeta h fun hs => ?_
    obtain ⟨label, hl⟩ := Option.isSome_iff_exists.mp hs
    rw [hl]
    exact hp _ _
  cases op with
  | saveSession json => exact hmeta _ _
  | setMeta k v => exact hmeta _ _
  | upsertRoom r => exact allCells_upsertRoom h (hp _ _) (hp _ _)
  | insertMessage m =>
    refine allCells_insertMessage h (hp _ _) fun c hc => ?_
    obtain ⟨p, -, rfl⟩ := Option.map_eq_some_iff.mp hc
    exact hp _ _
  | upgradeMessage e body => exact allCells_upgradeMessage h (hp _ _)
  | recordEdit target ts body => exact allCells_recordEdit h (hp _ _)
  | rememberMembers room names =>
    refine allCells_rememberMembers h fun p hpm => ?_
    obtain ⟨i, hi, rfl⟩ := List.mem_mapIdx.mp hpm
    exact hp _ _
  | putPickle kind id extra pickle => exact ⟨h.metas, h.rooms, h.messages, h.edits, h.members⟩
  | seedBackToken room token => exact allCells_seedBackToken h
  | setBackToken room token done => exact allCells_setBackToken h
  | clear =>
    show AllCells _ (Write.clear st).db
    unfold Write.clear wipe
    dsimp only
    split
    · exact allCells_empty.markEncrypted
    · exact allCells_empty

theorem protect_congr {st st' : Store S} (h : st.key = st'.key) (salt : Salt) (p : String) :
    st.protect salt p = st'.protect salt p := by
  unfold Store.protect
  rw [h]

/-- The same of a run. -/
theorem allCells_execAll (run : List (StoreOp × Salts)) : ∀ st : Store S,
    (∀ salt p, P (st.protect salt p)) → AllCells P st.db → AllCells P (execAll st run).db := by
  induction run with
  | nil => intro st _ h; exact h
  | cons a run ih =>
    intro st hp h
    refine ih (a.1.exec a.2 st) (fun salt p => ?_) (allCells_exec hp h a.2 a.1)
    rw [protect_congr (key_exec a.2 st a.1)]
    exact hp salt p

theorem allCells_attempt {st : Store S} {master : Key} (hk : st.key = some master)
    (h : AllCells (Sealed S master) st.db) (a : Attempt) :
    AllCells (Sealed S master) (attempt st a).db := by
  obtain ⟨op, salts, ending⟩ := a
  rcases ending with _ | _ | n | _
  · exact allCells_exec (sealed_protect hk) h salts op
  · exact h
  · cases op with
    | clear => exact allCells_deleteFirst h n
    | _ => exact h
  · cases op with
    | clear => exact allCells_exec (sealed_protect hk) h salts .clear
    | _ => exact h

/-- **Every covered cell is sealed, always.** -/
theorem allCells_attempts {master : Key} (run : List Attempt) : ∀ st : Store S,
    st.key = some master → AllCells (Sealed S master) st.db →
    AllCells (Sealed S master) (attempts st run).db := by
  induction run with
  | nil => intro st _ h; exact h
  | cons a run ih =>
    intro st hk h
    exact ih (attempt st a) (by rw [key_attempt, hk]) (allCells_attempt hk h a)

/-! ### The flag -/

/-- What an attempt does to the flag: `clear` puts it back or, cut short, takes it. -/
def flagAfter (set : Bool) (a : Attempt) : Bool :=
  match a.op, a.ending with
  | .clear, .returned => true
  | .clear, .unvacuumed => true
  | .clear, .cutShort n => if 0 < n then false else set
  | _, _ => set

/-- The flag after a run that started with it. -/
def flagAfterAll (run : List Attempt) : Bool := run.foldl flagAfter true

theorem flagAfterAll_append (run : List Attempt) (a : Attempt) :
    flagAfterAll (run ++ [a]) = flagAfter (flagAfterAll run) a := List.foldl_append

/-- The attempt is no write of the flag itself. -/
def SparesFlag (a : Attempt) : Prop := ∀ v, a.op ≠ .setMeta encryptedFlag v

theorem flagged_setMetaStmt {db : Tables String} {k v : String} (hk : k ≠ encryptedFlag) :
    flagged "1" (setMetaStmt db k v) = flagged "1" db := by
  unfold flagged setMetaStmt
  rw [Table.lookup_upsert, if_neg (Ne.symm hk)]

theorem flagged_clear {st : Store S} {master : Key} (hk : st.key = some master) :
    flagged "1" (Write.clear st).db = true := by
  unfold Write.clear wipe
  dsimp only
  rw [hk]
  exact flagged_markEncrypted _

theorem flagged_exec {st : Store S} {master : Key} (hk : st.key = some master) (rng : Salts)
    (op : StoreOp) (hop : ∀ v, op ≠ .setMeta encryptedFlag v) :
    flagged "1" (op.exec rng st).db = if op = .clear then true else flagged "1" st.db := by
  cases op with
  | clear => rw [if_pos rfl]; exact flagged_clear hk
  | setMeta k v =>
    rw [if_neg (by simp)]
    refine flagged_setMetaStmt ?_
    rintro rfl
    exact hop v rfl
  | saveSession json =>
    rw [if_neg (by simp)]
    exact flagged_setMetaStmt (by decide)
  | recordEdit target ts body =>
    rw [if_neg (by simp)]
    show flagged "1" (recordEditStmt _ _ _ _).1 = _
    unfold recordEditStmt
    split_ifs <;> rfl
  | seedBackToken room token =>
    rw [if_neg (by simp)]
    show flagged "1" (seedBackTokenStmt _ _ _).1 = _
    unfold seedBackTokenStmt
    split
    · split_ifs <;> rfl
    · rfl
  | upsertRoom r => rw [if_neg (by simp)]; rfl
  | insertMessage m => rw [if_neg (by simp)]; rfl
  | upgradeMessage e body => rw [if_neg (by simp)]; rfl
  | rememberMembers room names => rw [if_neg (by simp)]; rfl
  | putPickle kind id extra pickle => rw [if_neg (by simp)]; rfl
  | setBackToken room token done => rw [if_neg (by simp)]; rfl

theorem flagged_attempt {st : Store S} {master : Key} (hk : st.key = some master) (a : Attempt)
    (ha : SparesFlag a) : flagged "1" (attempt st a).db = flagAfter (flagged "1" st.db) a := by
  obtain ⟨op, salts, ending⟩ := a
  rcases ending with _ | _ | n | _
  · rw [show attempt st ⟨op, salts, .returned⟩ = op.exec salts st from rfl,
      flagged_exec hk salts op ha]
    cases op <;> rfl
  · cases op <;> rfl
  · cases op with
    | clear =>
      show flagged "1" (deleteFirst n st.db) = if 0 < n then false else flagged "1" st.db
      unfold flagged deleteFirst
      dsimp only
      split_ifs
      · rfl
      · rfl
    | _ => rfl
  · cases op with
    | clear => exact flagged_clear hk
    | _ => rfl

theorem flagged_attempts {st : Store S} {master : Key} (hk : st.key = some master)
    (hf : flagged "1" st.db = true) (run : List Attempt) (hrun : ∀ a ∈ run, SparesFlag a) :
    flagged "1" (attempts st run).db = flagAfterAll run := by
  induction run using List.reverseRecOn with
  | nil => exact hf
  | append_singleton run a ih =>
    rw [attempts_append, flagAfterAll_append,
      flagged_attempt (by rw [key_attempts]; exact hk) a (hrun a (by simp)),
      ih fun b hb => hrun b (by simp [hb])]

/-- **The flag is set after every operation of the run that returns.** -/
def FlaggedOnReturn (st : Store S) (run : List Attempt) : Prop :=
  ∀ pre a post, run = pre ++ a :: post → a.ending = .returned →
    flagged "1" (attempts st (pre ++ [a])).db = true

/-- No operation but `clear` returns while a `clear` that was cut short after its first deletion
has not been followed by one that puts the flag back. -/
def ClearsRepeated (run : List Attempt) : Prop :=
  ∀ pre a post, run = pre ++ a :: post → a.ending = .returned → a.op ≠ .clear →
    flagAfterAll pre = true

/-- The condition, by the places of the run. -/
theorem clearsRepeated_of_take {run : List Attempt}
    (h : ∀ i, (hi : i < run.length) → run[i].ending = .returned → run[i].op ≠ .clear →
      flagAfterAll (run.take i) = true) : ClearsRepeated run := by
  rintro pre a post rfl hret hop
  have hlt : pre.length < (pre ++ a :: post).length := by simp
  have ha : (pre ++ a :: post)[pre.length] = a := by simp
  have htake := h pre.length hlt (by rw [ha]; exact hret) (by rw [ha]; exact hop)
  rwa [List.take_left] at htake

theorem flaggedOnReturn_iff {st : Store S} {master : Key} (hk : st.key = some master)
    (hf : flagged "1" st.db = true) {run : List Attempt} (hrun : ∀ a ∈ run, SparesFlag a) :
    FlaggedOnReturn st run ↔ ClearsRepeated run := by
  have hflag : ∀ pre a post, run = pre ++ a :: post →
      flagged "1" (attempts st (pre ++ [a])).db = flagAfter (flagAfterAll pre) a := by
    rintro pre a post rfl
    rw [← flagAfterAll_append]
    refine flagged_attempts hk hf _ fun b hb => hrun b ?_
    simp only [List.mem_append, List.mem_cons] at hb ⊢
    tauto
  constructor
  · intro h pre a post hsplit hret hop
    have hset := h pre a post hsplit hret
    rw [hflag pre a post hsplit] at hset
    obtain ⟨op, salts, ending⟩ := a
    cases op <;> first | exact hset | exact absurd rfl hop
  · intro h pre a post hsplit hret
    rw [hflag pre a post hsplit]
    by_cases hop : a.op = .clear
    · unfold flagAfter
      rw [hop, hret]
    · have hset := h pre a post hsplit hret hop
      obtain ⟨op, salts, ending⟩ := a
      cases op <;> first | exact hset | exact absurd rfl hop

/-- **Encryption at rest over a run**: every covered cell is sealed in every state, and the flag is
set after every operation that returns. -/
def EncryptedAtRest (S : CipherSuite) (master : Key) (st : Store S) (run : List Attempt) : Prop :=
  (∀ pre, pre <+: run → AllCells (Sealed S master) (attempts st pre).db) ∧ FlaggedOnReturn st run

/-- On a fresh database the migration finds no cell. -/
theorem encryptAll_empty {master : Key} {rng : Salts} {faults : ℕ → Bool} {db : Tables String}
    (h : encryptAll S master rng faults Tables.empty = .ok db) :
    db = markEncrypted Tables.empty "1" := by
  obtain ⟨db1, hrec, rfl⟩ := encryptAll_recodes (fun _ hr => by cases hr) (fun _ hr => by cases hr) h
  rw [hrec.eq_of_done allCells_empty]

/-- What `openStore` hands out with a key is flagged and sealed, on a fresh database and on one that
is flagged and sealed already. -/
theorem openStore_sealed {master : Key} {rng : Salts} {faults : ℕ → Bool} {path : String}
    {db : Tables String} {st : Store S}
    (hdb : db = Tables.empty ∨ (flagged "1" db = true ∧ AllCells (Sealed S master) db))
    (hopen : (openStore S rng faults path (some master) db).2 = .ok st) :
    st.key = some master ∧ flagged "1" st.db = true ∧ AllCells (Sealed S master) st.db := by
  unfold openStore at hopen
  dsimp only at hopen
  split_ifs at hopen with hf
  · rcases hdb with rfl | ⟨_, hall⟩
    · cases hf
    · cases hopen
      exact ⟨rfl, hf, hall⟩
  · rcases hdb with rfl | ⟨hf', _⟩
    · unfold encryptExisting at hopen
      cases h : encryptAll S master rng faults Tables.empty with
      | error e => rw [h] at hopen; cases hopen
      | ok db' =>
        rw [h] at hopen
        cases hopen
        rw [encryptAll_empty h]
        exact ⟨rfl, flagged_markEncrypted _, allCells_empty.markEncrypted⟩
    · rw [hf'] at hf
      exact absurd rfl hf

/-- **When a store is encrypted at rest.** Of a store opened with a key, fresh or sealed already, and
of a run that does not write the flag itself: the run keeps the store encrypted at rest exactly when
every `clear` that was cut short is repeated before another operation returns. -/
theorem atRest_iff (S : CipherSuite) (master : Key) (rng : Salts) (faults : ℕ → Bool)
    (path : String) (db : Tables String) (st : Store S)
    (hdb : db = Tables.empty ∨ (flagged "1" db = true ∧ AllCells (Sealed S master) db))
    (hopen : (openStore S rng faults path (some master) db).2 = .ok st)
    (run : List Attempt) (hrun : ∀ a ∈ run, SparesFlag a) :
    EncryptedAtRest S master st run ↔ ClearsRepeated run := by
  obtain ⟨hk, hf, hall⟩ := openStore_sealed hdb hopen
  rw [← flaggedOnReturn_iff hk hf hrun]
  constructor
  · exact fun h => h.2
  · exact fun h => ⟨fun pre _ => allCells_attempts pre st hk hall, h⟩

end Runs

/-! ### A clear that loses the flag -/

/-- A fresh store with a key, as `openStore` hands it out. -/
def freshStore : Store copySuite := ⟨markEncrypted Tables.empty "1", some zeroKey⟩

theorem openStore_freshStore :
    (openStore copySuite (fun _ => zeroSalt) (fun _ => false) "kmatrix.db" (some zeroKey)
      Tables.empty).2 = .ok freshStore := by
  unfold openStore encryptExisting
  dsimp only
  rw [if_neg (by decide)]
  cases h : encryptAll copySuite zeroKey (fun _ => zeroSalt) (fun _ => false) Tables.empty with
  | error e =>
    obtain ⟨n, hn⟩ := encryptAll_error h
    cases hn
  | ok db =>
    rw [encryptAll_empty h]
    rfl

/-- The run of a `clear` whose flag write fails, followed by a successful write. -/
def unflaggedRun : List Attempt :=
  [⟨.clear, fun _ => zeroSalt, .cutShort 6⟩,
    ⟨.setMeta "sync_token" "s1", fun _ => zeroSalt, .returned⟩]

/-- Every covered cell written, `clear` failing before it puts the flag back and then succeeding, and
another message. -/
def usedRun : List Attempt :=
  [⟨.saveSession "{}", fun _ => zeroSalt, .returned⟩,
    ⟨.setMeta "backup_key" "EsT", fun _ => zeroSalt, .returned⟩,
    ⟨.upsertRoom ⟨"!r", "Tea", true, 0, 5, "hi"⟩, fun _ => zeroSalt, .returned⟩,
    ⟨.recordEdit "$e" 6 "hello", fun _ => zeroSalt, .returned⟩,
    ⟨.insertMessage ⟨"$e", "!r", "@ann", 5, none, "hi", true, false, false, some "s", some "ct"⟩,
      fun _ => zeroSalt, .returned⟩,
    ⟨.rememberMembers "!r" [("@ann", some "Ann")], fun _ => zeroSalt, .returned⟩,
    ⟨.upgradeMessage "$e" "hi", fun _ => zeroSalt, .rolledBack⟩,
    ⟨.upgradeMessage "$e" "hi", fun _ => zeroSalt, .returned⟩,
    ⟨.clear, fun _ => zeroSalt, .cutShort 6⟩,
    ⟨.clear, fun _ => zeroSalt, .returned⟩,
    ⟨.insertMessage ⟨"$f", "!r", "@ann", 7, none, "tea?", false, true, false, none, none⟩,
      fun _ => zeroSalt, .returned⟩]

theorem atRest_iff_used : EncryptedAtRest copySuite zeroKey freshStore usedRun :=
  (atRest_iff copySuite zeroKey (fun _ => zeroSalt) (fun _ => false) "kmatrix.db" Tables.empty
    freshStore (Or.inl rfl) openStore_freshStore usedRun (by
      intro a ha v hv
      have hall : ∀ op ∈ usedRun.map Attempt.op, ∀ k w, op = .setMeta k w → k = "backup_key" := by
        simp [usedRun]
      exact absurd (hall _ (List.mem_map_of_mem ha) _ _ hv) (by decide))).mpr
    (clearsRepeated_of_take (by decide +kernel))

/-- **The flag is lost**: the write after the failed `clear` returns without it. -/
theorem not_encryptedAtRest_unflaggedRun :
    ¬ ∀ (st : Store copySuite) (run : List Attempt),
      (openStore copySuite (fun _ => zeroSalt) (fun _ => false) "kmatrix.db" (some zeroKey)
        Tables.empty).2 = .ok st →
      (∀ a ∈ run, SparesFlag a) → EncryptedAtRest copySuite zeroKey st run := by
  intro h
  have hrun : ∀ a ∈ unflaggedRun, SparesFlag a := by
    intro a ha v
    rcases List.mem_cons.mp ha with rfl | ha
    · exact nofun
    · rw [List.mem_singleton.mp ha]
      intro he
      injection he with hk
      exact absurd hk (by decide)
  have hflag := (h freshStore unflaggedRun openStore_freshStore hrun).2 [_] _ [] rfl rfl
  revert hflag
  decide

end Kmatrix.Storage.AtRest
