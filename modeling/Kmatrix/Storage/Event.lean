import Kmatrix.Lib.Newest
import Kmatrix.Storage.Plain

/-! # One event of the store

What the store holds of one event id is a pair: the register of its edits, and its row. Every
operation acts on the pair by itself (`eventOf_onPlain`), so a run does (`eventOf_runPlain`), and
operations on other events do not count (`eventOf_filter`). -/

namespace Kmatrix.Storage.Event

open Kmatrix.Lib.Keyed Kmatrix.Lib.Newest Kmatrix.Storage.Schema Kmatrix.Storage.Write
open Kmatrix.Storage.Plain

/-- A register of the edit table. -/
abbrev EditReg := Register ℤ (Option String)

/-- **What the store holds of an event.** -/
@[ext]
structure EventState where
  edit : EditReg
  row : Option (MessageRow (Option String))

def eventOf (db : PlainTables) (e : String) : EventState :=
  ⟨(db.edits.lookup e).map fun r => (r.ts, r.body), db.messages.lookup e⟩

/-- The body written for an event: the edit's, if there is one. -/
def coalesce (edit : EditReg) (body : Option String) : Option String :=
  match edit with
  | some p => p.2
  | none => body

section Steps
variable (keep : String → Option String)

/-- The row after an insert of `m`. -/
def insertRow (s : EventState) (m : Message) : MessageRow (Option String) :=
  match s.row with
  | some row => { row with
      body := coalesce s.edit (keep m.body)
      decrypted := boolI64 m.decrypted
      sessionId := m.sessionId
      ciphertext := m.ciphertext.map keep }
  | none => ⟨m.room, m.sender, asI64 m.ts, coalesce s.edit (keep m.body), boolI64 m.encrypted,
      boolI64 m.decrypted, boolI64 m.mine, m.sessionId, m.ciphertext.map keep⟩

/-- The row after an upgrade. -/
def upgradeRow (edit : EditReg) (body : Option String) (row : MessageRow (Option String)) :
    MessageRow (Option String) :=
  { row with body := coalesce edit body, decrypted := 1, sessionId := none, ciphertext := none }

/-- The pair after an edit. -/
def editStep (s : EventState) (p : ℤ × Option String) : EventState :=
  if accept s.edit p = some p then ⟨some p, s.row.map fun row => { row with body := p.2 }⟩ else s

/-- **An operation on one event.** -/
def eventStep (e : String) (s : EventState) : StoreOp → EventState
  | .insertMessage m => if m.eventId = e then ⟨s.edit, some (insertRow keep s m)⟩ else s
  | .upgradeMessage e' body =>
    if e' = e then ⟨s.edit, s.row.map (upgradeRow s.edit (keep body))⟩ else s
  | .recordEdit target ts body => if target = e then editStep s (asI64 ts, keep body) else s
  | .clear => ⟨none, none⟩
  | _ => s

/-- The operations that name the event. -/
def touches (e : String) : StoreOp → Bool
  | .insertMessage m => m.eventId = e
  | .upgradeMessage e' _ => e' = e
  | .recordEdit target _ _ => target = e
  | .clear => true
  | _ => false

end Steps

/-- The edit of `e` an operation records. -/
def editOf (e : String) : StoreOp → Option (ℕ × String)
  | .recordEdit target ts body => if target = e then some (ts, body) else none
  | _ => none

/-- The edits of `e` a run records, in its order. -/
def editsOf (e : String) (ops : List StoreOp) : List (ℕ × String) := ops.filterMap (editOf e)

/-- The message an operation inserts for `e`. -/
def insertOf (e : String) : StoreOp → Option Message
  | .insertMessage m => if m.eventId = e then some m else none
  | _ => none

def insertsOf (e : String) (ops : List StoreOp) : List Message := ops.filterMap (insertOf e)

/-- An edit as it is stored. -/
def stored (keep : String → Option String) (p : ℕ × String) : ℤ × Option String :=
  (asI64 p.1, keep p.2)

@[simp] theorem editsOf_append (e : String) (ops ops' : List StoreOp) :
    editsOf e (ops ++ ops') = editsOf e ops ++ editsOf e ops' := List.filterMap_append

@[simp] theorem insertsOf_append (e : String) (ops ops' : List StoreOp) :
    insertsOf e (ops ++ ops') = insertsOf e ops ++ insertsOf e ops' := List.filterMap_append

theorem editsOf_singleton (e : String) (op : StoreOp) : editsOf e [op] = (editOf e op).toList := by
  unfold editsOf
  rw [List.filterMap_cons]
  cases editOf e op <;> rfl

theorem insertsOf_singleton (e : String) (op : StoreOp) :
    insertsOf e [op] = (insertOf e op).toList := by
  unfold insertsOf
  rw [List.filterMap_cons]
  cases insertOf e op <;> rfl

/-! ### The statements on one event -/

section Statements
variable {db : PlainTables} {e : String}

theorem coalesceEdit_eq (body : Option String) :
    coalesceEdit db e body = coalesce (eventOf db e).edit body := by
  unfold coalesceEdit coalesce eventOf
  cases db.edits.lookup e <;> rfl

/-- An offer is taken exactly where the statement updates. -/
theorem accept_eq_iff {reg : EditReg} {p : ℤ × Option String} :
    accept reg p = some p ↔ ∀ held, reg = some held → held.1 ≤ p.1 := by
  unfold accept
  rcases reg with _ | held
  · simp
  · dsimp only
    split_ifs with h
    · simp [h]
    · constructor
      · intro hp
        cases hp
        exact absurd (le_refl _) h
      · intro hall
        exact absurd (hall held rfl) h

theorem editAccepted_iff {ts : ℤ} {body : Option String} :
    editAccepted db e ts = true ↔ accept (eventOf db e).edit (ts, body) = some (ts, body) := by
  rw [accept_eq_iff]
  unfold editAccepted eventOf
  dsimp only
  cases db.edits.lookup e with
  | none => simp
  | some r => simp

theorem eventOf_insertMessage (keep : String → Option String) (m : Message) :
    eventOf (insertMessageStmt db m (keep m.body) (m.ciphertext.map keep)) e =
      if m.eventId = e then ⟨(eventOf db e).edit, some (insertRow keep (eventOf db e) m)⟩
      else eventOf db e := by
  unfold insertMessageStmt
  rw [coalesceEdit_eq]
  by_cases he : m.eventId = e
  · subst he
    rw [if_pos rfl]
    refine EventState.ext rfl ?_
    show (db.messages.upsert m.eventId _ _).lookup m.eventId = _
    rw [Table.lookup_upsert, if_pos rfl]
    unfold insertRow
    cases hl : (eventOf db m.eventId).row with
    | none =>
      rw [show db.messages.lookup m.eventId = none from hl]
      rfl
    | some row =>
      rw [show db.messages.lookup m.eventId = some row from hl]
      rfl
  · rw [if_neg he]
    refine EventState.ext rfl ?_
    show (db.messages.upsert m.eventId _ _).lookup e = _
    rw [Table.lookup_upsert, if_neg (Ne.symm he)]
    rfl

theorem eventOf_upgradeMessage (e' : String) (body : Option String) :
    eventOf (upgradeMessageStmt db e' body) e =
      if e' = e then
        ⟨(eventOf db e).edit, (eventOf db e).row.map (upgradeRow (eventOf db e).edit body)⟩
      else eventOf db e := by
  unfold upgradeMessageStmt
  rw [coalesceEdit_eq]
  by_cases he : e' = e
  · subst he
    rw [if_pos rfl]
    refine EventState.ext rfl ?_
    show (db.messages.modify e' _).lookup e' = _
    rw [Table.lookup_modify, if_pos rfl]
    rfl
  · rw [if_neg he]
    refine EventState.ext rfl ?_
    show (db.messages.modify e' _).lookup e = _
    rw [Table.lookup_modify, if_neg (Ne.symm he)]
    rfl

theorem eventOf_recordEdit (target : String) (ts : ℤ) (body : Option String) :
    eventOf (recordEditStmt db target ts body).1 e =
      if target = e then editStep (eventOf db e) (ts, body) else eventOf db e := by
  unfold recordEditStmt
  by_cases ha : editAccepted db target ts = true
  · rw [if_pos ha]
    by_cases he : target = e
    · subst he
      have ha' : accept (eventOf db target).edit (ts, body) = some (ts, body) :=
        editAccepted_iff.mp ha
      rw [if_pos rfl]
      unfold editStep
      rw [if_pos ha']
      refine EventState.ext ?_ ?_
      · show ((db.edits.upsert target _ _).lookup target).map _ = _
        rw [Table.lookup_upsert, if_pos rfl]
        cases db.edits.lookup target <;> rfl
      · show (db.messages.modify target _).lookup target = _
        rw [Table.lookup_modify, if_pos rfl]
        rfl
    · rw [if_neg he]
      refine EventState.ext ?_ ?_
      · show ((db.edits.upsert target _ _).lookup e).map _ = _
        rw [Table.lookup_upsert, if_neg (Ne.symm he)]
        rfl
      · show (db.messages.modify target _).lookup e = _
        rw [Table.lookup_modify, if_neg (Ne.symm he)]
        rfl
  · rw [if_neg ha]
    by_cases he : target = e
    · subst he
      rw [if_pos rfl]
      unfold editStep
      rw [if_neg (fun h => ha (editAccepted_iff.mpr h))]
    · rw [if_neg he]

/-- **Every operation acts on the pair.** -/
theorem eventOf_onPlain (keep : String → Option String) (keyed : Bool) (db : PlainTables)
    (e : String) (op : StoreOp) :
    eventOf (StoreOp.onPlain keep keyed db op) e = eventStep keep e (eventOf db e) op := by
  cases op with
  | insertMessage m => exact eventOf_insertMessage keep m
  | upgradeMessage e' body => exact eventOf_upgradeMessage e' (keep body)
  | recordEdit target ts body => exact eventOf_recordEdit target (asI64 ts) (keep body)
  | clear => cases keyed <;> rfl
  | seedBackToken room token =>
    obtain ⟨rooms, hrooms⟩ := seedBackTokenStmt_eq db room token
    show eventOf (seedBackTokenStmt db room token).1 e = _
    rw [hrooms]
    rfl
  | saveSession json => rfl
  | setMeta k v => rfl
  | upsertRoom r => rfl
  | rememberMembers room names => rfl
  | putPickle kind id extra pickle => rfl
  | setBackToken room token done => rfl

end Statements

/-! ### Runs on one event -/

section Runs
variable (keep : String → Option String) (e : String)

/-- A run on one event. -/
def eventRun (s : EventState) (ops : List StoreOp) : EventState := ops.foldl (eventStep keep e) s

theorem eventRun_append (s : EventState) (ops ops' : List StoreOp) :
    eventRun keep e s (ops ++ ops') = eventRun keep e (eventRun keep e s ops) ops' :=
  List.foldl_append

/-- **A run, seen at one event.** -/
theorem eventOf_runPlain (keyed : Bool) : ∀ (ops : List StoreOp) (db : PlainTables),
    eventOf (runPlain keep keyed db ops) e = eventRun keep e (eventOf db e) ops
  | [], _ => rfl
  | op :: ops, db => by
    show eventOf (runPlain keep keyed (StoreOp.onPlain keep keyed db op) ops) e = _
    rw [eventOf_runPlain keyed ops, eventOf_onPlain]
    rfl

theorem eventStep_of_not_touches {s : EventState} {op : StoreOp} (h : touches e op = false) :
    eventStep keep e s op = s := by
  cases op with
  | insertMessage m => exact if_neg (of_decide_eq_false h)
  | upgradeMessage e' body => exact if_neg (of_decide_eq_false h)
  | recordEdit target ts body => exact if_neg (of_decide_eq_false h)
  | clear => cases h
  | _ => rfl

/-- **Operations on other events do not count.** -/
theorem eventRun_filter : ∀ (ops : List StoreOp) (s : EventState),
    eventRun keep e s ops = eventRun keep e s (ops.filter (touches e))
  | [], _ => rfl
  | op :: ops, s => by
    by_cases h : touches e op = true
    · rw [List.filter_cons_of_pos h]
      exact eventRun_filter ops _
    · rw [List.filter_cons_of_neg h]
      show eventRun keep e (eventStep keep e s op) ops = _
      rw [eventStep_of_not_touches keep e (by simpa using h)]
      exact eventRun_filter ops s

/-- The register takes what an edit offers it. -/
theorem edit_editStep (s : EventState) (p : ℤ × Option String) :
    (editStep s p).edit = accept s.edit p := by
  unfold editStep
  by_cases h : accept s.edit p = some p
  · rw [if_pos h, h]
  · rw [if_neg h]
    obtain ⟨held, hheld⟩ := Option.isSome_iff_exists.mp (accept_isSome s.edit p)
    rcases (accept_spec hheld).2.2 with rfl | ⟨hreg, -⟩
    · exact absurd hheld h
    · rw [hheld, hreg]

theorem edit_eventStep (s : EventState) {op : StoreOp} (hop : op ≠ .clear) :
    (eventStep keep e s op).edit = ((editOf e op).map (stored keep)).elim s.edit (accept s.edit) := by
  cases op with
  | recordEdit target ts body =>
    by_cases he : target = e
    · rw [show eventStep keep e s (.recordEdit target ts body) = _ from if_pos he, edit_editStep,
        show editOf e (.recordEdit target ts body) = _ from if_pos he]
      rfl
    · rw [show eventStep keep e s (.recordEdit target ts body) = _ from if_neg he,
        show editOf e (.recordEdit target ts body) = _ from if_neg he]
      rfl
  | insertMessage m =>
    show (if m.eventId = e then _ else s).edit = s.edit
    split_ifs <;> rfl
  | upgradeMessage e' body =>
    show (if e' = e then _ else s).edit = s.edit
    split_ifs <;> rfl
  | clear => exact absurd rfl hop
  | _ => rfl

/-- **The register after a run**: offered every edit of the event. -/
theorem edit_eventRun : ∀ (ops : List StoreOp) (s : EventState), StoreOp.clear ∉ ops →
    (eventRun keep e s ops).edit = offers s.edit ((editsOf e ops).map (stored keep))
  | [], _, _ => rfl
  | op :: ops, s, hc => by
    have hop : op ≠ .clear := by
      rintro rfl
      exact hc (by simp)
    show (eventRun keep e (eventStep keep e s op) ops).edit = _
    rw [edit_eventRun ops _ (fun hm => hc (by simp [hm])), edit_eventStep keep e s hop]
    unfold editsOf
    rw [List.filterMap_cons]
    cases editOf e op <;> rfl

end Runs

end Kmatrix.Storage.Event
