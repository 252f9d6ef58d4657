import Kmatrix.Ipc.Client

/-! # Requests and their responses

Clients tell responses apart by their ids. `client_loop` answers at five places: a line that does not
decode, an accepted and a refused `hello`, another first command, and a command of a client that has said
`hello`. Where the line does not decode the id is recovered by a second parse, into a `Value`.

* `Served`: what holds of every connection whose lines can be read and answered. Each line that is not
  blank is answered once, in order, nothing is taken after a line that ends the connection, and only such
  a line ends it.
* `Echoes`: each response carries the id of its line, where the line is an object with one.
* `correlated_iff`: both hold exactly if no line is taken whose id the second parse cannot recover. It
  fails on text that is well formed and yet no `Value`: containers that nest too deep, a number out of
  range. -/

namespace Kmatrix.Ipc.Correlation

open Kmatrix.E2ee.Json (Value member insertMember member_insertMember)
open Kmatrix.Sync.Plaintext (SerdeJson Json nestingLimit hasValueMembers)
open Kmatrix.Ipc.Protocol Kmatrix.Ipc.Client

/-! ### The statement -/

/-- A line that is read, with what its command comes to; all writes and clones succeed. -/
def given (l : String × Except String Reply) : Turn := { line := some l.1, answer := l.2 }

def response? : Act → Option Value
  | .reply v => some v
  | _ => none

/-- The response lines of a round. -/
def responses (r : Round) : List Value := r.acts.filterMap response?

section Statement
variable (serde : SerdeJson) (expected : Option String)

/-- **The id of a line**: of a JSON object whose `id` is an unsigned 64-bit integer. -/
def lineId (line : String) : Option ℕ := ((serde.parse line).bind fun j => j.get "id").bind asU64

/-- **The line ends the connection**: a `shutdown`, or a first command that is no `hello` with the token. -/
def Ends (past : List Round) (t : Turn) : Prop :=
  ∃ line env, t.line = some line ∧ isBlank line = false ∧ envelope serde line = .ok env ∧
    (env.cmd = .shutdown ∨ (¬ ∃ r ∈ past, r.turn.Greets serde expected) ∧ ¬ t.Greets serde expected)

/-- **One response for each line**, in order, up to the line that ends the connection; `before` has been
gone through already. -/
structure Served (before : List Round) (lines : List (String × Except String Reply)) (rounds : List Round) :
    Prop where
  inOrder : consumed rounds <+: lines.map given
  blank : ∀ r ∈ rounds, r.turn.Blank → responses r = []
  answered : ∀ r ∈ rounds, ¬ r.turn.Blank → ∃ v, responses r = [v]
  ends : ∀ past r future, rounds = past ++ r :: future → Ends serde expected (before ++ past) r.turn →
    future = []
  goesOn : consumed rounds ≠ lines.map given →
    ∃ past r, rounds = past ++ [r] ∧ Ends serde expected (before ++ past) r.turn

/-- **A response carries the id of its line.** -/
def Echoes (rounds : List Round) : Prop :=
  ∀ r ∈ rounds, ∀ line n, r.turn.line = some line → lineId serde line = some n →
    ∀ v ∈ responses r, v.get "id" = some (.int n)

/-- **The id can be recovered**: the text of the object is a `Value`; or it is what a placeholder says. -/
def Legible (line : String) : Prop :=
  ∀ j n, serde.parse line = some j → lineId serde line = some n →
    n = 0 ∨ j.depth ≤ nestingLimit ∧ j.hasValue = true

end Statement

/-! ### The ids of responses -/

theorem member_foldl {members map : List (String × Value)} {key : String} (h : ∀ m ∈ members, m.1 ≠ key) :
    member (members.foldl (fun map m => insertMember m.1 m.2 map) map) key = member map key := by
  induction members generalizing map with
  | nil => rfl
  | cons m members ih =>
    obtain ⟨hm, hrest⟩ := List.forall_mem_cons.mp h
    rw [List.foldl_cons, ih hrest, member_insertMember, if_neg (Ne.symm hm)]

/-- A key that is given first and not again. -/
theorem get_object {members : List (String × Value)} {key : String} {v : Value}
    (h : ∀ m ∈ members, m.1 ≠ key) : (object ((key, v) :: members)).get key = some v := by
  show member (members.foldl _ (insertMember key v [])) key = some v
  rw [member_foldl h, member_insertMember, if_pos rfl]

theorem get_object_none {members : List (String × Value)} {key : String} (h : ∀ m ∈ members, m.1 ≠ key) :
    (object members).get key = none := by
  show member (members.foldl _ []) key = none
  rw [member_foldl h]
  rfl

/-- What a handler answers has neither an id nor the mark of a shutdown. -/
theorem key_ne_of_members (reply : Reply) : ∀ m ∈ reply.members, m.1 ≠ "id" ∧ m.1 ≠ "__shutdown" := by
  cases reply with
  | status state backup clockSkewMs session error =>
    rcases session with _ | ⟨userId, deviceId, homeserver⟩ <;> rcases error with _ | e <;>
      simp [Reply.members]
  | _ => simp [Reply.members]

theorem get_id_err (id : ℕ) (e : String) : (err id e).get "id" = some (.int id) :=
  get_object (by simp)

theorem get_id_okWith (id : ℕ) {members : List (String × Value)} (h : ∀ m ∈ members, m.1 ≠ "id") :
    (okWith id members).get "id" = some (.int id) := by
  refine get_object fun m hm => ?_
  rcases List.mem_cons.mp hm with rfl | hm
  · decide
  · exact h m hm

/-- **A command is answered under its id.** -/
theorem get_id_dispatch (answer : Except String Reply) (id : ℕ) (cmd : Request) :
    (dispatch answer id cmd).get "id" = some (.int id) := by
  obtain ⟨token, -, h⟩ | ⟨-, h⟩ | ⟨-, e, -, h⟩ | ⟨-, reply, -, h⟩ := dispatch_cases answer id cmd
  · rw [h]
    exact get_id_okWith id (by simp)
  · rw [h]
    exact get_id_okWith id (by simp)
  · rw [h]
    exact get_id_err id e
  · rw [h]
    exact get_id_okWith id fun m hm => (key_ne_of_members reply m hm).1

/-- The mark of a shutdown is on the answer to a shutdown. -/
theorem get_shutdown_dispatch (answer : Except String Reply) (id : ℕ) (cmd : Request) :
    ((dispatch answer id cmd).get "__shutdown").isSome ↔ cmd = .shutdown := by
  have hnone : ∀ {members : List (String × Value)}, (∀ m ∈ members, m.1 ≠ "__shutdown") →
      ((okWith id members).get "__shutdown").isSome = false := by
    intro members h
    unfold okWith
    rw [get_object_none]
    · rfl
    · intro m hm
      simp only [List.cons_append, List.nil_append, List.mem_cons] at hm
      rcases hm with rfl | rfl | hm
      · show "id" ≠ "__shutdown"
        decide
      · show "ok" ≠ "__shutdown"
        decide
      · exact h m hm
  obtain ⟨token, rfl, h⟩ | ⟨rfl, h⟩ | ⟨hcmd, e, -, h⟩ | ⟨hcmd, reply, -, h⟩ := dispatch_cases answer id cmd
  · have hok : ((helloOk id).get "__shutdown").isSome = false := hnone (by simp)
    rw [h, hok]
    simp
  · rw [h]
    refine ⟨fun _ => rfl, fun _ => ?_⟩
    show (member (insertMember "__shutdown" (Value.bool true) _) "__shutdown").isSome
    rw [member_insertMember, if_pos rfl]
    rfl
  · have herr : (err id e).get "__shutdown" = none := get_object_none (by simp)
    rw [h, herr]
    exact ⟨nofun, fun h => absurd h hcmd⟩
  · rw [h, hnone fun m hm => (key_ne_of_members reply m hm).2]
    exact ⟨nofun, fun h => absurd h hcmd⟩

/-! ### A round -/

section Rounds
variable {serde : SerdeJson} {expected : Option String}

/-- The id a line is answered with. -/
def answerId (serde : SerdeJson) (line : String) : ℕ :=
  match envelope serde line with
  | .ok env => env.id
  | .error _ => recoveredId serde line

theorem not_greets_of_blank {t : Turn} (h : t.Blank) : ¬ t.Greets serde expected := by
  obtain ⟨line, hline, hblank⟩ := h
  rintro ⟨line', id, token, hline', hblank', -⟩
  rw [hline] at hline'
  cases hline'
  rw [hblank] at hblank'
  cases hblank'

theorem not_ends_of_blank {before : List Round} {t : Turn} (h : t.Blank) :
    ¬ Ends serde expected before t := by
  obtain ⟨line, hline, hblank⟩ := h
  rintro ⟨line', env, hline', hblank', -⟩
  rw [hline] at hline'
  cases hline'
  rw [hblank] at hblank'
  cases hblank'

/-- What a greeting decodes to. -/
theorem greets_iff {l : String × Except String Reply} {env : Envelope} (hblank : isBlank l.1 = false)
    (henv : envelope serde l.1 = .ok env) :
    (given l).Greets serde expected ↔ ∃ token, env.cmd = .hello token ∧ expected = some token := by
  constructor
  · rintro ⟨line, id, token, hline, -, hok, hexp⟩
    cases hline
    rw [henv] at hok
    cases hok
    exact ⟨token, rfl, hexp⟩
  · rintro ⟨token, hcmd, hexp⟩
    obtain ⟨id, cmd⟩ := env
    obtain rfl : cmd = .hello token := hcmd
    exact ⟨l.1, id, token, rfl, hblank, henv, hexp⟩

/-- Where a line that decodes ends the connection. -/
theorem ends_iff {before : List Round} {l : String × Except String Reply} {env : Envelope}
    (hblank : isBlank l.1 = false) (henv : envelope serde l.1 = .ok env) :
    Ends serde expected before (given l) ↔ env.cmd = .shutdown ∨
      (¬ ∃ r ∈ before, r.turn.Greets serde expected) ∧ ¬ (given l).Greets serde expected := by
  constructor
  · rintro ⟨line, env', hline, -, hok, h⟩
    cases hline
    rw [henv] at hok
    cases hok
    exact h
  · exact fun h => ⟨l.1, env, rfl, hblank, henv, h⟩

/-- A line that does not decode is no greeting and leaves the connection open. -/
theorem not_greets_of_error {l : String × Except String Reply} {e : String}
    (henv : envelope serde l.1 = .error e) : ¬ (given l).Greets serde expected := by
  rintro ⟨line, id, token, hline, -, hok, -⟩
  cases hline
  rw [henv] at hok
  cases hok

theorem not_ends_of_error {before : List Round} {l : String × Except String Reply} {e : String}
    (henv : envelope serde l.1 = .error e) : ¬ Ends serde expected before (given l) := by
  rintro ⟨line, env, hline, -, hok, -⟩
  cases hline
  rw [henv] at hok
  cases hok

/-- What a round comes to that answers its line with `v`. -/
def Answers (serde : SerdeJson) (expected : Option String) (authed : Bool) (before : List Round)
    (l : String × Except String Reply) (out : List Act × Next) : Prop :=
  (∃ v, out.1.filterMap response? = [v] ∧ v.get "id" = some (.int (answerId serde l.1))) ∧
    (Ends serde expected before (given l) ∧ out.2 = .stop (.ok ()) ∨
      ¬ Ends serde expected before (given l) ∧ ∃ authed', out.2 = .more authed' ∧
        (authed' = true ↔ authed = true ∨ (given l).Greets serde expected))

theorem reply_given (l : String × Except String Reply) (v : Value) (after : List Act × Next) :
    (given l).reply v after = (.reply v :: after.1, after.2) := rfl

/-- A command of a client that has said `hello`. -/
theorem answers_serveCommand {before : List Round} {l : String × Except String Reply} {env : Envelope}
    (hauthed : ∃ r ∈ before, r.turn.Greets serde expected) (hblank : isBlank l.1 = false)
    (henv : envelope serde l.1 = .ok env) :
    Answers serde expected true before l (serveCommand (given l) env) := by
  have hid : answerId serde l.1 = env.id := by rw [answerId, henv]
  have hends : Ends serde expected before (given l) ↔ env.cmd = .shutdown := by
    rw [ends_iff hblank henv]
    exact ⟨fun h => h.resolve_right fun hno => hno.1 hauthed, .inl⟩
  have hmark := get_shutdown_dispatch (given l).answer env.id env.cmd
  unfold serveCommand
  dsimp only
  rw [reply_given]
  by_cases hshutdown : env.cmd = .shutdown
  · rw [if_pos (hmark.mpr hshutdown)]
    exact ⟨⟨_, rfl, by rw [hid]; exact get_id_dispatch _ _ _⟩, .inl ⟨hends.mpr hshutdown, rfl⟩⟩
  · rw [if_neg fun h => hshutdown (hmark.mp h)]
    exact ⟨⟨_, rfl, by rw [hid]; exact get_id_dispatch _ _ _⟩,
      .inr ⟨fun h => hshutdown (hends.mp h), true, rfl, by simp⟩⟩

/-- The first command. -/
theorem answers_greet {before : List Round} {l : String × Except String Reply} {env : Envelope}
    (hauthed : ¬ ∃ r ∈ before, r.turn.Greets serde expected) (hblank : isBlank l.1 = false)
    (henv : envelope serde l.1 = .ok env) :
    Answers serde expected false before l (greet expected (given l) env) := by
  have hid : answerId serde l.1 = env.id := by rw [answerId, henv]
  have hgreets : (given l).Greets serde expected ↔ ∃ token, env.cmd = .hello token ∧ expected = some token :=
    greets_iff hblank henv
  have hrefused : ¬ (given l).Greets serde expected → ∀ e,
      Answers serde expected false before l
        ((given l).reply (err env.id e) ([], .stop (.ok ()))) := fun hno e =>
    ⟨⟨_, rfl, by rw [hid]; exact get_id_err _ _⟩,
      .inl ⟨(ends_iff hblank henv).mpr (.inr ⟨hauthed, hno⟩), rfl⟩⟩
  unfold greet
  split
  · next token hcmd =>
    split_ifs with hexp
    · have hyes : (given l).Greets serde expected := hgreets.mpr ⟨token, hcmd, hexp⟩
      refine ⟨⟨_, rfl, by rw [hid]; exact get_id_okWith _ (by simp)⟩,
        .inr ⟨fun h => ?_, true, rfl, by simp [hyes]⟩⟩
      rcases (ends_iff hblank henv).mp h with hshutdown | ⟨-, hno⟩
      · rw [hcmd] at hshutdown
        cases hshutdown
      · exact hno hyes
    · refine hrefused (fun h => ?_) _
      obtain ⟨token', hcmd', hexp'⟩ := hgreets.mp h
      rw [hcmd] at hcmd'
      cases hcmd'
      exact hexp hexp'
  · next hcmd =>
    refine hrefused (fun h => ?_) _
    obtain ⟨token, hcmd', -⟩ := hgreets.mp h
    exact hcmd token hcmd'

/-- **A line that is not blank** is answered once; the loop stops exactly if the line ends the connection. -/
theorem answers_handleLine {authed : Bool} {before : List Round}
    (hauthed : authed = true ↔ ∃ r ∈ before, r.turn.Greets serde expected)
    {l : String × Except String Reply} (hblank : isBlank l.1 = false) :
    Answers serde expected authed before l (handleLine serde expected authed (given l)) := by
  rcases henv : envelope serde l.1 with e | env
  · rw [handleLine_error rfl hblank henv]
    have hid : answerId serde l.1 = recoveredId serde l.1 := by rw [answerId, henv]
    refine ⟨⟨_, rfl, by rw [hid]; exact get_id_err _ _⟩, .inr ⟨?_, authed, rfl, ?_⟩⟩
    · exact not_ends_of_error henv
    · exact ⟨.inl, fun h => h.resolve_right (not_greets_of_error henv)⟩
  · rw [handleLine_ok rfl hblank henv]
    split_ifs with h
    · rw [h] at hauthed ⊢
      exact answers_serveCommand (hauthed.mp rfl) hblank henv
    · have hfalse : authed = false := by simpa using h
      rw [hfalse] at hauthed ⊢
      exact answers_greet (fun hex => Bool.false_ne_true (hauthed.mpr hex)) hblank henv

/-! ### A connection -/

variable {before rounds : List Round} {lines : List (String × Except String Reply)}

theorem served_nil (before : List Round) : Served serde expected before [] [] where
  inOrder := List.prefix_rfl
  blank _ h := absurd h List.not_mem_nil
  answered _ h := absurd h List.not_mem_nil
  ends past r future h := by simp at h
  goesOn h := absurd rfl h

/-- A round after which the loop goes on. -/
theorem served_cons {r : Round} {l : String × Except String Reply} (hturn : r.turn = given l)
    (hblank : r.turn.Blank → responses r = []) (hone : ¬ r.turn.Blank → ∃ v, responses r = [v])
    (hends : ¬ Ends serde expected before r.turn)
    (h : Served serde expected (before ++ [r]) lines rounds) :
    Served serde expected before (l :: lines) (r :: rounds) where
  inOrder := by
    show r.turn :: consumed rounds <+: _
    rw [hturn]
    exact (List.prefix_cons_inj _).mpr h.inOrder
  blank := List.forall_mem_cons.mpr ⟨hblank, h.blank⟩
  answered := List.forall_mem_cons.mpr ⟨hone, h.answered⟩
  ends past r' future hsplit hr' := by
    rcases past with _ | ⟨x, past⟩
    · obtain ⟨rfl, -⟩ := List.cons.inj hsplit
      rw [List.append_nil] at hr'
      exact absurd hr' hends
    · obtain ⟨rfl, hrest⟩ := List.cons.inj hsplit
      refine h.ends past r' future hrest ?_
      rw [List.append_assoc]
      exact hr'
  goesOn hne := by
    have hrest : consumed rounds ≠ lines.map given := fun heq => hne (by
      show r.turn :: consumed rounds = given l :: lines.map given
      rw [hturn, heq])
    obtain ⟨past, r', rfl, hr'⟩ := h.goesOn hrest
    rw [List.append_assoc] at hr'
    exact ⟨r :: past, r', rfl, hr'⟩

/-- The last round. -/
theorem served_single {r : Round} {l : String × Except String Reply} (hturn : r.turn = given l)
    (hblank : r.turn.Blank → responses r = []) (hone : ¬ r.turn.Blank → ∃ v, responses r = [v])
    (hends : Ends serde expected before r.turn) : Served serde expected before (l :: lines) [r] where
  inOrder := by
    show [r.turn] <+: given l :: lines.map given
    rw [hturn]
    exact (List.prefix_cons_inj _).mpr List.nil_prefix
  blank := List.forall_mem_cons.mpr ⟨hblank, by simp⟩
  answered := List.forall_mem_cons.mpr ⟨hone, by simp⟩
  ends past r' future hsplit _ := by
    rcases past with _ | ⟨x, past⟩
    · exact (List.cons.inj hsplit).2.symm
    · exact absurd (congrArg List.length hsplit) (by simp)
  goesOn _ := ⟨[], r, rfl, by rw [List.append_nil]; exact hends⟩

/-- **The loop**: what it answers, and with which ids. -/
theorem served_loop (authed : Bool) (lines : List (String × Except String Reply)) (before : List Round)
    (hauthed : authed = true ↔ ∃ r ∈ before, r.turn.Greets serde expected) :
    Served serde expected before lines (loop serde expected authed (lines.map given)).1 ∧
      ∀ r ∈ (loop serde expected authed (lines.map given)).1, ∀ line, r.turn.line = some line →
        ∀ v ∈ responses r, v.get "id" = some (.int (answerId serde line)) := by
  induction lines generalizing authed before with
  | nil => exact ⟨served_nil before, by simp [loop]⟩
  | cons l lines ih =>
    rw [List.map_cons, loop]
    rcases hblank : isBlank l.1 with _ | _
    · have hnot : ¬ (given l).Blank := by
        rintro ⟨line, hline, hb⟩
        cases hline
        rw [hblank] at hb
        cases hb
      obtain ⟨⟨v, hv, hid⟩, hnext⟩ := answers_handleLine hauthed hblank
      rcases hh : handleLine serde expected authed (given l) with ⟨acts, next⟩
      rw [hh] at hv hnext
      have hids : ∀ line, (given l).line = some line → ∀ w ∈ responses ⟨given l, acts⟩,
          w.get "id" = some (.int (answerId serde line)) := by
        intro line hline w hw
        cases hline
        rw [responses, hv, List.mem_singleton] at hw
        rw [hw]
        exact hid
      rcases hnext with ⟨hends, hstop⟩ | ⟨hgoes, authed', hmore, hauthed'⟩
      · rw [show next = .stop (.ok ()) from hstop]
        exact ⟨served_single rfl (fun h => absurd h hnot) (fun _ => ⟨v, hv⟩) hends,
          List.forall_mem_cons.mpr ⟨hids, by simp⟩⟩
      · rw [show next = .more authed' from hmore]
        obtain ⟨hserved, hrest⟩ := ih authed' (before ++ [⟨given l, acts⟩]) (by
          rw [hauthed', hauthed]
          simp [or_and_right, exists_or])
        exact ⟨served_cons rfl (fun h => absurd h hnot) (fun _ => ⟨v, hv⟩) hgoes hserved,
          List.forall_mem_cons.mpr ⟨hids, hrest⟩⟩
    · have hb : (given l).Blank := ⟨l.1, rfl, hblank⟩
      rw [handleLine_blank hb]
      obtain ⟨hserved, hrest⟩ := ih authed (before ++ [⟨given l, []⟩]) (by
        rw [hauthed]
        have hno : ¬ (given l).Greets serde expected := not_greets_of_blank hb
        simp [or_and_right, exists_or, hno])
      exact ⟨served_cons rfl (fun _ => rfl) (fun h => absurd hb h) (not_ends_of_blank hb) hserved,
        List.forall_mem_cons.mpr ⟨by simp [responses], hrest⟩⟩

/-! ### The ids -/

/-- The one member of its key is what `get` finds. -/
theorem get_of_only {members : List (String × Json)} {key : String} {j : Json}
    (h : only key members = some j) : (Json.obj members).get key = some j := by
  unfold only at h
  unfold Json.get
  dsimp only
  rw [← List.head?_filter, List.filter_reverse]
  split at h
  · next m hm =>
    rw [hm]
    exact h
  · cases h

/-- **A line that decodes** has the id it decodes to. -/
theorem lineId_of_envelope {line : String} {env : Envelope} (h : envelope serde line = .ok env) :
    lineId serde line = some env.id := by
  unfold envelope at h
  split at h
  · next e he =>
    obtain ⟨j, hj, hof⟩ := Option.bind_eq_some_iff.mp he
    cases h
    unfold Envelope.ofJson at hof
    split at hof
    · next members =>
      unfold lineId
      rw [hj, Option.bind_some]
      obtain ⟨_, -, hof⟩ := Option.bind_eq_some_iff.mp hof
      obtain ⟨idJson, honly, hof⟩ := Option.bind_eq_some_iff.mp hof
      obtain ⟨id, hid, hof⟩ := Option.bind_eq_some_iff.mp hof
      obtain ⟨_, -, hof⟩ := Option.bind_eq_some_iff.mp hof
      obtain ⟨cmd, -, hof⟩ := Option.bind_eq_some_iff.mp hof
      cases hof
      rw [get_of_only honly, Option.bind_some, hid]
    · cases hof
  · cases h

/-- **The id of the answer is that of the line** exactly where it can be recovered. -/
theorem answerId_iff (line : String) :
    (∀ n, lineId serde line = some n → answerId serde line = n) ↔
      ∀ e, envelope serde line = .error e → Legible serde line := by
  rcases henv : envelope serde line with e | env
  · have hid : answerId serde line = recoveredId serde line := by rw [answerId, henv]
    rw [hid]
    constructor
    · rintro h - - j n hj hn
      have hrec := h n hn
      by_cases hvalue : j.depth ≤ nestingLimit ∧ j.hasValue = true
      · exact .inr hvalue
      · left
        rw [← hrec]
        unfold recoveredId SerdeJson.value
        rw [hj, Option.bind_some, if_neg (by simpa using hvalue)]
        rfl
    · intro h n hn
      obtain ⟨j, hj, hget⟩ : ∃ j, serde.parse line = some j ∧ (j.get "id").bind asU64 = some n := by
        unfold lineId at hn
        rcases hp : serde.parse line with _ | j
        · rw [hp] at hn
          cases hn
        · rw [hp] at hn
          exact ⟨j, rfl, hn⟩
      unfold recoveredId SerdeJson.value
      rw [hj, Option.bind_some]
      rcases h e rfl j n hj hn with rfl | ⟨hdepth, hvalue⟩
      · split_ifs
        · rw [Option.bind_some, hget]
          rfl
        · rfl
      · rw [if_pos (by simp [hdepth, hvalue]), Option.bind_some, hget]
        rfl
  · have hid : answerId serde line = env.id := by rw [answerId, henv]
    rw [hid, lineId_of_envelope henv]
    refine ⟨fun _ e he => ?_, fun _ n hn => Option.some.inj hn⟩
    cases he

/-- **Requests and responses are correlated** exactly if the id of each line that is taken and does not
decode can be recovered. -/
theorem correlated_iff (serde : SerdeJson) (expected : Option String)
    (lines : List (String × Except String Reply)) :
    Served serde expected [] lines (clientLoop serde expected true (lines.map given)).1 ∧
        Echoes serde (clientLoop serde expected true (lines.map given)).1 ↔
      ∀ r ∈ (clientLoop serde expected true (lines.map given)).1, ∀ line e, r.turn.line = some line →
        isBlank line = false → envelope serde line = .error e → Legible serde line := by
  obtain ⟨hserved, hids⟩ : Served serde expected [] lines (loop serde expected false (lines.map given)).1 ∧ _ :=
    served_loop false lines [] (by simp)
  have hloop : (clientLoop serde expected true (lines.map given)).1 =
      (loop serde expected false (lines.map given)).1 := rfl
  rw [hloop]
  constructor
  · rintro ⟨-, hechoes⟩ r hr line e hline hblank he
    refine (answerId_iff line).mp (fun n hn => ?_) e he
    have hnot : ¬ r.turn.Blank := by
      rintro ⟨line', hline', hblank'⟩
      rw [hline] at hline'
      cases hline'
      rw [hblank] at hblank'
      cases hblank'
    obtain ⟨v, hv⟩ := hserved.answered r hr hnot
    have hmem : v ∈ responses r := by rw [hv]; exact List.mem_singleton_self v
    have heq := (hids r hr line hline v hmem).symm.trans (hechoes r hr line n hline hn v hmem)
    exact Int.ofNat.inj (Value.int.inj (Option.some.inj heq))
  · refine fun h => ⟨hserved, fun r hr line n hline hn v hv => ?_⟩
    rw [hids r hr line hline v hv]
    have hblank : isBlank line = false := by
      rcases hb : isBlank line with _ | _
      · rfl
      · rw [hserved.blank r hr ⟨line, hline, hb⟩] at hv
        cases hv
    rw [(answerId_iff line).mpr (fun e he => h r hr line e hline hblank he) n hn]

end Rounds

/-! ### A number out of range -/

/-- A parser that reads a `status` request with a number no float can hold. -/
def outOfRange : SerdeJson where
  parse _ := some (.obj [("id", .num "7"), ("cmd", .str "status"), ("x", .valueless)])
  describe _ := "number out of range"

def outOfRangeLine : String := "\x7b\"id\":7,\"cmd\":\"status\",\"x\":1e999\x7d"

/-- The only line of a connection. -/
def outOfRangeRounds : List Round :=
  (clientLoop outOfRange none true [given (outOfRangeLine, .ok .done)]).1

/-- **The request has the id 7** and is answered with the id 0. -/
theorem not_correlated_outOfRange :
    lineId outOfRange outOfRangeLine = some 7 ∧
    (outOfRangeRounds.map fun r => (responses r).map fun v => (v.get "id").bind Value.asU64) = [[some 0]] ∧
    ¬ (Served outOfRange none [] [(outOfRangeLine, .ok .done)] outOfRangeRounds ∧
      Echoes outOfRange outOfRangeRounds) := by
  have hid : lineId outOfRange outOfRangeLine = some 7 := by decide +kernel
  have hanswer : (outOfRangeRounds.map fun r =>
      (responses r).map fun v => (v.get "id").bind Value.asU64) = [[some 0]] := by decide +kernel
  refine ⟨hid, hanswer, fun ⟨_, hechoes⟩ => ?_⟩
  obtain ⟨r, hrounds⟩ : ∃ r, outOfRangeRounds = [r] :=
    List.length_eq_one_iff.mp (by simpa using congrArg List.length hanswer)
  have hline : r.turn.line = some outOfRangeLine := by
    have hlines : outOfRangeRounds.map (fun r => r.turn.line) = [some outOfRangeLine] := by decide +kernel
    rw [hrounds] at hlines
    exact List.singleton_inj.mp hlines
  rw [hrounds, List.map_singleton] at hanswer
  obtain ⟨v, hv, hzero⟩ := List.map_eq_singleton_iff.mp (List.singleton_inj.mp hanswer)
  have hseven := hechoes r (by rw [hrounds]; exact List.mem_singleton_self r) outOfRangeLine 7 hline hid v
    (by rw [hv]; exact List.mem_singleton_self v)
  rw [hseven] at hzero
  revert hzero
  decide

end Kmatrix.Ipc.Correlation
