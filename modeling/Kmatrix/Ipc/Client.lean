import Kmatrix.Ipc.Protocol
import Kmatrix.Sync.Events
import Mathlib.Data.List.Infix

/-! # One connection

`clientLoop` reads a connection line by line. A `Turn` is one round of the loop as the outside decides
it: what the reader yields, what the handler would answer, whether the response can be written and the
stream cloned. `handleLine` says what the loop does with it and whether it goes on.

**The gate** (`gated`): nothing is dispatched before a `hello` with the daemon's token, and only the
turn that accepts one subscribes. **The door** does not always close: a line that does not decode is
answered before the check, and the loop goes on (`handshake_iff`). -/

namespace Kmatrix.Ipc.Client

open Kmatrix.E2ee.Json (Value)
open Kmatrix.Sync.Plaintext (SerdeJson Json)
open Kmatrix.Sync.Events (isWhitespace)
open Kmatrix.Ipc.Protocol

/-- **One round of the loop.** -/
structure Turn where
  /-- A line, or none where reading fails. -/
  line : Option String
  /-- What the handler of a command comes to. -/
  answer : Except String Reply := .ok .done
  /-- The response is written in full. -/
  written : Bool := true
  /-- The stream is cloned for the bus. -/
  cloned : Bool := true

/-- What a round does that others can see. -/
inductive Act where
  | dispatch (id : ℕ) (cmd : Request)
  | reply (v : Value)
  | subscribe
  | stopServing

def Act.subscribes : Act → Bool
  | .subscribe => true
  | _ => false

def Act.stops : Act → Bool
  | .stopServing => true
  | _ => false

/-- Whether the loop goes on, and with `authed` as it then is. -/
inductive Next where
  | more (authed : Bool)
  | stop (outcome : Except String Unit)

/-- `line.trim().is_empty()`. -/
def isBlank (line : String) : Bool := line.toList.all isWhitespace

variable (serde : SerdeJson) (expected : Option String)

/-- `reply`, and what comes after it. -/
def Turn.reply (t : Turn) (v : Value) (after : List Act × Next) : List Act × Next :=
  if t.written then (.reply v :: after.1, after.2) else ([], .stop (.error "writing response"))

/-- The subscription that follows an accepted `hello`. -/
def Turn.subscribe (t : Turn) : List Act × Next :=
  if t.cloned then ([.subscribe], .more true) else ([], .stop (.error "cloning for bus"))

/-- A decoded command of a client that has said `hello`. -/
def serveCommand (t : Turn) (env : Envelope) : List Act × Next :=
  let resp := dispatch t.answer env.id env.cmd
  let (acts, next) := t.reply resp
    (if (resp.get "__shutdown").isSome then ([.stopServing], .stop (.ok ())) else ([], .more true))
  (.dispatch env.id env.cmd :: acts, next)

/-- A decoded command of a client that has not: it must be a valid `hello`. -/
def greet (t : Turn) (env : Envelope) : List Act × Next :=
  match env.cmd with
  | .hello token =>
    if expected = some token then t.reply (helloOk env.id) t.subscribe
    else t.reply (err env.id "bad token") ([], .stop (.ok ()))
  | _ => t.reply (err env.id "expected hello") ([], .stop (.ok ()))

/-- **One round of `client_loop`.** -/
def handleLine (authed : Bool) (t : Turn) : List Act × Next :=
  match t.line with
  | none => ([], .stop (.error "reading line"))
  | some line =>
    if isBlank line then ([], .more authed)
    else
      match envelope serde line with
      -- the id is recovered even though the command did not parse
      | .error e => t.reply (err (recoveredId serde line) ("bad request: " ++ e)) ([], .more authed)
      | .ok env => if authed then serveCommand t env else greet expected t env

/-- A round that was gone through, and what it did. -/
structure Round where
  turn : Turn
  acts : List Act

/-- The loop over the lines that come; their end is the end of the stream. -/
def loop : Bool → List Turn → List Round × Except String Unit
  | _, [] => ([], .ok ())
  | authed, t :: turns =>
    match handleLine serde expected authed t with
    | (acts, .stop outcome) => ([⟨t, acts⟩], outcome)
    | (acts, .more authed') =>
      let rest := loop authed' turns
      (⟨t, acts⟩ :: rest.1, rest.2)

/-- **`client_loop`.** `cloned`: the stream could be cloned for the writer. -/
def clientLoop (cloned : Bool) (turns : List Turn) : List Round × Except String Unit :=
  if cloned then loop serde expected false turns else ([], .error "cloning stream")

/-! ### What a round can do -/

/-- The round reads a line of white space. -/
def Turn.Blank (t : Turn) : Prop := ∃ line, t.line = some line ∧ isBlank line

/-- **The line is a `hello` with the daemon's token.** -/
def Turn.Greets (t : Turn) : Prop :=
  ∃ line id token, t.line = some line ∧ isBlank line = false ∧
    envelope serde line = .ok ⟨id, .hello token⟩ ∧ expected = some token

/-- The line is not blank and does not decode. -/
def Turn.Malformed (t : Turn) : Prop :=
  ∃ line e, t.line = some line ∧ isBlank line = false ∧ envelope serde line = .error e

theorem any_subscribes {acts : List Act} : acts.any Act.subscribes = true ↔ .subscribe ∈ acts := by
  rw [List.any_eq_true]
  constructor
  · rintro ⟨a, ha, hs⟩
    cases a <;> first | exact ha | cases hs
  · exact fun h => ⟨.subscribe, h, rfl⟩

section Rounds
variable {serde expected} {t : Turn}

theorem handleLine_blank (h : t.Blank) (authed : Bool) :
    handleLine serde expected authed t = ([], .more authed) := by
  obtain ⟨line, hline, hblank⟩ := h
  unfold handleLine
  rw [hline]
  exact if_pos hblank

theorem handleLine_none (hline : t.line = none) (authed : Bool) :
    handleLine serde expected authed t = ([], .stop (.error "reading line")) := by
  unfold handleLine
  rw [hline]

theorem handleLine_error {line e : String} (hline : t.line = some line) (hblank : isBlank line = false)
    (he : envelope serde line = .error e) (authed : Bool) : handleLine serde expected authed t =
      t.reply (err (recoveredId serde line) ("bad request: " ++ e)) ([], .more authed) := by
  unfold handleLine
  rw [hline]
  dsimp only
  rw [if_neg (by rw [hblank]; exact Bool.false_ne_true), he]

theorem handleLine_ok {line : String} {env : Envelope} (hline : t.line = some line)
    (hblank : isBlank line = false) (henv : envelope serde line = .ok env) (authed : Bool) :
    handleLine serde expected authed t = if authed then serveCommand t env else greet expected t env := by
  unfold handleLine
  rw [hline]
  dsimp only
  rw [if_neg (by rw [hblank]; exact Bool.false_ne_true), henv]

/-- A line that does not decode leaves the loop as it was, if it can be answered. -/
theorem handleLine_malformed (h : t.Malformed serde) (hw : t.written) (authed : Bool) :
    ∃ acts, handleLine serde expected authed t = (acts, .more authed) := by
  obtain ⟨line, e, hline, hblank, he⟩ := h
  rw [handleLine_error hline hblank he]
  unfold Turn.reply
  rw [if_pos hw]
  exact ⟨_, rfl⟩

/-- A client that has said no `hello` gets no command through, and goes on only with the daemon's token. -/
theorem greet_spec {env : Envelope} {acts : List Act} {next : Next} (h : greet expected t env = (acts, next)) :
    (∀ id cmd, .dispatch id cmd ∉ acts) ∧
      (.subscribe ∈ acts → ∃ token, env.cmd = .hello token ∧ expected = some token) ∧
      (∀ authed, next = .more authed → (∃ token, env.cmd = .hello token ∧ expected = some token) ∧
        t.written ∧ t.cloned ∧ .subscribe ∈ acts ∧ authed = true) := by
  unfold greet Turn.reply Turn.subscribe at h
  obtain ⟨id, cmd⟩ := env
  cases cmd with
  | hello token =>
    dsimp only at h
    by_cases ht : expected = some token
    · rw [if_pos ht] at h
      split_ifs at h with hw hc <;> cases h
      · exact ⟨by simp, fun _ => ⟨token, rfl, ht⟩, fun authed ha => ⟨⟨token, rfl, ht⟩, hw, hc, by simp, by
          injection ha with ha; exact ha.symm⟩⟩
      · exact ⟨by simp, by simp, by simp⟩
      · exact ⟨by simp, by simp, by simp⟩
    · rw [if_neg ht] at h
      split_ifs at h <;> cases h <;> exact ⟨by simp, by simp, by simp⟩
  | _ =>
    dsimp only at h
    split_ifs at h <;> cases h <;> exact ⟨by simp, by simp, by simp⟩

/-- **Before the handshake** nothing is dispatched; the round subscribes only if it greets; and it goes
on only if it is blank, greets and subscribes, or does not decode and is answered. -/
theorem handleLine_fresh {acts : List Act} {next : Next}
    (h : handleLine serde expected false t = (acts, next)) :
    (∀ id cmd, .dispatch id cmd ∉ acts) ∧ (.subscribe ∈ acts → t.Greets serde expected) ∧
      (∀ authed, next = .more authed →
        (t.Greets serde expected ∧ t.written ∧ t.cloned ∧ .subscribe ∈ acts ∧ authed = true) ∨
        ((t.Blank ∨ t.Malformed serde ∧ t.written) ∧ authed = false)) := by
  cases hline : t.line with
  | none =>
    rw [handleLine_none hline] at h
    cases h
    exact ⟨by simp, by simp, by simp⟩
  | some line =>
    cases hblank : isBlank line with
    | true =>
      have hb : t.Blank := ⟨line, hline, hblank⟩
      rw [handleLine_blank hb] at h
      cases h
      exact ⟨by simp, by simp, fun authed ha => Or.inr ⟨Or.inl hb, by injection ha with ha; exact ha.symm⟩⟩
    | false =>
      cases he : envelope serde line with
      | error e =>
        rw [handleLine_error hline hblank he] at h
        unfold Turn.reply at h
        split_ifs at h with hw
        · cases h
          exact ⟨by simp, by simp, fun authed ha => Or.inr ⟨Or.inr ⟨⟨line, e, hline, hblank, he⟩, hw⟩,
            by injection ha with ha; exact ha.symm⟩⟩
        · cases h
          exact ⟨by simp, by simp, by simp⟩
      | ok env =>
        rw [handleLine_ok hline hblank he, if_neg Bool.false_ne_true] at h
        obtain ⟨hdispatch, hsubscribe, hmore⟩ := greet_spec h
        have hgreets : (∃ token, env.cmd = .hello token ∧ expected = some token) → t.Greets serde expected := by
          rintro ⟨token, hcmd, ht⟩
          exact ⟨line, env.id, token, hline, hblank, by rw [he, ← hcmd], ht⟩
        exact ⟨hdispatch, fun hs => hgreets (hsubscribe hs),
          fun authed ha => Or.inl ((hmore authed ha).imp_left hgreets)⟩

theorem serveCommand_authed (t : Turn) (env : Envelope) :
    .subscribe ∉ (serveCommand t env).1 ∧
      ∀ authed, (serveCommand t env).2 = .more authed → authed = true := by
  unfold serveCommand Turn.reply
  dsimp only
  split_ifs <;> simp

/-- After the handshake no round subscribes, and the loop never forgets it. -/
theorem handleLine_authed {acts : List Act} {next : Next}
    (h : handleLine serde expected true t = (acts, next)) :
    .subscribe ∉ acts ∧ ∀ authed, next = .more authed → authed = true := by
  cases hline : t.line with
  | none =>
    rw [handleLine_none hline] at h
    cases h
    exact ⟨by simp, by simp⟩
  | some line =>
    cases hblank : isBlank line with
    | true =>
      rw [handleLine_blank ⟨line, hline, hblank⟩] at h
      cases h
      exact ⟨by simp, by simp⟩
    | false =>
      cases he : envelope serde line with
      | error e =>
        rw [handleLine_error hline hblank he] at h
        unfold Turn.reply at h
        split_ifs at h <;> cases h <;> exact ⟨by simp, by simp⟩
      | ok env =>
        rw [handleLine_ok hline hblank he, if_pos rfl] at h
        have hspec := serveCommand_authed t env
        rw [h] at hspec
        exact hspec

end Rounds

/-! ### The gate -/

/-- **The gate**: a round that dispatches comes after one that greeted, a round that subscribes greets. -/
def Gated (rounds : List Round) : Prop :=
  ∀ past r future, rounds = past ++ r :: future →
    (∀ id cmd, .dispatch id cmd ∈ r.acts → ∃ r' ∈ past, r'.turn.Greets serde expected) ∧
    (.subscribe ∈ r.acts → r.turn.Greets serde expected)

/-- The gate of a loop that has, or has not, seen a greeting already. -/
theorem gated_loop (authed : Bool) (turns : List Turn) :
    ∀ past r future, (loop serde expected authed turns).1 = past ++ r :: future →
      (∀ id cmd, .dispatch id cmd ∈ r.acts →
        authed = true ∨ ∃ r' ∈ past, r'.turn.Greets serde expected) ∧
      (.subscribe ∈ r.acts → r.turn.Greets serde expected) := by
  induction turns generalizing authed with
  | nil =>
    intro past r future h
    exact absurd h (by simp [loop])
  | cons t turns ih =>
    intro past r future h
    rcases hl : handleLine serde expected authed t with ⟨acts, next⟩
    -- what this round does, whatever comes after it
    have hhere : (∀ id cmd, .dispatch id cmd ∈ acts → authed = true) ∧
        (.subscribe ∈ acts → t.Greets serde expected) := by
      cases authed with
      | true => exact ⟨fun _ _ _ => rfl, fun hs => absurd hs (handleLine_authed hl).1⟩
      | false =>
        have hf := handleLine_fresh hl
        exact ⟨fun id cmd hd => absurd hd (hf.1 id cmd), hf.2.1⟩
    unfold loop at h
    rw [hl] at h
    cases next with
    | stop outcome =>
      rcases past with _ | ⟨r', past⟩
      · cases h
        exact ⟨fun id cmd hd => Or.inl (hhere.1 id cmd hd), hhere.2⟩
      · exact absurd (congrArg List.length h) (by simp)
    | more authed' =>
      rcases past with _ | ⟨r', past⟩
      · obtain ⟨rfl, -⟩ := List.cons.inj h
        exact ⟨fun id cmd hd => Or.inl (hhere.1 id cmd hd), hhere.2⟩
      · obtain ⟨rfl, hrest⟩ := List.cons.inj h
        obtain ⟨hd, hs⟩ := ih authed' past r future hrest
        refine ⟨fun id cmd hmem => ?_, hs⟩
        rcases hd id cmd hmem with rfl | ⟨r', hr', hg⟩
        · cases authed with
          | true => exact Or.inl rfl
          | false =>
            rcases (handleLine_fresh hl).2.2 true rfl with ⟨hg, -⟩ | ⟨-, hne⟩
            · exact Or.inr ⟨_, List.mem_cons_self, hg⟩
            · cases hne
        · exact Or.inr ⟨r', List.mem_cons_of_mem _ hr', hg⟩

/-- **Nothing is dispatched and nothing subscribed before the handshake**, whatever lines come. -/
theorem gated (cloned : Bool) (turns : List Turn) :
    Gated serde expected (clientLoop serde expected cloned turns).1 := by
  intro past r future h
  unfold clientLoop at h
  cases cloned with
  | false => exact absurd h (by simp)
  | true =>
    obtain ⟨hd, hs⟩ := gated_loop serde expected false turns past r future h
    exact ⟨fun id cmd hmem => (hd id cmd hmem).resolve_left Bool.false_ne_true, hs⟩

/-! ### The door -/

/-- The lines that were taken. -/
def consumed (rounds : List Round) : List Turn := rounds.map Round.turn

/-- **The door**: where the first line that is not blank does not greet, nothing is taken after it. -/
def Closes (cloned : Bool) (turns : List Turn) : Prop :=
  ∀ blanks t later, turns = blanks ++ t :: later → (∀ b ∈ blanks, b.Blank) → ¬ t.Blank →
    ¬ t.Greets serde expected →
    consumed (clientLoop serde expected cloned turns).1 <+: blanks ++ [t]

/-- **The first line that is not blank decodes**, whatever it says; or it is the last line, or its
answer cannot be written. -/
def Decodes (cloned : Bool) (turns : List Turn) : Prop :=
  cloned = true → ∀ blanks t later, turns = blanks ++ t :: later → (∀ b ∈ blanks, b.Blank) →
    t.Malformed serde → t.written → later = []

theorem loop_blanks (authed : Bool) {blanks : List Turn} (h : ∀ b ∈ blanks, b.Blank)
    (turns : List Turn) :
    consumed (loop serde expected authed (blanks ++ turns)).1 =
      blanks ++ consumed (loop serde expected authed turns).1 := by
  induction blanks with
  | nil => rfl
  | cons b blanks ih =>
    rw [List.cons_append, loop, handleLine_blank (h b List.mem_cons_self)]
    dsimp only
    exact congrArg (b :: ·) (ih fun b' hb' => h b' (List.mem_cons_of_mem _ hb'))

/-- A loop that is given a line takes it. -/
theorem consumed_loop_cons (authed : Bool) (t : Turn) (turns : List Turn) :
    ∃ rest, consumed (loop serde expected authed (t :: turns)).1 = t :: rest := by
  rcases hl : handleLine serde expected authed t with ⟨acts, _ | outcome⟩ <;>
  · rw [loop, hl]
    exact ⟨_, rfl⟩

theorem not_blank_of_malformed {t : Turn} (h : t.Malformed serde) : ¬ t.Blank := by
  obtain ⟨line, e, hline, hblank, -⟩ := h
  rintro ⟨line', hline', hblank'⟩
  rw [hline] at hline'
  cases hline'
  rw [hblank] at hblank'
  cases hblank'

theorem not_greets_of_malformed {t : Turn} (h : t.Malformed serde) : ¬ t.Greets serde expected := by
  obtain ⟨line, e, hline, -, he⟩ := h
  rintro ⟨line', id, token, hline', -, hok, -⟩
  rw [hline] at hline'
  cases hline'
  rw [he] at hok
  cases hok

/-- A line that neither greets nor fails to decode is the last one taken. -/
theorem consumed_refused {t : Turn} (hblank : ¬ t.Blank) (hgreets : ¬ t.Greets serde expected)
    (hm : t.Malformed serde → t.written = false) (later : List Turn) :
    consumed (loop serde expected false (t :: later)).1 = [t] := by
  rcases hl : handleLine serde expected false t with ⟨acts, authed | outcome⟩
  · rcases (handleLine_fresh hl).2.2 authed rfl with ⟨hg, -⟩ | ⟨hb | ⟨hbad, hw⟩, -⟩
    · exact absurd hg hgreets
    · exact absurd hb hblank
    · rw [hm hbad] at hw
      cases hw
  · rw [loop, hl]
    rfl

/-- **The handshake**: the gate holds for every sequence of lines; the door closes exactly if the first
line that is not blank decodes, or nothing follows it, or its answer cannot be written. -/
theorem handshake_iff (cloned : Bool) (turns : List Turn) :
    Gated serde expected (clientLoop serde expected cloned turns).1 ∧
      Closes serde expected cloned turns ↔ Decodes serde cloned turns := by
  constructor
  · rintro ⟨-, hcloses⟩ rfl blanks t later rfl hblanks hbad hw
    have hpre := hcloses blanks t later rfl hblanks (not_blank_of_malformed serde hbad)
      (not_greets_of_malformed serde expected hbad)
    -- the loop goes on after `t`, so whatever comes next is taken too
    obtain ⟨acts, hl⟩ : ∃ acts, handleLine serde expected false t = (acts, .more false) :=
      handleLine_malformed hbad hw false
    have htaken : consumed (clientLoop serde expected true (blanks ++ t :: later)).1 =
        blanks ++ t :: consumed (loop serde expected false later).1 := by
      show consumed (loop serde expected false (blanks ++ t :: later)).1 = _
      rw [loop_blanks serde expected false hblanks, loop, hl]
      rfl
    rw [htaken] at hpre
    rcases later with _ | ⟨t', later⟩
    · rfl
    · obtain ⟨rest, hrest⟩ := consumed_loop_cons serde expected false t' later
      rw [hrest] at hpre
      have := hpre.length_le
      simp at this
  · refine fun hdec => ⟨gated serde expected cloned turns, ?_⟩
    rintro blanks t later rfl hblanks hblank hgreets
    cases cloned with
    | false => exact List.nil_prefix
    | true =>
      show consumed (loop serde expected false (blanks ++ t :: later)).1 <+: _
      rw [loop_blanks serde expected false hblanks, List.prefix_append_right_inj]
      by_cases hm : t.Malformed serde ∧ t.written
      · obtain rfl := hdec rfl blanks t later rfl hblanks hm.1 hm.2
        obtain ⟨acts, hl⟩ : ∃ acts, handleLine serde expected false t = (acts, .more false) :=
          handleLine_malformed hm.1 hm.2 false
        rw [loop, hl]
        exact List.prefix_rfl
      · rw [consumed_refused serde expected hblank hgreets
          (fun hbad => by simpa using fun hw => hm ⟨hbad, hw⟩)]

/-! ### A command that does not exist -/

def rebootLine : String := "\x7b\"id\":1,\"cmd\":\"reboot\"\x7d"

def helloLine : String := "\x7b\"id\":2,\"cmd\":\"hello\",\"token\":\"secret\"\x7d"

/-- A parser that knows two lines. -/
def twoLines : SerdeJson where
  parse line :=
    if line = rebootLine then some (.obj [("id", .num "1"), ("cmd", .str "reboot")])
    else if line = helloLine then
      some (.obj [("id", .num "2"), ("cmd", .str "hello"), ("token", .str "secret")])
    else none
  describe _ := "unknown variant"

/-- An unknown command comes first, the door stays open, and the `hello` after it is accepted. -/
theorem handshake_unknown_command :
    ¬ (Gated twoLines (some "secret")
          (clientLoop twoLines (some "secret") true [{ line := rebootLine }, { line := helloLine }]).1 ∧
        Closes twoLines (some "secret") true [{ line := rebootLine }, { line := helloLine }]) := by
  rintro ⟨-, h⟩
  have hbad : ({ line := rebootLine } : Turn).Malformed twoLines :=
    ⟨rebootLine, "unknown variant", rfl, by decide +kernel, by decide +kernel⟩
  have hpre := h [] { line := rebootLine } [{ line := helloLine }] rfl (by simp)
    (not_blank_of_malformed _ hbad) (not_greets_of_malformed _ _ hbad)
  have hlen := hpre.length_le
  have : (consumed (clientLoop twoLines (some "secret") true
      [{ line := rebootLine }, { line := helloLine }]).1).length = 2 := by decide +kernel
  rw [this] at hlen
  simp at hlen

end Kmatrix.Ipc.Client
