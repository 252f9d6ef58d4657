import Kmatrix.E2ee.Json
import Kmatrix.Lib.Trace
import Kmatrix.Lib.Wire
import Mathlib.Logic.Function.Basic

/-! # Lines on a socket

Two writers share the socket of a connection: its own thread, which writes one reply at a time, and
`Bus::publish`, which holds the client list while it writes one event to one client after the other.
`write_all` puts a line onto the socket in pieces, any number of bytes at a time, until it is done or a
write fails; a failed reply ends the thread, a failed event drops the client from the list and nothing
else. The messages of a run are numbered in the order in which they are begun; `message` lists them.

Nothing orders the pieces of the two writers. **The lines stay whole** exactly in the runs in which no
message puts its first byte onto a socket where another is half written (`intact_iff`). -/

namespace Kmatrix.Ipc.Framing

open Kmatrix.E2ee.Json (Value writeCanonical)
open Kmatrix.Lib.Trace
open Kmatrix.Lib.Wire

/-- The UTF-8 bytes of a text. -/
def utf8 (s : String) : List UInt8 := s.toList.flatMap String.utf8EncodeChar

/-- `serde_json::to_string` and the newline; its compact form of a value is the text of
`writeCanonical`. -/
def frame (v : Value) : List UInt8 := utf8 (writeCanonical v) ++ utf8 "\n"

theorem frame_ne_nil (v : Value) : frame v ≠ [] := by
  unfold frame
  have : utf8 "\n" ≠ [] := by decide +kernel
  simp [this]

/-- A `write_all` under way: the message and the bytes that are left. -/
structure Writing where
  msg : ℕ
  left : List UInt8

/-- A `publish` under way, with the client list locked. -/
structure Publishing where
  msg : ℕ
  /-- The client that is being written to. -/
  now : Option (ℕ × List UInt8)
  todo : List ℕ

/-- The connections and the bus. -/
structure Net where
  /-- What has been put onto the socket of a connection. -/
  wire : ℕ → List (ℕ × UInt8)
  /-- The reply its thread is writing. -/
  replying : ℕ → Option Writing
  /-- Its thread has returned. -/
  returned : ℕ → Bool
  /-- It has been on the bus. -/
  joined : ℕ → Bool
  clients : List ℕ
  lock : Option Publishing
  next : ℕ

inductive Event where
  /-- The thread of a connection begins a reply. -/
  | reply (c : ℕ)
  /-- The socket takes `k + 1` bytes of it. -/
  | write (c k : ℕ)
  | replyFails (c : ℕ)
  /-- `client_loop` returns between two replies. -/
  | leave (c : ℕ)
  | add (c : ℕ)
  | remove (c : ℕ)
  | publish
  /-- `publish` goes on to the next client, or is done. -/
  | turn
  /-- The socket takes `k + 1` bytes of the event. -/
  | push (k : ℕ)
  /-- The write to the client fails, after five seconds at most. -/
  | giveUp
  deriving DecidableEq, Repr

variable (message : ℕ → Value)

/-- Bytes of message `n` onto the socket of `c`. -/
def Net.put (s : Net) (c n : ℕ) (bs : List UInt8) : Net :=
  { s with wire := Function.update s.wire c (s.wire c ++ tag n bs) }

/-- `reply`: its line, from the first byte. -/
def Net.beginReply (s : Net) (c : ℕ) : Net :=
  { s with replying := Function.update s.replying c (some ⟨s.next, frame (message s.next)⟩),
           next := s.next + 1 }

/-- A piece of a reply. -/
def Net.writeReply (s : Net) (c k : ℕ) (w : Writing) : Net :=
  let left := w.left.drop (k + 1)
  { s.put c w.msg (w.left.take (k + 1)) with
    replying := Function.update s.replying c (if left = [] then none else some ⟨w.msg, left⟩) }

/-- The thread of `c` is done. -/
def Net.finish (s : Net) (c : ℕ) : Net :=
  { s with replying := Function.update s.replying c none, returned := Function.update s.returned c true }

/-- A piece of an event. -/
def Net.writeEvent (s : Net) (k : ℕ) (p : Publishing) (c : ℕ) (bytes : List UInt8) : Net :=
  let left := bytes.drop (k + 1)
  { s.put c p.msg (bytes.take (k + 1)) with
    lock := some { p with now := if left = [] then none else some (c, left) } }

/-- **One step.** A step whose writer is elsewhere, or that needs the lock while it is held, changes
nothing. -/
def step (s : Net) : Event → Net × Unit
  | .reply c =>
    if s.returned c = false ∧ (s.replying c).isNone then (s.beginReply message c, ()) else (s, ())
  | .write c k =>
    match s.replying c with
    | some w => (s.writeReply c k w, ())
    | none => (s, ())
  | .replyFails c => if (s.replying c).isSome then (s.finish c, ()) else (s, ())
  | .leave c => if (s.replying c).isNone then (s.finish c, ()) else (s, ())
  | .add c =>
    if s.lock.isNone ∧ s.joined c = false ∧ s.returned c = false ∧ (s.replying c).isNone then
      ({ s with clients := s.clients ++ [c], joined := Function.update s.joined c true }, ())
    else (s, ())
  | .remove c =>
    if s.lock.isNone ∧ s.returned c then ({ s with clients := s.clients.filter fun c' => c' ≠ c }, ())
    else (s, ())
  | .publish =>
    if s.lock.isNone then
      ({ s with lock := some ⟨s.next, none, s.clients⟩, next := s.next + 1 }, ())
    else (s, ())
  | .turn =>
    match s.lock with
    | some ⟨msg, none, c :: todo⟩ =>
      ({ s with lock := some ⟨msg, some (c, frame (message msg)), todo⟩ }, ())
    | some ⟨_, none, []⟩ => ({ s with lock := none }, ())
    | _ => (s, ())
  | .push k =>
    match s.lock with
    | some ⟨msg, some (c, bytes), todo⟩ => (s.writeEvent k ⟨msg, some (c, bytes), todo⟩ c bytes, ())
    | _ => (s, ())
  | .giveUp =>
    match s.lock with
    | some ⟨msg, some (c, _), todo⟩ =>
      ({ s with lock := some ⟨msg, none, todo⟩, clients := s.clients.filter fun c' => c' ≠ c }, ())
    | _ => (s, ())

def start : Net where
  wire _ := []
  replying _ := none
  returned _ := false
  joined _ := false
  clients := []
  lock := none
  next := 0

/-- What message `n` says. -/
def text (n : ℕ) : List UInt8 := frame (message n)

/-! ### The claim -/

/-- **A socket is intact**: whole lines, each once, and then the beginning of at most one more; and
after a line that is half written, given up or not, nothing else has been written. -/
def Intact (w : List (ℕ × UInt8)) : Prop :=
  Framed (text message) w ∧
    ∀ n, Half (text message) w n → ∀ before i, w = before ++ [i] → i.1 = n

/-- Every socket is intact at every moment of the run. -/
def IntactThroughout (events : List Event) : Prop :=
  ∀ done later, events = done ++ later →
    ∀ c, Intact message ((final (step message) start done).wire c)

/-- The first piece of message `n` finds no other message half written on the socket of `c`. -/
def Begins (s : Net) (c n : ℕ) : Prop :=
  wrote (s.wire c) n = [] → ∀ m, ¬ Half (text message) (s.wire c) m

/-- **No message begins where another is half written**, as a condition on one step. -/
def Heeds (s : Net) : Event → Prop
  | .write c _ => ∀ w, s.replying c = some w → Begins message s c w.msg
  | .push _ => ∀ p c bytes, s.lock = some p → p.now = some (c, bytes) → Begins message s c p.msg
  | _ => True

/-! ### The writers -/

/-- **Each writer is where its message is**: what is on the socket and what is left make up the line.
Messages are numbered apart, and a `publish` comes to a client once. -/
structure Writers (s : Net) : Prop where
  reply : ∀ c w, s.replying c = some w →
    w.left ≠ [] ∧ wrote (s.wire c) w.msg ++ w.left = text message w.msg ∧ w.msg < s.next
  event : ∀ p c bytes, s.lock = some p → p.now = some (c, bytes) →
    bytes ≠ [] ∧ wrote (s.wire c) p.msg ++ bytes = text message p.msg
  apart : ∀ p, s.lock = some p → p.msg < s.next ∧ ∀ c w, s.replying c = some w → w.msg ≠ p.msg
  todo : ∀ p, s.lock = some p → ∀ c ∈ p.todo, wrote (s.wire c) p.msg = []
  once : ∀ p, s.lock = some p → ((p.now.map Prod.fst).toList ++ p.todo).Nodup
  fresh : ∀ c n, wrote (s.wire c) n ≠ [] → n < s.next
  clients : s.clients.Nodup ∧ ∀ c ∈ s.clients, s.joined c = true

section Steps
variable {message} {s : Net}

theorem writers_start : Writers message start where
  reply _ _ h := nomatch h
  event _ _ _ h := nomatch h
  apart _ h := nomatch h
  todo _ h := nomatch h
  once _ h := nomatch h
  fresh _ _ h := absurd rfl h
  clients := ⟨List.nodup_nil, fun _ h => nomatch h⟩

theorem Writers.unwritten (h : Writers message s) (c : ℕ) : wrote (s.wire c) s.next = [] := by
  by_contra hne
  exact absurd (h.fresh c s.next hne) (lt_irrefl _)

theorem wrote_put {c n : ℕ} {bs : List UInt8} (c' m : ℕ) :
    wrote ((s.put c n bs).wire c') m =
      wrote (s.wire c') m ++ if c' = c ∧ m = n then bs else [] := by
  unfold Net.put
  dsimp only
  rw [Function.update_apply]
  by_cases hc : c' = c
  · rw [if_pos hc, wrote_append, wrote_tag, hc]
    simp
  · rw [if_neg hc, if_neg fun h => hc h.1, List.append_nil]

theorem wrote_put_ne {c n : ℕ} {bs : List UInt8} {c' m : ℕ} (h : c' ≠ c ∨ m ≠ n) :
    wrote ((s.put c n bs).wire c') m = wrote (s.wire c') m := by
  rw [wrote_put, if_neg (by tauto), List.append_nil]

theorem fresh_put (h : Writers message s) {c n : ℕ} {bs : List UInt8} (hn : n < s.next) (c' m : ℕ)
    (hm : wrote ((s.put c n bs).wire c') m ≠ []) : m < s.next := by
  by_cases hmn : m = n
  · rw [hmn]
    exact hn
  · rw [wrote_put_ne (Or.inr hmn)] at hm
    exact h.fresh c' m hm

theorem Writers.beginReply (h : Writers message s) (c : ℕ) :
    Writers message (s.beginReply message c) where
  reply c' w hw := by
    unfold Net.beginReply at hw ⊢
    dsimp only at hw ⊢
    rw [Function.update_apply] at hw
    split_ifs at hw with hc
    · cases hw
      rw [hc]
      exact ⟨frame_ne_nil _, by rw [h.unwritten c]; rfl, Nat.lt_succ_self _⟩
    · obtain ⟨hne, heq, hlt⟩ := h.reply c' w hw
      exact ⟨hne, heq, hlt.trans (Nat.lt_succ_self _)⟩
  event := h.event
  apart p hp := by
    obtain ⟨hlt, hne⟩ := h.apart p hp
    refine ⟨hlt.trans (Nat.lt_succ_self _), fun c' w hw => ?_⟩
    unfold Net.beginReply at hw
    dsimp only at hw
    rw [Function.update_apply] at hw
    split_ifs at hw with hc
    · cases hw
      exact Ne.symm hlt.ne
    · exact hne c' w hw
  todo := h.todo
  once := h.once
  fresh c' n hn := (h.fresh c' n hn).trans (Nat.lt_succ_self _)
  clients := h.clients

theorem Writers.writeReply (h : Writers message s) {c : ℕ} (k : ℕ) {w : Writing}
    (hw : s.replying c = some w) : Writers message (s.writeReply c k w) where
  reply c' w' hw' := by
    unfold Net.writeReply at hw' ⊢
    dsimp only at hw' ⊢
    rw [Function.update_apply] at hw'
    obtain ⟨-, heq, hlt⟩ := h.reply c w hw
    split_ifs at hw' with hc hleft
    · cases hw'
      refine ⟨hleft, ?_, hlt⟩
      dsimp only
      rw [wrote_put, if_pos ⟨hc, rfl⟩, List.append_assoc, List.take_append_drop, hc, heq]
    · rw [wrote_put_ne (Or.inl hc)]
      exact h.reply c' w' hw'
  event p c' bytes hp hnow := by
    rw [show (s.writeReply c k w).wire = (s.put c w.msg (w.left.take (k + 1))).wire from rfl,
      wrote_put_ne (Or.inr ((h.apart p hp).2 c w hw).symm)]
    exact h.event p c' bytes hp hnow
  apart p hp := by
    obtain ⟨hlt, hne⟩ := h.apart p hp
    refine ⟨hlt, fun c' w' hw' => ?_⟩
    unfold Net.writeReply at hw'
    dsimp only at hw'
    rw [Function.update_apply] at hw'
    split_ifs at hw' with hc hleft
    · cases hw'
      exact hne c w hw
    · exact hne c' w' hw'
  todo p hp c' hc' := by
    rw [show (s.writeReply c k w).wire = (s.put c w.msg (w.left.take (k + 1))).wire from rfl,
      wrote_put_ne (Or.inr ((h.apart p hp).2 c w hw).symm)]
    exact h.todo p hp c' hc'
  once := h.once
  fresh := fresh_put h (h.reply c w hw).2.2
  clients := h.clients

theorem Writers.finish (h : Writers message s) (c : ℕ) : Writers message (s.finish c) where
  reply c' w hw := by
    unfold Net.finish at hw
    dsimp only at hw
    rw [Function.update_apply] at hw
    split_ifs at hw
    exact h.reply c' w hw
  event := h.event
  apart p hp := by
    refine ⟨(h.apart p hp).1, fun c' w hw => ?_⟩
    unfold Net.finish at hw
    dsimp only at hw
    rw [Function.update_apply] at hw
    split_ifs at hw
    exact (h.apart p hp).2 c' w hw
  todo := h.todo
  once := h.once
  fresh := h.fresh
  clients := h.clients

/-- The list may change while nobody publishes, and lose the client that is given up. -/
theorem Writers.list (h : Writers message s) {clients : List ℕ} {joined : ℕ → Bool}
    (hc : clients.Nodup ∧ ∀ c ∈ clients, joined c = true) :
    Writers message { s with clients := clients, joined := joined } :=
  ⟨h.reply, h.event, h.apart, h.todo, h.once, h.fresh, hc⟩

theorem Writers.publish (h : Writers message s) :
    Writers message { s with lock := some ⟨s.next, none, s.clients⟩, next := s.next + 1 } where
  reply c w hw := by
    obtain ⟨hne, heq, hlt⟩ := h.reply c w hw
    exact ⟨hne, heq, hlt.trans (Nat.lt_succ_self _)⟩
  event p c bytes hp hnow := by
    cases hp
    cases hnow
  apart p hp := by
    cases hp
    exact ⟨Nat.lt_succ_self _, fun c w hw => (h.reply c w hw).2.2.ne⟩
  todo p hp c _ := by
    cases hp
    exact h.unwritten c
  once p hp := by
    cases hp
    exact h.clients.1
  fresh c n hn := (h.fresh c n hn).trans (Nat.lt_succ_self _)
  clients := h.clients

/-- `publish` turns to a client it has still to write to, or to none. -/
theorem Writers.turn (h : Writers message s) {p : Publishing} (hp : s.lock = some p)
    {now : Option (ℕ × List UInt8)} {todo : List ℕ}
    (hnow : ∀ c bytes, now = some (c, bytes) → bytes = text message p.msg ∧ c ∈ p.todo)
    (hsub : ((now.map Prod.fst).toList ++ todo).Sublist ((p.now.map Prod.fst).toList ++ p.todo))
    (htodo : ∀ c ∈ todo, c ∈ p.todo) :
    Writers message { s with lock := some ⟨p.msg, now, todo⟩ } where
  reply := h.reply
  event p' c bytes hp' hn := by
    cases hp'
    obtain ⟨rfl, hc⟩ := hnow c bytes hn
    exact ⟨frame_ne_nil _, by rw [h.todo p hp c hc]; rfl⟩
  apart p' hp' := by
    cases hp'
    exact h.apart p hp
  todo p' hp' c hc := by
    cases hp'
    exact h.todo p hp c (htodo c hc)
  once p' hp' := by
    cases hp'
    exact (h.once p hp).sublist hsub
  fresh := h.fresh
  clients := h.clients

theorem Writers.unlock (h : Writers message s) : Writers message { s with lock := none } where
  reply := h.reply
  event _ _ _ hp := nomatch hp
  apart _ hp := nomatch hp
  todo _ hp := nomatch hp
  once _ hp := nomatch hp
  fresh := h.fresh
  clients := h.clients

theorem Writers.writeEvent (h : Writers message s) (k : ℕ) {p : Publishing} {c : ℕ}
    {bytes : List UInt8} (hp : s.lock = some p) (hnow : p.now = some (c, bytes)) :
    Writers message (s.writeEvent k p c bytes) where
  reply c' w hw := by
    rw [show (s.writeEvent k p c bytes).wire = (s.put c p.msg (bytes.take (k + 1))).wire from rfl,
      wrote_put_ne (Or.inr ((h.apart p hp).2 c' w hw))]
    exact h.reply c' w hw
  event p' c' bytes' hp' hnow' := by
    unfold Net.writeEvent at hp' ⊢
    dsimp only at hp' ⊢
    cases hp'
    dsimp only at hnow' ⊢
    split_ifs at hnow' with hleft
    cases hnow'
    refine ⟨hleft, ?_⟩
    rw [wrote_put, if_pos ⟨rfl, rfl⟩, List.append_assoc, List.take_append_drop,
      (h.event p c bytes hp hnow).2]
  apart p' hp' := by
    cases hp'
    exact h.apart p hp
  todo p' hp' c' hc' := by
    cases hp'
    have honce := h.once p hp
    rw [hnow] at honce
    have hne : c' ≠ c := by
      rintro rfl
      exact (List.nodup_cons.mp honce).1 hc'
    rw [show (s.writeEvent k p c bytes).wire = (s.put c p.msg (bytes.take (k + 1))).wire from rfl,
      wrote_put_ne (Or.inl hne)]
    exact h.todo p hp c' hc'
  once p' hp' := by
    cases hp'
    have honce := h.once p hp
    rw [hnow] at honce
    dsimp only
    split_ifs
    · exact honce.sublist (List.sublist_cons_self c p.todo)
    · exact honce
  fresh := fresh_put h (h.apart p hp).1
  clients := h.clients

/-- **Every step leaves the writers where their messages are.** -/
theorem writers_step (h : Writers message s) (e : Event) : Writers message (step message s e).1 := by
  cases e with
  | reply c =>
    unfold step
    dsimp only
    split_ifs
    · exact h.beginReply c
    · exact h
  | write c k =>
    unfold step
    dsimp only
    cases hw : s.replying c with
    | some w => exact h.writeReply k hw
    | none => exact h
  | replyFails c =>
    unfold step
    dsimp only
    split_ifs
    · exact h.finish c
    · exact h
  | leave c =>
    unfold step
    dsimp only
    split_ifs
    · exact h.finish c
    · exact h
  | add c =>
    unfold step
    dsimp only
    split_ifs with hc
    · refine h.list ⟨?_, fun c' hc' => ?_⟩
      · refine List.nodup_append.mpr ⟨h.clients.1, List.nodup_singleton c, fun a ha b hb => ?_⟩
        rw [List.mem_singleton.mp hb]
        rintro rfl
        rw [h.clients.2 a ha] at hc
        exact absurd hc.2.1 (by simp)
      · rw [Function.update_apply]
        split_ifs with hcc
        · rfl
        · rcases List.mem_append.mp hc' with hc' | hc'
          · exact h.clients.2 c' hc'
          · exact absurd (List.mem_singleton.mp hc') hcc
    · exact h
  | remove c =>
    unfold step
    dsimp only
    split_ifs
    · exact h.list ⟨h.clients.1.filter _, fun c' hc' => h.clients.2 c' (List.mem_of_mem_filter hc')⟩
    · exact h
  | publish =>
    unfold step
    dsimp only
    split_ifs
    · exact h.publish
    · exact h
  | turn =>
    unfold step
    dsimp only
    split
    · rename_i msg c todo hp
      refine h.turn hp (fun c' bytes hb => ?_) (List.Sublist.refl _) fun c' hc' =>
        List.mem_cons_of_mem _ hc'
      cases hb
      exact ⟨rfl, List.mem_cons_self⟩
    · exact h.unlock
    · exact h
  | push k =>
    unfold step
    dsimp only
    split
    · rename_i msg c bytes todo hp
      exact h.writeEvent k hp rfl
    · exact h
  | giveUp =>
    unfold step
    dsimp only
    split
    · rename_i msg c bytes todo hp
      have hturn : Writers message { s with lock := some ⟨msg, none, todo⟩ } :=
        h.turn hp nofun (List.sublist_cons_self _ _) fun c' hc' => hc'
      exact hturn.list ⟨h.clients.1.filter _, fun c' hc' =>
        h.clients.2 c' (List.mem_of_mem_filter hc')⟩
    · exact h

/-! ### The lines -/

/-- **What a step puts onto a socket**: nothing, or a piece of one message by the writer it belongs to. -/
theorem wire_step (h : Writers message s) (e : Event) :
    (step message s e).1.wire = s.wire ∧ Heeds message s e ∨
      ∃ c n bs, bs ≠ [] ∧ wrote (s.wire c) n ++ bs <+: text message n ∧
        (step message s e).1.wire = (s.put c n bs).wire ∧
        (Heeds message s e ↔ Begins message s c n) := by
  have hpiece : ∀ {c n k : ℕ} {left : List UInt8}, left ≠ [] →
      wrote (s.wire c) n ++ left = text message n →
      left.take (k + 1) ≠ [] ∧ wrote (s.wire c) n ++ left.take (k + 1) <+: text message n := by
    intro c n k left hne heq
    refine ⟨by simpa using hne, ?_⟩
    rw [← heq, List.prefix_append_right_inj]
    exact List.take_prefix _ _
  cases e with
  | write c k =>
    unfold step
    dsimp only
    cases hw : s.replying c with
    | none => exact Or.inl ⟨rfl, fun w hw' => nomatch hw.symm.trans hw'⟩
    | some w =>
      obtain ⟨hne, heq, -⟩ := h.reply c w hw
      obtain ⟨hbs, hpre⟩ := hpiece (k := k) hne heq
      refine Or.inr ⟨c, w.msg, w.left.take (k + 1), hbs, hpre, rfl, fun hh => hh w hw, ?_⟩
      intro hb w' hw'
      cases hw.symm.trans hw'
      exact hb
  | push k =>
    unfold step
    dsimp only
    split
    · rename_i msg c bytes todo hp
      obtain ⟨hne, heq⟩ := h.event _ c bytes hp rfl
      obtain ⟨hbs, hpre⟩ := hpiece (k := k) hne heq
      refine Or.inr ⟨c, msg, bytes.take (k + 1), hbs, hpre, rfl, fun hh => hh _ c bytes hp rfl, ?_⟩
      intro hb p' c' bytes' hp' hnow'
      cases hp.symm.trans hp'
      cases hnow'
      exact hb
    · rename_i hno
      refine Or.inl ⟨rfl, fun p c bytes hp hnow => ?_⟩
      obtain ⟨msg, now, todo⟩ := p
      subst hnow
      exact absurd hp (hno msg c bytes todo)
  | turn => unfold step; dsimp only; split <;> exact Or.inl ⟨rfl, trivial⟩
  | giveUp => unfold step; dsimp only; split <;> exact Or.inl ⟨rfl, trivial⟩
  | _ => unfold step; dsimp only; split_ifs <;> exact Or.inl ⟨rfl, trivial⟩

/-- A framed socket stays framed by a step that heeds. -/
theorem framed_step (h : Writers message s) (hf : ∀ c, Framed (text message) (s.wire c)) {e : Event}
    (hheeds : Heeds message s e) (c : ℕ) :
    Framed (text message) ((step message s e).1.wire c) := by
  rcases wire_step h e with ⟨heq, -⟩ | ⟨c', n, bs, hbs, hpre, heq, hiff⟩
  · rw [heq]
    exact hf c
  · rw [heq]
    unfold Net.put
    dsimp only
    rw [Function.update_apply]
    split_ifs with hc
    · exact (hf c').push hbs hpre (hiff.mp hheeds)
    · exact hf c

/-- A step that does not heed leaves a socket that is not framed. -/
theorem not_framed_step (h : Writers message s) {e : Event} (hno : ¬ Heeds message s e) :
    ∃ c, ¬ Framed (text message) ((step message s e).1.wire c) := by
  rcases wire_step h e with ⟨-, hh⟩ | ⟨c, n, bs, hbs, -, heq, hiff⟩
  · exact absurd hh hno
  · unfold Begins at hiff
    rw [hiff] at hno
    push Not at hno
    obtain ⟨hnone, m, hhalf⟩ := hno
    refine ⟨c, ?_⟩
    rw [heq]
    unfold Net.put
    dsimp only
    rw [Function.update_self]
    exact not_framed_push hhalf (by rintro rfl; exact hhalf.1 hnone) hbs

end Steps

theorem writers_final (events : List Event) : Writers message (final (step message) start events) :=
  invariant (I := fun _ s => Writers message s) (C := fun _ _ => True)
    (fun _ _ e h _ => writers_step h e) events [] start writers_start fun _ _ => trivial

/-- **The lines stay whole** in exactly the runs in which no message begins on a socket where another is
half written. -/
theorem intact_iff (events : List Event) :
    IntactThroughout message events ↔
      ∀ o ∈ trace (step message) start events, Heeds message o.before o.input := by
  constructor
  · intro hintact o ho
    obtain ⟨past, future, hsplit⟩ := List.append_of_mem ho
    obtain ⟨xs, ys, rfl, -, heq⟩ := split_trace hsplit
    have hbefore : o.before = final (step message) start xs := congrArg Occ.before heq
    by_contra hno
    rw [hbefore] at hno
    obtain ⟨c, hbroken⟩ := not_framed_step (writers_final message xs) hno
    have hafter := (hintact (xs ++ [o.input]) ys (by simp) c).1
    rw [show final (step message) start (xs ++ [o.input]) =
      (step message (final (step message) start xs) o.input).1 by simp [final]] at hafter
    exact hbroken hafter
  · rintro hheeds done later rfl c
    have hframed := invariant
      (I := fun _ s => Writers message s ∧ ∀ c, Framed (text message) (s.wire c))
      (C := Heeds message)
      (fun _ s e h hC => ⟨writers_step h.1 e, framed_step h.1 h.2 hC⟩) done [] start
      ⟨writers_start, fun _ => framed_nil⟩ fun o ho => hheeds o (by
        rw [trace_append]
        exact List.mem_append_left _ ho)
    exact ⟨hframed.2 c, fun n hn before i hw => (hframed.2 c).last hn hw⟩

/-! ### A reply and an event -/

/-- A slow reader: the socket takes one byte of a reply, and then the first byte of an event. -/
def eventInReply : List Event := [.add 0, .reply 0, .write 0 0, .publish, .turn, .push 0]

/-- The event begins inside the reply. -/
theorem intact_eventInReply : ¬ IntactThroughout (fun _ => Value.obj []) eventInReply := by
  intro h
  have hwire : (final (step fun _ => Value.obj []) start eventInReply).wire 0 = [(0, 123), (1, 123)] := by
    decide +kernel
  have hhalf := (h eventInReply [] rfl 0).2 0
  rw [hwire] at hhalf
  exact absurd (hhalf ⟨by decide +kernel, by decide +kernel⟩ [(0, 123)] (1, 123) rfl) (by decide)

end Kmatrix.Ipc.Framing
