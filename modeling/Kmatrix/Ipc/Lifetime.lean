import Kmatrix.Ipc.Client
import Kmatrix.Lib.Trace
import Mathlib.Logic.Function.Basic

/-! # The life of the daemon

Every connection has a thread (`Phase`): it reads lines; after an accepted `hello` it still has to join
the bus; when its loop ends it leaves the bus, and if nobody is left there it stops the daemon. The bus
is a list behind a lock: `add`, `remove` and `publish` are one step each, and the steps of all threads
interleave freely.

The list counts subscribers, not readers. A reader is missing from it between the answer to its `hello`
and `add`, and after a `publish` whose write to it failed; and between a `remove` that empties the list
and the stop it leads to, a new reader may come. Where none of this happens the daemon stops alone
(`stopsAlone_of_heeds`). -/

namespace Kmatrix.Ipc.Lifetime

open Kmatrix.Sync.Plaintext (SerdeJson)
open Kmatrix.Ipc.Client
open Kmatrix.Lib.Trace

/-- **Where the thread of a connection is.** -/
inductive Phase where
  | absent
  /-- `client_loop` between two lines. -/
  | reading (authed : Bool) (subscription : Option ℕ)
  /-- `hello` has been answered, `bus.add` comes next. -/
  | adding
  /-- `client_loop` has returned. -/
  | leaving (subscription : Option ℕ)
  /-- `bus.remove` has left nobody. -/
  | stopping
  | gone
  deriving DecidableEq, Repr

/-- The subscription a thread holds. -/
def Phase.subscription : Phase → Option ℕ
  | .reading _ subscription => subscription
  | .leaving subscription => subscription
  | _ => none

structure Daemon where
  phase : ℕ → Phase
  /-- The client has closed its end. -/
  hungUp : ℕ → Bool
  /-- The subscribers: a handle and the connection it belongs to. -/
  clients : List (ℕ × ℕ)
  nextId : ℕ
  running : Bool

def Daemon.goto (s : Daemon) (c : ℕ) (p : Phase) : Daemon :=
  { s with phase := Function.update s.phase c p }

inductive Event where
  /-- `serve` takes a connection; `cloned`: its stream could be cloned for the writer. -/
  | accept (c : ℕ) (cloned : Bool)
  | hangUp (c : ℕ)
  /-- A round of `client_loop`. -/
  | line (c : ℕ) (t : Turn)
  /-- The end of the stream. -/
  | eof (c : ℕ)
  | add (c : ℕ)
  | remove (c : ℕ)
  | stop (c : ℕ)
  /-- `Bus::publish`: the connections whose write fails. -/
  | publish (failed : ℕ → Bool)

variable (serde : SerdeJson) (expected : Option String)

/-- A round of the loop, and where the thread is after it. -/
def Daemon.line (s : Daemon) (c : ℕ) (t : Turn) (authed : Bool) (subscription : Option ℕ) : Daemon :=
  let (acts, next) := handleLine serde expected authed t
  { s with running := s.running && !acts.any Act.stops }.goto c
    (match next with
      | .stop _ => .leaving subscription
      | .more authed' => if acts.any Act.subscribes then .adding else .reading authed' subscription)

/-- `Bus::add`. -/
def Daemon.add (s : Daemon) (c : ℕ) : Daemon :=
  { s with clients := s.clients ++ [(s.nextId, c)], nextId := s.nextId + 1 }.goto c
    (.reading true (some s.nextId))

/-- `Bus::remove`. -/
def Daemon.drop (s : Daemon) (id : ℕ) : List (ℕ × ℕ) := s.clients.filter fun m => m.1 ≠ id

/-- **One step**, and whether it stops the daemon because of a disconnect. A step that the thread it
belongs to cannot take changes nothing. -/
def step (s : Daemon) : Event → Daemon × Bool
  | .accept c cloned =>
    if s.phase c = .absent ∧ s.running then
      (s.goto c (if cloned then .reading false none else .leaving none), false)
    else (s, false)
  | .hangUp c => ({ s with hungUp := Function.update s.hungUp c true }, false)
  | .line c t =>
    match s.phase c with
    | .reading authed subscription => (s.line serde expected c t authed subscription, false)
    | _ => (s, false)
  | .eof c =>
    match s.phase c with
    | .reading _ subscription => (s.goto c (.leaving subscription), false)
    | _ => (s, false)
  | .add c =>
    match s.phase c with
    | .adding => (s.add c, false)
    | _ => (s, false)
  | .remove c =>
    match s.phase c with
    | .leaving (some id) =>
      ({ s with clients := s.drop id }.goto c (if s.drop id = [] then .stopping else .gone), false)
    | .leaving none => (s.goto c .gone, false)
    | _ => (s, false)
  | .stop c =>
    match s.phase c with
    | .stopping => ({ s with running := false }.goto c .gone, s.running)
    | _ => (s, false)
  | .publish failed => ({ s with clients := s.clients.filter fun m => !failed m.2 }, false)

/-- The daemon when it starts to listen. -/
def start : Daemon where
  phase _ := .absent
  hungUp _ := false
  clients := []
  nextId := 1
  running := true

/-! ### Readers -/

/-- **A connection that has been answered `hello` ok and is still open.** -/
def Daemon.Reader (s : Daemon) (c : ℕ) : Prop :=
  s.hungUp c = false ∧ (s.phase c = .adding ∨ ∃ subscription, s.phase c = .reading true subscription)

/-- **The daemon stops alone**: a step that stops it because `c` has gone finds no reader. -/
def StopsAlone (events : List Event) : Prop :=
  ∀ o ∈ trace (step serde expected) start events, o.output = true → ∀ c, ¬ o.before.Reader c

/-- **What the list relies on**, as a condition on one step: no event is given up on a reader; the last
subscriber does not leave while a reader has yet to join; and nobody is let in while the daemon is about
to stop. -/
def Heeds (s : Daemon) : Event → Prop
  | .publish failed => ∀ c, s.Reader c → failed c = false
  | .remove c =>
    ∀ id, s.phase c = .leaving (some id) → s.drop id = [] →
      ∀ c', s.phase c' = .adding → s.hungUp c' = true
  | .line c t =>
    t.Greets serde expected → t.written → t.cloned → (∃ subscription, s.phase c = .reading false
      subscription) → ∀ c', s.phase c' ≠ .stopping
  | _ => True

/-! ### The invariant -/

/-- What holds of the list in every run that heeds. -/
structure Inv (s : Daemon) : Prop where
  /-- A reader that has joined is in the list. -/
  joined : ∀ c subscription, s.phase c = .reading true subscription → s.hungUp c = false →
    ∃ id, (id, c) ∈ s.clients
  /-- The daemon is about to stop only when there is no reader. -/
  alone : ∀ c, s.phase c = .stopping → ∀ c', ¬ s.Reader c'
  /-- A handle stands for the connection that holds it. -/
  own : ∀ c c' id, (s.phase c).subscription = some id → (id, c') ∈ s.clients → c' = c
  /-- Handles are given out in order. -/
  below : ∀ c id, (s.phase c).subscription = some id → id < s.nextId
  listed : ∀ m ∈ s.clients, m.1 < s.nextId

section Goto
variable {s : Daemon} {c : ℕ} {p : Phase}

@[simp] theorem goto_clients : (s.goto c p).clients = s.clients := rfl
@[simp] theorem goto_hungUp : (s.goto c p).hungUp = s.hungUp := rfl
@[simp] theorem goto_nextId : (s.goto c p).nextId = s.nextId := rfl

theorem goto_phase (c' : ℕ) : (s.goto c p).phase c' = if c' = c then p else s.phase c' :=
  Function.update_apply ..

/-- Another phase has another's readers: only `c` can become one or stop being one. -/
theorem reader_goto {c' : ℕ} (h : (s.goto c p).Reader c') :
    s.Reader c' ∨ c' = c ∧ (p = .adding ∨ ∃ subscription, p = .reading true subscription) := by
  obtain ⟨hup, h⟩ := h
  rw [goto_phase] at h
  by_cases hc : c' = c
  · rw [if_pos hc] at h
    exact Or.inr ⟨hc, h⟩
  · rw [if_neg hc] at h
    exact Or.inl ⟨hup, h⟩

/-- **A thread moves on** without touching the list: it may read on as a reader only if it was one, join
the readers only while nobody stops, stop only without readers, and keep its handle. -/
theorem Inv.goto (h : Inv s)
    (hread : ∀ subscription, p = .reading true subscription →
      ∃ subscription', s.phase c = .reading true subscription')
    (hadd : p = .adding → (s.phase c = .adding ∨ ∀ c', s.phase c' ≠ .stopping))
    (hstop : p ≠ .stopping)
    (hsub : p.subscription = none ∨ p.subscription = (s.phase c).subscription) :
    Inv (s.goto c p) where
  joined c' subscription hp hup := by
    rw [goto_phase] at hp
    by_cases hc : c' = c
    · rw [if_pos hc] at hp
      obtain ⟨subscription', hr⟩ := hread _ hp
      rw [hc] at hup ⊢
      exact h.joined c _ hr hup
    · rw [if_neg hc] at hp
      exact h.joined c' _ hp hup
  alone c' hp c'' hr := by
    rw [goto_phase] at hp
    by_cases hc : c' = c
    · rw [if_pos hc] at hp
      exact hstop hp
    · rw [if_neg hc] at hp
      rcases reader_goto hr with hr | ⟨rfl, rfl | ⟨subscription, rfl⟩⟩
      · exact h.alone c' hp c'' hr
      · rcases hadd rfl with hwas | hnone
        · exact h.alone c' hp c'' ⟨hr.1, Or.inl hwas⟩
        · exact hnone c' hp
      · exact h.alone c' hp c'' ⟨hr.1, Or.inr (hread _ rfl)⟩
  own c' c'' id hp hmem := by
    rw [goto_phase] at hp
    by_cases hc : c' = c
    · rw [if_pos hc] at hp
      rw [hc]
      rcases hsub with hs | hs
      · rw [hs] at hp
        cases hp
      · exact h.own c c'' id (hs ▸ hp) hmem
    · rw [if_neg hc] at hp
      exact h.own c' c'' id hp hmem
  below c' id hp := by
    rw [goto_phase] at hp
    by_cases hc : c' = c
    · rw [if_pos hc] at hp
      rcases hsub with hs | hs
      · rw [hs] at hp
        cases hp
      · exact h.below c id (hs ▸ hp)
    · rw [if_neg hc] at hp
      exact h.below c' id hp
  listed := h.listed

end Goto

section Steps
variable {s : Daemon} {serde expected}

theorem inv_start : Inv start where
  joined _ _ h := nomatch h
  alone _ h := nomatch h
  own _ _ _ h := nomatch h
  below _ _ h := nomatch h
  listed _ h := nomatch h

/-- Whether the daemon runs is no matter of the list. -/
theorem Inv.running (h : Inv s) (running : Bool) : Inv { s with running := running } :=
  ⟨h.joined, h.alone, h.own, h.below, h.listed⟩

theorem Inv.hangUp (h : Inv s) (c : ℕ) :
    Inv { s with hungUp := Function.update s.hungUp c true } where
  joined c' subscription hp hup := by
    refine h.joined c' subscription hp ?_
    dsimp only at hup
    rw [Function.update_apply] at hup
    split_ifs at hup
    exact hup
  alone c' hp c'' hr := by
    refine h.alone c' hp c'' ⟨?_, hr.2⟩
    have hup := hr.1
    dsimp only at hup
    rw [Function.update_apply] at hup
    split_ifs at hup
    exact hup
  own := h.own
  below := h.below
  listed := h.listed

/-- A round of the loop. -/
theorem Inv.line (h : Inv s) {c : ℕ} {t : Turn} {authed : Bool} {subscription : Option ℕ}
    (hp : s.phase c = .reading authed subscription) (hheeds : Heeds serde expected s (.line c t)) :
    Inv (s.line serde expected c t authed subscription) := by
  unfold Daemon.line
  rcases hl : handleLine serde expected authed t with ⟨acts, authed' | outcome⟩
  · dsimp only
    have hrun := h.running (s.running && !acts.any Act.stops)
    by_cases hsub : acts.any Act.subscribes
    · rw [if_pos hsub]
      rw [any_subscribes] at hsub
      refine hrun.goto (by simp) (fun _ => Or.inr ?_) (by simp) (Or.inl rfl)
      cases authed with
      | true => exact absurd hsub (handleLine_authed hl).1
      | false =>
        rcases (handleLine_fresh hl).2.2 authed' rfl with ⟨hg, hw, hc, -⟩ | ⟨hno, -⟩
        · exact hheeds hg hw hc ⟨_, hp⟩
        · exact absurd hno (by
            rintro (hb | ⟨hm, -⟩)
            · rw [handleLine_blank hb] at hl
              cases hl
              cases hsub
            · exact not_greets_of_malformed serde expected hm ((handleLine_fresh hl).2.1 hsub))
    · rw [if_neg hsub]
      rw [any_subscribes] at hsub
      refine hrun.goto (fun subscription' hr => ?_) (by simp) (by simp) (Or.inr (by rw [hp]; rfl))
      injection hr with hauthed
      cases authed with
      | true => exact ⟨_, hp⟩
      | false =>
        rcases (handleLine_fresh hl).2.2 authed' rfl with ⟨-, -, -, hmem, -⟩ | ⟨-, hne⟩
        · exact absurd hmem hsub
        · rw [hauthed] at hne
          cases hne
  · exact (h.running _).goto (by simp) (by simp) (by simp) (Or.inr (by rw [hp]; rfl))

theorem Inv.add (h : Inv s) {c : ℕ} (hp : s.phase c = .adding) : Inv (s.add c) where
  joined c' subscription hr hup := by
    unfold Daemon.add at hr
    rw [goto_phase] at hr
    by_cases hc : c' = c
    · exact ⟨s.nextId, by rw [hc]; exact List.mem_append_right _ (List.mem_singleton_self _)⟩
    · rw [if_neg hc] at hr
      obtain ⟨id, hmem⟩ := h.joined c' subscription hr hup
      exact ⟨id, List.mem_append_left _ hmem⟩
  alone c' hs c'' hr := by
    unfold Daemon.add at hs hr
    rw [goto_phase] at hs
    by_cases hc : c' = c
    · rw [if_pos hc] at hs
      cases hs
    · rw [if_neg hc] at hs
      rcases reader_goto hr with hr' | ⟨rfl, -⟩
      · exact h.alone c' hs c'' hr'
      · exact h.alone c' hs c'' ⟨hr.1, Or.inl hp⟩
  own c' c'' id hsub hmem := by
    unfold Daemon.add at hsub
    rw [goto_phase] at hsub
    by_cases hc : c' = c
    · rw [if_pos hc] at hsub
      cases hsub
      rcases List.mem_append.mp hmem with hmem | hmem
      · exact absurd (h.listed _ hmem) (lt_irrefl _)
      · rw [hc]
        exact congrArg Prod.snd (List.mem_singleton.mp hmem)
    · rw [if_neg hc] at hsub
      rcases List.mem_append.mp hmem with hmem | hmem
      · exact h.own c' c'' id hsub hmem
      · have hid : id = s.nextId := congrArg Prod.fst (List.mem_singleton.mp hmem)
        exact absurd (h.below c' id hsub) (by rw [hid]; exact lt_irrefl _)
  below c' id hsub := by
    unfold Daemon.add at hsub ⊢
    rw [goto_phase] at hsub
    by_cases hc : c' = c
    · rw [if_pos hc] at hsub
      cases hsub
      exact Nat.lt_succ_self _
    · rw [if_neg hc] at hsub
      exact (h.below c' id hsub).trans (Nat.lt_succ_self _)
  listed m hmem := by
    rcases List.mem_append.mp hmem with hmem | hmem
    · exact (h.listed m hmem).trans (Nat.lt_succ_self _)
    · rw [List.mem_singleton.mp hmem]
      exact Nat.lt_succ_self _

/-- A shorter list, from which no reader is missing. -/
theorem Inv.shrink (h : Inv s) {clients : List (ℕ × ℕ)} (hsub : ∀ m ∈ clients, m ∈ s.clients)
    (hkeep : ∀ m ∈ s.clients, s.Reader m.2 → m ∈ clients) : Inv { s with clients := clients } where
  joined c subscription hp hup := by
    obtain ⟨id, hmem⟩ := h.joined c subscription hp hup
    exact ⟨id, hkeep _ hmem ⟨hup, Or.inr ⟨_, hp⟩⟩⟩
  alone := h.alone
  own c c' id hp hmem := h.own c c' id hp (hsub _ hmem)
  below := h.below
  listed m hmem := h.listed m (hsub m hmem)

/-- **The last to leave leaves no reader behind.** -/
theorem Inv.remove (h : Inv s) {c id : ℕ} (hp : s.phase c = .leaving (some id))
    (hheeds : Heeds serde expected s (.remove c)) :
    Inv ({ s with clients := s.drop id }.goto c (if s.drop id = [] then .stopping else .gone)) := by
  -- only the entries of `c` go, and `c` is no reader
  have hkeep : ∀ m ∈ s.clients, s.Reader m.2 → m ∈ s.drop id := by
    refine fun m hmem hr => List.mem_filter.mpr ⟨hmem, decide_eq_true fun heq => ?_⟩
    have hc : m.2 = c := h.own c m.2 id (by rw [hp]; rfl) (heq ▸ hmem)
    rcases hr.2 with hr | ⟨subscription, hr⟩ <;>
    · rw [hc, hp] at hr
      cases hr
  have hshrunk := h.shrink (fun m hmem => List.mem_of_mem_filter hmem) hkeep
  by_cases hnil : s.drop id = []
  · rw [if_pos hnil]
    have hnone : ∀ c', ¬ s.Reader c' := by
      rintro c' ⟨hup, hadding | ⟨subscription, hreading⟩⟩
      · rw [hheeds id hp hnil c' hadding] at hup
        cases hup
      · obtain ⟨id', hmem⟩ := h.joined c' subscription hreading hup
        have := hkeep _ hmem ⟨hup, Or.inr ⟨_, hreading⟩⟩
        rw [hnil] at this
        cases this
    exact {
      joined := fun c' subscription hr hup => by
        rw [goto_phase] at hr
        split_ifs at hr with hc
        exact absurd ⟨hup, Or.inr ⟨_, hr⟩⟩ (hnone c')
      alone := fun c' _ c'' hr => by
        rcases reader_goto hr with hr | ⟨-, hr | ⟨_, hr⟩⟩
        · exact hnone c'' hr
        · cases hr
        · cases hr
      own := fun _ _ _ _ hmem => by
        rw [goto_clients, hnil] at hmem
        cases hmem
      below := fun c' id' hr => by
        rw [goto_phase] at hr
        split_ifs at hr with hc
        · cases hr
        · exact h.below c' id' hr
      listed := hshrunk.listed }
  · rw [if_neg hnil]
    exact hshrunk.goto (by simp) (by simp) (by simp) (Or.inl rfl)

/-- **Every step that heeds keeps the invariant.** -/
theorem inv_step (h : Inv s) (e : Event) (hheeds : Heeds serde expected s e) :
    Inv (step serde expected s e).1 := by
  cases e with
  | accept c cloned =>
    unfold step
    dsimp only
    split_ifs
    · exact h.goto (by simp) (by simp) (by simp) (Or.inl rfl)
    · exact h.goto (by simp) (by simp) (by simp) (Or.inl rfl)
    · exact h
  | hangUp c => exact h.hangUp c
  | line c t =>
    unfold step
    dsimp only
    cases hp : s.phase c with
    | reading authed subscription => exact h.line hp hheeds
    | _ => exact h
  | eof c =>
    unfold step
    dsimp only
    cases hp : s.phase c with
    | reading authed subscription =>
      exact h.goto (by simp) (by simp) (by simp) (Or.inr (by rw [hp]; rfl))
    | _ => exact h
  | add c =>
    unfold step
    dsimp only
    cases hp : s.phase c with
    | adding => exact h.add hp
    | _ => exact h
  | remove c =>
    unfold step
    dsimp only
    cases hp : s.phase c with
    | leaving subscription =>
      cases subscription with
      | some id => exact h.remove hp hheeds
      | none => exact h.goto (by simp) (by simp) (by simp) (Or.inl rfl)
    | _ => exact h
  | stop c =>
    unfold step
    dsimp only
    cases hp : s.phase c with
    | stopping => exact (h.running false).goto (by simp) (by simp) (by simp) (Or.inl rfl)
    | _ => exact h
  | publish failed =>
    refine h.shrink (fun m hmem => List.mem_of_mem_filter hmem) fun m hmem hr => ?_
    exact List.mem_filter.mpr ⟨hmem, by rw [hheeds m.2 hr]; rfl⟩

/-- Only a thread that has found the list empty stops the daemon. -/
theorem stopping_of_stops {e : Event} (h : (step serde expected s e).2 = true) :
    ∃ c, s.phase c = .stopping := by
  unfold step at h
  cases e with
  | stop c =>
    dsimp only at h
    cases hp : s.phase c with
    | stopping => exact ⟨c, hp⟩
    | _ =>
      rw [hp] at h
      cases h
  | accept c cloned =>
    dsimp only at h
    split_ifs at h
  | hangUp c => cases h
  | publish failed => cases h
  | _ => dsimp only at h; split at h <;> cases h

end Steps

/-- **The daemon stops alone** in every run whose steps heed. -/
theorem stopsAlone_of_heeds (events : List Event)
    (hheeds : ∀ o ∈ trace (step serde expected) start events, Heeds serde expected o.before o.input) :
    StopsAlone serde expected events := by
  intro o ho hout c
  obtain ⟨past, future, hsplit⟩ := List.append_of_mem ho
  obtain ⟨hinv, -, hoeq⟩ := at_step (I := fun _ s => Inv s) inv_start
    (fun _ s e h hC => inv_step h e hC) hheeds hsplit
  rw [hoeq] at hout
  obtain ⟨c', hstopping⟩ := stopping_of_stops hout
  exact hinv.alone c' hstopping c

/-! ### Two readers -/

/-- Two connections; the first has said `hello` and been answered when the second, the only subscriber
so far, hangs up. -/
def betweenHelloAndAdd : List Event :=
  [.accept 0 true, .accept 1 true, .line 1 { line := helloLine }, .add 1, .line 0 { line := helloLine },
    .hangUp 1, .eof 1, .remove 1, .stop 1]

theorem stopsAlone_betweenHelloAndAdd : ¬ StopsAlone twoLines (some "secret") betweenHelloAndAdd := by
  intro h
  have hlast : (trace (step twoLines (some "secret")) start betweenHelloAndAdd)[8]? =
      some ⟨final (step twoLines (some "secret")) start (betweenHelloAndAdd.take 8), .stop 1,
        (step twoLines (some "secret")
          (final (step twoLines (some "secret")) start (betweenHelloAndAdd.take 8)) (.stop 1)).2⟩ := rfl
  exact h _ (List.mem_of_getElem? hlast) (by decide +kernel) 0
    ⟨by decide +kernel, Or.inl (by decide +kernel)⟩

/-- A run that heeds: the same two readers, the first of which joins before the second leaves, and then
leaves last. -/
def oneAfterTheOther : List Event :=
  [.accept 0 true, .accept 1 true, .line 1 { line := helloLine }, .add 1, .line 0 { line := helloLine },
    .add 0, .eof 1, .remove 1, .eof 0, .remove 0, .stop 0]

/-- It ends with the daemon stopped, and nobody else there. -/
theorem stopsAlone_oneAfterTheOther :
    (final (step twoLines (some "secret")) start oneAfterTheOther).running = false ∧
      StopsAlone twoLines (some "secret") oneAfterTheOther := by
  refine ⟨by decide +kernel, stopsAlone_of_heeds _ _ _ fun o ho => ?_⟩
  simp only [oneAfterTheOther, trace, List.mem_cons, List.not_mem_nil, or_false] at ho
  rcases ho with rfl | rfl | rfl | rfl | rfl | rfl | rfl | rfl | rfl | rfl | rfl
  -- only the two rounds and the two departures have something to heed
  case inr.inr.inl => exact fun _ _ _ _ c' => by rcases c' with _ | _ | c' <;> exact nofun
  case inr.inr.inr.inr.inl => exact fun _ _ _ _ c' => by rcases c' with _ | _ | c' <;> exact nofun
  case inr.inr.inr.inr.inr.inr.inr.inl =>
    intro id hp hnil
    cases hp
    cases hnil
  case inr.inr.inr.inr.inr.inr.inr.inr.inr.inl =>
    exact fun _ _ _ c' hc => by rcases c' with _ | _ | c' <;> cases hc
  all_goals trivial

end Kmatrix.Ipc.Lifetime
