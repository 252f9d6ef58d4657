import Kmatrix.Daemon.Accounts

/-! # Honest status

`set_state` has five callers and none of them looks at the session: the sync thread after its long-poll
and after an error, `do_login` at both ends, `do_logout` at its end, and `dispatch` when `do_login` has
failed. Whoever comes last decides what is reported. -/

namespace Kmatrix.Daemon.Status

open Kmatrix.Lib.Trace
open Kmatrix.Storage.Schema (Session)
open Kmatrix.Daemon.Accounts

/-- **A login or a logout is in progress** on a thread here. -/
def Busy : Phase → Prop
  | .idle | .reading _ | .working _ _ => False
  | _ => True

/-- No login or logout is in progress. -/
def Quiet (s : Machine) : Prop := ∀ t, ¬ Busy (s.phase t)

/-- **Logged out is reported exactly when no session is held.** -/
def Honest (s : Machine) : Prop := s.state = .loggedOut ↔ s.session = none

/-- **The status is honest** whenever no login or logout is in progress. -/
def HonestRun (events : List Event) : Prop :=
  ∀ past future, events = past ++ future →
    Quiet (final step fresh past) → Honest (final step fresh past)

/-- A thread here sets the state before it is done: a login in any case, a logout only in its last
section. -/
def Reports : Phase → Prop
  | .asking | .clearing _ | .installing _ | .loading _ | .entering _ | .reportingIn | .failing => True
  | .reportingOut => True
  | _ => False

/-- **What the callers of `set_state` rely on**, as a condition on one step: the sync thread still has a
session to report on, a login that fails had none to begin with, or another call has the last word; and
no login enters its session while a logout is about to report, nor the other way round. -/
def Heeds (s : Machine) : Event → Prop
  | .go t (.report _) => t = 0 → s.session ≠ none ∨ ∃ t', Reports (s.phase t')
  | .go t .done =>
    match s.phase t with
    | .failing => s.session = none ∨ ∃ t', t' ≠ t ∧ Reports (s.phase t')
    | .entering _ => ∀ t', s.phase t' ≠ .reportingOut
    | .dropping => ∀ t', s.phase t' ≠ .reportingIn
    | _ => True
  | _ => True

/-! ### The invariant -/

/-- What holds of the state and the session in every run that heeds. -/
structure Told (s : Machine) : Prop where
  /-- The state is honest, or will still be set. -/
  told : Honest s ∨ ∃ t, Reports (s.phase t)
  inward : ∀ t, s.phase t = .reportingIn → s.session ≠ none
  outward : ∀ t, s.phase t = .reportingOut → s.session = none

section Steps
variable {s : Machine} {t : ℕ} {p : Phase}

theorem told_fresh : Told fresh where
  told := Or.inl ⟨fun _ => rfl, fun _ => rfl⟩
  inward _ h := nomatch h
  outward _ h := nomatch h

/-- Only the state, the session and the phases matter. -/
theorem Told.congr {s' : Machine} (h : Told s) (hstate : s'.state = s.state)
    (hsession : s'.session = s.session) (hphase : s'.phase = s.phase) : Told s' where
  told := by
    unfold Honest
    rw [hstate, hsession, hphase]
    exact h.told
  inward t ht := by
    rw [hsession]
    exact h.inward t (hphase ▸ ht)
  outward t ht := by
    rw [hsession]
    exact h.outward t (hphase ▸ ht)

/-- **A thread moves on** without a word, and does not forget that it has something to report. -/
theorem Told.goto (h : Told s) (hkeep : Reports (s.phase t) → Reports p)
    (hin : p = .reportingIn → s.session ≠ none) (hout : p = .reportingOut → s.session = none) :
    Told (s.goto t p) where
  told := by
    rcases h.told with htold | ⟨t', ht'⟩
    · exact Or.inl htold
    · by_cases heq : t' = t
      · refine Or.inr ⟨t, ?_⟩
        rw [goto_phase, if_pos rfl]
        exact hkeep (heq ▸ ht')
      · refine Or.inr ⟨t', ?_⟩
        rw [goto_phase, if_neg heq]
        exact ht'
  inward t' ht' := by
    rw [goto_phase] at ht'
    by_cases heq : t' = t
    · rw [if_pos heq] at ht'
      exact hin ht'
    · rw [if_neg heq] at ht'
      exact h.inward t' ht'
  outward t' ht' := by
    rw [goto_phase] at ht'
    by_cases heq : t' = t
    · rw [if_pos heq] at ht'
      exact hout ht'
    · rw [if_neg heq] at ht'
      exact h.outward t' ht'

/-- **A thread has the last word**, and it is true, or another will still speak. -/
theorem Told.report (h : Told s) (state : State) (hp : ¬ Reports p)
    (htrue : (state = .loggedOut ↔ s.session = none) ∨ ∃ t', t' ≠ t ∧ Reports (s.phase t')) :
    Told ({ s with state := state }.goto t p) where
  told := by
    refine htrue.imp_right ?_
    rintro ⟨t', hne, ht'⟩
    refine ⟨t', ?_⟩
    rw [goto_phase, if_neg hne]
    exact ht'
  inward t' ht' := by
    rw [goto_phase] at ht'
    split_ifs at ht' with heq
    · exact absurd (ht' ▸ trivial) hp
    · exact h.inward t' ht'
  outward t' ht' := by
    rw [goto_phase] at ht'
    split_ifs at ht' with heq
    · exact absurd (ht' ▸ trivial) hp
    · exact h.outward t' ht'

/-- A section that sets neither the state nor the session. -/
theorem Told.quiet (h : Told s) {s' : Machine} (hstate : s'.state = s.state)
    (hsession : s'.session = s.session) (hphase : s'.phase = s.phase)
    (hkeep : Reports (s.phase t) → Reports p) (hin : p ≠ .reportingIn) (hout : p ≠ .reportingOut) :
    Told (s'.goto t p) := by
  have h' := h.congr hstate hsession hphase
  exact h'.goto (fun hr => hkeep (hphase ▸ hr)) (fun heq => absurd heq hin)
    (fun heq => absurd heq hout)

/-- The sync thread reports after its long-poll, or after an error. -/
theorem Told.sync (h : Told s) (online : Bool)
    (hheeds : s.session ≠ none ∨ ∃ t, Reports (s.phase t)) :
    Told { s with state := if online then .syncing else .offline } where
  told := by
    refine hheeds.imp_left fun hsome => ?_
    have hne : (if online then State.syncing else .offline) ≠ .loggedOut := by
      cases online <;> exact nofun
    exact ⟨fun heq => absurd heq hne, fun hnone => absurd hnone hsome⟩
  inward := h.inward
  outward := h.outward

/-- The session of a login. -/
theorem told_enter (login : Login) (hnone : ∀ t', s.phase t' ≠ .reportingOut) :
    Told ({ s with session := some login }.goto t .reportingIn) where
  told := by
    refine Or.inr ⟨t, ?_⟩
    rw [goto_phase, if_pos rfl]
    trivial
  inward _ _ := nofun
  outward t' ht' := by
    rw [goto_phase] at ht'
    split_ifs at ht'
    exact absurd ht' (hnone t')

/-- No session any more. -/
theorem told_drop (hnone : ∀ t', s.phase t' ≠ .reportingIn) :
    Told ({ s with session := none }.goto t .reportingOut) where
  told := by
    refine Or.inr ⟨t, ?_⟩
    rw [goto_phase, if_pos rfl]
    trivial
  inward t' ht' := by
    rw [goto_phase] at ht'
    split_ifs at ht'
    exact absurd ht' (hnone t')
  outward _ _ := rfl

/-- A start of the process takes both from the store. -/
theorem told_restart (client crypto : Bool) : Told (s.restart client crypto) where
  told := by
    refine Or.inl ?_
    unfold Honest Machine.restart
    cases s.row with
    | none => exact ⟨fun _ => rfl, fun _ => rfl⟩
    | some login => exact ⟨nofun, nofun⟩
  inward _ h := nomatch h
  outward _ h := nomatch h

/-- **The next section of a thread.** -/
theorem Told.go (h : Told s) (m : Move) (hheeds : Heeds s (.go t m)) : Told (s.go t m).1 := by
  unfold Machine.go
  split
  case h_11 login hp =>
    simp only [Heeds, hp] at hheeds
    exact told_enter login hheeds
  case h_13 hp =>
    have hsome := h.inward t hp
    exact h.report .syncing id (Or.inl ⟨nofun, fun hnone => absurd hnone hsome⟩)
  case h_14 hp =>
    simp only [Heeds, hp] at hheeds
    refine h.report .loggedOut id (hheeds.imp_left fun hnone => ?_)
    exact ⟨fun _ => hnone, fun _ => rfl⟩
  case h_22 hp =>
    simp only [Heeds, hp] at hheeds
    exact told_drop hheeds
  case h_24 hp =>
    exact h.report .loggedOut id (Or.inl ⟨fun _ => h.outward t hp, fun _ => rfl⟩)
  case h_25 api hp =>
    refine h.goto (fun hr => absurd hr (by rw [hp]; exact id)) ?_ ?_
    · split <;> exact nofun
    · split <;> exact nofun
  case h_26 => exact h.congr rfl rfl rfl
  case h_27 online hp =>
    dsimp only
    by_cases ht : t = 0
    · rw [if_pos ht]
      exact h.sync online (hheeds ht)
    · rw [if_neg ht]
      exact h
  case h_29 => exact h
  -- the others touch neither, and a login stays a login
  all_goals exact h.quiet rfl rfl rfl (by simp [Reports, *]) nofun nofun

/-- **Every step that heeds keeps the invariant.** -/
theorem Told.step (h : Told s) (e : Event) (hheeds : Heeds s e) : Told (step s e).1 := by
  cases e with
  | login t =>
    unfold Accounts.step
    dsimp only
    split_ifs with ht
    · exact {
        told := Or.inr ⟨t, by rw [goto_phase, if_pos rfl]; trivial⟩
        inward := fun t' ht' => by
          rw [goto_phase] at ht'
          split_ifs at ht'
          exact h.inward t' ht'
        outward := fun t' ht' => by
          rw [goto_phase] at ht'
          split_ifs at ht'
          exact h.outward t' ht' }
    · exact h
  | logout t =>
    unfold Accounts.step
    dsimp only
    split_ifs with ht
    · exact h.quiet rfl rfl rfl (by rw [ht.1]; exact id) nofun nofun
    · exact h
  | read t =>
    unfold Accounts.step
    dsimp only
    split_ifs with ht
    · exact h.quiet rfl rfl rfl (by rw [ht]; exact id) nofun nofun
    · exact h
  | go t m => exact h.go m hheeds
  | restart client crypto => exact told_restart client crypto

/-- Nobody in a login or a logout has anything to report. -/
theorem busy_of_reports {p : Phase} (h : Reports p) : Busy p := by
  cases p with
  | idle => exact h
  | reading api => exact h
  | working api session => exact h
  | _ => trivial

/-- Where nothing is in progress, all has been told. -/
theorem Told.honest (h : Told s) (hquiet : Quiet s) : Honest s := by
  rcases h.told with htold | ⟨t, ht⟩
  · exact htold
  · exact absurd (busy_of_reports ht) (hquiet t)

end Steps

/-- **The status is honest** in every run whose steps heed. -/
theorem honestRun_of_heeds (events : List Event)
    (hheeds : ∀ o ∈ trace step fresh events, Heeds o.before o.input) : HonestRun events := by
  intro past future hsplit hquiet
  have hpast : ∀ o ∈ trace step fresh past, Heeds o.before o.input := by
    intro o ho
    refine hheeds o ?_
    rw [hsplit, trace_append]
    exact List.mem_append_left _ ho
  have htold := invariant (I := fun _ s => Told s) (fun _ _ e h hC => h.step e hC) past [] fresh
    told_fresh hpast
  exact htold.honest hquiet

/-! ### Three runs -/

def someone : Session where
  homeserver := "https://example.org"
  userId := "@a:example.org"
  deviceId := "DEVICE"
  accessToken := "token"

/-- A login that succeeds. -/
def loggingIn (t : ℕ) : List Event :=
  [.login t, .go t (.answered someone), .go t .done, .go t .done, .go t .done, .go t .done, .go t .done]

def loggingOut (t : ℕ) : List Event :=
  [.logout t, .go t .done, .go t .done, .go t .done, .go t .done, .go t .done]

/-- Logged in, somebody mistypes the password of another login. -/
def rejectedWhileLoggedIn : List Event :=
  loggingIn 1 ++ [.login 1, .go 1 .failed, .go 1 .done]

/-- The long-poll of the sync thread is out when somebody logs out, and returns afterwards. -/
def returnsAfterLogout : List Event :=
  loggingIn 1 ++ [.read 0, .go 0 .done] ++ loggingOut 1 ++ [.go 0 (.report true)]

/-- Neither is honest: the first ends logged out with a session, the second syncing without one. -/
theorem not_honestRun_rejected_returns :
    ¬ HonestRun rejectedWhileLoggedIn ∧ ¬ HonestRun returnsAfterLogout := by
  constructor
  · intro h
    have hhonest := h rejectedWhileLoggedIn [] (List.append_nil _).symm
      (fun t => by rcases t with _ | _ | t <;> exact id)
    have hnone : (final step fresh rejectedWhileLoggedIn).session = none :=
      hhonest.mp (by decide +kernel)
    exact absurd hnone (by decide +kernel)
  · intro h
    have hhonest := h returnsAfterLogout [] (List.append_nil _).symm
      (fun t => by rcases t with _ | _ | t <;> exact id)
    have hout : (final step fresh returnsAfterLogout).state = .loggedOut :=
      hhonest.mpr (by decide +kernel)
    exact absurd hout (by decide +kernel)

/-- A run that heeds: the sync thread reports while the session is there, and the rejected login comes
after the logout. -/
def inOrder : List Event :=
  loggingIn 1 ++ [.read 0, .go 0 .done, .go 0 (.report true), .go 0 .finished] ++ loggingOut 1 ++
    [.login 1, .go 1 .failed, .go 1 .done]

theorem honestRun_inOrder : HonestRun inOrder := by
  refine honestRun_of_heeds _ fun o ho => ?_
  simp only [inOrder, loggingIn, loggingOut, List.cons_append, List.nil_append, trace, List.mem_cons,
    List.not_mem_nil, or_false] at ho
  rcases ho with rfl | rfl | rfl | rfl | rfl | rfl | rfl | rfl | rfl | rfl | rfl | rfl | rfl | rfl | rfl |
    rfl | rfl | rfl | rfl | rfl
  -- a session is entered and dropped, and the state is set by the sync thread and by a failed login
  all_goals
    first
    | trivial
    | exact fun t' ht' => by rcases t' with _ | _ | t' <;> cases ht'
    | exact Or.inl (by decide +kernel)
    | exact fun _ => Or.inl (by decide +kernel)

end Kmatrix.Daemon.Status
