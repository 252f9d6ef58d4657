import Kmatrix.Daemon.Status

/-! # One login at a time

A reader takes the client from `api` and then the session from `st`, and later works with the crypto
state in `net` and with the store. A login replaces the row, the client, the crypto state and the session
in this order; a logout drops the client, the crypto state, the row and the session in that one. In
between, and after a call that broke off, they are of two logins. Where readers keep out of it, they find
one login everywhere or nowhere (`oneRun_of_heeds`). -/

namespace Kmatrix.Daemon.Credentials

open Kmatrix.Lib.Trace
open Kmatrix.Daemon.Accounts
open Kmatrix.Daemon.Status (loggingIn loggingOut)

/-- **One and the same login**, or none at all. -/
def One (v : View) : Prop :=
  v.api = v.row ∧ v.session = v.row ∧ v.crypto = v.row.map Login.number

instance (v : View) : Decidable (One v) := inferInstanceAs (Decidable (_ ∧ _ ∧ _))

/-- What the readers of a run find. -/
def views (events : List Event) : List View := (trace step fresh events).filterMap Occ.output

/-- **Every reader finds one login**, at every step it takes. -/
def OneRun (events : List Event) : Prop := ∀ v ∈ views events, One v

instance (events : List Event) : Decidable (OneRun events) :=
  inferInstanceAs (Decidable (∀ v ∈ views events, One v))

/-- A thread here has replaced a part of the login, but not all of it. -/
def Between : Phase → Prop
  | .installing _ | .loading _ | .entering _ | .forgetting | .wiping | .dropping => True
  | _ => False

/-- No thread does. -/
def Whole (s : Machine) : Prop := ∀ t, ¬ Between (s.phase t)

/-- What has happened: which step was taken where. -/
abbrev History := List (Occ Machine Event (Option View))

/-- Thread `t` reads the client. -/
def reads (t : ℕ) (o : Occ Machine Event (Option View)) : Bool :=
  o.input = .read t && o.before.phase t = .idle

/-- Some thread replaces it. -/
def replaces (o : Occ Machine Event (Option View)) : Bool :=
  match o.input with
  | .go t .done =>
    match o.before.phase t with
    | .installing _ | .leaving => true
    | _ => false
  | _ => false

/-- **Since thread `t` read the client**, nobody has replaced it. -/
def kept (t : ℕ) (past : History) : Bool := past.foldl (fun kept o => reads t o || kept && !replaces o) false

/-- **What the readers rely on**, as a condition on one step: they do not go on during a replacement, nor
once the client they have read is replaced; one replacement begins after the other, and none breaks off;
and at a start both the client and the crypto state can be made. -/
def Heeds (past : History) (s : Machine) : Event → Prop
  | .go t m =>
    match s.phase t, m with
    | .reading _, .done | .working _ _, .use _ => Whole s ∧ kept t past = true
    | .clearing _, .done | .leaving, .done => Whole s
    | .clearing _, .partly => False
    | .installing _, m | .loading _, m | .entering _, m => m ≠ .failed ∧ m ≠ .partly
    | .forgetting, m | .wiping, m | .dropping, m => m ≠ .failed ∧ m ≠ .partly
    | _, _ => True
  | .restart client crypto => s.row = none ∨ client ∧ crypto
  | _ => True

/-! ### The invariant -/

/-- The parts agree with the row. -/
def Settled (s : Machine) : Prop :=
  s.api = s.row ∧ s.session = s.row ∧ s.crypto = s.row.map Login.number

/-- **How far a thread has got.** -/
def Stage (s : Machine) : Phase → Prop
  | .installing login => s.row = some login
  | .loading login => s.row = some login ∧ s.api = some login
  | .entering login =>
    s.row = some login ∧ s.api = some login ∧ s.crypto = some login.number
  | .forgetting => s.api = none
  | .wiping => s.api = none ∧ s.crypto = none
  | .dropping => s.api = none ∧ s.crypto = none ∧ s.row = none
  | .working api session => api = session
  | _ => True

/-- The client of a reader is the one there is. -/
def HasClient (s : Machine) : Phase → Prop
  | .reading api => api = s.api
  | .working api _ => some api = s.api
  | _ => True

/-- **What a reader has read still holds** while nobody has replaced it. -/
def Current (past : History) (s : Machine) : Prop := ∀ t, kept t past = true → HasClient s (s.phase t)

/-- What holds in every run that heeds. -/
structure Inv (s : Machine) : Prop where
  /-- The account in the store is that of the row. -/
  account : ∀ n, s.account = some n → s.row.map Login.number = some n
  alone : ∀ t t', Between (s.phase t) → Between (s.phase t') → t = t'
  settled : Whole s → Settled s
  stages : ∀ t, Stage s (s.phase t)

section Steps
variable {past : History} {s s' : Machine} {t : ℕ} {p : Phase}

/-- Outside of a replacement the stage says nothing about the shared parts. -/
theorem stage_of_not_between (hp : ¬ Between p) (h : Stage s p) : Stage s' p := by
  cases p with
  | working api session => exact h
  | installing login => exact absurd trivial hp
  | loading login => exact absurd trivial hp
  | entering login => exact absurd trivial hp
  | forgetting => exact absurd trivial hp
  | wiping => exact absurd trivial hp
  | dropping => exact absurd trivial hp
  | _ => trivial

theorem inv_fresh : Inv fresh where
  account _ h := nomatch h
  alone _ _ h := h.elim
  settled _ := ⟨rfl, rfl, rfl⟩
  stages _ := trivial

/-- **A thread moves on** outside of a replacement. -/
theorem Inv.goto (h : Inv s) (hwas : ¬ Between (s.phase t)) (hp : ¬ Between p) (hstage : Stage s p) :
    Inv (s.goto t p) where
  account := h.account
  alone t₁ t₂ h₁ h₂ := by
    rw [goto_phase] at h₁ h₂
    split_ifs at h₁ with ht₁
    · exact absurd h₁ hp
    · split_ifs at h₂ with ht₂
      · exact absurd h₂ hp
      · exact h.alone t₁ t₂ h₁ h₂
  settled hwhole := by
    refine h.settled fun t' ht' => hwhole t' ?_
    have hne : t' ≠ t := fun heq => hwas (heq ▸ ht')
    rw [goto_phase, if_neg hne]
    exact ht'
  stages t' := by
    rw [goto_phase]
    split_ifs
    · exact hstage
    · exact h.stages t'

/-- **A step of a replacement**: the only one in progress, it begins, goes on or ends. -/
theorem Inv.replace (h : Inv s) (hphase : s'.phase = s.phase)
    (hturn : Between (s.phase t) ∨ Whole s)
    (haccount : ∀ n, s'.account = some n → s'.row.map Login.number = some n)
    (hstage : Stage s' p) (hend : Between p ∨ Settled s') : Inv (s'.goto t p) := by
  have hothers : ∀ t', t' ≠ t → ¬ Between (s.phase t') := by
    intro t' hne ht'
    rcases hturn with hmine | hwhole
    · exact hne (h.alone t' t ht' hmine)
    · exact hwhole t' ht'
  exact {
    account := haccount
    alone := fun t₁ t₂ h₁ h₂ => by
      rw [goto_phase, hphase] at h₁ h₂
      split_ifs at h₁ with ht₁
      · split_ifs at h₂ with ht₂
        · rw [ht₁, ht₂]
        · exact absurd h₂ (hothers t₂ ht₂)
      · exact absurd h₁ (hothers t₁ ht₁)
    settled := fun hwhole => by
      rcases hend with hbetween | hsettled
      · have hmine := hwhole t
        rw [goto_phase, if_pos rfl] at hmine
        exact absurd hbetween hmine
      · exact hsettled
    stages := fun t' => by
      rw [goto_phase, hphase]
      split_ifs with ht'
      · exact hstage
      · exact stage_of_not_between (hothers t' ht') (h.stages t') }

/-- What is reported, and how many logins there were, does not matter here. -/
theorem Inv.aside (h : Inv s) (state : State) (logins : ℕ) :
    Inv { s with state := state, logins := logins } where
  account := h.account
  alone := h.alone
  settled := h.settled
  stages t := by
    have hstage := h.stages t
    cases hp : s.phase t <;> rw [hp] at hstage <;> exact hstage

/-- The account that is loaded, or made, is that of the row. -/
theorem Inv.loaded (h : Inv s) {login : Login} (hrow : s.row = some login) :
    s.loaded login = login.number := by
  unfold Machine.loaded
  cases hacc : s.account with
  | none => rfl
  | some n =>
    have hown := h.account n hacc
    rw [hrow] at hown
    exact (Option.some.inj hown).symm

/-- The crypto state writes its account back. -/
theorem Inv.persist (h : Inv s) (hwhole : Whole s) (persist : Bool) :
    Inv { s with account := if persist then s.crypto.or s.account else s.account } where
  account n hn := by
    dsimp only at hn ⊢
    cases persist with
    | false => exact h.account n hn
    | true =>
      rw [if_pos rfl] at hn
      rcases Option.or_eq_some_iff.mp hn with hcrypto | ⟨-, hacc⟩
      · rw [← (h.settled hwhole).2.2]
        exact hcrypto
      · exact h.account n hacc
  alone := h.alone
  settled := h.settled
  stages t := by
    have hstage := h.stages t
    cases hp : s.phase t <;> rw [hp] at hstage <;> exact hstage

/-- A start of the process. -/
theorem Inv.restart (h : Inv s) {client crypto : Bool}
    (hmade : s.row = none ∨ client ∧ crypto) : Inv (s.restart client crypto) where
  account n hn := by
    unfold Machine.restart at hn ⊢
    dsimp only at hn ⊢
    cases hrow : s.row with
    | none =>
      rw [hrow] at hn
      have hacc : s.account = some n := by
        split_ifs at hn
        · exact hn
        · exact hn
      have hown := h.account n hacc
      rw [hrow] at hown
      exact hown
    | some login =>
      split_ifs at hn
      · rw [hrow] at hn
        rw [← hn]
        exact congrArg some (h.loaded hrow).symm
      · rw [← hrow]
        exact h.account n hn
  alone _ _ hbetween := hbetween.elim
  settled _ := by
    unfold Settled Machine.restart
    dsimp only
    rcases hmade with hrow | ⟨rfl, rfl⟩
    · rw [hrow]
      cases client <;> cases crypto <;> exact ⟨rfl, rfl, rfl⟩
    · refine ⟨rfl, rfl, ?_⟩
      cases hrow : s.row with
      | none => rfl
      | some login => exact congrArg some (h.loaded hrow)
  stages _ := trivial

/-- What is read outside of a replacement is of one login. -/
theorem Inv.one (h : Inv s) (hwhole : Whole s) {api session : Option Login} (hapi : api = s.row)
    (hsession : session = s.row) : One ⟨api, session, s.crypto, s.row⟩ :=
  ⟨hapi, hsession, (h.settled hwhole).2.2⟩

/-! ### The client of a reader -/

theorem kept_concat (past : History) (o : Occ Machine Event (Option View)) (t : ℕ) :
    kept t (past ++ [o]) = (reads t o || kept t past && !replaces o) := by
  unfold kept
  rw [List.foldl_append]
  rfl

theorem Current.reading (h : Current past s) {api : Option Login} (hp : s.phase t = .reading api)
    (hkept : kept t past = true) : api = s.api := by
  have hclient := h t hkept
  rw [hp] at hclient
  exact hclient

theorem Current.working (h : Current past s) {api session : Login} (hp : s.phase t = .working api session)
    (hkept : kept t past = true) : some api = s.api := by
  have hclient := h t hkept
  rw [hp] at hclient
  exact hclient

theorem current_fresh : Current [] fresh := nofun

theorem HasClient.congr (hapi : s'.api = s.api) (h : HasClient s p) : HasClient s' p := by
  cases p with
  | reading api => exact h.trans hapi.symm
  | working api session => exact h.trans hapi.symm
  | _ => trivial

/-- A thread moves on, and the client stays. -/
theorem Current.goto (h : Current past s) (hapi : s'.api = s.api) (hphase : s'.phase = s.phase)
    (hp : kept t past = true → HasClient s p) {t' : ℕ} (hkept : kept t' past = true) :
    HasClient (s'.goto t p) ((s'.goto t p).phase t') := by
  rw [goto_phase]
  split_ifs with ht
  · exact (hp (ht ▸ hkept)).congr hapi
  · rw [hphase]
    exact (h t' hkept).congr hapi

/-- **A section that does not replace the client.** -/
theorem Current.go (h : Current past s) (m : Move) (hnot : replaces ⟨s, .go t m, (s.go t m).2⟩ = false)
    {t' : ℕ} (hkept : kept t' past = true) : HasClient (s.go t m).1 ((s.go t m).1.phase t') := by
  unfold replaces at hnot
  unfold Machine.go
  split
  all_goals
    rename_i hp
    simp only [hp] at hnot
  case h_25 api =>
    refine h.goto rfl rfl (fun hmine => ?_) hkept
    have hapi := h.reading hp hmine
    rcases api with _ | a
    · trivial
    · cases s.session with
      | none => trivial
      | some l => exact hapi
  case h_26 persist => exact (h t' hkept).congr rfl
  case h_27 online =>
    dsimp only
    by_cases ht : t = 0
    · rw [if_pos ht]
      exact (h t' hkept).congr rfl
    · rw [if_neg ht]
      exact h t' hkept
  case h_29 => exact h t' hkept
  all_goals
    dsimp only
    first
    | exact absurd hnot Bool.noConfusion
    | refine h.goto rfl rfl (fun _ => ?_) hkept; trivial

theorem Current.step (h : Current past s) (e : Event) :
    Current (past ++ [⟨s, e, (step s e).2⟩]) (step s e).1 := by
  intro t' hkept
  rw [kept_concat] at hkept
  cases e with
  | login t =>
    have hkept : kept t' past = true := by simpa [reads, replaces] using hkept
    unfold Accounts.step
    dsimp only
    split_ifs
    · refine h.goto rfl rfl (fun _ => ?_) hkept
      trivial
    · exact h t' hkept
  | logout t =>
    have hkept : kept t' past = true := by simpa [reads, replaces] using hkept
    unfold Accounts.step
    dsimp only
    split_ifs
    · refine h.goto rfl rfl (fun _ => ?_) hkept
      trivial
    · exact h t' hkept
  | read t =>
    unfold Accounts.step
    dsimp only
    split_ifs with hidle
    · rw [goto_phase]
      split_ifs with ht
      · rfl
      · have hkept : kept t' past = true := by simpa [reads, replaces, Ne.symm ht] using hkept
        exact (h t' hkept).congr rfl
    · have hother : reads t' ⟨s, .read t, none⟩ = false := by
        unfold reads
        by_cases ht : t = t'
        · subst ht
          simp [hidle]
        · simp [ht]
      refine h t' ?_
      simpa [hother, replaces, Accounts.step, hidle] using hkept
  | go t m =>
    have hnot : reads t' ⟨s, .go t m, (Accounts.step s (.go t m)).2⟩ = false := rfl
    rw [hnot, Bool.false_or, Bool.and_eq_true, Bool.not_eq_true'] at hkept
    exact h.go m hkept.2 hkept.1
  | restart client crypto => exact trivial

/-! ### One step -/

/-- **The next section of a thread.** -/
theorem Inv.go (h : Inv s) (hcurrent : Current past s) (m : Move) (hheeds : Heeds past s (.go t m)) :
    Inv (s.go t m).1 := by
  have hstage := h.stages t
  unfold Machine.go
  split
  all_goals
    rename_i hp
    simp only [hp, Heeds, Stage] at hheeds hstage
  case h_3 login =>
    have hnone : ∀ n, (none : Option ℕ) = some n → (some login).map Login.number = some n := nofun
    exact h.replace rfl (Or.inr hheeds) hnone rfl (Or.inl trivial)
  case h_6 login =>
    exact h.replace rfl (Or.inl (by rw [hp]; trivial)) h.account ⟨hstage, rfl⟩ (Or.inl trivial)
  case h_8 login =>
    have hloaded := h.loaded hstage.1
    refine h.replace rfl (Or.inl (by rw [hp]; trivial)) ?_ ⟨hstage.1, hstage.2, ?_⟩ (Or.inl trivial)
    · intro n hn
      dsimp only at hn ⊢
      rw [hstage.1, ← hn, hloaded]
      rfl
    · exact congrArg some hloaded
  case h_11 login =>
    obtain ⟨hrow, hapi, hcrypto⟩ := hstage
    refine h.replace rfl (Or.inl (by rw [hp]; trivial)) h.account trivial (Or.inr ⟨?_, ?_, ?_⟩)
    · rw [hapi, hrow]
    · rw [hrow]
    · rw [hcrypto, hrow]
      rfl
  case h_15 => exact h.replace rfl (Or.inr hheeds) h.account rfl (Or.inl trivial)
  case h_17 =>
    exact h.replace rfl (Or.inl (by rw [hp]; trivial)) h.account ⟨hstage, rfl⟩ (Or.inl trivial)
  case h_19 =>
    exact h.replace rfl (Or.inl (by rw [hp]; trivial)) nofun ⟨hstage.1, hstage.2, rfl⟩ (Or.inl trivial)
  case h_22 =>
    obtain ⟨hapi, hcrypto, hrow⟩ := hstage
    refine h.replace rfl (Or.inl (by rw [hp]; trivial)) h.account trivial (Or.inr ⟨?_, ?_, ?_⟩)
    · rw [hapi, hrow]
    · rw [hrow]
    · rw [hcrypto, hrow]
      rfl
  case h_25 api =>
    obtain ⟨hwhole, hkept⟩ := hheeds
    have hapi : api = s.row := (hcurrent.reading hp hkept).trans (h.settled hwhole).1
    have hsession := (h.settled hwhole).2.1
    refine h.goto (by rw [hp]; exact id) ?_ ?_
    · split <;> exact id
    · rw [hapi, hsession]
      cases s.row with
      | none => trivial
      | some login => rfl
  case h_26 persist => exact h.persist hheeds.1 persist
  case h_27 online =>
    dsimp only
    by_cases ht : t = 0
    · rw [if_pos ht]
      exact h.aside _ _
    · rw [if_neg ht]
      exact h
  case h_29 => exact h
  -- the rest is outside of a replacement, or breaks it off
  all_goals
    first
    | exact absurd rfl hheeds.1
    | exact absurd rfl hheeds.2
    | exact (h.aside _ _).goto (by dsimp only; rw [hp]; exact id) id trivial

/-- **Every step that heeds keeps the invariant.** -/
theorem Inv.step (h : Inv s) (hcurrent : Current past s) (e : Event) (hheeds : Heeds past s e) :
    Inv (step s e).1 := by
  cases e with
  | login t =>
    unfold Accounts.step
    dsimp only
    split_ifs with ht
    · exact (h.aside _ _).goto (by dsimp only; rw [ht.1]; exact id) id trivial
    · exact h
  | logout t =>
    unfold Accounts.step
    dsimp only
    split_ifs with ht
    · exact h.goto (by rw [ht.1]; exact id) id trivial
    · exact h
  | read t =>
    unfold Accounts.step
    dsimp only
    split_ifs with ht
    · exact h.goto (by rw [ht]; exact id) id trivial
    · exact h
  | go t m => exact h.go hcurrent m hheeds
  | restart client crypto => exact h.restart hheeds

/-- **What a step shows is of one login.** -/
theorem Inv.shows (h : Inv s) (hcurrent : Current past s) {e : Event} {v : View} (hheeds : Heeds past s e)
    (hv : (Accounts.step s e).2 = some v) : One v := by
  cases e with
  | go t m =>
    have hstage := h.stages t
    simp only [Accounts.step, Machine.go] at hv
    split at hv
    case h_25 api hp =>
      simp only [hp, Heeds] at hheeds
      rw [← Option.some.inj hv]
      have hapi : api = s.row := (hcurrent.reading hp hheeds.2).trans (h.settled hheeds.1).1
      exact h.one hheeds.1 hapi (h.settled hheeds.1).2.1
    case h_26 api session persist hp =>
      simp only [hp, Heeds] at hheeds
      rw [hp] at hstage
      rw [← Option.some.inj hv]
      have hapi : some api = s.row := (hcurrent.working hp hheeds.2).trans (h.settled hheeds.1).1
      exact h.one hheeds.1 hapi (hstage ▸ hapi)
    all_goals cases hv
  | login t =>
    simp only [Accounts.step] at hv
    split_ifs at hv
  | logout t =>
    simp only [Accounts.step] at hv
    split_ifs at hv
  | read t =>
    simp only [Accounts.step] at hv
    split_ifs at hv
  | restart client crypto => cases hv

end Steps

/-- **Every reader finds one login** in every run whose steps heed. -/
theorem oneRun_of_heeds (events : List Event)
    (hheeds : EveryStep (fun past o => Heeds past o.before o.input) (trace step fresh events)) :
    OneRun events := by
  intro v hv
  obtain ⟨o, ho, hv⟩ := List.mem_filterMap.mp hv
  obtain ⟨past, future, hsplit⟩ := List.append_of_mem ho
  obtain ⟨⟨hinv, hcurrent⟩, hheed, hout⟩ := at_everyStep (I := fun past s => Inv s ∧ Current past s)
    ⟨inv_fresh, current_fresh⟩ (fun _ _ e h hC => ⟨h.1.step h.2 e hC, h.2.step e⟩) hheeds hsplit
  rw [hout] at hv
  exact hinv.shows hcurrent hheed hv

/-! ### Four runs -/

/-- Logged in already, somebody logs in again, and the sync thread starts a round between the new client
and the new session: it would sign for the old user and send with the new token. -/
def betweenApiAndSession : List Event :=
  loggingIn 1 ++ [.login 1, .go 1 (.answered Status.someone), .go 1 .done, .go 1 .done, .read 0,
    .go 0 .done]

/-- A round is on its way when somebody logs in again, and signs with the new crypto state. -/
def acrossALogin : List Event :=
  loggingIn 1 ++ [.read 0, .go 0 .done] ++ loggingIn 1 ++ [.go 0 (.use true)]

/-- The second login fails at the crypto state, and has left the row and the client behind. -/
def brokenOff : List Event :=
  loggingIn 1 ++ [.login 1, .go 1 (.answered Status.someone), .go 1 .done, .go 1 .done, .go 1 .failed,
    .go 1 .done, .read 0, .go 0 .done]

theorem not_oneRun_between_across_broken :
    ¬ OneRun betweenApiAndSession ∧ ¬ OneRun acrossALogin ∧ ¬ OneRun brokenOff :=
  ⟨by decide +kernel, by decide +kernel, by decide +kernel⟩

/-- A run that heeds: a round is on its way across a logout, but does nothing any more; the next finds
nobody, and one after the next login and a restart finds that. -/
def inOrder : List Event :=
  loggingIn 1 ++ [.read 0, .go 0 .done, .go 0 (.use true)] ++ loggingOut 1 ++
    [.go 0 (.report false), .go 0 .finished, .read 0, .go 0 .done] ++ loggingIn 2 ++
    [.restart true true, .read 0, .go 0 .done, .go 0 (.use true)]

theorem oneRun_inOrder : (views inOrder).length = 5 ∧ OneRun inOrder := by
  refine ⟨by decide +kernel, oneRun_of_heeds _ ?_⟩
  simp only [inOrder, loggingIn, loggingOut, List.cons_append, List.nil_append, trace, everyStep_cons,
    everyStep_nil, and_true]
  and_intros
  -- the replacements begin and the readers go on where nothing is between
  all_goals
    first
    | trivial
    | exact Or.inr (And.intro rfl rfl)
    | exact And.intro Move.noConfusion Move.noConfusion
    | exact fun t ht => by rcases t with _ | _ | _ | t <;> cases ht

end Kmatrix.Daemon.Credentials
