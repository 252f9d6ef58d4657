import Kmatrix.Daemon.Backlog

/-! # What a wipe leaves

`do_login` and `do_logout` clear the store in one section and go on in others; a round of the sync thread
and a call of `do_load_older` take their client once and then write in many sections, with requests in
between. A section of theirs that comes after a wipe brings back rows of the login before.

A `Ledger` is the shared state together with the writes since the last wipe, each with the login it was
made for: what a store holds is what these wrote (`Grown`). -/

namespace Kmatrix.Daemon.Wipes

open Kmatrix.Lib.Keyed Kmatrix.Lib.Threads Kmatrix.Daemon.Procs
open Kmatrix.Storage Kmatrix.Storage.Seal Kmatrix.Storage.Schema
open Kmatrix.Storage.Write (StoreOp)
open Kmatrix.Sync.Plaintext

/-! ### The ledger -/

/-- Where the store stands. -/
inductive Standing where
  /-- Nothing is known of it before the first wipe. -/
  | unknown
  | wiped
  | loggedOut
  | loggedIn (number : ℕ)
  deriving DecidableEq, Repr

/-- **The shared state, and how the store came to hold what it holds.** -/
structure Ledger (S : CipherSuite) where
  shared : Shared S
  /-- The writes since the last wipe. -/
  since : List (ℕ × StoreOp)
  /-- The login whose client was put in place last, if no wipe has come since. -/
  owner : Option ℕ
  standing : Standing

/-- One write of a section. -/
inductive Deed where
  | change (c : Change)
  /-- `db.clear()` -/
  | wipe
  /-- `db.save_session` of `do_login`, with the JSON of the session. -/
  | save (login : Login) (json : String)
  | install (login : Login)
  | uninstall
  /-- The session of `do_login`, its last section. -/
  | enter (login : Login)
  /-- No session any more: the last section of `do_logout`. -/
  | leave

/-- What a change writes to the store. -/
def made : Change → List (ℕ × StoreOp)
  | .store number op => [(number, op)]
  | .storeRoom number _ _ row => [(number, .upsertRoom row)]
  | _ => []

variable {S : CipherSuite}

/-- A write of the daemon to the store, entered in the ledger. -/
def Ledger.write (s : Ledger S) (rng : Salts) (number : ℕ) (op : StoreOp) : Ledger S :=
  { s with
    shared := { s.shared with db := op.exec rng s.shared.db }
    since := s.since ++ [(number, op)] }

def Deed.exec (rng : Salts) (s : Ledger S) : Deed → Ledger S
  | .change c => { s with shared := c.exec rng s.shared, since := s.since ++ made c }
  | .wipe =>
    { shared := { s.shared with db := StoreOp.clear.exec rng s.shared.db }
      since := []
      owner := none
      standing := .wiped }
  | .save login json => s.write rng login.number (.saveSession json)
  | .install login =>
    { s with shared := { s.shared with api := some login }, owner := some login.number }
  | .uninstall => { s with shared := { s.shared with api := none } }
  | .enter login =>
    { s with
      shared := { s.shared with session := some login.session }
      standing := .loggedIn login.number }
  | .leave => { s with shared := { s.shared with session := none }, standing := .loggedOut }

/-- What the server does. -/
def note (q : Request) (r : Reply q) (s : Ledger S) : Ledger S :=
  { s with shared := Procs.note q r s.shared }

/-- A procedure that keeps the ledger. -/
abbrev LedgerProc (S : CipherSuite) : Type := Proc (Ledger S) Deed Request Reply

/-! ### Logging in and out -/

/-- **`Crypto::load_or_create`**, as far as the store sees it: what it writes, and the crypto state if it
succeeds. -/
structure Loader (S : CipherSuite) where
  writes : Shared S → List StoreOp
  opens : Shared S → Option Opens

/-- **`do_login`**, from the answer of the server on. -/
def doLogin (loader : Loader S) (json : Session → String) (login : Login) : LedgerProc S :=
  .write [.wipe, .save login (json login.session)]
    (.write [.install login]
      (.locked
        (fun s => ((loader.writes s.shared).map fun op => .change (.store login.number op)) ++
          ((loader.opens s.shared).map fun opens => .change (.setCrypto (some opens))).toList)
        fun s ok =>
          if ok && (loader.opens s.shared).isSome then .write [.enter login] .done else .done))

/-- **`do_logout`**, after the server was told. -/
def doLogout : LedgerProc S :=
  .write [.uninstall]
    (.write [.change (.setCrypto none)]
      (.write [.wipe]
        (.write [.leave] .done)))

/-- **Work for whoever is logged in**: the client, the session, and then the body. -/
def begun (body : Login → DaemonProc S) : DaemonProc S :=
  .read fun s =>
    match s.api with
    | none => .done
    | some api => .read fun s =>
      match s.session with
      | none => .done
      | some session => body ⟨api.number, session⟩

/-- What such work may write: it neither wipes nor changes who is logged in. -/
def OfWork (number : ℕ) : Change → Prop
  | .store n op => n = number ∧ op ≠ .clear
  | .storeRoom n _ _ _ => n = number
  | .mark _ => True
  | _ => False

/-- The body works for the login it is given. -/
def Works (body : Login → DaemonProc S) : Prop :=
  ∀ login, (body login).Only (OfWork login.number) fun _ => True

/-- Who runs. -/
inductive Role where
  | work
  | account
  deriving DecidableEq, Repr

/-- **What may happen**, with a condition on the sections and one on when a login or a logout begins. -/
def rules (loader : Loader S) (json : Session → String) (sections : Ledger S → List Deed → Prop)
    (begins : Pool (Ledger S) Deed Request Reply Role → Prop) :
    Rules (Ledger S) Deed Request Reply Role where
  sections := sections
  answers _ _ _ := True
  starts p k q := match k with
    | .work => ∃ body, Works body ∧ q = (begun body).lift Ledger.shared .change
    | .account => begins p ∧ ((∃ login, q = doLogin loader json login) ∨ q = doLogout)
  changes _ _ := False

/-! ### What is claimed, and when it holds -/

/-- **The store after these writes** to a wiped one. -/
inductive Grown : List (ℕ × StoreOp) → Store S → Prop
  | wiped (rng : Salts) (st : Store S) : Grown [] (StoreOp.clear.exec rng st)
  | wrote (rng : Salts) (number : ℕ) (op : StoreOp) {ops : List (ℕ × StoreOp)} {st : Store S} :
      Grown ops st → Grown (ops ++ [(number, op)]) (op.exec rng st)

/-- **Nothing but the flag.** -/
def Bare (st : Store S) : Prop :=
  st.db.rooms.entries = [] ∧ st.db.messages.entries = [] ∧ st.db.edits.entries = [] ∧
    st.db.members.entries = [] ∧ st.db.pickles.entries = [] ∧
    ∀ e ∈ st.db.metas.entries, e = (encryptedFlag, "1")

/-- **No write of an earlier login survives**: nothing after a logout, and after a login only what was
written for it. -/
def Swept (s : Ledger S) : Prop :=
  match s.standing with
  | .loggedOut => Bare s.shared.db
  | .loggedIn number => Grown s.since s.shared.db ∧ ∀ w ∈ s.since, w.1 = number
  | _ => True

/-- **The condition on the sections**: what is written for a login is written while no wipe has come
since its client was put in place. -/
def Timely (s : Ledger S) (ws : List Deed) : Prop :=
  ∀ c, .change c ∈ ws → ∀ w ∈ made c, s.owner = some w.1

/-- **The condition on the calls**: no other login or logout is on its way. -/
def Alone (p : Pool (Ledger S) Deed Request Reply Role) : Prop := ∀ x ∈ p.procs, x.1 ≠ .account

/-! ### The invariant -/

/-- What holds of the ledger in every run that meets both. -/
structure Kept (s : Ledger S) : Prop where
  grown : s.standing ≠ .unknown → Grown s.since s.shared.db
  out : s.standing = .loggedOut → s.since = [] ∧ s.owner = none
  inside : ∀ n, s.standing = .loggedIn n → s.owner = some n ∧ ∀ w ∈ s.since, w.1 = n

/-- What the others do while a login or a logout is on its way: they write for the owner. -/
def Apart (s s' : Ledger S) : Prop :=
  s'.standing = s.standing ∧ s'.owner = s.owner ∧
    ∃ ops, s'.since = s.since ++ ops ∧ ∀ w ∈ ops, s.owner = some w.1

theorem Apart.refl (s : Ledger S) : Apart s s :=
  ⟨rfl, rfl, [], (List.append_nil _).symm, fun _ hw => absurd hw List.not_mem_nil⟩

theorem Apart.trans {s s' s'' : Ledger S} (h : Apart s s') (h' : Apart s' s'') : Apart s s'' := by
  obtain ⟨hstanding, howner, ops, hsince, hops⟩ := h
  obtain ⟨hstanding', howner', ops', hsince', hops'⟩ := h'
  refine ⟨hstanding'.trans hstanding, howner'.trans howner, ops ++ ops', ?_, fun w hw => ?_⟩
  · rw [hsince', hsince, List.append_assoc]
  · rcases List.mem_append.mp hw with hw | hw
    · exact hops w hw
    · rw [← howner]
      exact hops' w hw

/-- The outline: work may run beside everything, logins and logouts only one at a time. -/
def outline : Outline (Ledger S) Role where
  inv := Kept
  rely k s s' := k = .account → Apart s s'
  beside k k' := k = .work ∨ k' = .work
  refl _ s := fun _ => Apart.refl s
  trans h h' := fun hk => (h hk).trans (h' hk)
  symm h := h.symm

/-! ### What a store without writes holds -/

/-- A wiped store holds nothing but the flag. -/
theorem bare_clear (rng : Salts) (st : Store S) : Bare (StoreOp.clear.exec rng st) := by
  obtain ⟨db, _ | master⟩ := st
  · exact ⟨rfl, rfl, rfl, rfl, rfl, nofun⟩
  · refine ⟨rfl, rfl, rfl, rfl, rfl, fun e he => ?_⟩
    exact List.mem_singleton.mp he

theorem Grown.bare {st : Store S} (h : Grown [] st) : Bare st := by
  generalize hops : ([] : List (ℕ × StoreOp)) = ops at h
  cases h with
  | wiped rng st => exact bare_clear rng st
  | wrote rng number op h => simp at hops

/-- What the invariant says is what was claimed. -/
theorem Kept.swept {s : Ledger S} (h : Kept s) : Swept s := by
  unfold Swept
  cases hs : s.standing with
  | unknown => trivial
  | wiped => trivial
  | loggedOut =>
    have hgrown := h.grown (by rw [hs]; exact nofun)
    rw [(h.out hs).1] at hgrown
    exact hgrown.bare
  | loggedIn n => exact ⟨h.grown (by rw [hs]; exact nofun), (h.inside n hs).2⟩

/-! ### The writes -/

section Writes
variable {s : Ledger S} {rng : Salts}

/-- A change enters the ledger with what it does to the store. -/
theorem Grown.change {c : Change} (h : Grown s.since s.shared.db) :
    Grown (s.since ++ made c) (c.exec rng s.shared).db := by
  cases c with
  | store number op => exact h.wrote rng number op
  | storeRoom number room jr row => exact h.wrote rng number (.upsertRoom row)
  | _ =>
    show Grown (s.since ++ []) s.shared.db
    rw [List.append_nil]
    exact h

/-- **A change that is made for the owner.** -/
theorem Kept.change (h : Kept s) (rng : Salts) (c : Change) (hown : ∀ w ∈ made c, s.owner = some w.1) :
    Kept (Deed.exec rng s (.change c)) ∧ Apart s (Deed.exec rng s (.change c)) := by
  refine ⟨⟨fun hs => (h.grown hs).change, fun hs => ?_, fun n hs => ?_⟩, rfl, rfl, made c, rfl, hown⟩
  · obtain ⟨hsince, howner⟩ := h.out hs
    refine ⟨?_, howner⟩
    have hmade : made c = [] := by
      refine List.eq_nil_iff_forall_not_mem.mpr fun w hw => ?_
      have hw' := hown w hw
      rw [howner] at hw'
      cases hw'
    show s.since ++ made c = []
    rw [hsince, hmade, List.append_nil]
  · obtain ⟨howner, hall⟩ := h.inside n hs
    refine ⟨howner, fun w hw => ?_⟩
    rcases List.mem_append.mp hw with hw | hw
    · exact hall w hw
    · have hw' := hown w hw
      rw [howner] at hw'
      exact (Option.some.inj hw').symm

/-- An answer changes neither the store nor the ledger. -/
theorem Kept.answered (h : Kept s) (q : Request) (r : Reply q) :
    Kept (note q r s) ∧ Apart s (note q r s) := by
  have hdb : (note q r s).shared.db = s.shared.db := by
    unfold note
    cases q <;> rfl
  refine ⟨⟨fun hs => ?_, h.out, h.inside⟩, Apart.refl s⟩
  rw [hdb]
  exact h.grown hs

theorem kept_wipe : Kept (Deed.exec rng s .wipe) where
  grown _ := Grown.wiped rng s.shared.db
  out h := nomatch h
  inside _ h := nomatch h

/-- **The store is the login's**: what it holds was written for it since its wipe. -/
def Mine (number : ℕ) (owner : Option ℕ) (s : Ledger S) : Prop :=
  s.standing = .wiped ∧ s.owner = owner ∧ ∀ w ∈ s.since, w.1 = number

/-- Between a wipe and the end of the call nothing is claimed yet. -/
theorem Kept.of_wiped {s' : Ledger S} (hs : s'.standing = .wiped)
    (hgrown : Grown s'.since s'.shared.db) : Kept s' where
  grown _ := hgrown
  out h := by
    rw [hs] at h
    cases h
  inside n h := by
    rw [hs] at h
    cases h

/-- What the others do before the client is in place, or for it, leaves the store the login's. -/
theorem Mine.apart {s' : Ledger S} {number : ℕ} {owner : Option ℕ} (h : Mine number owner s)
    (howner : owner = none ∨ owner = some number) (hapart : Apart s s') : Mine number owner s' := by
  obtain ⟨hstanding, hmine, hall⟩ := h
  obtain ⟨hstanding', howner', ops, hsince, hops⟩ := hapart
  refine ⟨hstanding'.trans hstanding, howner'.trans hmine, fun w hw => ?_⟩
  rw [hsince] at hw
  rcases List.mem_append.mp hw with hw | hw
  · exact hall w hw
  · have hw' := hops w hw
    rw [hmine] at hw'
    rcases howner with rfl | rfl
    · cases hw'
    · exact (Option.some.inj hw').symm

theorem Mine.grown {number : ℕ} {owner : Option ℕ} (h : Mine number owner s) (hkept : Kept s) :
    Grown s.since s.shared.db := by
  refine hkept.grown ?_
  rw [h.1]
  exact nofun

/-- The client of the login. -/
theorem Mine.install {login : Login} {owner : Option ℕ} (h : Mine login.number owner s)
    (hkept : Kept s) (rng : Salts) :
    Kept (Deed.exec rng s (.install login)) ∧
      Mine login.number (some login.number) (Deed.exec rng s (.install login)) :=
  ⟨.of_wiped h.1 (h.grown hkept), h.1, rfl, h.2.2⟩

/-- The session of the login: from here on its store is claimed. -/
theorem Mine.enter {login : Login} (h : Mine login.number (some login.number) s) (hkept : Kept s) :
    Kept (Deed.exec rng s (.enter login)) where
  grown _ := h.grown hkept
  out hs := nomatch hs
  inside n hs := by
    cases hs
    exact h.2

/-- The end of a logout: nothing was written since its wipe. -/
theorem Kept.leave (hkept : Kept s) (hwiped : s.standing = .wiped) (hsince : s.since = [])
    (howner : s.owner = none) : Kept (Deed.exec rng s .leave) where
  grown _ := hkept.grown (by rw [hwiped]; exact nofun)
  out _ := ⟨hsince, howner⟩
  inside n hs := nomatch hs

end Writes

/-! ### The procedures -/

section Sound
variable {loader : Loader S} {json : Session → String} {s : Ledger S}
  {begins : Pool (Ledger S) Deed Request Reply Role → Prop}

/-- What a login or a logout does is bound by the invariant alone: only work runs beside it. -/
theorem allows_account {s' : Ledger S} (h : Kept s') : outline.Allows .account s s' := by
  refine ⟨h, fun k' hbeside hk' => ?_⟩
  rcases hbeside with hwork | hwork
  · cases hwork
  · rw [hwork] at hk'
    cases hk'

/-- Changes that are made for the owner, by whomever. -/
theorem carry_changes {k : Role} {ws : List Deed} (h : Kept s)
    (hws : ∀ w ∈ ws, ∃ c, w = .change c ∧ ∀ x ∈ made c, s.owner = some x.1) (os : List Salts) :
    (outline : Outline (Ledger S) Role).Allows k s (carry Deed.exec s ws os) ∧
      Apart s (carry Deed.exec s ws os) := by
  refine allows_carry (Apart s) h (Apart.refl s) (fun w hw rng s' hinv hapart => ?_) os
  obtain ⟨c, rfl, hown⟩ := hws w hw
  have hchange := hinv.change rng c fun x hx => by
    rw [hapart.2.1]
    exact hown x hx
  exact ⟨⟨hchange.1, fun _ _ _ => hchange.2⟩, hapart.trans hchange.2⟩

/-- **Work is sound**, where what it writes is timely. -/
theorem sound_work {body : Login → DaemonProc S} (hbody : Works body) (s : Ledger S) :
    Sound (rules loader json Timely begins) Deed.exec note outline .work
      ((begun body).lift Ledger.shared .change) s := by
  -- whatever it has read, it writes for somebody
  have honly : (begun body).Only (fun c => ∃ number, OfWork number c) fun _ => True := by
    refine Proc.only_read fun s => ?_
    split
    · trivial
    · refine Proc.only_read fun s => ?_
      split
      · trivial
      · exact (hbody _).mono (fun c hc => ⟨_, hc⟩) fun _ _ => trivial
  have hlift : ((begun body).lift Ledger.shared .change).Only (fun w => ∃ c, w = Deed.change c)
      fun _ => True := honly.lift fun c _ => ⟨c, rfl⟩
  refine hlift.sound (fun s' ws hinv htimely hws os => ?_) (fun s' q r hinv _ _ => ?_) s
  · refine (carry_changes hinv (fun w hw => ?_) os).1
    obtain ⟨c, rfl⟩ := hws w hw
    exact ⟨c, rfl, htimely c hw⟩
  · obtain ⟨hkept, hapart⟩ := hinv.answered q r
    exact ⟨hkept, fun _ _ _ => hapart⟩

/-- **A login is sound**: from its wipe on, the store is its own. -/
theorem sound_doLogin (login : Login) (s : Ledger S) :
    Sound (rules loader json Timely begins) Deed.exec note outline .account
      (doLogin loader json login) s := by
  refine sound_write (fun s₁ _ hinv _ os => allows_account ?_) fun s₁ _ hinv os hall => ?_
  · -- neither, the wipe alone, or both
    rcases os with _ | ⟨rng, _ | ⟨rng', os⟩⟩
    · exact hinv
    · exact kept_wipe
    · exact .of_wiped rfl ((Grown.wiped rng s₁.shared.db).wrote rng' _ _)
  obtain ⟨rng, rng', os, rfl⟩ : ∃ rng rng' os', os = rng :: rng' :: os' := by
    rcases os with _ | ⟨rng, _ | ⟨rng', os⟩⟩
    · simp at hall
    · simp at hall
    · exact ⟨rng, rng', os, rfl⟩
  have hmine : Mine login.number none (carry Deed.exec s₁
      [.wipe, .save login (json login.session)] (rng :: rng' :: os)) := by
    refine ⟨rfl, rfl, fun w hw => ?_⟩
    rw [List.mem_singleton.mp hw]
  refine sound_one fun s₂ hs₂ hinv₂ rng₂ => ?_
  obtain ⟨hkept, hmine₂⟩ := (hmine.apart (Or.inl rfl) (hs₂ rfl)).install hinv₂ rng₂
  refine ⟨allows_account hkept, fun s₃ hs₃ hinv₃ _ os => ?_⟩
  -- the crypto state is loaded, and what that writes is the login's
  have hmine₃ := hmine₂.apart (Or.inr rfl) (hs₃ rfl)
  have hload : ∀ w ∈ (loader.writes s₃.shared).map (fun op => Deed.change (.store login.number op)) ++
      ((loader.opens s₃.shared).map fun opens => Deed.change (.setCrypto (some opens))).toList,
      ∃ c, w = .change c ∧ ∀ x ∈ made c, s₃.owner = some x.1 := by
    intro w hw
    rcases List.mem_append.mp hw with hw | hw
    · obtain ⟨op, -, rfl⟩ := List.mem_map.mp hw
      refine ⟨_, rfl, fun x hx => ?_⟩
      rw [List.mem_singleton.mp hx]
      exact hmine₃.2.1
    · obtain ⟨opens, -, rfl⟩ := Option.map_eq_some_iff.mp (Option.mem_toList.mp hw)
      exact ⟨_, rfl, fun x hx => absurd hx List.not_mem_nil⟩
  obtain ⟨hallows, hapart⟩ := carry_changes (k := .account) hinv₃ hload os
  refine ⟨hallows, ?_⟩
  dsimp only
  split_ifs
  · refine sound_one fun s₄ hs₄ hinv₄ _ => ⟨allows_account ?_, trivial⟩
    exact ((hmine₃.apart (Or.inr rfl) hapart).apart (Or.inr rfl) (hs₄ rfl)).enter hinv₄
  · trivial

/-- **A logout is sound**: without a client nobody writes after its wipe. -/
theorem sound_doLogout (s : Ledger S) :
    Sound (rules loader json Timely begins) Deed.exec note outline .account doLogout s := by
  refine sound_one fun s₁ _ hinv₁ _ => ⟨allows_account ⟨hinv₁.grown, hinv₁.out, hinv₁.inside⟩, ?_⟩
  refine sound_one fun s₂ _ hinv₂ rng₂ => ?_
  have hforget := hinv₂.change rng₂ (.setCrypto none) fun x hx => absurd hx List.not_mem_nil
  refine ⟨allows_account hforget.1, sound_one fun s₃ _ _ _ => ⟨allows_account kept_wipe, ?_⟩⟩
  refine sound_one fun s₄ hs₄ hinv₄ _ => ⟨allows_account ?_, trivial⟩
  obtain ⟨hstanding, howner, ops, hsince, hops⟩ := hs₄ rfl
  refine hinv₄.leave hstanding ?_ howner
  rw [hsince]
  exact List.eq_nil_iff_forall_not_mem.mpr fun w hw => nomatch hops w hw

end Sound

/-! ### Runs -/

/-- **No write of an earlier login survives** a run whose sections are timely and whose logins and
logouts come one after the other. -/
theorem swept_of_lawful {loader : Loader S} {json : Session → String}
    {p : Pool (Ledger S) Deed Request Reply Role} (hnew : p.procs = [])
    (hunknown : p.state.standing = .unknown)
    {events : List (Event (Ledger S) Deed Request Reply Role Salts)}
    (hlawful : p.Lawful (rules loader json Timely Alone) Deed.exec note events) :
    Swept (p.runs Deed.exec note events).state := by
  have hkept : Kept p.state := by
    refine ⟨fun hs => absurd hunknown hs, fun hs => ?_, fun n hs => ?_⟩
    · rw [hunknown] at hs
      cases hs
    · rw [hunknown] at hs
      cases hs
  have hsane : Sane (rules loader json Timely Alone) Deed.exec note outline p := by
    refine ⟨hkept, fun x hx => ?_, ?_⟩
    · rw [hnew] at hx
      cases hx
    · rw [hnew]
      exact List.Pairwise.nil
  have hbeside : ∀ p' : Pool (Ledger S) Deed Request Reply Role, Alone p' →
      ∀ x ∈ p'.procs, (outline : Outline (Ledger S) Role).beside x.1 .account := by
    intro p' halone x hx
    rcases x with ⟨_ | _, q⟩
    · exact Or.inl rfl
    · exact absurd rfl (halone _ hx)
  refine (hsane.runs ⟨fun p' k q hstart _ => ?_, fun s s' (h : False) => h.elim⟩ hlawful).inv.swept
  rcases k with _ | _
  · obtain ⟨body, hbody, rfl⟩ := hstart
    exact ⟨sound_work hbody _, fun _ _ => Or.inr rfl⟩
  · obtain ⟨halone, ⟨login, rfl⟩ | rfl⟩ := hstart
    · exact ⟨sound_doLogin login _, hbeside p' halone⟩
    · exact ⟨sound_doLogout _, hbeside p' halone⟩

section Works
variable {serde : SerdeJson}

/-- **A round of the sync thread** is such work. -/
theorem works_syncOnce {layer : Layer S} : Works (syncOnce serde layer) := by
  refine fun login => only_syncOnce.mono (fun c hc => ?_) fun _ _ => trivial
  cases c with
  | store n op =>
    obtain ⟨rfl, hop⟩ := hc
    exact ⟨rfl, fun heq => by rw [heq] at hop; exact hop⟩
  | storeRoom n room jr row => exact hc
  | _ => exact hc.elim

/-- **A call of `do_load_older`** is such work. -/
theorem works_loadOlder {room : String} {limit : ℕ} :
    Works fun login => (loadOlder serde login room limit : DaemonProc S) := by
  refine fun login => only_loadOlder.mono (fun c hc => ?_) fun _ _ => trivial
  cases c with
  | store n op =>
    obtain ⟨rfl, hop⟩ := hc
    exact ⟨rfl, fun heq => by rw [heq] at hop; exact hop⟩
  | _ => exact hc.elim

end Works

/-! ### A round across a wipe -/

section Examples
open Kmatrix.E2ee.Effects (blankStore)
open Kmatrix.Daemon.Backlog (noPlaintext idleLayer)

def login (number : ℕ) : Login := ⟨number, ⟨"https://example.org", "@us", "DEVICE", "token"⟩⟩

/-- Logged in, over an empty store. -/
def atStart : Pool (Ledger copySuite) Deed Request Reply Role :=
  ⟨⟨⟨blankStore, none, some (login 0), some (login 0).session, []⟩, [], some 0, .unknown⟩, []⟩

/-- A batch without rooms, an empty page, and nothing else. -/
def serve : (q : Request) → Reply q
  | .sync _ => .ok ⟨[], ⟨"next", [], List.nodup_nil⟩, 50⟩
  | .messages _ _ _ => .ok ⟨[], some "older"⟩
  | .keysUpload => .error "timeout"
  | .backupVersion => .error "timeout"
  | .joinedMembers _ => .error "timeout"
  | .keysQuery => .error "timeout"
  | .keysClaim => .error "timeout"
  | .sendToDevice _ => .error "timeout"
  | .sendEvent _ _ _ => .error "timeout"
  | .directRooms => .error "timeout"
  | .roomName _ => .error "timeout"
  | .memberNames _ => .error "timeout"

/-- An encryption layer that has nothing to load. -/
def idleLoader : Loader copySuite := ⟨fun _ => [], fun _ => some fun _ _ => none⟩

/-- A round up to its long-poll. -/
def poll : List (Event (Ledger copySuite) Deed Request Reply Role Salts) :=
  [.start .work ((begun (syncOnce noPlaintext idleLayer)).lift Ledger.shared .change), .run 0 [],
    .run 0 [], .run 0 []]

/-- The answer, and what the round does with it. -/
def finish : List (Event (Ledger copySuite) Deed Request Reply Role Salts) :=
  [.answer 0 serve, .run 0 [], .run 0 [fun _ => zeroSalt], .run 0 []]

/-- A page of older messages, from its start to its end. -/
def page : List (Event (Ledger copySuite) Deed Request Reply Role Salts) :=
  [.start .work ((begun fun login => loadOlder noPlaintext login "!r" 50).lift Ledger.shared .change),
    .run 0 [], .run 0 [], .run 0 [], .answer 0 serve, .run 0 [fun _ => zeroSalt]]

/-- The four sections of a login or a logout, beside `i` others. -/
def call (i : ℕ) (q : LedgerProc copySuite) :
    List (Event (Ledger copySuite) Deed Request Reply Role Salts) :=
  .start .account q :: List.replicate 4 (.run i [fun _ => zeroSalt, fun _ => zeroSalt])

def loginCall : LedgerProc copySuite := doLogin idleLoader (fun _ => "session") (login 1)

/-- What the runs here are made of. -/
def Plain : Event (Ledger copySuite) Deed Request Reply Role Salts → Prop
  | .start .work q => q = (begun (syncOnce noPlaintext idleLayer)).lift Ledger.shared .change ∨
      q = (begun fun login => loadOlder noPlaintext login "!r" 50).lift Ledger.shared .change
  | .start .account q => q = loginCall ∨ q = doLogout
  | .change _ => False
  | _ => True

/-- A write that is not for the owner. -/
def timely (s : Ledger copySuite) (ws : List Deed) : Bool :=
  ws.all fun w => match w with
    | .change c => (made c).all fun x => s.owner = some x.1
    | _ => true

theorem timely_of_check {s : Ledger copySuite} {ws : List Deed} (h : timely s ws = true) :
    Timely s ws := by
  intro c hc w hw
  have hall := List.all_eq_true.mp (List.all_eq_true.mp h _ hc) w hw
  exact of_decide_eq_true hall

/-- The conditions at each step of a run. -/
def heeds (p : Pool (Ledger copySuite) Deed Request Reply Role) :
    List (Event (Ledger copySuite) Deed Request Reply Role Salts) → Bool
  | [] => true
  | event :: events =>
    (match event with
      | .run i _ => match p.procs[i]? with
        | some (_, .locked writes _) => timely p.state (writes p.state)
        | _ => true
      | .start .account _ => p.procs.all fun x => x.1 ≠ .account
      | _ => true) && heeds (p.step Deed.exec note event) events

/-- Such a run may happen, if the conditions are no conditions or are met. -/
theorem lawful_of_plain {sections : Ledger copySuite → List Deed → Prop}
    {begins : Pool (Ledger copySuite) Deed Request Reply Role → Prop}
    {run : List (Event (Ledger copySuite) Deed Request Reply Role Salts)}
    {p : Pool (Ledger copySuite) Deed Request Reply Role} (hplain : ∀ e ∈ run, Plain e)
    (hcond : ((∀ s ws, sections s ws) ∧ ∀ p, begins p) ∨
      (heeds p run = true ∧ (∀ s ws, Timely s ws → sections s ws) ∧ ∀ p, Alone p → begins p)) :
    p.Lawful (rules idleLoader (fun _ => "session") sections begins) Deed.exec note run := by
  induction run generalizing p with
  | nil => trivial
  | cons e run ih =>
    obtain ⟨he, hrun⟩ := List.forall_mem_cons.mp hplain
    refine ⟨?_, ih hrun (hcond.imp id fun ⟨h, hs⟩ => ⟨(Bool.and_eq_true_iff.mp h).2, hs⟩)⟩
    rcases e with ⟨i, os⟩ | ⟨i, reply⟩ | i | ⟨k, q⟩ | s | _
    · intro k writes next hi
      rcases hcond with ⟨h, -⟩ | ⟨h, hs, -⟩
      · exact h _ _
      · have hnow := (Bool.and_eq_true_iff.mp h).1
        dsimp only at hnow
        rw [hi] at hnow
        exact hs _ _ (timely_of_check hnow)
    · exact fun _ _ _ _ => trivial
    · trivial
    · rcases k with _ | _
      · exact he.elim (fun h => ⟨_, works_syncOnce, h⟩) fun h => ⟨_, works_loadOlder, h⟩
      · have hbegins : begins p := by
          rcases hcond with ⟨-, h⟩ | ⟨h, -, hs⟩
          · exact h p
          · refine hs p fun x hx => ?_
            exact of_decide_eq_true (List.all_eq_true.mp (Bool.and_eq_true_iff.mp h).1 x hx)
        exact ⟨hbegins, he.imp (fun h => ⟨_, h⟩) id⟩
    · exact he.elim
    · trivial

/-- The long-poll of a round is out while somebody logs out, or in again. -/
def acrossAWipe (q : LedgerProc copySuite) :
    List (Event (Ledger copySuite) Deed Request Reply Role Salts) := poll ++ call 1 q ++ finish

theorem plain_acrossAWipe {q : LedgerProc copySuite} (h : q = loginCall ∨ q = doLogout) :
    ∀ e ∈ acrossAWipe q, Plain e := by
  intro e he
  simp only [acrossAWipe, poll, call, finish, List.mem_append, List.mem_cons, List.not_mem_nil,
    or_false, List.mem_replicate] at he
  rcases he with ((rfl | rfl | rfl | rfl) | (rfl | ⟨-, rfl⟩)) | (rfl | rfl | rfl | rfl)
  all_goals first | trivial | exact Or.inl rfl

/-- **The round writes its token into the wiped store**: after the logout, and after the login. -/
theorem not_swept_acrossAWipe :
    (¬ ∀ run, atStart.Lawful (rules idleLoader (fun _ => "session") (fun _ _ => True) fun _ => True)
      Deed.exec note run → Swept (atStart.runs Deed.exec note run).state) ∧
    ∀ q, q = loginCall ∨ q = doLogout → ¬ Swept (atStart.runs Deed.exec note (acrossAWipe q)).state := by
  have hboth : ∀ q, q = loginCall ∨ q = doLogout →
      ¬ Swept (atStart.runs Deed.exec note (acrossAWipe q)).state := by
    rintro q (rfl | rfl) h
    · have hin : (atStart.runs Deed.exec note (acrossAWipe loginCall)).state.standing = .loggedIn 1 := by
        decide +kernel
      unfold Swept at h
      rw [hin] at h
      have hstale : (0, StoreOp.setMeta "sync_token" "next") ∈
          (atStart.runs Deed.exec note (acrossAWipe loginCall)).state.since := by decide +kernel
      exact absurd (h.2 _ hstale) (by decide)
    · have hout : (atStart.runs Deed.exec note (acrossAWipe doLogout)).state.standing = .loggedOut := by
        decide +kernel
      unfold Swept at h
      rw [hout] at h
      have hstale : ("sync_token", "next") ∈
          (atStart.runs Deed.exec note (acrossAWipe doLogout)).state.shared.db.db.metas.entries := by
        decide +kernel
      exact absurd (h.2.2.2.2.2 _ hstale) (by decide)
  refine ⟨fun h => ?_, hboth⟩
  refine hboth doLogout (Or.inr rfl) (h _ (lawful_of_plain (plain_acrossAWipe (Or.inr rfl)) ?_))
  exact Or.inl ⟨fun _ _ => trivial, fun _ => trivial⟩

/-- A round, a page, a login, a round for it, and a logout. -/
def inOrder : List (Event (Ledger copySuite) Deed Request Reply Role Salts) :=
  poll ++ finish ++ page ++ call 0 loginCall ++ poll ++ finish ++ call 0 doLogout

/-- One after the other, they leave nothing behind. -/
theorem swept_inOrder : Swept (atStart.runs Deed.exec note inOrder).state := by
  have hplain : ∀ e ∈ inOrder, Plain e := by
    intro e he
    simp only [inOrder, poll, call, finish, page, List.mem_append, List.mem_cons, List.not_mem_nil,
      or_false, List.mem_replicate] at he
    rcases he with ((((((rfl | rfl | rfl | rfl) | (rfl | rfl | rfl | rfl)) |
      (rfl | rfl | rfl | rfl | rfl | rfl)) | (rfl | ⟨-, rfl⟩)) | (rfl | rfl | rfl | rfl)) |
      (rfl | rfl | rfl | rfl)) | (rfl | ⟨-, rfl⟩)
    all_goals first | trivial | exact Or.inl rfl | exact Or.inr rfl
  have hlawful : atStart.Lawful (rules idleLoader (fun _ => "session") Timely Alone) Deed.exec note
      inOrder :=
    lawful_of_plain hplain (Or.inr ⟨by decide +kernel, fun _ _ h => h, fun _ h => h⟩)
  have hnew : atStart.procs = [] := rfl
  have hunknown : atStart.state.standing = .unknown := rfl
  exact swept_of_lawful hnew hunknown hlawful

end Examples

end Kmatrix.Daemon.Wipes
