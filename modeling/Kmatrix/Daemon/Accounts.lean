import Kmatrix.Lib.Trace
import Kmatrix.Storage.Schema
import Mathlib.Logic.Function.Basic

/-! # Logging in and out

What a login consists of lies in five places, each behind its own lock: the client in `api`, the session
and the reported state in `st`, the crypto state in `net`, and in the store the row of the session and
the pickle of the account. `do_login` and `do_logout` replace them one after the other, and the sync
thread and the calls of the clients read them one after the other. A thread is at a `Phase`; a step is
one locked section of one thread, and the steps of all threads interleave freely. Thread 0 is the sync
thread; the others serve connections.

Crypto state and account are known by the number of the login they were made for. -/

namespace Kmatrix.Daemon.Accounts

open Kmatrix.Storage.Schema

/-- The reported state. -/
inductive State where
  | loggedOut
  | connecting
  | syncing
  | offline
  deriving DecidableEq, Repr

/-- What a successful `api.login` makes: every one is different from those before. -/
structure Login where
  number : ℕ
  session : Session
  deriving DecidableEq, Repr

/-- **Where a thread is**: the section it comes to next. -/
inductive Phase where
  | idle
  /-- `do_login`: the request is out. -/
  | asking
  | clearing (login : Login)
  | installing (login : Login)
  | loading (login : Login)
  | entering (login : Login)
  | reportingIn
  /-- `do_login` has failed, and `dispatch` is about to say so. -/
  | failing
  /-- `do_logout`: the server has been told. -/
  | leaving
  | forgetting
  | wiping
  | dropping
  | reportingOut
  /-- A sync round or a call of a client: it has read `api`, and then has its pair. -/
  | reading (api : Option Login)
  | working (api session : Login)
  deriving DecidableEq, Repr

/-- **What the threads share**, and where each of them is. -/
structure Machine where
  state : State
  session : Option Login
  api : Option Login
  crypto : Option ℕ
  row : Option Login
  account : Option ℕ
  logins : ℕ
  phase : ℕ → Phase

def Machine.goto (s : Machine) (t : ℕ) (p : Phase) : Machine :=
  { s with phase := Function.update s.phase t p }

/-- How a section goes: `partly` is a failure after the writes that came first. -/
inductive Move where
  | done
  | failed
  | partly
  /-- The answer to `/login`. -/
  | answered (session : Session)
  /-- A section that uses the crypto state, and may write the account back. -/
  | use (persist : Bool)
  /-- `set_state` of the sync thread: after the long-poll, or after an error. -/
  | report (online : Bool)
  | finished
  deriving DecidableEq, Repr

inductive Event where
  | login (t : ℕ)
  | logout (t : ℕ)
  | read (t : ℕ)
  | go (t : ℕ) (m : Move)
  /-- The process ends and starts again: whether the client and the crypto state can be made. -/
  | restart (client crypto : Bool)
  deriving DecidableEq, Repr

/-- **What a reader works with**: the pair it has read, and what it finds of the rest. -/
structure View where
  api : Option Login
  session : Option Login
  crypto : Option ℕ
  row : Option Login
  deriving DecidableEq, Repr

/-- `load_or_create`: the account in the store, or a new one. -/
def Machine.loaded (s : Machine) (login : Login) : ℕ := s.account.getD login.number

/-- **The next section of a thread.** A move it does not have changes nothing. -/
def Machine.go (s : Machine) (t : ℕ) (m : Move) : Machine × Option View :=
  match s.phase t, m with
  | .asking, .answered session =>
    ({ s with logins := s.logins + 1 }.goto t (.clearing ⟨s.logins, session⟩), none)
  | .asking, .failed => (s.goto t .failing, none)
  -- `db.clear()?` and `db.save_session(..)?`, in one section
  | .clearing login, .done =>
    ({ s with row := some login, account := none }.goto t (.installing login), none)
  | .clearing _, .failed => (s.goto t .failing, none)
  | .clearing _, .partly => ({ s with row := none, account := none }.goto t .failing, none)
  | .installing login, .done => ({ s with api := some login }.goto t (.loading login), none)
  | .installing _, .failed => (s.goto t .failing, none)
  | .loading login, .done =>
    ({ s with account := some (s.loaded login), crypto := some (s.loaded login) }.goto t
      (.entering login), none)
  | .loading _, .failed => (s.goto t .failing, none)
  | .loading login, .partly => ({ s with account := some (s.loaded login) }.goto t .failing, none)
  | .entering login, .done => ({ s with session := some login }.goto t .reportingIn, none)
  | .entering _, .failed => (s.goto t .failing, none)
  | .reportingIn, .done => ({ s with state := .syncing }.goto t .idle, none)
  | .failing, .done => ({ s with state := .loggedOut }.goto t .idle, none)
  | .leaving, .done => ({ s with api := none }.goto t .forgetting, none)
  | .leaving, .failed => (s.goto t .idle, none)
  | .forgetting, .done => ({ s with crypto := none }.goto t .wiping, none)
  | .forgetting, .failed => (s.goto t .idle, none)
  | .wiping, .done => ({ s with row := none, account := none }.goto t .dropping, none)
  | .wiping, .failed => (s.goto t .idle, none)
  | .wiping, .partly => ({ s with row := none, account := none }.goto t .idle, none)
  | .dropping, .done => ({ s with session := none }.goto t .reportingOut, none)
  | .dropping, .failed => (s.goto t .idle, none)
  | .reportingOut, .done => ({ s with state := .loggedOut }.goto t .idle, none)
  | .reading api, .done =>
    (s.goto t (match api, s.session with
      | some a, some l => .working a l
      | _, _ => .idle), some ⟨api, s.session, s.crypto, s.row⟩)
  | .working api session, .use persist =>
    ({ s with account := if persist then s.crypto.or s.account else s.account },
      some ⟨some api, some session, s.crypto, s.row⟩)
  | .working _ _, .report online =>
    (if t = 0 then { s with state := if online then .syncing else .offline } else s, none)
  | .working _ _, .finished => (s.goto t .idle, none)
  | _, _ => (s, none)

/-- **A start of the process** over the store. -/
def Machine.restart (s : Machine) (client crypto : Bool) : Machine :=
  { s with
    state := if s.row.isSome then .connecting else .loggedOut
    session := s.row
    api := if client then s.row else none
    crypto := if client && crypto then s.row.map s.loaded else none
    account := if client && crypto then (s.row.map s.loaded).or s.account else s.account
    phase := fun _ => .idle }

/-- **One step**, and what it shows a reader. -/
def step (s : Machine) : Event → Machine × Option View
  | .login t =>
    if s.phase t = .idle ∧ t ≠ 0 then ({ s with state := .connecting }.goto t .asking, none)
    else (s, none)
  | .logout t => if s.phase t = .idle ∧ t ≠ 0 then (s.goto t .leaving, none) else (s, none)
  | .read t => if s.phase t = .idle then (s.goto t (.reading s.api), none) else (s, none)
  | .go t m => s.go t m
  | .restart client crypto => (s.restart client crypto, none)

/-- A new daemon over an empty store. -/
def fresh : Machine where
  state := .loggedOut
  session := none
  api := none
  crypto := none
  row := none
  account := none
  logins := 0
  phase _ := .idle

theorem goto_phase (s : Machine) (t t' : ℕ) (p : Phase) :
    (s.goto t p).phase t' = if t' = t then p else s.phase t' := Function.update_apply ..

end Kmatrix.Daemon.Accounts
