import Kmatrix.Lib.Trace
import Mathlib.Data.List.Nodup
import Mathlib.Data.List.Perm.Basic

/-! # The plugin's connection

What `main.lua` does with its connection to the daemon: `ensureConnected` opens one or starts the daemon
and looks for it again and again, `teardownConnection` takes it down, and in between the screens come and
go. All of it runs on one thread, a callback at a time, but not in one go: the search for the daemon and
what is put off by a tick (`releaseIfHidden`, `onDaemonDisconnect`) are tasks of the event loop, and
anything may happen before they run. Every connection and every search has its number.

* `tidy_runs`: an open socket is always the plugin's own, polled, and alone; a search is under way only
  without one; and who waits for the daemon is called back once at most.
* `ended_only`: what ends a connection that works. -/

namespace Kmatrix.Ui.Connection

open Kmatrix.Lib.Trace

/-! ### The data -/

/-- **A task of the event loop.** -/
inductive Task where
  /-- The closure `start_poll`. -/
  | poll (id tries done : ℕ)
  /-- Of `releaseIfHidden`. -/
  | release
  /-- Of `onDaemonDisconnect`, for the connection that was lost. -/
  | cleanup (lost : ℕ)
  deriving DecidableEq, Repr

structure Plugin where
  /-- `self.ipc`. -/
  ipc : Option ℕ := none
  /-- `self.message_queue`. -/
  messageQueue : Option ℕ := none
  /-- `self.start_poll`. -/
  startPoll : Option ℕ := none
  busy : Bool := false
  roomMenu : Bool := false
  timeline : Bool := false
  reconnectOnResume : Bool := false
  /-- The sockets that are open: of connections whose `sock` is set. -/
  sockets : List ℕ := []
  /-- `UIManager`'s list of what it polls. -/
  zmqs : List ℕ := []
  tasks : List Task := []
  /-- The callers of `ensureConnected` that have been called back, and with what. -/
  called : List (ℕ × Bool) := []
  nextConn : ℕ := 0
  nextPoll : ℕ := 0
  nextDone : ℕ := 0

/-- What `IPC:connect` comes to; the handshake may break the connection at once. -/
inductive Opening where
  | refused
  | accepted (broken : Bool)
  deriving DecidableEq, Repr

/-- What `ensureConnected` finds: the port in the port file, if any, and whether there is a daemon to
start. -/
structure Way where
  port : Option Opening
  spawned : Bool

inductive Event where
  | openMatrix (w : Way)
  | suspend
  | resume (w : Way)
  | closeWidget
  | exit
  /-- The event loop runs one of its tasks; a search finds this in the port file. -/
  | run (i : ℕ) (port : Option Opening)
  /-- A polled connection is found closed, or its handshake is turned down. -/
  | lose (c : ℕ)
  /-- A request is written, which may fail. -/
  | request (broken : Bool)
  | showRoomList
  | openTimeline
  /-- The reader closes a screen. -/
  | closeRoomList
  | closeTimeline
  /-- `logout` and `shutdownDaemon` close screens themselves. -/
  | dropScreens (roomMenu timeline : Bool)

/-- What a step did to the connections. -/
inductive Note where
  | opened (c : ℕ)
  | lost (c : ℕ)
  deriving DecidableEq, Repr

/-! ### The functions -/

/-- **`isConnected`.** -/
def Plugin.isConnected (s : Plugin) : Bool :=
  match s.ipc with
  | some c => decide (c ∈ s.sockets)
  | none => false

def Plugin.uiVisible (s : Plugin) : Bool := s.roomMenu || s.timeline

/-- `IPC:fail`, and `onDaemonDisconnect` from it. -/
def Plugin.fail (s : Plugin) (c : ℕ) : Plugin × List Note :=
  if c ∈ s.sockets then
    ({ s with sockets := s.sockets.filter fun c' => c' ≠ c, tasks := s.tasks ++ [.cleanup c] }, [.lost c])
  else (s, [])

/-- Which search a task belongs to. -/
def Task.pollId : Task → Option ℕ
  | .poll id _ _ => some id
  | _ => none

/-- **`teardownConnection`.** -/
def Plugin.teardownConnection (s : Plugin) : Plugin :=
  { s with
    tasks := match s.startPoll with
      | some id => s.tasks.filter fun t => t.pollId ≠ some id
      | none => s.tasks
    startPoll := none
    sockets := match s.ipc with
      | some c => s.sockets.filter fun c' => c' ≠ c
      | none => s.sockets
    ipc := none
    zmqs := match s.messageQueue with
      | some c => s.zmqs.filter fun c' => c' ≠ c
      | none => s.zmqs
    messageQueue := none }

/-- **`openConnection`.** -/
def Plugin.openConnection (s : Plugin) : Opening → Plugin × List Note × Bool
  | .refused => (s, [], false)
  | .accepted broken =>
    let c := s.nextConn
    let s := { s with nextConn := c + 1, sockets := s.sockets ++ [c] }
    let (s, notes) := if broken then s.fail c else (s, [])
    ({ s with ipc := some c, messageQueue := some c, zmqs := s.zmqs ++ [c] }, .opened c :: notes, true)

def Plugin.done (s : Plugin) (d : ℕ) (connected : Bool) : Plugin :=
  { s with called := s.called ++ [(d, connected)] }

/-- **`pollForDaemon`.** -/
def Plugin.pollForDaemon (s : Plugin) (tries d : ℕ) : Plugin :=
  { s with startPoll := some s.nextPoll, tasks := s.tasks ++ [.poll s.nextPoll tries d],
           nextPoll := s.nextPoll + 1 }

/-- The port file is looked at, and the connection opened. -/
def Plugin.tryPort (s : Plugin) (port : Option Opening) : Plugin × List Note × Bool :=
  match port with
  | none => (s, [], false)
  | some opening => s.openConnection opening

def daemonPollTries : ℕ := 20

/-- **`ensureConnected`.** -/
def Plugin.ensureConnected (s : Plugin) (w : Way) : Plugin × List Note :=
  let d := s.nextDone
  let s := { s with nextDone := d + 1 }
  if s.isConnected then (s.done d true, [])
  else
    let (s, notes, ok) := s.teardownConnection.tryPort w.port
    if ok then (s.done d true, notes)
    else if w.spawned then ({ s with busy := true }.pollForDaemon daemonPollTries d, notes)
    else (s.done d false, notes)

/-- The closure of a search. -/
def Plugin.poll (s : Plugin) (tries d : ℕ) (port : Option Opening) : Plugin × List Note :=
  let s := { s with startPoll := none }
  let (s, notes, ok) := s.tryPort port
  if ok then ({ s with busy := false }.done d true, notes)
  else if tries ≤ 1 then ({ s with busy := false }.done d false, notes)
  else (s.pollForDaemon (tries - 1) d, notes)

/-- A task is run. -/
def Plugin.perform (s : Plugin) (port : Option Opening) : Task → Plugin × List Note
  | .poll _ tries d => s.poll tries d port
  | .release => (if s.uiVisible || !s.isConnected then s else s.teardownConnection, [])
  | .cleanup _ => (s.teardownConnection, [])

/-- **One step.** -/
def step (s : Plugin) : Event → Plugin × List Note
  | .openMatrix w => s.ensureConnected w
  | .suspend => ({ s with reconnectOnResume := s.isConnected }.teardownConnection, [])
  | .resume w =>
    if s.reconnectOnResume then { s with reconnectOnResume := false }.ensureConnected w else (s, [])
  | .closeWidget => ({ s with busy := false }.teardownConnection, [])
  | .exit => (s.teardownConnection, [])
  | .run i port =>
    match s.tasks[i]? with
    | some t => { s with tasks := s.tasks.eraseIdx i }.perform port t
    | none => (s, [])
  | .lose c => if c ∈ s.zmqs then s.fail c else (s, [])
  | .request broken =>
    match s.ipc with
    | some c => if s.isConnected && broken then s.fail c else (s, [])
    | none => (s, [])
  | .showRoomList => ({ s with roomMenu := true }, [])
  | .openTimeline => ({ s with timeline := true }, [])
  | .closeRoomList =>
    (if s.roomMenu then { s with roomMenu := false, tasks := s.tasks ++ [.release] } else s, [])
  | .closeTimeline =>
    (if s.timeline then { s with timeline := false, tasks := s.tasks ++ [.release] } else s, [])
  | .dropScreens roomMenu timeline =>
    ({ s with roomMenu := s.roomMenu && !roomMenu, timeline := s.timeline && !timeline }, [])

/-! ### What is kept -/

/-- The caller a task will call back. -/
def Task.waits : Task → Option ℕ
  | .poll _ _ d => some d
  | _ => none

/-- Who has been called back, and who waits for it. -/
def Plugin.callers (s : Plugin) : List ℕ := s.called.map Prod.fst ++ s.tasks.filterMap Task.waits

/-- **Nothing is left behind.** -/
structure Tidy (s : Plugin) : Prop where
  /-- An open socket is that of `self.ipc`. -/
  own : ∀ c ∈ s.sockets, s.ipc = some c
  alone : s.sockets.Nodup
  queue : s.messageQueue = s.ipc
  polled : s.zmqs = s.ipc.toList
  /-- A search has one task, and is only under way without a connection. -/
  search : s.tasks.filterMap Task.pollId = s.startPoll.toList
  apart : s.startPoll = none ∨ s.ipc = none
  fresh : ∀ c ∈ s.sockets, c < s.nextConn
  once : s.callers.Nodup
  numbered : ∀ d ∈ s.callers, d < s.nextDone

section Steps
variable {s : Plugin}

theorem tidy_start : Tidy {} where
  own := by simp
  alone := List.nodup_nil
  queue := rfl
  polled := rfl
  search := rfl
  apart := Or.inl rfl
  fresh := by simp
  once := List.nodup_nil
  numbered := by simp [Plugin.callers]

/-- Without a connection there is no socket. -/
theorem Tidy.quiet (h : Tidy s) (hipc : s.ipc = none) : s.sockets = [] := by
  refine List.eq_nil_iff_forall_not_mem.mpr fun c hc => ?_
  have := h.own c hc
  rw [hipc] at this
  cases this

/-- The screens are no matter of the connection. -/
theorem Tidy.screens (h : Tidy s) (busy roomMenu timeline reconnect : Bool) :
    Tidy { s with busy := busy, roomMenu := roomMenu, timeline := timeline, reconnectOnResume := reconnect } :=
  ⟨h.own, h.alone, h.queue, h.polled, h.search, h.apart, h.fresh, h.once, h.numbered⟩

/-- A task more that is no search. -/
theorem Tidy.putOff (h : Tidy s) {t : Task} (hpoll : t.pollId = none) (hwaits : t.waits = none) :
    Tidy { s with tasks := s.tasks ++ [t] } where
  own := h.own
  alone := h.alone
  queue := h.queue
  polled := h.polled
  search := by
    show (s.tasks ++ [t]).filterMap Task.pollId = _
    rw [List.filterMap_append, List.filterMap_cons_none hpoll, List.filterMap_nil, List.append_nil]
    exact h.search
  apart := h.apart
  fresh := h.fresh
  once := by
    unfold Plugin.callers
    rw [List.filterMap_append, List.filterMap_cons_none hwaits, List.filterMap_nil, List.append_nil]
    exact h.once
  numbered := by
    unfold Plugin.callers
    rw [List.filterMap_append, List.filterMap_cons_none hwaits, List.filterMap_nil, List.append_nil]
    exact h.numbered

theorem Tidy.fail (h : Tidy s) (c : ℕ) : Tidy (s.fail c).1 := by
  unfold Plugin.fail
  split_ifs with hc
  · have hput := h.putOff (t := .cleanup c) rfl rfl
    refine ⟨fun c' hc' => h.own c' (List.mem_of_mem_filter hc'), h.alone.filter _, h.queue, h.polled,
      hput.search, h.apart, fun c' hc' => h.fresh c' (List.mem_of_mem_filter hc'), hput.once,
      hput.numbered⟩
  · exact h

/-- Fewer tasks wait for fewer callers. -/
theorem callers_sublist {tasks : List Task} (h : List.Sublist tasks s.tasks) :
    List.Sublist (Plugin.callers { s with tasks := tasks }) s.callers :=
  (List.Sublist.refl _).append (h.filterMap _)

/-- **After `teardownConnection`** there is no connection and no search. -/
theorem Tidy.teardown (h : Tidy s) :
    Tidy s.teardownConnection ∧ s.teardownConnection.ipc = none ∧
      s.teardownConnection.startPoll = none := by
  have hsockets : s.teardownConnection.sockets = [] := by
    unfold Plugin.teardownConnection
    dsimp only
    rcases hipc : s.ipc with _ | c
    · exact h.quiet hipc
    · refine List.filter_eq_nil_iff.mpr fun c' hc' => ?_
      have hown := h.own c' hc'
      rw [hipc] at hown
      simp [Option.some.inj hown]
  have hzmqs : s.teardownConnection.zmqs = [] := by
    unfold Plugin.teardownConnection
    dsimp only
    rw [h.queue, h.polled]
    rcases s.ipc with _ | c
    · rfl
    · simp
  have hsub : List.Sublist s.teardownConnection.tasks s.tasks := by
    unfold Plugin.teardownConnection
    dsimp only
    rcases s.startPoll with _ | id
    · exact List.Sublist.refl _
    · exact List.filter_sublist
  have hsearch : s.teardownConnection.tasks.filterMap Task.pollId = [] := by
    have hall := h.search
    unfold Plugin.teardownConnection
    dsimp only
    rcases hpoll : s.startPoll with _ | id
    · rw [hpoll] at hall
      exact hall
    · rw [hpoll] at hall
      refine List.filterMap_eq_nil_iff.mpr fun t ht => ?_
      obtain ⟨hmem, hne⟩ := List.mem_filter.mp ht
      rcases hid : t.pollId with _ | id'
      · rfl
      · -- a search there is, is the one that is called off
        have hin : id' ∈ s.tasks.filterMap Task.pollId := List.mem_filterMap.mpr ⟨t, hmem, hid⟩
        rw [hall] at hin
        obtain rfl : id' = id := by simpa using hin
        simp [hid] at hne
  have hcallers := callers_sublist hsub
  refine ⟨⟨?_, ?_, rfl, ?_, hsearch, Or.inl rfl, ?_, h.once.sublist hcallers,
    fun d hd => h.numbered d (hcallers.subset hd)⟩, rfl, rfl⟩
  · rw [hsockets]
    simp
  · rw [hsockets]
    exact List.nodup_nil
  · exact hzmqs
  · rw [hsockets]
    simp

/-- A caller of its own. -/
def Plugin.Calls (s : Plugin) (d : ℕ) : Prop := d < s.nextDone ∧ d ∉ s.callers

theorem Tidy.done (h : Tidy s) {d : ℕ} (hd : s.Calls d) (connected : Bool) : Tidy (s.done d connected) := by
  have hperm : (s.done d connected).callers.Perm (d :: s.callers) := by
    unfold Plugin.done Plugin.callers
    dsimp only
    rw [List.map_append, List.append_assoc]
    exact List.perm_middle
  refine ⟨h.own, h.alone, h.queue, h.polled, h.search, h.apart, h.fresh,
    hperm.nodup_iff.mpr (List.nodup_cons.mpr ⟨hd.2, h.once⟩), fun d' hd' => ?_⟩
  rcases List.mem_cons.mp (hperm.mem_iff.mp hd') with rfl | hd'
  · exact hd.1
  · exact h.numbered d' hd'

theorem Tidy.pollForDaemon (h : Tidy s) (hipc : s.ipc = none) (hpoll : s.startPoll = none) {d : ℕ}
    (hd : s.Calls d) (tries : ℕ) : Tidy (s.pollForDaemon tries d) := by
  have hperm : (s.pollForDaemon tries d).callers.Perm (d :: s.callers) := by
    unfold Plugin.pollForDaemon Plugin.callers
    dsimp only
    rw [List.filterMap_append, ← List.append_assoc]
    exact List.perm_append_comm
  refine ⟨h.own, h.alone, h.queue, h.polled, ?_, Or.inr hipc, h.fresh,
    hperm.nodup_iff.mpr (List.nodup_cons.mpr ⟨hd.2, h.once⟩), fun d' hd' => ?_⟩
  · show (s.tasks ++ [_]).filterMap Task.pollId = _
    rw [List.filterMap_append, h.search, hpoll]
    rfl
  · rcases List.mem_cons.mp (hperm.mem_iff.mp hd') with rfl | hd'
    · exact hd.1
    · exact h.numbered d' hd'

/-- **What `openConnection` leaves**, where there was no connection. -/
theorem Tidy.opened (h : Tidy s) (hipc : s.ipc = none) (hpoll : s.startPoll = none) (opening : Opening) :
    Tidy (s.openConnection opening).1 ∧ (s.openConnection opening).1.callers = s.callers ∧
      (s.openConnection opening).1.nextDone = s.nextDone ∧
      ((s.openConnection opening).2.2 = false → (s.openConnection opening).1 = s) := by
  have hsockets := h.quiet hipc
  have hzmqs : s.zmqs = [] := by
    rw [h.polled, hipc]
    rfl
  rcases opening with _ | _ | _
  · exact ⟨h, rfl, rfl, fun _ => rfl⟩
  · refine ⟨⟨?_, ?_, rfl, ?_, h.search, Or.inl hpoll, ?_, h.once, h.numbered⟩, rfl, rfl, by rintro ⟨⟩⟩
    · simp [Plugin.openConnection, hsockets]
    · simp [Plugin.openConnection, hsockets]
    · simp [Plugin.openConnection, hzmqs]
    · simp [Plugin.openConnection, hsockets]
  · -- the handshake could not be sent: the socket is closed again
    have hput := h.putOff (t := .cleanup s.nextConn) rfl rfl
    have hstate : (s.openConnection (.accepted true)).1 =
        { s with nextConn := s.nextConn + 1, sockets := [], tasks := s.tasks ++ [.cleanup s.nextConn],
                 ipc := some s.nextConn, messageQueue := some s.nextConn, zmqs := [s.nextConn] } := by
      simp [Plugin.openConnection, Plugin.fail, hsockets, hzmqs]
    have hcallers : (s.openConnection (.accepted true)).1.callers = s.callers := by
      rw [hstate]
      unfold Plugin.callers
      dsimp only
      rw [List.filterMap_append]
      exact congrArg (_ ++ ·) (List.append_nil _)
    refine ⟨?_, hcallers, by rw [hstate], fun hok => ?_⟩
    · rw [hstate]
      exact ⟨by simp, List.nodup_nil, rfl, rfl, hput.search, Or.inl hpoll, by simp, hput.once, hput.numbered⟩
    · simp [Plugin.openConnection, Plugin.fail] at hok

theorem Tidy.tried (h : Tidy s) (hipc : s.ipc = none) (hpoll : s.startPoll = none) (port : Option Opening) :
    Tidy (s.tryPort port).1 ∧ (s.tryPort port).1.callers = s.callers ∧
      (s.tryPort port).1.nextDone = s.nextDone ∧
      ((s.tryPort port).2.2 = false → (s.tryPort port).1 = s) := by
  rcases port with _ | opening
  · exact ⟨h, rfl, rfl, fun _ => rfl⟩
  · exact h.opened hipc hpoll opening

/-- A new caller. -/
theorem Tidy.caller (h : Tidy s) : Tidy { s with nextDone := s.nextDone + 1 } ∧
    Plugin.Calls { s with nextDone := s.nextDone + 1 } s.nextDone :=
  ⟨⟨h.own, h.alone, h.queue, h.polled, h.search, h.apart, h.fresh, h.once,
    fun d hd => Nat.lt_succ_of_lt (h.numbered d hd)⟩,
    Nat.lt_succ_self _, fun hmem => Nat.lt_irrefl _ (h.numbered _ hmem)⟩

theorem calls_teardown {d : ℕ} (h : s.Calls d) : s.teardownConnection.Calls d := by
  refine ⟨h.1, fun hmem => h.2 (?_)⟩
  have hsub : List.Sublist s.teardownConnection.tasks s.tasks := by
    unfold Plugin.teardownConnection
    dsimp only
    rcases s.startPoll with _ | id
    · exact List.Sublist.refl _
    · exact List.filter_sublist
  exact (callers_sublist hsub).subset hmem

/-- The port is tried, and then the caller is called back, or searches on. -/
theorem Tidy.settled (h : Tidy s) (hipc : s.ipc = none) (hpoll : s.startPoll = none) {d : ℕ}
    (hd : s.Calls d) (port : Option Opening) (connected : Bool) (tries : ℕ) :
    ((s.tryPort port).2.2 = true → Tidy ((s.tryPort port).1.done d true)) ∧
      ((s.tryPort port).2.2 = false → Tidy ((s.tryPort port).1.done d connected) ∧
        Tidy ((s.tryPort port).1.pollForDaemon tries d)) := by
  obtain ⟨htidy, hcallers, hnext, hsame⟩ := h.tried hipc hpoll port
  have hd' : (s.tryPort port).1.Calls d := by
    unfold Plugin.Calls
    rw [hcallers, hnext]
    exact hd
  refine ⟨fun _ => htidy.done hd' true, fun hno => ⟨htidy.done hd' connected, ?_⟩⟩
  rw [hsame hno]
  exact h.pollForDaemon hipc hpoll hd tries

theorem Tidy.ensureConnected (h : Tidy s) (w : Way) : Tidy (s.ensureConnected w).1 := by
  obtain ⟨hnew, hd⟩ := h.caller
  unfold Plugin.ensureConnected
  dsimp only
  by_cases hconn : Plugin.isConnected { s with nextDone := s.nextDone + 1 } = true
  · rw [if_pos hconn]
    exact hnew.done hd true
  rw [if_neg hconn]
  obtain ⟨hdown, hipc, hpoll⟩ := hnew.teardown
  obtain ⟨hyes, hno⟩ := hdown.settled hipc hpoll (calls_teardown hd) w.port false daemonPollTries
  rcases htry : Plugin.tryPort (Plugin.teardownConnection { s with nextDone := s.nextDone + 1 }) w.port with
    ⟨s', notes, ok⟩
  rw [htry] at hyes hno
  rcases ok with _ | _
  · rw [if_neg (by simp)]
    split_ifs
    · exact (hno rfl).2.screens true s'.roomMenu s'.timeline s'.reconnectOnResume
    · exact (hno rfl).1
  · rw [if_pos rfl]
    exact hyes rfl

/-- A task is taken out. -/
theorem Tidy.taken (h : Tidy s) {i : ℕ} {t : Task} (ht : s.tasks[i]? = some t) :
    (t.pollId = none → Tidy { s with tasks := s.tasks.eraseIdx i }) ∧
      ∀ id tries d, t = .poll id tries d → s.ipc = none ∧
        Tidy { s with tasks := s.tasks.eraseIdx i, startPoll := none } ∧
        Plugin.Calls { s with tasks := s.tasks.eraseIdx i, startPoll := none } d := by
  have hsub : List.Sublist (s.tasks.eraseIdx i) s.tasks := List.eraseIdx_sublist s.tasks i
  have hcallers := callers_sublist (s := s) hsub
  obtain ⟨hi, hget⟩ := List.getElem?_eq_some_iff.mp ht
  have hperm : s.tasks.Perm (t :: s.tasks.eraseIdx i) := by
    rw [← hget]
    exact (List.getElem_cons_eraseIdx_perm hi).symm
  refine ⟨fun hpoll => ?_, ?_⟩
  · refine ⟨h.own, h.alone, h.queue, h.polled, ?_, h.apart, h.fresh, h.once.sublist hcallers,
      fun d hd => h.numbered d (hcallers.subset hd)⟩
    have hp := hperm.filterMap Task.pollId
    rw [List.filterMap_cons_none hpoll, h.search] at hp
    rcases hs : s.startPoll with _ | id
    · rw [hs] at hp
      exact hp.symm.eq_nil
    · rw [hs] at hp
      exact List.perm_singleton.mp hp.symm
  · rintro id tries d rfl
    have hp := hperm.filterMap Task.pollId
    have hid : (Task.poll id tries d).pollId = some id := rfl
    rw [List.filterMap_cons_some hid, h.search] at hp
    have hsome : s.startPoll = some id := by
      rcases hs : s.startPoll with _ | id'
      · rw [hs] at hp
        exact absurd hp.symm.eq_nil (by simp)
      · rw [hs] at hp
        have hmem := hp.symm.subset List.mem_cons_self
        rw [List.mem_singleton.mp hmem]
    rw [hsome] at hp
    have hempty : (s.tasks.eraseIdx i).filterMap Task.pollId = [] := by
      have hlen := hp.length_eq
      simp only [Option.toList_some, List.length_cons, List.length_nil] at hlen
      exact List.eq_nil_of_length_eq_zero (by omega)
    refine ⟨?_, ⟨h.own, h.alone, h.queue, h.polled, hempty, Or.inl rfl, h.fresh, h.once.sublist hcallers,
      fun d hd => h.numbered d (hcallers.subset hd)⟩, ?_, ?_⟩
    · rcases h.apart with hno | hipc
      · rw [hsome] at hno
        cases hno
      · exact hipc
    · have hmem : Task.poll id tries d ∈ s.tasks := List.mem_of_getElem? ht
      exact h.numbered d (List.mem_append_right _ (List.mem_filterMap.mpr ⟨_, hmem, rfl⟩))
    · -- nobody else waits for this caller
      have hw := (hperm.filterMap Task.waits).append_left (s.called.map Prod.fst)
      have hwaits : (Task.poll id tries d).waits = some d := rfl
      rw [List.filterMap_cons_some hwaits] at hw
      have hnodup := (hw.trans List.perm_middle).nodup_iff.mp h.once
      exact (List.nodup_cons.mp hnodup).1

theorem Tidy.poll (h : Tidy s) (hipc : s.ipc = none) (hpoll : s.startPoll = none) {d : ℕ} (hd : s.Calls d)
    (tries : ℕ) (port : Option Opening) : Tidy (s.poll tries d port).1 := by
  have hsame : { s with startPoll := none } = s := by rw [← hpoll]
  obtain ⟨hyes, hno⟩ := h.settled hipc hpoll hd port false (tries - 1)
  unfold Plugin.poll
  rw [hsame]
  dsimp only
  rcases htry : s.tryPort port with ⟨s', notes, ok⟩
  rw [htry] at hyes hno
  rcases ok with _ | _
  · rw [if_neg (by simp)]
    split_ifs
    · exact (hno rfl).1.screens false s'.roomMenu s'.timeline s'.reconnectOnResume
    · exact (hno rfl).2
  · rw [if_pos rfl]
    exact (hyes rfl).screens false s'.roomMenu s'.timeline s'.reconnectOnResume

/-- **Every step keeps it.** -/
theorem tidy_step (h : Tidy s) (e : Event) : Tidy (step s e).1 := by
  rcases e with w | _ | w | _ | _ | ⟨i, port⟩ | c | broken | _ | _ | _ | _ | ⟨roomMenu, timeline⟩
  · exact h.ensureConnected w
  · exact (h.screens s.busy s.roomMenu s.timeline s.isConnected).teardown.1
  · simp only [step]
    split_ifs
    · exact (h.screens s.busy s.roomMenu s.timeline false).ensureConnected w
    · exact h
  · exact (h.screens false s.roomMenu s.timeline s.reconnectOnResume).teardown.1
  · exact h.teardown.1
  · simp only [step]
    rcases ht : s.tasks[i]? with _ | ⟨id, tries, d⟩ | _ | k
    · exact h
    · obtain ⟨hipc, htidy, hd⟩ := (h.taken ht).2 id tries d rfl
      exact htidy.poll hipc rfl hd tries port
    · have htidy := (h.taken ht).1 rfl
      simp only [Plugin.perform]
      split_ifs
      · exact htidy
      · exact htidy.teardown.1
    · exact ((h.taken ht).1 rfl).teardown.1
  · simp only [step]
    split_ifs
    · exact h.fail c
    · exact h
  · simp only [step]
    rcases s.ipc with _ | c
    · exact h
    · dsimp only
      split_ifs
      · exact h.fail c
      · exact h
  · exact h.screens s.busy true s.timeline s.reconnectOnResume
  · exact h.screens s.busy s.roomMenu true s.reconnectOnResume
  · simp only [step]
    split_ifs
    · exact (h.putOff (t := .release) rfl rfl).screens s.busy false s.timeline s.reconnectOnResume
    · exact h
  · simp only [step]
    split_ifs
    · exact (h.putOff (t := .release) rfl rfl).screens s.busy s.roomMenu false s.reconnectOnResume
    · exact h
  · exact h.screens s.busy (s.roomMenu && !roomMenu) (s.timeline && !timeline) s.reconnectOnResume

end Steps

/-- **Whatever happens**, at most one socket is open, which is that of `self.ipc` and the only one that is
polled; the daemon is searched for by one task at most, and only while there is no connection; and
nobody is called back twice. -/
theorem tidy_runs (events : List Event) : Tidy (final step {} events) := by
  have hinv := invariant (I := fun (_ : List (Occ Plugin Event (List Note))) s => Tidy s)
    (C := fun _ _ => True) (fun _ s e h _ => tidy_step (s := s) h e) events [] {} tidy_start
    fun _ _ => trivial
  exact hinv

/-! ### What ends a connection -/

section Ends
variable {s t s' : Plugin} {notes : List Note}

/-- **What a step does to sockets and cleanups.** -/
structure Moves (s s' : Plugin) (notes : List Note) : Prop where
  cleanups : ∀ k, .cleanup k ∈ s'.tasks → .cleanup k ∈ s.tasks ∨ .lost k ∈ notes
  sockets : ∀ c ∈ s'.sockets, c ∈ s.sockets ∨ .opened c ∈ notes
  lost : ∀ k, .lost k ∈ notes → s'.sockets = []

theorem Moves.refl : Moves s s [] := ⟨fun _ h => Or.inl h, fun _ h => Or.inl h, by simp⟩

/-- First something is taken down. -/
theorem Moves.after (h : Moves s t []) (h' : Moves t s' notes) : Moves s s' notes where
  cleanups k hk := (h'.cleanups k hk).imp_left fun hk => (h.cleanups k hk).resolve_right (by simp)
  sockets c hc := (h'.sockets c hc).imp_left fun hc => (h.sockets c hc).resolve_right (by simp)
  lost := h'.lost

/-- Nothing of this is touched any more. -/
theorem Moves.still (h : Moves s t notes) (hsockets : s'.sockets = t.sockets)
    (htasks : ∀ k, .cleanup k ∈ s'.tasks → .cleanup k ∈ t.tasks) : Moves s s' notes where
  cleanups k hk := h.cleanups k (htasks k hk)
  sockets c hc := h.sockets c (hsockets ▸ hc)
  lost k hk := hsockets.trans (h.lost k hk)

theorem moves_fail (h : Tidy s) (c : ℕ) : Moves s (s.fail c).1 (s.fail c).2 := by
  unfold Plugin.fail
  split_ifs with hc
  · refine ⟨fun k hk => ?_, fun c' hc' => Or.inl (List.mem_of_mem_filter hc'), fun k _ => ?_⟩
    · rcases List.mem_append.mp hk with hk | hk
      · exact Or.inl hk
      · cases List.mem_singleton.mp hk
        exact Or.inr (List.mem_singleton_self _)
    · refine List.filter_eq_nil_iff.mpr fun c' hc' => ?_
      have hown := (h.own c hc).symm.trans (h.own c' hc')
      simp [Option.some.inj hown]
  · exact .refl

theorem moves_teardown : Moves s s.teardownConnection [] := by
  refine ⟨fun k hk => Or.inl ?_, fun c hc => Or.inl ?_, by simp⟩
  · unfold Plugin.teardownConnection at hk
    dsimp only at hk
    rcases hpoll : s.startPoll with _ | id
    · rw [hpoll] at hk
      exact hk
    · rw [hpoll] at hk
      exact List.mem_of_mem_filter hk
  · unfold Plugin.teardownConnection at hc
    dsimp only at hc
    rcases hipc : s.ipc with _ | c'
    · rw [hipc] at hc
      exact hc
    · rw [hipc] at hc
      exact List.mem_of_mem_filter hc

theorem moves_tryPort (hsockets : s.sockets = []) (port : Option Opening) :
    Moves s (s.tryPort port).1 (s.tryPort port).2.1 := by
  rcases port with _ | _ | _ | _
  · exact .refl
  · exact .refl
  · refine ⟨fun k hk => Or.inl hk, fun c hc => Or.inr ?_, ?_⟩
    · have hc' : c ∈ s.sockets ++ [s.nextConn] := hc
      rw [hsockets, List.nil_append] at hc'
      rw [List.mem_singleton.mp hc']
      exact List.mem_cons_self
    · intro k hk
      simp [Plugin.tryPort, Plugin.openConnection] at hk
  · have hstate : (s.tryPort (some (.accepted true))).1.sockets = [] := by
      simp [Plugin.tryPort, Plugin.openConnection, Plugin.fail, hsockets]
    refine ⟨fun k hk => ?_, fun c hc => ?_, fun _ _ => hstate⟩
    · have hk' : .cleanup k ∈ s.tasks ++ [.cleanup s.nextConn] := by
        simpa [Plugin.tryPort, Plugin.openConnection, Plugin.fail] using hk
      rcases List.mem_append.mp hk' with hk | hk
      · exact Or.inl hk
      · cases List.mem_singleton.mp hk
        refine Or.inr ?_
        simp [Plugin.tryPort, Plugin.openConnection, Plugin.fail]
    · rw [hstate] at hc
      cases hc

theorem still_pollForDaemon (tries d k : ℕ) (h : .cleanup k ∈ (s.pollForDaemon tries d).tasks) :
    .cleanup k ∈ s.tasks := by
  rcases List.mem_append.mp h with h | h
  · exact h
  · cases List.mem_singleton.mp h

theorem moves_ensureConnected (h : Tidy s) (w : Way) :
    Moves s (s.ensureConnected w).1 (s.ensureConnected w).2 := by
  obtain ⟨hdown, hipc, -⟩ := h.caller.1.teardown
  have htry := moves_tryPort (hdown.quiet hipc) w.port
  have hnew : Moves s { s with nextDone := s.nextDone + 1 } [] := Moves.refl.still rfl fun _ hk => hk
  have hmoves := hnew.after (moves_teardown.after htry)
  unfold Plugin.ensureConnected
  dsimp only
  by_cases hconn : Plugin.isConnected { s with nextDone := s.nextDone + 1 } = true
  · rw [if_pos hconn]
    exact hnew.still rfl fun _ hk => hk
  rw [if_neg hconn]
  rcases hport : Plugin.tryPort (Plugin.teardownConnection { s with nextDone := s.nextDone + 1 }) w.port with
    ⟨s₁, notes, ok⟩
  rw [hport] at hmoves
  dsimp only at hmoves ⊢
  split_ifs
  · exact hmoves.still rfl fun _ hk => hk
  · exact hmoves.still rfl fun k hk => still_pollForDaemon (s := { s₁ with busy := true }) _ _ k hk
  · exact hmoves.still rfl fun _ hk => hk

theorem moves_poll (hsockets : s.sockets = []) (tries d : ℕ) (port : Option Opening) :
    Moves s (s.poll tries d port).1 (s.poll tries d port).2 := by
  have hoff : Moves s { s with startPoll := none } [] := Moves.refl.still rfl fun _ hk => hk
  have hmoves := hoff.after (moves_tryPort (s := { s with startPoll := none }) hsockets port)
  unfold Plugin.poll
  dsimp only
  rcases hport : Plugin.tryPort { s with startPoll := none } port with ⟨s₁, notes, ok⟩
  rw [hport] at hmoves
  dsimp only at hmoves ⊢
  split_ifs
  · exact hmoves.still rfl fun _ hk => hk
  · exact hmoves.still rfl fun _ hk => hk
  · exact hmoves.still rfl fun k hk => still_pollForDaemon _ _ k hk

theorem moves_step (h : Tidy s) (e : Event) : Moves s (step s e).1 (step s e).2 := by
  have hputOff : Moves s { s with tasks := s.tasks ++ [.release] } [] := by
    refine Moves.refl.still rfl fun k hk => ?_
    rcases List.mem_append.mp hk with hk | hk
    · exact hk
    · cases List.mem_singleton.mp hk
  have hflags (busy reconnect : Bool) : Moves s { s with busy := busy, reconnectOnResume := reconnect } [] :=
    Moves.refl.still rfl fun _ hk => hk
  rcases e with w | _ | w | _ | _ | ⟨i, port⟩ | c | broken | _ | _ | _ | _ | ⟨roomMenu, timeline⟩
  · exact moves_ensureConnected h w
  · exact (hflags s.busy s.isConnected).after moves_teardown
  · simp only [step]
    split_ifs
    · have hs := h.screens s.busy s.roomMenu s.timeline false
      exact (hflags s.busy false).after (moves_ensureConnected hs w)
    · exact .refl
  · exact (hflags false s.reconnectOnResume).after moves_teardown
  · exact moves_teardown
  · simp only [step]
    have htaken : Moves s { s with tasks := s.tasks.eraseIdx i } [] :=
      Moves.refl.still rfl fun _ hk => List.mem_of_mem_eraseIdx hk
    rcases ht : s.tasks[i]? with _ | ⟨id, tries, d⟩ | _ | k
    · exact .refl
    · obtain ⟨hipc, -, -⟩ := (h.taken ht).2 id tries d rfl
      exact htaken.after (moves_poll (s := { s with tasks := s.tasks.eraseIdx i }) (h.quiet hipc) tries d port)
    · simp only [Plugin.perform]
      split_ifs
      · exact htaken
      · exact htaken.after moves_teardown
    · exact htaken.after moves_teardown
  · simp only [step]
    split_ifs
    · exact moves_fail h c
    · exact .refl
  · simp only [step]
    rcases s.ipc with _ | c
    · exact .refl
    · dsimp only
      split_ifs
      · exact moves_fail h c
      · exact .refl
  · exact Moves.refl.still rfl fun _ hk => hk
  · exact Moves.refl.still rfl fun _ hk => hk
  · simp only [step]
    split_ifs
    · exact hputOff.still rfl fun _ hk => hk
    · exact .refl
  · simp only [step]
    split_ifs
    · exact hputOff.still rfl fun _ hk => hk
    · exact .refl
  · exact Moves.refl.still rfl fun _ hk => hk

/-- An open socket is one `isConnected` knows of. -/
theorem Tidy.connected (h : Tidy s) {c : ℕ} (hc : c ∈ s.sockets) : s.isConnected = true := by
  unfold Plugin.isConnected
  rw [h.own c hc]
  exact decide_eq_true hc

theorem ended_fail {c : ℕ} (hc : c ∈ s.sockets) (c' : ℕ) (hgone : c ∉ (s.fail c').1.sockets) :
    .lost c ∈ (s.fail c').2 := by
  unfold Plugin.fail at hgone ⊢
  split_ifs at hgone ⊢ with hc'
  · by_cases heq : c = c'
    · rw [heq]
      exact List.mem_singleton_self _
    · exact absurd (List.mem_filter.mpr ⟨hc, by simpa using heq⟩) hgone
  · exact absurd hc hgone

/-- With a connection, `ensureConnected` leaves it alone. -/
theorem ensureConnected_sockets (h : Tidy s) {c : ℕ} (hc : c ∈ s.sockets) (w : Way) :
    c ∈ (s.ensureConnected w).1.sockets := by
  have hconn : Plugin.isConnected { s with nextDone := s.nextDone + 1 } = true := h.connected hc
  unfold Plugin.ensureConnected
  dsimp only
  rw [if_pos hconn]
  exact hc

/-- **What a step can end a connection with.** -/
theorem ended_step (h : Tidy s) {c : ℕ} (hc : c ∈ s.sockets) {e : Event} (hgone : c ∉ (step s e).1.sockets) :
    (e = .suspend ∨ e = .closeWidget ∨ e = .exit) ∨ .lost c ∈ (step s e).2 ∨
      ∃ i port, e = .run i port ∧ (s.tasks[i]? = some .release ∧ s.uiVisible = false ∨
        ∃ k, s.tasks[i]? = some (.cleanup k)) := by
  rcases e with w | _ | w | _ | _ | ⟨i, port⟩ | c' | broken | _ | _ | _ | _ | ⟨roomMenu, timeline⟩
  · exact absurd (ensureConnected_sockets h hc w) hgone
  · exact Or.inl (Or.inl rfl)
  · simp only [step] at hgone
    split_ifs at hgone
    · exact absurd (ensureConnected_sockets (h.screens s.busy s.roomMenu s.timeline false) hc w) hgone
    · exact absurd hc hgone
  · exact Or.inl (Or.inr (Or.inl rfl))
  · exact Or.inl (Or.inr (Or.inr rfl))
  · refine Or.inr (Or.inr ⟨i, port, rfl, ?_⟩)
    simp only [step] at hgone
    rcases ht : s.tasks[i]? with _ | ⟨id, tries, d⟩ | _ | k
    · rw [ht] at hgone
      exact absurd hc hgone
    · -- a search is under way only without a connection
      have hnone := ((h.taken ht).2 id tries d rfl).1
      rw [h.quiet hnone] at hc
      cases hc
    · rw [ht] at hgone
      simp only [Plugin.perform] at hgone
      split_ifs at hgone with hvisible
      · exact absurd hc hgone
      · exact Or.inl ⟨rfl, (Bool.or_eq_false_iff.mp (Bool.not_eq_true _ ▸ hvisible)).1⟩
    · exact Or.inr ⟨k, rfl⟩
  · simp only [step] at hgone ⊢
    split_ifs at hgone ⊢
    · exact Or.inr (Or.inl (ended_fail hc c' hgone))
    · exact absurd hc hgone
  · simp only [step, h.own c hc] at hgone ⊢
    split_ifs at hgone ⊢
    · exact Or.inr (Or.inl (ended_fail hc c hgone))
    · exact absurd hc hgone
  · exact absurd hc hgone
  · exact absurd hc hgone
  · simp only [step] at hgone
    split_ifs at hgone <;> exact absurd hc hgone
  · simp only [step] at hgone
    split_ifs at hgone <;> exact absurd hc hgone
  · exact absurd hc hgone

end Ends

/-- **Why** `c` is not open any more after a step. -/
inductive Ended (past : List (Occ Plugin Event (List Note))) (o : Occ Plugin Event (List Note)) (c : ℕ) :
    Prop where
  | left (h : o.input = .suspend ∨ o.input = .closeWidget ∨ o.input = .exit)
  | lost (h : .lost c ∈ o.output)
  /-- A screen was closed, and by now none is on show. -/
  | hidden (i : ℕ) (port : Option Opening) (hrun : o.input = .run i port)
      (htask : o.before.tasks[i]? = some .release) (hscreens : o.before.uiVisible = false)
  /-- Another connection was lost before, and `c` opened when its cleanup was still to come. -/
  | stale (i : ℕ) (port : Option Opening) (k : ℕ) (hrun : o.input = .run i port)
      (htask : o.before.tasks[i]? = some (.cleanup k))
      (hopened : ∃ p ∈ past, .opened c ∈ p.output ∧ .cleanup k ∈ p.before.tasks)

/-- A cleanup is older than the connection it finds. -/
def Older (past : List (Occ Plugin Event (List Note))) (s : Plugin) : Prop :=
  Tidy s ∧ ∀ k c, .cleanup k ∈ s.tasks → c ∈ s.sockets →
    ∃ p ∈ past, .opened c ∈ p.output ∧ .cleanup k ∈ p.before.tasks

theorem older_step {past : List (Occ Plugin Event (List Note))} {s : Plugin} (h : Older past s) (e : Event) :
    Older (past ++ [⟨s, e, (step s e).2⟩]) (step s e).1 := by
  have hmoves := moves_step h.1 e
  refine ⟨tidy_step h.1 e, fun k c hk hc => ?_⟩
  have hbefore : .cleanup k ∈ s.tasks := by
    rcases hmoves.cleanups k hk with hk | hlost
    · exact hk
    · rw [hmoves.lost k hlost] at hc
      cases hc
  rcases hmoves.sockets c hc with hold | hnew
  · obtain ⟨p, hp, hopened⟩ := h.2 k c hbefore hold
    exact ⟨p, List.mem_append_left _ hp, hopened⟩
  · exact ⟨_, List.mem_append_right _ (List.mem_singleton_self _), hnew, hbefore⟩

/-- **A connection that works is ended** by suspending or leaving, by being lost, by the last screen
closing, or by the late cleanup of one that was lost before it was opened; by nothing else, and so not by
another search, another caller or a screen that goes while one is left. -/
theorem ended_only (events : List Event) :
    EveryStep (fun past o => ∀ c ∈ o.before.sockets, c ∉ (step o.before o.input).1.sockets → Ended past o c)
      (trace step {} events) := by
  intro past o future hrun c hc hgone
  have hstart : Older [] {} := ⟨tidy_start, fun k c hk => absurd hk List.not_mem_nil⟩
  obtain ⟨hinv, -, hout⟩ := at_step hstart (C := fun _ _ => True) (fun _ _ e h _ => older_step h e)
    (fun _ _ => trivial) hrun
  rcases ended_step hinv.1 hc hgone with hleft | hlost | ⟨i, port, hin, ⟨htask, hscreens⟩ | ⟨k, htask⟩⟩
  · exact .left hleft
  · rw [← hout] at hlost
    exact .lost hlost
  · exact .hidden i port hin htask hscreens
  · exact .stale i port k hin htask (hinv.2 k c (List.mem_of_getElem? htask) hc)

end Kmatrix.Ui.Connection
