import Kmatrix.Ipc.PortFile
import Kmatrix.Lib.Processes

/-! # Starting the daemon

`run`, from its arguments to its last act, as a program of system calls (`Call`), any of which may fail.
Any number of daemons are started with any arguments, take turns after every call, and are killed
anywhere; the kernel then takes back their locks and their sockets (`World.die`). A directory is what
`dirOf` makes of a path, so that two paths may name one.

A read does not say that a file is missing when it is there, and nobody but the daemons touches the
directories. What `run` does in its own memory only (restoring the login) is left out. -/

namespace Kmatrix.Daemon.Instances

open Kmatrix.Ipc.PortFile
open Kmatrix.Lib.Crash
open Kmatrix.Lib.Processes
open Kmatrix.Storage.Seal (Bytes Key utf8)

/-! ### The world -/

/-- The files of a data directory and of a key directory. -/
inductive Name where
  | lock | db | wal | shm | key | keyTmp | port | portTmp
  deriving DecidableEq, Repr

structure File where
  bytes : Bytes
  mode : ℕ
  deriving DecidableEq, Repr

inductive ErrorKind where
  | notFound | wouldBlock | other
  deriving DecidableEq, Repr

structure IoError where
  kind : ErrorKind
  text : String

variable {δ : Type}

/-- **The disk and the kernel's tables.** `opened` records the stores that were opened, and with what;
`published` the port files that were installed, by which of the processes that are there, and who listened
where just then. -/
structure World (δ : Type) where
  files : δ → Name → Option File
  locked : δ → Option ℕ
  listening : UInt16 → Option ℕ
  opened : List (δ × Option Key)
  published : List (ℕ × δ × File × (UInt16 → Option ℕ))

/-- What a daemon knows of itself once it listens. -/
structure Shared where
  dataDir : String
  port : UInt16
  token : String

inductive Call (δ : Type) where
  | createDirAll (d : δ)
  | openLock (d : δ)
  | flock (d : δ)
  | removeFile (d : δ) (n : Name)
  | read (d : δ) (n : Name)
  | fillBytes (n : ℕ)
  | write (d : δ) (n : Name) (bytes : Bytes)
  | setPermissions (d : δ) (n : Name) (mode : ℕ)
  | rename (d : δ) (old new : Name)
  | openStore (d : δ) (key : Option Key)
  | bind
  | spawn
  /-- `ipc::serve`, until it is stopped. It owns the listener, which is closed when it returns. -/
  | serve (sh : Shared)

/-- What a call answers. -/
def Reply : Call δ → Type
  | .read _ _ => Except IoError Bytes
  | .fillBytes n => { b : Bytes // b.length = n }
  | .bind => Except IoError UInt16
  | .serve _ => Unit
  | _ => Except IoError Unit

/-- How a call turns out, as far as the world does not decide it. -/
structure Outcome where
  fails : Option String
  /-- How much of a write that fails is done; nothing if the file cannot be opened. -/
  written : Option ℕ
  /-- The mode of a new file. -/
  mode : ℕ
  drawn : ℕ → UInt8
  port : UInt16

variable [DecidableEq δ]

def World.put (w : World δ) (d : δ) (n : Name) (f : Option File) : World δ :=
  { w with files := Function.update w.files d (Function.update (w.files d) n f) }

/-- `i` installs a file under the name `n`. -/
def World.publish (w : World δ) (i : ℕ) (d : δ) (n : Name) (f : File) : World δ :=
  { w with published := if n = .port then w.published ++ [(i, d, f, w.listening)] else w.published }

/-- `i` closes its listener on port `p`. -/
def World.close (w : World δ) (i : ℕ) (p : UInt16) : World δ :=
  { w with listening := fun q => if q = p ∧ w.listening q = some i then none else w.listening q }

theorem length_drawn (drawn : ℕ → UInt8) (n : ℕ) : ((List.range n).map drawn).length = n := by
  rw [List.length_map, List.length_range]

def fail (text : String) : Except IoError Unit := .error ⟨.other, text⟩

/-- `std::fs::write`: a file that is there keeps its mode. -/
def World.written (w : World δ) (o : Outcome) (d : δ) (n : Name) (bytes : Bytes) : World δ :=
  w.put d n (some ⟨bytes, match w.files d n with
    | some f => f.mode
    | none => o.mode⟩)

/-- **A call of process `i`.** -/
def exec (i : ℕ) (o : Outcome) (w : World δ) : (c : Call δ) → Reply c × World δ
  | .createDirAll _ =>
    match o.fails with
    | some text => (fail text, w)
    | none => (.ok (), w)
  | .openLock d =>
    match o.fails with
    | some text => (fail text, w)
    | none => (.ok (), w.put d .lock (some ((w.files d .lock).getD ⟨[], o.mode⟩)))
  | .flock d =>
    match o.fails, w.locked d with
    | some text, _ => (fail text, w)
    | none, none => (.ok (), { w with locked := Function.update w.locked d (some i) })
    | none, some j => (if j = i then .ok () else .error ⟨.wouldBlock, ""⟩, w)
  | .removeFile d n =>
    match o.fails, w.files d n with
    | some text, _ => (fail text, w)
    | none, none => (.error ⟨.notFound, ""⟩, w)
    | none, some _ => (.ok (), w.put d n none)
  | .read d n =>
    match o.fails, w.files d n with
    | some text, _ => (.error ⟨.other, text⟩, w)
    | none, none => (.error ⟨.notFound, ""⟩, w)
    | none, some f => (.ok f.bytes, w)
  | .fillBytes n => (⟨(List.range n).map o.drawn, length_drawn o.drawn n⟩, w)
  | .write d n bytes =>
    match o.fails, o.written with
    | some text, some k => (fail text, w.written o d n (bytes.take k))
    | some text, none => (fail text, w)
    | none, _ => (.ok (), w.written o d n bytes)
  | .setPermissions d n mode =>
    match o.fails, w.files d n with
    | some text, _ => (fail text, w)
    | none, none => (.error ⟨.notFound, ""⟩, w)
    | none, some f => (.ok (), w.put d n (some { f with mode := mode }))
  | .rename d old new =>
    match o.fails, w.files d old with
    | some text, _ => (fail text, w)
    | none, none => (.error ⟨.notFound, ""⟩, w)
    | none, some f => (.ok (), ((w.put d new (some f)).put d old none).publish i d new f)
  | .openStore d key =>
    (match o.fails with
      | some text => fail text
      | none => .ok (), { w with opened := w.opened ++ [(d, key)] })
  | .bind =>
    match o.fails, w.listening o.port with
    | some text, _ => (.error ⟨.other, text⟩, w)
    | none, some _ => (.error ⟨.other, "Address already in use"⟩, w)
    | none, none => (.ok o.port, { w with listening := Function.update w.listening o.port (some i) })
  | .spawn =>
    match o.fails with
    | some text => (fail text, w)
    | none => (.ok (), w)
  | .serve sh => ((), w.close i sh.port)

/-- **A process is gone**, by whatever way. -/
def World.die (i : ℕ) (w : World δ) : World δ :=
  { w with
    locked := fun d => if w.locked d = some i then none else w.locked d
    listening := fun p => if w.listening p = some i then none else w.listening p
    published := w.published.filter fun x => x.1 ≠ i }

/-! ### The program -/

abbrev Code (δ α : Type) := Act Unit (Call δ) Reply α

/-- What a process still has to do. -/
abbrev Rest (δ : Type) := Prog (Call δ) Reply (Except String Unit × Unit)

def call (c : Call δ) : Code δ (Reply c) := ⟨fun s => .act c fun r => .ret (.ok r, s)⟩

/-- `Path::join` of a file name, to be shown. -/
def join (dir name : String) : String :=
  if dir = "" then name else if dir.toList.getLast? = some '/' then dir ++ name else dir ++ "/" ++ name

/-- `with_context(…)?`. -/
def context {α : Type} (text : String) : Except IoError α → Code δ α
  | .ok a => pure a
  | .error e => .fail (text ++ ": " ++ e.text)

section Program
variable (dirOf : String → δ)

/-- **`InstanceLock::take`.** -/
def takeLock (dir : String) : Code δ Unit := do
  let opened ← call (.openLock (dirOf dir))
  context ("opening " ++ join dir "kmatrix.lock") opened
  match ← call (.flock (dirOf dir)) with
  | .ok () => pure ()
  | .error e =>
    if e.kind = .wouldBlock then .fail ("another kmatrixd is already running on " ++ dir)
    else .fail ("locking " ++ join dir "kmatrix.lock" ++ ": " ++ e.text)

/-- One file of `--reset-store`. -/
def removeStore (dir suffix : String) (n : Name) : Code δ Unit := do
  match ← call (.removeFile (dirOf dir) n) with
  | .ok () => pure ()
  | .error e =>
    if e.kind = .notFound then pure ()
    else .fail ("removing " ++ join dir "kmatrix.sqlite3" ++ suffix ++ ": " ++ e.text)

def resetStore (dir : String) : Code δ Unit := do
  removeStore dirOf dir "" .db
  removeStore dirOf dir "-wal" .wal
  removeStore dirOf dir "-shm" .shm

def defaultKeyDir : String := "/var/local/kmatrix"

/-- A new store key. -/
def createStoreKey (dir : String) : Code δ Key := do
  let made ← call (.createDirAll (dirOf dir))
  context ("creating key dir " ++ dir) made
  let key ← call (.fillBytes 32)
  let written ← call (.write (dirOf dir) .keyTmp key.val)
  context ("writing " ++ join dir "store.key.tmp") written
  let changed ← call (.setPermissions (dirOf dir) .keyTmp 0o600)
  context ("chmod " ++ join dir "store.key.tmp") changed
  let renamed ← call (.rename (dirOf dir) .keyTmp .key)
  context ("installing " ++ join dir "store.key") renamed
  pure key

/-- The key directory an argument means: `--no-encryption` is the empty path. -/
def keyDirOf : Option String → Option String
  | none => some defaultKeyDir
  | some dir => if dir = "" then none else some dir

/-- **`load_or_create_store_key`.** -/
def loadOrCreateStoreKey (keyDir : Option String) : Code δ (Option Key) :=
  match keyDirOf keyDir with
  | none => pure none
  | some dir => do
    match ← call (.read (dirOf dir) .key) with
    | .ok bytes =>
      if h : bytes.length = 32 then pure (some ⟨bytes, h⟩)
      else .fail ("store key " ++ join dir "store.key" ++ " is " ++ toString bytes.length ++
        " bytes, expected 32 — refusing to continue rather than risk making the database unreadable")
    | .error e =>
      if e.kind = .notFound then do
        let key ← createStoreKey dirOf dir
        pure (some key)
      else .fail ("reading store key " ++ join dir "store.key" ++ ": " ++ e.text)

/-- `Store::open` and the first read, with the explanation they share. -/
def openStore (dir : String) (key : Option Key) : Code δ Unit := do
  match ← call (.openStore (dirOf dir) key) with
  | .ok () => pure ()
  | .error e => .fail (e.text ++ "\n\nIf the store key was lost (a factory reset or a wiped /var/local " ++
      "will do it) the database cannot be recovered. Start over with:\n  kmatrixd --data-dir " ++ dir ++
      " --reset-store\nYou will need to log in again.")

/-- **`listen`.** -/
def listen (dir : String) : Code δ Shared := do
  let bound ← call .bind
  let port ← context "starting IPC listener: binding 127.0.0.1" bound
  let drawn ← call (.fillBytes 24)
  let token := randomToken drawn.val
  let written ← call (.write (dirOf dir) .portTmp (utf8 (portFile port token)))
  context "starting IPC listener: writing port file" written
  let changed ← call (.setPermissions (dirOf dir) .portTmp 0o600)
  context "starting IPC listener: chmod port file" changed
  let renamed ← call (.rename (dirOf dir) .portTmp .port)
  context "starting IPC listener: installing port file" renamed
  pure ⟨dir, port, token⟩

/-- **`remove_own_port_file`.** -/
def removeOwnPortFile (sh : Shared) : Code δ Unit := do
  match ← call (.read (dirOf sh.dataDir) .port) with
  | .ok body =>
    if portOf body = some sh.port then do
      let _ ← call (.removeFile (dirOf sh.dataDir) .port)
      pure ()
    else pure ()
  | .error _ => pure ()

/-! ### The arguments -/

structure Options where
  dataDir : Option String
  keyDir : Option String
  resetStore : Bool
  deriving DecidableEq, Repr

/-- **The loop over the arguments.** Nothing is left to do after `--version` and `--help`. -/
def parseArgs : Options → List String → Except String (Option Options)
  | o, [] => .ok (some o)
  | o, a :: args =>
    if a = "--data-dir" then
      match args with
      | [] => .ok (some { o with dataDir := none })
      | dir :: args => parseArgs { o with dataDir := some dir } args
    else if a = "--key-dir" then
      match args with
      | [] => .ok (some { o with keyDir := none })
      | dir :: args => parseArgs { o with keyDir := some dir } args
    else if a = "--no-encryption" then parseArgs { o with keyDir := some "" } args
    else if a = "--reset-store" then parseArgs { o with resetStore := true } args
    else if a = "--version" ∨ a = "--help" ∨ a = "-h" then .ok none
    else .error ("unknown argument: " ++ a)

/-- `run` with a data directory. -/
def serveIn (dir : String) (keyDir : Option String) (reset : Bool) : Code δ Unit := do
  let made ← call (.createDirAll (dirOf dir))
  context ("creating data dir " ++ dir) made
  takeLock dirOf dir
  (if reset then resetStore dirOf dir else pure ())
  let key ← loadOrCreateStoreKey dirOf keyDir
  openStore dirOf dir key
  let sh ← listen dirOf dir
  let spawned ← call .spawn
  context "spawning sync thread" spawned
  call (.serve sh)
  removeOwnPortFile dirOf sh

/-- **`run`.** -/
def run (args : List String) : Code δ Unit :=
  match parseArgs ⟨none, none, false⟩ args with
  | .error e => .fail e
  | .ok none => pure ()
  | .ok (some o) =>
    match o.dataDir with
    | none => .fail "--data-dir is required"
    | some dir => serveIn dirOf dir o.keyDir o.resetStore

/-- A process that was started with these arguments. -/
def task (args : List String) : Rest δ := (run dirOf args).run ()

/-- What happens on the machine. -/
inductive Happening where
  | start (i : ℕ) (args : List String)
  | step (i : ℕ) (o : Outcome)
  | die (i : ℕ)

def Happening.event : Happening → Event (Call δ) Reply (Except String Unit × Unit) Outcome
  | .start i args => .start i (task dirOf args)
  | .step i o => .step i o
  | .die i => .die i

/-- **A run of any number of daemons** from a disk on, on which nobody works yet. -/
def runs (files : δ → Name → Option File) (happenings : List Happening) :
    Fleet (World δ) (Call δ) Reply (Except String Unit × Unit) :=
  (boot ⟨files, fun _ => none, fun _ => none, [], []⟩).runs exec World.die
    (happenings.map (Happening.event dirOf))

end Program

/-! ### What one call does -/

section Calls
variable {i : ℕ} {w : World δ} {d : δ} {n : Name} {o : Outcome}

@[simp] theorem put_locked (f : Option File) : (w.put d n f).locked = w.locked := rfl
@[simp] theorem put_listening (f : Option File) : (w.put d n f).listening = w.listening := rfl
@[simp] theorem put_opened (f : Option File) : (w.put d n f).opened = w.opened := rfl

omit [DecidableEq δ] in
/-- Only a port file is published. -/
theorem publish_other (f : File) (h : n ≠ .port) : w.publish i d n f = w := by
  unfold World.publish
  rw [if_neg h]

theorem put_self (f : Option File) : (w.put d n f).files d n = f := by
  simp [World.put]

theorem put_other {d' : δ} {n' : Name} (f : Option File) (h : n' ≠ n) :
    (w.put d n f).files d' n' = w.files d' n' := by
  by_cases hd : d' = d
  · subst hd
    simp [World.put, h]
  · simp [World.put, hd]

theorem put_elsewhere {d' : δ} {n' : Name} (f : Option File) (h : d' ≠ d) :
    (w.put d n f).files d' n' = w.files d' n' := by
  simp [World.put, h]

/-! What a call can come to. -/

section Cases
variable (i w d n o)

theorem createDirAll_world : (exec i o w (.createDirAll d)).2 = w := by
  rcases hfails : o.fails with _ | text <;> simp only [exec, hfails]

theorem spawn_world : (exec i o w .spawn).2 = w := by
  rcases hfails : o.fails with _ | text <;> simp only [exec, hfails]

theorem openLock_cases : (exec i o w (.openLock d)).2 = w ∨
    ∃ f, (exec i o w (.openLock d)).2 = w.put d .lock (some f) := by
  rcases hfails : o.fails with _ | text
  · exact Or.inr ⟨(w.files d .lock).getD ⟨[], o.mode⟩, by simp only [exec, hfails]⟩
  · exact Or.inl (by simp only [exec, hfails])

theorem flock_cases : (∃ e, exec i o w (.flock d) = ((.error e : Except IoError Unit), w)) ∨
    (w.locked d = some i ∧ exec i o w (.flock d) = ((.ok () : Except IoError Unit), w)) ∨
    (w.locked d = none ∧ exec i o w (.flock d) =
      ((.ok () : Except IoError Unit), { w with locked := Function.update w.locked d (some i) })) := by
  rcases hfails : o.fails with _ | text
  · rcases hlocked : w.locked d with _ | j
    · exact Or.inr (Or.inr ⟨rfl, by simp only [exec, hfails, hlocked]; rfl⟩)
    · by_cases hj : j = i
      · exact Or.inr (Or.inl ⟨by rw [hj], by simp [exec, hfails, hlocked, hj]; rfl⟩)
      · exact Or.inl ⟨_, by simp [exec, hfails, hlocked, hj]; rfl⟩
  · exact Or.inl ⟨_, by simp only [exec, hfails]; rfl⟩

theorem removeFile_cases : (exec i o w (.removeFile d n)).2 = w ∨
    (exec i o w (.removeFile d n)).2 = w.put d n none := by
  rcases hfails : o.fails with _ | text
  · rcases hfile : w.files d n with _ | f
    · exact Or.inl (by simp only [exec, hfails, hfile])
    · exact Or.inr (by simp only [exec, hfails, hfile])
  · exact Or.inl (by simp only [exec, hfails])

theorem read_cases :
    (∃ text, exec i o w (.read d n) = ((.error ⟨.other, text⟩ : Except IoError Bytes), w)) ∨
    (w.files d n = none ∧ exec i o w (.read d n) = ((.error ⟨.notFound, ""⟩ : Except IoError Bytes), w)) ∨
    ∃ f, w.files d n = some f ∧ exec i o w (.read d n) = ((.ok f.bytes : Except IoError Bytes), w) := by
  rcases hfails : o.fails with _ | text
  · rcases hfile : w.files d n with _ | f
    · exact Or.inr (Or.inl ⟨rfl, by simp only [exec, hfails, hfile]; rfl⟩)
    · exact Or.inr (Or.inr ⟨f, rfl, by simp only [exec, hfails, hfile]; rfl⟩)
  · exact Or.inl ⟨text, by simp only [exec, hfails]; rfl⟩

theorem write_cases (bytes : Bytes) :
    (∃ e, exec i o w (.write d n bytes) = ((.error e : Except IoError Unit), w)) ∨
    (∃ e f, exec i o w (.write d n bytes) = ((.error e : Except IoError Unit), w.put d n (some f))) ∨
    ∃ f, f.bytes = bytes ∧
      exec i o w (.write d n bytes) = ((.ok () : Except IoError Unit), w.put d n (some f)) := by
  rcases hfails : o.fails with _ | text
  · exact Or.inr (Or.inr ⟨_, rfl, by simp only [exec, hfails]; rfl⟩)
  · rcases hwritten : o.written with _ | k
    · exact Or.inl ⟨_, by simp only [exec, hfails, hwritten]; rfl⟩
    · exact Or.inr (Or.inl ⟨_, _, by simp only [exec, hfails, hwritten]; rfl⟩)

theorem setPermissions_cases (mode : ℕ) :
    (∃ e, exec i o w (.setPermissions d n mode) = ((.error e : Except IoError Unit), w)) ∨
    ∃ f, w.files d n = some f ∧ exec i o w (.setPermissions d n mode) =
      ((.ok () : Except IoError Unit), w.put d n (some { f with mode := mode })) := by
  rcases hfails : o.fails with _ | text
  · rcases hfile : w.files d n with _ | f
    · exact Or.inl ⟨_, by simp only [exec, hfails, hfile]; rfl⟩
    · exact Or.inr ⟨f, rfl, by simp only [exec, hfails, hfile]; rfl⟩
  · exact Or.inl ⟨_, by simp only [exec, hfails]; rfl⟩

theorem rename_cases (new : Name) :
    (∃ e, exec i o w (.rename d n new) = ((.error e : Except IoError Unit), w)) ∨
    ∃ f, w.files d n = some f ∧ exec i o w (.rename d n new) =
      ((.ok () : Except IoError Unit), ((w.put d new (some f)).put d n none).publish i d new f) := by
  rcases hfails : o.fails with _ | text
  · rcases hfile : w.files d n with _ | f
    · exact Or.inl ⟨_, by simp only [exec, hfails, hfile]; rfl⟩
    · exact Or.inr ⟨f, rfl, by simp only [exec, hfails, hfile]; rfl⟩
  · exact Or.inl ⟨_, by simp only [exec, hfails]; rfl⟩

theorem bind_cases : (∃ e, exec i o w .bind = ((.error e : Except IoError UInt16), w)) ∨
    ∃ p, w.listening p = none ∧ exec i o w .bind =
      ((.ok p : Except IoError UInt16), { w with listening := Function.update w.listening p (some i) }) := by
  rcases hfails : o.fails with _ | text
  · rcases hport : w.listening o.port with _ | j
    · exact Or.inr ⟨o.port, hport, by simp only [exec, hfails, hport]; rfl⟩
    · exact Or.inl ⟨_, by simp only [exec, hfails, hport]; rfl⟩
  · exact Or.inl ⟨_, by simp only [exec, hfails]; rfl⟩

end Cases

end Calls

end Kmatrix.Daemon.Instances
