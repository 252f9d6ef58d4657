import Kmatrix.Lib.Crash
import Kmatrix.Storage.Read
import Kmatrix.Storage.Write

/-! # What the daemon does to the world

The effects of the daemon's code: it queries the store, writes to it, draws randomness and asks the
server. A query or a write may fail, and then nothing was written; a write that did not fail is on disk
and survives the process. Randomness is the number of the draw, from which the crypto library makes its
keys, so that no two draws are alike. The server is a parameter. -/

namespace Kmatrix.E2ee.Effects

open Kmatrix.Lib.Crash Kmatrix.Lib.Keyed Kmatrix.E2ee.Ratchets Kmatrix.Storage Kmatrix.Storage.Seal
open Kmatrix.Storage.Schema
open Kmatrix.Storage.Write (StoreOp)

/-- **An effect**; `Q` are the requests to the server. -/
inductive Effect (Q : Type) where
  | look
  | write (op : StoreOp)
  | draw (count : ℕ)
  | ask (request : Q)
  deriving DecidableEq, Repr

/-- What an effect answers. A draw answers the number of its first. -/
def Answer (S : CipherSuite) {Q : Type} (R : Q → Type) : Effect Q → Type
  | .look => Except String (Store S)
  | .write _ => Except String Unit
  | .draw _ => ℕ
  | .ask request => R request

/-- The outcome of one effect: whether a store access fails and how, the salts it draws, and what the
network and the server do. -/
structure Outcome (N : Type) where
  fault : Option String
  salts : Salts
  net : N

/-- The database on disk, how much randomness was drawn, and the server. -/
structure World (S : CipherSuite) (Ω : Type) where
  disk : Store S
  drawn : ℕ
  server : Ω

/-- An outcome for evaluating examples: nothing fails. -/
def calm {N : Type} (net : N) : Outcome N := ⟨none, fun _ => zeroSalt, net⟩

/-- An outcome for evaluating examples: a store access fails. -/
def faulty {N : Type} (net : N) : Outcome N := ⟨some "disk full", fun _ => zeroSalt, net⟩

/-- A fresh database without a store key, for evaluating examples. -/
def blankStore : Store copySuite := ⟨Tables.empty, none⟩

section Exec
variable {S : CipherSuite} {Q Ω N : Type} {R : Q → Type} (serve : N → Ω → (q : Q) → R q × Ω)

/-- **One effect.** -/
def exec (o : Outcome N) (w : World S Ω) : (e : Effect Q) → Answer S R e × World S Ω
  | .look =>
    match o.fault with
    | some e => (.error e, w)
    | none => (.ok w.disk, w)
  | .write op =>
    match o.fault with
    | some e => (.error e, w)
    | none => (.ok (), { w with disk := op.exec o.salts w.disk })
  | .draw count => (w.drawn, { w with drawn := w.drawn + count })
  | .ask request => ((serve o.net w.server request).1,
      { w with server := (serve o.net w.server request).2 })

end Exec

/-! ### The accesses of the code -/

section Access
variable {S : CipherSuite} {Q : Type} {R : Q → Type} {σ : Type}

/-- Code of the daemon. -/
abbrev Code (S : CipherSuite) {Q : Type} (R : Q → Type) (σ α : Type) : Type :=
  Act σ (Effect Q) (Answer S R) α

def look : Code S R σ (Store S) := ⟨fun s => .act .look fun found => .ret (found, s)⟩

def put (op : StoreOp) : Code S R σ Unit :=
  ⟨fun s => .act (.write op) fun written => .ret (written, s)⟩

def draw (count : ℕ) : Code S R σ ℕ :=
  ⟨fun s => .act (.draw count) fun first => .ret (.ok first, s)⟩

def ask (request : Q) : Code S R σ (R request) :=
  ⟨fun s => .act (.ask request) fun answer => .ret (.ok answer, s)⟩

/-- The answer of a query. -/
def query {α : Type} (read : Store S → Except String α) : Code S R σ α := do
  let st ← look
  Act.ofExcept (read st)

def allPickles (kind : String) : Code S R σ (List (String × String × Pickle)) :=
  query fun st => .ok (Read.allPickles st kind)

def getMeta (k : String) : Code S R σ (Option String) := query fun st => Read.getMeta st k

def putPickle (kind id extra : String) (pickle : Pickle) : Code S R σ Unit :=
  put (.putPickle kind id extra pickle)

def setMeta (k v : String) : Code S R σ Unit := put (.setMeta k v)

end Access

/-! ### Pickles on disk -/

section Pickles
variable {S : CipherSuite}

theorem lookup_put (rng : Salts) (st : Store S) (kind id extra : String) (pickle : Pickle)
    (k : String × String) :
    ((StoreOp.putPickle kind id extra pickle).exec rng st).db.pickles.lookup k =
      if k = (kind, id) then some ⟨extra, pickle⟩ else st.db.pickles.lookup k := by
  simp only [StoreOp.exec, Write.putPickle, Write.putPickleStmt, Table.lookup_upsert]
  split_ifs
  · rcases st.db.pickles.lookup (kind, id) with _ | row
    · rfl
    · rfl
  · rfl

/-- What is read back was on disk. -/
theorem mem_allPickles {st : Store S} {kind id extra : String} {pickle : Pickle}
    (h : (id, extra, pickle) ∈ Read.allPickles st kind) :
    st.db.pickles.lookup (kind, id) = some ⟨extra, pickle⟩ := by
  unfold Read.allPickles at h
  rw [List.mem_insertionSort, List.mem_map] at h
  obtain ⟨⟨⟨kind', id'⟩, row⟩, hmem, heq⟩ := h
  rw [List.mem_filter] at hmem
  obtain ⟨rfl, hrow⟩ := Prod.mk.inj heq
  obtain ⟨rfl, rfl⟩ := Prod.mk.inj hrow
  have hkind : kind' = kind := by simpa using hmem.2
  rw [← hkind]
  exact Table.mem_entries.mp hmem.1

end Pickles

/-! ### Rules -/

section Rules
variable {S : CipherSuite} {Q Ω N : Type} {R : Q → Type} {serve : N → Ω → (q : Q) → R q × Ω}
  {σ : Type} {D : World S Ω → Prop} {s : σ} {w : World S Ω}

theorem safe_look {T : Except String (Store S) × σ → World S Ω → Prop} (hD : D w)
    (herr : ∀ e, T (.error e, s) w) (hok : T (.ok w.disk, s) w) :
    Safe (exec serve) D T ((look : Code S R σ (Store S)).run s) w := by
  refine ⟨hD, fun o => ?_⟩
  unfold exec
  dsimp only
  rcases o.fault with _ | e
  · exact hok
  · exact herr e

/-- A query leaves the world as it is. -/
theorem safe_query {α : Type} {read : Store S → Except String α}
    {T : Except String α × σ → World S Ω → Prop} (hD : D w) (herr : ∀ e, T (.error e, s) w)
    (hok : ∀ a, read w.disk = .ok a → T (.ok a, s) w) :
    Safe (exec serve) D T ((query read : Code S R σ α).run s) w := by
  refine Act.safe_bind.mpr (safe_look hD (fun e => herr e) ?_)
  rw [Act.then_ok, Act.safe_ofExcept]
  rcases hr : read w.disk with e | a
  · exact herr e
  · exact hok a hr

/-- **A write** fails and leaves the world as it is, or is carried out. -/
theorem safe_put {op : StoreOp} {T : Except String Unit × σ → World S Ω → Prop} (hD : D w)
    (herr : ∀ e, T (.error e, s) w)
    (hok : ∀ rng, T (.ok (), s) { w with disk := op.exec rng w.disk }) :
    Safe (exec serve) D T ((put op : Code S R σ Unit).run s) w := by
  refine ⟨hD, fun o => ?_⟩
  unfold exec
  dsimp only
  rcases o.fault with _ | e
  · exact hok o.salts
  · exact herr e

theorem safe_draw {count : ℕ} {T : Except String ℕ × σ → World S Ω → Prop} (hD : D w)
    (h : T (.ok w.drawn, s) { w with drawn := w.drawn + count }) :
    Safe (exec serve) D T ((draw count : Code S R σ ℕ).run s) w :=
  ⟨hD, fun _ => h⟩

/-! The same, recorded. -/

section Recorded
variable {D : World S Ω × List (Effect Q × Outcome N) → Prop} {tr : List (Effect Q × Outcome N)}

theorem safe_put_recorded {op : StoreOp}
    {T : Except String Unit × σ → World S Ω × List (Effect Q × Outcome N) → Prop} (hD : D (w, tr))
    (herr : ∀ o e, o.fault = some e → T (.error e, s) (w, tr ++ [(.write op, o)]))
    (hok : ∀ o, o.fault = none →
      T (.ok (), s) ({ w with disk := op.exec o.salts w.disk }, tr ++ [(.write op, o)])) :
    Safe (recording (exec serve)) D T ((put op : Code S R σ Unit).run s) (w, tr) := by
  refine ⟨hD, fun o => ?_⟩
  unfold recording exec
  dsimp only
  rcases ho : o.fault with _ | e
  · exact hok o ho
  · exact herr o e ho

theorem safe_query_recorded {α : Type} {read : Store S → Except String α}
    {T : Except String α × σ → World S Ω × List (Effect Q × Outcome N) → Prop} (hD : D (w, tr))
    (herr : ∀ o e, T (.error e, s) (w, tr ++ [(.look, o)]))
    (hok : ∀ o a, read w.disk = .ok a → T (.ok a, s) (w, tr ++ [(.look, o)])) :
    Safe (recording (exec serve)) D T ((query read : Code S R σ α).run s) (w, tr) := by
  refine Act.safe_bind.mpr ⟨hD, fun o => ?_⟩
  unfold recording exec
  dsimp only
  rcases o.fault with _ | e
  · refine (Act.then_ok (a := w.disk)).mpr ?_
    rw [Act.safe_ofExcept]
    rcases hr : read w.disk with e | a
    · exact herr o e
    · exact hok o a hr
  · exact herr o e

theorem safe_ask_recorded {request : Q}
    {T : Except String (R request) × σ → World S Ω × List (Effect Q × Outcome N) → Prop}
    (hD : D (w, tr))
    (h : ∀ o, T (.ok (serve o.net w.server request).1, s)
      ({ w with server := (serve o.net w.server request).2 }, tr ++ [(.ask request, o)])) :
    Safe (recording (exec serve)) D T ((ask request : Code S R σ (R request)).run s) (w, tr) :=
  ⟨hD, fun o => h o⟩

/-! What a program is safe for, it is safe for when the server answers and the write succeeds. -/

theorem of_safe_ask {request : Q}
    {T : Except String (R request) × σ → World S Ω × List (Effect Q × Outcome N) → Prop}
    (h : Safe (recording (exec serve)) D T ((ask request : Code S R σ (R request)).run s) (w, tr))
    (o : Outcome N) : T (.ok (serve o.net w.server request).1, s)
      ({ w with server := (serve o.net w.server request).2 }, tr ++ [(.ask request, o)]) := h.2 o

theorem of_safe_put {op : StoreOp}
    {T : Except String Unit × σ → World S Ω × List (Effect Q × Outcome N) → Prop}
    (h : Safe (recording (exec serve)) D T ((put op : Code S R σ Unit).run s) (w, tr))
    {o : Outcome N} (ho : o.fault = none) :
    T (.ok (), s) ({ w with disk := op.exec o.salts w.disk }, tr ++ [(.write op, o)]) := by
  have hnext := h.2 o
  unfold recording exec at hnext
  dsimp only at hnext
  rw [ho] at hnext
  exact hnext

theorem safe_draw_recorded {count : ℕ}
    {T : Except String ℕ × σ → World S Ω × List (Effect Q × Outcome N) → Prop} (hD : D (w, tr))
    (h : ∀ o, T (.ok w.drawn, s) ({ w with drawn := w.drawn + count }, tr ++ [(.draw count, o)])) :
    Safe (recording (exec serve)) D T ((draw count : Code S R σ ℕ).run s) (w, tr) :=
  ⟨hD, fun o => h o⟩

end Recorded

end Rules

end Kmatrix.E2ee.Effects
