import Kmatrix.E2ee.Sessions
import Kmatrix.Storage.Plain
import Mathlib.Data.List.Induction

/-! # What a start finds

`stored` is what the database holds under a kind and an id, as a start reads it: opened with the pickle
key in `meta`, and nothing where it does not open. `Loaded` says that a crypto state is the one on disk,
`Primed` what a start writes before it comes to that: a pickle key and an account, where there are none.
`safe_boot_loaded` is the start. -/

namespace Kmatrix.E2ee.Stored

open Kmatrix.Lib Kmatrix.Lib.Crash Kmatrix.Lib.Keyed Kmatrix.E2ee.Ratchets Kmatrix.E2ee.Effects
open Kmatrix.E2ee.Sessions Kmatrix.Storage Kmatrix.Storage.Seal Kmatrix.Storage.Schema
open Kmatrix.Storage.Plain
open Kmatrix.Storage.Write (StoreOp)

/-! ### The pickle key -/

section Key
variable {S : CipherSuite}

/-- **The pickle key** a start reads. -/
def storedKey (st : Store S) : Option Key :=
  match Read.getMeta st pickleKeyMeta with
  | .ok (some encoded) => (decodeKey encoded "pickle key").toOption
  | _ => none

theorem decodeKey_keyText (key : Key) (what : String) : decodeKey (keyText key) what = .ok key := by
  unfold decodeKey keyText
  rw [String.toList_ofList, Base64.decode_encode]
  exact dif_pos key.property

/-- A key in base64 is not mistaken for a sealed value. -/
theorem startsWith_keyText (key : Key) : startsWith (keyText key) encPrefix = false := by
  by_contra h
  rw [Bool.not_eq_false] at h
  unfold startsWith keyText at h
  rw [String.toList_ofList, List.isPrefixOf_iff_prefix] at h
  have hmem : ':' ∈ Base64.encode key.val := h.subset (by decide)
  rcases Base64.mem_encode hmem with hin | heq
  · exact absurd hin (by decide)
  · exact absurd heq (by decide)

theorem getMeta_setMeta_of_ne {k k' : String} (h : k' ≠ k) (rng : Salts) (st : Store S) (v : String) :
    Read.getMeta ((StoreOp.setMeta k v).exec rng st) k' = Read.getMeta st k' := by
  have hlookup : ((StoreOp.setMeta k v).exec rng st).db.metas.lookup k' = st.db.metas.lookup k' := by
    simp only [StoreOp.exec, Write.setMeta, Write.setMetaStmt, Table.lookup_upsert, if_neg h]
  unfold Read.getMeta
  rw [hlookup]
  rfl

/-- A secret that was written is read back. -/
theorem getMeta_setMeta {k label v : String} (hlabel : secretMetaLabel k = some label)
    (hv : startsWith v encPrefix = false) (rng : Salts) (st : Store S) :
    Read.getMeta ((StoreOp.setMeta k v).exec rng st) k = .ok (some v) := by
  have hlookup : ((StoreOp.setMeta k v).exec rng st).db.metas.lookup k = some (st.protect (rng 0) v) := by
    simp only [StoreOp.exec, Write.setMeta, Write.setMetaStmt, hlabel, Table.lookup_upsert, if_true]
    rcases st.db.metas.lookup k with _ | v
    · rfl
    · rfl
  have hreveal : Store.reveal ((StoreOp.setMeta k v).exec rng st) label (st.protect (rng 0) v) = .ok v := by
    rw [reveal_ok]
    exact (look_protect st (rng 0) v).trans ( kept_of_not_prefix hv)
  unfold Read.getMeta
  rw [hlookup, hlabel]
  dsimp only [Store.revealOpt]
  rw [hreveal]
  rfl

/-- A pickle key that was written is read back. -/
theorem storedKey_setMeta (rng : Salts) (st : Store S) (key : Key) :
    storedKey ((StoreOp.setMeta pickleKeyMeta (keyText key)).exec rng st) = some key := by
  have hlabel : secretMetaLabel pickleKeyMeta = some "meta.pickle_key" := by decide
  unfold storedKey
  rw [getMeta_setMeta hlabel (startsWith_keyText key)]
  dsimp only
  rw [decodeKey_keyText]
  rfl

theorem storedKey_congr {st st' : Store S}
    (h : Read.getMeta st' pickleKeyMeta = Read.getMeta st pickleKeyMeta) :
    storedKey st' = storedKey st := by
  unfold storedKey
  rw [h]

theorem storedKey_putPickle (rng : Salts) (st : Store S) (kind id extra : String) (pickle : Pickle) :
    storedKey ((StoreOp.putPickle kind id extra pickle).exec rng st) = storedKey st :=
  storedKey_congr rfl

end Key

/-! ### Pickles -/

section Pickles
variable {S : CipherSuite} {α : Type} {read : Pickled → Option α}

/-- What a pickle opens to. -/
def opened (read : Pickled → Option α) (key : Key) (pickle : Pickle) : Option α :=
  (pickle.fromEncrypted (keyText key)).bind read

/-- **What is on disk** under a kind and an id. -/
def stored (read : Pickled → Option α) (st : Store S) (kind id : String) : Option α :=
  (storedKey st).bind fun key => (st.db.pickles.lookup (kind, id)).bind fun row =>
    opened read key row.pickle

def storedAccount (st : Store S) : Option Account := stored Pickled.account? st kindAccount "self"

def storedInbound (st : Store S) (id : String) : Option InboundGroupSession :=
  stored Pickled.inbound? st kindMegolmIn id

def storedOutbound (st : Store S) (room : String) : Option GroupSession :=
  stored Pickled.outbound? st kindMegolmOut room

/-- The session on disk under an id, if it is with this device. -/
def storedOlm (st : Store S) (peer id : String) : Option OlmSession :=
  (storedKey st).bind fun key => (st.db.pickles.lookup (kindOlm, id)).bind fun row =>
    if row.extra = peer then opened Pickled.olm? key row.pickle else none

theorem opened_own (key : Key) (content : Pickled) :
    opened read key ⟨keyText key, content⟩ = read content := by
  simp [opened, Pickle.fromEncrypted]

/-- **A write of a pickle** is what is stored from then on. -/
theorem stored_put {key : Key} {st : Store S} (hkey : storedKey st = some key) (rng : Salts)
    (kind id extra : String) (content : Pickled) (kind' id' : String) :
    stored read ((StoreOp.putPickle kind id extra ⟨keyText key, content⟩).exec rng st) kind' id' =
      if (kind', id') = (kind, id) then read content else stored read st kind' id' := by
  unfold stored
  rw [storedKey_putPickle, hkey, lookup_put]
  split_ifs with h
  · exact opened_own key content
  · rfl

theorem stored_putPickle {c : Crypto} {st : Store S} (hkey : storedKey st = some c.pickleKey)
    (rng : Salts) (kind id extra : String) (content : Pickled) (kind' id' : String) :
    stored read ((StoreOp.putPickle kind id extra (c.pickle content)).exec rng st) kind' id' =
      if (kind', id') = (kind, id) then read content else stored read st kind' id' :=
  stored_put hkey rng kind id extra content kind' id'

/-- A write of another kind, in whatever key. -/
theorem stored_putPickle_of_ne {st : Store S} {kind kind' : String} (h : kind' ≠ kind) (rng : Salts)
    (id extra : String) (pickle : Pickle) (id' : String) :
    stored read ((StoreOp.putPickle kind id extra pickle).exec rng st) kind' id' =
      stored read st kind' id' := by
  unfold stored
  rw [storedKey_putPickle, lookup_put, if_neg fun heq => h (Prod.mk.inj heq).1]

/-- A write of an Olm session. -/
theorem storedOlm_put {c : Crypto} {st : Store S} (hkey : storedKey st = some c.pickleKey) (rng : Salts)
    (id extra : String) (s : OlmSession) (peer id' : String) :
    storedOlm ((StoreOp.putPickle kindOlm id extra (c.pickle (.olm s))).exec rng st) peer id' =
      if id' = id then if extra = peer then some s else none else storedOlm st peer id' := by
  unfold storedOlm
  rw [storedKey_putPickle, hkey, lookup_put]
  by_cases hid : id' = id
  · rw [if_pos hid, if_pos (by rw [hid])]
    exact if_congr Iff.rfl (opened_own c.pickleKey (.olm s)) rfl
  · rw [if_neg hid, if_neg fun h => hid (Prod.mk.inj h).2]

theorem storedOlm_put_of_ne {st : Store S} {kind : String} (h : kindOlm ≠ kind) (rng : Salts)
    (id extra : String) (pickle : Pickle) (peer id' : String) :
    storedOlm ((StoreOp.putPickle kind id extra pickle).exec rng st) peer id' = storedOlm st peer id' := by
  unfold storedOlm
  rw [storedKey_putPickle, lookup_put, if_neg fun heq => h (Prod.mk.inj heq).1]

theorem stored_congr {st st' : Store S}
    (hkey : Read.getMeta st' pickleKeyMeta = Read.getMeta st pickleKeyMeta)
    (hpickles : st'.db.pickles = st.db.pickles) (kind id : String) :
    stored read st' kind id = stored read st kind id := by
  unfold stored
  rw [storedKey_congr hkey, hpickles]

/-- Without a pickle key nothing opens. -/
theorem stored_of_no_key {st : Store S} (h : storedKey st = none) (kind id : String) :
    stored read st kind id = none := by
  unfold stored
  rw [h]
  rfl

/-! ### Rows -/

theorem mem_allPickles_iff {st : Store S} {kind id extra : String} {pickle : Pickle} :
    (id, extra, pickle) ∈ Read.allPickles st kind ↔
      st.db.pickles.lookup (kind, id) = some ⟨extra, pickle⟩ := by
  refine ⟨mem_allPickles, fun h => ?_⟩
  unfold Read.allPickles
  rw [List.mem_insertionSort, List.mem_map]
  refine ⟨((kind, id), ⟨extra, pickle⟩), ?_, rfl⟩
  rw [List.mem_filter]
  exact ⟨Table.mem_entries.mpr h, by simp⟩

/-- A row for each id. -/
theorem allPickles_nodup (st : Store S) (kind : String) :
    ((Read.allPickles st kind).map Prod.fst).Nodup := by
  have hperm : (Read.allPickles st kind).Perm ((st.db.pickles.entries.filter fun p => p.1.1 = kind).map
      fun p => (p.1.2, p.2.extra, p.2.pickle)) := List.perm_insertionSort _ _
  refine ((hperm.map Prod.fst).nodup_iff).mpr ?_
  rw [List.map_map]
  have hsub : ((st.db.pickles.entries.filter fun p => p.1.1 = kind).map Prod.fst).Nodup :=
    (Table.entries_keys_nodup st.db.pickles).sublist (List.filter_sublist.map Prod.fst)
  refine List.Nodup.map_on ?_ (List.Nodup.of_map Prod.fst hsub)
  rintro ⟨⟨k, id⟩, row⟩ hx ⟨⟨k', id'⟩, row'⟩ hy heq
  have hkind : k = kind := by simpa using (List.mem_filter.mp hx).2
  have hkind' : k' = kind := by simpa using (List.mem_filter.mp hy).2
  obtain rfl : id = id' := heq
  subst hkind hkind'
  have h₁ := Table.mem_entries.mp (List.mem_filter.mp hx).1
  have h₂ := Table.mem_entries.mp (List.mem_filter.mp hy).1
  rw [Option.some.inj (h₁.symm.trans h₂)]

/-- The scan a start makes over the rows of a kind. -/
def load (read : Pickled → Option α) (key : Key) (rows : List (String × String × Pickle)) :
    String → Option α :=
  rows.foldl (fun found row =>
    match opened read key row.2.2 with
    | some s => Function.update found row.1 (some s)
    | none => found) fun _ => none

theorem loadInbound_eq (key : Key) (rows : List (String × String × Pickle)) :
    loadInbound key rows = load Pickled.inbound? key rows := by
  unfold loadInbound load
  congr 1
  funext found row
  unfold opened
  rcases row.2.2.fromEncrypted (keyText key) with _ | ⟨_ | _ | _ | _⟩ <;> rfl

theorem loadOutbound_eq (key : Key) (rows : List (String × String × Pickle)) :
    loadOutbound key rows = load Pickled.outbound? key rows := by
  unfold loadOutbound load
  congr 1
  funext found row
  unfold opened
  rcases row.2.2.fromEncrypted (keyText key) with _ | ⟨_ | _ | _ | _⟩ <;> rfl

theorem load_append (key : Key) (rows : List (String × String × Pickle))
    (row : String × String × Pickle) (id : String) :
    load read key (rows ++ [row]) id =
      if id = row.1 then (opened read key row.2.2).or (load read key rows id)
      else load read key rows id := by
  unfold load
  rw [List.foldl_append]
  simp only [List.foldl_cons, List.foldl_nil]
  rcases opened read key row.2.2 with _ | s
  · simp
  · dsimp only
    rw [Function.update_apply]
    rfl

theorem mem_of_load {key : Key} {rows : List (String × String × Pickle)} {id : String} {s : α}
    (h : load read key rows id = some s) :
    ∃ extra pickle, (id, extra, pickle) ∈ rows ∧ opened read key pickle = some s := by
  induction rows using List.reverseRecOn with
  | nil => simp [load] at h
  | append_singleton rows row ih =>
    obtain ⟨id', extra', pickle'⟩ := row
    rw [load_append] at h
    have hearlier : load read key rows id = some s → ∃ extra pickle,
        (id, extra, pickle) ∈ rows ++ [(id', extra', pickle')] ∧ opened read key pickle = some s := by
      intro hrows
      obtain ⟨extra, pickle, hmem, hs⟩ := ih hrows
      exact ⟨extra, pickle, List.mem_append_left _ hmem, hs⟩
    split_ifs at h with hid
    · rcases hopen : opened read key pickle' with _ | s'
      · simp only [hopen, Option.none_or] at h
        exact hearlier h
      · simp only [hopen, Option.some_or] at h
        rw [hid]
        exact ⟨extra', pickle', by simp, hopen.trans h⟩
    · exact hearlier h

/-- **The scan finds what is in the rows**, where no two have the same id. -/
theorem load_eq_some {key : Key} {rows : List (String × String × Pickle)}
    (hrows : (rows.map Prod.fst).Nodup) {id : String} {s : α} :
    load read key rows id = some s ↔
      ∃ extra pickle, (id, extra, pickle) ∈ rows ∧ opened read key pickle = some s := by
  refine ⟨mem_of_load, ?_⟩
  rintro ⟨extra, pickle, hmem, hopen⟩
  induction rows using List.reverseRecOn with
  | nil => simp at hmem
  | append_singleton rows row ih =>
    rw [List.map_append, List.map_singleton, List.nodup_append] at hrows
    obtain ⟨hnd, -, hdisj⟩ := hrows
    rw [load_append]
    rcases List.mem_append.mp hmem with hmem | hmem
    · have hne : id ≠ row.1 :=
        hdisj id (List.mem_map_of_mem (f := Prod.fst) hmem) row.1 (List.mem_singleton_self _)
      rw [if_neg hne]
      exact ih hnd hmem
    · obtain rfl := List.mem_singleton.mp hmem
      simp [hopen]

/-- **What a start makes of the rows** is what is stored. -/
theorem load_allPickles {st : Store S} {key : Key} (hkey : storedKey st = some key)
    (kind id : String) : load read key (Read.allPickles st kind) id = stored read st kind id := by
  have hiff : ∀ s, load read key (Read.allPickles st kind) id = some s ↔
      stored read st kind id = some s := by
    intro s
    rw [load_eq_some (allPickles_nodup st kind)]
    unfold stored
    rw [hkey, Option.bind_some]
    constructor
    · rintro ⟨extra, pickle, hmem, hopen⟩
      rw [mem_allPickles_iff.mp hmem]
      exact hopen
    · intro h
      obtain ⟨row, hrow, hopen⟩ := Option.bind_eq_some_iff.mp h
      exact ⟨row.extra, row.pickle, mem_allPickles_iff.mpr hrow, hopen⟩
  exact Option.ext hiff

theorem mem_loadOlm {key : Key} {rows : List (String × String × Pickle)} {peer : String}
    {s : OlmSession} : s ∈ loadOlm key rows peer ↔
      ∃ id pickle, (id, peer, pickle) ∈ rows ∧ opened Pickled.olm? key pickle = some s := by
  unfold loadOlm
  induction rows using List.reverseRecOn with
  | nil => simp
  | append_singleton rows row ih =>
    obtain ⟨id', extra', pickle'⟩ := row
    rw [List.foldl_append]
    simp only [List.foldl_cons, List.foldl_nil]
    have hsplit : (∃ id pickle, (id, peer, pickle) ∈ rows ++ [(id', extra', pickle')] ∧
        opened Pickled.olm? key pickle = some s) ↔
        (∃ id pickle, (id, peer, pickle) ∈ rows ∧ opened Pickled.olm? key pickle = some s) ∨
          (peer = extra' ∧ opened Pickled.olm? key pickle' = some s) := by
      simp only [List.mem_append, List.mem_singleton, Prod.mk.injEq, or_and_right, exists_or]
      refine or_congr_right ⟨?_, ?_⟩
      · rintro ⟨id, pickle, ⟨-, rfl, rfl⟩, hs⟩
        exact ⟨rfl, hs⟩
      · rintro ⟨rfl, hs⟩
        exact ⟨id', pickle', ⟨rfl, rfl, rfl⟩, hs⟩
    rw [hsplit, ← ih]
    unfold opened
    rcases pickle'.fromEncrypted (keyText key) with _ | ⟨a | s' | i | o⟩
    · simp
    · simp [Pickled.olm?]
    · simp only [Option.bind_some, Pickled.olm?, Option.some.injEq, Function.update_apply]
      by_cases hpeer : peer = extra'
      · subst hpeer
        simp [eq_comm]
      · simp [hpeer]
    · simp [Pickled.olm?]
    · simp [Pickled.olm?]

end Pickles

/-! ### The start -/

section Start
variable {S : CipherSuite} {Q Ω N : Type} {R : Q → Type} {serve : N → Ω → (q : Q) → R q × Ω}
  {V : Vodozemac} {w : World S Ω}

/-- **What a start writes** before it reads the sessions. -/
inductive Primed (st : Store S) : Store S → Prop where
  | same : Primed st st
  | key (rng : Salts) (key : Key) (h : Read.getMeta st pickleKeyMeta = .ok none) :
      Primed st ((StoreOp.setMeta pickleKeyMeta (keyText key)).exec rng st)
  | account {st₁ : Store S} (h : Primed st st₁)
      (hnone : st.db.pickles.lookup (kindAccount, "self") = none) (rng : Salts) (pickle : Pickle) :
      Primed st ((StoreOp.putPickle kindAccount "self" "" pickle).exec rng st₁)

/-- **The crypto state on disk.** -/
structure Loaded (st : Store S) (c : Crypto) : Prop where
  key : storedKey st = some c.pickleKey
  account : storedAccount st = some c.account
  inbound : ∀ id, c.inbound id = storedInbound st id
  outbound : ∀ room, c.outbound room = storedOutbound st room
  olm : c.olmSessions = loadOlm c.pickleKey (Read.allPickles st kindOlm)
  knownDevices : c.knownDevices = fun _ => none

/-- The world a start leaves. -/
def After (w w' : World S Ω) : Prop :=
  Primed w.disk w'.disk ∧ w'.server = w.server ∧ w.drawn ≤ w'.drawn

theorem Primed.pickles {st st' : Store S} (h : Primed st st') {kind id : String}
    (hne : (kind, id) ≠ (kindAccount, "self")) :
    st'.db.pickles.lookup (kind, id) = st.db.pickles.lookup (kind, id) := by
  induction h with
  | same => rfl
  | key => rfl
  | account h hnone rng pickle ih => rw [lookup_put, if_neg hne, ih]

/-- A start leaves what is stored, where anything is. -/
theorem Primed.stored {st st' : Store S} (h : Primed st st') {α : Type} {read : Pickled → Option α}
    {kind id : String} {a : α} (hst : Stored.stored read st kind id = some a) :
    Stored.stored read st' kind id = some a := by
  induction h with
  | same => exact hst
  | key rng key h =>
    exfalso
    have hnone : storedKey st = none := by
      unfold storedKey
      rw [h]
    rw [stored_of_no_key hnone] at hst
    simp at hst
  | account h hnone rng pickle ih =>
    rw [← ih]
    unfold Stored.stored
    rw [storedKey_putPickle, lookup_put, if_neg]
    intro heq
    unfold Stored.stored at hst
    rw [heq, hnone] at hst
    simp at hst

theorem Primed.key_of_some {st st' : Store S} (h : Primed st st') {key : Key}
    (hkey : storedKey st = some key) : storedKey st' = some key := by
  induction h with
  | same => exact hkey
  | key rng key' h =>
    unfold storedKey at hkey
    rw [h] at hkey
    simp at hkey
  | account h hnone rng pickle ih => rw [storedKey_putPickle, ih]

/-- What a start writes is a pickle key and an account, where there are none. -/
theorem Primed.stored_eq {st st' : Store S} (h : Primed st st') {key : Key} (hkey : storedKey st = some key) {α : Type}
    {read : Pickled → Option α} {kind id : String} (hne : (kind, id) ≠ (kindAccount, "self")) :
    Stored.stored read st' kind id = Stored.stored read st kind id := by
  unfold Stored.stored
  rw [h.pickles hne, h.key_of_some hkey, hkey]

theorem Primed.storedOlm_eq {st st' : Store S} (h : Primed st st') {key : Key} (hkey : storedKey st = some key)
    (peer id : String) : storedOlm st' peer id = storedOlm st peer id := by
  unfold storedOlm
  rw [h.pickles fun heq => absurd (Prod.mk.inj heq).1 (by decide), h.key_of_some hkey, hkey]

theorem Primed.getMeta_eq {st st' : Store S} (h : Primed st st') {key : Key} (hkey : storedKey st = some key) (k : String) :
    Read.getMeta st' k = Read.getMeta st k := by
  induction h with
  | same => rfl
  | key rng key' hnone =>
    unfold storedKey at hkey
    rw [hnone] at hkey
    cases hkey
  | account h hnone rng pickle ih => exact ih

theorem safe_loadPickleKey_stored :
    Safe (exec serve) (After w) (fun r w' => After w w' ∧
      ∀ key, r.1 = .ok key → storedKey w'.disk = some key ∧
        w'.disk.db.pickles = w.disk.db.pickles)
      ((loadPickleKey V : Code S R Unit Key).run ()) w := by
  have hw : After w w := ⟨.same, rfl, le_rfl⟩
  have herr : ∀ (e : String) (w' : World S Ω), After w w' → After w w' ∧ ∀ key : Key,
      (.error e : Except String Key) = .ok key → storedKey w'.disk = some key ∧
        w'.disk.db.pickles = w.disk.db.pickles :=
    fun e w' h => ⟨h, fun key hkey => by simp at hkey⟩
  unfold loadPickleKey
  rw [Act.safe_bind]
  refine safe_query hw (fun e => herr e w hw) fun found hfound => ?_
  rcases found with _ | encoded
  · simp only [Act.then_ok, Act.safe_bind]
    have hd : After w { w with drawn := w.drawn + 1 } := ⟨.same, rfl, Nat.le_succ _⟩
    refine safe_draw hw ?_
    simp only [Act.then_ok, Act.safe_bind]
    refine safe_put hd (fun e => herr e _ hd) fun rng => ?_
    refine ⟨⟨.key rng _ hfound, rfl, Nat.le_succ _⟩, fun key hkey => ?_⟩
    obtain rfl := Except.ok.inj hkey
    exact ⟨storedKey_setMeta rng w.disk _, rfl⟩
  · rw [Act.then_ok, Act.safe_ofExcept]
    refine ⟨hw, fun key hkey => ⟨?_, rfl⟩⟩
    dsimp only at hkey
    unfold storedKey
    rw [hfound]
    dsimp only
    rw [hkey]
    rfl

theorem find?_allPickles {st : Store S} {kind id : String} {row : String × String × Pickle}
    (h : (Read.allPickles st kind).find? (fun row => row.1 = id) = some row) :
    st.db.pickles.lookup (kind, id) = some ⟨row.2.1, row.2.2⟩ := by
  obtain ⟨id', extra, pickle⟩ := row
  have hid : id' = id := by simpa using List.find?_some h
  subst hid
  exact mem_allPickles (List.mem_of_find?_eq_some h)

theorem find?_allPickles_none {st : Store S} {kind id : String}
    (h : (Read.allPickles st kind).find? (fun row => row.1 = id) = none) :
    st.db.pickles.lookup (kind, id) = none := by
  rcases hrow : st.db.pickles.lookup (kind, id) with _ | ⟨extra, pickle⟩
  · rfl
  · have hmem := mem_allPickles_iff.mpr hrow
    have hne := List.find?_eq_none.mp h _ hmem
    simp at hne

theorem safe_loadAccount_stored {w₁ : World S Ω} {pickleKey : Key} (h₁ : After w w₁)
    (hkey : storedKey w₁.disk = some pickleKey)
    (hpickles : w₁.disk.db.pickles = w.disk.db.pickles) :
    Safe (exec serve) (After w) (fun r w' => After w w' ∧ ∀ account, r.1 = .ok account →
        storedKey w'.disk = some pickleKey ∧ storedAccount w'.disk = some account)
      ((loadAccount V pickleKey : Code S R Unit Account).run ()) w₁ := by
  have herr : ∀ (e : String) (w' : World S Ω), After w w' → After w w' ∧ ∀ account : Account,
      (.error e : Except String Account) = .ok account →
        storedKey w'.disk = some pickleKey ∧ storedAccount w'.disk = some account :=
    fun e w' h => ⟨h, fun account hc => by simp at hc⟩
  unfold loadAccount
  rw [Act.safe_bind]
  refine safe_query h₁ (fun e => herr e w₁ h₁) fun rows hrows => ?_
  obtain rfl := Except.ok.inj hrows
  rw [Act.then_ok]
  split
  · next id extra pickle hfind =>
    split
    · next account hopen =>
      refine ⟨h₁, fun account' haccount => ⟨hkey, ?_⟩⟩
      obtain rfl := Except.ok.inj haccount
      unfold storedAccount Stored.stored
      rw [hkey, Option.bind_some, find?_allPickles hfind, Option.bind_some]
      unfold opened
      rw [hopen]
      rfl
    · exact herr _ w₁ h₁
  · next hfind =>
    have hnone : w.disk.db.pickles.lookup (kindAccount, "self") = none := by
      rw [← hpickles]
      exact find?_allPickles_none hfind
    obtain ⟨hprimed, hserver, hdrawn⟩ := h₁
    have hd : After w { w₁ with drawn := w₁.drawn + 1 } :=
      ⟨hprimed, hserver, hdrawn.trans (Nat.le_succ _)⟩
    rw [Act.safe_bind]
    refine safe_draw ⟨hprimed, hserver, hdrawn⟩ ?_
    simp only [Act.then_ok, Act.safe_bind]
    refine safe_put hd (fun e => herr e _ hd) fun rng => ?_
    refine ⟨⟨.account hprimed hnone rng _, hserver, hd.2.2⟩, fun account haccount => ?_⟩
    obtain rfl := Except.ok.inj haccount
    refine ⟨(storedKey_putPickle rng w₁.disk _ _ _ _).trans hkey, ?_⟩
    unfold storedAccount
    dsimp only
    rw [stored_put hkey, if_pos rfl]
    rfl

/-- **A start** comes to the state on disk, and writes little. -/
theorem safe_loadOrCreate_loaded :
    Safe (exec serve) (After w) (fun r w' => After w w' ∧ ∀ c, r.1 = .ok c → Loaded w'.disk c)
      ((loadOrCreate V : Code S R Unit Crypto).run ()) w := by
  have herr : ∀ (e : String) (w' : World S Ω), After w w' → After w w' ∧ ∀ c : Crypto,
      (.error e : Except String Crypto) = .ok c → Loaded w'.disk c :=
    fun e w' h => ⟨h, fun c hc => by simp at hc⟩
  unfold loadOrCreate
  rw [Act.safe_bind]
  refine safe_loadPickleKey_stored.mono ?_
  rintro ⟨e | pickleKey, u⟩ w₁ ⟨h₁, hkey₁⟩
  · exact herr e w₁ h₁
  · obtain ⟨hkey, hpickles⟩ := hkey₁ pickleKey rfl
    rw [Act.then_ok, Act.safe_bind]
    refine (safe_loadAccount_stored h₁ hkey hpickles).mono ?_
    rintro ⟨e | account, u⟩ w₂ ⟨h₂, haccount₂⟩
    · exact herr e w₂ h₂
    · obtain ⟨hkey, haccount⟩ := haccount₂ account rfl
      rw [Act.then_ok, Act.safe_bind]
      refine safe_query h₂ (fun e => herr e w₂ h₂) fun olm holm => ?_
      rw [Act.then_ok, Act.safe_bind]
      refine safe_query h₂ (fun e => herr e w₂ h₂) fun inbound hin => ?_
      rw [Act.then_ok, Act.safe_bind]
      refine safe_query h₂ (fun e => herr e w₂ h₂) fun outbound hout => ?_
      rw [Act.then_ok, Act.safe_bind]
      refine safe_query h₂ (fun e => herr e w₂ h₂) fun backupKey _ => ?_
      rw [Act.then_ok, Act.safe_pure]
      refine ⟨h₂, fun c hc => ?_⟩
      obtain rfl := Except.ok.inj hc
      obtain rfl := Except.ok.inj holm
      obtain rfl := Except.ok.inj hin
      obtain rfl := Except.ok.inj hout
      refine ⟨hkey, haccount, fun id => ?_, fun room => ?_, rfl, rfl⟩
      · dsimp only
        rw [loadInbound_eq]
        exact load_allPickles hkey kindMegolmIn id
      · dsimp only
        rw [loadOutbound_eq]
        exact load_allPickles hkey kindMegolmOut room

/-- **A start of the daemon.** -/
theorem safe_boot_loaded :
    Safe (exec serve) (After w) (fun m w' => After w w' ∧ ∀ c, m = some c → Loaded w'.disk c)
      (boot V : Prog (Effect Q) (Answer S R) (Option Crypto)) w := by
  unfold boot
  rw [safe_bind]
  refine safe_loadOrCreate_loaded.mono ?_
  rintro ⟨e | c, u⟩ w' ⟨h', hc⟩
  · exact ⟨h', fun c hm => by simp [Except.toOption] at hm⟩
  · refine ⟨h', fun c' hm => ?_⟩
    obtain rfl : c = c' := Option.some.inj hm
    exact hc c rfl

end Start

end Kmatrix.E2ee.Stored
