import Kmatrix.Daemon.Instances

/-! # One daemon to a data directory

What the lock is for. By rely and guarantee over the calls of `run`: what the others leave alone (`Rely`)
is the port file of a data directory whose lock one has, and its key where no other data directory has
it; every part of the program has its lemma, and they are put together as the program is.

* `found_serving`: a daemon that serves is the one the plugin finds.
* `one_at_a_time`: the files two daemons could take from each other are touched by one of them only.
* `one_key`: however daemons fail and are killed, a store is opened with one key. -/

namespace Kmatrix.Daemon.Exclusive

open Kmatrix.Daemon.Instances
open Kmatrix.Ipc.PortFile
open Kmatrix.Lib.Crash (Prog Act)
open Kmatrix.Lib.Processes
open Kmatrix.Storage.Seal (Bytes Key utf8)

variable {δ : Type} [DecidableEq δ]

/-! ### What one process can rely on

The lock on a data directory is what it rests on: the port file, and the key, if no other data directory
has its key there. `home` says of some data directories which key directory they have, if any. -/

section Outline
variable (home : δ → Option (Option δ)) (files : δ → Name → Option File)

/-- The lock that makes a call safe. -/
def touches : Call δ → Option δ
  | .removeFile d _ => some d
  | .openStore d _ => some d
  | .write d n _ => if n = .portTmp then some d else none
  | .rename d _ n => if n = .port then some d else none
  | _ => none

/-- **The port file is its own**: what the plugin finds is where `i` listens, and with what token. -/
def Found (dirOf : String → δ) (i : ℕ) (sh : Shared) (w : World δ) : Prop :=
  w.locked (dirOf sh.dataDir) = some i ∧ w.listening sh.port = some i ∧
    ∃ f, w.files (dirOf sh.dataDir) .port = some f ∧ f.mode = 0o600 ∧
      f.bytes = utf8 (portFile sh.port sh.token) ∧
      readPortFile f.bytes = some (sh.port.toNat, sh.token.toList)

/-- **`i` installed the port file `f`** when it listened on the port that the file names, as a daemon reads
it. -/
def Installed (i : ℕ) (d : δ) (f : File) (p : UInt16) (token : String) (w : World δ) : Prop :=
  f.bytes = utf8 (portFile p token) ∧ portOf f.bytes = some p ∧
    ∃ listening, (i, d, f, listening) ∈ w.published ∧ listening p = some i

/-- **The port file is the one it installed**, and names where it listened. -/
def Own (dirOf : String → δ) (i : ℕ) (sh : Shared) (w : World δ) : Prop :=
  w.locked (dirOf sh.dataDir) = some i ∧ ∃ f, w.files (dirOf sh.dataDir) .port = some f ∧
    Installed i (dirOf sh.dataDir) f sh.port sh.token w

/-- A store is opened with what its key directory holds. -/
def KeyOf (w : World δ) (d : δ) (key : Option Key) : Prop :=
  (home d = some none → key = none) ∧
    ∀ k, home d = some (some k) → ∃ f key', w.files k .key = some f ∧ key = some key' ∧ key'.val = f.bytes

/-- What holds of the disk. -/
structure Inv (w : World δ) : Prop where
  fresh : ∀ d k, home d = some (some k) → files k .key = none → ∀ f, w.files k .key = some f →
    f.bytes.length = 32 ∧ f.mode = 0o600
  kept : ∀ d k, home d = some (some k) → ∀ f, files k .key = some f → w.files k .key = some f
  stores : ∀ d key, (d, key) ∈ w.opened → KeyOf home w d key

/-- What the others leave alone. -/
structure Rely (i : ℕ) (w w' : World δ) : Prop where
  files : ∀ d, w.locked d = some i → w'.locked d = some i ∧
    (∀ n, n = .port ∨ n = .portTmp → w'.files d n = w.files d n) ∧
    ∀ k, home d = some (some k) → ∀ n, n = .key ∨ n = .keyTmp → w'.files k n = w.files k n
  listening : ∀ p, w.listening p = some i → w'.listening p = some i
  published : ∀ x, x.1 = i → x ∈ w.published → x ∈ w'.published

/-- What holds at a call. -/
def Pre (dirOf : String → δ) (i : ℕ) (c : Call δ) (w : World δ) : Prop :=
  (∀ d, touches c = some d → w.locked d = some i) ∧
    (∀ sh, c = .serve sh → Found dirOf i sh w) ∧
    ∀ d, c = .removeFile d .port → ∃ f p token, w.files d .port = some f ∧ Installed i d f p token w

def outline (dirOf : String → δ) : Outline (World δ) (Call δ) where
  inv := Inv home files
  rely := Rely home
  pre := Pre dirOf
  refl _ _ := ⟨fun _ h => ⟨h, fun _ _ => rfl, fun _ _ _ _ => rfl⟩, fun _ h => h, fun _ _ h => h⟩
  trans h h' :=
    ⟨fun d hd => by
      obtain ⟨hl, hp, hk⟩ := h.files d hd
      obtain ⟨hl', hp', hk'⟩ := h'.files d hl
      exact ⟨hl', fun n hn => (hp' n hn).trans (hp n hn), fun k hh n hn => (hk' k hh n hn).trans (hk k hh n hn)⟩,
      fun p hp => h'.listening p (h.listening p hp), fun x hx hf => h'.published x hx (h.published x hx hf)⟩

end Outline

/-! ### What one call may do -/

section Calls
variable {home : δ → Option (Option δ)} {files : δ → Name → Option File} {dirOf : String → δ} {i : ℕ}
  {w : World δ} {d : δ} {n : Name} {o : Outcome}

/-- Who may change a file: the port file is its data directory's, the key that of the one data directory
that has it. -/
def Owns (home : δ → Option (Option δ)) (i : ℕ) (w : World δ) (d : δ) (n : Name) : Prop :=
  (n = .port ∨ n = .portTmp → w.locked d = some i) ∧
    (n = .key ∨ n = .keyTmp → ∀ d', home d' = some (some d) → w.locked d' = some i)

/-- The others do not see what happens to a file that is not theirs. -/
theorem rely_put {j : ℕ} (hj : j ≠ i) (h : Owns home i w d n) (f : Option File) :
    Rely home j w (w.put d n f) where
  files d' hd' := by
    refine ⟨hd', fun n' hn' => ?_, fun k hk n' hn' => ?_⟩
    · by_cases hn : n' = n
      · subst hn
        refine put_elsewhere f fun heq => hj ?_
        subst heq
        exact Option.some.inj (hd'.symm.trans (h.1 hn'))
      · exact put_other f hn
    · by_cases hn : n' = n
      · subst hn
        refine put_elsewhere f fun heq => hj ?_
        subst heq
        exact Option.some.inj (hd'.symm.trans (h.2 hn' d' hk))
      · exact put_other f hn
  listening _ hp := hp
  published _ _ hf := hf

/-- **A change of a file that holds no key.** -/
theorem allows_put (hinv : Inv home files w) (h : Owns home i w d n) (hn : n ≠ .key) (f : Option File) :
    (outline home files dirOf).Allows i w (w.put d n f) := by
  refine ⟨⟨fun d' k hk h0 f' hf' => ?_, fun d' k hk f' hf' => ?_, fun d' key hopen => ?_⟩,
    fun j hj => rely_put hj h f⟩
  · rw [put_other f hn.symm] at hf'
    exact hinv.fresh d' k hk h0 f' hf'
  · rw [put_other f hn.symm]
    exact hinv.kept d' k hk f' hf'
  · obtain ⟨hnone, hsome⟩ := hinv.stores d' key hopen
    refine ⟨hnone, fun k hk => ?_⟩
    rw [put_other f hn.symm]
    exact hsome k hk

omit [DecidableEq δ] in
theorem allows_refl (hinv : Inv home files w) : (outline home files dirOf).Allows i w w :=
  ⟨hinv, fun j _ => (outline home files dirOf).refl j w⟩

omit [DecidableEq δ] in
/-- **A process that is gone leaves the others what they have.** -/
theorem allows_die (hinv : Inv home files w) : (outline home files dirOf).Allows i w (w.die i) := by
  refine ⟨⟨hinv.fresh, hinv.kept, hinv.stores⟩, fun j hj => ⟨fun d hd => ⟨?_, fun _ _ => rfl, fun _ _ _ _ => rfl⟩,
    fun p hp => ?_, fun x hx hpublished => ?_⟩⟩
  · show (if w.locked d = some i then none else w.locked d) = some j
    rw [hd, if_neg fun h => hj (Option.some.inj h)]
  · show (if w.listening p = some i then none else w.listening p) = some j
    rw [hp, if_neg fun h => hj (Option.some.inj h)]
  · exact List.mem_filter.mpr ⟨hpublished, decide_eq_true (hx ▸ hj)⟩

omit [DecidableEq δ] in
/-- A port file that is installed is one more. -/
theorem allows_publish (hinv : Inv home files w) (f : File) :
    (outline home files dirOf).Allows i w (w.publish i d n f) := by
  refine ⟨⟨hinv.fresh, hinv.kept, hinv.stores⟩, fun j _ => ⟨fun d hd => ⟨hd, fun _ _ => rfl, fun _ _ _ _ => rfl⟩,
    fun _ hp => hp, fun x _ hx => ?_⟩⟩
  unfold World.publish
  dsimp only
  split_ifs
  · exact List.mem_append_left _ hx
  · exact hx

omit [DecidableEq δ] in
/-- **A listener that is closed** was nobody else's. -/
theorem allows_close (hinv : Inv home files w) (p : UInt16) :
    (outline home files dirOf).Allows i w (w.close i p) := by
  refine ⟨⟨hinv.fresh, hinv.kept, hinv.stores⟩, fun j hj => ⟨fun d hd => ⟨hd, fun _ _ => rfl, fun _ _ _ _ => rfl⟩,
    fun q hq => ?_, fun _ _ hf => hf⟩⟩
  show (if q = p ∧ w.listening q = some i then none else w.listening q) = some j
  rw [hq, if_neg fun h => hj (Option.some.inj h.2)]

/-- **One call and what follows it**, from what its process knows. -/
theorem sound_answered {β : Type} (c : Call δ) (I : World δ → Prop) (J : Reply c → World δ → Prop)
    {next : Reply c → Code δ β} {K : β → World δ → Prop} (hI : ∀ w w', I w → Rely home i w w' → I w')
    (h : ∀ w', Inv home files w' → I w' → Pre dirOf i c w' ∧
      ∀ o, (outline home files dirOf).Allows i w' (exec i o w' c).2 ∧
        J (exec i o w' c).1 (exec i o w' c).2) (hw : I w)
    (hnext : ∀ r w', J r w' → Sound exec (outline home files dirOf) i (Ok fun b _ w => K b w)
      ((next r).run ()) w') :
    Sound exec (outline home files dirOf) i (Ok fun b _ w => K b w) ((call c >>= next).run ()) w := by
  refine sound_act I (fun w' hw' _ => hI w w' hw hw') fun w' hinv hI' => ?_
  obtain ⟨hpre, hstep⟩ := h w' hinv hI'
  exact ⟨hpre, fun o => ⟨(hstep o).1, hnext _ _ (hstep o).2⟩⟩

theorem sound_context {α : Type} {text : String} {r : Except IoError α} {J : α → World δ → Prop}
    (h : ∀ a, r = .ok a → J a w) :
    Sound exec (outline home files dirOf) i (Ok fun a _ w => J a w) ((context text r).run ()) w := by
  rcases r with e | a
  · exact ok_error _ _ _
  · exact ok_ok (h a rfl)

/-- **A call and its `?`.** -/
theorem sound_checked {α β : Type} (c : Call δ) (as : Reply c → Except IoError α) {text : String}
    (I : World δ → Prop) (J : α → World δ → Prop) {next : α → Code δ β} {K : β → World δ → Prop}
    (hI : ∀ w w', I w → Rely home i w w' → I w')
    (h : ∀ w', Inv home files w' → I w' → Pre dirOf i c w' ∧
      ∀ o, (outline home files dirOf).Allows i w' (exec i o w' c).2 ∧
        ∀ a, as (exec i o w' c).1 = .ok a → J a (exec i o w' c).2) (hw : I w)
    (hnext : ∀ a w', J a w' → Sound exec (outline home files dirOf) i (Ok fun b _ w => K b w)
      ((next a).run ()) w') :
    Sound exec (outline home files dirOf) i (Ok fun b _ w => K b w)
      ((call c >>= fun r => context text (as r) >>= next).run ()) w := by
  refine sound_answered c I (fun r w => ∀ a, as r = .ok a → J a w) hI h hw fun r w' hr => ?_
  exact sound_then (I := fun a _ w => J a w) (sound_context hr) fun a _ w'' ha => hnext a w'' ha

/-! ### What a process knows -/

/-- **It has the lock**, and of the key directory, where it is known, `P` holds. -/
def Holding (home : δ → Option (Option δ)) (i : ℕ) (d : δ) (P : δ → Option File → Option File → Prop)
    (w : World δ) : Prop :=
  w.locked d = some i ∧ ∀ k, home d = some (some k) → P k (w.files k .key) (w.files k .keyTmp)

/-- It has the lock. -/
def Locked (i : ℕ) (d : δ) (w : World δ) : Prop := w.locked d = some i

/-- It has the lock, listens, and `P` holds of the port files. -/
def Listening (i : ℕ) (d : δ) (p : UInt16) (P : Option File → Option File → Prop) (w : World δ) : Prop :=
  w.locked d = some i ∧ w.listening p = some i ∧ P (w.files d .port) (w.files d .portTmp)

omit [DecidableEq δ] in
theorem stable_locked {w' : World δ} (h : Locked i d w) (hw : Rely home i w w') : Locked i d w' :=
  (hw.files d h).1

omit [DecidableEq δ] in
theorem stable_holding {w' : World δ} {P : δ → Option File → Option File → Prop}
    (h : Holding home i d P w) (hw : Rely home i w w') : Holding home i d P w' := by
  obtain ⟨hl, -, hk⟩ := hw.files d h.1
  refine ⟨hl, fun k hh => ?_⟩
  rw [hk k hh .key (Or.inl rfl), hk k hh .keyTmp (Or.inr rfl)]
  exact h.2 k hh

omit [DecidableEq δ] in
theorem stable_listening {w' : World δ} {p : UInt16} {P : Option File → Option File → Prop}
    (h : Listening i d p P w) (hw : Rely home i w w') : Listening i d p P w' := by
  obtain ⟨hl, hp, -⟩ := hw.files d h.1
  refine ⟨hl, hw.listening p h.2.1, ?_⟩
  rw [hp .port (Or.inl rfl), hp .portTmp (Or.inr rfl)]
  exact h.2.2

omit [DecidableEq δ] in
/-- Nothing is asked of a call that needs no lock. -/
theorem pre_free {c : Call δ} (hc : touches c = none) (hs : ∀ sh, c ≠ .serve sh) (hr : ∀ d n, c ≠ .removeFile d n) :
    Pre dirOf i c w :=
  ⟨fun d hd => absurd (hc.symm.trans hd) (by simp), fun sh h => absurd h (hs sh),
    fun d h => absurd h (hr d _)⟩

omit [DecidableEq δ] in
/-- Of a call that needs the lock it is the lock. -/
theorem pre_locked {c : Call δ} (hc : ∀ d', touches c = some d' → d' = d) (hl : Locked i d w)
    (hs : ∀ sh, c ≠ .serve sh) (hr : ∀ d', c ≠ .removeFile d' .port) : Pre dirOf i c w :=
  ⟨fun d' hd => by rw [hc d' hd]; exact hl, fun sh h => absurd h (hs sh), fun d' h => absurd h (hr d')⟩

end Calls

/-! ### The parts of the program -/

section Parts
variable {home : δ → Option (Option δ)} {files : δ → Name → Option File} {dirOf : String → δ} {i : ℕ}
  {w : World δ}

/-- **`InstanceLock::take` leaves the lock taken.** -/
theorem sound_takeLock (dir : String) :
    Sound exec (outline home files dirOf) i (Ok fun _ _ w => Locked i (dirOf dir) w)
      ((takeLock dirOf dir).run ()) w := by
  unfold takeLock
  refine sound_checked (.openLock _) (fun r => r) (fun _ => True) (fun _ _ => True)
    (fun _ _ h _ => h) ?_ trivial ?_
  · intro w' hinv _
    refine ⟨pre_free rfl (by simp) (by simp), fun o => ⟨?_, fun _ _ => trivial⟩⟩
    rcases openLock_cases i w' (dirOf dir) o with h | ⟨f, h⟩
    · rw [h]
      exact allows_refl hinv
    · rw [h]
      exact allows_put hinv ⟨by simp, by simp⟩ (by simp) _
  · intro _ w₁ _
    refine sound_answered (.flock _) (fun _ => True) (fun r w => r = .ok () → Locked i (dirOf dir) w)
      (fun _ _ h _ => h) ?_ trivial ?_
    · intro w' hinv _
      refine ⟨pre_free rfl (by simp) (by simp), fun o => ?_⟩
      rcases flock_cases i w' (dirOf dir) o with
        ⟨e, h⟩ | ⟨hlocked, h⟩ | ⟨hlocked, h⟩
      · rw [h]
        exact ⟨allows_refl hinv, fun heq => by cases heq⟩
      · rw [h]
        exact ⟨allows_refl hinv, fun _ => hlocked⟩
      · -- the lock is free, and taken
        rw [h]
        refine ⟨⟨⟨hinv.fresh, hinv.kept, hinv.stores⟩, fun j _ => ⟨fun d hd => ?_, fun _ h => h, fun _ _ h => h⟩⟩,
          fun _ => ?_⟩
        · refine ⟨?_, fun _ _ => rfl, fun _ _ _ _ => rfl⟩
          have hne : d ≠ dirOf dir := by
            rintro rfl
            rw [hlocked] at hd
            cases hd
          simpa [hne] using hd
        · simp [Locked]
    · rintro (e | ⟨⟩) w₂ h₂
      · dsimp only
        split_ifs
        · exact ok_error _ _ _
        · exact ok_error _ _ _
      · exact ok_ok (h₂ rfl)

/-- **`--reset-store` keeps the lock.** -/
theorem sound_removeStore (dir suffix : String) (n : Name) (hn : n = .db ∨ n = .wal ∨ n = .shm)
    (hw : Locked i (dirOf dir) w) :
    Sound exec (outline home files dirOf) i (Ok fun _ _ w => Locked i (dirOf dir) w)
      ((removeStore dirOf dir suffix n).run ()) w := by
  unfold removeStore
  refine sound_answered (.removeFile _ n) (Locked i (dirOf dir)) (fun _ => Locked i (dirOf dir))
    (fun _ _ h h' => stable_locked h h') ?_ hw ?_
  · intro w' hinv hl
    have hport : ∀ d', Call.removeFile (dirOf dir) n ≠ .removeFile d' .port := by
      rintro d' ⟨⟩
      simp at hn
    refine ⟨pre_locked (fun _ h => (Option.some.inj h).symm) hl (by simp) hport, fun o => ?_⟩
    rcases removeFile_cases i w' (dirOf dir) n o with h | h
    · rw [h]
      exact ⟨allows_refl hinv, hl⟩
    · rw [h]
      refine ⟨allows_put hinv ⟨fun _ => hl, ?_⟩ ?_ none, hl⟩
      · rintro (rfl | rfl) <;> simp at hn
      · rintro rfl
        simp at hn
  · rintro (e | ⟨⟩) w' hl
    · dsimp only
      split_ifs
      · exact ok_ok hl
      · exact ok_error _ _ _
    · exact ok_ok hl

theorem sound_resetStore (dir : String) (hw : Locked i (dirOf dir) w) :
    Sound exec (outline home files dirOf) i (Ok fun _ _ w => Locked i (dirOf dir) w)
      ((resetStore dirOf dir).run ()) w := by
  unfold resetStore
  refine sound_then (I := fun _ _ w => Locked i (dirOf dir) w)
    (sound_removeStore dir "" .db (by simp) hw) fun _ _ w₁ h₁ => ?_
  refine sound_then (I := fun _ _ w => Locked i (dirOf dir) w)
    (sound_removeStore dir "-wal" .wal (by simp) h₁) fun _ _ w₂ h₂ => ?_
  exact sound_removeStore dir "-shm" .shm (by simp) h₂

/-! #### The key -/

/-- **A start fits**: its key directory is the one its data directory has, and nobody else's. -/
structure Fits (home : δ → Option (Option δ)) (d : δ) (keyDir : Option δ) : Prop where
  same : ∀ h, home d = some h → keyDir = h
  alone : ∀ k, keyDir = some k → ∀ d', home d' = some (some k) → d' = d

variable {d k : δ}

omit [DecidableEq δ] in
/-- The key files are the process's own. -/
theorem Fits.owns (hfits : Fits home d (some k)) (hl : w.locked d = some i) {n : Name}
    (hn : n = .key ∨ n = .keyTmp) : Owns home i w k n := by
  refine ⟨by rintro (rfl | rfl) <;> simp at hn, fun _ d' hd' => ?_⟩
  rw [hfits.alone k rfl d' hd']
  exact hl

/-- A change of the temporary file. -/
theorem holding_put (hfits : Fits home d (some k)) {P P' : δ → Option File → Option File → Prop}
    {f : Option File} (h : Holding home i d P w)
    (hP : ∀ key tmp, P k key tmp → P' k key f) : Holding home i d P' (w.put k .keyTmp f) := by
  refine ⟨h.1, fun k' hk' => ?_⟩
  obtain rfl : k = k' := Option.some.inj (hfits.same _ hk')
  rw [put_self, put_other f (by simp)]
  exact hP _ _ (h.2 k hk')

/-- **The new key is put in place** where there was none. -/
theorem allows_install (hinv : Inv home files w) (hfits : Fits home d (some k)) {f : File}
    (h : Holding home i d (fun _ key _ => key = none) w)
    (hf : ∀ k', home d = some (some k') → f.bytes.length = 32 ∧ f.mode = 0o600) :
    (outline home files dirOf).Allows i w ((w.put k .key (some f)).put k .keyTmp none) := by
  have hkey : (outline home files dirOf).Allows i w (w.put k .key (some f)) := by
    refine ⟨⟨fun d' k' hk' h0 f' hf' => ?_, fun d' k' hk' f' hf' => ?_, fun d' key hopen => ?_⟩,
      fun j hj => rely_put hj (hfits.owns h.1 (Or.inl rfl)) _⟩
    · by_cases heq : k' = k
      · subst heq
        rw [put_self] at hf'
        obtain rfl := hfits.alone k' rfl d' hk'
        rw [← Option.some.inj hf']
        exact hf k' hk'
      · rw [put_elsewhere _ heq] at hf'
        exact hinv.fresh d' k' hk' h0 f' hf'
    · have hfile := hinv.kept d' k' hk' f' hf'
      by_cases heq : k' = k
      · -- the key that was there is still there
        subst heq
        obtain rfl := hfits.alone k' rfl d' hk'
        rw [h.2 k' hk'] at hfile
        cases hfile
      · rw [put_elsewhere _ heq]
        exact hfile
    · obtain ⟨hnone, hsome⟩ := hinv.stores d' key hopen
      refine ⟨hnone, fun k' hk' => ?_⟩
      obtain ⟨f', key', hfile, hrest⟩ := hsome k' hk'
      by_cases heq : k' = k
      · -- a store that was opened has a key, and here there was none
        subst heq
        obtain rfl := hfits.alone k' rfl d' hk'
        rw [h.2 k' hk'] at hfile
        cases hfile
      · exact ⟨f', key', by rw [put_elsewhere _ heq]; exact hfile, hrest⟩
  exact hkey.trans (allows_put hkey.1 (hfits.owns h.1 (Or.inr rfl)) (by simp) none)

/-- What is known of the key that a process goes on with. -/
def Keyed (home : δ → Option (Option δ)) (i : ℕ) (d : δ) (key : Option Key) (w : World δ) : Prop :=
  w.locked d = some i ∧ KeyOf home w d key

omit [DecidableEq δ] in
theorem stable_keyed {key : Option Key} {w' : World δ} (h : Keyed home i d key w)
    (hw : Rely home i w w') : Keyed home i d key w' := by
  obtain ⟨hl, -, hk⟩ := hw.files d h.1
  refine ⟨hl, h.2.1, fun k hh => ?_⟩
  rw [hk k hh .key (Or.inl rfl)]
  exact h.2.2 k hh

/-- **A new key is what its directory holds then.** -/
theorem sound_createStoreKey (dir : String) (hfits : Fits home d (some (dirOf dir)))
    (hw : Holding home i d (fun _ key _ => key = none) w) :
    Sound exec (outline home files dirOf) i (Ok fun key _ w => Keyed home i d (some key) w)
      ((createStoreKey dirOf dir).run ()) w := by
  unfold createStoreKey
  refine sound_checked (.createDirAll _) (fun r => r) _ (fun _ => Holding home i d fun _ key _ => key = none)
    (fun _ _ => stable_holding) ?_ hw fun _ w₁ h₁ => ?_
  · intro w' hinv h
    refine ⟨pre_free rfl (by simp) (by simp), fun o => ?_⟩
    rw [createDirAll_world]
    exact ⟨allows_refl hinv, fun _ _ => h⟩
  refine sound_answered (.fillBytes 32) _ (fun _ => Holding home i d fun _ key _ => key = none)
    (fun _ _ => stable_holding) ?_ h₁ fun key w₂ h₂ => ?_
  · exact fun w' hinv h => ⟨pre_free rfl (by simp) (by simp), fun o => ⟨allows_refl hinv, h⟩⟩
  refine sound_checked (.write _ .keyTmp key.val) (fun r => r) _
    (fun _ => Holding home i d fun _ old tmp => old = none ∧ ∃ f, tmp = some f ∧ f.bytes = key.val)
    (fun _ _ => stable_holding) ?_ h₂ fun _ w₃ h₃ => ?_
  · intro w' hinv h
    refine ⟨pre_free rfl (by simp) (by simp), fun o => ?_⟩
    have hown : Owns home i w' (dirOf dir) .keyTmp := hfits.owns h.1 (Or.inr rfl)
    rcases write_cases i w' (dirOf dir) .keyTmp o key.val with
      ⟨e, hx⟩ | ⟨e, f, hx⟩ | ⟨f, hf, hx⟩
    · rw [hx]
      exact ⟨allows_refl hinv, by rintro _ ⟨⟩⟩
    · rw [hx]
      exact ⟨allows_put hinv hown (by simp) _, by rintro _ ⟨⟩⟩
    · rw [hx]
      exact ⟨allows_put hinv hown (by simp) _,
        fun _ _ => holding_put hfits h fun _ _ hkey => ⟨hkey, f, rfl, hf⟩⟩
  refine sound_checked (.setPermissions _ .keyTmp 0o600) (fun r => r) _
    (fun _ => Holding home i d fun _ old tmp => old = none ∧
      ∃ f, tmp = some f ∧ f.bytes = key.val ∧ f.mode = 0o600)
    (fun _ _ => stable_holding) ?_ h₃ fun _ w₄ h₄ => ?_
  · intro w' hinv h
    refine ⟨pre_free rfl (by simp) (by simp), fun o => ?_⟩
    rcases setPermissions_cases i w' (dirOf dir) .keyTmp o 0o600 with ⟨e, hx⟩ | ⟨f, hfile, hx⟩
    · rw [hx]
      exact ⟨allows_refl hinv, by rintro _ ⟨⟩⟩
    · rw [hx]
      refine ⟨allows_put hinv (hfits.owns h.1 (Or.inr rfl)) (by simp) _, fun _ _ => ⟨h.1, fun k' hk' => ?_⟩⟩
      obtain rfl := Option.some.inj (hfits.same _ hk')
      obtain ⟨hnone, f', hf', hbytes⟩ := h.2 _ hk'
      rw [hfile] at hf'
      obtain rfl := Option.some.inj hf'
      rw [put_self, put_other _ (by simp)]
      exact ⟨hnone, _, rfl, hbytes, rfl⟩
  refine sound_checked (.rename _ .keyTmp .key) (fun r => r) _ (fun _ => Keyed home i d (some key))
    (fun _ _ => stable_holding) ?_ h₄ fun _ w₅ h₅ => ok_ok h₅
  intro w' hinv h
  refine ⟨pre_free rfl (by simp) (by simp), fun o => ?_⟩
  rcases rename_cases i w' (dirOf dir) .keyTmp o .key with
    ⟨e, hx⟩ | ⟨f, hfile, hx⟩
  · rw [hx]
    exact ⟨allows_refl hinv, by rintro _ ⟨⟩⟩
  · rw [hx]
    have hf : ∀ k', home d = some (some k') → f.bytes = key.val ∧ f.mode = 0o600 := by
      intro k' hk'
      obtain rfl := Option.some.inj (hfits.same _ hk')
      obtain ⟨-, f', hf', hrest⟩ := h.2 _ hk'
      rw [hfile] at hf'
      obtain rfl := Option.some.inj hf'
      exact hrest
    rw [publish_other f (by simp)]
    refine ⟨allows_install hinv hfits ⟨h.1, fun k' hk' => (h.2 k' hk').1⟩ fun k' hk' => ?_, fun _ _ =>
      ⟨h.1, fun hnone => ?_, fun k' hk' => ?_⟩⟩
    · obtain ⟨hbytes, hmode⟩ := hf k' hk'
      rw [hbytes]
      exact ⟨key.property, hmode⟩
    · cases hfits.same _ hnone
    · obtain rfl := Option.some.inj (hfits.same _ hk')
      refine ⟨f, key, ?_, rfl, (hf _ hk').1.symm⟩
      rw [put_other _ (by simp), put_self]

/-- **`load_or_create_store_key` gives the key of the key directory.** -/
theorem sound_loadOrCreateStoreKey (keyDir : Option String) (hfits : Fits home d ((keyDirOf keyDir).map dirOf))
    (hw : Locked i d w) :
    Sound exec (outline home files dirOf) i (Ok fun key _ w => Keyed home i d key w)
      ((loadOrCreateStoreKey dirOf keyDir).run ()) w := by
  unfold loadOrCreateStoreKey
  rcases hdir : keyDirOf keyDir with _ | dir
  · rw [hdir] at hfits
    refine ok_ok ⟨hw, fun _ => rfl, fun k hk => ?_⟩
    cases hfits.same _ hk
  rw [hdir] at hfits
  refine sound_answered (.read _ .key) (Locked i d)
    (fun r => Holding home i d fun _ key _ =>
      (∀ bytes, r = .ok bytes → ∃ f, key = some f ∧ f.bytes = bytes) ∧
      ∀ e, r = .error e → e.kind = .notFound → key = none)
    (fun _ _ => stable_locked) ?_ hw fun r w₁ h₁ => ?_
  · intro w' hinv hl
    refine ⟨pre_free rfl (by simp) (by simp), fun o => ?_⟩
    have hhold : ∀ P : Option File → Prop, P (w'.files (dirOf dir) .key) →
        Holding home i d (fun _ key _ => P key) w' := by
      refine fun P hP => ⟨hl, fun k hk => ?_⟩
      obtain rfl : dirOf dir = k := Option.some.inj (hfits.same _ hk)
      exact hP
    rcases read_cases i w' (dirOf dir) .key o with
      ⟨text, hx⟩ | ⟨hfile, hx⟩ | ⟨f, hfile, hx⟩
    · rw [hx]
      refine ⟨allows_refl hinv, hhold _ ⟨by rintro _ ⟨⟩, ?_⟩⟩
      rintro _ ⟨⟩ hkind
      cases hkind
    · rw [hx]
      refine ⟨allows_refl hinv, hhold _ ⟨by rintro _ ⟨⟩, fun _ _ _ => hfile⟩⟩
    · rw [hx]
      refine ⟨allows_refl hinv, hhold _ ⟨?_, by rintro _ ⟨⟩⟩⟩
      rintro _ ⟨⟩
      exact ⟨f, hfile, rfl⟩
  rcases r with e | bytes
  · dsimp only
    split_ifs with hkind
    · refine sound_then (I := fun key _ w => Keyed home i d (some key) w)
        (sound_createStoreKey dir hfits ⟨h₁.1, fun k hk => (h₁.2 k hk).2 e rfl hkind⟩) fun key _ w₂ h₂ => ?_
      exact ok_ok h₂
    · exact ok_error _ _ _
  · dsimp only
    split_ifs with hlen
    · refine ok_ok ⟨h₁.1, fun hnone => ?_, fun k hk => ?_⟩
      · cases hfits.same _ hnone
      · obtain ⟨f, hfile, hbytes⟩ := (h₁.2 k hk).1 bytes rfl
        exact ⟨f, ⟨bytes, hlen⟩, hfile, rfl, hbytes.symm⟩
    · exact ok_error _ _ _

/-- **The store is opened with that key.** -/
theorem sound_openStore (dir : String) (key : Option Key) (hw : Keyed home i (dirOf dir) key w) :
    Sound exec (outline home files dirOf) i (Ok fun _ _ w => Locked i (dirOf dir) w)
      ((openStore dirOf dir key).run ()) w := by
  unfold openStore
  refine sound_answered (.openStore _ key) _ (fun _ => Locked i (dirOf dir))
    (fun _ _ => stable_keyed) ?_ hw ?_
  · intro w' hinv h
    refine ⟨pre_locked (fun _ h => (Option.some.inj h).symm) h.1 (by simp) (by simp), fun o => ⟨?_, h.1⟩⟩
    refine ⟨⟨hinv.fresh, hinv.kept, fun d' key' hopen => ?_⟩,
      fun j _ => ⟨fun d hd => ⟨hd, fun _ _ => rfl, fun _ _ _ _ => rfl⟩, fun _ hp => hp, fun _ _ hf => hf⟩⟩
    rcases List.mem_append.mp hopen with hopen | hopen
    · exact hinv.stores d' key' hopen
    · obtain ⟨rfl, rfl⟩ := Prod.mk.inj (List.mem_singleton.mp hopen)
      exact h.2
  · rintro (e | ⟨⟩) w' h
    · exact ok_error _ _ _
    · exact ok_ok h

/-! #### The port file -/

omit [DecidableEq δ] in
/-- A change of a port file by who has the lock. -/
theorem owns_port (hl : w.locked d = some i) {n : Name} (hn : n = .port ∨ n = .portTmp) :
    Owns home i w d n :=
  ⟨fun _ => hl, by rcases hn with rfl | rfl <;> simp⟩

/-- **`listen` leaves the port file with where it listens.** -/
theorem sound_listen (dir : String) (hw : Locked i (dirOf dir) w) :
    Sound exec (outline home files dirOf) i (Ok fun sh _ w => Found dirOf i sh w ∧ Own dirOf i sh w)
      ((listen dirOf dir).run ()) w := by
  unfold Instances.listen
  refine sound_checked .bind (fun r => r) _
    (fun p => Listening i (dirOf dir) p fun _ _ => True) (fun _ _ => stable_locked) ?_ hw fun p w₁ h₁ => ?_
  · intro w' hinv hl
    refine ⟨pre_free rfl (by simp) (by simp), fun o => ?_⟩
    rcases bind_cases i w' o with ⟨e, hx⟩ | ⟨p, hfree, hx⟩
    · rw [hx]
      exact ⟨allows_refl hinv, by rintro _ ⟨⟩⟩
    · rw [hx]
      refine ⟨⟨⟨hinv.fresh, hinv.kept, hinv.stores⟩, fun j _ => ⟨fun d hd => ⟨hd, fun _ _ => rfl, fun _ _ _ _ => rfl⟩,
        fun q hq => ?_, fun _ _ hf => hf⟩⟩, ?_⟩
      · have hne : q ≠ p := by
          rintro rfl
          rw [hfree] at hq
          cases hq
        simpa [hne] using hq
      · rintro _ ⟨⟩
        exact ⟨hl, by simp, trivial⟩
  refine sound_answered (.fillBytes 24) _ (fun _ => Listening i (dirOf dir) p fun _ _ => True)
    (fun _ _ => stable_listening) ?_ h₁ fun drawn w₂ h₂ => ?_
  · exact fun w' hinv h => ⟨pre_free rfl (by simp) (by simp), fun o => ⟨allows_refl hinv, h⟩⟩
  set token := randomToken drawn.val with htoken
  have hread : readPortFile (utf8 (portFile p token)) = some (p.toNat, token.toList) := by
    refine readPortFile_randomToken fun hnil => ?_
    have hlen := drawn.property
    rw [hnil] at hlen
    cases hlen
  refine sound_checked (.write _ .portTmp (utf8 (portFile p token))) (fun r => r) _
    (fun _ => Listening i (dirOf dir) p fun _ tmp => ∃ f, tmp = some f ∧ f.bytes = utf8 (portFile p token))
    (fun _ _ => stable_listening) ?_ h₂ fun _ w₃ h₃ => ?_
  · intro w' hinv h
    refine ⟨pre_locked (fun _ h => (Option.some.inj h).symm) h.1 (by simp) (by simp), fun o => ?_⟩
    have hown : Owns home i w' (dirOf dir) .portTmp := owns_port h.1 (Or.inr rfl)
    rcases write_cases i w' (dirOf dir) .portTmp o (utf8 (portFile p token)) with ⟨e, hx⟩ | ⟨e, f, hx⟩ | ⟨f, hf, hx⟩
    · rw [hx]
      exact ⟨allows_refl hinv, by rintro _ ⟨⟩⟩
    · rw [hx]
      exact ⟨allows_put hinv hown (by simp) _, by rintro _ ⟨⟩⟩
    · rw [hx]
      exact ⟨allows_put hinv hown (by simp) _, fun _ _ => ⟨h.1, h.2.1, f, put_self _, hf⟩⟩
  refine sound_checked (.setPermissions _ .portTmp 0o600) (fun r => r) _
    (fun _ => Listening i (dirOf dir) p fun _ tmp =>
      ∃ f, tmp = some f ∧ f.bytes = utf8 (portFile p token) ∧ f.mode = 0o600)
    (fun _ _ => stable_listening) ?_ h₃ fun _ w₄ h₄ => ?_
  · intro w' hinv h
    refine ⟨pre_free rfl (by simp) (by simp), fun o => ?_⟩
    rcases setPermissions_cases i w' (dirOf dir) .portTmp o 0o600 with ⟨e, hx⟩ | ⟨f, hfile, hx⟩
    · rw [hx]
      exact ⟨allows_refl hinv, by rintro _ ⟨⟩⟩
    · rw [hx]
      refine ⟨allows_put hinv (owns_port h.1 (Or.inr rfl)) (by simp) _, fun _ _ => ⟨h.1, h.2.1, ?_⟩⟩
      obtain ⟨f', hf', hbytes⟩ := h.2.2
      rw [hfile] at hf'
      obtain rfl := Option.some.inj hf'
      exact ⟨_, put_self _, hbytes, rfl⟩
  refine sound_checked (.rename _ .portTmp .port) (fun r => r) _
    (fun _ w => Found dirOf i ⟨dir, p, token⟩ w ∧ Own dirOf i ⟨dir, p, token⟩ w)
    (fun _ _ => stable_listening) ?_ h₄ fun _ w₅ h₅ => ok_ok h₅
  intro w' hinv h
  refine ⟨pre_locked (fun _ h => (Option.some.inj h).symm) h.1 (by simp) (by simp), fun o => ?_⟩
  rcases rename_cases i w' (dirOf dir) .portTmp o .port with
    ⟨e, hx⟩ | ⟨f, hfile, hx⟩
  · rw [hx]
    exact ⟨allows_refl hinv, by rintro _ ⟨⟩⟩
  · rw [hx]
    obtain ⟨f', hf', hbytes, hmode⟩ := h.2.2
    rw [hfile] at hf'
    obtain rfl := Option.some.inj hf'
    have hput : (outline home files dirOf).Allows i w' (w'.put (dirOf dir) .port (some f)) :=
      allows_put hinv (owns_port h.1 (Or.inl rfl)) (by simp) (some f)
    have hmoved := hput.trans (allows_put hput.1 (owns_port h.1 (Or.inr rfl)) (by simp) none)
    have hport : ((w'.put (dirOf dir) .port (some f)).put (dirOf dir) .portTmp none).files (dirOf dir) .port =
        some f := by rw [put_other _ (by simp), put_self]
    refine ⟨hmoved.trans (allows_publish hmoved.1 f), fun _ _ => ⟨⟨h.1, h.2.1, f, hport, hmode, hbytes, ?_⟩,
      h.1, f, hport, hbytes, ?_, w'.listening, List.mem_append_right _ List.mem_cons_self, h.2.1⟩⟩
    · rw [hbytes]
      exact hread
    · rw [hbytes]
      exact portOf_portFile

omit [DecidableEq δ] in
theorem stable_found {sh : Shared} {w' : World δ} (h : Found dirOf i sh w) (hw : Rely home i w w') :
    Found dirOf i sh w' :=
  let hold : Listening i (dirOf sh.dataDir) sh.port (fun port _ => ∃ f, port = some f ∧ f.mode = 0o600 ∧
      f.bytes = utf8 (portFile sh.port sh.token) ∧
      readPortFile f.bytes = some (sh.port.toNat, sh.token.toList)) w := h
  stable_listening hold hw

omit [DecidableEq δ] in
theorem stable_own {sh : Shared} {w' : World δ} (h : Own dirOf i sh w) (hw : Rely home i w w') :
    Own dirOf i sh w' := by
  obtain ⟨hlocked, f, hfile, hbytes, hread, listening, hmem, hlistened⟩ := h
  obtain ⟨hlocked', hport, -⟩ := hw.files _ hlocked
  exact ⟨hlocked', f, (hport .port (Or.inl rfl)).trans hfile, hbytes, hread, listening,
    hw.published _ rfl hmem, hlistened⟩

/-- **`remove_own_port_file` finds its own file**, after its listener is closed. -/
theorem sound_removeOwnPortFile (sh : Shared) (hw : Own dirOf i sh w) :
    Sound exec (outline home files dirOf) i (Ok fun _ _ _ => True) ((removeOwnPortFile dirOf sh).run ()) w := by
  unfold removeOwnPortFile
  refine sound_answered (.read _ .port) _ (fun _ => Own dirOf i sh) (fun _ _ => stable_own) ?_ hw
    fun r w₁ h₁ => ?_
  · intro w' hinv h
    refine ⟨pre_free rfl (by simp) (by simp), fun o => ?_⟩
    rcases read_cases i w' (dirOf sh.dataDir) .port o with ⟨text, hx⟩ | ⟨hfile, hx⟩ | ⟨f, hfile, hx⟩
    · rw [hx]
      exact ⟨allows_refl hinv, h⟩
    · rw [hx]
      exact ⟨allows_refl hinv, h⟩
    · rw [hx]
      exact ⟨allows_refl hinv, h⟩
  rcases r with e | body
  · exact ok_ok trivial
  · dsimp only
    split_ifs
    · refine sound_answered (.removeFile _ .port) _ (fun _ _ => True) (fun _ _ => stable_own) ?_ h₁
        fun _ _ _ => ok_ok trivial
      intro w' hinv h
      have hl : w'.locked (dirOf sh.dataDir) = some i := h.1
      refine ⟨⟨fun d hd => by rw [← Option.some.inj hd]; exact hl, by simp, ?_⟩, fun o => ⟨?_, trivial⟩⟩
      · rintro d ⟨⟩
        obtain ⟨-, f, hfile, hinstalled⟩ := h
        exact ⟨f, sh.port, sh.token, hfile, hinstalled⟩
      · rcases removeFile_cases i w' (dirOf sh.dataDir) .port o with hx | hx
        · rw [hx]
          exact allows_refl hinv
        · rw [hx]
          exact allows_put hinv (owns_port hl (Or.inl rfl)) (by simp) none
    · exact ok_ok trivial

/-! #### The whole -/

theorem sound_serveIn (dir : String) (keyDir : Option String) (reset : Bool)
    (hfits : Fits home (dirOf dir) ((keyDirOf keyDir).map dirOf)) :
    Sound exec (outline home files dirOf) i (Ok fun _ _ _ => True)
      ((serveIn dirOf dir keyDir reset).run ()) w := by
  unfold serveIn
  refine sound_checked (.createDirAll _) (fun r => r) (fun _ => True) (fun _ _ => True)
    (fun _ _ h _ => h) ?_ trivial fun _ w₁ _ => ?_
  · intro w' hinv _
    refine ⟨pre_free rfl (by simp) (by simp), fun o => ?_⟩
    rw [createDirAll_world]
    exact ⟨allows_refl hinv, fun _ _ => trivial⟩
  refine sound_then (sound_takeLock dir) fun _ _ w₂ h₂ => ?_
  refine sound_then (I := fun _ _ w => Locked i (dirOf dir) w) ?_ fun _ _ w₃ h₃ => ?_
  · split_ifs
    · exact sound_resetStore dir h₂
    · exact ok_ok h₂
  refine sound_then (sound_loadOrCreateStoreKey keyDir hfits h₃) fun key _ w₄ h₄ => ?_
  refine sound_then (sound_openStore dir key h₄) fun _ _ w₅ h₅ => ?_
  refine sound_then (sound_listen dir h₅) fun sh _ w₆ h₆ => ?_
  have hstable : ∀ w w', Found dirOf i sh w ∧ Own dirOf i sh w → Rely home i w w' →
      Found dirOf i sh w' ∧ Own dirOf i sh w' :=
    fun w w' h hw => ⟨stable_found h.1 hw, stable_own h.2 hw⟩
  refine sound_checked .spawn (fun r => r) _ (fun _ w => Found dirOf i sh w ∧ Own dirOf i sh w) hstable ?_ h₆
    fun _ w₇ h₇ => ?_
  · intro w' hinv h
    refine ⟨pre_free rfl (by simp) (by simp), fun o => ?_⟩
    rw [spawn_world]
    exact ⟨allows_refl hinv, fun _ _ => h⟩
  refine sound_answered (.serve sh) _ (fun _ => Own dirOf i sh) hstable ?_ h₇
    fun _ w₈ h₈ => sound_removeOwnPortFile sh h₈
  intro w' hinv h
  refine ⟨⟨by simp [touches], ?_, by simp⟩, fun o => ⟨allows_close hinv sh.port, h.2⟩⟩
  rintro _ ⟨⟩
  exact h.1

end Parts

/-! ### Every run -/

section Runs
variable {home : δ → Option (Option δ)} {files : δ → Name → Option File} {dirOf : String → δ}

/-- The arguments fit, if they name a data directory. -/
def FitArgs (home : δ → Option (Option δ)) (dirOf : String → δ) (args : List String) : Prop :=
  ∀ o dir, parseArgs ⟨none, none, false⟩ args = .ok (some o) → o.dataDir = some dir →
    Fits home (dirOf dir) ((keyDirOf o.keyDir).map dirOf)

theorem sound_task {args : List String} (hfits : FitArgs home dirOf args) (i : ℕ) (w : World δ) :
    Sound exec (outline home files dirOf) i (fun _ _ => True) (task dirOf args) w := by
  unfold task Instances.run
  rcases hparse : parseArgs ⟨none, none, false⟩ args with e | _ | o
  · trivial
  · trivial
  · rcases hdir : o.dataDir with _ | dir
    · dsimp only
      rw [hdir]
      trivial
    · dsimp only
      rw [hdir]
      exact (sound_serveIn dir o.keyDir o.resetStore (hfits o dir hparse hdir)).mono fun _ _ _ => trivial

/-- **In every run the processes are where their programs are sound.** -/
theorem good_runs {happenings : List Happening}
    (hstarts : ∀ i args, Happening.start i args ∈ happenings → FitArgs home dirOf args) :
    (runs dirOf files happenings).Good exec (outline home files dirOf) := by
  have hboot : (boot ⟨files, fun _ => none, fun _ => none, [], []⟩ :
      Fleet (World δ) (Call δ) Reply (Except String Unit × Unit)).Good exec (outline home files dirOf) := by
    refine ⟨⟨fun d k _ h0 f hf => ?_, fun _ _ _ _ hf => hf, fun d key h => absurd h List.not_mem_nil⟩,
      fun i p hp => ?_⟩
    · have hf' : files k .key = some f := hf
      rw [h0] at hf'
      cases hf'
    · cases hp
  refine hboot.runs (P := fun p => ∃ args, FitArgs home dirOf args ∧ p = task dirOf args)
    (fun i w hinv => allows_die hinv) ?_ ?_
  · rintro i p w ⟨args, hfits, rfl⟩ -
    exact sound_task hfits i w
  · intro i p hp
    obtain ⟨happening, hmem, heq⟩ := List.mem_map.mp hp
    rcases happening with ⟨j, args⟩ | ⟨j, o⟩ | j
    · injection heq with hj hp
      exact ⟨args, hstarts j args hmem, hp.symm⟩
    · cases heq
    · cases heq

omit [DecidableEq δ] in
/-- Nothing is asked of the arguments where no key directory is known. -/
theorem fitArgs_unknown (args : List String) : FitArgs (fun _ : δ => none) dirOf args :=
  fun _ _ _ _ => ⟨by rintro _ ⟨⟩, by rintro _ _ _ ⟨⟩⟩

theorem good_runs_any (happenings : List Happening) :
    (runs dirOf files happenings).Good exec (outline (fun _ => none) files dirOf) :=
  good_runs fun _ args _ => fitArgs_unknown args

/-- Every data directory has a key directory of its own, or none, and is always started with it. -/
theorem good_runs_own {home : δ → Option δ} (hown : ∀ d d' k, home d = some k → home d' = some k → d = d')
    {happenings : List Happening}
    (hstarts : ∀ i args o dir, Happening.start i args ∈ happenings →
      parseArgs ⟨none, none, false⟩ args = .ok (some o) → o.dataDir = some dir →
      (keyDirOf o.keyDir).map dirOf = home (dirOf dir)) :
    (runs dirOf files happenings).Good exec (outline (fun d => some (home d)) files dirOf) := by
  refine good_runs fun i args hmem o dir hparse hdir => ⟨fun h heq => ?_, fun k hk d' hd' => ?_⟩
  · rw [← Option.some.inj heq]
    exact hstarts i args o dir hmem hparse hdir
  · rw [hstarts i args o dir hmem hparse hdir] at hk
    exact hown d' _ k (Option.some.inj hd') hk

/-- **A daemon that serves is found**: in every run of any number of daemons with any arguments, whatever
fails and whoever is killed, the port file of its data directory names its port and its token, and it
listens there. -/
theorem found_serving {happenings : List Happening} {i : ℕ} {sh : Shared}
    {next : Unit → Rest δ} (h : (runs dirOf files happenings).procs i = some (.act (.serve sh) next)) :
    Found dirOf i sh (runs dirOf files happenings).world :=
  ((good_runs_any happenings).pre h).2.1 sh rfl

/-- A call that goes well. -/
def wentWell : Outcome := ⟨none, none, 0o644, fun _ => 7, 4000⟩

/-- A daemon is killed when it has written its temporary key; another one serves, and a third is turned
away. -/
def killedOnce : List Happening :=
  [.start 1 ["--data-dir", "/d"]] ++ List.replicate 7 (.step 1 wentWell) ++ [.die 1] ++
    [.start 2 ["--data-dir", "/d"], .start 3 ["--data-dir", "/d", "--reset-store"]] ++
    List.replicate 9 (.step 2 wentWell) ++ List.replicate 3 (.step 3 wentWell) ++
    List.replicate 7 (.step 2 wentWell)

def emptyDisk : String → Name → Option File := fun _ _ => none

theorem found_serving_killedOnce :
    Found id 2 ⟨"/d", 4000, randomToken (List.replicate 24 7)⟩ (runs id emptyDisk killedOnce).world :=
  found_serving rfl

/-- A call that only one process at a time may be about to make for a data directory. -/
def Works (dirOf : String → δ) (c : Call δ) (d : δ) : Prop :=
  touches c = some d ∨ ∃ sh, c = .serve sh ∧ dirOf sh.dataDir = d

/-- **One at a time**: of two processes that are about to touch the store or the port file of one data
directory, or serve there, there is one; and a port file is only removed by who installed it, with the port
it listened on. -/
theorem one_at_a_time {happenings : List Happening} {i : ℕ} {c : Call δ} {next : Reply c → Rest δ}
    (h : (runs dirOf files happenings).procs i = some (.act c next)) :
    (∀ d j c' next', Works dirOf c d → (runs dirOf files happenings).procs j = some (.act c' next') →
      Works dirOf c' d → j = i) ∧
    ∀ d, c = .removeFile d .port → ∃ f p token, (runs dirOf files happenings).world.files d .port = some f ∧
      Installed i d f p token (runs dirOf files happenings).world := by
  have hgood : (runs dirOf files happenings).Good exec (outline (fun _ => none) files dirOf) :=
    good_runs_any happenings
  have hlock : ∀ {j c next d}, (runs dirOf files happenings).procs j = some (.act c next) →
      Works dirOf c d → (runs dirOf files happenings).world.locked d = some j := by
    intro j c next d hj hc
    obtain ⟨htouch, hserve, -⟩ := hgood.pre hj
    rcases hc with hc | ⟨sh, rfl, rfl⟩
    · exact htouch d hc
    · exact (hserve sh rfl).1
  refine ⟨fun d j c' next' hc hj hc' => ?_, (hgood.pre h).2.2⟩
  exact Option.some.inj ((hlock hj hc').symm.trans (hlock h hc))

/-- The one process that works for `/d`; and when it is stopped, its listener closed, it removes the port
file it installed. -/
theorem one_at_a_time_killedOnce : (∃! j, ∃ c next,
    (runs id emptyDisk (killedOnce.take 23)).procs j = some (.act c next) ∧ Works id c "/d") ∧
    (runs id emptyDisk (killedOnce ++ List.replicate 2 (.step 2 wentWell))).world.listening 4000 = none ∧
    ∃ f p token, (runs id emptyDisk (killedOnce ++ List.replicate 2 (.step 2 wentWell))).world.files "/d" .port =
      some f ∧ Installed 2 "/d" f p token
        (runs id emptyDisk (killedOnce ++ List.replicate 2 (.step 2 wentWell))).world := by
  have h : (runs id emptyDisk (killedOnce.take 23)).procs 2 =
      some (.act (.openStore "/d" (some ⟨List.replicate 32 7, List.length_replicate⟩)) _) := rfl
  have hremove : (runs id emptyDisk (killedOnce ++ List.replicate 2 (.step 2 wentWell))).procs 2 =
      some (.act (.removeFile "/d" .port) _) := rfl
  refine ⟨⟨2, ⟨_, _, h, Or.inl rfl⟩, ?_⟩, rfl, (one_at_a_time hremove).2 "/d" rfl⟩
  rintro j ⟨c, next, hj, hc⟩
  exact (one_at_a_time h).1 "/d" j c next (Or.inl rfl) hj hc

/-- **One key to a store**: where every data directory has a key directory of its own, or none, and is
always started with it, a store is opened with one key in all of the run, the one its key directory
holds. A key that was there stays, and one that was made is whole and private from the moment it is
there. -/
theorem one_key {home : δ → Option δ} (hown : ∀ d d' k, home d = some k → home d' = some k → d = d')
    {happenings : List Happening}
    (hstarts : ∀ i args o dir, Happening.start i args ∈ happenings →
      parseArgs ⟨none, none, false⟩ args = .ok (some o) → o.dataDir = some dir →
      (keyDirOf o.keyDir).map dirOf = home (dirOf dir)) :
    (∀ d key key', (d, key) ∈ (runs dirOf files happenings).world.opened →
      (d, key') ∈ (runs dirOf files happenings).world.opened → key = key') ∧
    (∀ d k key, home d = some k → (d, key) ∈ (runs dirOf files happenings).world.opened →
      ∃ f key', (runs dirOf files happenings).world.files k .key = some f ∧ key = some key' ∧
        key'.val = f.bytes) ∧
    (∀ d k f, home d = some k → files k .key = some f →
      (runs dirOf files happenings).world.files k .key = some f) ∧
    ∀ d k f, home d = some k → files k .key = none →
      (runs dirOf files happenings).world.files k .key = some f → f.bytes.length = 32 ∧ f.mode = 0o600 := by
  have hgood : (runs dirOf files happenings).Good exec (outline (fun d => some (home d)) files dirOf) :=
    good_runs_own hown hstarts
  have hstores := hgood.inv.stores
  refine ⟨fun d key key' hk hk' => ?_, fun d k key hd hk => (hstores d key hk).2 k (congrArg some hd),
    fun d k f hd hf => hgood.inv.kept d k (congrArg some hd) f hf,
    fun d k f hd h0 hf => hgood.inv.fresh d k (congrArg some hd) h0 f hf⟩
  rcases hd : home d with _ | k
  · rw [(hstores d key hk).1 (congrArg some hd), (hstores d key' hk').1 (congrArg some hd)]
  · obtain ⟨f, a, hfile, rfl, ha⟩ := (hstores d key hk).2 k (congrArg some hd)
    obtain ⟨f', a', hfile', rfl, ha'⟩ := (hstores d key' hk').2 k (congrArg some hd)
    rw [hfile] at hfile'
    obtain rfl := Option.some.inj hfile'
    exact congrArg some (Subtype.ext (ha.trans ha'.symm))

/-- The key of `/d` is in the default directory. -/
def homeOfD (d : String) : Option String := if d = "/d" then some defaultKeyDir else none

theorem homeOfD_own (d d' k : String) (h : homeOfD d = some k) (h' : homeOfD d' = some k) : d = d' := by
  unfold homeOfD at h h'
  split_ifs at h h' with hd hd'
  exact hd.trans hd'.symm

theorem homeOfD_starts (i : ℕ) (args : List String) (o : Options) (dir : String)
    (hmem : Happening.start i args ∈ killedOnce)
    (hparse : parseArgs ⟨none, none, false⟩ args = .ok (some o)) (hdir : o.dataDir = some dir) :
    (keyDirOf o.keyDir).map id = homeOfD dir := by
  have hplain : parseArgs ⟨none, none, false⟩ ["--data-dir", "/d"] = .ok (some ⟨some "/d", none, false⟩) := rfl
  have hreset : parseArgs ⟨none, none, false⟩ ["--data-dir", "/d", "--reset-store"] =
      .ok (some ⟨some "/d", none, true⟩) := rfl
  simp only [killedOnce, List.mem_append, List.mem_cons, List.mem_replicate, reduceCtorEq, and_false,
    List.not_mem_nil, or_false, Happening.start.injEq] at hmem
  rcases hmem with ⟨-, rfl⟩ | ⟨-, rfl⟩ | ⟨-, rfl⟩
  · cases hplain.symm.trans hparse
    cases hdir
    rfl
  · cases hplain.symm.trans hparse
    cases hdir
    rfl
  · cases hreset.symm.trans hparse
    cases hdir
    rfl

theorem one_key_killedOnce : ∃ f, (runs id emptyDisk killedOnce).world.files defaultKeyDir .key = some f ∧
    f.bytes.length = 32 ∧ f.mode = 0o600 := by
  have hthere : (runs id emptyDisk killedOnce).world.files defaultKeyDir .key =
      some ⟨List.replicate 32 7, 0o600⟩ := rfl
  exact ⟨_, hthere, (one_key homeOfD_own homeOfD_starts).2.2.2 "/d" defaultKeyDir _ rfl rfl hthere⟩

end Runs

end Kmatrix.Daemon.Exclusive
