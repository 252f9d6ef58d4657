import Kmatrix.Daemon.Exclusive

/-! # A daemon can be started again

Nothing a daemon leaves behind, wherever it was killed, keeps the next one from starting: the kernel has
taken back lock and port, the key is absent or whole, and what lies about in temporary files is written
over. So after any run, once every process is gone, a start in which no call fails comes to serve
(`start_serves`). -/

namespace Kmatrix.Daemon.Startable

open Kmatrix.Daemon.Exclusive
open Kmatrix.Daemon.Instances
open Kmatrix.Lib.Crash (Prog Act Safe)
open Kmatrix.Lib.Processes

variable {δ : Type} [DecidableEq δ]

/-! ### What is held dies with its process -/

/-- Process `j` has something of the kernel's. -/
def Has (w : World δ) (j : ℕ) : Prop := (∃ d, w.locked d = some j) ∨ ∃ p, w.listening p = some j

theorem has_exec (i : ℕ) (o : Outcome) (w : World δ) (c : Call δ) (j : ℕ) (h : Has (exec i o w c).2 j) :
    Has w j ∨ j = i := by
  rcases c with d | d | d | ⟨d, n⟩ | ⟨d, n⟩ | n | ⟨d, n, bytes⟩ | ⟨d, n, mode⟩ | ⟨d, old, new⟩ | ⟨d, key⟩ |
    _ | _ | sh
  · rw [createDirAll_world] at h
    exact Or.inl h
  · rcases openLock_cases i w d o with hx | ⟨f, hx⟩ <;> rw [hx] at h <;> exact Or.inl h
  · rcases flock_cases i w d o with ⟨e, hx⟩ | ⟨-, hx⟩ | ⟨-, hx⟩
    · rw [hx] at h
      exact Or.inl h
    · rw [hx] at h
      exact Or.inl h
    · rw [hx] at h
      rcases h with ⟨d', hd'⟩ | h
      · have hlock : Function.update w.locked d (some i) d' = some j := hd'
        rw [Function.update_apply] at hlock
        split_ifs at hlock
        · exact Or.inr (Option.some.inj hlock).symm
        · exact Or.inl (Or.inl ⟨d', hlock⟩)
      · exact Or.inl (Or.inr h)
  · rcases removeFile_cases i w d n o with hx | hx <;> rw [hx] at h <;> exact Or.inl h
  · rcases read_cases i w d n o with ⟨_, hx⟩ | ⟨-, hx⟩ | ⟨_, -, hx⟩ <;> rw [hx] at h <;> exact Or.inl h
  · exact Or.inl h
  · rcases write_cases i w d n o bytes with ⟨_, hx⟩ | ⟨_, _, hx⟩ | ⟨_, -, hx⟩ <;> rw [hx] at h <;>
      exact Or.inl h
  · rcases setPermissions_cases i w d n o mode with ⟨_, hx⟩ | ⟨_, -, hx⟩ <;> rw [hx] at h <;>
      exact Or.inl h
  · rcases rename_cases i w d old o new with ⟨_, hx⟩ | ⟨_, -, hx⟩ <;> rw [hx] at h <;> exact Or.inl h
  · exact Or.inl h
  · rcases bind_cases i w o with ⟨e, hx⟩ | ⟨p, -, hx⟩
    · rw [hx] at h
      exact Or.inl h
    · rw [hx] at h
      rcases h with h | ⟨p', hp'⟩
      · exact Or.inl (Or.inl h)
      · have hport : Function.update w.listening p (some i) p' = some j := hp'
        rw [Function.update_apply] at hport
        split_ifs at hport
        · exact Or.inr (Option.some.inj hport).symm
        · exact Or.inl (Or.inr ⟨p', hport⟩)
  · rw [spawn_world] at h
    exact Or.inl h
  · rcases h with h | ⟨p, hp⟩
    · exact Or.inl (Or.inl h)
    · have hp' : (if p = sh.port ∧ w.listening p = some i then none else w.listening p) = some j := hp
      split_ifs at hp'
      exact Or.inl (Or.inr ⟨p, hp'⟩)

omit [DecidableEq δ] in
theorem has_die (i : ℕ) (w : World δ) (j : ℕ) (h : Has (w.die i) j) : Has w j ∧ j ≠ i := by
  rcases h with ⟨d, hd⟩ | ⟨p, hp⟩
  · have hd' : (if w.locked d = some i then none else w.locked d) = some j := hd
    split_ifs at hd' with hi
    exact ⟨Or.inl ⟨d, hd'⟩, fun hji => hi (hji ▸ hd')⟩
  · have hp' : (if w.listening p = some i then none else w.listening p) = some j := hp
    split_ifs at hp' with hi
    exact ⟨Or.inr ⟨p, hp'⟩, fun hji => hi (hji ▸ hp')⟩

/-! ### A start in which no call fails -/

/-- An outcome without a failure. -/
abbrev Fine := { o : Outcome // o.fails = none }

def execFine (i : ℕ) (o : Fine) (w : World δ) (c : Call δ) : Reply c × World δ := exec i o.val w c

section Walk
variable {dirOf : String → δ} {i : ℕ} {w : World δ}

/-- **The code succeeds**, and `I` holds where it does. -/
def Succ (i : ℕ) {α : Type} (I : World δ → Prop) (m : Code δ α) (w : World δ) : Prop :=
  Safe (execFine i) (fun _ => True) (fun r w' => ∃ a, r = (.ok a, ()) ∧ I w') (m.run ()) w

theorem succ_pure {α : Type} {I : World δ → Prop} {a : α} (h : I w) : Succ i I (pure a : Code δ α) w :=
  ⟨a, rfl, h⟩

theorem succ_bind {α β : Type} {I J : World δ → Prop} {m : Code δ α} {f : α → Code δ β}
    (hm : Succ i I m w) (hf : ∀ a w', I w' → Succ i J (f a) w') : Succ i J (m >>= f) w := by
  refine Act.safe_bind.mpr (Safe.mono hm ?_)
  rintro _ w' ⟨a, rfl, h⟩
  exact hf a w' h

/-- A call, of which `answer` is what it says where it does not fail. -/
theorem succ_call {α : Type} {c : Call δ} {I J : World δ → Prop} {next : Reply c → Code δ α}
    (hI : I w) (h : ∀ o w', o.fails = none → I w' → Succ i J (next (exec i o w' c).1) (exec i o w' c).2) :
    Succ i J (call c >>= next) w :=
  ⟨trivial, fun o => h o.val w o.property hI⟩

/-- What a start finds: nobody listens, and the key, if there is one, is whole. -/
def Ready (k : Option δ) (w : World δ) : Prop :=
  (∀ p, w.listening p = none) ∧ ∀ d ∈ k, ∀ f, w.files d .key = some f → f.bytes.length = 32

theorem ready_put {k : Option δ} (h : Ready k w) {d : δ} {n : Name} (hn : n ≠ .key) (f : Option File) :
    Ready k (w.put d n f) :=
  ⟨h.1, fun d' hd' f' hf' => by
    rw [put_other f hn.symm] at hf'
    exact h.2 d' hd' f' hf'⟩

theorem succ_takeLock {k : Option δ} (dir : String) (hl : w.locked (dirOf dir) = none) (h : Ready k w) :
    Succ i (Ready k) (takeLock dirOf dir) w := by
  unfold takeLock
  refine succ_call (I := fun w => w.locked (dirOf dir) = none ∧ Ready k w) ⟨hl, h⟩ fun o w₁ ho h₁ => ?_
  simp only [exec, ho]
  refine succ_bind (I := fun w => w.locked (dirOf dir) = none ∧ Ready k w)
    (succ_pure ⟨h₁.1, ready_put h₁.2 (by simp) _⟩) fun _ w₂ h₂ => ?_
  refine succ_call (I := fun w => w.locked (dirOf dir) = none ∧ Ready k w) h₂ fun o w₃ ho h₃ => ?_
  simp only [exec, ho, h₃.1]
  exact succ_pure h₃.2

theorem succ_removeStore {k : Option δ} (dir suffix : String) {n : Name} (hn : n ≠ .key) (h : Ready k w) :
    Succ i (Ready k) (removeStore dirOf dir suffix n) w := by
  unfold removeStore
  refine succ_call h fun o w₁ ho h₁ => ?_
  rcases hfile : w₁.files (dirOf dir) n with _ | f
  · simp only [exec, ho, hfile]
    exact succ_pure h₁
  · simp only [exec, ho, hfile]
    exact succ_pure (ready_put h₁ hn none)

theorem succ_resetStore {k : Option δ} (dir : String) (h : Ready k w) :
    Succ i (Ready k) (resetStore dirOf dir) w := by
  unfold resetStore
  refine succ_bind (succ_removeStore dir "" (by simp) h) fun _ w₁ h₁ => ?_
  refine succ_bind (succ_removeStore dir "-wal" (by simp) h₁) fun _ w₂ h₂ => ?_
  exact succ_removeStore dir "-shm" (by simp) h₂

/-- Nobody listens. -/
def Quiet (w : World δ) : Prop := ∀ p, w.listening p = none

theorem succ_createStoreKey (dir : String) (h : Quiet w) : Succ i Quiet (createStoreKey dirOf dir) w := by
  unfold createStoreKey
  refine succ_call h fun o w₁ ho h₁ => ?_
  simp only [exec, ho]
  refine succ_bind (succ_pure h₁) fun _ w₂ h₂ => succ_call h₂ fun o w₃ ho h₃ => ?_
  refine succ_call h₃ fun o w₄ ho h₄ => ?_
  simp only [exec, ho]
  refine succ_bind (I := fun w => Quiet w ∧ ∃ f, w.files (dirOf dir) .keyTmp = some f)
    (succ_pure ⟨h₄, _, put_self _⟩) fun _ w₅ h₅ => ?_
  refine succ_call (I := fun w => Quiet w ∧ ∃ f, w.files (dirOf dir) .keyTmp = some f) h₅
    fun o w₆ ho h₆ => ?_
  obtain ⟨hq, f, hf⟩ := h₆
  simp only [exec, ho, hf]
  refine succ_bind (I := fun w => Quiet w ∧ ∃ f, w.files (dirOf dir) .keyTmp = some f)
    (succ_pure ⟨hq, _, put_self _⟩) fun _ w₇ h₇ => ?_
  refine succ_call (I := fun w => Quiet w ∧ ∃ f, w.files (dirOf dir) .keyTmp = some f) h₇
    fun o w₈ ho h₈ => ?_
  obtain ⟨hq, f, hf⟩ := h₈
  simp only [exec, ho, hf]
  exact succ_bind (I := Quiet) (succ_pure hq) fun _ w₉ h₉ => succ_pure h₉

theorem succ_loadOrCreateStoreKey (keyDir : Option String) (h : Ready ((keyDirOf keyDir).map dirOf) w) :
    Succ i Quiet (loadOrCreateStoreKey dirOf keyDir) w := by
  unfold loadOrCreateStoreKey
  rcases hdir : keyDirOf keyDir with _ | dir
  · exact succ_pure h.1
  rw [hdir] at h
  refine succ_call h fun o w₁ ho h₁ => ?_
  rcases hfile : w₁.files (dirOf dir) .key with _ | f
  · simp only [exec, ho, hfile]
    exact succ_bind (succ_createStoreKey dir h₁.1) fun _ w₂ h₂ => succ_pure h₂
  · have hlen : f.bytes.length = 32 := h₁.2 (dirOf dir) rfl f hfile
    simp only [exec, ho, hfile]
    rw [dif_pos hlen]
    exact succ_pure h₁.1

theorem succ_openStore (dir : String) (key : Option Kmatrix.Storage.Seal.Key) (h : Quiet w) :
    Succ i Quiet (openStore dirOf dir key) w := by
  unfold openStore
  refine succ_call h fun o w₁ ho h₁ => ?_
  simp only [exec, ho]
  exact succ_pure h₁

theorem succ_listen (dir : String) (h : Quiet w) : Succ i (fun _ => True) (listen dirOf dir) w := by
  unfold Instances.listen
  refine succ_call h fun o w₁ ho h₁ => ?_
  simp only [exec, ho, h₁ o.port]
  refine succ_bind (I := fun _ => True) (succ_pure trivial) fun _ w₂ _ => ?_
  refine succ_call (I := fun _ => True) trivial fun o w₃ ho _ => ?_
  refine succ_call (I := fun _ => True) trivial fun o w₄ ho _ => ?_
  simp only [exec, ho]
  refine succ_bind (I := fun w => ∃ f, w.files (dirOf dir) .portTmp = some f)
    (succ_pure ⟨_, put_self _⟩) fun _ w₅ h₅ => ?_
  refine succ_call (I := fun w => ∃ f, w.files (dirOf dir) .portTmp = some f) h₅ fun o w₆ ho h₆ => ?_
  obtain ⟨f, hf⟩ := h₆
  simp only [exec, ho, hf]
  refine succ_bind (I := fun w => ∃ f, w.files (dirOf dir) .portTmp = some f)
    (succ_pure ⟨_, put_self _⟩) fun _ w₇ h₇ => ?_
  refine succ_call (I := fun w => ∃ f, w.files (dirOf dir) .portTmp = some f) h₇ fun o w₈ ho h₈ => ?_
  obtain ⟨f, hf⟩ := h₈
  simp only [exec, ho, hf]
  exact succ_bind (I := fun _ => True) (succ_pure trivial) fun _ w₉ _ => succ_pure trivial

/-- The daemon serves. -/
def Serves (c : Call δ) : Prop := ∃ sh, c = .serve sh

theorem comes_then {α β : Type} {I : World δ → Prop} {m : Code δ α} {f : α → Code δ β}
    (hm : Succ i I m w) (hf : ∀ a w', I w' → Comes (execFine i) Serves ((f a).run ()) w') :
    Comes (execFine i) Serves ((m >>= f).run ()) w := by
  refine comes_bind (Safe.mono hm ?_)
  rintro _ w' ⟨a, rfl, h⟩
  exact hf a w' h

theorem comes_call {α : Type} {c : Call δ} {next : Reply c → Code δ α}
    (h : ∀ o, o.fails = none →
      Comes (execFine i) Serves ((next (exec i o w c).1).run ()) (exec i o w c).2) :
    Comes (execFine i) Serves ((call c >>= next).run ()) w :=
  Or.inr fun o => h o.val o.property

/-- **`run` comes to serve.** -/
theorem comes_serveIn (dir : String) (keyDir : Option String) (reset : Bool)
    (hl : w.locked (dirOf dir) = none) (h : Ready ((keyDirOf keyDir).map dirOf) w) :
    Comes (execFine i) Serves ((serveIn dirOf dir keyDir reset).run ()) w := by
  unfold serveIn
  refine comes_call fun o ho => ?_
  simp only [exec, ho]
  refine comes_then (I := fun w => w.locked (dirOf dir) = none ∧ Ready ((keyDirOf keyDir).map dirOf) w)
    (succ_pure ⟨hl, h⟩) fun _ w₀ h₀ => ?_
  refine comes_then (succ_takeLock dir h₀.1 h₀.2) fun _ w₁ h₁ => ?_
  refine comes_then (I := Ready ((keyDirOf keyDir).map dirOf)) ?_ fun _ w₂ h₂ => ?_
  · split_ifs
    · exact succ_resetStore dir h₁
    · exact succ_pure h₁
  refine comes_then (succ_loadOrCreateStoreKey keyDir h₂) fun key w₃ h₃ => ?_
  refine comes_then (succ_openStore dir key h₃) fun _ w₄ h₄ => ?_
  refine comes_then (succ_listen dir h₄) fun sh w₅ _ => ?_
  refine comes_call fun o ho => ?_
  simp only [exec, ho]
  exact comes_then (I := fun _ => True) (succ_pure trivial) fun _ w₆ _ => Or.inl ⟨sh, rfl⟩

end Walk

section Runs
variable {files : δ → Name → Option File} {dirOf : String → δ}

/-- **A daemon can be started again**: every data directory has a key directory of its own or none, and
where a key was there at the beginning, it was one. After any run, with calls failing and daemons killed
anywhere, when all processes are gone: a start in which no call fails comes to serve. -/
theorem start_serves {home : δ → Option δ} (hown : ∀ d d' k, home d = some k → home d' = some k → d = d')
    (hkeys : ∀ d k f, home d = some k → files k .key = some f → f.bytes.length = 32)
    {happenings : List Happening}
    (hstarts : ∀ i args o dir, Happening.start i args ∈ happenings →
      parseArgs ⟨none, none, false⟩ args = .ok (some o) → o.dataDir = some dir →
      (keyDirOf o.keyDir).map dirOf = home (dirOf dir))
    (hgone : ∀ j, (runs dirOf files happenings).procs j = none)
    {args : List String} {o : Options} {dir : String}
    (hargs : parseArgs ⟨none, none, false⟩ args = .ok (some o)) (hdir : o.dataDir = some dir)
    (hfits : (keyDirOf o.keyDir).map dirOf = home (dirOf dir)) (i : ℕ) (os : ℕ → Outcome)
    (hos : ∀ n, (os n).fails = none) :
    ∃ n sh next, (runs dirOf files (happenings ++ .start i args ::
      (List.range n).map fun m => .step i (os m))).procs i = some (.act (.serve sh) next) := by
  set f := runs dirOf files happenings with hf
  -- nobody is there, and so nothing is held
  have hheld : ∀ j, ¬ Has f.world j := fun j hj =>
    runs_held has_exec has_die (fun j hj => by rcases hj with ⟨_, hj⟩ | ⟨_, hj⟩ <;> cases hj) _ j hj
      (hgone j)
  have hl : f.world.locked (dirOf dir) = none :=
    Option.eq_none_iff_forall_ne_some.mpr fun j hj => hheld j (Or.inl ⟨_, hj⟩)
  have hgood : (runs dirOf files happenings).Good exec (outline (fun d => some (home d)) files dirOf) :=
    good_runs_own hown hstarts
  have hready : Ready ((keyDirOf o.keyDir).map dirOf) f.world := by
    refine ⟨fun p => Option.eq_none_iff_forall_ne_some.mpr fun j hj => hheld j (Or.inr ⟨p, hj⟩),
      fun k hk file hfile => ?_⟩
    rw [hfits] at hk
    rcases hwas : files k .key with _ | was
    · exact (hgood.inv.fresh _ k (congrArg some hk) hwas file hfile).1
    · have hsame := hgood.inv.kept _ k (congrArg some hk) was hwas
      rw [← hf, hfile] at hsame
      rw [Option.some.inj hsame]
      exact hkeys _ k was hk hwas
  have hcomes : Comes (execFine i) Serves (task dirOf args) f.world := by
    unfold task run
    rw [hargs]
    dsimp only
    rw [hdir]
    exact comes_serveIn dir o.keyDir o.resetStore hl hready
  set g := f.step exec World.die (.start i (task dirOf args)) with hg
  have hstart : g = ⟨f.world, Function.update f.procs i (some (task dirOf args))⟩ := by
    rw [hg]
    simp only [Fleet.step, hgone i]
  have hthere : g.procs i = some (task dirOf args) := by
    rw [hstart]
    exact Function.update_self ..
  have hcomes' : Comes (execFine i) Serves (task dirOf args) g.world := by
    rw [hstart]
    exact hcomes
  obtain ⟨n, c, next, ⟨sh, rfl⟩, hn⟩ :=
    comes_runs exec World.die (fun o => o.fails = none) hthere hcomes' os hos
  refine ⟨n, sh, next, ?_⟩
  unfold runs
  rw [List.map_append, List.map_cons, List.map_map]
  unfold Fleet.runs
  rw [List.foldl_append, List.foldl_cons]
  exact hn

theorem start_serves_killedOnce : ∃ n sh next,
    (runs id emptyDisk ((killedOnce ++ [.die 2, .die 3]) ++ .start 4 ["--data-dir", "/d"] ::
      (List.range n).map fun _ => .step 4 wentWell)).procs 4 = some (.act (.serve sh) next) := by
  have hgone : ∀ j, (runs id emptyDisk (killedOnce ++ [.die 2, .die 3])).procs j = none := by
    intro j
    rcases j with _ | _ | _ | _ | j <;> rfl
  refine start_serves homeOfD_own (fun _ _ _ _ h => by cases h) ?_ hgone rfl rfl rfl 4
    (fun _ => wentWell) fun _ => rfl
  intro i args o dir hmem
  refine homeOfD_starts i args o dir ?_
  simpa using hmem

end Runs

end Kmatrix.Daemon.Startable
