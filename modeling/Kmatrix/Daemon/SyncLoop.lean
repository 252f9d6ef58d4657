import Kmatrix.Lib.Trace
import Mathlib.Algebra.Group.Nat.Defs
import Mathlib.Algebra.Order.Ring.Nat

/-! # The sync loop and its waits

`sync_loop` on its own thread, and what the other threads do to it: they `kick` it, which is a locked
section of its own, and `shutdown` clears `running` and then kicks. `wait_for_kick` takes the lock, and
goes to sleep in the same section unless a kick has left the flag; it wakes when it was notified, when
its time is over, or for no reason. What the pass itself comes to (is anybody logged in, does the sweep
end, does `/sync` answer, does the answer go in) is an input.

* `no_kick_lost`: a wait that lasts its time has had no kick since the wait before it ended; and no kick
  cuts two waits short.
* `wait_after_failures`: how long the loop waits after how many failures.
* `shutdown_ends`: after `shutdown` no wait lasts, and the thread ends. -/

namespace Kmatrix.Daemon.SyncLoop

open Kmatrix.Lib.Trace

/-- **Where the thread is.** A wait knows how long it is, and whether it is one after a failure. -/
inductive Point where
  /-- About to look at `running`. -/
  | top
  | look
  | sweep
  /-- In `sync_once`, before `/sync` has answered. -/
  | poll
  /-- In `process_sync`. -/
  | process
  /-- `sync_once` has failed: about to look at `running`. -/
  | failed
  | report
  /-- In `wait_for_kick`, before it has the lock. -/
  | wait (ms : ℕ) (failed : Bool)
  | asleep (ms : ℕ) (failed : Bool)
  | gone
  deriving DecidableEq, Repr

structure Loop where
  point : Point
  running : Bool
  /-- `wake`. -/
  flag : Bool
  backoff : ℕ
  namesDone : Bool
  deriving DecidableEq, Repr

/-- What the pass comes to, as far as it gets in this step. -/
structure Answers where
  loggedIn : Bool
  /-- What `backfill_room_names` says of its being done; nothing when it fails. -/
  swept : Option Bool
  answered : Bool
  processed : Bool
  /-- The time of the wait is over. -/
  timeout : Bool

inductive Input where
  /-- The thread moves on. -/
  | go (a : Answers)
  | kick
  /-- `running.store(false)`. -/
  | stop

inductive Out where
  | none
  /-- `/sync` is asked. -/
  | polls
  /-- `set_state(Syncing)`. -/
  | syncing
  | synced
  /-- `set_state(Offline)`. -/
  | offline
  | sleeps (ms : ℕ) (failed : Bool)
  /-- A wait ends because of a kick, or does not begin. -/
  | cut
  /-- A wait has lasted its time. -/
  | slept
  | spurious
  | ended
  deriving DecidableEq, Repr

/-- After `wait_for_kick`: the flag is taken, and a failure doubles the next wait. -/
def Loop.waited (s : Loop) (failed : Bool) : Loop :=
  { s with point := .top, flag := false, backoff := if failed then min (s.backoff * 2) 60 else s.backoff }

/-- **One step.** -/
def step (s : Loop) : Input → Loop × Out
  | .kick => ({ s with flag := true }, .none)
  | .stop => ({ s with running := false }, .none)
  | .go a =>
    match s.point with
    | .top => if s.running then ({ s with point := .look }, .none) else ({ s with point := .gone }, .ended)
    | .look =>
      if a.loggedIn then
        if s.namesDone then ({ s with point := .poll }, .polls) else ({ s with point := .sweep }, .none)
      else ({ s with point := .wait 1000 false }, .none)
    | .sweep => ({ s with point := .poll, namesDone := a.swept.getD true }, .polls)
    | .poll =>
      if a.answered then ({ s with point := .process }, .syncing) else ({ s with point := .failed }, .none)
    | .process =>
      if a.processed then ({ s with point := .top, backoff := 1 }, .synced)
      else ({ s with point := .failed }, .none)
    | .failed =>
      if s.running then ({ s with point := .report }, .none) else ({ s with point := .gone }, .ended)
    | .report => ({ s with point := .wait (s.backoff * 1000) true }, .offline)
    | .wait ms failed =>
      if s.flag then (s.waited failed, .cut) else ({ s with point := .asleep ms failed }, .sleeps ms failed)
    | .asleep _ failed =>
      (s.waited failed, if s.flag then .cut else if a.timeout then .slept else .spurious)
    | .gone => (s, .none)

/-- The loop when its thread starts. -/
def start (namesDone : Bool) : Loop := ⟨.top, true, false, 1, namesDone⟩

abbrev Step := Occ Loop Input Out

/-! ### Kicks -/

/-- A wait ends with this step. -/
def Out.endsWait : Out → Bool
  | .cut | .slept | .spurious => true
  | _ => false

/-- There was a kick since a wait ended. -/
def Pending (past : List Step) : Prop :=
  ∃ before k after, past = before ++ k :: after ∧ k.input = .kick ∧ ∀ o ∈ after, o.output.endsWait = false

def Input.isKick : Input → Bool
  | .kick => true
  | _ => false

def kicks (past : List Step) : ℕ := (past.filter fun o => o.input.isKick).length

def cuts (past : List Step) : ℕ := (past.filter fun o => o.output = .cut).length

/-- What the flag says. -/
structure Heard (past : List Step) (s : Loop) : Prop where
  pending : Pending past → s.flag = true
  counted : cuts past + s.flag.toNat ≤ kicks past

/-- What a step does to the flag. -/
theorem step_flag (s : Loop) (input : Input) :
    (input = .kick ∧ (step s input).1.flag = true ∧ (step s input).2 = .none) ∨
    (input ≠ .kick ∧ (step s input).2.endsWait = false ∧ (step s input).1.flag = s.flag) ∨
    (input ≠ .kick ∧ (step s input).2.endsWait = true ∧ (step s input).1.flag = false ∧
      ((step s input).2 = .cut ↔ s.flag = true)) := by
  rcases input with a | _ | _
  · right
    simp only [step]
    rcases s.point with _ | _ | _ | _ | _ | _ | _ | ⟨ms, failed⟩ | ⟨ms, failed⟩ | _
    · left
      split_ifs <;> simp [Out.endsWait]
    · left
      split_ifs <;> simp [Out.endsWait]
    · left
      simp [Out.endsWait]
    · left
      split_ifs <;> simp [Out.endsWait]
    · left
      split_ifs <;> simp [Out.endsWait]
    · left
      split_ifs <;> simp [Out.endsWait]
    · left
      simp [Out.endsWait]
    · dsimp only
      split_ifs with hflag
      · right
        simp [Out.endsWait, Loop.waited, hflag]
      · left
        simp [Out.endsWait]
    · right
      dsimp only
      split_ifs <;> simp_all [Out.endsWait, Loop.waited]
    · left
      simp [Out.endsWait]
  · exact Or.inl ⟨rfl, rfl, rfl⟩
  · exact Or.inr (Or.inl ⟨by simp, rfl, rfl⟩)

theorem pending_concat {past : List Step} {o : Step} (h : Pending (past ++ [o])) :
    o.input = .kick ∨ (Pending past ∧ o.output.endsWait = false) := by
  obtain ⟨before, k, after, heq, hk, hafter⟩ := h
  rcases List.eq_nil_or_concat after with rfl | ⟨after, o', rfl⟩
  · left
    obtain ⟨-, ho⟩ := List.append_inj' heq rfl
    rw [List.singleton_inj.mp ho]
    exact hk
  · right
    rw [List.concat_eq_append, ← List.cons_append, ← List.append_assoc] at heq
    obtain ⟨hpast, ho⟩ := List.append_inj' heq rfl
    rw [List.concat_eq_append] at hafter
    refine ⟨⟨before, k, after, hpast, hk, fun r hr => hafter r (List.mem_append_left _ hr)⟩, ?_⟩
    rw [List.singleton_inj.mp ho]
    exact hafter o' (List.mem_append_right _ List.mem_cons_self)

theorem kicks_concat (past : List Step) (o : Step) :
    kicks (past ++ [o]) = kicks past + if o.input.isKick then 1 else 0 := by
  unfold kicks
  rw [List.filter_append, List.length_append, List.filter_singleton]
  split_ifs with h <;> simp [h]

theorem cuts_concat (past : List Step) (o : Step) :
    cuts (past ++ [o]) = cuts past + if o.output = .cut then 1 else 0 := by
  unfold cuts
  rw [List.filter_append, List.length_append, List.filter_singleton]
  split_ifs with h <;> simp [h]

theorem heard_step {past : List Step} {s : Loop} (h : Heard past s) (input : Input) :
    Heard (past ++ [⟨s, input, (step s input).2⟩]) (step s input).1 := by
  obtain ⟨hpending, hcounted⟩ := h
  rcases step_flag s input with ⟨rfl, hflag, hout⟩ | ⟨hne, hends, hflag⟩ | ⟨hne, hends, hflag, hcut⟩
  · refine ⟨fun _ => hflag, ?_⟩
    rw [kicks_concat, cuts_concat, hflag]
    simp only [hout, reduceCtorEq, if_false, Bool.toNat_true, Input.isKick, if_true]
    omega
  · refine ⟨fun hp => ?_, ?_⟩
    · rw [hflag]
      rcases pending_concat hp with hk | ⟨hp, -⟩
      · exact absurd hk hne
      · exact hpending hp
    · have hcut : (step s input).2 ≠ .cut := by
        intro hout
        rw [hout] at hends
        cases hends
      rw [kicks_concat, cuts_concat, hflag, if_neg hcut]
      omega
  · refine ⟨fun hp => ?_, ?_⟩
    · rcases pending_concat hp with hk | ⟨-, hno⟩
      · exact absurd hk hne
      · rw [hends] at hno
        cases hno
    · rw [kicks_concat, cuts_concat, hflag]
      by_cases hs : s.flag = true
      · rw [if_pos (hcut.mpr hs)]
        rw [hs] at hcounted
        simp only [Bool.toNat_true, Bool.toNat_false] at hcounted ⊢
        omega
      · rw [if_neg fun hc => hs (hcut.mp hc)]
        simp only [Bool.toNat_false]
        omega

/-- **No kick is lost, and none is heard twice**: a wait that lasts its time has had no kick since the
wait before it ended, and as many kicks there were, as many waits at most were cut short. -/
theorem no_kick_lost (namesDone : Bool) (inputs : List Input) :
    EveryStep (fun past o =>
      (o.output = .slept → ∀ before k after, past = before ++ k :: after → k.input = .kick →
        ∃ r ∈ after, r.output.endsWait = true) ∧
      cuts (past ++ [o]) ≤ kicks past) (trace step (start namesDone) inputs) := by
  intro past o future htrace
  obtain ⟨hheard, -, hout⟩ := at_step (I := Heard) (C := fun _ _ => True)
    ⟨by rintro ⟨before, k, after, heq, -⟩; simp at heq, by simp [cuts, kicks, start]⟩
    (fun past s a h _ => heard_step h a) (fun _ _ => trivial) htrace
  obtain ⟨hpending, hcounted⟩ := hheard
  refine ⟨fun hslept before k after hpast hk => ?_, ?_⟩
  · by_contra hno
    push Not at hno
    have hflag := hpending ⟨before, k, after, hpast, hk, fun r hr => by simpa using hno r hr⟩
    rcases step_flag o.before o.input with ⟨-, -, hnone⟩ | ⟨-, hends, -⟩ | ⟨-, -, -, hcut⟩
    · rw [hout, hnone] at hslept
      cases hslept
    · rw [← hout, hslept] at hends
      cases hends
    · rw [← hout, hslept] at hcut
      cases hcut.mpr hflag
  · rw [cuts_concat]
    split_ifs with hc
    · rcases step_flag o.before o.input with ⟨-, -, hnone⟩ | ⟨-, hends, -⟩ | ⟨-, -, -, hcut⟩
      · rw [hout, hnone] at hc
        cases hc
      · rw [← hout, hc] at hends
        cases hends
      · rw [← hout] at hcut
        have hflag := hcut.mp hc
        rw [hflag] at hcounted
        simpa using hcounted
    · omega

/-! ### How long it waits -/

/-- How often the pass has failed since it last went well. -/
def streak (past : List Step) : ℕ := past.foldl (fun n o => match o.output with
  | .synced => 0
  | .offline => n + 1
  | _ => n) 0

theorem streak_concat (past : List Step) (o : Step) :
    streak (past ++ [o]) = match o.output with
      | .synced => 0
      | .offline => streak past + 1
      | _ => streak past := by
  unfold streak
  rw [List.foldl_append]
  rfl

/-- The wait after `n` failures in a row, in seconds. -/
def wanted (n : ℕ) : ℕ := min (2 ^ (n - 1)) 60

/-- How `backoff` and the waits come about. -/
structure Paced (past : List Step) (s : Loop) : Prop where
  waiting : ∀ ms, s.point = .wait ms true ∨ s.point = .asleep ms true →
    s.backoff = wanted (streak past) ∧ 0 < streak past ∧ ms = s.backoff * 1000
  idle : ∀ ms, s.point = .wait ms false ∨ s.point = .asleep ms false → ms = 1000
  moving : (∀ ms, s.point ≠ .wait ms true ∧ s.point ≠ .asleep ms true) →
    s.backoff = wanted (streak past + 1)

theorem wanted_succ {n : ℕ} (h : 0 < n) : min (wanted n * 2) 60 = wanted (n + 1) := by
  obtain ⟨n, rfl⟩ := Nat.exists_eq_succ_of_ne_zero h.ne'
  unfold wanted
  simp only [Nat.succ_eq_add_one, Nat.add_sub_cancel, pow_succ]
  omega

/-- A step that says nothing of success or failure leaves the count. -/
theorem streak_same {past : List Step} {s : Loop} {input : Input} {out : Out} (h : out ≠ .synced)
    (h' : out ≠ .offline) : streak (past ++ [⟨s, input, out⟩]) = streak past := by
  rw [streak_concat]
  cases out <;> first | rfl | contradiction

/-- The thread moves on and waits for nothing. -/
theorem Paced.move {past : List Step} {s s' : Loop} {input : Input} {out : Out} (h : Paced past s)
    (hwas : ∀ ms, s.point ≠ .wait ms true ∧ s.point ≠ .asleep ms true) (hbackoff : s'.backoff = s.backoff)
    (hpoint : ∀ ms failed, s'.point ≠ .wait ms failed ∧ s'.point ≠ .asleep ms failed)
    (hs : out ≠ .synced) (ho : out ≠ .offline) : Paced (past ++ [⟨s, input, out⟩]) s' where
  waiting ms hp := by
    rcases hp with hp | hp
    · exact absurd hp (hpoint ms true).1
    · exact absurd hp (hpoint ms true).2
  idle ms hp := by
    rcases hp with hp | hp
    · exact absurd hp (hpoint ms false).1
    · exact absurd hp (hpoint ms false).2
  moving _ := by
    rw [hbackoff, streak_same hs ho]
    exact h.moving hwas

/-- A wait is over. -/
theorem Paced.waited {past : List Step} {s : Loop} {input : Input} {out : Out} (h : Paced past s)
    {ms : ℕ} {failed : Bool} (hp : s.point = .wait ms failed ∨ s.point = .asleep ms failed)
    (hs : out ≠ .synced) (ho : out ≠ .offline) :
    Paced (past ++ [⟨s, input, out⟩]) (s.waited failed) where
  waiting ms hp := by rcases hp with hp | hp <;> cases hp
  idle ms hp := by rcases hp with hp | hp <;> cases hp
  moving _ := by
    rw [streak_same hs ho]
    rcases failed with _ | _
    · refine h.moving fun ms' => ?_
      rcases hp with hp | hp <;> rw [hp] <;> simp
    · obtain ⟨hb, hpos, -⟩ := h.waiting ms hp
      show min (s.backoff * 2) 60 = _
      rw [hb, wanted_succ hpos]

theorem paced_step {past : List Step} {s : Loop} (h : Paced past s) (input : Input) :
    Paced (past ++ [⟨s, input, (step s input).2⟩]) (step s input).1 := by
  rcases input with a | _ | _
  · rcases hp : s.point with _ | _ | _ | _ | _ | _ | _ | ⟨ms, failed⟩ | ⟨ms, failed⟩ | _
    · simp only [step, hp]
      split_ifs
      · exact h.move (by simp [hp]) rfl (by simp) (by simp) (by simp)
      · exact h.move (by simp [hp]) rfl (by simp) (by simp) (by simp)
    · simp only [step, hp]
      split_ifs
      · exact h.move (by simp [hp]) rfl (by simp) (by simp) (by simp)
      · exact h.move (by simp [hp]) rfl (by simp) (by simp) (by simp)
      · -- nobody is logged in: a second, whatever has failed before
        refine ⟨fun ms hw => (by rcases hw with hw | hw <;> cases hw), fun ms hw => ?_, fun _ => ?_⟩
        · rcases hw with hw | hw <;> cases hw
          rfl
        · rw [streak_same (by simp) (by simp)]
          exact h.moving (by simp [hp])
    · simp only [step, hp]
      exact h.move (by simp [hp]) rfl (by simp) (by simp) (by simp)
    · simp only [step, hp]
      split_ifs
      · exact h.move (by simp [hp]) rfl (by simp) (by simp) (by simp)
      · exact h.move (by simp [hp]) rfl (by simp) (by simp) (by simp)
    · simp only [step, hp]
      split_ifs
      · refine ⟨fun ms hw => (by rcases hw with hw | hw <;> cases hw),
          fun ms hw => (by rcases hw with hw | hw <;> cases hw), fun _ => ?_⟩
        rw [streak_concat]
        rfl
      · exact h.move (by simp [hp]) rfl (by simp) (by simp) (by simp)
    · simp only [step, hp]
      split_ifs
      · exact h.move (by simp [hp]) rfl (by simp) (by simp) (by simp)
      · exact h.move (by simp [hp]) rfl (by simp) (by simp) (by simp)
    · -- one failure more
      simp only [step, hp]
      have hb := h.moving (by simp [hp])
      have hstreak : streak (past ++ [⟨s, .go a, .offline⟩]) = streak past + 1 := streak_concat past _
      refine ⟨fun ms hw => ?_, fun ms hw => (by rcases hw with hw | hw <;> cases hw), fun hno => ?_⟩
      · rw [hstreak]
        rcases hw with hw | hw <;> cases hw
        exact ⟨hb, Nat.succ_pos _, rfl⟩
      · exact absurd rfl (hno _).1
    · simp only [step, hp]
      split_ifs
      · exact h.waited (Or.inl hp) (by simp) (by simp)
      · refine ⟨fun ms' hw => ?_, fun ms' hw => ?_, fun hno => ?_⟩
        · rw [streak_same (by simp) (by simp)]
          rcases hw with hw | hw <;> cases hw
          exact h.waiting ms (Or.inl hp)
        · rcases hw with hw | hw <;> cases hw
          exact h.idle ms (Or.inl hp)
        · rw [streak_same (by simp) (by simp)]
          refine h.moving fun ms' => ⟨fun hw => ?_, by simp [hp]⟩
          rw [hp] at hw
          cases hw
          exact (hno ms).2 rfl
    · simp only [step, hp]
      split_ifs
      · exact h.waited (Or.inr hp) (by simp) (by simp)
      · exact h.waited (Or.inr hp) (by simp) (by simp)
      · exact h.waited (Or.inr hp) (by simp) (by simp)
    · simp only [step, hp]
      exact h.move (by simp [hp]) rfl (by simp [hp]) (by simp) (by simp)
  · have hsame : streak (past ++ [⟨s, .kick, .none⟩]) = streak past := streak_same (by simp) (by simp)
    refine ⟨fun ms hw => ?_, h.idle, fun hno => ?_⟩
    · show _ = wanted (streak (past ++ [⟨s, .kick, .none⟩])) ∧ 0 < streak (past ++ [⟨s, .kick, .none⟩]) ∧ _
      rw [hsame]
      exact h.waiting ms hw
    · show _ = wanted (streak (past ++ [⟨s, .kick, .none⟩]) + 1)
      rw [hsame]
      exact h.moving hno
  · have hsame : streak (past ++ [⟨s, .stop, .none⟩]) = streak past := streak_same (by simp) (by simp)
    refine ⟨fun ms hw => ?_, h.idle, fun hno => ?_⟩
    · show _ = wanted (streak (past ++ [⟨s, .stop, .none⟩])) ∧ 0 < streak (past ++ [⟨s, .stop, .none⟩]) ∧ _
      rw [hsame]
      exact h.waiting ms hw
    · show _ = wanted (streak (past ++ [⟨s, .stop, .none⟩]) + 1)
      rw [hsame]
      exact h.moving hno

/-- **How long the loop waits**: after `n` failures in a row `min(2ⁿ⁻¹, 60)` seconds, however often it
was kicked or nobody was logged in meanwhile; and a second while nobody is logged in. -/
theorem wait_after_failures (namesDone : Bool) (inputs : List Input) :
    EveryStep (fun past o => ∀ ms,
      (o.output = .sleeps ms true → 0 < streak past ∧ ms = min (2 ^ (streak past - 1)) 60 * 1000) ∧
      (o.output = .sleeps ms false → ms = 1000)) (trace step (start namesDone) inputs) := by
  intro past o future htrace ms
  obtain ⟨hpaced, -, hout⟩ := at_step (I := Paced) (C := fun _ _ => True)
    ⟨fun ms hw => (by rcases hw with hw | hw <;> cases hw),
      fun ms hw => (by rcases hw with hw | hw <;> cases hw), fun _ => rfl⟩
    (fun past s a h _ => paced_step h a) (fun _ _ => trivial) htrace
  have hpoint : ∀ failed, o.output = .sleeps ms failed → o.before.point = .wait ms failed := by
    intro failed hsleeps
    rw [hout] at hsleeps
    rcases o with ⟨s, a | _ | _, out⟩
    · simp only [step] at hsleeps
      rcases hp : s.point with _ | _ | _ | _ | _ | _ | _ | ⟨ms', failed'⟩ | ⟨ms', failed'⟩ | _ <;>
        simp only [hp] at hsleeps <;> (try split_ifs at hsleeps) <;> cases hsleeps
      rfl
    · cases hsleeps
    · cases hsleeps
  refine ⟨fun h => ?_, fun h => hpaced.idle ms (Or.inl (hpoint false h))⟩
  obtain ⟨hb, hpos, hms⟩ := hpaced.waiting ms (Or.inl (hpoint true h))
  exact ⟨hpos, hms.trans (by rw [hb]; rfl)⟩

/-! ### Shutdown -/

/-- `running` is off, and whoever is about to wait finds a kick. -/
def Ending (s : Loop) : Prop := s.running = false ∧ (s.flag = true ∨ s.point = .top ∨ s.point = .gone)

/-- How many steps the thread has left at most. -/
def Point.left : Point → ℕ
  | .gone => 0
  | .top => 1
  | .failed => 1
  | .wait _ _ => 2
  | .asleep _ _ => 2
  | .process => 2
  | .report => 3
  | .poll => 3
  | .sweep => 4
  | .look => 5

def Input.isGo : Input → Bool
  | .go _ => true
  | _ => false

/-- **One step of a loop that ends.** -/
theorem ending_step {s : Loop} (h : Ending s) (input : Input) :
    Ending (step s input).1 ∧ (∀ ms failed, (step s input).2 ≠ .sleeps ms failed) ∧
      (step s input).2 ≠ .slept ∧ (step s input).2 ≠ .spurious ∧
      (step s input).1.point.left + (if input.isGo then 1 else 0) ≤ max s.point.left (if input.isGo then 1 else 0) ∧
      ((step s input).2 = .polls → 4 ≤ s.point.left ∧ (step s input).1.point.left ≤ 3) := by
  obtain ⟨hrunning, hflag⟩ := h
  rcases input with a | _ | _
  · rcases hp : s.point with _ | _ | _ | _ | _ | _ | _ | ⟨ms, failed⟩ | ⟨ms, failed⟩ | _
    · simp [step, hp, hrunning, Ending, Point.left, Input.isGo]
    · have hf : s.flag = true := by simpa [hp] using hflag
      simp only [step, hp]
      split_ifs <;> simp [hrunning, Ending, Point.left, hf]
    · have hf : s.flag = true := by simpa [hp] using hflag
      simp [step, hp, hrunning, Ending, Point.left, Input.isGo, hf]
    · have hf : s.flag = true := by simpa [hp] using hflag
      simp only [step, hp]
      split_ifs <;> simp [hrunning, Ending, Point.left, hf]
    · have hf : s.flag = true := by simpa [hp] using hflag
      simp only [step, hp]
      split_ifs <;> simp [hrunning, Ending, Point.left, hf]
    · simp [step, hp, hrunning, Ending, Point.left, Input.isGo]
    · have hf : s.flag = true := by simpa [hp] using hflag
      simp [step, hp, hrunning, Ending, Point.left, Input.isGo, hf]
    · have hf : s.flag = true := by simpa [hp] using hflag
      simp [step, hp, hrunning, Ending, Point.left, Input.isGo, hf, Loop.waited]
    · have hf : s.flag = true := by simpa [hp] using hflag
      simp [step, hp, hrunning, Ending, Point.left, Input.isGo, hf, Loop.waited]
    · simp [step, hp, hrunning, Ending, Point.left, Input.isGo]
  · simp [step, hrunning, Ending, Input.isGo]
  · simp [step, Ending, Input.isGo, hflag]

theorem running_false {s : Loop} (h : s.running = false) (inputs : List Input) :
    (final step s inputs).running = false := by
  induction inputs generalizing s with
  | nil => exact h
  | cons input inputs ih =>
    refine ih ?_
    rcases input with a | _ | _
    · simp only [step]
      split <;> (try split_ifs) <;> exact h
    · exact h
    · rfl

/-- A loop that ends: no wait, one poll more at most, and as many steps as it has left. -/
theorem ending_runs {s : Loop} (h : Ending s) (inputs : List Input) :
    (∀ o ∈ trace step s inputs, (∀ ms failed, o.output ≠ .sleeps ms failed) ∧ o.output ≠ .slept ∧
      o.output ≠ .spurious) ∧
    (((trace step s inputs).filter fun o => o.output = .polls).length ≤ if 4 ≤ s.point.left then 1 else 0) ∧
    (s.point.left ≤ (inputs.filter Input.isGo).length → (final step s inputs).point = .gone) := by
  induction inputs generalizing s with
  | nil =>
    refine ⟨fun o ho => absurd ho List.not_mem_nil, by simp [trace], fun hleft => ?_⟩
    show s.point = .gone
    rcases hp : s.point with _ | _ | _ | _ | _ | _ | _ | _ | _ | _ <;> simp [hp, Point.left] at hleft ⊢
  | cons input inputs ih =>
    obtain ⟨hending, hsleeps, hslept, hspurious, hleft, hpolls⟩ := ending_step h input
    obtain ⟨hall, hcount, hgone⟩ := ih hending
    refine ⟨fun o ho => ?_, ?_, fun hmany => ?_⟩
    · rcases List.mem_cons.mp ho with rfl | ho
      · exact ⟨hsleeps, hslept, hspurious⟩
      · exact hall o ho
    · show ((⟨s, input, (step s input).2⟩ :: trace step (step s input).1 inputs).filter _).length ≤ _
      rw [List.filter_cons]
      by_cases hp : (step s input).2 = .polls
      · obtain ⟨hbefore, hafter⟩ := hpolls hp
        rw [if_neg (by omega)] at hcount
        rw [if_pos (by simp [hp]), if_pos hbefore, List.length_cons]
        omega
      · rw [if_neg (by simp [hp])]
        refine hcount.trans ?_
        have hmono : (step s input).1.point.left ≤ s.point.left := by
          split_ifs at hleft <;> omega
        split_ifs <;> omega
    · refine hgone ?_
      rw [List.filter_cons] at hmany
      split_ifs at hleft hmany with hgo
      · rw [List.length_cons] at hmany
        omega
      · omega

/-- **Shutdown ends the thread**: once `running` is off and the kick has come, wherever the thread is and
whatever else happens meanwhile, no wait begins or lasts, `/sync` is asked once more at most, and after
five more steps of its own the thread is gone. -/
theorem shutdown_ends (namesDone : Bool) (xs ys zs : List Input) :
    let s := final step (start namesDone) (xs ++ .stop :: ys ++ [.kick])
    (∀ o ∈ trace step s zs, (∀ ms failed, o.output ≠ .sleeps ms failed) ∧ o.output ≠ .slept) ∧
    ((trace step s zs).filter fun o => o.output = .polls).length ≤ 1 ∧
    (5 ≤ (zs.filter Input.isGo).length → (final step s zs).point = .gone) := by
  intro s
  have hfinal : s = { final step (step (final step (start namesDone) xs) .stop).1 ys with flag := true } := by
    simp [s, final, List.foldl_append, step]
  have hending : Ending s := by
    rw [hfinal]
    exact ⟨running_false rfl ys, Or.inl rfl⟩
  obtain ⟨hall, hcount, hgone⟩ := ending_runs hending zs
  have hleft : s.point.left ≤ 5 := by
    rcases s.point with _ | _ | _ | _ | _ | _ | _ | _ | _ | _ <;> simp [Point.left]
  refine ⟨fun o ho => ⟨(hall o ho).1, (hall o ho).2.1⟩, hcount.trans (by split_ifs <;> omega), fun h => ?_⟩
  exact hgone (hleft.trans h)

end Kmatrix.Daemon.SyncLoop
