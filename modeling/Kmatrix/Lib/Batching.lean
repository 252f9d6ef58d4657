import Mathlib.Data.List.Basic
import Mathlib.Data.List.Induction
import Mathlib.Data.List.Infix
import Mathlib.Tactic.Common

/-! # Reports in batches

A report tells the value of a key, or nothing of it. Each batch is collapsed to the last report of each key
first, and those that tell nothing are left out then. So a report that tells nothing hides what an earlier
one of its batch has told: `held_iff` says when the value that is held is the last that was told. -/

namespace Kmatrix.Lib.Batching

variable {κ α : Type} [DecidableEq κ]

/-- A key, and its value where one is told. -/
abbrev Report (κ α : Type) := κ × Option α

/-- **The last value told** of the key. -/
def told (evs : List (Report κ α)) (k : κ) : Option α :=
  ((evs.filter fun e => e.1 = k).filterMap Prod.snd).getLast?

/-- What the last report of the key tells. -/
def final (evs : List (Report κ α)) (k : κ) : Option α :=
  (evs.reverse.find? fun e => e.1 = k).bind Prod.snd

/-- **The value that is held** after the batches. -/
def held (s : κ → Option α) (bs : List (List (Report κ α))) (k : κ) : Option α :=
  bs.foldl (fun v evs => (final evs k).or v) (s k)

/-- **The batches settle the key**: the last batch that tells its value tells it in its last report of the
key, or that value was held before. -/
def Settles (s : κ → Option α) (bs : List (List (Report κ α))) (k : κ) : Prop :=
  ∀ before evs after, bs = before ++ evs :: after → ∀ v, told evs k = some v →
    (∀ later ∈ after, told later k = none) → final evs k = some v ∨ held s before k = some v

variable {s : κ → Option α} {bs : List (List (Report κ α))} {evs : List (Report κ α)} {k : κ}

theorem held_append (s : κ → Option α) (bs : List (List (Report κ α))) (evs : List (Report κ α)) (k : κ) :
    held s (bs ++ [evs]) k = (final evs k).or (held s bs k) := by
  unfold held
  rw [List.foldl_append]
  rfl

theorem told_append (evs evs' : List (Report κ α)) (k : κ) :
    told (evs ++ evs') k = (told evs' k).or (told evs k) := by
  unfold told
  rw [List.filter_append, List.filterMap_append, List.getLast?_append]

/-- The last report tells the last value, if it tells one. -/
theorem told_of_final {v : α} (h : final evs k = some v) : told evs k = some v := by
  obtain ⟨e, he, hv⟩ := Option.bind_eq_some_iff.mp h
  have hlast : (evs.filter fun e => e.1 = k).getLast? = some e := by
    rw [List.getLast?_eq_head?_reverse, ← List.filter_reverse, List.head?_filter]
    exact he
  obtain ⟨before, hbefore⟩ := List.getLast?_eq_some_iff.mp hlast
  unfold told
  rw [hbefore, List.filterMap_append, List.getLast?_append, List.filterMap_cons_some hv]
  rfl

/-- One batch more. -/
theorem settles_append : Settles s (bs ++ [evs]) k ↔
    match told evs k with
    | some v => final evs k = some v ∨ held s bs k = some v
    | none => Settles s bs k := by
  rcases htold : told evs k with _ | v
  · constructor
    · intro h before evs' after heq v hv hafter
      refine h before evs' (after ++ [evs]) (by rw [heq]; simp) v hv fun later hlater => ?_
      rcases List.mem_append.mp hlater with hlater | hlater
      · exact hafter later hlater
      · rw [List.mem_singleton.mp hlater]
        exact htold
    · intro h before evs' after heq v hv hafter
      rcases List.eq_nil_or_concat after with rfl | ⟨after, last, rfl⟩
      · obtain ⟨-, hlast⟩ := List.append_inj' heq rfl
        obtain rfl := (List.cons.inj hlast).1
        rw [htold] at hv
        simp at hv
      · rw [List.concat_eq_append] at heq hafter
        have heq' : bs ++ [evs] = (before ++ evs' :: after) ++ [last] := by rw [heq]; simp
        obtain ⟨rfl, -⟩ := List.append_inj' heq' rfl
        exact h before evs' after rfl v hv fun later hlater => hafter later (List.mem_append_left _ hlater)
  · constructor
    · exact fun h => h bs evs [] rfl v htold (by simp)
    · intro h before evs' after heq v' hv' hafter
      rcases List.eq_nil_or_concat after with rfl | ⟨after, last, rfl⟩
      · obtain ⟨rfl, hlast⟩ := List.append_inj' heq rfl
        obtain rfl := (List.cons.inj hlast).1
        obtain rfl : v = v' := Option.some.inj (htold.symm.trans hv')
        exact h
      · rw [List.concat_eq_append] at heq hafter
        have heq' : bs ++ [evs] = (before ++ evs' :: after) ++ [last] := by rw [heq]; simp
        obtain ⟨-, hlast⟩ := List.append_inj' heq' rfl
        obtain rfl := (List.cons.inj hlast).1
        rw [hafter evs (by simp)] at htold
        simp at htold

/-- **The value held is the last that was told**, or the first of all, exactly where the batches settle the
key. -/
theorem held_iff : held s bs k = (told bs.flatten k).or (s k) ↔ Settles s bs k := by
  induction bs using List.reverseRecOn with
  | nil => exact ⟨fun _ before evs after heq => by simp at heq, fun _ => rfl⟩
  | append_singleton bs evs ih =>
    rw [held_append, settles_append, List.flatten_append, List.flatten_singleton, told_append]
    rcases htold : told evs k with _ | v
    · have hfinal : final evs k = none := by
        rcases hfinal : final evs k with _ | v
        · rfl
        · rw [told_of_final hfinal] at htold
          simp at htold
      rw [hfinal, Option.none_or, Option.none_or]
      exact ih
    · rw [Option.some_or, Option.some_or]
      rcases hfinal : final evs k with _ | w
      · simp
      · obtain rfl : w = v := Option.some.inj ((told_of_final hfinal).symm.trans htold)
        simp

end Kmatrix.Lib.Batching
