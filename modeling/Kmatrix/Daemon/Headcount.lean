import Kmatrix.Daemon.Naming
import Kmatrix.Lib.Unambiguous

/-! # Who a computed name accounts for

A room without a name is called after the people in it: some are listed, the others are counted, and we
are neither. `name_from_heroes` takes the number of members from the two counts of the summary,
`name_from_members` takes it from the member list; both add in `u32`, and `compose_name` casts the number
of listed names to one.

* `Accounts`: the sum that is made does not overflow, and the name that is composed says how many others
  there are, of an exact number of members.
* `accounts_iff`: when a sum and a list of names do that.
* `headcount_iff`: the two functions, over every summary with heroes and every member list. The hero path
  fails on the counts whose sum does not fit. -/

namespace Kmatrix.Daemon.Headcount

open Kmatrix.Daemon.Naming Kmatrix.Sync.Events

/-! ### What a composed name says -/

/-- How a name speaks of those it does not list. -/
def others : ℕ → String
  | 0 => ""
  | 1 => " and 1 other"
  | n + 2 => " and " ++ toString (n + 2) ++ " others"

/-- The listed names, and so many others. -/
def listing (names : List String) (n : ℕ) : String := ", ".intercalate names ++ others n

/-- **A name accounts for everyone once**: `a + b` is exact in a `u32`, and the name lists `names` and
mentions the rest of `members`, without the user. -/
structure Accounts (a b : U32) (name : Option String) (names : List String) (members : ℕ) : Prop where
  exact : a.val + b.val < 2 ^ 32
  text : name = some (listing names (members - 1 - names.length))

theorem composeName_eq (names : List String) (members : ℕ) :
    composeName names members = listing names (members - 1 - names.length % 2 ^ 32) := by
  unfold composeName listing others
  rcases members - 1 - names.length % 2 ^ 32 with _ | _ | n
  · simp
  · rfl
  · simp [String.append_assoc]

theorem others_injective : Function.Injective others := by
  -- one other is not `n` others: the last letter differs
  have hone : ∀ n, others 1 ≠ others (n + 2) := by
    intro n h
    have hlast := congrArg (fun s => s.toList.getLast?) h
    simp [others, List.getLast?_cons, List.getLast?_append] at hlast
  intro m n h
  rcases m with _ | _ | m <;> rcases n with _ | _ | n
  · rfl
  · simp [others] at h
  · simp [others] at h
  · simp [others] at h
  · rfl
  · exact absurd h (hone n)
  · simp [others] at h
  · exact absurd h.symm (hone m)
  · simp only [others, String.append_left_inj, String.append_right_inj] at h
    have hdigits : (m + 2).repr.toList = (n + 2).repr.toList := congrArg String.toList h
    rw [Nat.toList_repr, Nat.toList_repr] at hdigits
    exact Lib.Unambiguous.digits_inj hdigits

theorem listing_inj {names : List String} {m n : ℕ} : listing names m = listing names n ↔ m = n := by
  refine ⟨fun h => ?_, fun h => by rw [h]⟩
  unfold listing at h
  rw [String.append_right_inj] at h
  exact others_injective h

/-! ### The sum and the cast -/

theorem val_add_of_lt {a b : U32} (h : a.val + b.val < 2 ^ 32) : (a + b).val = a.val + b.val := by
  rw [Fin.val_add, Nat.mod_eq_of_lt h]

/-- **When a composed name accounts for `members`**: the sum fits, and the cast of the number of listed
names leaves the number of others as it is. -/
theorem accounts_iff (a b : U32) (names : List String) (members : ℕ) :
    Accounts a b (some (composeName names (a + b).val)) names members ↔
      a.val + b.val < 2 ^ 32 ∧
        a.val + b.val - 1 - names.length % 2 ^ 32 = members - 1 - names.length := by
  have hname : a.val + b.val < 2 ^ 32 →
      composeName names (a + b).val = listing names (a.val + b.val - 1 - names.length % 2 ^ 32) := by
    intro h
    rw [composeName_eq, val_add_of_lt h]
  constructor
  · rintro ⟨hexact, htext⟩
    rw [hname hexact, Option.some.injEq, listing_inj] at htext
    exact ⟨hexact, htext⟩
  · rintro ⟨hexact, hothers⟩
    exact ⟨hexact, by rw [hname hexact, hothers]⟩

/-! ### The two functions -/

/-- The people a name is made of: everyone but us and the bridge's users, or everyone but us. -/
def kept (me : String) (joined : Members) (skip : List String) : List String :=
  let others := (joined.map Prod.fst).filter fun user => user ≠ me
  let people := others.filter fun user => !skip.contains user
  if people.isEmpty then others else people

/-- The summary's name accounts for everyone the two counts count. -/
def HeroesAccounted (jr : JoinedRoom) : Prop :=
  Accounts jr.summary.joinedMemberCount jr.summary.invitedMemberCount (nameFromHeroes jr)
    (jr.summary.heroes.map (heroName jr))
    (jr.summary.joinedMemberCount.val + jr.summary.invitedMemberCount.val)

/-- A name made of members accounts for the people kept, and for us. -/
def MembersAccounted (me : String) (joined : Members) (skip : List String) : Prop :=
  kept me joined skip ≠ [] →
    Accounts (Fin.ofNat (2 ^ 32) (kept me joined skip).length) 1 (nameFromMembers me joined skip)
      (((kept me joined skip).take heroCap).map fun user => personName user joined)
      ((kept me joined skip).length + 1)

theorem nameFromHeroes_of_heroes {jr : JoinedRoom} (h : jr.summary.heroes ≠ []) :
    nameFromHeroes jr = some (composeName (jr.summary.heroes.map (heroName jr))
      (jr.summary.joinedMemberCount + jr.summary.invitedMemberCount).val) := by
  simp [nameFromHeroes, h]

theorem nameFromMembers_of_kept {me : String} {joined : Members} {skip : List String}
    (h : kept me joined skip ≠ []) :
    nameFromMembers me joined skip =
      some (composeName (((kept me joined skip).take heroCap).map fun user => personName user joined)
        (Fin.ofNat (2 ^ 32) (kept me joined skip).length + 1 : U32).val) := by
  have hempty : (kept me joined skip).isEmpty = false := by simpa using h
  unfold kept at hempty
  unfold nameFromMembers
  simp only [hempty]
  rfl

theorem heroesAccounted_iff {jr : JoinedRoom} (h : jr.summary.heroes ≠ []) :
    HeroesAccounted jr ↔
      jr.summary.joinedMemberCount.val + jr.summary.invitedMemberCount.val < 2 ^ 32 ∧
        (jr.summary.heroes.length < 2 ^ 32 ∨
          jr.summary.joinedMemberCount.val + jr.summary.invitedMemberCount.val ≤
            1 + jr.summary.heroes.length % 2 ^ 32) := by
  rw [HeroesAccounted, nameFromHeroes_of_heroes h, accounts_iff, List.length_map]
  omega

theorem membersAccounted_iff (me : String) (joined : Members) (skip : List String) :
    MembersAccounted me joined skip ↔ (kept me joined skip).length + 1 < 2 ^ 32 := by
  unfold MembersAccounted
  by_cases h : kept me joined skip = []
  · simp [h]
  · have hpos : 0 < (kept me joined skip).length := List.length_pos_iff.mpr h
    have hcast : (Fin.ofNat (2 ^ 32) (kept me joined skip).length).val =
        (kept me joined skip).length % 2 ^ 32 := rfl
    have hone : (1 : U32).val = 1 := rfl
    rw [nameFromMembers_of_kept h, accounts_iff, List.length_map, List.length_take, hcast, hone,
      heroCap]
    simp only [ne_eq, h, not_false_eq_true, true_implies]
    omega

/-- **Computed names account for everyone once** exactly where the sums fit and no cast is felt. -/
theorem headcount_iff (jr : JoinedRoom) (hheroes : jr.summary.heroes ≠ []) (me : String) (joined : Members)
    (skip : List String) :
    (HeroesAccounted jr ↔
      jr.summary.joinedMemberCount.val + jr.summary.invitedMemberCount.val < 2 ^ 32 ∧
        (jr.summary.heroes.length < 2 ^ 32 ∨
          jr.summary.joinedMemberCount.val + jr.summary.invitedMemberCount.val ≤
            1 + jr.summary.heroes.length % 2 ^ 32)) ∧
      (MembersAccounted me joined skip ↔ (kept me joined skip).length + 1 < 2 ^ 32) :=
  ⟨heroesAccounted_iff hheroes, membersAccounted_iff me joined skip⟩

/-- Nine have joined, one is invited, and five are named. -/
def few : JoinedRoom where
  summary :=
    { heroes := ["@a:h", "@b:h", "@c:h", "@d:h", "@e:h"], joinedMemberCount := 9, invitedMemberCount := 1 }

/-- The few are accounted for, and so is a chat with a bridge's bot. -/
theorem headcount_few : HeroesAccounted few ∧
    MembersAccounted "@me:h" [("@bot:h", none), ("@me:h", none), ("@them:h", some "Them")] ["@bot:h"] := by
  obtain ⟨hfew, hmembers⟩ := headcount_iff few (by simp [few]) "@me:h"
    [("@bot:h", none), ("@me:h", none), ("@them:h", some "Them")] ["@bot:h"]
  exact ⟨hfew.mpr ⟨by decide, .inl (by decide)⟩, hmembers.mpr (by decide)⟩

/-- As many as a `u32` counts have joined, and one more is invited. -/
def crowd : JoinedRoom where
  summary := { heroes := ["@a:h"], joinedMemberCount := 4294967295, invitedMemberCount := 1 }

/-- The sum does not fit; where it wraps around, the room is named as if nobody else were there. -/
theorem not_heroesAccounted_crowd :
    crowd.summary.heroes ≠ [] ∧ nameFromHeroes crowd = some "a" ∧ ¬ HeroesAccounted crowd := by
  have hheroes : crowd.summary.heroes ≠ [] := by simp [crowd]
  refine ⟨hheroes, by decide, fun h => ?_⟩
  have hsum := ((heroesAccounted_iff hheroes).mp h).1
  revert hsum
  decide

end Kmatrix.Daemon.Headcount
