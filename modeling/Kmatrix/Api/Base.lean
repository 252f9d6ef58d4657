import Kmatrix.Lib.Text
import Kmatrix.Sync.Events

/-! # The base URL of the homeserver

What the user types, and what a server advertises for itself, is brought into one form before it is used
(`normalize_base`): blanks around it are taken off, `https://` is put in front if there is no scheme, and the
slashes at the end go. Discovery compares such bases, and the one that was found is stored in the session and
goes through the same function at the next start.

* `Settled`: the form, and that normalising leaves it alone. The slashes go last, and what stood before them is
  not looked at again: where that is a blank, it stays (`settled_normalizeBase_iff`).
* `settled_iff`: when the base of a login is settled and is the one every restart uses. A restart asks the base
  that was found at login where to go, which may send it on once more. -/

namespace Kmatrix.Api.Base

open Kmatrix.Lib.Text
open Kmatrix.Sync.Events (isWhitespace)

/-! ### The code -/

def hasScheme (trimmed : List Char) : Bool :=
  let lower := trimmed.map Char.toLower
  "https://".toList.isPrefixOf lower || "http://".toList.isPrefixOf lower

/-- The base before the slashes go. -/
def withScheme (trimmed : List Char) : List Char :=
  if hasScheme trimmed then trimmed else "https://".toList ++ trimmed

/-- `while base.ends_with('/') { base.pop(); }`. -/
def stripSlashes (base : List Char) : List Char := base.rdropWhile fun c => c = '/'

/-- What the code calls so: all that follows the first `://`. -/
def authority (base : List Char) : List Char := ((splitOnce "://".toList base).map Prod.snd).getD []

def normalizeBase (input : String) : Except String String :=
  let trimmed := trim isWhitespace input.toList
  if trimmed.isEmpty then .error "empty homeserver"
  else
    let base := stripSlashes (withScheme trimmed)
    if (authority base).isEmpty then .error ("invalid homeserver: " ++ input)
    else .ok (String.ofList base)

/-- What requests are answered with: status and body; and what `serde_json` makes of a well-known document,
the `base_url` of its homeserver if it names one. -/
structure Network where
  get : String → Option (ℕ × String)
  wellKnown : String → Option (Option String)

def discover (net : Network) (base : String) : Option String := do
  let (status, body) ← net.get (base ++ "/.well-known/matrix/client")
  if status ≠ 200 then none
  else
    let baseUrl ← (← net.wellKnown body)
    let candidate ← (normalizeBase baseUrl).toOption
    if candidate = base then none
    else
      let (status, _) ← net.get (candidate ++ "/_matrix/client/versions")
      if status = 200 then some candidate else none

/-- `Api::new`, the base of it: at login from what the user typed, at a restart from the session. -/
def newBase (net : Network) (homeserver : String) : Except String String := do
  let base ← normalizeBase homeserver
  return (discover net base).getD base

/-! ### The statement -/

def IsScheme (scheme : List Char) : Prop :=
  scheme.map Char.toLower = "https".toList ∨ scheme.map Char.toLower = "http".toList

/-- **A base in its form**: a scheme, something that is not blank after it, and nothing at the ends that does
not belong there. -/
structure WellFormed (b : String) : Prop where
  scheme : ∃ scheme rest, b.toList = scheme ++ ("://".toList ++ rest) ∧ IsScheme scheme ∧
    ∃ c ∈ rest, isWhitespace c = false
  trimmed : trim isWhitespace b.toList = b.toList
  noSlash : b.toList.getLast? ≠ some '/'

/-- **A base that stays what it is** when it is normalised once more. -/
structure Settled (b : String) : Prop where
  wellFormed : WellFormed b
  again : normalizeBase b = .ok b

/-- **The base of a session stays**, over restarts in the networks `restarts`: what discovery compares against
and what is used then is the base as it was stored. -/
structure Kept (restarts : List Network) (b : String) : Prop where
  settled : Settled b
  used : ∀ net ∈ restarts, newBase net b = .ok b

/-- Without the blanks around it and the slashes at the end it does not end in a blank. -/
def EndsClean (input : String) : Prop :=
  ∀ c ∈ (stripSlashes (trim isWhitespace input.toList)).getLast?, isWhitespace c = false

/-- Who asks at `base` is sent on to `b`, another base, which is named as `url` there and answers. -/
structure SendsOn (net : Network) (base url b : String) : Prop where
  named : ∃ body, net.get (base ++ "/.well-known/matrix/client") = some (200, body) ∧
    net.wellKnown body = some (some url)
  normal : normalizeBase url = .ok b
  other : b ≠ base
  answers : ∃ body, net.get (b ++ "/_matrix/client/versions") = some (200, body)

/-- Where who asks at `base` arrives. -/
def Arrives (net : Network) (base b : String) : Prop :=
  (∃ url, SendsOn net base url b) ∨ b = base ∧ ∀ url b', ¬ SendsOn net base url b'

/-! ### Schemes -/

theorem toLower_eq_self {c : Char} (h : ¬ (65 ≤ c.toNat ∧ c.toNat ≤ 90)) : c.toLower = c := by
  unfold Char.toLower
  exact dif_neg h

theorem toNat_toLower {c : Char} (h : 65 ≤ c.toNat ∧ c.toNat ≤ 90) : c.toLower.toNat = c.toNat + 32 := by
  have hlower : c.toLower.toNat = (c.val + 32).toNat := congrArg Char.toNat (dif_pos h)
  have hval : c.val.toNat = c.toNat := rfl
  rw [hlower, UInt32.toNat_add, hval]
  exact Nat.mod_eq_of_lt (by omega : c.toNat + 32 < 2 ^ 32)

/-- What is no letter comes from itself only. -/
theorem eq_of_toLower {c d : Char} (h : c.toLower = d) (hd : d.toNat < 97) : c = d := by
  by_cases hupper : 65 ≤ c.toNat ∧ c.toNat ≤ 90
  · have hletter := toNat_toLower hupper
    rw [h] at hletter
    omega
  · rw [← h, toLower_eq_self hupper]

theorem map_toLower_eq {l d : List Char} (h : l.map Char.toLower = d) (hd : ∀ c ∈ d, c.toNat < 97) : l = d := by
  induction l generalizing d with
  | nil => exact h
  | cons c l ih =>
    subst h
    obtain ⟨hc, hrest⟩ := List.forall_mem_cons.mp hd
    rw [List.map_cons, ← eq_of_toLower rfl hc, ← ih rfl hrest]

theorem not_isWhitespace_of_toLower {c : Char} (h : isWhitespace c.toLower = false) : isWhitespace c = false := by
  by_cases hupper : 65 ≤ c.toNat ∧ c.toNat ≤ 90
  · unfold isWhitespace
    simp only [Bool.or_eq_false_iff, Bool.and_eq_false_iff, decide_eq_false_iff_not, List.contains_eq_mem,
      List.mem_cons, List.not_mem_nil, or_false]
    omega
  · rw [toLower_eq_self hupper] at h
    exact h

/-- A prefix of the text in lower case, read back. -/
theorem exists_of_isPrefixOf (scheme : List Char) {l : List Char}
    (h : (scheme ++ "://".toList).isPrefixOf (l.map Char.toLower) = true) :
    ∃ upper rest, l = upper ++ ("://".toList ++ rest) ∧ upper.map Char.toLower = scheme := by
  obtain ⟨rest, hrest⟩ := List.isPrefixOf_iff_prefix.mp h
  obtain ⟨front, rest, rfl, hfront, -⟩ := List.map_eq_append_iff.mp hrest.symm
  obtain ⟨upper, sep, rfl, hupper, hsep⟩ := List.map_eq_append_iff.mp hfront
  have hsigns : "://".toList.all (fun c => c.toNat < 97) = true := by decide
  have hsep : sep = "://".toList :=
    map_toLower_eq hsep fun c hc => of_decide_eq_true (List.all_eq_true.mp hsigns c hc)
  exact ⟨upper, rest, by rw [hsep, List.append_assoc], hupper⟩

theorem isPrefixOf_scheme {scheme upper rest : List Char} (h : upper.map Char.toLower = scheme) :
    (scheme ++ "://".toList).isPrefixOf ((upper ++ ("://".toList ++ rest)).map Char.toLower) = true := by
  rw [List.map_append, List.map_append, h, ← List.append_assoc]
  exact List.isPrefixOf_iff_prefix.mpr (List.prefix_append _ _)

theorem hasScheme_iff {l : List Char} :
    hasScheme l = true ↔ ∃ scheme rest, l = scheme ++ ("://".toList ++ rest) ∧ IsScheme scheme := by
  unfold hasScheme
  rw [Bool.or_eq_true]
  constructor
  · rintro (h | h)
    · obtain ⟨scheme, rest, hl, hscheme⟩ := exists_of_isPrefixOf "https".toList h
      exact ⟨scheme, rest, hl, .inl hscheme⟩
    · obtain ⟨scheme, rest, hl, hscheme⟩ := exists_of_isPrefixOf "http".toList h
      exact ⟨scheme, rest, hl, .inr hscheme⟩
  · rintro ⟨scheme, rest, rfl, hscheme | hscheme⟩
    · exact .inl (isPrefixOf_scheme hscheme)
    · exact .inr (isPrefixOf_scheme hscheme)

/-- A base begins with a scheme, whether it was there before or not. -/
theorem withScheme_eq (l : List Char) :
    ∃ scheme rest, IsScheme scheme ∧ withScheme l = scheme ++ ("://".toList ++ rest) ∧
      (l = withScheme l ∨ l = rest) := by
  unfold withScheme
  split_ifs with h
  · obtain ⟨scheme, rest, hl, hscheme⟩ := hasScheme_iff.mp h
    exact ⟨scheme, rest, hscheme, hl, .inl rfl⟩
  · exact ⟨"https".toList, l, .inl rfl, rfl, .inr rfl⟩

/-- The slashes of the scheme go only if nothing follows them. -/
theorem stripSlashes_scheme (scheme rest : List Char) :
    stripSlashes (scheme ++ ("://".toList ++ rest)) =
      if stripSlashes rest = [] then scheme ++ [':'] else scheme ++ ("://".toList ++ stripSlashes rest) := by
  have hsep : stripSlashes ("://".toList ++ rest) =
      if stripSlashes rest = [] then [':'] else "://".toList ++ stripSlashes rest := rdropWhile_append _ _
  have hsome : stripSlashes ("://".toList ++ rest) ≠ [] := by
    rw [hsep]
    split_ifs
    · exact List.cons_ne_nil _ _
    · exact List.cons_ne_nil _ _
  have hall : stripSlashes (scheme ++ ("://".toList ++ rest)) = scheme ++ stripSlashes ("://".toList ++ rest) :=
    (rdropWhile_append _ _).trans (if_neg hsome)
  rw [hall, hsep]
  split_ifs <;> rfl

/-- A base ends as what follows its scheme does, if there is any. -/
theorem getLast?_scheme (scheme : List Char) {rest : List Char} (hne : rest ≠ []) :
    (scheme ++ ("://".toList ++ rest)).getLast? = rest.getLast? := by
  rw [← List.append_assoc, List.getLast?_append_of_ne_nil _ hne]

section Scheme
variable {scheme : List Char} (hscheme : IsScheme scheme)
include hscheme

theorem withScheme_scheme (rest : List Char) :
    withScheme (scheme ++ ("://".toList ++ rest)) = scheme ++ ("://".toList ++ rest) :=
  if_pos (hasScheme_iff.mpr ⟨scheme, rest, rfl, hscheme⟩)

theorem mem_scheme {c : Char} (h : c ∈ scheme) : c.toLower ∈ "https".toList := by
  have hmem : c.toLower ∈ scheme.map Char.toLower := List.mem_map.mpr ⟨c, h, rfl⟩
  rcases hscheme with heq | heq
  · rw [heq] at hmem
    exact hmem
  · rw [heq] at hmem
    exact (by decide : "http".toList ⊆ "https".toList) hmem

theorem colon_not_mem : ':' ∉ scheme := fun h => absurd (mem_scheme hscheme h) (by decide)

theorem slash_not_mem : '/' ∉ scheme := fun h => absurd (mem_scheme hscheme h) (by decide)

/-- A scheme begins with a letter. -/
theorem exists_head : ∃ c cs, scheme = c :: cs ∧ isWhitespace c = false := by
  rcases scheme with _ | ⟨c, cs⟩
  · rcases hscheme with h | h <;> cases h
  · refine ⟨c, cs, rfl, not_isWhitespace_of_toLower ?_⟩
    rcases hscheme with h | h
    · rw [(List.cons.inj h).1]
      decide
    · rw [(List.cons.inj h).1]
      decide

theorem authority_scheme (rest : List Char) : authority (scheme ++ ("://".toList ++ rest)) = rest := by
  have hcut : splitOnce "://".toList (scheme ++ ("://".toList ++ rest)) = some (scheme, rest) :=
    splitOnce_append (colon_not_mem hscheme)
  unfold authority
  rw [hcut]
  rfl

theorem authority_colon : authority (scheme ++ [':']) = [] := by
  unfold authority
  rcases hcut : splitOnce "://".toList (scheme ++ [':']) with _ | ⟨before, after⟩
  · rfl
  · -- there is no slash to end the separator with
    have hslash : '/' ∈ scheme ++ [':'] := by
      rw [eq_of_splitOnce hcut]
      simp
    rcases List.mem_append.mp hslash with h | h
    · exact absurd h (slash_not_mem hscheme)
    · exact absurd h (by decide)

/-- **What normalising comes to**, for a base that begins with `scheme`. -/
theorem normalizeBase_eq {input : String} {rest : List Char} (hne : trim isWhitespace input.toList ≠ [])
    (hbase : withScheme (trim isWhitespace input.toList) = scheme ++ ("://".toList ++ rest)) :
    normalizeBase input = if stripSlashes rest = [] then .error ("invalid homeserver: " ++ input)
      else .ok (String.ofList (scheme ++ ("://".toList ++ stripSlashes rest))) := by
  have hempty : ¬ (trim isWhitespace input.toList).isEmpty = true := by
    rw [List.isEmpty_iff]
    exact hne
  unfold normalizeBase
  dsimp only
  rw [if_neg hempty, hbase, stripSlashes_scheme]
  split_ifs with hrest hauthority hauthority
  · rfl
  · rw [authority_colon hscheme] at hauthority
    exact absurd rfl hauthority
  · rw [authority_scheme hscheme, List.isEmpty_iff] at hauthority
    exact absurd hauthority hrest
  · rfl

/-- A base that ends in no blank is trimmed already. -/
theorem trim_scheme {rest : List Char} (hne : rest ≠ [])
    (hlast : ∀ c ∈ rest.getLast?, isWhitespace c = false) :
    trim isWhitespace (scheme ++ ("://".toList ++ rest)) = scheme ++ ("://".toList ++ rest) := by
  have hend := getLast?_scheme scheme hne
  obtain ⟨c, cs, rfl, hc⟩ := exists_head hscheme
  rw [List.cons_append, trim_cons hc, ← List.cons_append]
  exact rdropWhile_of_getLast? (by rw [hend]; exact hlast)

/-- **A base in its form stays**, if what follows the scheme ends in neither a slash nor a blank. -/
theorem settled_of_last {rest : List Char} (hne : rest ≠ []) (hslash : stripSlashes rest = rest)
    (hlast : ∀ c ∈ rest.getLast?, isWhitespace c = false) :
    Settled (String.ofList (scheme ++ ("://".toList ++ rest))) := by
  have htext : (String.ofList (scheme ++ ("://".toList ++ rest))).toList = scheme ++ ("://".toList ++ rest) :=
    String.toList_ofList
  have htrim := trim_scheme hscheme hne hlast
  have hagain : normalizeBase (String.ofList (scheme ++ ("://".toList ++ rest))) =
      .ok (String.ofList (scheme ++ ("://".toList ++ rest))) := by
    rw [normalizeBase_eq hscheme (by rw [htext, htrim]; simp)
      (by rw [htext, htrim]; exact withScheme_scheme hscheme rest), if_neg (by rw [hslash]; exact hne), hslash]
  refine ⟨⟨⟨scheme, rest, htext, hscheme, ?_⟩, by rw [htext, htrim], ?_⟩, hagain⟩
  · exact ⟨rest.getLast hne, List.getLast_mem hne, hlast _ (List.getLast?_eq_some_getLast hne)⟩
  · rw [htext, getLast?_scheme scheme hne]
    intro h
    rw [← hslash] at h
    exact absurd (getLast?_rdropWhile h) (by decide)

end Scheme

/-- The base ends as the input does without its slashes. -/
theorem getLast?_stripSlashes {l scheme rest : List Char}
    (hbase : withScheme l = scheme ++ ("://".toList ++ rest)) (h : l = withScheme l ∨ l = rest)
    (hne : stripSlashes rest ≠ []) : (stripSlashes l).getLast? = (stripSlashes rest).getLast? := by
  rcases h with h | rfl
  · rw [h, hbase, stripSlashes_scheme, if_neg hne, getLast?_scheme scheme hne]
  · rfl

/-- **Which inputs come to a settled base**: those that end clean. -/
theorem settled_normalizeBase_iff (input : String) :
    (∀ b, normalizeBase input = .ok b → Settled b) ↔ EndsClean input := by
  unfold EndsClean
  obtain ⟨scheme, rest, hscheme, hbase, hl⟩ := withScheme_eq (trim isWhitespace input.toList)
  by_cases hempty : trim isWhitespace input.toList = []
  · have herror : normalizeBase input = .error "empty homeserver" := by
      unfold normalizeBase
      rw [hempty]
      rfl
    rw [hempty, herror]
    exact ⟨fun _ c hc => (by cases hc), fun _ b hb => (by cases hb)⟩
  have heq := normalizeBase_eq hscheme hempty hbase
  by_cases hne : stripSlashes rest = []
  · -- nothing but slashes: an error, and the input ends in the colon of the scheme, if in anything
    rw [if_pos hne] at heq
    rw [heq]
    refine ⟨fun _ c hc => ?_, fun _ b hb => (by cases hb)⟩
    rcases hl with hl | hl
    · rw [hl, hbase, stripSlashes_scheme, if_pos hne, List.getLast?_concat] at hc
      cases hc
      decide
    · rw [hl, hne] at hc
      cases hc
  · rw [if_neg hne] at heq
    rw [getLast?_stripSlashes hbase hl hne]
    constructor
    · intro h c hc
      have htrimmed := (h _ heq).wellFormed.trimmed
      rw [String.toList_ofList] at htrimmed
      refine getLast?_trim (l := scheme ++ ("://".toList ++ stripSlashes rest)) ?_
      rw [htrimmed, getLast?_scheme scheme hne]
      exact hc
    · intro h b hb
      rw [heq] at hb
      cases hb
      exact settled_of_last hscheme hne (List.rdropWhile_idempotent _ _) h

/-! ### Discovery -/

/-- **What discovery finds** is where one is sent on to. -/
theorem discover_iff {net : Network} {base b : String} :
    discover net base = some b ↔ ∃ url, SendsOn net base url b := by
  unfold discover
  constructor
  · intro h
    obtain ⟨⟨status, body⟩, hget, h⟩ := Option.bind_eq_some_iff.mp h
    dsimp only at h
    split_ifs at h with hstatus
    obtain ⟨homeserver, hnamed, h⟩ := Option.bind_eq_some_iff.mp h
    obtain ⟨url, hurl, h⟩ := Option.bind_eq_some_iff.mp h
    obtain ⟨candidate, hcandidate, h⟩ := Option.bind_eq_some_iff.mp h
    split_ifs at h with hother
    obtain ⟨⟨probe, answer⟩, hprobe, h⟩ := Option.bind_eq_some_iff.mp h
    dsimp only at h
    split_ifs at h with hanswers
    cases h
    have hbase : normalizeBase url = .ok b := by
      rcases hnorm : normalizeBase url with e | found
      · rw [hnorm] at hcandidate
        cases hcandidate
      · rw [hnorm] at hcandidate
        exact congrArg Except.ok (Option.some.inj hcandidate)
    rw [not_not] at hstatus
    rw [hstatus] at hget
    rw [hanswers] at hprobe
    rw [hurl] at hnamed
    exact ⟨url, ⟨body, hget, hnamed⟩, hbase, hother, answer, hprobe⟩
  · rintro ⟨url, ⟨body, hget, hnamed⟩, hbase, hother, answer, hprobe⟩
    refine Option.bind_eq_some_iff.mpr ⟨_, hget, ?_⟩
    dsimp only
    rw [if_neg (by simp)]
    refine Option.bind_eq_some_iff.mpr ⟨_, hnamed, Option.bind_eq_some_iff.mpr ⟨_, rfl, ?_⟩⟩
    refine Option.bind_eq_some_iff.mpr ⟨b, by rw [hbase]; rfl, ?_⟩
    rw [if_neg hother]
    exact Option.bind_eq_some_iff.mpr ⟨_, hprobe, if_pos rfl⟩

/-- **What `Api::new` comes to**: where the input, normalised, arrives. -/
theorem newBase_iff {net : Network} {homeserver b : String} :
    newBase net homeserver = .ok b ↔ ∃ base, normalizeBase homeserver = .ok base ∧ Arrives net base b := by
  unfold newBase
  rcases hbase : normalizeBase homeserver with e | base
  · refine ⟨fun h => (by cases h), ?_⟩
    rintro ⟨_, h, -⟩
    cases h
  have hnew : (do
      let base ← (Except.ok base : Except String String)
      return (discover net base).getD base) = .ok ((discover net base).getD base) := rfl
  rw [hnew, Except.ok.injEq]
  have harrives : (discover net base).getD base = b ↔ Arrives net base b := by
    unfold Arrives
    rcases hfound : discover net base with _ | found
    · have hnone : ∀ url b', ¬ SendsOn net base url b' := by
        intro url b' h
        rw [discover_iff.mpr ⟨url, h⟩] at hfound
        cases hfound
      constructor
      · exact fun h => Or.inr ⟨h.symm, hnone⟩
      · rintro (⟨url, h⟩ | ⟨rfl, -⟩)
        · exact absurd h (hnone url b)
        · rfl
    · obtain ⟨url, hsent⟩ := discover_iff.mp hfound
      constructor
      · rintro rfl
        exact Or.inl ⟨url, hsent⟩
      · rintro (⟨url', h⟩ | ⟨-, h⟩)
        · rw [discover_iff.mpr ⟨url', h⟩] at hfound
          exact (Option.some.inj hfound).symm
        · exact absurd hsent (h url found)
  rw [harrives]
  constructor
  · exact fun h => ⟨base, rfl, h⟩
  · rintro ⟨_, ⟨⟩, h⟩
    exact h

/-- A settled base is used again by a start that is not sent on. -/
theorem newBase_settled_iff {net : Network} {b : String} (h : normalizeBase b = .ok b) :
    newBase net b = .ok b ↔ ∀ url b', ¬ SendsOn net b url b' := by
  rw [newBase_iff]
  constructor
  · rintro ⟨base, hbase, harrives⟩
    rw [h] at hbase
    cases hbase
    rcases harrives with ⟨url, hsent⟩ | ⟨-, hnone⟩
    · exact absurd rfl hsent.other
    · exact hnone
  · exact fun hnone => ⟨b, h, Or.inr ⟨rfl, hnone⟩⟩

/-- **When the base of a login is settled and stays**, over any restarts: the input ends clean, so does the base
that the network names at login, and no network of a restart sends on from where the login arrived. -/
theorem settled_iff (input : String) (login : Network) (restarts : List Network) :
    ((∀ b, normalizeBase input = .ok b → Settled b) ∧ ∀ b, newBase login input = .ok b → Kept restarts b) ↔
    EndsClean input ∧ ∀ base, normalizeBase input = .ok base →
      (∀ url b, SendsOn login base url b → EndsClean url) ∧
      ∀ b, Arrives login base b → ∀ net ∈ restarts, ∀ url b', ¬ SendsOn net b url b' := by
  rw [← settled_normalizeBase_iff]
  refine and_congr_right fun hinput => ?_
  constructor
  · intro h base hbase
    have hkept : ∀ b, Arrives login base b → Kept restarts b :=
      fun b hb => h b (newBase_iff.mpr ⟨base, hbase, hb⟩)
    refine ⟨fun url b hsent => ?_, fun b hb net hnet => ?_⟩
    · refine (settled_normalizeBase_iff url).mp fun b' hb' => ?_
      rw [hsent.normal] at hb'
      cases hb'
      exact (hkept b (Or.inl ⟨url, hsent⟩)).settled
    · exact (newBase_settled_iff (hkept b hb).settled.again).mp ((hkept b hb).used net hnet)
  · intro h b hnew
    obtain ⟨base, hbase, harrives⟩ := newBase_iff.mp hnew
    obtain ⟨hclean, hstays⟩ := h base hbase
    have hsettled : Settled b := by
      rcases harrives with ⟨url, hsent⟩ | ⟨rfl, -⟩
      · exact (settled_normalizeBase_iff url).mpr (hclean url b hsent) b hsent.normal
      · exact hinput b hbase
    exact ⟨hsettled, fun net hnet => (newBase_settled_iff hsettled.again).mpr (hstays b harrives net hnet)⟩

/-! ### Where it fails -/

/-- A network in which `https://example.org` names `https://a`, which names `https://b`. -/
def chain : Network where
  get url :=
    if url = "https://example.org/.well-known/matrix/client" then some (200, "a")
    else if url = "https://a/.well-known/matrix/client" then some (200, "b")
    else if url = "https://a/_matrix/client/versions" ∨ url = "https://b/_matrix/client/versions" then some (200, "")
    else none
  wellKnown body := some (some ("https://" ++ body))

/-- What stood before a slash; and a login in `chain`, after which a restart goes elsewhere. -/
theorem not_settled_slash : (¬ ∀ b, normalizeBase "example.org /" = .ok b → Settled b) ∧
    ¬ ∀ b, newBase chain "example.org" = .ok b → newBase chain b = .ok b := by
  constructor
  · intro h
    have hbase : normalizeBase "example.org /" = .ok "https://example.org " := by decide +kernel
    have hagain : normalizeBase "https://example.org " = .ok "https://example.org" := by decide +kernel
    have hsettled := (h _ hbase).again
    rw [hagain] at hsettled
    exact absurd (Except.ok.inj hsettled) (by decide)
  · intro h
    have hlogin : newBase chain "example.org" = .ok "https://a" := by decide +kernel
    have hrestart : newBase chain "https://a" = .ok "https://b" := by decide +kernel
    have hsame := h _ hlogin
    rw [hrestart] at hsame
    exact absurd (Except.ok.inj hsame) (by decide)

end Kmatrix.Api.Base
