import Kmatrix.E2ee.Json
import Mathlib.Data.List.Chain
import Mathlib.Data.List.Nodup
import Mathlib.Data.List.OfFn

/-! # The emoji on the screen

The daemon sends the seven indices of a verification as pictographs and words, and the plugin writes them
out, one to a line. The pictographs may be missing from the fonts of the device; `words_decide` is why
that does not matter: whatever is drawn in their place, and whatever the other device is called, two such
texts are the same only where all seven emoji are. -/

namespace Kmatrix.Sas.Emoji

open Kmatrix.E2ee.Json

/-- The emoji table of the specification. -/
def sasEmoji : List (String × String) :=
  [("🐶", "Dog"), ("🐱", "Cat"), ("🦁", "Lion"), ("🐎", "Horse"), ("🦄", "Unicorn"), ("🐷", "Pig"),
    ("🐘", "Elephant"), ("🐰", "Rabbit"), ("🐼", "Panda"), ("🐓", "Rooster"), ("🐧", "Penguin"),
    ("🐢", "Turtle"), ("🐟", "Fish"), ("🐙", "Octopus"), ("🦋", "Butterfly"), ("🌷", "Flower"),
    ("🌳", "Tree"), ("🌵", "Cactus"), ("🍄", "Mushroom"), ("🌏", "Globe"), ("🌙", "Moon"),
    ("☁️", "Cloud"), ("🔥", "Fire"), ("🍌", "Banana"), ("🍎", "Apple"), ("🍓", "Strawberry"),
    ("🌽", "Corn"), ("🍕", "Pizza"), ("🎂", "Cake"), ("❤️", "Heart"), ("😀", "Smiley"), ("🤖", "Robot"),
    ("🎩", "Hat"), ("👓", "Glasses"), ("🔧", "Spanner"), ("🎅", "Santa"), ("👍", "Thumbs Up"),
    ("☂️", "Umbrella"), ("⌛", "Hourglass"), ("⏰", "Clock"), ("🎁", "Gift"), ("💡", "Light Bulb"),
    ("📕", "Book"), ("✏️", "Pencil"), ("📎", "Paperclip"), ("✂️", "Scissors"), ("🔒", "Lock"),
    ("🔑", "Key"), ("🔨", "Hammer"), ("☎️", "Telephone"), ("🏁", "Flag"), ("🚂", "Train"),
    ("🚲", "Bicycle"), ("✈️", "Aeroplane"), ("🚀", "Rocket"), ("🏆", "Trophy"), ("⚽", "Ball"),
    ("🎸", "Guitar"), ("🎺", "Trumpet"), ("🔔", "Bell"), ("⚓", "Anchor"), ("🎧", "Headphones"),
    ("📁", "Folder"), ("📌", "Pin")]

/-- The entry of an index. -/
def entry (i : UInt8) : String × String := sasEmoji.get ⟨i.toNat % 64, Nat.mod_lt _ (by decide : 0 < 64)⟩

/-- `[glyph, name]`, as `apply_verify_step` sends it. -/
def emojiPair (i : UInt8) : Value := .arr [.str (entry i).1, .str (entry i).2]

def emojiOf (indices : Fin 7 → UInt8) : List Value := (List.ofFn indices).map emojiPair

/-- The line of one pair. -/
def pairLine (i : ℕ) (pair : Value) : String :=
  let glyph := (pair.asArray.bind fun items => items[0]?).bind Value.asStr
  let name := (pair.asArray.bind fun items => items[1]?).bind Value.asStr
  toString i ++ ". " ++ name.getD "?" ++ "  " ++ glyph.getD ""

def pairLines (emoji : List Value) : List String := emoji.mapIdx fun i pair => pairLine (i + 1) pair

/-- **`verificationText`.** -/
def verificationText (device : String) (emoji : List Value) : String :=
  "\n".intercalate (["Other device: " ++ device, "",
    "Both devices must show the same words, in the same order:", ""] ++ pairLines emoji)

/-- What a font makes of a pair. -/
def redrawn (draw : String → String) : Value → Value
  | .arr [.str glyph, .str name] => .arr [.str (draw glyph), .str name]
  | pair => pair

/-! ### Lines -/

/-- The last lines of a text are its own, whatever stands before them. -/
theorem splitOn_lines {before : List Char} {lines : List (List Char)} (hlines : ∀ l ∈ lines, '\n' ∉ l)
    (hne : lines ≠ []) :
    (before ++ '\n' :: ['\n'].intercalate lines).splitOn '\n' = before.splitOn '\n' ++ lines := by
  rw [List.splitOn_append_cons_self, List.splitOn_intercalate '\n' hlines hne]

/-- What comes before the pairs. -/
def heading (device : String) : List Char :=
  ("Other device: " ++ device).toList ++
    "\n\nBoth devices must show the same words, in the same order:\n".toList

theorem toList_verificationText (device : String) {emoji : List Value} (hne : emoji ≠ []) :
    (verificationText device emoji).toList =
      heading device ++ '\n' :: ['\n'].intercalate ((pairLines emoji).map String.toList) := by
  have hlines : (pairLines emoji).map String.toList ≠ [] := by
    unfold pairLines
    simpa using hne
  obtain ⟨l, lines, hl⟩ := List.exists_cons_of_ne_nil hlines
  unfold verificationText heading
  rw [String.toList_intercalate, List.map_append, hl]
  simp [List.intercalate_cons_cons]

/-! ### Words -/

/-- No two blanks in a row. -/
def Single (a : List Char) : Prop := (a ++ [' ']).IsChain fun c c' => ¬ (c = ' ' ∧ c' = ' ')

instance decidableSingle (a : List Char) : Decidable (Single a) :=
  inferInstanceAs (Decidable ((a ++ [' ']).IsChain _))

/-- A text without a gap ends where the first gap begins. -/
theorem eq_of_gap {a b x y : List Char} (ha : Single a) (hb : Single b)
    (h : a ++ ' ' :: ' ' :: x = b ++ ' ' :: ' ' :: y) : a = b := by
  have hempty : ∀ {b x y : List Char}, Single b → ' ' :: ' ' :: x = b ++ ' ' :: ' ' :: y → b = [] := by
    rintro (_ | ⟨c, _ | ⟨c', b⟩⟩) x y hb h
    · rfl
    · obtain ⟨rfl, -⟩ := List.cons.inj h
      exact absurd ⟨rfl, rfl⟩ (List.isChain_cons_cons.mp hb).1
    · obtain ⟨rfl, hrest⟩ := List.cons.inj h
      obtain ⟨rfl, -⟩ := List.cons.inj hrest
      exact absurd ⟨rfl, rfl⟩ (List.isChain_cons_cons.mp hb).1
  induction a generalizing b with
  | nil => exact (hempty hb h).symm
  | cons c a ih =>
    rcases b with _ | ⟨c', b⟩
    · exact hempty ha h.symm
    · obtain ⟨rfl, hrest⟩ := List.cons.inj h
      rw [ih ha.tail hb.tail hrest]

theorem single_names : (sasEmoji.all fun p => decide (Single p.2.toList)) = true := by decide

theorem names_nodup : (sasEmoji.map fun p => p.2.toList).Nodup := by decide

theorem names_line : (sasEmoji.all fun p => p.2.toList.all fun c => c ≠ '\n') = true := by decide

theorem entry_mem (i : UInt8) : entry i ∈ sasEmoji := List.get_mem _ _

theorem entry_inj {i j : UInt8} (h : (entry i).2.toList = (entry j).2.toList) : i.toNat % 64 = j.toNat % 64 := by
  have hlen : (sasEmoji.map fun p => p.2.toList).length = 64 := rfl
  have hi : i.toNat % 64 < (sasEmoji.map fun p => p.2.toList).length := hlen ▸ Nat.mod_lt _ (by decide)
  have hj : j.toNat % 64 < (sasEmoji.map fun p => p.2.toList).length := hlen ▸ Nat.mod_lt _ (by decide)
  have hget : (sasEmoji.map fun p => p.2.toList)[i.toNat % 64] = (sasEmoji.map fun p => p.2.toList)[j.toNat % 64] := by
    rw [List.getElem_map, List.getElem_map]
    exact h
  exact names_nodup.getElem_inj_iff.mp hget

/-! ### The text -/

section Text
variable {draw draw' : String → String}

/-- What is drawn stays on its line. -/
def OneLine (draw : String → String) : Prop := ∀ p ∈ sasEmoji, '\n' ∉ (draw p.1).toList

theorem toList_pairLine (n : ℕ) (i : UInt8) :
    (pairLine n (redrawn draw (emojiPair i))).toList =
      (Nat.toDigits 10 n ++ ". ".toList) ++ ((entry i).2.toList ++ ' ' :: ' ' :: (draw (entry i).1).toList) := by
  show (toString n ++ ". " ++ (entry i).2 ++ "  " ++ draw (entry i).1).toList = _
  simp [Nat.toString_eq_repr, Nat.toList_repr]

theorem newline_not_mem_line (hdraw : OneLine draw) (n : ℕ) (i : UInt8) :
    '\n' ∉ (pairLine n (redrawn draw (emojiPair i))).toList := by
  rw [toList_pairLine]
  simp only [List.mem_append, List.mem_cons, not_or]
  refine ⟨⟨fun h => ?_, by decide⟩, ?_, by decide, by decide, hdraw _ (entry_mem i)⟩
  · exact absurd (Nat.isDigit_of_mem_toDigits (by omega) (by omega) h) (by decide)
  · have hall := List.all_eq_true.mp names_line _ (entry_mem i)
    intro h
    simpa using List.all_eq_true.mp hall _ h

/-- The pairs of a verification, as a font draws them. -/
def drawn (draw : String → String) (indices : Fin 7 → UInt8) : List Value :=
  (emojiOf indices).map (redrawn draw)

theorem lines_drawn (draw : String → String) (indices : Fin 7 → UInt8) :
    (pairLines (drawn draw indices)).map String.toList =
      List.ofFn fun k : Fin 7 => (pairLine (k + 1) (redrawn draw (emojiPair (indices k)))).toList := by
  unfold pairLines drawn emojiOf
  refine List.ext_getElem (by simp) fun n hn hn' => ?_
  rw [List.getElem_map, List.getElem_mapIdx, List.getElem_map, List.getElem_map, List.getElem_ofFn,
    List.getElem_ofFn]

theorem splitOn_drawn (hdraw : OneLine draw) (device : String) (indices : Fin 7 → UInt8) :
    (verificationText device (drawn draw indices)).toList.splitOn '\n' =
      (heading device).splitOn '\n' ++
        List.ofFn fun k : Fin 7 => (pairLine (k + 1) (redrawn draw (emojiPair (indices k)))).toList := by
  have hne : drawn draw indices ≠ [] := by
    intro hnil
    have hlen := congrArg List.length hnil
    simp [drawn, emojiOf] at hlen
  rw [toList_verificationText device hne, lines_drawn, splitOn_lines _ (by simp)]
  intro l hl
  obtain ⟨k, rfl⟩ := List.mem_ofFn.mp hl
  exact newline_not_mem_line hdraw _ _

/-- **The words decide**: whatever is drawn for the pictographs, and whatever the devices are called, where
two texts are the same so are the seven emoji. -/
theorem words_decide (hdraw : OneLine draw) (hdraw' : OneLine draw') {device device' : String}
    {indices indices' : Fin 7 → UInt8}
    (h : verificationText device (drawn draw indices) = verificationText device' (drawn draw' indices'))
    (k : Fin 7) : (indices k).toNat % 64 = (indices' k).toNat % 64 := by
  have hsplit := splitOn_drawn hdraw device indices
  rw [h, splitOn_drawn hdraw' device' indices'] at hsplit
  have hlines := List.append_inj_right' hsplit (by rw [List.length_ofFn, List.length_ofFn])
  have hline := congrFun (List.ofFn_injective hlines) k
  rw [toList_pairLine, toList_pairLine] at hline
  have hsingle : ∀ i, Single (entry i).2.toList := fun i =>
    of_decide_eq_true (List.all_eq_true.mp single_names _ (entry_mem i))
  exact (entry_inj (eq_of_gap (hsingle _) (hsingle _) (List.append_cancel_left hline))).symm

theorem words_decide_boxes : (UInt8.ofNat 6).toNat % 64 = (UInt8.ofNat 70).toNat % 64 := by
  have hboxes : OneLine fun _ => "□" := fun _ _ => (by decide : '\n' ∉ "□".toList)
  have htexts : verificationText "A" (drawn (fun _ => "□") fun k => .ofNat k) =
      verificationText "A" (drawn (fun _ => "□") fun k => .ofNat (k + 64)) := rfl
  exact words_decide hboxes hboxes htexts 6

end Text

end Kmatrix.Sas.Emoji
