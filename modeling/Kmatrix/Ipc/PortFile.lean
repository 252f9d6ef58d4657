import Kmatrix.E2ee.Json
import Kmatrix.Lib.Text
import Kmatrix.Storage.Seal
import Kmatrix.Sync.Events

/-! # The port file

Two lines, the port and the token (`portFile`). The daemon writes it and, before it removes it, reads the
port back (`portOf`); the plugin reads both (`readPortFile`). A file is a list of bytes, which Lua takes
for characters one by one. Both readers give back what was written. -/

namespace Kmatrix.Ipc.PortFile

open Kmatrix.E2ee.Json (hexDigit)
open Kmatrix.Lib.Text
open Kmatrix.Storage.Seal (Bytes utf8 fromUtf8)
open Kmatrix.Sync.Events (isWhitespace)

/-! ### Writing -/

/-- `{x:02x}`. -/
def hexByte (x : UInt8) : List Char := [hexDigit (x.toNat / 16), hexDigit (x.toNat % 16)]

/-- **`random_token`**, of the bytes that were drawn. -/
def randomToken (b : Bytes) : String := String.ofList (b.flatMap hexByte)

/-- What `listen` writes. -/
def portFile (port : UInt16) (token : String) : String :=
  String.ofList (Nat.toDigits 10 port.toNat ++ '\n' :: (token.toList ++ ['\n']))

/-! ### Reading -/

/-- `str::parse::<u16>`. -/
def parseU16 (l : List Char) : Option UInt16 :=
  let digits := match l with
    | '+' :: digits => digits
    | digits => digits
  (natValue digits).bind fun n => if n < 65536 then some (UInt16.ofNat n) else none

/-- The port `remove_own_port_file` finds in the file. `lines` would also take a carriage return off the
end of the line; `trim` does. -/
def portOf (content : Bytes) : Option UInt16 :=
  (fromUtf8 content).bind fun body => parseU16 (trim isWhitespace (body.toList.takeWhile fun c => c ≠ '\n'))

/-- Lua's `%s`. -/
def luaSpace (c : Char) : Bool := c.toNat = 0x20 || (0x9 ≤ c.toNat && c.toNat ≤ 0xd)

/-- `f:read("*l")`: nothing at the end of the file. -/
def readLine (file : List Char) : Option (List Char) × List Char :=
  match file with
  | [] => (none, [])
  | file => (some (file.takeWhile fun c => c ≠ '\n'), (file.dropWhile fun c => c ≠ '\n').drop 1)

/-- A line matched against `^%s*(…+)%s*$`, with a class that has no space in it: what the class matched. -/
def lineMatch (p : Char → Bool) (line : List Char) : Option (List Char) :=
  let found := (line.dropWhile luaSpace).takeWhile p
  let rest := (line.dropWhile luaSpace).dropWhile p
  if !found.isEmpty && rest.all luaSpace then some found else none

/-- **`IPC.readPortFile`**, of what the file holds. -/
def readPortFile (content : Bytes) : Option (ℕ × List Char) :=
  let (portLine, file) := readLine (content.map Char.ofUInt8)
  let (tokenLine, _) := readLine file
  let port := portLine.bind fun line => (lineMatch Char.isDigit line).bind natValue
  let token := tokenLine.bind (lineMatch fun c => !luaSpace c)
  match port, token with
  | some port, some token => some (port, token)
  | _, _ => none

/-! ### What is written is read -/

/-- An ASCII text. -/
def Ascii (l : List Char) : Prop := ∀ c ∈ l, c.toNat < 128

theorem latin_utf8 {l : List Char} (h : Ascii l) :
    (utf8 (String.ofList l)).map Char.ofUInt8 = l := by
  rw [Storage.Seal.utf8_eq_flatMap, String.toList_ofList]
  induction l with
  | nil => rfl
  | cons c l ih =>
    have hc : c.toNat < 128 := h c List.mem_cons_self
    have hbyte : String.utf8EncodeChar c = [UInt8.ofNat c.toNat] := by
      have hval : c.val.toNat < 128 := hc
      unfold String.utf8EncodeChar
      dsimp only
      rw [if_pos (by omega)]
      rfl
    have hback : Char.ofUInt8 (UInt8.ofNat c.toNat) = c := by
      refine Char.ext (UInt32.toNat_inj.mp ?_)
      show (UInt8.ofNat c.toNat).toNat = c.toNat
      rw [UInt8.toNat_ofNat']
      omega
    rw [List.flatMap_cons, hbyte, List.map_append, List.map_singleton, hback,
      ih fun c hc => h c (List.mem_cons_of_mem _ hc)]
    rfl

section Token
variable {b : Bytes} {c : Char}

/-- The letters of a token. -/
theorem mem_randomToken (h : c ∈ (randomToken b).toList) : c ∈ "0123456789abcdef".toList := by
  unfold randomToken at h
  rw [String.toList_ofList] at h
  obtain ⟨x, -, hx⟩ := List.mem_flatMap.mp h
  have hlt : x.toNat < 256 := x.toNat_lt
  have hdigit : ∀ n < 16, hexDigit n ∈ "0123456789abcdef".toList := by decide
  rcases List.mem_cons.mp hx with rfl | hx
  · exact hdigit _ (by omega)
  · rw [List.mem_singleton.mp hx]
    exact hdigit _ (by omega)

theorem length_randomToken : (randomToken b).toList.length = 2 * b.length := by
  unfold randomToken
  rw [String.toList_ofList, List.length_flatMap]
  induction b with
  | nil => rfl
  | cons x b ih =>
    rw [List.map_cons, List.sum_cons, ih, List.length_cons]
    show 2 + _ = _
    omega

end Token

section RoundTrip
variable {port : UInt16} {token : String}

theorem ascii_digits (n : ℕ) : Ascii (Nat.toDigits 10 n) := by
  intro c hc
  have h := Nat.isDigit_of_mem_toDigits (by omega) (by omega) hc
  simp only [Char.isDigit, Bool.and_eq_true, decide_eq_true_eq, UInt32.le_iff_toNat_le] at h
  have h' : c.toNat ≤ 57 := h.2
  omega

theorem ascii_portFile (h : Ascii token.toList) :
    Ascii (Nat.toDigits 10 port.toNat ++ '\n' :: (token.toList ++ ['\n'])) := by
  intro c hc
  rcases List.mem_append.mp hc with hc | hc
  · exact ascii_digits _ c hc
  · rcases List.mem_cons.mp hc with rfl | hc
    · decide
    · rcases List.mem_append.mp hc with hc | hc
      · exact h c hc
      · rw [List.mem_singleton.mp hc]
        decide

/-- The digits are a line of their own. -/
theorem digits_ne_newline (n : ℕ) : ∀ c ∈ Nat.toDigits 10 n, (decide (c ≠ '\n')) = true := by
  intro c hc
  have h := Nat.isDigit_of_mem_toDigits (by omega) (by omega) hc
  refine decide_eq_true fun heq => ?_
  rw [heq] at h
  revert h
  decide

theorem natValue_toDigits (n : ℕ) : natValue (Nat.toDigits 10 n) = some n := by
  have h := natValue_padded 0 n
  unfold padded List.leftpad at h
  rwa [Nat.zero_sub, List.replicate_zero, List.nil_append] at h

/-- What is no space at either end is trimmed of nothing. -/
theorem trim_of_all {p : Char → Bool} {l : List Char} (h : ∀ c ∈ l, p c = false) : trim p l = l := by
  rcases l with _ | ⟨c, l⟩
  · rfl
  · rw [trim_cons (h c List.mem_cons_self)]
    exact rdropWhile_of_getLast? fun a ha => h a (List.mem_of_getLast? ha)

theorem isDigit_toNat {c : Char} (h : c.isDigit = true) : 48 ≤ c.toNat ∧ c.toNat ≤ 57 := by
  simp only [Char.isDigit, Bool.and_eq_true, decide_eq_true_eq, UInt32.le_iff_toNat_le] at h
  exact h

theorem parseU16_toDigits : parseU16 (Nat.toDigits 10 port.toNat) = some port := by
  have hplus : ∀ l, Nat.toDigits 10 port.toNat ≠ '+' :: l := by
    intro l hl
    have hmem : '+' ∈ Nat.toDigits 10 port.toNat := by
      rw [hl]
      exact List.mem_cons_self
    have := isDigit_toNat (Nat.isDigit_of_mem_toDigits (by omega) (by omega) hmem)
    revert this
    decide
  unfold parseU16
  split
  · exact absurd ‹_› (hplus _)
  · dsimp only
    rw [natValue_toDigits]
    show (if port.toNat < 65536 then some (UInt16.ofNat port.toNat) else none) = some port
    rw [if_pos port.toNat_lt, UInt16.ofNat_toNat]

/-- **The daemon knows its own port again.** -/
theorem portOf_portFile : portOf (utf8 (portFile port token)) = some port := by
  have hspace : ∀ c ∈ Nat.toDigits 10 port.toNat, isWhitespace c = false := by
    intro c hc
    obtain ⟨hlow, hhigh⟩ := isDigit_toNat (Nat.isDigit_of_mem_toDigits (by omega) (by omega) hc)
    unfold isWhitespace
    simp only [List.contains_cons, List.contains_nil, Bool.or_false, Bool.or_eq_false_iff,
      Bool.and_eq_false_iff, decide_eq_false_iff_not, beq_eq_false_iff_ne]
    omega
  unfold portOf
  rw [Storage.Seal.fromUtf8_utf8, Option.bind_some]
  unfold portFile
  rw [String.toList_ofList, List.takeWhile_append_of_pos (digits_ne_newline _)]
  simp only [ne_eq, not_true_eq_false, decide_false, Bool.false_eq_true, not_false_eq_true,
    List.takeWhile_cons_of_neg, List.append_nil]
  rw [trim_of_all hspace, parseU16_toDigits]

/-- A line of one class, with nothing around it. -/
theorem lineMatch_of_all {p : Char → Bool} {l : List Char} (hne : l ≠ []) (hp : ∀ c ∈ l, p c = true)
    (hspace : ∀ c ∈ l, luaSpace c = false) : lineMatch p l = some l := by
  have hdrop : l.dropWhile luaSpace = l := by
    rcases l with _ | ⟨c, l⟩
    · rfl
    · exact List.dropWhile_cons_of_neg (by simp [hspace c List.mem_cons_self])
  have htake : l.takeWhile p = l := List.takeWhile_eq_self_iff.mpr hp
  have hrest : l.dropWhile p = [] := List.dropWhile_eq_nil_iff.mpr hp
  unfold lineMatch
  simp [hdrop, htake, hrest, hne]

theorem readLine_append {l rest : List Char} (hl : ∀ c ∈ l, (decide (c ≠ '\n')) = true) :
    readLine (l ++ '\n' :: rest) = (some l, rest) := by
  have hne : l ++ '\n' :: rest ≠ [] := by simp
  unfold readLine
  split
  · exact absurd ‹_› hne
  · rw [List.takeWhile_append_of_pos hl, List.dropWhile_append_of_pos hl]
    simp

/-- **The plugin reads what the daemon wrote**: a token that is one word. -/
theorem readPortFile_portFile (hne : token.toList ≠ [])
    (htoken : ∀ c ∈ token.toList, 0x20 < c.toNat ∧ c.toNat < 128) :
    readPortFile (utf8 (portFile port token)) = some (port.toNat, token.toList) := by
  have hspace : ∀ c ∈ token.toList, luaSpace c = false := by
    intro c hc
    have := htoken c hc
    unfold luaSpace
    simp only [Bool.or_eq_false_iff, Bool.and_eq_false_iff, decide_eq_false_iff_not]
    omega
  have hline : ∀ c ∈ token.toList, (decide (c ≠ '\n')) = true := by
    intro c hc
    refine decide_eq_true fun heq => ?_
    have := htoken c hc
    rw [heq] at this
    revert this
    decide
  have hdigits : ∀ c ∈ Nat.toDigits 10 port.toNat, luaSpace c = false := by
    intro c hc
    have := isDigit_toNat (Nat.isDigit_of_mem_toDigits (by omega) (by omega) hc)
    unfold luaSpace
    simp only [Bool.or_eq_false_iff, Bool.and_eq_false_iff, decide_eq_false_iff_not]
    omega
  have hport : lineMatch Char.isDigit (Nat.toDigits 10 port.toNat) = some (Nat.toDigits 10 port.toNat) :=
    lineMatch_of_all Nat.toDigits_ne_nil
      (fun c hc => Nat.isDigit_of_mem_toDigits (by omega) (by omega) hc) hdigits
  have hword : lineMatch (fun c => !luaSpace c) token.toList = some token.toList :=
    lineMatch_of_all hne (fun c hc => by rw [hspace c hc]; rfl) hspace
  unfold readPortFile portFile
  rw [latin_utf8 (ascii_portFile fun c hc => (htoken c hc).2), readLine_append (digits_ne_newline _)]
  dsimp only
  rw [readLine_append hline]
  simp only [Option.bind_some, hport, hword, natValue_toDigits]

/-- Of a port and a token that was drawn. -/
theorem readPortFile_randomToken {b : Bytes} (hb : b ≠ []) :
    readPortFile (utf8 (portFile port (randomToken b))) = some (port.toNat, (randomToken b).toList) := by
  refine readPortFile_portFile (fun hnil => ?_) fun c hc => ?_
  · have hlen : (randomToken b).toList.length = 2 * b.length := length_randomToken
    rw [hnil] at hlen
    exact hb (List.length_eq_zero_iff.mp (by simpa using hlen))
  · have hall : "0123456789abcdef".toList.all (fun c => decide (0x20 < c.toNat ∧ c.toNat < 128)) = true := by
      decide
    exact of_decide_eq_true (List.all_eq_true.mp hall c (mem_randomToken hc))

end RoundTrip

end Kmatrix.Ipc.PortFile
