import Mathlib.Data.List.TakeWhile
import Nballerina.Lib.Utf8

/-!
# Identifiers of LLVM (`print.llvm`)

How `print.llvm/llvm.bal` writes a name (`escapeIdent`), and how the LLVM assembler reads the name of a
value or a block: as it stands, in quotes with escaped bytes, or as a number. Whatever is read back is
the name that was written, unless it was written without quotes and more letters follow
(`readName_escapeIdent`).

Mirroring notes:
- A string is the list of its characters. What LLVM knows a value by is a sequence of bytes.
- `readName` follows the language reference of LLVM and the lexer that implements it: of `\` and two
  hexadecimal digits it makes a byte, of `\\` one `\`, and a `\` before anything else stays.
-/

namespace Nballerina.PrintLlvm

open Lib

/-- A string, by its characters. -/
abbrev Text := List Char

/-! ## `escapeIdent` -/

def isDigit (ch : Char) : Bool := decide ('0' ≤ ch) && decide (ch ≤ '9')

def isAlpha (ch : Char) : Bool :=
  (decide ('a' ≤ ch) && decide (ch ≤ 'z')) || (decide ('A' ≤ ch) && decide (ch ≤ 'Z'))

def isAlnum (ch : Char) : Bool := isAlpha ch || isDigit ch

def isIdentOther (ch : Char) : Bool := ch == '$' || ch == '.' || ch == '_' || ch == '-'

def isIdentFollow (ch : Char) : Bool := isAlnum ch || isIdentOther ch

def isIdent : Text → Bool
  | [] => false
  | ch :: name => !isDigit ch && (ch :: name).all isIdentFollow

/-- `n.toHexString().toUpperAscii()`. -/
def hexUpper (n : Nat) : Text := (Nat.toDigits 16 n).map Char.toUpper

def escapeIdentChar (ch : Char) : Text :=
  let cp := ch.toNat
  if 0x20 ≤ cp ∧ cp < 0x7F ∧ ch ≠ '"' ∧ ch ≠ '\\' then [ch]
  else if cp > 0x7F then (encodeChar ch).flatMap fun b => '\\' :: hexUpper b.toNat
  else
    let hex := hexUpper cp
    if hex.length = 1 then '\\' :: '0' :: hex else '\\' :: hex

def escapeIdent (name : Text) : Text :=
  if isIdent name then name else '"' :: (name.flatMap escapeIdentChar ++ ['"'])

/-! ## Names as LLVM reads them -/

/-- What a value or a block is known by. -/
inductive LocalName where
  | named (bytes : List Byte)
  | numbered (n : Nat)
deriving DecidableEq, Repr

def hexDigitValue (ch : Char) : Option Nat :=
  if isDigit ch then some (ch.toNat - '0'.toNat)
  else if 'A' ≤ ch ∧ ch ≤ 'F' then some (ch.toNat - 'A'.toNat + 10)
  else if 'a' ≤ ch ∧ ch ≤ 'f' then some (ch.toNat - 'a'.toNat + 10)
  else none

/-- The bytes of a quoted name. -/
def unescape : Text → List Byte
  | [] => []
  | [ch] => encodeChar ch
  | ch :: next :: cs =>
    if ch ≠ '\\' then encodeChar ch ++ unescape (next :: cs)
    else if next = '\\' then encodeChar ch ++ unescape cs
    else
      match cs with
      | [] => encodeChar ch ++ unescape [next]
      | last :: cs =>
        match hexDigitValue next, hexDigitValue last with
        | some high, some low => BitVec.ofNat 8 (high * 16 + low) :: unescape cs
        | _, _ => encodeChar ch ++ unescape (next :: last :: cs)

/-- Reads the name of a value after its `%`, or that of a block at its label. -/
def readName : Text → Option (LocalName × Text)
  | [] => none
  | ch :: cs =>
    if ch = '"' then
      match cs.dropWhile (· != '"') with
      | [] => none
      | _ :: rest => some (.named (unescape (cs.takeWhile (· != '"'))), rest)
    else if isDigit ch then
      some (.numbered (Nat.ofDigitChars 10 ((ch :: cs).takeWhile isDigit) 0), (ch :: cs).dropWhile isDigit)
    else if isIdentFollow ch then
      some (.named (utf8 ((ch :: cs).takeWhile isIdentFollow)), (ch :: cs).dropWhile isIdentFollow)
    else none

/-- Reads a value where it is mentioned. -/
def readLocal : Text → Option LocalName
  | '%' :: cs => (readName cs).map Prod.fst
  | _ => none

/-- Reads a line that labels a block. -/
def readLabel (line : Text) : Option LocalName :=
  match readName line with
  | some (name, [':']) => some name
  | _ => none

/-! ## Reading what was written -/

theorem takeWhile_all {p : Char → Bool} {cs rest : Text} (h : ∀ c ∈ cs, p c = true)
    (hrest : ∀ c ∈ rest.head?, p c = false) :
    (cs ++ rest).takeWhile p = cs ∧ (cs ++ rest).dropWhile p = rest := by
  rw [List.takeWhile_append_of_pos h, List.dropWhile_append_of_pos h]
  cases rest with
  | nil => exact ⟨by rw [List.takeWhile_nil, List.append_nil], rfl⟩
  | cons c rest =>
    have hc : ¬p c = true := by
      rw [hrest c (Option.mem_some_self c)]
      exact Bool.false_ne_true
    rw [List.takeWhile_cons_of_neg hc, List.dropWhile_cons_of_neg hc, List.append_nil]
    exact ⟨rfl, rfl⟩

/-! An escaped byte is a `\` and two digits, whichever way it was written. -/

def upperDigit (n : Nat) : Char := (Nat.digitChar n).toUpper

/-- A byte as it is escaped. -/
def escapedByte (b : Byte) : Text := ['\\', upperDigit (b.toNat / 16), upperDigit (b.toNat % 16)]

theorem upperDigit_reads {n : Nat} (h : n < 16) :
    hexDigitValue (upperDigit n) = some n ∧ upperDigit n ≠ '\\' ∧ upperDigit n ≠ '"' := by
  revert n
  decide

theorem hexUpper_of_lt {n : Nat} (h : n < 16) : hexUpper n = [upperDigit n] := by
  rw [hexUpper, Nat.toDigits_of_lt_base h]
  rfl

theorem hexUpper_of_le {n : Nat} (hle : 16 ≤ n) (hlt : n < 256) :
    hexUpper n = [upperDigit (n / 16), upperDigit (n % 16)] := by
  rw [hexUpper, Nat.toDigits_of_base_le (by omega) hle, Nat.toDigits_of_lt_base (by omega)]
  rfl

/-- A character is written as it is, or its bytes are escaped. -/
theorem escapeIdentChar_cases (ch : Char) :
    (escapeIdentChar ch = [ch] ∧ ch ≠ '"' ∧ ch ≠ '\\') ∨
      escapeIdentChar ch = (encodeChar ch).flatMap escapedByte := by
  unfold escapeIdentChar
  dsimp only
  split
  next h => exact .inl ⟨rfl, h.2.2⟩
  next h =>
    right
    split
    next hcp =>
      -- the code point has several bytes, all of them from `0x80` on
      refine List.flatMap_congr fun b hb => ?_
      have hge : 0x80 ≤ b.toNat := by
        rcases encodeChar_cases ch with ⟨hc, ec⟩ | ⟨hc, hc', ec⟩ | ⟨hc, hc', ec⟩ | ⟨hc, hc', ec⟩ <;>
          rw [ec] at hb <;> simp only [List.mem_cons, List.not_mem_nil, or_false] at hb
        · omega
        · rcases hb with rfl | rfl <;> rw [BitVec.toNat_ofNat] <;> omega
        · rcases hb with rfl | rfl | rfl <;> rw [BitVec.toNat_ofNat] <;> omega
        · rcases hb with rfl | rfl | rfl | rfl <;> rw [BitVec.toNat_ofNat] <;> omega
      rw [hexUpper_of_le (by omega) b.isLt]
      rfl
    next hcp =>
      rcases encodeChar_cases ch with ⟨hc, ec⟩ | ⟨hc, -⟩ | ⟨hc, -⟩ | ⟨hc, -⟩
      · rw [ec, List.flatMap_singleton, escapedByte, BitVec.toNat_ofNat,
          Nat.mod_eq_of_lt (by omega : ch.toNat < 2 ^ 8)]
        rcases Nat.lt_or_ge ch.toNat 16 with hlt | hge
        · rw [hexUpper_of_lt hlt, if_pos List.length_singleton, Nat.div_eq_of_lt hlt, Nat.mod_eq_of_lt hlt]
          rfl
        · rw [hexUpper_of_le hge (by omega), if_neg (by simp only [List.length_cons, List.length_nil]; omega)]
      · omega
      · omega
      · omega

/-- What is escaped is read back, and has no quote in it. -/
theorem unescape_escapedByte (bytes : List Byte) (cs : Text) :
    unescape (bytes.flatMap escapedByte ++ cs) = bytes ++ unescape cs := by
  induction bytes with
  | nil => rfl
  | cons b bytes ih =>
    have hb := b.isLt
    obtain ⟨hhigh, hne, -⟩ := upperDigit_reads (n := b.toNat / 16) (by omega)
    obtain ⟨hlow, -, -⟩ := upperDigit_reads (n := b.toNat % 16) (by omega)
    rw [List.flatMap_cons, List.append_assoc, escapedByte]
    simp only [List.cons_append, List.nil_append]
    rw [unescape, if_neg (fun h => h rfl), if_neg hne]
    simp only [hhigh, hlow]
    rw [ih, Nat.mul_comm, Nat.div_add_mod, BitVec.ofNat_toNat, BitVec.setWidth_eq]

theorem not_quote_escapedByte (bytes : List Byte) : '"' ∉ bytes.flatMap escapedByte := by
  intro h
  obtain ⟨b, -, hb⟩ := List.mem_flatMap.mp h
  have := b.isLt
  obtain ⟨-, -, hhigh⟩ := upperDigit_reads (n := b.toNat / 16) (by omega)
  obtain ⟨-, -, hlow⟩ := upperDigit_reads (n := b.toNat % 16) (by omega)
  rw [escapedByte] at hb
  simp only [List.mem_cons, List.not_mem_nil, or_false] at hb
  rcases hb with hb | hb | hb
  · exact absurd hb (by decide)
  · exact hhigh hb.symm
  · exact hlow hb.symm

theorem unescape_cons {ch : Char} (h : ch ≠ '\\') (cs : Text) : unescape (ch :: cs) = encodeChar ch ++ unescape cs := by
  cases cs with
  | nil => exact (List.append_nil _).symm
  | cons next cs =>
    rw [unescape.eq_def]
    exact if_pos h

theorem unescape_escapeIdentChar (name : Text) : unescape (name.flatMap escapeIdentChar) = utf8 name := by
  induction name with
  | nil => rfl
  | cons ch name ih =>
    rw [List.flatMap_cons, utf8_cons, ← ih]
    rcases escapeIdentChar_cases ch with ⟨h, -, hne⟩ | h
    · rw [h]
      exact unescape_cons hne _
    · rw [h, unescape_escapedByte]

theorem not_quote_escapeIdentChar (name : Text) : '"' ∉ name.flatMap escapeIdentChar := by
  intro h
  obtain ⟨ch, -, hch⟩ := List.mem_flatMap.mp h
  rcases escapeIdentChar_cases ch with ⟨heq, hne, -⟩ | heq
  · rw [heq] at hch
    exact hne (List.mem_singleton.mp hch).symm
  · rw [heq] at hch
    exact not_quote_escapedByte _ hch

/-- Letters and digits of an identifier are not quotes, and its first one is no digit. -/
theorem isIdent_cons {name : Text} (h : isIdent name = true) :
    ∃ ch cs, name = ch :: cs ∧ ch ≠ '"' ∧ isDigit ch = false ∧ ∀ c ∈ name, isIdentFollow c = true := by
  cases name with
  | nil => cases h
  | cons ch cs =>
    obtain ⟨hdigit, hall⟩ := Bool.and_eq_true_iff.mp h
    have hfollow := List.all_eq_true.mp hall
    refine ⟨ch, cs, rfl, ?_, ?_, hfollow⟩
    · rintro rfl
      exact absurd (hfollow _ (.head _)) (by decide)
    · rwa [Bool.not_eq_true'] at hdigit

/-- A name is read back from what is written for it. Without quotes no letter may follow. -/
theorem readName_escapeIdent (name rest : Text)
    (hrest : isIdent name = true → ∀ c ∈ rest.head?, isIdentFollow c = false) :
    readName (escapeIdent name ++ rest) = some (.named (utf8 name), rest) := by
  unfold escapeIdent
  split
  next h =>
    obtain ⟨ch, cs, rfl, hquote, hdigit, hall⟩ := isIdent_cons h
    obtain ⟨htake, hdrop⟩ := takeWhile_all hall (hrest h)
    rw [List.cons_append, readName, if_neg hquote, if_neg (by rw [hdigit]; exact Bool.false_ne_true),
      if_pos (hall ch (.head _)), ← List.cons_append, htake, hdrop]
  next h =>
    have hall : ∀ c ∈ name.flatMap escapeIdentChar, (c != '"') = true := by
      intro c hc
      exact bne_iff_ne.mpr fun heq => not_quote_escapeIdentChar name (heq ▸ hc)
    have hquote : ∀ c ∈ ('"' :: rest).head?, (c != '"') = false := by
      intro c hc
      rw [← Option.mem_some_iff.mp hc]
      rfl
    obtain ⟨htake, hdrop⟩ := takeWhile_all hall hquote
    rw [List.cons_append, List.append_assoc, List.singleton_append, readName, if_pos rfl, htake, hdrop,
      unescape_escapeIdentChar]

/-- A number is read back from its digits. -/
theorem readName_toDigits (n : Nat) (rest : Text) (hrest : ∀ c ∈ rest.head?, isDigit c = false) :
    readName (Nat.toDigits 10 n ++ rest) = some (.numbered n, rest) := by
  have hall : ∀ c ∈ Nat.toDigits 10 n, isDigit c = true :=
    fun c hc => Nat.isDigit_of_mem_toDigits (by omega) (by omega) hc
  obtain ⟨htake, hdrop⟩ := takeWhile_all hall hrest
  have hvalue := Nat.ofDigitChars_toDigits (b := 10) (n := n) (by omega) (by omega)
  cases hn : Nat.toDigits 10 n with
  | nil => exact absurd hn Nat.toDigits_ne_nil
  | cons ch cs =>
    rw [hn] at htake hdrop hvalue hall
    have hdigit := hall ch (.head _)
    have hquote : ch ≠ '"' := by
      rintro rfl
      exact absurd hdigit (by decide)
    rw [List.cons_append, readName, if_neg hquote, if_pos hdigit, ← List.cons_append, htake, hdrop, hvalue]

theorem readLocal_escapeIdent (name : Text) : readLocal ('%' :: escapeIdent name) = some (.named (utf8 name)) := by
  have h := readName_escapeIdent name [] fun _ c hc => by cases hc
  rw [List.append_nil] at h
  rw [readLocal, h]
  rfl

theorem readLocal_toDigits (n : Nat) : readLocal ('%' :: Nat.toDigits 10 n) = some (.numbered n) := by
  have h := readName_toDigits n [] fun c hc => by cases hc
  rw [List.append_nil] at h
  rw [readLocal, h]
  rfl

/-- Different names are written differently. -/
theorem escapeIdent_injective : Function.Injective escapeIdent := by
  intro a b h
  have hread := readLocal_escapeIdent a
  rw [h, readLocal_escapeIdent] at hread
  exact (utf8_injective (LocalName.named.inj (Option.some.inj hread))).symm

theorem toDigits_injective : Function.Injective (Nat.toDigits 10) := by
  intro a b h
  have hread := readLocal_toDigits a
  rw [h, readLocal_toDigits] at hread
  exact (LocalName.numbered.inj (Option.some.inj hread)).symm

/-- A name is not written like a number. -/
theorem escapeIdent_ne_toDigits (name : Text) (n : Nat) : escapeIdent name ≠ Nat.toDigits 10 n := by
  intro h
  have hread := readLocal_escapeIdent name
  rw [h, readLocal_toDigits] at hread
  cases hread

end Nballerina.PrintLlvm
