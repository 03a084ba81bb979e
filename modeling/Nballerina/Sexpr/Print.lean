import Nballerina.Comm.DecimalText
import Nballerina.Sexpr.Document

/-!
# Printing s-expressions (`comm.sexpr/print.bal`)

`append` writes a tree with one space between the items of a list, or a line break and an indentation
where the caller asks for one. What it writes is the text of a document without comments
(`appendItems_document`).

Mirroring notes:
- `buf` is the text put together so far.
- The index array is one array, pushed to and popped from on the way. The indenter reads it; it may keep a
  state of its own, and answer differently for the same index. An indenter that changes the array is left
  out.
- `toString` of an int gives its decimal digits, after a minus sign if it is negative.
-/

namespace Nballerina.Sexpr

open Nballerina.Lib Nballerina.Comm

/-- A predicate on indices, with the state it keeps. -/
abbrev Indenter (σ : Type) := σ → List Int → Bool × σ

structure Printer (σ : Type) where
  buf : Text
  index : List Int
  own : σ

namespace Printer

variable {σ : Type}

def push (p : Printer σ) (s : Text) : Printer σ := { p with buf := p.buf ++ s }

def pushIf (p : Printer σ) (cond : Bool) (s : Text) : Printer σ := if cond then p.push s else p

end Printer

def appendEscaped (str : Text) : Text :=
  str.flatMap fun c =>
    if c = BACKSLASH then [BACKSLASH, BACKSLASH]
    else if c = LINE_FEED then [BACKSLASH, 'n']
    else if c = QUOTE then [BACKSLASH, QUOTE]
    else [c]

/-- `toString` of an int. -/
def intToString (n : Int) : Text := if n < 0 then MINUS :: Nat.toDigits 10 n.natAbs else Nat.toDigits 10 n.natAbs

/-- `toString` of a boolean. -/
def booleanToString (b : Bool) : Text := if b then ['t', 'r', 'u', 'e'] else ['f', 'a', 'l', 's', 'e']

section
variable {σ : Type}

/-- `indentAt != () && indentAt(index)` -/
def askIndenter (indentAt : Option (Indenter σ)) (p : Printer σ) : Bool × Printer σ :=
  match indentAt with
  | none => (false, p)
  | some f => ((f p.own p.index).1, { p with own := (f p.own p.index).2 })

mutual

def append (indentAt : Option (Indenter σ)) (p : Printer σ) (sexpr : Data) (level : Int) (space topLevel : Bool) :
    Printer σ :=
  match sexpr with
  | .list items =>
    let (breaks, p) := askIndenter indentAt p
    let p :=
      if breaks then (p.push [LINE_FEED]).push (List.replicate level.toNat [' ', ' ', ' ', ' ']).flatten
      else p.pushIf space [' ']
    let p := p.pushIf (!topLevel) [OPEN_PAREN]
    let p := { p with index := p.index ++ [0] }
    let indexLast := p.index.length - 1
    let p := appendItems indentAt p items level indexLast false
    let p := { p with index := p.index.dropLast }
    p.pushIf (!topLevel) [CLOSE_PAREN]
  | .string s => (((p.pushIf space [' ']).push [QUOTE]).push (appendEscaped s)).push [QUOTE]
  | .symbol s => (p.pushIf space [' ']).push s
  | .boolean b => (p.pushIf space [' ']).push (booleanToString b)
  | .int n => (p.pushIf space [' ']).push (intToString n)

/-- The loop over the items of a list. -/
def appendItems (indentAt : Option (Indenter σ)) (p : Printer σ) (items : List Data) (level : Int) (indexLast : Nat)
    (afterFirst : Bool) : Printer σ :=
  match items with
  | [] => p
  | item :: items =>
    let p := append indentAt p item (level + 1) afterFirst false
    let p := { p with index := p.index.modify indexLast (· + 1) }
    appendItems indentAt p items level indexLast true

end

/-- From the state `own` of the indenter. -/
def prettyPrint (topLevel : List Data) (indentAt : Option (Indenter σ)) (own : σ) : Text :=
  (append indentAt { buf := [], index := [], own := own } (.list topLevel) (-1) false true).buf

end

/-! ## Numbers -/

theorem digitChar_eq : ∀ digit : Fin 10, digitChar digit = Nat.digitChar digit := by
  decide

/-- A digit as `toString` writes it. -/
theorem digitFromString_natDigitChar {digit : Nat} (h : digit < 10) :
    digitFromString (Nat.digitChar digit) = some digit :=
  (congrArg digitFromString (digitChar_eq ⟨digit, h⟩)).symm.trans (digitFromString_digitChar ⟨digit, h⟩)

/-- By strong induction: the last digit is the remainder. -/
theorem mapM_toDigits (n : Nat) : ∃ digits, (Nat.toDigits 10 n).mapM digitFromString = some digits ∧
    Decimal128.digitsValue digits = n := by
  induction n using Nat.strongRecOn with
  | ind n ih =>
    by_cases hn : n < 10
    · refine ⟨[n], ?_, ?_⟩
      · rw [Nat.toDigits_of_lt_base hn, List.mapM_cons, digitFromString_natDigitChar hn]
        rfl
      · exact Nat.zero_add n
    · have hlt : n % 10 < 10 := Nat.mod_lt n (by omega)
      obtain ⟨digits, hmap, hvalue⟩ := ih (n / 10) (by omega)
      refine ⟨digits ++ [n % 10], ?_, ?_⟩
      · rw [Nat.toDigits_of_base_le (by omega) (by omega), List.mapM_append, hmap, List.mapM_cons,
          digitFromString_natDigitChar hlt]
        rfl
      · rw [Decimal128.digitsValue_concat, hvalue]
        omega

theorem isDigit_toDigits {n : Nat} {c : Char} (h : c ∈ Nat.toDigits 10 n) : c.isDigit = true :=
  Nat.isDigit_of_mem_toDigits (by omega) (by omega) h

theorem toDigits_cons (n : Nat) : ∃ c cs, Nat.toDigits 10 n = c :: cs ∧ c.isDigit = true ∧ ∀ d ∈ cs, d.isDigit = true := by
  have hall : ∀ c ∈ Nat.toDigits 10 n, c.isDigit = true := fun c h => isDigit_toDigits h
  cases hn : Nat.toDigits 10 n with
  | nil => exact absurd hn Nat.toDigits_ne_nil
  | cons c cs =>
    rw [hn] at hall
    exact ⟨c, cs, rfl, hall c (.head _), fun d hd => hall d (.tail _ hd)⟩

theorem isDigit_ne {c d : Char} (hc : c.isDigit = true) (hd : d.isDigit = false) : c ≠ d := by
  intro h
  rw [h, hd] at hc
  cases hc

theorem checkedInt_self {n : Int} (h : -2 ^ 63 ≤ n ∧ n < 2 ^ 63) : checkedInt n = some n := if_pos h

/-- `int:fromString` is the inverse of `toString`. -/
theorem intFromString_intToString {n : Int} (h : -2 ^ 63 ≤ n ∧ n < 2 ^ 63) : intFromString (intToString n) = some n := by
  obtain ⟨digits, hmap, hvalue⟩ := mapM_toDigits n.natAbs
  unfold intToString
  by_cases hn : n < 0
  · have hneg : -(n.natAbs : Int) = n := by omega
    have hsign : ('-' :: Nat.toDigits 10 n.natAbs)[0]? = some '-' := rfl
    rw [if_pos hn, intFromString_eq Nat.toDigits_ne_nil (if_pos (.inl hsign)) hmap, if_pos hsign, hvalue,
      hneg, checkedInt_self h]
  · obtain ⟨c, cs, hcons, hc, -⟩ := toDigits_cons n.natAbs
    have hpos : (n.natAbs : Int) = n := by omega
    have hminus : (c :: cs)[0]? ≠ some '-' := fun h => isDigit_ne hc (by decide) (Option.some.inj h)
    have hplus : (c :: cs)[0]? ≠ some '+' := fun h => isDigit_ne hc (by decide) (Option.some.inj h)
    rw [hcons] at hmap
    rw [if_neg hn, hcons, intFromString_eq (List.cons_ne_nil c cs) (if_neg (not_or.mpr ⟨hminus, hplus⟩)) hmap,
      if_neg hminus, hvalue, hpos, checkedInt_self h]

end Nballerina.Sexpr
