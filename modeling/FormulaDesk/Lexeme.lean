/-
  FormulaDesk.Lexeme
  ──────────────────────────────────────
  **LEXEMES.**

  Three classes of words: numbers (`digit+ ('.' digit+)?`), names
  (`[A-Za-z_][A-Za-z0-9_]*`) and operators (one character).  At any place of
  a text at most one class can begin, and the lexeme there is the longest
  piece that some word of the class begins with.  A number that stops right
  after its point is such a piece without being a word: it is incomplete,
  and no shorter number is tried in its place.

    • `Lexeme.longest?_eq_none_iff` — where nothing begins;
    • `Lexeme.longest?_append_drop` — a lexeme stands at the head of its
      text, and it is never empty.
-/
import FormulaDesk.Symbol

namespace FormulaDesk

/-- A character that may begin a name. -/
def isNameStart (c : Char) : Bool := c.isAlpha || c == '_'

/-- A character that may continue a name. -/
def isNameChar (c : Char) : Bool := c.isAlphanum || c == '_'

/-- A whole text that is a name. -/
def isName : List Char → Bool
  | [] => false
  | c :: cs => isNameStart c && cs.all isNameChar

/-- The classes of lexemes. -/
inductive LexemeClass where
  | number
  | name
  | operator
deriving DecidableEq

/-- A lexeme with its text. -/
inductive Lexeme where
  /-- Digits, and after a point the digits of the fraction, which may still be
  missing. -/
  | number (whole : List Char) (fraction : Option (List Char))
  | name (letters : List Char)
  | operator (op : Operator)
deriving DecidableEq

namespace Lexeme

/-- The characters of a lexeme. -/
def text : Lexeme → List Char
  | .number whole none => whole
  | .number whole (some fraction) => whole ++ '.' :: fraction
  | .name letters => letters
  | .operator op => [op.symbol]

/-- The class of a lexeme. -/
def kind : Lexeme → LexemeClass
  | .number .. => .number
  | .name _ => .name
  | .operator _ => .operator

/-- Every lexeme is a word of its class, but for a number that ends with its
point. -/
def complete : Lexeme → Bool
  | .number _ (some []) => false
  | _ => true

/-- Numbers and names are operands. -/
def isOperand : Lexeme → Bool
  | .operator _ => false
  | _ => true

/-- The number at the head of a text that begins with a digit. -/
def longestNumber (cs : List Char) : Lexeme :=
  .number (cs.takeWhile Char.isDigit) <|
    match cs.dropWhile Char.isDigit with
    | '.' :: rest => some (rest.takeWhile Char.isDigit)
    | _ => none

/-- The longest lexeme at the head of a text; none where no class begins. -/
def longest? : List Char → Option Lexeme
  | [] => none
  | c :: cs =>
    if c.isDigit then some (longestNumber (c :: cs))
    else if isNameStart c then some (.name (c :: cs.takeWhile isNameChar))
    else (Operator.ofSymbol? c).map .operator

/-! ## §1. Where a lexeme stands. -/

theorem longest?_eq_none_iff {cs : List Char} :
    longest? cs = none ↔
      ∀ c, cs.head? = some c →
        c.isDigit = false ∧ isNameStart c = false ∧ Operator.ofSymbol? c = none := by
  cases cs with
  | nil => simp [longest?]
  | cons c cs =>
      by_cases hd : c.isDigit = true
      · simp [longest?, hd]
      · by_cases hn : isNameStart c = true
        · simp [longest?, hd, hn]
        · simp [longest?, hd, hn]

theorem longestNumber_append_drop (cs : List Char) :
    ∃ rest, cs = (longestNumber cs).text ++ rest := by
  unfold longestNumber
  have h := List.takeWhile_append_dropWhile (p := Char.isDigit) (l := cs)
  split
  next rest hr =>
    refine ⟨rest.dropWhile Char.isDigit, ?_⟩
    rw [hr] at h
    simp only [text, List.append_assoc, List.cons_append,
      List.takeWhile_append_dropWhile]
    exact h.symm
  next => exact ⟨_, h.symm⟩

/-- **A lexeme stands at the head of its text.** -/
theorem longest?_append_drop {cs : List Char} {l : Lexeme} (h : longest? cs = some l) :
    ∃ rest, cs = l.text ++ rest := by
  cases cs with
  | nil => simp [longest?] at h
  | cons c cs =>
      rw [longest?] at h
      split at h
      next =>
        obtain rfl := Option.some.inj h
        exact longestNumber_append_drop _
      next =>
        split at h
        next =>
          obtain rfl := Option.some.inj h
          exact ⟨cs.dropWhile isNameChar, by simp [text]⟩
        next =>
          obtain ⟨op, hop, rfl⟩ := Option.map_eq_some_iff.1 h
          exact ⟨cs, by simp [text, Operator.ofSymbol?_eq_some.1 hop]⟩

/-- **A lexeme is never empty.** -/
theorem longest?_text_ne_nil {cs : List Char} {l : Lexeme} (h : longest? cs = some l) :
    l.text ≠ [] := by
  cases cs with
  | nil => simp [longest?] at h
  | cons c cs =>
      rw [longest?] at h
      split at h
      next hd =>
        obtain rfl := Option.some.inj h
        unfold longestNumber
        split <;> simp [text, hd]
      next =>
        split at h
        next =>
          obtain rfl := Option.some.inj h
          simp [text]
        next =>
          obtain ⟨op, _, rfl⟩ := Option.map_eq_some_iff.1 h
          simp [text]

end Lexeme

end FormulaDesk
