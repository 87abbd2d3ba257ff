/-
  FormulaDesk.Token
  ──────────────────────────────────────
  **TOKENS.**

  The tokens of a text, parentheses already paired: a group holds the tokens
  between its parentheses, a call those of its argument.  A function name
  calls an opening parenthesis that touches it; anywhere else it is a
  terminal like every number and name.

  `Token.levels` reads from right to left: what follows a place inside `n`
  parentheses is the end of `n + 1` token lists, those of the levels that are
  open there.  So every piece adds to the front of one list, and an opening
  parenthesis joins the two innermost ones.

    • `Token.render` — the tokens as a text, with a space between any two.
-/
import FormulaDesk.Fault
import FormulaDesk.Piece

namespace FormulaDesk

/-- A token of a formula. -/
inductive Token where
  | terminal (text : String)
  | operator (op : Operator)
  | group (body : List Token)
  | call (f : Func) (body : List Token)

namespace Token

/-- The operator that a token is. -/
def operator? : Token → Option Operator
  | .operator op => some op
  | _ => none

/-- A token that is no operator. -/
def isTerm (t : Token) : Bool := t.operator?.isNone

@[simp] theorem isTerm_operator (op : Operator) : (Token.operator op).isTerm = false := rfl

@[simp] theorem operator?_operator (op : Operator) :
    (Token.operator op).operator? = some op := rfl

theorem operator?_eq_none {t : Token} (h : t.isTerm = true) : t.operator? = none :=
  Option.isNone_iff_eq_none.1 h

theorem eq_operator_of_isTerm {t : Token} (h : t.isTerm = false) :
    ∃ op, t = .operator op := by
  cases t with
  | operator op => exact ⟨op, rfl⟩
  | terminal text => simp [isTerm, operator?] at h
  | group body => simp [isTerm, operator?] at h
  | call f body => simp [isTerm, operator?] at h

/-- The tier of a token. -/
def tier : Token → Tier
  | .operator op => op.tier
  | _ => .term

/-! ## §1. Writing tokens. -/

mutual

/-- A token as a text. -/
def render : Token → List Char
  | .terminal text => text.toList
  | .operator op => [op.symbol]
  | .group body => '(' :: ' ' :: renderAll body ++ [' ', ')']
  | .call f body => f.name.toList ++ '(' :: ' ' :: renderAll body ++ [' ', ')']

/-- Tokens as a text, with a space between any two. -/
def renderAll : List Token → List Char
  | [] => []
  | [t] => render t
  | t :: u :: ts => render t ++ ' ' :: renderAll (u :: ts)

end

/-! ## §2. Reading tokens. -/

/-- The ends of the token lists that are open at a place of a text. -/
structure Levels where
  /-- The rest of the innermost list. -/
  current : List Token
  /-- The rests of the lists around it, the nearest first. -/
  around : List (List Token)

namespace Levels

/-- One more token in front of the innermost list. -/
def push (t : Token) (l : Levels) : Levels := { l with current := t :: l.current }

/-- A closing parenthesis: to its left a new list is open, and ends here. -/
def close (l : Levels) : Levels := ⟨[], l.current :: l.around⟩

/-- An opening parenthesis: the innermost list is whole, and to its left it is
one token of the list around it. -/
def wrap (whole : List Token → Token) (l : Levels) : Levels :=
  ⟨whole l.current :: l.around.headD [], l.around.tail⟩

end Levels

/-- The levels at a place of a text: `position` is the place, `opened` holds
the places of the parentheses that are open there, the innermost first, and
the pieces are those that follow.  The leftmost fault wins; parentheses that
stay open are found last. -/
def levels (position : Nat) (opened : List Nat) : List Piece → Except TextFault Levels
  | [] =>
    match opened with
    | [] => .ok ⟨[], []⟩
    | place :: _ => .error (.unclosed place)
  | .blank _ :: ps => levels (position + 1) opened ps
  | .stray c :: _ => .error (.unsupportedCharacter c position)
  | .closing :: ps =>
    match opened with
    | [] => .error (.unexpectedClosing position)
    | _ :: outer => (levels (position + 1) outer ps).map .close
  | .opening :: ps =>
    if maxNesting ≤ opened.length then .error (.nestingTooDeep position)
    else (levels (position + 1) (position :: opened) ps).map (.wrap .group)
  | .lexeme (.operator op) :: ps =>
    (levels (position + 1) opened ps).map (.push (.operator op))
  | .lexeme (.number whole fraction) :: ps =>
    let l : Lexeme := .number whole fraction
    let text := String.ofList l.text
    if l.complete then
      (levels (position + l.text.length) opened ps).map (.push (.terminal text))
    else .error (.incompleteToken text position)
  | .lexeme (.name letters) :: ps =>
    let name := String.ofList letters
    let next := position + letters.length
    match Func.ofName? name, ps with
    | some f, .opening :: body =>
      if maxNesting ≤ opened.length then .error (.nestingTooDeep next)
      else (levels (next + 1) (next :: opened) body).map (.wrap (.call f))
    | _, ps => (levels next opened ps).map (.push (.terminal name))

/-- The tokens of a text. -/
def ofText (text : String) : Except TextFault (List Token) :=
  (levels 0 [] (Piece.split text.toList)).map (·.current)

/-- Tokens as a text. -/
def toText (ts : List Token) : String := .ofList (renderAll ts)

end Token

end FormulaDesk
