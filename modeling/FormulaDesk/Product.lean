/-
  FormulaDesk.Product
  ──────────────────────────────────────
  **PRODUCTS WITHOUT A SIGN.**

  In `2x`, `(a)(b)` or `3 sin(t)` a product is meant and no `*` is written.
  `explicitProducts` writes it, and writes nothing else: a star goes directly
  before an operand (a number, a name, an opening parenthesis) when a value
  (a number, a name, a closed parenthesis) is the last thing before it at the
  same parenthesis level.  A function name that touches an opening
  parenthesis calls it, so no star goes between these two.

  Operators, stray characters and closing parentheses without a partner leave
  no value behind.  Inside more than `maxNesting` parentheses the text stays
  as it is.

    • `Piece.sublist_withProducts` — no piece is lost, changed or moved.
-/
import FormulaDesk.Piece

namespace FormulaDesk

/-- What the pieces read so far leave before the next one, at the level of
parentheses where it stands. -/
inductive Before where
  /-- Nothing that a factor could follow. -/
  | nothing
  /-- A value. -/
  | value
  /-- A function name, which calls an opening parenthesis that touches it and
  is a value before anything else. -/
  | callee
deriving DecidableEq

namespace Before

/-- What a lexeme leaves behind it. -/
def ofLexeme : Lexeme → Before
  | .operator _ => .nothing
  | .number .. => .value
  | .name letters =>
    if (Func.ofName? (String.ofList letters)).isSome then .callee else .value

/-- A blank parts a function name from what follows. -/
def afterBlank : Before → Before
  | .callee => .value
  | b => b

end Before

namespace Piece

/-- The piece that writes a product. -/
def star : Piece := .lexeme (.operator .mul)

/-- A star is due between what came before and this piece. -/
def starDue (before : Before) : Piece → Bool
  | .opening => before == .value
  | .lexeme l => l.isOperand && before != .nothing
  | _ => false

/-- What a piece leaves before the next one, with `opened` parentheses open
where the piece stands.  A closed parenthesis is a value, one without a
partner is not. -/
def leaves (opened : Nat) (before : Before) : Piece → Before
  | .blank _ => before.afterBlank
  | .opening => .nothing
  | .closing => if opened = 0 then .nothing else .value
  | .lexeme l => .ofLexeme l
  | .stray _ => .nothing

/-- How many parentheses are open after a piece. -/
def openedAfter (opened : Nat) : Piece → Nat
  | .opening => opened + 1
  | .closing => opened - 1
  | _ => opened

/-- The pieces with every star that is due. -/
def withProducts (opened : Nat) (before : Before) : List Piece → List Piece
  | [] => []
  | p :: ps =>
    let rest := p :: withProducts (p.openedAfter opened) (p.leaves opened before) ps
    if opened ≤ maxNesting ∧ p.starDue before = true then star :: rest else rest

/-- **No piece is lost, changed or moved.** -/
theorem sublist_withProducts (ps : List Piece) :
    ∀ (opened : Nat) (before : Before), ps.Sublist (withProducts opened before ps) := by
  induction ps with
  | nil => intro opened before; exact List.Sublist.slnil
  | cons p ps ih =>
      intro opened before
      unfold withProducts
      dsimp only
      split
      next => exact ((ih _ _).cons_cons p).cons star
      next => exact (ih _ _).cons_cons p

end Piece

/-- The text with every product written. -/
def explicitProducts (text : String) : String :=
  .ofList (Piece.textOf (Piece.withProducts 0 .nothing (Piece.split text.toList)))

end FormulaDesk
