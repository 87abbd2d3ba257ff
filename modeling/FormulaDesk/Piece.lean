/-
  FormulaDesk.Piece
  ──────────────────────────────────────
  **THE PIECES OF A TEXT.**

  Any text at all falls into pieces, left to right: blanks, parentheses,
  lexemes, and stray characters that begin no lexeme.  Nothing is lost and
  nothing is judged: what a piece means, and where it is a fault, is for the
  readers of the pieces.  Two pieces touch in the text exactly when they are
  neighbours in the list.

    • `Piece.textOf_split` — the pieces, end to end, are the text;
    • `Piece.textOf_append` — texts of pieces follow one another.
-/
import FormulaDesk.Lexeme
import FormulaDesk.Text.Blank

namespace FormulaDesk

open FormulaDesk.Text (isBlank)

/-- A piece of a text. -/
inductive Piece where
  | blank (c : Char)
  | opening
  | closing
  | lexeme (l : Lexeme)
  /-- A character that is none of these and begins no lexeme. -/
  | stray (c : Char)
deriving DecidableEq

namespace Piece

/-- The characters of a piece. -/
def text : Piece → List Char
  | .blank c => [c]
  | .opening => ['(']
  | .closing => [')']
  | .lexeme l => l.text
  | .stray c => [c]

/-- The pieces end to end. -/
def textOf (ps : List Piece) : List Char := ps.flatMap text

/-- The pieces of a text, each lexeme as long as it can be. -/
def split : List Char → List Piece
  | [] => []
  | c :: cs =>
    if isBlank c then .blank c :: split cs
    else if c = '(' then .opening :: split cs
    else if c = ')' then .closing :: split cs
    else
      match Lexeme.longest? (c :: cs) with
      | some l => .lexeme l :: split (cs.drop (l.text.length - 1))
      | none => .stray c :: split cs
termination_by cs => cs.length

@[simp] theorem textOf_nil : textOf [] = [] := rfl

@[simp] theorem textOf_cons (p : Piece) (ps : List Piece) :
    textOf (p :: ps) = p.text ++ textOf ps := List.flatMap_cons

theorem textOf_append (ps qs : List Piece) : textOf (ps ++ qs) = textOf ps ++ textOf qs :=
  List.flatMap_append

/-- **The pieces, end to end, are the text.** -/
theorem textOf_split (cs : List Char) : textOf (split cs) = cs := by
  fun_induction split cs with
  | case1 => rfl
  | case2 c cs _ ih => simp [text, ih]
  | case3 cs _ ih => simp [text, ih]
  | case4 cs _ _ ih => simp [text, ih]
  | case5 c cs _ _ _ l hl ih =>
      obtain ⟨rest, hrest⟩ := Lexeme.longest?_append_drop hl
      have hne := Lexeme.longest?_text_ne_nil hl
      rw [textOf_cons, ih, text]
      cases hc : l.text with
      | nil => exact absurd hc hne
      | cons d ds =>
          rw [hc] at hrest
          obtain ⟨rfl, rfl⟩ := List.cons.inj hrest
          simp
  | case6 c cs _ _ _ _ ih => simp [text, ih]

end Piece

end FormulaDesk
