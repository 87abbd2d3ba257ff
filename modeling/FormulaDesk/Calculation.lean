/-
  FormulaDesk.Calculation
  ──────────────────────────────────────
  **CALCULATIONS.**

  A text is compiled stage by stage: its products are written out, its tokens
  read, the formula built and put into operator-first order.  The trace keeps
  what each stage gave, as text.  The value of the formula is that of its
  sequence under the known values.
-/
import FormulaDesk.Assembly
import FormulaDesk.Formula
import FormulaDesk.Product

namespace FormulaDesk

/-- What each stage of a calculation gave. -/
structure Trace where
  /-- The text with every product written. -/
  products : String
  /-- The tokens, with a space between any two. -/
  tokens : String
  /-- The operator-first sequence, with a space between any two atoms. -/
  sequence : String
  /-- The stages by name. -/
  note : String
deriving DecidableEq

/-- The trace of nothing. -/
def Trace.empty : Trace := ⟨"", "", "", ""⟩

/-- The note of every trace. -/
def Trace.stages : String :=
  "Pipeline: multiplications implicites → jetons → arbre (paliers) → préfixe → " ++
    "pile d’opérations → valeur."

/-- A compiled text. -/
structure Compiled where
  sequence : List String
  trace : Trace
deriving DecidableEq

/-- A fault of one stage, as a fault of the calculation. -/
def Fault.lift {ε α : Type} (kind : ε → Fault) : Except ε α → Except Fault α :=
  Except.mapError kind

/-- Compiles a text as it stands. -/
def compileTrimmed (text : String) : Except Fault Compiled := do
  let products := explicitProducts text
  let tokens ← Fault.lift .text (Token.ofText products)
  let formula ← Fault.lift .formula (Formula.ofTokens tokens)
  let sequence := formula.sequence
  return {
    sequence
    trace := {
      products
      tokens := Token.toText tokens
      sequence := " ".intercalate sequence
      note := Trace.stages } }

/-- Compiles a text without the blanks at its ends; a blank text is no
formula. -/
def compile (text : String) : Except Fault Compiled :=
  let trimmed := Text.trim text.toList
  if trimmed = [] then .error (.formula .empty)
  else compileTrimmed (.ofList trimmed)

/-- A value with the trace that leads to it. -/
structure Calculation where
  value : Float
  trace : Trace
deriving DecidableEq

/-- Calculates a text under known values. -/
def calculate (known : KnownValues) (text : String) : Except Fault Calculation := do
  let compiled ← compile text
  let value ← Fault.lift .sequence (evaluateAtoms known (compiled.sequence.map .symbol))
  return ⟨value, compiled.trace⟩

end FormulaDesk
