/-
  FormulaDesk.Fault
  ──────────────────────────────────────
  **WHAT CAN BE WRONG WITH A FORMULA.**

  One type of faults per reader: `TextFault` for the text, `FormulaFault` for
  the tokens, `SequenceFault` for an operator-first sequence and its value,
  `KnownFault` for the known values.  A fault is a cause with its data; the
  words that the desk shows for it are given by `message` and nowhere else.
  Positions count characters from 0.
-/
import FormulaDesk.Symbol

namespace FormulaDesk

/-! ## §1. Faults of a text. -/

/-- Why a text has no tokens. -/
inductive TextFault where
  | unsupportedCharacter (c : Char) (position : Nat)
  | unexpectedClosing (position : Nat)
  /-- The place is that of the opening parenthesis. -/
  | unclosed (position : Nat)
  | incompleteToken (text : String) (position : Nat)
  | nestingTooDeep (position : Nat)
deriving DecidableEq

/-- How the desk words a fault of a text. -/
def TextFault.message : TextFault → String
  | .unsupportedCharacter c p => s!"caractère inattendu: '{c}' (position {p})"
  | .unexpectedClosing p => s!"parenthèse fermante sans ouvrante (position {p})"
  | .unclosed p => s!"parenthèse non fermée (ouverte position {p})"
  | .incompleteToken t p => s!"jeton incomplet: '{t}' (position {p})"
  | .nestingTooDeep p => s!"parenthèses trop imbriquées (position {p})"

/-! ## §2. Faults of a list of tokens. -/

/-- Why a list of tokens is no formula. -/
inductive FormulaFault where
  | empty
  | missingOperand (op : Operator)
  | missingOperator
  | functionWithoutArgument (name : String)
  | nestingTooDeep
deriving DecidableEq

/-- How the desk words a fault of the tokens. -/
def FormulaFault.message : FormulaFault → String
  | .empty => "Entrée vide"
  | .missingOperand op => s!"opérande manquant pour '{op.symbol}'"
  | .missingOperator => "opérateur manquant entre deux termes"
  | .functionWithoutArgument name => s!"fonction sans argument: '{name}'"
  | .nestingTooDeep => "expression trop imbriquée"

/-! ## §3. Faults of an operator-first sequence. -/

/-- Why an operator-first sequence, or the operation it builds, has no value. -/
inductive SequenceFault where
  | empty
  | unfilledOperand (symbol : String)
  | trailingAtom (atom : String)
  | unboundVariable (name : String)
  | nestingTooDeep
deriving DecidableEq

/-- How the desk words a fault of a sequence. -/
def SequenceFault.message : SequenceFault → String
  | .empty => "séquence préfixe vide"
  | .unfilledOperand symbol => s!"opérande manquant pour '{symbol}'"
  | .trailingAtom atom => s!"atome en trop après une expression complète: '{atom}'"
  | .unboundVariable name => s!"variable sans valeur: '{name}'"
  | .nestingTooDeep => "séquence préfixe trop imbriquée"

/-! ## §4. Faults of a calculation. -/

/-- Why a calculation has no value. -/
inductive Fault where
  | text (fault : TextFault)
  | formula (fault : FormulaFault)
  | sequence (fault : SequenceFault)
deriving DecidableEq

/-- How the desk words a fault of a calculation. -/
def Fault.message : Fault → String
  | .text fault => fault.message
  | .formula fault => fault.message
  | .sequence fault => fault.message

/-! ## §5. Faults of the known values. -/

/-- Why a text gives no known values. -/
inductive KnownFault where
  | missingEquals (piece : String)
  | invalidName (name : String)
  | invalidValue (name value : String)
deriving DecidableEq

/-- How the desk words a fault of the known values. -/
def KnownFault.message : KnownFault → String
  | .missingEquals piece => s!"liaison sans '=': '{piece}'"
  | .invalidName name => s!"nom de variable invalide: '{name}'"
  | .invalidValue name value => s!"valeur invalide pour {name}: '{value}'"

end FormulaDesk
