/-
  FormulaDesk.Screen.Entry
  ──────────────────────────────────────
  **TYPING A FORMULA BY KEYS.**

  A key adds its text to the end of the entry, with the blanks that keep it
  apart from what is already there: two names do not join, a number does not
  become the factor of a group by touching it, operators stand between
  spaces.  A function key adds the name with its parenthesis, and `deleteLast`
  takes such a call back at once.
-/
import FormulaDesk.Symbol
import FormulaDesk.Text.Blank

namespace FormulaDesk

/-! ## §1. Keys. -/

/-- The quantities of a uniform motion. -/
inductive Quantity where
  | start
  | finish
  | speed
  | time
  | duration
deriving DecidableEq

/-- Every quantity, in the order of its keys. -/
def Quantity.all : List Quantity := [.start, .finish, .speed, .time, .duration]

/-- The name of a quantity in a formula. -/
def Quantity.name : Quantity → String
  | .start => "x0"
  | .finish => "xf"
  | .speed => "v"
  | .time => "t"
  | .duration => "tf"

/-- The keys that add to the entry. -/
inductive Key where
  | opening
  | closing
  | operator (op : Operator)
  | func (f : Func)
  | quantity (q : Quantity)
  | digit (d : Fin 10)
  | point
deriving DecidableEq

namespace Key

/-- Every key. -/
def all : List Key :=
  [.opening, .closing] ++ Operator.all.map .operator ++ Func.all.map .func ++
    Quantity.all.map .quantity ++ (List.finRange 10).map .digit ++ [.point]

/-- What is written on a key. -/
def label : Key → String
  | .opening => "("
  | .closing => ")"
  | .operator op => op.text
  | .func f => f.name
  | .quantity q => q.name
  | .digit d => toString d.val
  | .point => "."

/-- The text that a key adds, without the blanks around it. -/
def text : Key → List Char
  | .func f => f.name.toList ++ ['(']
  | k => k.label.toList

end Key

/-! ## §2. Adding to the entry. -/

namespace Entry

/-- The last character that is no blank. -/
def lastSolid? (entry : List Char) : Option Char := (Text.trimEnd entry).getLast?

/-- A blank ends the entry. -/
def endsBlank (entry : List Char) : Bool := entry.getLast?.any Text.isBlank

/-- After this character an opening parenthesis needs a space. -/
def partsGroup (c : Char) : Bool := c.isDigit || c == ')'

/-- After this character a name needs a space. -/
def partsName (c : Char) : Bool := c.isAlphanum || c == '_' || c == ')'

/-- The entry with the space that a name needs behind it. -/
def beforeName (entry : List Char) : List Char :=
  if (lastSolid? entry).any partsName && !endsBlank entry then entry ++ [' '] else entry

/-- The entry as it has to stand before a key's text. -/
def before (entry : List Char) : Key → List Char
  | .closing => Text.trimEnd entry
  | .opening => if (lastSolid? entry).any partsGroup then entry ++ [' '] else entry
  | .func _ | .quantity _ => beforeName entry
  | .operator _ =>
    let solid := Text.trimEnd entry
    if solid = [] then [] else solid ++ [' ']
  | .digit _ | .point => entry

/-- What a key puts behind its text. -/
def behind : Key → List Char
  | .operator _ => [' ']
  | _ => []

/-- The entry after a key. -/
def type (entry : List Char) (k : Key) : List Char :=
  before entry k ++ k.text ++ behind k

/-! ## §3. Taking back. -/

/-- How many characters the last symbol of an entry has: the longest function
name with its parenthesis that ends the entry, otherwise one character. -/
def lastSymbolLength (entry : List Char) : Nat :=
  let calls := (Func.all.map fun f => (Key.func f).text).filter (·.isSuffixOf entry)
  ((calls.map List.length).max?).getD 1

/-- The entry without its last symbol and without blanks at its end. -/
def deleteLast (entry : List Char) : List Char :=
  let solid := Text.trimEnd entry
  Text.trimEnd (solid.take (solid.length - lastSymbolLength solid))

end Entry

end FormulaDesk
