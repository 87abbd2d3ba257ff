/-
  FormulaDesk.Symbol
  ──────────────────────────────────────
  **THE SYMBOLS OF A FORMULA.**

  Five operators in three tiers, and eleven functions.  An operator is
  written by one character, a function by its whole name: nothing shorter,
  longer or in capitals names it.

    • `Operator.ofSymbol?_eq_some`, `Operator.ofText?_eq_some`,
      `Func.ofName?_eq_some` — the look-ups find exactly what is written.
-/

namespace FormulaDesk

/-- The deepest nesting that a formula may have, in a text, in a tree and in
an operator-first sequence alike. -/
def maxNesting : Nat := 512

/-! ## §1. Tiers. -/

/-- How tightly a symbol binds, from the loosest to the tightest. -/
inductive Tier where
  | additive
  | multiplicative
  | power
  | term
deriving DecidableEq

/-- The place of a tier, `0` for the loosest. -/
def Tier.rank : Tier → Nat
  | .additive => 0
  | .multiplicative => 1
  | .power => 2
  | .term => 3

/-! ## §2. Operators. -/

/-- The binary operators. -/
inductive Operator where
  | add
  | sub
  | mul
  | div
  | pow
deriving DecidableEq

namespace Operator

/-- Every operator, in the order in which the desk shows them. -/
def all : List Operator := [.add, .sub, .mul, .div, .pow]

/-- The character that writes an operator. -/
def symbol : Operator → Char
  | .add => '+'
  | .sub => '-'
  | .mul => '*'
  | .div => '/'
  | .pow => '^'

/-- The operator as a text of one character. -/
def text (op : Operator) : String := String.singleton op.symbol

/-- The tier of an operator. -/
def tier : Operator → Tier
  | .add | .sub => .additive
  | .mul | .div => .multiplicative
  | .pow => .power

/-- Operators of a power group from the right, all others from the left. -/
def groupsRight (op : Operator) : Bool := op.tier == .power

/-- Floating-point arithmetic: a division by zero is infinite or undefined
and never fails. -/
def apply (op : Operator) (a b : Float) : Float :=
  match op with
  | .add => a + b
  | .sub => a - b
  | .mul => a * b
  | .div => a / b
  | .pow => Float.pow a b

/-- The operator that a character writes. -/
def ofSymbol? (c : Char) : Option Operator := all.find? (·.symbol == c)

/-- The operator that a text writes: exactly one character. -/
def ofText? (s : String) : Option Operator :=
  match s.toList with
  | [c] => ofSymbol? c
  | _ => none

@[simp] theorem ofSymbol?_symbol (op : Operator) : ofSymbol? op.symbol = some op := by
  cases op <;> rfl

theorem ofSymbol?_eq_some {c : Char} {op : Operator} :
    ofSymbol? c = some op ↔ c = op.symbol := by
  constructor
  · intro h
    have := List.find?_some h
    simpa using (beq_iff_eq.1 this).symm
  · rintro rfl
    exact ofSymbol?_symbol op

theorem ofText?_eq_some {s : String} {op : Operator} :
    ofText? s = some op ↔ s.toList = [op.symbol] := by
  unfold ofText?
  constructor
  · intro h
    split at h
    next c hc => rw [hc, ofSymbol?_eq_some.1 h]
    next => simp at h
  · intro h
    rw [h]
    exact ofSymbol?_symbol op

end Operator

/-! ## §3. Functions. -/

/-- The functions that a formula may call. -/
inductive Func where
  | sin
  | cos
  | tan
  | asin
  | acos
  | atan
  | sqrt
  | exp
  | ln
  | log
  | abs
deriving DecidableEq

namespace Func

/-- Every function, in the order in which the desk shows them. -/
def all : List Func :=
  [.sin, .cos, .tan, .asin, .acos, .atan, .sqrt, .exp, .ln, .log, .abs]

/-- The name that calls a function. -/
def name : Func → String
  | .sin => "sin"
  | .cos => "cos"
  | .tan => "tan"
  | .asin => "asin"
  | .acos => "acos"
  | .atan => "atan"
  | .sqrt => "sqrt"
  | .exp => "exp"
  | .ln => "ln"
  | .log => "log"
  | .abs => "abs"

/-- The value of a function; `ln` is the natural logarithm, `log` the decimal
one. -/
def apply (f : Func) (x : Float) : Float :=
  match f with
  | .sin => x.sin
  | .cos => x.cos
  | .tan => x.tan
  | .asin => x.asin
  | .acos => x.acos
  | .atan => x.atan
  | .sqrt => x.sqrt
  | .exp => x.exp
  | .ln => x.log
  | .log => x.log10
  | .abs => x.abs

/-- The function of exactly this name. -/
def ofName? (s : String) : Option Func := all.find? (·.name == s)

@[simp] theorem ofName?_name (f : Func) : ofName? f.name = some f := by
  cases f <;> rfl

theorem ofName?_eq_some {s : String} {f : Func} : ofName? s = some f ↔ s = f.name := by
  constructor
  · intro h
    have := List.find?_some h
    simpa using (beq_iff_eq.1 this).symm
  · rintro rfl
    exact ofName?_name f

end Func

end FormulaDesk
