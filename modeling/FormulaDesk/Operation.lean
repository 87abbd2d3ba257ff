/-
  FormulaDesk.Operation
  ──────────────────────────────────────
  **OPERATIONS.**

  An operation is a tree whose operators and functions have slots for their
  operands, and a slot may be free: so a tree under construction is an
  operation too.  An atom of an operator-first sequence begins one: a number
  or a name is whole at once, an operator or a function waits in a shell of
  free slots.

    • `Operation.evaluate` — the value under known values, or the fault that
      comes first in operator-first order;
    • `Operation.induct` — induction through the slots.
-/
import FormulaDesk.Known
import FormulaDesk.Number.Shortest

namespace FormulaDesk

/-! ## §1. Atoms. -/

/-- An atom of an operator-first sequence: a number, or the text of a number,
an operator, a function or a name. -/
inductive Atom where
  | number (value : Float)
  | symbol (text : String)
deriving DecidableEq

/-- How a message quotes an atom. -/
def Atom.text : Atom → String
  | .number value => Number.plain value
  | .symbol text => text

/-! ## §2. Operations. -/

/-- An operation, with its free slots. -/
inductive Operation where
  /-- Nothing at all, before the first atom. -/
  | empty
  | number (value : Float)
  | named (name : String)
  | binary (op : Operator) (first second : Option Operation)
  | call (f : Func) (argument : Option Operation)

namespace Operation

/-- The operation that an atom begins. -/
def ofAtom : Atom → Operation
  | .number value => .number value
  | .symbol text =>
    match Number.literal? text.toList with
    | some value => .number value
    | none =>
      match Operator.ofText? text with
      | some op => .binary op none none
      | none =>
        match Func.ofName? text with
        | some f => .call f none
        | none => .named text

/-- Every slot of the root holds something.  Nothing at all is not filled. -/
def isFilled : Operation → Bool
  | .empty => false
  | .number _ => true
  | .named _ => true
  | .binary _ first second => first.isSome && second.isSome
  | .call _ argument => argument.isSome

/-- The operation with an operand in its first free slot, if it has one. -/
def fill (shell operand : Operation) : Operation :=
  match shell with
  | .binary op none second => .binary op (some operand) second
  | .binary op (some a) none => .binary op (some a) (some operand)
  | .call f none => .call f (some operand)
  | whole => whole

/-- The text of the atom that began an operation. -/
def symbol : Operation → String
  | .empty => ""
  | .number value => Number.plain value
  | .named name => name
  | .binary op _ _ => op.text
  | .call f _ => f.name

/-- The value of an operation.  A shell with a free slot is a fault before
anything inside it is looked at; of two operands the first comes first. -/
def evaluate (known : KnownValues) : Operation → Except SequenceFault Float
  | .empty => .error .empty
  | .number value => .ok value
  | .named name =>
    match known[name]? with
    | some value => .ok value
    | none => .error (.unboundVariable name)
  | .binary op (some a) (some b) => do
    let x ← a.evaluate known
    let y ← b.evaluate known
    return op.apply x y
  | .call f (some a) => do
    let x ← a.evaluate known
    return f.apply x
  | .binary op _ _ => .error (.unfilledOperand op.text)
  | .call f none => .error (.unfilledOperand f.name)

/-- Induction on an operation, through its filled slots. -/
@[elab_as_elim]
theorem induct {motive : Operation → Prop} (empty : motive .empty)
    (number : ∀ value, motive (.number value)) (named : ∀ name, motive (.named name))
    (binary : ∀ op first second, (∀ a, first = some a → motive a) →
      (∀ b, second = some b → motive b) → motive (.binary op first second))
    (call : ∀ f argument, (∀ a, argument = some a → motive a) →
      motive (.call f argument)) :
    ∀ o, motive o
  | .empty => empty
  | .number value => number value
  | .named name => named name
  | .binary op none none => binary op _ _ (by simp) (by simp)
  | .binary op (some a) none =>
    binary op _ _ (by rintro _ ⟨⟩; exact induct empty number named binary call a) (by simp)
  | .binary op none (some b) =>
    binary op _ _ (by simp) (by rintro _ ⟨⟩; exact induct empty number named binary call b)
  | .binary op (some a) (some b) =>
    binary op _ _ (by rintro _ ⟨⟩; exact induct empty number named binary call a)
      (by rintro _ ⟨⟩; exact induct empty number named binary call b)
  | .call f none => call f _ (by simp)
  | .call f (some a) =>
    call f _ (by rintro _ ⟨⟩; exact induct empty number named binary call a)

end Operation

end FormulaDesk
