/-
  FormulaDesk.Formula
  ──────────────────────────────────────
  **FORMULAS.**

  A formula is a tree of operators and functions over texts.  It is read off
  a list of tokens by tiers: the operator of the loosest tier that stands
  between two terms splits the list, the last one of its tier, for a power
  the first.  A leading `+` or `-` is a sign; it binds tighter than a product
  and looser than a power, and `-E` is `0 - E`.

    • `Formula.sequence` — the tree in operator-first order;
    • `Formula.split?_eq_append` — a split cuts its list in two around an
      operator, with a term on its left.
-/
import FormulaDesk.Token

namespace FormulaDesk

/-- A formula. -/
inductive Formula where
  | leaf (text : String)
  | binary (op : Operator) (left right : Formula)
  | call (f : Func) (argument : Formula)
deriving DecidableEq

namespace Formula

/-- The formula in operator-first order: each operator and function before
its operands. -/
def sequence : Formula → List String
  | .leaf text => [text]
  | .binary op left right => op.text :: (left.sequence ++ right.sequence)
  | .call f argument => f.name :: argument.sequence

/-- The formula `-E`. -/
def negated (e : Formula) : Formula := .binary .sub (.leaf "0") e

/-! ## §1. Where a list of tokens splits. -/

/-- A list of tokens around one of its operators. -/
structure Split where
  left : List Token
  op : Operator
  right : List Token

/-- The split of a longer list, which has one more token on the left. -/
def Split.cons (t : Token) (s : Split) : Split := { s with left := t :: s.left }

/-- Of two operators in reading order, the second is the one to split at when
it is looser, or of the same tier in which operators group from the left. -/
def Split.prefers (first second : Operator) : Bool :=
  second.tier.rank < first.tier.rank ||
    (second.tier == first.tier && !first.groupsRight)

/-- The split of a list of tokens at the loosest operator that follows a term;
`afterTerm` tells whether the list itself does. -/
def split? (afterTerm : Bool) : List Token → Option Split
  | [] => none
  | t :: ts =>
    let later := (split? t.isTerm ts).map (.cons t)
    match afterTerm, t with
    | true, .operator op =>
      match later with
      | some s => if Split.prefers op s.op then some s else some ⟨[], op, ts⟩
      | none => some ⟨[], op, ts⟩
    | _, _ => later

/-- The sign that a list of tokens begins with. -/
def sign? : List Token → Option Operator
  | .operator .add :: _ => some .add
  | .operator .sub :: _ => some .sub
  | _ => none

/-! ## §2. Reading a list of tokens. -/

/-- What to do with a list of tokens. -/
inductive Shape where
  /-- Two operands around an operator. -/
  | binary (s : Split)
  /-- An operand after a sign. -/
  | signed (op : Operator) (operand : List Token)
  /-- A single token. -/
  | single (t : Token)
  /-- Several tokens and no operator between two terms. -/
  | loose (first : Token)
  | empty

/-- The shape of a list of tokens.  A sign gives way to a split unless the
split is at a power. -/
def shape (ts : List Token) : Shape :=
  match split? false ts, sign? ts, ts with
  | some s, none, _ => .binary s
  | some s, some op, ts => if s.op.tier = .power then .signed op ts.tail else .binary s
  | none, some op, ts => .signed op ts.tail
  | none, none, [t] => .single t
  | none, none, t :: _ => .loose t
  | none, none, [] => .empty

/-- The formula of a list of tokens, at most `room` levels high. -/
def ofTokensWithin : Nat → List Token → Except FormulaFault Formula
  | 0, _ => .error .nestingTooDeep
  | room + 1, ts =>
    match shape ts with
    | .binary s =>
      if s.right.isEmpty then .error (.missingOperand s.op)
      else do
        let left ← ofTokensWithin room s.left
        let right ← ofTokensWithin room s.right
        return .binary s.op left right
    | .signed op operand =>
      if operand.isEmpty then .error (.missingOperand op)
      else do
        let e ← ofTokensWithin room operand
        return if op = .sub then negated e else e
    | .single (.terminal text) =>
      if (Func.ofName? text).isSome then .error (.functionWithoutArgument text)
      else .ok (.leaf text)
    | .single (.group body) => ofTokensWithin room body
    | .single (.call f body) =>
      if body.isEmpty then .error (.functionWithoutArgument f.name)
      else do
        let e ← ofTokensWithin room body
        return .call f e
    | .single (.operator op) => .error (.missingOperand op)
    | .loose (.operator op) => .error (.missingOperand op)
    | .loose _ => .error .missingOperator
    | .empty => .error .empty

/-- The formula of a list of tokens. -/
def ofTokens (ts : List Token) : Except FormulaFault Formula :=
  ofTokensWithin (maxNesting + 1) ts

/-! ## §3. A split cuts its list. -/

theorem split?_eq_append {afterTerm : Bool} {ts : List Token} {s : Split}
    (h : split? afterTerm ts = some s) :
    ts = s.left ++ .operator s.op :: s.right := by
  induction ts generalizing afterTerm s with
  | nil => simp [split?] at h
  | cons t ts ih =>
      have later : ∀ {r : Split}, (split? t.isTerm ts).map (.cons t) = some r →
          t :: ts = r.left ++ .operator r.op :: r.right := by
        intro r hr
        obtain ⟨q, hq, rfl⟩ := Option.map_eq_some_iff.1 hr
        simp only [Split.cons, List.cons_append, ← ih hq]
      unfold split? at h
      dsimp only at h
      split at h
      next op =>
        split at h
        next r hr =>
          split at h
          next =>
            obtain rfl := Option.some.inj h
            exact later hr
          next =>
            obtain rfl := Option.some.inj h
            rfl
        next =>
          obtain rfl := Option.some.inj h
          rfl
      next => exact later h

end Formula

end FormulaDesk
