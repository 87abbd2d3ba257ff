/-
  FormulaDesk.Proofs.Writing
  ──────────────────────────────────────
  **WRITING AN EXPRESSION AND COMPILING IT AGAIN.**

  An expression is what a formula means: numbers and names under operators and
  functions.  It is written with a space on both sides of every operator and
  with the fewest parentheses: around a left operand whose operator is looser
  or when both are powers, around a right operand whose operator is looser or
  of the same tier, but for powers.

    • `Expression.spells_write` — the writing spells its tokens;
    • `Expression.exists_derivation` — these have a derivation that means the
      expression and is at most twice as high;
    • `Expression.compile_write` — the writing compiles to the preorder of the
      expression and has its value.
-/
import FormulaDesk.Proofs.Compiled
import FormulaDesk.Proofs.Derives
import FormulaDesk.Proofs.Spelling

namespace FormulaDesk

/-- The digits of a number, and the digits behind its point if it has one. -/
def IsNumeral (whole : List Char) (fraction : Option (List Char)) : Prop :=
  (whole ≠ [] ∧ whole.all Char.isDigit = true) ∧
    ∀ digits, fraction = some digits → digits ≠ [] ∧ digits.all Char.isDigit = true

/-- A name that is no function. -/
def IsVariable (letters : List Char) : Prop :=
  isName letters = true ∧ Func.ofName? (.ofList letters) = none

/-- An expression, before it is written. -/
inductive Expression where
  | number (whole : List Char) (fraction : Option (List Char)) (h : IsNumeral whole fraction)
  | name (letters : List Char) (h : IsVariable letters)
  | binary (op : Operator) (left right : Expression)
  | call (f : Func) (argument : Expression)

namespace Expression

/-! ## §1. What an expression means. -/

/-- The longest way down to a leaf. -/
def height : Expression → Nat
  | .number .. => 0
  | .name .. => 0
  | .binary _ left right => max left.height right.height + 1
  | .call _ argument => argument.height + 1

/-- Each operator and function before its operands. -/
def preorder : Expression → List String
  | .number whole fraction _ => [.ofList (Lexeme.number whole fraction).text]
  | .name letters _ => [.ofList letters]
  | .binary op left right => op.text :: (left.preorder ++ right.preorder)
  | .call f argument => f.name :: argument.preorder

/-- The names, left to right. -/
def names : Expression → List String
  | .number .. => []
  | .name letters _ => [.ofList letters]
  | .binary _ left right => left.names ++ right.names
  | .call _ argument => argument.names

/-- The value under values of the names: a number is the double nearest to its
digits. -/
def value (valueOf : String → Float) : Expression → Float
  | .number whole fraction _ =>
    Number.Numeral.toFloat ⟨false, Number.readDigits 0 (whole ++ fraction.getD []),
      -((fraction.getD []).length : Int)⟩
  | .name letters _ => valueOf (.ofList letters)
  | .binary op left right => op.apply (left.value valueOf) (right.value valueOf)
  | .call f argument => f.apply (argument.value valueOf)

/-! ## §2. How an expression is written. -/

/-- The operator at the root. -/
def root? : Expression → Option Operator
  | .binary op _ _ => some op
  | _ => none

/-- A left operand that stands between parentheses. -/
def leftEnclosed (parent : Operator) (operand : Expression) : Bool :=
  operand.root?.any fun child =>
    child.tier.rank < parent.tier.rank || (parent.tier == .power && child.tier == .power)

/-- A right operand that stands between parentheses. -/
def rightEnclosed (parent : Operator) (operand : Expression) : Bool :=
  operand.root?.any fun child =>
    child.tier.rank < parent.tier.rank || (parent.tier != .power && child.tier == parent.tier)

/-- A text, perhaps between parentheses. -/
def enclose (yes : Bool) (cs : List Char) : List Char :=
  if yes then '(' :: (cs ++ [')']) else cs

/-- The writing of an expression. -/
def write : Expression → List Char
  | .number whole fraction _ => (Lexeme.number whole fraction).text
  | .name letters _ => letters
  | .binary op left right =>
    enclose (leftEnclosed op left) left.write ++
      ' ' :: op.symbol :: ' ' :: enclose (rightEnclosed op right) right.write
  | .call f argument => f.name.toList ++ '(' :: (argument.write ++ [')'])

/-- Sums within a product, a power of a power and a difference on the right are
between parentheses; what groups that way anyway is not. -/
example :
    let x : Expression := .name ['x'] ⟨rfl, rfl⟩
    let two : Expression := .number ['2'] (some ['5']) ⟨by decide, by decide⟩
    (binary .sub (.binary .sub x (.binary .mul (.binary .add x two) x))
      (.binary .sub (.binary .pow (.binary .pow x two) (.binary .pow x two)) (.call .sin x))).write
        = "x - (x + 2.5) * x - ((x ^ 2.5) ^ x ^ 2.5 - sin(x))".toList := by
  decide

/-- Tokens, perhaps as one group. -/
def groupIf (yes : Bool) (ts : List Token) : List Token := if yes then [.group ts] else ts

/-- The tokens that the writing spells. -/
def tokens : Expression → List Token
  | .number whole fraction _ => [.terminal (.ofList (Lexeme.number whole fraction).text)]
  | .name letters _ => [.terminal (.ofList letters)]
  | .binary op left right =>
    groupIf (leftEnclosed op left) left.tokens ++
      .operator op :: groupIf (rightEnclosed op right) right.tokens
  | .call f argument => [.call f argument.tokens]

end Expression

/-! ## §3. Numbers. -/

theorem IsNumeral.sound {whole : List Char} {fraction : Option (List Char)}
    (h : IsNumeral whole fraction) : (Lexeme.number whole fraction).Sound := by
  cases fraction with
  | none => exact h.1
  | some digits => exact ⟨h.1, (h.2 digits rfl).2⟩

theorem IsNumeral.complete {whole : List Char} {fraction : Option (List Char)}
    (h : IsNumeral whole fraction) : (Lexeme.number whole fraction).complete = true := by
  cases fraction with
  | none => rfl
  | some digits =>
      cases digits with
      | nil => exact absurd rfl (h.2 [] rfl).1
      | cons c cs => rfl

/-- A number is not written like a function. -/
theorem IsNumeral.ofName?_eq_none {whole : List Char} {fraction : Option (List Char)}
    (h : IsNumeral whole fraction) :
    Func.ofName? (.ofList (Lexeme.number whole fraction).text) = none := by
  cases hf : Func.ofName? (.ofList (Lexeme.number whole fraction).text) with
  | none => rfl
  | some f =>
      have htext : (Lexeme.number whole fraction).text = f.name.toList := by
        rw [← Func.ofName?_eq_some.1 hf, String.toList_ofList]
      -- It would be read as a number and, being a name, as none.
      have hvalue := Number.literal?_number h.sound
      rw [htext, Number.literal?_name (isName_name f)] at hvalue
      exact nomatch hvalue

namespace Expression

/-! ## §4. The writing spells its tokens. -/

theorem spells_enclose {cs : List Char} {ts : List Token} (h : Spells cs ts) (yes : Bool) :
    Spells (enclose yes cs) (groupIf yes ts) := by
  cases yes with
  | true => exact Spells.group h Spells.nil
  | false => exact h

/-- **The writing of an expression spells its tokens.** -/
theorem spells_write (a : Expression) : Spells a.write a.tokens := by
  induction a with
  | number whole fraction h => exact Spells.terminal h.sound rfl h.complete
  | name letters h => exact Spells.terminal (l := .name letters) h.1 rfl rfl
  | binary op left right ihl ihr =>
      -- Blanks stand on both sides of the operator, so no name touches a parenthesis.
      have hright := (((spells_enclose ihr (rightEnclosed op right)).space).operator op).space
      exact (spells_enclose ihl (leftEnclosed op left)).append hright
        (Piece.fresh_blank (by decide) _) (by simp)
  | call f argument ih => exact Spells.call f ih Spells.nil

/-! ## §5. The tokens have a derivation. -/

/-- The layer of an expression that stands alone. -/
def layer (a : Expression) : Layer := a.root?.elim .atom Operator.layer

/-- The expression as a formula. -/
def formula : Expression → Formula
  | .number whole fraction _ => .leaf (.ofList (Lexeme.number whole fraction).text)
  | .name letters _ => .leaf (.ofList letters)
  | .binary op left right => .binary op left.formula right.formula
  | .call f argument => .call f argument.formula

/-- Without parentheses a left operand is tight enough for its rule. -/
theorem leftLayer_le {op : Operator} {a : Expression} (h : leftEnclosed op a = false) :
    op.leftLayer.index ≤ a.layer.index := by
  unfold leftEnclosed at h
  unfold layer
  cases hroot : a.root? with
  | none => cases op <;> decide
  | some child =>
      rw [hroot] at h
      revert h
      cases op <;> cases child <;> decide

theorem rightLayer_le {op : Operator} {a : Expression} (h : rightEnclosed op a = false) :
    op.rightLayer.index ≤ a.layer.index := by
  unfold rightEnclosed at h
  unfold layer
  cases hroot : a.root? with
  | none => cases op <;> decide
  | some child =>
      rw [hroot] at h
      revert h
      cases op <;> cases child <;> decide

/-- Parentheses cost a level, but only an operand with an operator has them. -/
theorem add_toNat_le {a : Expression} {n : Nat} (h : n ≤ 2 * a.height - 1)
    (p : Operator → Bool) : n + (a.root?.any p).toNat ≤ 2 * a.height := by
  cases a with
  | number whole fraction h' => exact h
  | name letters h' => exact h
  | binary op left right =>
      have hone := Bool.toNat_le ((binary op left right).root?.any p)
      have hheight : (binary op left right).height = max left.height right.height + 1 := rfl
      omega
  | call f argument => exact Nat.le_trans h (Nat.sub_le _ _)

/-- An operand as the rule of its operator needs it. -/
theorem derives_operand {a : Expression} {n : Nat}
    (h : Derives a.layer a.tokens a.formula n) {l : Layer} {yes : Bool}
    (hlayer : yes = false → l.index ≤ a.layer.index) :
    Derives l (groupIf yes a.tokens) a.formula (n + yes.toNat) := by
  cases yes with
  | true => exact h.toSum.group.widen (by cases l <;> decide)
  | false => exact h.widen (hlayer rfl)

/-- **The tokens of an expression have a derivation** that means the
expression, and it is at most twice as high. -/
theorem exists_derives (a : Expression) :
    ∃ n ≤ 2 * a.height - 1, Derives a.layer a.tokens a.formula n := by
  induction a with
  | number whole fraction h => exact ⟨0, Nat.le_refl 0, .terminal h.ofName?_eq_none⟩
  | name letters h => exact ⟨0, Nat.le_refl 0, .terminal h.2⟩
  | binary op left right ihl ihr =>
      obtain ⟨m, hm, hl⟩ := ihl
      obtain ⟨n, hn, hr⟩ := ihr
      refine ⟨_, ?_,
        (derives_operand hl leftLayer_le).join op (derives_operand hr rightLayer_le)⟩
      have hleft : m + (leftEnclosed op left).toNat ≤ 2 * left.height := add_toNat_le hm _
      have hright : n + (rightEnclosed op right).toNat ≤ 2 * right.height := add_toNat_le hn _
      rw [height]
      omega
  | call f argument ih =>
      obtain ⟨n, hn, h⟩ := ih
      exact ⟨n + 1, by rw [height]; omega, .call f h.toSum⟩

/-! ## §6. The writing has no blanks at its ends. -/

theorem solid_enclose {cs : List Char} (h : Solid cs) (yes : Bool) : Solid (enclose yes cs) := by
  cases yes with
  | true => exact solid_pair cs
  | false => exact h

/-- **The writing of an expression neither begins nor ends with a blank.** -/
theorem solid_write (a : Expression) : Solid a.write := by
  induction a with
  | number whole fraction h => exact Lexeme.solid h.sound
  | name letters h => exact solid_name h.1
  | binary op left right ihl ihr =>
      exact (solid_enclose ihl _).append (solid_enclose ihr _) [' ', op.symbol, ' ']
  | call f argument ih =>
      exact (solid_name (isName_name f)).append (solid_pair argument.write) []

/-! ## §7. The formula of an expression. -/

theorem sequence_formula (a : Expression) : a.formula.sequence = a.preorder := by
  induction a with
  | number whole fraction h => rfl
  | name letters h => rfl
  | binary op left right ihl ihr => rw [formula, Formula.sequence, ihl, ihr, preorder]
  | call f argument ih => rw [formula, Formula.sequence, ih, preorder]

theorem names_formula (a : Expression) : a.formula.names = a.names := by
  induction a with
  | number whole fraction h =>
      rw [formula, Formula.names, String.toList_ofList, Number.literal?_number h.sound]
      rfl
  | name letters h =>
      rw [formula, Formula.names, String.toList_ofList, Number.literal?_name h.1]
      rfl
  | binary op left right ihl ihr => rw [formula, Formula.names, ihl, ihr, names]
  | call f argument ih => rw [formula, Formula.names, ih, names]

theorem value_formula (a : Expression) (valueOf : String → Float) :
    a.formula.value valueOf = a.value valueOf := by
  induction a with
  | number whole fraction h =>
      rw [formula, Formula.value, String.toList_ofList, Number.literal?_number h.sound]
      rfl
  | name letters h =>
      rw [formula, Formula.value, String.toList_ofList, Number.literal?_name h.1]
      rfl
  | binary op left right ihl ihr => rw [formula, Formula.value, ihl, ihr, value]
  | call f argument ih => rw [formula, Formula.value, ih, value]

/-- No leaf of an expression is written like an operator or a function. -/
theorem plain_formula (a : Expression) : a.formula.Plain := by
  induction a with
  | number whole fraction h =>
      have hoperand : IsOperand (.ofList (Lexeme.number whole fraction).text) :=
        ⟨_, h.sound, h.complete, rfl, rfl⟩
      exact ⟨hoperand.ofText?_eq_none, h.ofName?_eq_none⟩
  | name letters h =>
      have hoperand : IsOperand (.ofList letters) := ⟨.name letters, h.1, rfl, rfl, rfl⟩
      exact ⟨hoperand.ofText?_eq_none, h.2⟩
  | binary op left right ihl ihr => exact ⟨ihl, ihr⟩
  | call f argument ih => exact ih

/-! ## §8. Compiling the writing. -/

/-- **The height of its derivation decides** whether a writing compiles. -/
theorem compile_of_derives {a : Expression} {n : Nat}
    (h : Derives .sum a.tokens a.formula n) : CompilesTo (.ofList a.write) a.preorder n := by
  obtain ⟨d, hd, hformula, rfl⟩ := h
  -- No product is missing.
  have hproducts : d.tokens = Token.explicitAll false a.tokens := by
    rw [← hd, d.explicitAll_tokens]
  have hsolid : Solid (String.ofList a.write).toList := by
    rw [String.toList_ofList]
    exact a.solid_write
  have hspells : Spells (String.ofList a.write).toList a.tokens := by
    rw [String.toList_ofList]
    exact a.spells_write
  rw [← a.sequence_formula, ← hformula]
  exact compile_of_spells hsolid hspells hproducts

/-- **A writing that compiles has the value of its expression**, or lacks the
first name without a value. -/
theorem calculate_of_derives {a : Expression} {n : Nat}
    (h : Derives .sum a.tokens a.formula n) {c : Compiled}
    (hc : compile (.ofList a.write) = .ok c) (known : KnownValues) :
    calculate known (.ofList a.write) =
      Fault.lift .sequence (known.result a.names ⟨a.value known.get, c.trace⟩) := by
  obtain ⟨hlow, hhigh⟩ := compile_of_derives h
  -- What compiles is not too deep, so neither is its formula for the assembly.
  have hle : n ≤ maxNesting := by
    by_cases hle : n ≤ maxNesting
    · exact hle
    · obtain hfault | ⟨position, hfault⟩ := hhigh (Nat.lt_of_not_le hle)
      · exact nomatch hc.symm.trans hfault
      · exact nomatch hc.symm.trans hfault
  have hsequence : c.sequence = a.formula.sequence := by
    obtain ⟨c', hc', hsequence⟩ := hlow hle
    obtain rfl := Except.ok.inj (hc.symm.trans hc')
    rw [hsequence, a.sequence_formula]
  have hheight : a.formula.height ≤ maxNesting := by
    obtain ⟨d, -, hformula, rfl⟩ := h
    rw [← hformula]
    exact Nat.le_trans d.height_formula_le hle
  rw [calculate_of_sequence hc hsequence a.plain_formula hheight known, a.names_formula,
    a.value_formula]

/-- **WRITING AND COMPILING GIVE THE EXPRESSION BACK.**  The writing of an
expression compiles to its preorder, or nests too deep, which it never does up
to a height of 256; and a writing that compiles has the value of the
expression, or lacks the leftmost of its names that has no value. -/
theorem compile_write (a : Expression) :
    ((∃ c, compile (.ofList a.write) = .ok c ∧ c.sequence = a.preorder) ∨
      compile (.ofList a.write) = .error (.formula .nestingTooDeep) ∨
      ∃ position, compile (.ofList a.write) = .error (.text (.nestingTooDeep position))) ∧
    (a.height ≤ 256 →
      ∃ c, compile (.ofList a.write) = .ok c ∧ c.sequence = a.preorder) ∧
    (∀ c, compile (.ofList a.write) = .ok c → ∀ known : KnownValues,
      ((∀ name ∈ a.names, name ∈ known) →
        calculate known (.ofList a.write) = .ok ⟨a.value known.get, c.trace⟩) ∧
      (∀ name, a.names.find? (· ∉ known) = some name →
        calculate known (.ofList a.write) = .error (.sequence (.unboundVariable name)))) := by
  obtain ⟨n, hn, hderives⟩ := a.exists_derives
  obtain ⟨hlow, hhigh⟩ := compile_of_derives hderives.toSum
  refine ⟨?_, ?_, ?_⟩
  · by_cases hle : n ≤ maxNesting
    · exact .inl (hlow hle)
    · exact .inr (hhigh (Nat.lt_of_not_le hle))
  · intro hheight
    apply hlow
    unfold maxNesting
    omega
  · intro c hc known
    rw [calculate_of_derives hderives.toSum hc known]
    obtain ⟨hnone, -, hok⟩ | ⟨first, hmem, hnot, hfirst, herror⟩ :=
      known.result_cases a.names (⟨a.value known.get, c.trace⟩ : Calculation)
    · rw [hok, hnone]
      exact ⟨fun _ => rfl, fun name hname => nomatch hname⟩
    · rw [herror, hfirst]
      refine ⟨fun hall => absurd (hall first hmem) hnot, ?_⟩
      intro name hname
      obtain rfl := Option.some.inj hname
      rfl

end Expression

end FormulaDesk
