/-
  FormulaDesk.Proofs.Derives
  ──────────────────────────────────────
  **PUTTING DERIVATIONS TOGETHER.**

  Whoever writes a formula does not choose between ten rules: an operator
  stands between two operands, and each of them is tight enough for its place.
  `Derives` says that tokens have a derivation, what it means and how high it
  is, and each operator has one rule.

    • `Derives.widen` — tight tokens are derived from every looser layer;
    • `Derives.join`, `Derives.sign`, `Derives.group`, `Derives.call` — the
      rules.
-/
import FormulaDesk.Proofs.Grammar

namespace FormulaDesk

/-- Tokens are derived from a layer, with this meaning and this height. -/
def Derives (l : Layer) (ts : List Token) (e : Formula) (height : Nat) : Prop :=
  ∃ d : Derivation l, d.tokens = ts ∧ d.formula = e ∧ d.height = height

/-- The place of a layer in the grammar, `0` for the loosest. -/
def Layer.index : Layer → Nat
  | .sum => 0
  | .product => 1
  | .signed => 2
  | .power => 3
  | .atom => 4

namespace Operator

/-- The layer of the rule with this operator. -/
def layer : Operator → Layer
  | .add | .sub => .sum
  | .mul | .div => .product
  | .pow => .power

/-- The layer of its left operand. -/
def leftLayer : Operator → Layer
  | .add | .sub => .sum
  | .mul | .div => .product
  | .pow => .atom

/-- The layer of its right operand. -/
def rightLayer : Operator → Layer
  | .add | .sub => .product
  | .mul | .div => .signed
  | .pow => .signed

end Operator

namespace Derives

variable {l : Layer} {ts us : List Token} {e e' : Formula} {m n : Nat}

/-- One derivation is also one of the next layers, `k` steps up. -/
theorem widen_steps (k : Nat) :
    ∀ {l l' : Layer}, Derives l ts e n → l.index = l'.index + k → Derives l' ts e n := by
  induction k with
  | zero =>
      intro l l' h hindex
      obtain rfl : l = l' := by
        revert hindex
        cases l <;> cases l' <;> decide
      exact h
  | succ k ih =>
      intro l l' ⟨d, htokens, hformula, hheight⟩ hindex
      cases l with
      | sum => exact nomatch hindex
      | product =>
          exact ih ⟨.ofProduct d, htokens, hformula, hheight⟩ (Nat.succ.inj hindex)
      | signed =>
          exact ih ⟨.ofSigned d, htokens, hformula, hheight⟩ (Nat.succ.inj hindex)
      | power => exact ih ⟨.ofPower d, htokens, hformula, hheight⟩ (Nat.succ.inj hindex)
      | atom => exact ih ⟨.ofAtom d, htokens, hformula, hheight⟩ (Nat.succ.inj hindex)

/-- **Tight tokens are derived from every looser layer.** -/
theorem widen (h : Derives l ts e n) {l' : Layer} (hindex : l'.index ≤ l.index) :
    Derives l' ts e n :=
  widen_steps (l.index - l'.index) h (Nat.add_sub_cancel' hindex).symm

theorem toSum (h : Derives l ts e n) : Derives .sum ts e n := h.widen (Nat.zero_le _)

theorem terminal {text : String} (h : Func.ofName? text = none) :
    Derives .atom [.terminal text] (.leaf text) 0 := ⟨.terminal text h, rfl, rfl, rfl⟩

theorem group (h : Derives .sum ts e n) : Derives .atom [.group ts] e (n + 1) := by
  obtain ⟨d, rfl, rfl, rfl⟩ := h
  exact ⟨.group d, rfl, rfl, rfl⟩

theorem call (f : Func) (h : Derives .sum ts e n) :
    Derives .atom [.call f ts] (.call f e) (n + 1) := by
  obtain ⟨d, rfl, rfl, rfl⟩ := h
  exact ⟨.call f d, rfl, rfl, rfl⟩

/-- A sign before an operand that is tight enough. -/
theorem sign {op : Operator} (hop : op.tier = .additive) (h : Derives .signed ts e n) :
    Derives .signed (.operator op :: ts) (if op = .sub then e.negated else e) (n + 1) := by
  obtain ⟨d, rfl, rfl, rfl⟩ := h
  exact ⟨.sign op hop d, rfl, rfl, rfl⟩

/-- **The rule of an operator** between operands that are tight enough. -/
theorem join (op : Operator) (hl : Derives op.leftLayer ts e m)
    (hr : Derives op.rightLayer us e' n) :
    Derives op.layer (ts ++ .operator op :: us) (.binary op e e') (max m n + 1) := by
  obtain ⟨left, rfl, rfl, rfl⟩ := hl
  obtain ⟨right, rfl, rfl, rfl⟩ := hr
  cases op with
  | add => exact ⟨.add .add rfl left right, rfl, rfl, rfl⟩
  | sub => exact ⟨.add .sub rfl left right, rfl, rfl, rfl⟩
  | mul => exact ⟨.mul .mul rfl left right, rfl, rfl, rfl⟩
  | div => exact ⟨.mul .div rfl left right, rfl, rfl, rfl⟩
  | pow => exact ⟨.raise left right, rfl, rfl, rfl⟩

end Derives

end FormulaDesk
