/-
  FormulaDesk.Proofs.Compiled
  ──────────────────────────────────────
  **COMPILED TEXTS.**

  What the stages of a compilation give together: the text without its blanks
  has tokens, these with their products have a derivation, and the sequence is
  that of its formula.  The bound on the height of a derivation is also what
  keeps the assembly within its own bound, since a derivation is never lower
  than its formula.

    • `Derivation.names_formula` — the names of a formula are those of its
      tokens, in the same order;
    • `compile_eq_ok` — what a compiled text is made of;
    • `calculate_of_sequence` — its value, or the first name without one.
-/
import FormulaDesk.Calculation
import FormulaDesk.Proofs.Grammar
import FormulaDesk.Proofs.Sequence
import FormulaDesk.Proofs.Spelling
import FormulaDesk.Proofs.Terminals
import FormulaDesk.Proofs.Trim

namespace FormulaDesk

/-! ## §1. The formula of a derivation. -/

namespace Derivation

/-- **A derivation is never lower than its formula.** -/
theorem height_formula_le {l : Layer} (d : Derivation l) : d.formula.height ≤ d.height := by
  refine d.induct (motive := fun _ e n => e.height ≤ n) ?join ?sign ?terminal ?group ?call
  case join =>
    intro op _ _ e e' m n hl hr
    rw [Formula.height]
    omega
  case sign =>
    intro op _ e n ih
    -- A minus sign costs one level and adds one node; a plus sign adds none.
    by_cases hop : op = .sub
    · rw [if_pos hop, Formula.negated, Formula.height, Formula.height]
      omega
    · rw [if_neg hop]
      omega
  case terminal => intro text _; exact Nat.le_refl 0
  case group => intro _ e n ih; exact Nat.le_succ_of_le ih
  case call => intro f _ e n ih; exact Nat.succ_le_succ ih

/-- **The names of a formula are the terminals that write no number**, left to
right. -/
theorem names_formula {l : Layer} (d : Derivation l) :
    d.formula.names = (Token.terminalsAll d.tokens).filter
      fun text => (Number.literal? text.toList).isNone := by
  refine d.induct (motive := fun ts e _ => e.names = (Token.terminalsAll ts).filter
    fun text => (Number.literal? text.toList).isNone) ?join ?sign ?terminal ?group ?call
  case join =>
    intro op ts us e e' _ _ hl hr
    rw [Token.terminalsAll_join, List.filter_append, Formula.names, hl, hr]
  case sign =>
    intro op ts e _ ih
    -- The leaf `0` that a minus sign adds writes a number.
    have hzero : (Number.literal? "0".toList).isSome = true := rfl
    rw [Token.terminalsAll, Token.terminals, List.nil_append, ← ih]
    by_cases hop : op = .sub
    · rw [if_pos hop, Formula.negated, Formula.names, Formula.names, if_pos hzero,
        List.nil_append]
    · rw [if_neg hop]
  case terminal =>
    intro text _
    rw [Token.terminalsAll_singleton, Token.terminals, Formula.names]
    cases hnumber : Number.literal? text.toList <;> simp [hnumber]
  case group => intro ts e _ ih; rw [Token.terminalsAll_singleton, Token.terminals, ih]
  case call =>
    intro f ts e _ ih
    rw [Token.terminalsAll_singleton, Token.terminals, Formula.names, ih]

/-- Terminals that are not written like operators make a plain formula. -/
theorem plain_formula {l : Layer} (d : Derivation l) :
    (∀ text ∈ Token.terminalsAll d.tokens, Operator.ofText? text = none) →
      d.formula.Plain := by
  refine d.induct (motive := fun ts e _ =>
    (∀ text ∈ Token.terminalsAll ts, Operator.ofText? text = none) → e.Plain)
    ?join ?sign ?terminal ?group ?call
  case join =>
    intro op ts us e e' _ _ hl hr hops
    rw [Token.terminalsAll_join, List.forall_mem_append] at hops
    exact ⟨hl hops.1, hr hops.2⟩
  case sign =>
    intro op ts e _ ih hops
    by_cases hop : op = .sub
    · rw [if_pos hop]
      exact ⟨⟨rfl, rfl⟩, ih hops⟩
    · rw [if_neg hop]
      exact ih hops
  case terminal =>
    intro text h hops
    rw [Token.terminalsAll_singleton, Token.terminals, List.forall_mem_singleton] at hops
    exact ⟨hops, h⟩
  case group =>
    intro ts e _ ih hops
    rw [Token.terminalsAll_singleton, Token.terminals] at hops
    exact ih hops
  case call =>
    intro f ts e _ ih hops
    rw [Token.terminalsAll_singleton, Token.terminals] at hops
    exact ih hops

/-- **No product is missing in derived tokens.** -/
theorem explicitAll_tokens {l : Layer} (d : Derivation l) :
    Token.explicitAll false d.tokens = d.tokens := by
  have hone : ∀ t : Token, Token.explicitAll false [t] = [t.explicit] := by
    intro t
    rw [Token.explicitAll_cons, Bool.false_and, Token.explicitAll]
    rfl
  refine d.induct (motive := fun ts _ _ => Token.explicitAll false ts = ts) ?join ?sign
    ?terminal ?group ?call
  case join => intro op ts us _ _ _ _ hl hr; rw [Token.explicitAll_join, hl, hr]
  case sign =>
    intro op ts _ _ ih
    have hjoin := Token.explicitAll_join false [] op ts
    rw [ih] at hjoin
    exact hjoin
  case terminal => intro text _; rw [hone, Token.explicit]
  case group => intro ts _ _ ih; rw [hone, Token.explicit, ih]
  case call => intro f ts _ _ ih; rw [hone, Token.explicit, ih]

/-- A derivation is at least as high as its groups and calls nest. -/
theorem nestingAll_tokens_le {l : Layer} (d : Derivation l) :
    Token.nestingAll d.tokens ≤ d.height := by
  have hone : ∀ t : Token, Token.nestingAll [t] = t.nesting := by
    intro t
    rw [Token.nestingAll, Token.nestingAll, Nat.max_zero]
  refine d.induct (motive := fun ts _ n => Token.nestingAll ts ≤ n) ?join ?sign ?terminal
    ?group ?call
  case join =>
    intro op ts us _ _ m n hl hr
    rw [Token.nestingAll_append, Token.nestingAll, Token.nesting]
    omega
  case sign =>
    intro op ts _ n ih
    rw [Token.nestingAll, Token.nesting]
    omega
  case terminal => intro text _; exact Nat.le_of_eq (hone (.terminal text))
  case group => intro ts _ n ih; rw [hone, Token.nesting]; omega
  case call => intro f ts _ n ih; rw [hone, Token.nesting]; omega

end Derivation

namespace Token

mutual

/-- Products add no nesting. -/
theorem nesting_explicit (t : Token) : nesting (explicit t) = nesting t := by
  cases t with
  | terminal text => rfl
  | operator op => rfl
  | group body => rw [explicit, nesting, nesting, nestingAll_explicitAll]
  | call f body => rw [explicit, nesting, nesting, nestingAll_explicitAll]

theorem nestingAll_explicitAll (b : Bool) (ts : List Token) :
    nestingAll (explicitAll b ts) = nestingAll ts := by
  match ts with
  | [] => rfl
  | t :: ts =>
      rw [explicitAll_cons, nestingAll_append, nestingAll, nesting_explicit t,
        nestingAll_explicitAll t.isTerm ts]
      cases b && t.isTerm <;> simp [nestingAll, nesting]

end

end Token

/-- What nests too deep in a text does so in its derivation. -/
theorem Derivation.nestingAll_le {l : Layer} (d : Derivation l) {ts : List Token}
    (hd : d.tokens = Token.explicitAll false ts) : Token.nestingAll ts ≤ d.height := by
  rw [← Token.nestingAll_explicitAll false ts, ← hd]
  exact d.nestingAll_tokens_le

/-! ## §2. A compiled text. -/

theorem lift_eq_ok_iff {ε α : Type} {kind : ε → Fault} {x : Except ε α} {a : α} :
    Fault.lift kind x = .ok a ↔ x = .ok a := by
  cases x with
  | ok b => simp [Fault.lift, Except.mapError]
  | error fault => simp [Fault.lift, Except.mapError]

theorem lift_eq_error_iff {ε α : Type} {kind : ε → Fault} {x : Except ε α} {fault : Fault} :
    Fault.lift kind x = .error fault ↔ ∃ cause, x = .error cause ∧ kind cause = fault := by
  cases x with
  | ok b => simp [Fault.lift, Except.mapError]
  | error cause => simp [Fault.lift, Except.mapError]

/-- The stages of a compilation, one after the other. -/
theorem compile_eq {text : String} (hne : Text.trim text.toList ≠ []) :
    compile text =
      Fault.lift .text (Token.ofText (explicitProducts (.ofList (Text.trim text.toList)))) >>=
        fun ts => Fault.lift .formula (Formula.ofTokens ts) >>= fun e =>
          .ok ⟨e.sequence, ⟨explicitProducts (.ofList (Text.trim text.toList)), Token.toText ts,
            " ".intercalate e.sequence, Trace.stages⟩⟩ := by
  unfold compile
  exact if_neg hne

/-- **A text compiles when each stage succeeds**, and then to this. -/
theorem compile_eq_ok_iff {text : String} {c : Compiled} :
    compile text = .ok c ↔ Text.trim text.toList ≠ [] ∧
      ∃ (ts : List Token) (e : Formula),
        Token.ofText (explicitProducts (.ofList (Text.trim text.toList))) = .ok ts ∧
        Formula.ofTokens ts = .ok e ∧
        ⟨e.sequence, ⟨explicitProducts (.ofList (Text.trim text.toList)), Token.toText ts,
          " ".intercalate e.sequence, Trace.stages⟩⟩ = c := by
  by_cases hblank : Text.trim text.toList = []
  · unfold compile
    rw [if_pos hblank]
    constructor
    · intro h
      exact nomatch h
    · intro h
      exact absurd hblank h.1
  · rw [compile_eq hblank, bind_eq_ok_iff]
    simp only [lift_eq_ok_iff, bind_eq_ok_iff, Except.ok.injEq]
    constructor
    · intro ⟨ts, hts, e, he, hc⟩
      exact ⟨hblank, ts, e, hts, he, hc⟩
    · intro ⟨_, ts, e, hts, he, hc⟩
      exact ⟨ts, hts, e, he, hc⟩

/-- A calculation is a compilation and the value of its sequence. -/
theorem calculate_eq_ok_iff {known : KnownValues} {text : String} {r : Calculation} :
    calculate known text = .ok r ↔ ∃ c, compile text = .ok c ∧
      evaluateAtoms known (c.sequence.map .symbol) = .ok r.value ∧ c.trace = r.trace := by
  unfold calculate
  simp only [bind_eq_ok_iff, lift_eq_ok_iff]
  constructor
  · intro ⟨c, hc, value, hvalue, hr⟩
    obtain rfl := Except.ok.inj hr
    exact ⟨c, hc, hvalue, rfl⟩
  · intro ⟨c, hc, hvalue, htrace⟩
    refine ⟨c, hc, r.value, hvalue, ?_⟩
    rw [htrace]
    rfl

/-- A text with tokens that have a derivation compiles to its formula, unless
the derivation is too high. -/
theorem compile_of_derivation {text : String} (hne : Text.trim text.toList ≠ [])
    {ts : List Token} (hts : Token.ofText (.ofList (Text.trim text.toList)) = .ok ts)
    {d : Derivation .sum} (hd : d.tokens = Token.explicitAll false ts) :
    (d.height ≤ maxNesting → ∃ c, compile text = .ok c ∧ c.sequence = d.formula.sequence) ∧
    (maxNesting < d.height → compile text = .error (.formula .nestingTooDeep)) := by
  have htokens : Token.ofText (explicitProducts (.ofList (Text.trim text.toList))) =
      .ok d.tokens := by
    rw [Token.ofText_explicit, hts, hd]
  rw [compile_eq hne, htokens]
  constructor
  · intro hle
    show ∃ c, Fault.lift Fault.formula (Formula.ofTokens d.tokens) >>= _ = .ok c ∧ _
    rw [d.ofTokens_tokens, if_pos hle]
    exact ⟨_, rfl, rfl⟩
  · intro hlt
    show Fault.lift Fault.formula (Formula.ofTokens d.tokens) >>= _ = _
    rw [d.ofTokens_tokens, if_neg (Nat.not_le.2 hlt)]
    rfl

/-- The fault of a text is the fault of its compilation, at another place. -/
theorem compile_of_fault {text : String} (hne : Text.trim text.toList ≠ []) {fault : TextFault}
    (h : Token.ofText (.ofList (Text.trim text.toList)) = .error fault) :
    ∃ place, compile text = .error (.text (fault.moved place)) := by
  refine ⟨placeWithStars (.ofList (Text.trim text.toList)), ?_⟩
  rw [compile_eq hne, Token.ofText_explicit, h]
  rfl

/-- A text compiles to a sequence as long as it is not too high, and is else
refused for nothing but that. -/
structure CompilesTo (text : String) (sequence : List String) (height : Nat) : Prop where
  ok : height ≤ maxNesting → ∃ c, compile text = .ok c ∧ c.sequence = sequence
  deep : maxNesting < height → compile text = .error (.formula .nestingTooDeep) ∨
    ∃ position, compile text = .error (.text (.nestingTooDeep position))

/-- **A text that spells tokens compiles to what they mean**, up to the height
of their derivation. -/
theorem compile_of_spells {text : String} (hsolid : Solid text.toList) {ts : List Token}
    (hspells : Spells text.toList ts) {d : Derivation .sum}
    (hd : d.tokens = Token.explicitAll false ts) :
    CompilesTo text d.formula.sequence d.height := by
  have htrim : String.ofList (Text.trim text.toList) = text := by
    rw [hsolid.trim_eq, String.ofList_toList]
  have hne : Text.trim text.toList ≠ [] := by
    rw [hsolid.trim_eq]
    exact hsolid.ne_nil
  obtain ⟨hread, hdeep⟩ := Token.ofText_spells hspells
  rw [← htrim] at hread hdeep
  have hnesting := d.nestingAll_le hd
  constructor
  · intro hle
    exact (compile_of_derivation hne (hread (Nat.le_trans hnesting hle)) hd).1 hle
  · intro hlt
    by_cases hnested : Token.nestingAll ts ≤ maxNesting
    · exact .inl ((compile_of_derivation hne (hread hnested) hd).2 hlt)
    · obtain ⟨position, hfault⟩ := hdeep (Nat.lt_of_not_le hnested)
      obtain ⟨place, hplace⟩ := compile_of_fault hne hfault
      exact .inr ⟨place position, hplace⟩

/-- **What a compiled text is made of**: the tokens of the text, and a
derivation of them with their products that is not too high. -/
theorem compile_eq_ok {text : String} {c : Compiled} (h : compile text = .ok c) :
    ∃ (ts : List Token) (d : Derivation .sum), Token.ofText text = .ok ts ∧
      d.tokens = Token.explicitAll false ts ∧ d.height ≤ maxNesting ∧
      c.sequence = d.formula.sequence := by
  obtain ⟨-, us, e, htokens, he, hc⟩ := compile_eq_ok_iff.1 h
  obtain ⟨d, hd, rfl, hheight⟩ := ofTokens_eq_ok_iff.1 he
  rw [Token.ofText_explicit] at htokens
  -- The tokens of the text with its products are those of the text, with products.
  cases hread : Token.ofText (.ofList (Text.trim text.toList)) with
  | error fault =>
      rw [hread] at htokens
      exact nomatch htokens
  | ok ts =>
      rw [hread] at htokens
      obtain rfl := Except.ok.inj htokens
      exact ⟨ts, d, Token.ofText_of_trim hread, hd, hheight, by rw [← hc]⟩

/-- **The value of a compiled text** is that of the formula of its sequence;
without a value for each of its names the first such name is the fault. -/
theorem calculate_of_sequence {text : String} {c : Compiled} (hc : compile text = .ok c)
    {e : Formula} (hseq : c.sequence = e.sequence) (hplain : e.Plain)
    (hheight : e.height ≤ maxNesting) (known : KnownValues) :
    calculate known text = Fault.lift .sequence
      (known.result e.names ⟨e.value known.get, c.trace⟩) := by
  have hvalue : evaluateAtoms known (c.sequence.map .symbol) =
      known.result e.names (e.value known.get) := by
    rw [evaluateAtoms, hseq, Operation.ofAtoms_sequence hplain, if_pos hheight]
    exact e.evaluate_operation known
  rw [calculate, hc]
  show Fault.lift Fault.sequence (evaluateAtoms known (c.sequence.map .symbol)) >>= _ = _
  rw [hvalue, KnownValues.result, KnownValues.result]
  cases known.firstMissing? e.names <;> rfl

end FormulaDesk
