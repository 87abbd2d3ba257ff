/-
  FormulaDesk.Proofs.Values
  ──────────────────────────────────────
  **WHAT A COMPILED TEXT CAN STILL LACK.**

  Once a text has compiled, every later stage succeeds: its sequence builds an
  operation, and the operation has a value as soon as each name of the text
  has one.

    • `names_formula_eq` — the names of a text are those of its formula;
    • `calculate_of_compile` — a value, or the leftmost name without one.
-/
import FormulaDesk.Proofs.Compiled

namespace FormulaDesk

/-- The names of the tokens are those of the formula. -/
theorem names_formula_eq {text : String} {ts : List Token} (hts : Token.ofText text = .ok ts)
    {d : Derivation .sum} (hd : d.tokens = Token.explicitAll false ts) :
    d.formula.names = Token.names ts := by
  rw [d.names_formula, hd, Token.terminalsAll_explicitAll, Token.names]
  refine List.filter_congr fun t ht => ?_
  rw [Bool.eq_iff_iff, Option.isNone_iff_eq_none]
  exact (Token.operand_of_ofText hts t ht).isName_iff.symm

/-- A compiled text is that of a plain formula with the same names, which is
not too high. -/
theorem exists_formula_of_compile {text : String} {c : Compiled} (h : compile text = .ok c) :
    ∃ (ts : List Token) (e : Formula), Token.ofText text = .ok ts ∧ c.sequence = e.sequence ∧
      e.Plain ∧ e.height ≤ maxNesting ∧ e.names = Token.names ts := by
  obtain ⟨ts, d, hts, hd, hheight, hsequence⟩ := compile_eq_ok h
  have hplain : d.formula.Plain := by
    refine d.plain_formula fun t ht => ?_
    rw [hd, Token.terminalsAll_explicitAll] at ht
    exact (Token.operand_of_ofText hts t ht).ofText?_eq_none
  exact ⟨ts, d.formula, hts, hsequence, hplain, Nat.le_trans d.height_formula_le hheight,
    names_formula_eq hts hd⟩

/-- **A COMPILED TEXT CAN ONLY LACK A VALUE.**  Its sequence builds an
operation; it has a value exactly when each of its names has one; otherwise
the fault is the leftmost name without a value; and nothing but the values of
its names counts. -/
theorem calculate_of_compile {text : String} {c : Compiled} (h : compile text = .ok c) :
    (∃ o, Operation.ofAtoms (c.sequence.map .symbol) = .ok o) ∧
    ∃ ts, Token.ofText text = .ok ts ∧
      (∀ known : KnownValues,
        (∃ r, calculate known text = .ok r) ↔ ∀ name ∈ Token.names ts, name ∈ known) ∧
      (∀ (known : KnownValues) (fault : Fault), calculate known text = .error fault ↔
        ∃ name, (Token.names ts).find? (· ∉ known) = some name ∧
          fault = .sequence (.unboundVariable name)) ∧
      (∀ known known' : KnownValues, (∀ name ∈ Token.names ts, known[name]? = known'[name]?) →
        calculate known text = calculate known' text) := by
  obtain ⟨ts, e, hts, hsequence, hplain, hheight, hnames⟩ := exists_formula_of_compile h
  -- From here on only the names of the text count.
  have hresult : ∀ known : KnownValues, calculate known text =
      Fault.lift .sequence (known.result (Token.names ts) ⟨e.value known.get, c.trace⟩) := by
    intro known
    rw [calculate_of_sequence h hsequence hplain hheight known, hnames]
  refine ⟨⟨e.operation, ?_⟩, ts, hts, ?_, ?_, ?_⟩
  · rw [hsequence, Operation.ofAtoms_sequence hplain, if_pos hheight]
  · intro known
    rw [hresult]
    obtain ⟨-, hall, hok⟩ | ⟨name, hmem, hnot, -, herror⟩ := known.result_cases
      (Token.names ts) (⟨e.value known.get, c.trace⟩ : Calculation)
    · rw [hok]
      exact ⟨fun _ => hall, fun _ => ⟨_, rfl⟩⟩
    · rw [herror]
      refine ⟨?_, fun hall => absurd (hall name hmem) hnot⟩
      intro ⟨r, hr⟩
      exact nomatch hr
  · intro known fault
    rw [hresult]
    obtain ⟨hnone, -, hok⟩ | ⟨name, -, -, hfirst, herror⟩ := known.result_cases
      (Token.names ts) (⟨e.value known.get, c.trace⟩ : Calculation)
    · rw [hok, hnone]
      constructor
      · intro hfault
        exact nomatch hfault
      · intro ⟨name, hname, _⟩
        exact nomatch hname
    · rw [herror, hfirst]
      constructor
      · intro hfault
        exact ⟨name, rfl, (Except.error.inj hfault).symm⟩
      · intro ⟨name', hname, hfault⟩
        obtain rfl := Option.some.inj hname
        rw [hfault]
        rfl
  · intro known known' hagree
    have hvalue : e.value known.get = e.value known'.get := by
      refine e.value_congr fun name hname => ?_
      rw [hnames] at hname
      rw [KnownValues.get, KnownValues.get, hagree name hname]
    rw [hresult, hresult, KnownValues.result, KnownValues.result,
      KnownValues.firstMissing?_congr hagree, hvalue]

/-- In `2x` only `x` can lack a value. -/
theorem calculate_two_x :
    ∃ c, compile "2x" = .ok c ∧
      ∀ known : KnownValues, (∃ r, calculate known "2x" = .ok r) ↔ "x" ∈ known := by
  have hc : compile "2x" = .ok ⟨["*", "2", "x"], ⟨"2*x", "2 * x", "* 2 x", Trace.stages⟩⟩ := by
    cbv
  have htokens : Token.ofText "2x" = .ok [.terminal "2", .terminal "x"] := by cbv
  have hnames : Token.names [.terminal "2", .terminal "x"] = ["x"] := by
    simp [Token.names, Token.terminalsAll, Token.terminals, isName, isNameStart]
  obtain ⟨-, ts, hts, hvalue, -, -⟩ := calculate_of_compile hc
  obtain rfl := Except.ok.inj (htokens.symm.trans hts)
  refine ⟨_, hc, fun known => ?_⟩
  rw [hvalue known, hnames, List.forall_mem_singleton]

end FormulaDesk
