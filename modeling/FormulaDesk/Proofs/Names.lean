/-
  FormulaDesk.Proofs.Names
  ──────────────────────────────────────
  **NAMES, WITH A VALUE AND IN A FORMULA.**

  The texts that may be given a value are the texts that a formula reads as
  one name.  So a name with a value can be calculated, unless it calls a
  function; and a formula that lacks the value of a name can be given it.

    • `isName_iff` — a name is a text of one terminal that begins with no
      digit;
    • `KnownValues.isName_of_ofText` — only names have values;
    • `calculate_name`, `calculate_function` — a name as a formula;
    • `KnownValues.ofText_supply` — one more value behind the others.
-/
import FormulaDesk.Proofs.Derives
import FormulaDesk.Proofs.Entries
import FormulaDesk.Proofs.Values

namespace FormulaDesk

/-! ## §1. Names as tokens. -/

/-- A name spells itself. -/
theorem Spells.name {name : String} (h : isName name.toList = true) :
    Spells name.toList [.terminal name] := by
  have hspells := Spells.terminal (l := .name name.toList) h rfl rfl
  rwa [Lexeme.text, String.ofList_toList] at hspells

/-- A name is read as itself. -/
theorem Token.ofText_name {name : String} (h : isName name.toList = true) :
    ofText name = .ok [.terminal name] :=
  (ofText_spells (Spells.name h)).1 (Nat.zero_le _)

/-- **The names are the texts that are read as one terminal, themselves**, and
begin with no digit. -/
theorem isName_iff {name : String} :
    isName name.toList = true ↔ Token.ofText name = .ok [.terminal name] ∧
      ∀ c, name.toList.head? = some c → c.isDigit = false := by
  constructor
  · intro h
    refine ⟨Token.ofText_name h, fun c hc => ?_⟩
    obtain ⟨cs, hcs⟩ := List.head?_eq_some_iff.1 hc
    rw [hcs] at h
    exact isDigit_eq_false_of_isNameStart (Bool.and_eq_true_iff.1 h).1
  · intro ⟨htokens, hdigit⟩
    -- A terminal is a number or a name, and a number begins with a digit.
    obtain ⟨l, hsound, -, hoperand, htext⟩ :=
      Token.operand_of_ofText htokens name (by simp [Token.terminals])
    rw [htext, String.toList_ofList] at hdigit ⊢
    cases l with
    | name letters => exact hsound
    | operator op => exact nomatch hoperand
    | number whole fraction =>
        obtain ⟨c, body, hbody, hcdigit⟩ := Lexeme.exists_digit_of_number hsound
        rw [hdigit c (by rw [hbody]; rfl)] at hcdigit
        exact nomatch hcdigit

/-- A name of some tokens is a name. -/
theorem isName_of_mem_names {ts : List Token} {name : String} (h : name ∈ Token.names ts) :
    isName name.toList = true :=
  (List.mem_filter.1 h).2

/-! ## §2. Names with a value. -/

namespace KnownValues

/-- An entry is of a name. -/
theorem isName_of_readEntry {piece : List Char} {entry : String × Float}
    (h : readEntry piece = .ok entry) : isName entry.1.toList = true := by
  unfold readEntry at h
  split at h
  next => cases h
  next =>
    dsimp only at h
    split at h
    next hname =>
      split at h
      next v _ =>
        obtain rfl := Except.ok.inj h
        rw [String.toList_ofList]
        exact hname
      next => cases h
    next => cases h

/-- **Only names have values.** -/
theorem isName_of_ofText {text : String} {known : KnownValues} (h : ofText text = .ok known)
    {name : String} {value : Float} (hvalue : known[name]? = some value) :
    isName name.toList = true := by
  rw [ofText, map_eq_ok_iff] at h
  obtain ⟨entries, hentries, rfl⟩ := h
  rw [getElem?_ofEntries, lastValue?, Option.map_eq_some_iff] at hvalue
  obtain ⟨entry, hfind, -⟩ := hvalue
  have hmem := List.mem_reverse.1 (List.mem_of_find?_eq_some hfind)
  have hname : entry.1 = name := by simpa using List.find?_some hfind
  obtain ⟨piece, -, hpiece⟩ := exists_of_mem_mapM hentries entry hmem
  rw [← hname]
  exact isName_of_readEntry hpiece

end KnownValues

/-! ## §3. A name as a formula. -/

/-- The fault of a name that calls a function. -/
theorem calculate_function {name : String} (h : isName name.toList = true)
    (hfunc : (Func.ofName? name).isSome = true) (known : KnownValues) :
    calculate known name = .error (.formula (.functionWithoutArgument name)) := by
  have hsolid := solid_name h
  have htokens : Token.ofText (explicitProducts name) = .ok [.terminal name] := by
    rw [Token.ofText_explicit, Token.ofText_name h]
    rfl
  have hformula : Formula.ofTokens [.terminal name] =
      .error (.functionWithoutArgument name) := by
    show (if (Func.ofName? name).isSome then _ else _) = _
    rw [if_pos hfunc]
  have hcompile : compile name = .error (.formula (.functionWithoutArgument name)) := by
    rw [compile_eq (by rw [hsolid.trim_eq]; exact hsolid.ne_nil), hsolid.trim_eq,
      String.ofList_toList, htokens]
    show Fault.lift Fault.formula (Formula.ofTokens [.terminal name]) >>= _ = _
    rw [hformula]
    rfl
  rw [calculate, hcompile]
  rfl

/-- **A name that calls no function has its value.** -/
theorem calculate_name {name : String} (h : isName name.toList = true)
    (hfunc : Func.ofName? name = none) {known : KnownValues} {value : Float}
    (hvalue : known[name]? = some value) :
    ∃ trace, calculate known name = .ok ⟨value, trace⟩ := by
  obtain ⟨d, hd, hformula, hheight⟩ := (Derives.terminal hfunc).toSum
  -- One terminal has no product to write, so it compiles to itself.
  obtain ⟨c, hc, hsequence⟩ :=
    (compile_of_spells (solid_name h) (Spells.name h) hd).ok (by rw [hheight]; decide)
  have hoperand := Token.operand_of_ofText (Token.ofText_name h) name (by simp [Token.terminals])
  have hplain : (Formula.leaf name).Plain := ⟨hoperand.ofText?_eq_none, hfunc⟩
  rw [hformula] at hsequence
  have hliteral : Number.literal? name.toList = none := Number.literal?_name h
  have hnames : (Formula.leaf name).names = [name] := by simp [Formula.names, hliteral]
  have hget : (Formula.leaf name).value known.get = value := by
    simp [Formula.value, hliteral, KnownValues.get, hvalue]
  refine ⟨c.trace, ?_⟩
  rw [calculate_of_sequence hc hsequence hplain (Nat.zero_le _) known, hnames, hget]
  obtain ⟨-, -, hok⟩ | ⟨other, hother, hnot, -⟩ :=
    known.result_cases [name] (⟨value, c.trace⟩ : Calculation)
  · rw [hok]
    rfl
  · obtain rfl := List.mem_singleton.1 hother
    exact absurd (Std.ExtTreeMap.mem_iff_isSome_getElem?.2 (by rw [hvalue]; rfl)) hnot

/-! ## §4. The value that a formula lacks. -/

/-- Only the names of a compiled text and their values count. -/
theorem exists_result_of_compile {text : String} {c : Compiled} (h : compile text = .ok c) :
    ∃ (ts : List Token) (value : (String → Float) → Float), ∀ known : KnownValues,
      calculate known text =
        Fault.lift .sequence (known.result (Token.names ts) ⟨value known.get, c.trace⟩) := by
  obtain ⟨ts, e, -, hsequence, hplain, hheight, hnames⟩ := exists_formula_of_compile h
  refine ⟨ts, e.value, fun known => ?_⟩
  rw [calculate_of_sequence h hsequence hplain hheight known, hnames]

/-- A text that does not compile lacks no value. -/
theorem compile_ne_sequence (text : String) (fault : SequenceFault) :
    compile text ≠ .error (.sequence fault) := by
  intro h
  by_cases hblank : Text.trim text.toList = []
  · unfold compile at h
    rw [if_pos hblank] at h
    exact nomatch h
  · rw [compile_eq hblank, bind_eq_error_iff] at h
    rcases h with h | ⟨ts, -, h⟩
    · obtain ⟨cause, -, hcause⟩ := lift_eq_error_iff.1 h
      exact nomatch hcause
    · rcases bind_eq_error_iff.1 h with h | ⟨e, -, h⟩
      · obtain ⟨cause, -, hcause⟩ := lift_eq_error_iff.1 h
        exact nomatch hcause
      · exact nomatch h

/-- **What lacks a value is a name, and with its value it is no longer
missed**: the formula has a value, or lacks that of another name. -/
theorem calculate_of_unbound {known : KnownValues} {text name : String}
    (h : calculate known text = .error (.sequence (.unboundVariable name))) :
    isName name.toList = true ∧ ∀ known' : KnownValues, name ∈ known' →
      (∃ r, calculate known' text = .ok r) ∨
      ∃ other, other ≠ name ∧
        calculate known' text = .error (.sequence (.unboundVariable other)) := by
  cases hc : compile text with
  | error fault =>
      rw [calculate, hc] at h
      obtain rfl := Except.error.inj h
      exact absurd hc (compile_ne_sequence text _)
  | ok c =>
      obtain ⟨ts, value, hresult⟩ := exists_result_of_compile hc
      constructor
      · rw [hresult] at h
        obtain ⟨cause, hcause, heq⟩ := lift_eq_error_iff.1 h
        cases heq
        obtain ⟨-, -, hok⟩ | ⟨missing, hmem, -, -, herror⟩ :=
          known.result_cases (Token.names ts) (⟨value known.get, c.trace⟩ : Calculation)
        · rw [hok] at hcause
          cases hcause
        · rw [herror] at hcause
          cases hcause
          exact isName_of_mem_names hmem
      · intro known' hname
        rw [hresult]
        obtain ⟨-, -, hok⟩ | ⟨other, -, hnot, -, herror⟩ :=
          known'.result_cases (Token.names ts) (⟨value known'.get, c.trace⟩ : Calculation)
        · rw [hok]
          exact .inl ⟨_, rfl⟩
        · rw [herror]
          refine .inr ⟨other, ?_, rfl⟩
          intro heq
          exact hnot (heq ▸ hname)

namespace KnownValues

/-- Some known values and one more behind them: a name is 1. -/
def supply (values name : String) : String := values ++ ", " ++ name ++ " = 1"

theorem supply_eq (values name : String) :
    supply values name = beside values ',' (" " ++ name ++ " = 1") := by
  rw [← String.toList_inj, toList_beside]
  simp [supply]

theorem isSome_number?_one : (Number.number? "1".toList).isSome = true := rfl

/-- The entry of a piece with a name before its first `=` and a number behind
it. -/
theorem readEntry_of_parts {front behind : List Char} (hfront : '=' ∉ front)
    (hname : isName (Text.trim front) = true) {value : Float}
    (hvalue : Number.number? (Text.trim behind) = some value) :
    readEntry (front ++ '=' :: behind) = .ok (.ofList (Text.trim front), value) := by
  have hrun : front.all (fun c => decide (c ≠ '=')) = true := by
    rw [List.all_eq_true]
    intro c hc
    exact decide_eq_true fun heq => hfront (heq ▸ hc)
  have hrest : ∀ c, ('=' :: behind).head? = some c → decide (c ≠ '=') = false := by
    intro c hc
    obtain rfl := Option.some.inj hc
    rfl
  obtain ⟨htake, hdrop⟩ := Lexeme.takeWhile_append_of_endsAt hrun hrest
  rw [readEntry, htake, hdrop]
  simp only [hname, hvalue, if_true]

/-- No character of a name is a separator. -/
theorem isSeparator_eq_false_of_isNameChar {c : Char} (h : isNameChar c = true) :
    isSeparator c = false := by
  cases hsep : isSeparator c with
  | false => rfl
  | true =>
      simp only [isSeparator, Bool.or_eq_true, beq_iff_eq] at hsep
      rcases hsep with (rfl | rfl) | rfl <;> exact absurd h (by decide)

/-- **A text that gives a name a value**, with spaces in front of it. -/
theorem writes_entry {text name : String} (front : List Char) {number : List Char}
    (htext : text.toList = front ++ (name.toList ++ ([' ', '=', ' '] ++ number)))
    (hfront : ∀ c ∈ front, c = ' ') (h : isName name.toList = true) (hsolid : Solid number)
    (hnumber : ∀ c ∈ number, isSeparator c = false) {value : Float}
    (hvalue : Number.number? number = some value) : Writes text [(name, value)] := by
  have hchar : ∀ c ∈ name.toList, isNameChar c = true := fun c => Lexeme.isNameChar_of_mem h
  have hblank : front.all Text.isBlank = true :=
    List.all_eq_true.2 fun c hc => by rw [hfront c hc]; rfl
  have hnone : ∀ c ∈ text.toList, isSeparator c = false := by
    have hspaces : ∀ c ∈ front, isSeparator c = false := fun c hc => by rw [hfront c hc]; rfl
    have hname : ∀ c ∈ name.toList, isSeparator c = false :=
      fun c hc => isSeparator_eq_false_of_isNameChar (hchar c hc)
    have hequals : ∀ c ∈ [' ', '=', ' '], isSeparator c = false := by simp [isSeparator]
    rw [htext]
    simp only [List.forall_mem_append]
    exact ⟨hspaces, hname, hequals, hnumber⟩
  have hwhole : Solid (name.toList ++ ([' ', '=', ' '] ++ number)) :=
    (solid_name h).append hsolid [' ', '=', ' ']
  have hpieces : pieces text.toList = [name.toList ++ ([' ', '=', ' '] ++ number)] := by
    have hnothing : ([] : List Char).all Text.isBlank = true := rfl
    have htrim := hwhole.trim_surrounded hblank hnothing
    rw [List.append_nil, ← htext] at htrim
    rw [pieces, List.splitOnP_eq_singleton hnone, List.map_singleton, htrim]
    simp
  have hbefore : Text.trim ([] ++ (name.toList ++ [' '])) = name.toList :=
    (solid_name h).trim_surrounded rfl rfl
  have hbehind : Text.trim ([' '] ++ (number ++ [])) = number :=
    hsolid.trim_surrounded rfl rfl
  rw [List.nil_append] at hbefore
  rw [List.append_nil] at hbehind
  have hequals : '=' ∉ name.toList ++ [' '] := by
    intro hmem
    rcases List.mem_append.1 hmem with hmem | hmem
    · exact absurd (hchar _ hmem) (by decide)
    · exact absurd (List.mem_singleton.1 hmem) (by decide)
  have hentry : readEntry ((name.toList ++ [' ']) ++ '=' :: ([' '] ++ number)) =
      .ok (.ofList (Text.trim (name.toList ++ [' '])), value) :=
    readEntry_of_parts hequals (by rw [hbefore]; exact h) (by rw [hbehind]; exact hvalue)
  rw [hbefore, String.ofList_toList, List.append_assoc] at hentry
  rw [Writes, hpieces, List.mapM_cons]
  show readEntry (name.toList ++ ([' '] ++ '=' :: ([' '] ++ number))) >>= _ = _
  rw [hentry]
  rfl

/-- **One more value behind the others.** -/
theorem ofText_supply {values name : String} {known : KnownValues}
    (h : ofText values = .ok known) (hname : isName name.toList = true) :
    ∃ known', ofText (supply values name) = .ok known' ∧ ∀ other : String,
      known'[other]? =
        if other = name then Number.number? "1".toList else known[other]? := by
  obtain ⟨one, hone⟩ := Option.isSome_iff_exists.1 isSome_number?_one
  have hwrites : Writes (" " ++ name ++ " = 1") [(name, one)] :=
    writes_entry [' '] (by simp) (by simp) hname (Solid.singleton (c := '1') rfl)
      (by simp [isSeparator]) hone
  rw [supply_eq, ofText_beside _ _ rfl, h, hwrites.ofText_eq]
  refine ⟨known ∪ ofEntries [(name, one)], rfl, fun other => ?_⟩
  rw [Std.ExtTreeMap.getElem?_union, getElem?_ofEntries, hone]
  by_cases heq : other = name
  · simp [lastValue?, heq]
  · simp [lastValue?, heq, Ne.symm heq]

end KnownValues

/-- **THE NAMES WITH A VALUE ARE THE NAMES OF FORMULAS.**  A name is a text of
one terminal, itself, that begins with no digit.  So a name with a value is a
formula with this value, unless it calls a function; and a name that a formula
lacks can be given a value behind the others, and then it is no longer
missed. -/
theorem names_agree :
    (∀ name : String, isName name.toList = true ↔
      Token.ofText name = .ok [.terminal name] ∧
        ∀ c, name.toList.head? = some c → c.isDigit = false) ∧
    (∀ (values : String) (known : KnownValues), KnownValues.ofText values = .ok known →
      ∀ (name : String) (value : Float), known[name]? = some value →
        (Func.ofName? name = none →
          ∃ trace, calculate known name = .ok ⟨value, trace⟩) ∧
        ((Func.ofName? name).isSome = true →
          calculate known name = .error (.formula (.functionWithoutArgument name)))) ∧
    (∀ (values : String) (known : KnownValues), KnownValues.ofText values = .ok known →
      ∀ text name : String,
        calculate known text = .error (.sequence (.unboundVariable name)) →
        ∃ known', KnownValues.ofText (values ++ ", " ++ name ++ " = 1") = .ok known' ∧
          (∀ other : String, known'[other]? =
            if other = name then Number.number? "1".toList else known[other]?) ∧
          ((∃ r, calculate known' text = .ok r) ∨
            ∃ other, other ≠ name ∧
              calculate known' text = .error (.sequence (.unboundVariable other)))) := by
  refine ⟨fun name => isName_iff, ?calculated, ?supplied⟩
  case calculated =>
    intro values known hvalues name value hvalue
    have hname := KnownValues.isName_of_ofText hvalues hvalue
    exact ⟨fun hfunc => calculate_name hname hfunc hvalue,
      fun hfunc => calculate_function hname hfunc known⟩
  case supplied =>
    intro values known hvalues text name hunbound
    obtain ⟨hname, hcalculate⟩ := calculate_of_unbound hunbound
    obtain ⟨known', hknown', hsupplied⟩ := KnownValues.ofText_supply hvalues hname
    refine ⟨known', hknown', hsupplied, hcalculate known' ?_⟩
    rw [Std.ExtTreeMap.mem_iff_isSome_getElem?, hsupplied, if_pos rfl]
    exact KnownValues.isSome_number?_one

/-- With `x` given the value 1, `2x` no longer lacks it; a value for `sin` is of
no use. -/
theorem names_agree_two_x :
    (∃ known, KnownValues.ofText "sin = 1" = .ok known ∧
      calculate known "sin" = .error (.formula (.functionWithoutArgument "sin"))) ∧
    ∃ known known', KnownValues.ofText "y = 1" = .ok known ∧
      calculate known "2x" = .error (.sequence (.unboundVariable "x")) ∧
      KnownValues.ofText "y = 1, x = 1" = .ok known' ∧
      (∃ trace, calculate known' "x" = .ok ⟨Number.Numeral.toFloat ⟨false, 1, 0⟩, trace⟩) ∧
      ((∃ r, calculate known' "2x" = .ok r) ∨
        ∃ other, other ≠ "x" ∧
          calculate known' "2x" = .error (.sequence (.unboundVariable other))) := by
  have hsin : KnownValues.Writes "sin = 1" [("sin", Number.Numeral.toFloat ⟨false, 1, 0⟩)] := rfl
  have hvalues : KnownValues.Writes "y = 1" [("y", Number.Numeral.toFloat ⟨false, 1, 0⟩)] := rfl
  have hunbound : calculate (KnownValues.ofEntries [("y", Number.Numeral.toFloat ⟨false, 1, 0⟩)])
      "2x" = .error (.sequence (.unboundVariable "x")) := by
    have hc : compile "2x" =
        .ok ⟨["*", "2", "x"], ⟨"2*x", "2 * x", "* 2 x", Trace.stages⟩⟩ := by cbv
    rw [calculate_of_sequence hc (e := .binary .mul (.leaf "2") (.leaf "x")) rfl
      ⟨⟨rfl, rfl⟩, ⟨rfl, rfl⟩⟩ (by decide)]
    show Fault.lift Fault.sequence (KnownValues.result _ ["x"] _) = _
    obtain ⟨-, hall, -⟩ | ⟨name, hname, -, -, herror⟩ := KnownValues.result_cases
      (KnownValues.ofEntries [("y", Number.Numeral.toFloat ⟨false, 1, 0⟩)]) ["x"] _
    · have hx := Std.ExtTreeMap.mem_iff_isSome_getElem?.1 (hall "x" (List.mem_singleton_self _))
      rw [KnownValues.getElem?_ofEntries] at hx
      exact absurd hx Bool.false_ne_true
    · obtain rfl := List.mem_singleton.1 hname
      rw [herror]
      rfl
  obtain ⟨-, hcalculated, hsupplied⟩ := names_agree
  obtain ⟨known', hknown', hvalue, hresult⟩ :=
    hsupplied "y = 1" _ hvalues.ofText_eq "2x" "x" hunbound
  have hone : known'["x"]? = some (Number.Numeral.toFloat ⟨false, 1, 0⟩) := by
    rw [hvalue, if_pos rfl]
    rfl
  have hsinone : (KnownValues.ofEntries [("sin", Number.Numeral.toFloat ⟨false, 1, 0⟩)])["sin"]? =
      some (Number.Numeral.toFloat ⟨false, 1, 0⟩) := by
    rw [KnownValues.getElem?_ofEntries]
    rfl
  exact ⟨⟨_, hsin.ofText_eq, (hcalculated _ _ hsin.ofText_eq "sin" _ hsinone).2 rfl⟩,
    _, known', hvalues.ofText_eq, hunbound, hknown',
    (hcalculated _ known' hknown' "x" _ hone).1 rfl, hresult⟩

end FormulaDesk
