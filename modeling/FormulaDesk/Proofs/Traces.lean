/-
  FormulaDesk.Proofs.Traces
  ──────────────────────────────────────
  **TRACES READ AGAIN.**

  A trace shows what each stage gave as a text, and every such text can be used
  in its turn.  The text with its products has no blanks at its ends and lacks
  no product, so it is its own first stage.  Neither does the writing of the
  tokens, and it is read as just these tokens.  The atoms of the sequence have
  no blanks in them, so a space between any two tells them apart.

    • `compile_explicitProducts` — a text compiles alike with its products
      written;
    • `Spelled.explicit`, `compile_toText` — so does the writing of the tokens,
      from the second stage on;
    • `Text.words_intercalate`, `ofText_sequence` — the atoms of a
      sequence are found again;
    • `calculate_trace` — all three have the same value.
-/
import FormulaDesk.Proofs.Compiled
import FormulaDesk.Proofs.Explicit
import FormulaDesk.Proofs.Rendering

namespace FormulaDesk

open FormulaDesk.Text (isBlank)

/-! ## §1. The text with its products. -/

namespace Piece

/-- No star is written at the head of a text. -/
theorem head?_textOf_withProducts {ps : List Piece} (h : Parted ps) :
    (textOf (withProducts 0 .nothing ps)).head? = (textOf ps).head? := by
  cases ps with
  | nil => rfl
  | cons p ps =>
      rw [withProducts_cons, starred_nothing]
      show (textOf (p :: _)).head? = _
      rw [head?_textOf_cons h.1, head?_textOf_cons h.1]

/-- No star is written at the end of a text. -/
theorem getLast?_textOf_withProducts {ps : List Piece} (h : Parted ps) :
    ∀ (opened : Nat) (before : Before),
      (textOf (withProducts opened before ps)).getLast? = (textOf ps).getLast? := by
  induction ps with
  | nil => intro opened before; rfl
  | cons p ps ih =>
      intro opened before
      rw [textOf_withProducts_cons, textOf_cons, List.getLast?_append, List.getLast?_append,
        List.getLast?_append, ih h.2.2]
      -- The piece itself has a last character, so the stars before it do not count.
      cases hlast : p.text.getLast? with
      | none => exact absurd (List.getLast?_eq_none_iff.1 hlast) (text_ne_nil h.1)
      | some c => cases (textOf ps).getLast? <;> rfl

end Piece

theorem solid_explicitProducts {text : String} (h : Solid text.toList) :
    Solid (explicitProducts text).toList := by
  have hparted := Piece.parted_split text.toList
  have hhead := Piece.head?_textOf_withProducts hparted
  have hlast := Piece.getLast?_textOf_withProducts hparted 0 .nothing
  rw [Piece.textOf_split] at hhead hlast
  rw [explicitProducts, String.toList_ofList]
  refine ⟨?_, ?_, ?_⟩
  · intro hnil
    rw [hnil] at hhead
    exact h.ne_nil (List.head?_eq_none_iff.1 hhead.symm)
  · intro c hc
    exact h.head c (hhead ▸ hc)
  · intro c hc
    exact h.last c (hlast ▸ hc)

/-- Blanks at the ends of a text do not count. -/
theorem compile_trim (text : String) :
    compile (.ofList (Text.trim text.toList)) = compile text := by
  have htrim : Text.trim (Text.trim text.toList) = Text.trim text.toList := by
    by_cases hblank : Text.trim text.toList = []
    · rw [hblank]
      rfl
    · exact (solid_trim hblank).trim_eq
  unfold compile
  rw [String.toList_ofList, htrim]

/-- **A text compiles alike with its products written**, to the same trace. -/
theorem compile_explicitProducts {text : String} (h : Solid text.toList) :
    compile (explicitProducts text) = compile text := by
  have hsolid := solid_explicitProducts h
  have hne : Text.trim text.toList ≠ [] := by
    rw [h.trim_eq]
    exact h.ne_nil
  have hne' : Text.trim (explicitProducts text).toList ≠ [] := by
    rw [hsolid.trim_eq]
    exact hsolid.ne_nil
  have hagain : explicitProducts (explicitProducts text) = explicitProducts text := by
    rw [explicitProducts_eq_self_iff, Piece.split_explicitProducts]
    exact Piece.explicit_withProducts _ 0 .nothing
  rw [compile_eq hne', compile_eq hne, hsolid.trim_eq, h.trim_eq, String.ofList_toList,
    String.ofList_toList, hagain]

/-! ## §2. The writing of the tokens. -/

namespace Token

theorem solid_render {t : Token} (h : ∀ text ∈ t.terminals, IsOperand text) :
    Solid t.render := by
  cases t with
  | terminal text =>
      obtain ⟨l, hsound, -, -, rfl⟩ := h text (List.mem_singleton_self text)
      rw [render, String.toList_ofList]
      exact Lexeme.solid hsound
  | operator op => exact Solid.singleton (isBlank_symbol op)
  | group body =>
      have hpair := solid_pair (' ' :: renderAll body ++ [' '])
      simpa [render] using hpair
  | call f body =>
      have hpair := solid_pair (' ' :: renderAll body ++ [' '])
      simpa [render] using (solid_name (isName_name f)).append hpair []

/-- **The writing of tokens has no blanks at its ends.** -/
theorem solid_renderAll {ts : List Token} (hne : ts ≠ [])
    (h : ∀ text ∈ terminalsAll ts, IsOperand text) : Solid (renderAll ts) := by
  induction ts with
  | nil => exact absurd rfl hne
  | cons t ts ih =>
      rw [terminalsAll, List.forall_mem_append] at h
      cases ts with
      | nil => exact solid_render h.1
      | cons u us => exact (solid_render h.1).append (ih (List.cons_ne_nil u us) h.2) [' ']

/-- Tokens that lack no product, one by one. -/
theorem explicitAll_eq_cons {b : Bool} {t : Token} {ts : List Token}
    (h : explicitAll b (t :: ts) = t :: ts) :
    (t.isTerm = true → b = false) ∧ explicit t = t ∧ explicitAll t.isTerm ts = ts := by
  rw [explicitAll_cons] at h
  cases hstar : b && t.isTerm with
  | true =>
      -- A star in front would be the first token itself.
      rw [hstar] at h
      obtain rfl := (List.cons.inj h).1
      rw [isTerm_operator, Bool.and_false] at hstar
      exact nomatch hstar
  | false =>
      rw [hstar] at h
      obtain ⟨ht, hts⟩ := List.cons.inj h
      refine ⟨fun hterm => ?_, ht, hts⟩
      rw [hterm, Bool.and_true] at hstar
      exact hstar

end Token

/-- No star is due among the pieces of a pair of parentheses when none is due
before it, inside it and behind the value that it is. -/
theorem Piece.explicit_pair {body ps : List Piece} {opened : Nat} {before : Before}
    (hopening : starred opened before .opening = false)
    (hbody : (∀ before', Explicit (opened + 1) before' (.closing :: ps)) →
      Explicit (opened + 1) .nothing (body ++ .closing :: ps))
    (hbehind : Explicit opened .value ps) :
    Explicit opened before (.opening :: (body ++ .closing :: ps)) := by
  refine ⟨hopening, hbody fun before' => ⟨?_, hbehind⟩⟩
  simp [starred, starDue]

/-- **Where no product is missing among the tokens no star is due among the
pieces** that spell them; `b` tells whether a term stands before them. -/
theorem Spelled.explicit {ps : List Piece} {ts : List Token} (h : Spelled ps ts) :
    ∀ (opened : Nat) (before : Before) (b : Bool) (rest : List Piece),
      (b = false → before = .nothing) → Token.explicitAll b ts = ts →
      (∀ before', Piece.Explicit opened before' rest) →
      Piece.Explicit opened before (ps ++ rest) := by
  -- What follows is any rest, so that a body can be followed by its parenthesis.
  induction h with
  | nil => intro opened before b rest _ _ hrest; exact hrest before
  | blank c _ ih =>
      intro opened before b rest hbefore hts hrest
      refine ⟨by simp [Piece.starred, Piece.starDue], ?_⟩
      refine ih opened before.afterBlank b rest (fun hb => ?_) hts hrest
      rw [hbefore hb]
      rfl
  | operator op _ ih =>
      intro opened before b rest _ hts hrest
      obtain ⟨-, -, hts⟩ := Token.explicitAll_eq_cons hts
      refine ⟨by simp [Piece.starred, Piece.starDue, Lexeme.isOperand], ?_⟩
      exact ih opened .nothing false rest (fun _ => rfl) hts hrest
  | terminal l operand complete callee _ ih =>
      intro opened before b rest hbefore hts hrest
      obtain ⟨hb, -, hts⟩ := Token.explicitAll_eq_cons hts
      rw [hbefore (hb rfl)]
      refine ⟨Piece.starred_nothing opened _, ?_⟩
      exact ih opened (.ofLexeme l) true rest (fun h => Bool.noConfusion h) hts hrest
  | group inside _ ihbody ih =>
      intro opened before b rest hbefore hts hrest
      obtain ⟨hb, hbody, hts⟩ := Token.explicitAll_eq_cons hts
      rw [Token.explicit, Token.group.injEq] at hbody
      rw [hbefore (hb rfl), List.cons_append, List.append_assoc, List.cons_append]
      exact Piece.explicit_pair (Piece.starred_nothing opened _)
        (ihbody (opened + 1) .nothing false _ (fun _ => rfl) hbody)
        (ih opened .value true rest (fun h => Bool.noConfusion h) hts hrest)
  | call f inside _ ihbody ih =>
      intro opened before b rest hbefore hts hrest
      obtain ⟨hb, hbody, hts⟩ := Token.explicitAll_eq_cons hts
      rw [Token.explicit, Token.call.injEq] at hbody
      -- Between a function and the parenthesis that it touches no star is due.
      have hcallee : Before.ofLexeme (.name f.name.toList) = .callee := by
        simp [Before.ofLexeme]
      rw [hbefore (hb rfl), List.cons_append, List.cons_append, List.append_assoc,
        List.cons_append]
      refine ⟨Piece.starred_nothing opened _, ?_⟩
      rw [Piece.leaves, hcallee]
      exact Piece.explicit_pair (by simp [Piece.starred, Piece.starDue])
        (ihbody (opened + 1) .nothing false _ (fun _ => rfl) hbody.2)
        (ih opened .value true rest (fun h => Bool.noConfusion h) hts hrest)

/-- **The writing of tokens that lack no product stays as it is.** -/
theorem explicitProducts_toText {ts : List Token}
    (hoperand : ∀ text ∈ Token.terminalsAll ts, IsOperand text)
    (hts : Token.explicitAll false ts = ts) :
    explicitProducts (Token.toText ts) = Token.toText ts := by
  rw [explicitProducts_eq_self_iff, Token.toText, String.toList_ofList]
  have hexplicit := (Spells.renderAll ts hoperand).explicit 0 .nothing false [] (fun _ => rfl) hts
    (fun _ => trivial)
  rwa [List.append_nil] at hexplicit

/-- **The writing of a text's tokens compiles to its sequence**, with the same
trace but for the first stage, which finds every product written. -/
theorem compile_toText {text : String} {c : Compiled} (h : compile text = .ok c) :
    compile c.trace.tokens = .ok ⟨c.sequence, { c.trace with products := c.trace.tokens }⟩ := by
  obtain ⟨-, ts, e, hts, he, rfl⟩ := compile_eq_ok_iff.1 h
  have hreadable := Token.readable_of_ofText hts
  obtain ⟨d, hd, -, -⟩ := ofTokens_eq_ok_iff.1 he
  -- Derived tokens are not empty, and lack no product.
  have hsolid : Solid (Token.toText ts).toList := by
    rw [Token.toText, String.toList_ofList]
    exact Token.solid_renderAll (hd ▸ d.tokens_ne_nil) hreadable.operand
  have hproducts : explicitProducts (Token.toText ts) = Token.toText ts :=
    explicitProducts_toText hreadable.operand (hd ▸ d.explicitAll_tokens)
  show compile (Token.toText ts) = _
  rw [compile_eq_ok_iff, hsolid.trim_eq, String.ofList_toList, hproducts]
  exact ⟨hsolid.ne_nil, ts, e, hreadable.ofText_eq_ok, he, rfl⟩

/-! ## §3. The sequence. -/

/-- A word: it has a character and no blank. -/
def Text.IsWord (cs : List Char) : Prop := cs ≠ [] ∧ ∀ c ∈ cs, isBlank c = false

namespace Text

/-- **A space between any two words tells them apart.** -/
theorem words_intercalate {ws : List (List Char)} (h : ∀ w ∈ ws, IsWord w) :
    words ([' '].intercalate ws) = ws := by
  have hword : ∀ w, IsWord w → [w].filter (· ≠ []) = [w] := by
    intro w hw
    simp [hw.1]
  have hspace : isBlank ' ' = true := by decide
  unfold words
  induction ws with
  | nil => rfl
  | cons w ws ih =>
      obtain ⟨hw, hws⟩ := List.forall_mem_cons.1 h
      cases ws with
      | nil =>
          rw [List.intercalate_singleton, List.splitOnP_eq_singleton hw.2, hword w hw]
      | cons v ws =>
          rw [List.intercalate_cons_cons, List.append_assoc, List.singleton_append,
            List.splitOnP_append_cons w _ hspace,
            List.splitOnP_eq_singleton hw.2, List.filter_append, hword w hw, ih hws]
          rfl

end Text

/-- An atom of a sequence is a terminal of its tokens, or an operator, a
function or the operand `0` of a sign. -/
theorem Derivation.mem_sequence {l : Layer} (d : Derivation l) :
    ∀ a ∈ d.formula.sequence, a ∈ Token.terminalsAll d.tokens ∨ a = "0" ∨
      (∃ op : Operator, a = op.text) ∨ ∃ f : Func, a = f.name := by
  refine d.induct (motive := fun ts e _ => ∀ a ∈ e.sequence, a ∈ Token.terminalsAll ts ∨ a = "0" ∨
    (∃ op : Operator, a = op.text) ∨ ∃ f : Func, a = f.name) ?join ?sign ?terminal ?group ?call
  case join =>
    intro op ts us e e' _ _ hl hr a ha
    rw [Formula.sequence, List.mem_cons, List.mem_append] at ha
    rw [Token.terminalsAll_join, List.mem_append]
    rcases ha with rfl | ha | ha
    · exact .inr (.inr (.inl ⟨op, rfl⟩))
    · exact (hl a ha).imp_left .inl
    · exact (hr a ha).imp_left .inr
  case sign =>
    intro op ts e _ ih a ha
    rw [Token.terminalsAll, Token.terminals, List.nil_append]
    by_cases hop : op = .sub
    · rw [if_pos hop, Formula.negated, Formula.sequence, Formula.sequence, List.mem_cons] at ha
      rcases ha with rfl | ha
      · exact .inr (.inr (.inl ⟨.sub, rfl⟩))
      · rcases List.mem_cons.1 ha with rfl | ha
        · exact .inr (.inl rfl)
        · exact ih a ha
    · rw [if_neg hop] at ha
      exact ih a ha
  case terminal =>
    intro text _ a ha
    rw [Token.terminalsAll_singleton]
    exact .inl ha
  case group =>
    intro ts e _ ih a ha
    rw [Token.terminalsAll_singleton]
    exact ih a ha
  case call =>
    intro f ts e _ ih a ha
    rw [Token.terminalsAll_singleton]
    rcases List.mem_cons.1 ha with rfl | ha
    · exact .inr (.inr (.inr ⟨f, rfl⟩))
    · exact ih a ha

/-- Every atom of a compiled text is a lexeme. -/
theorem exists_lexeme_of_mem_sequence {text : String} {c : Compiled} (h : compile text = .ok c) :
    ∀ a ∈ c.sequence, ∃ l : Lexeme, l.Sound ∧ a = .ofList l.text := by
  obtain ⟨-, ts, e, hts, he, rfl⟩ := compile_eq_ok_iff.1 h
  obtain ⟨d, rfl, rfl, -⟩ := ofTokens_eq_ok_iff.1 he
  intro a ha
  rcases d.mem_sequence a ha with hterminal | rfl | ⟨op, rfl⟩ | ⟨f, rfl⟩
  · obtain ⟨l, hsound, -, -, rfl⟩ := Token.operand_of_ofText hts a hterminal
    exact ⟨l, hsound, rfl⟩
  · exact ⟨.number ['0'] none, by simp [Lexeme.Sound], rfl⟩
  · exact ⟨.operator op, trivial, by cases op <;> rfl⟩
  · exact ⟨.name f.name.toList, isName_name f, String.ofList_toList.symm⟩

/-- **The sequence of a trace builds the operation of its atoms.** -/
theorem ofText_sequence {text : String} {c : Compiled} (h : compile text = .ok c) :
    Operation.ofText c.trace.sequence = Operation.ofAtoms (c.sequence.map .symbol) := by
  have htrace : c.trace.sequence = " ".intercalate c.sequence := by
    obtain ⟨-, ts, e, -, -, rfl⟩ := compile_eq_ok_iff.1 h
    rfl
  have hwords : ∀ w ∈ c.sequence.map String.toList, Text.IsWord w := by
    intro w hw
    obtain ⟨a, ha, rfl⟩ := List.mem_map.1 hw
    obtain ⟨l, hsound, rfl⟩ := exists_lexeme_of_mem_sequence h a ha
    rw [String.toList_ofList]
    exact ⟨(Lexeme.solid hsound).ne_nil, Lexeme.isBlank_eq_false hsound⟩
  unfold Operation.ofText
  rw [htrace, String.toList_intercalate]
  show Operation.ofAtoms ((Text.words ([' '].intercalate _)).map _) = _
  rw [Text.words_intercalate hwords, List.map_map]
  simp [Function.comp_def]

/-! ## §4. Calculations. -/

/-- **A TRACE CAN BE READ AGAIN.**  Whatever text has a value: its text with
products has that value and the same trace; the writing of its tokens has that
value and, but for the products that it writes no more, the same trace; and its
sequence builds an operation with that value. -/
theorem calculate_trace {known : KnownValues} {text : String} {r : Calculation}
    (h : calculate known text = .ok r) :
    calculate known r.trace.products = .ok r ∧
    calculate known r.trace.tokens =
      .ok ⟨r.value, { r.trace with products := r.trace.tokens }⟩ ∧
    ∃ o, Operation.ofText r.trace.sequence = .ok o ∧ o.evaluate known = .ok r.value := by
  obtain ⟨c, hc, hvalue, htrace⟩ := calculate_eq_ok_iff.1 h
  rw [← htrace]
  refine ⟨?products, ?tokens, ?sequence⟩
  case products =>
    obtain ⟨hne, _, _, -, -, heq⟩ := compile_eq_ok_iff.1 hc
    have hsolid : Solid (String.ofList (Text.trim text.toList)).toList := by
      rw [String.toList_ofList]
      exact solid_trim hne
    rw [calculate_eq_ok_iff]
    refine ⟨c, ?_, hvalue, htrace⟩
    rw [← heq, compile_explicitProducts hsolid, compile_trim, hc, heq]
  case tokens =>
    rw [calculate_eq_ok_iff]
    exact ⟨_, compile_toText hc, hvalue, rfl⟩
  case sequence =>
    rw [ofText_sequence hc]
    obtain ⟨o, ho, hevaluate⟩ := bind_eq_ok_iff.1 hvalue
    exact ⟨o, ho, hevaluate⟩

/-- The three texts that `2(3)` leaves behind. -/
theorem calculate_trace_two_three :
    ∃ v, calculate ∅ "2(3)" = .ok ⟨v, ⟨"2*(3)", "2 * ( 3 )", "* 2 3", Trace.stages⟩⟩ ∧
      calculate ∅ "2*(3)" = .ok ⟨v, ⟨"2*(3)", "2 * ( 3 )", "* 2 3", Trace.stages⟩⟩ ∧
      calculate ∅ "2 * ( 3 )" = .ok ⟨v, ⟨"2 * ( 3 )", "2 * ( 3 )", "* 2 3", Trace.stages⟩⟩ ∧
      ∃ o, Operation.ofText "* 2 3" = .ok o ∧ o.evaluate ∅ = .ok v := by
  have hc : compile "2(3)" =
      .ok ⟨["*", "2", "3"], ⟨"2*(3)", "2 * ( 3 )", "* 2 3", Trace.stages⟩⟩ := by
    cbv
  have hplain : (Formula.binary .mul (.leaf "2") (.leaf "3")).Plain := ⟨⟨rfl, rfl⟩, rfl, rfl⟩
  have h := calculate_of_sequence hc (e := .binary .mul (.leaf "2") (.leaf "3")) rfl
    hplain (by unfold maxNesting; decide) ∅
  have hnames : (Formula.binary .mul (.leaf "2") (.leaf "3")).names = [] := rfl
  rw [hnames] at h
  obtain ⟨v, hv⟩ : ∃ v, calculate ∅ "2(3)" =
      .ok ⟨v, ⟨"2*(3)", "2 * ( 3 )", "* 2 3", Trace.stages⟩⟩ := ⟨_, h⟩
  obtain ⟨hproducts, htokens, hsequence⟩ := calculate_trace hv
  exact ⟨v, hv, hproducts, htokens, hsequence⟩

end FormulaDesk
