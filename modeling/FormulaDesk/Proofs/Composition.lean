/-
  FormulaDesk.Proofs.Composition
  ──────────────────────────────────────
  **TEXTS PUT TOGETHER.**

  Between parentheses a text means what it means alone, whatever products it
  leaves unwritten and wherever its blanks stand.  So parentheses, operators,
  calls and signs make a text out of texts whose sequence is put together from
  theirs; a group beside a group is a product, and each minus sign in a row of
  signs takes one more operand from `0`.  Only the height grows, by one for
  each pair of parentheses, operator and sign.

    • `Reads.group`, `Reads.join`, `Reads.beside`, `Reads.call`, `Reads.signs`
      — one rule for each way to put texts together;
    • `compile_compositional` — what the composed texts compile to.
-/
import FormulaDesk.Proofs.Compiled
import FormulaDesk.Proofs.Derives
import FormulaDesk.Proofs.Reading

namespace FormulaDesk

/-! ## §1. What a text means. -/

/-- A text spells tokens that, with their products, are derived from a layer,
with this meaning and this height. -/
def Reads (cs : List Char) (l : Layer) (e : Formula) (height : Nat) : Prop :=
  ∃ ts, Spells cs ts ∧ Derives l (Token.explicitAll false ts) e height

/-- The height of a text, whatever it means. -/
def HasHeight (text : String) (height : Nat) : Prop :=
  ∃ e, Reads text.toList .sum e height

/-- A compiled text has a meaning, and it is not too high. -/
theorem reads_of_compile {text : String} {c : Compiled} (h : compile text = .ok c) :
    ∃ e n, Reads text.toList .sum e n ∧ n ≤ maxNesting ∧ c.sequence = e.sequence := by
  obtain ⟨ts, d, hts, hd, hheight, hsequence⟩ := compile_eq_ok h
  have hspells := (Token.ofText_eq_ok_iff.1 hts).1
  exact ⟨d.formula, d.height, ⟨ts, hspells, d, hd, rfl, rfl⟩, hheight, hsequence⟩

/-- **A text has one height**, as long as one of its heights is within the
bound. -/
theorem HasHeight.unique {text : String} {m n : Nat} (h : HasHeight text m)
    (hm : m ≤ maxNesting) (h' : HasHeight text n) : n = m := by
  obtain ⟨_, ts, hspells, d, hd, -, rfl⟩ := h
  obtain ⟨_, us, hspells', d', hd', -, rfl⟩ := h'
  have hts := Token.ofText_eq_ok_iff.2 ⟨hspells, Nat.le_trans (d.nestingAll_le hd) hm⟩
  -- The other tokens do not nest too deep either, for the text is not refused.
  obtain rfl : us = ts := by
    by_cases hle : Token.nestingAll us ≤ maxNesting
    · have hus := Token.ofText_eq_ok_iff.2 ⟨hspells', hle⟩
      exact Except.ok.inj (hus.symm.trans hts)
    · obtain ⟨position, hfault⟩ := (Token.ofText_spells hspells').2 (Nat.lt_of_not_le hle)
      exact nomatch hts.symm.trans hfault
  rw [d'.tokens_injective d (hd'.trans hd.symm)]

namespace Reads

variable {cs ds : List Char} {l : Layer} {e e' : Formula} {m n : Nat}

/-- **A text compiles to what it means.** -/
theorem compilesTo {text : String} (htext : text.toList = cs) (hsolid : Solid cs)
    (h : Reads cs .sum e n) : CompilesTo text e.sequence n := by
  obtain ⟨ts, hspells, d, hd, rfl, rfl⟩ := h
  subst htext
  exact compile_of_spells hsolid hspells hd

theorem widen (h : Reads cs l e n) {l' : Layer} (hindex : l'.index ≤ l.index) :
    Reads cs l' e n := by
  obtain ⟨ts, hspells, hderives⟩ := h
  exact ⟨ts, hspells, hderives.widen hindex⟩

/-! ## §2. Rules. -/

theorem group (h : Reads cs .sum e n) : Reads ('(' :: (cs ++ [')'])) .atom e (n + 1) := by
  obtain ⟨ts, hspells, hderives⟩ := h
  exact ⟨[.group ts], hspells.group .nil, hderives.group⟩

theorem call (f : Func) (h : Reads cs .sum e n) :
    Reads (f.name.toList ++ '(' :: (cs ++ [')'])) .atom (.call f e) (n + 1) := by
  obtain ⟨ts, hspells, hderives⟩ := h
  exact ⟨[.call f ts], hspells.call f .nil, hderives.call f⟩

/-- An operator keeps apart what stands on its sides. -/
theorem join (op : Operator) (h : Reads cs op.leftLayer e m)
    (h' : Reads ds op.rightLayer e' n) :
    Reads (cs ++ op.symbol :: ds) op.layer (.binary op e e') (max m n + 1) := by
  obtain ⟨ts, hspells, hderives⟩ := h
  obtain ⟨us, hspells', hderives'⟩ := h'
  refine ⟨ts ++ .operator op :: us, ?_, ?_⟩
  · refine hspells.append (hspells'.operator op) (Piece.fresh_symbol op ds) ?_
    show some op.symbol ≠ some '('
    cases op <;> decide
  · rw [Token.explicitAll_join]
    exact hderives.join op hderives'

/-- Between two groups a product is written. -/
theorem beside (h : Reads cs .sum e m) (h' : Reads ds .sum e' n) :
    Reads ('(' :: (cs ++ [')']) ++ '(' :: (ds ++ [')'])) .product (.binary .mul e e')
      (max m n + 2) := by
  obtain ⟨ts, hspells, hderives⟩ := h
  obtain ⟨us, hspells', hderives'⟩ := h'
  refine ⟨[.group ts, .group us], ?_, ?_⟩
  · have hgroups := hspells.group (hspells'.group .nil)
    simpa using hgroups
  · have hjoin := Derives.join .mul (hderives.group.widen (by decide))
      (hderives'.group.widen (by decide))
    rwa [Nat.add_max_add_right] at hjoin

theorem sign (op : Operator) (hop : op.tier = .additive) (h : Reads cs .signed e n) :
    Reads (op.symbol :: cs) .signed (if op = .sub then e.negated else e) (n + 1) := by
  obtain ⟨ts, hspells, hderives⟩ := h
  have hproducts : Token.explicitAll false (.operator op :: ts) =
      .operator op :: Token.explicitAll false ts := Token.explicitAll_join false [] op ts
  refine ⟨.operator op :: ts, hspells.operator op, ?_⟩
  rw [hproducts]
  exact hderives.sign hop

/-- **A row of signs**: each minus sign takes what is behind it from `0`, and
plus signs only add height. -/
theorem signs (h : Reads cs .signed e n) (w : List Char) :
    (∀ a ∈ w, a = '+' ∨ a = '-') →
      ∃ e', Reads (w ++ cs) .signed e' (n + w.length) ∧
        e'.sequence = (List.replicate (w.count '-') ["-", "0"]).flatten ++ e.sequence := by
  induction w with
  | nil => intro _; exact ⟨e, h, rfl⟩
  | cons a w ih =>
      intro hw
      obtain ⟨ha, hrest⟩ := List.forall_mem_cons.1 hw
      obtain ⟨e', hreads, hsequence⟩ := ih hrest
      rcases ha with rfl | rfl
      · refine ⟨e', hreads.sign .add rfl, ?_⟩
        rw [hsequence, List.count_cons_of_ne (by decide)]
      · refine ⟨e'.negated, hreads.sign .sub rfl, ?_⟩
        rw [List.count_cons_self, List.replicate_succ, List.flatten_cons, List.append_assoc,
          ← hsequence]
        rfl

end Reads

/-! ## §3. Composed texts. -/

/-- Signs are no blanks. -/
theorem solid_signs {cs : List Char} (h : Solid cs) (w : List Char) :
    (∀ a ∈ w, a = '+' ∨ a = '-') → Solid (w ++ cs) := by
  intro hw
  cases w with
  | nil => exact h
  | cons a w =>
      have hblank : Text.isBlank a = false := by
        rcases hw a List.mem_cons_self with rfl | rfl <;> rfl
      exact (Solid.singleton hblank).append h w

/-- **COMPILING IS COMPOSITIONAL.**  Of two texts that compile, whatever stands
in them: each of the texts made of them by parentheses, an operator, no operator
at all, a function or any row of signs compiles to its own sequence around
theirs, or is refused as nesting too deep, just when it is too high. -/
theorem compile_compositional {s t : String} {c c' : Compiled} (hs : compile s = .ok c)
    (ht : compile t = .ok c') :
    ∃ m n, HasHeight s m ∧ HasHeight t n ∧ m ≤ maxNesting ∧ n ≤ maxNesting ∧
      CompilesTo ("(" ++ s ++ ")") c.sequence (m + 1) ∧
      (∀ op : Operator, CompilesTo ("(" ++ s ++ ")" ++ op.text ++ "(" ++ t ++ ")")
        (op.text :: (c.sequence ++ c'.sequence)) (max m n + 2)) ∧
      CompilesTo ("(" ++ s ++ ")(" ++ t ++ ")") ("*" :: (c.sequence ++ c'.sequence))
        (max m n + 2) ∧
      (∀ f : Func, CompilesTo (f.name ++ "(" ++ s ++ ")") (f.name :: c.sequence) (m + 1)) ∧
      (∀ w : String, (∀ a ∈ w.toList, a = '+' ∨ a = '-') →
        CompilesTo (w ++ "(" ++ s ++ ")")
          ((List.replicate (w.toList.count '-') ["-", "0"]).flatten ++ c.sequence)
          (m + 1 + w.length)) := by
  obtain ⟨e, m, hreads, hm, hsequence⟩ := reads_of_compile hs
  obtain ⟨e', n, hreads', hn, hsequence'⟩ := reads_of_compile ht
  refine ⟨m, n, ⟨e, hreads⟩, ⟨e', hreads'⟩, hm, hn, ?group, ?join, ?beside, ?call, ?signs⟩
  all_goals rw [hsequence]
  case group =>
    exact (hreads.group.widen (by decide)).compilesTo (by simp) (solid_pair s.toList)
  case join =>
    intro op
    have hjoin := Reads.join op (hreads.group.widen (by cases op <;> decide))
      (hreads'.group.widen (by cases op <;> decide))
    rw [Nat.add_max_add_right] at hjoin
    rw [hsequence']
    exact (hjoin.widen (by cases op <;> decide)).compilesTo (by simp [Operator.text])
      ((solid_pair s.toList).append (solid_pair t.toList) [op.symbol])
  case beside =>
    rw [hsequence']
    exact ((hreads.beside hreads').widen (by decide)).compilesTo (by simp)
      ((solid_pair s.toList).append (solid_pair t.toList) [])
  case call =>
    intro f
    exact ((hreads.call f).widen (by decide)).compilesTo (by simp)
      ((solid_name (isName_name f)).append (solid_pair s.toList) [])
  case signs =>
    intro w hw
    obtain ⟨signed, hsigned, hwhole⟩ := (hreads.group.widen (by decide)).signs w.toList hw
    rw [← hwhole, ← String.length_toList]
    exact (hsigned.widen (by decide)).compilesTo (by simp)
      (solid_signs (solid_pair s.toList) w.toList hw)

/-- Three signs before `2x`, and `2x` beside `-y`. -/
theorem compile_signs_two_x :
    (∃ c, compile "-+-(2x)" = .ok c ∧ c.sequence = ["-", "0", "-", "0", "*", "2", "x"]) ∧
    ∃ n, CompilesTo "(2x)(-y)" ["*", "*", "2", "x", "-", "0", "y"] (max 1 n + 2) := by
  have hs : compile "2x" = .ok ⟨["*", "2", "x"], ⟨"2*x", "2 * x", "* 2 x", Trace.stages⟩⟩ := by
    cbv
  have ht : compile "-y" = .ok ⟨["-", "0", "y"], ⟨"-y", "- y", "- 0 y", Trace.stages⟩⟩ := by
    cbv
  have htokens : Token.ofText "2x" = .ok [.terminal "2", .terminal "x"] := by cbv
  have hheight : HasHeight "2x" 1 := by
    have htwo : Derives .product [.terminal "2"] (.leaf "2") 0 :=
      (Derives.terminal rfl).widen (by decide)
    have hx : Derives .signed [.terminal "x"] (.leaf "x") 0 :=
      (Derives.terminal rfl).widen (by decide)
    exact ⟨_, _, (Token.ofText_eq_ok_iff.1 htokens).1, (htwo.join .mul hx).toSum⟩
  obtain ⟨m, n, hm, -, -, -, -, -, hbeside, -, hsigns⟩ := compile_compositional hs ht
  obtain rfl := hheight.unique (by unfold maxNesting; omega) hm
  have hsigned := (hsigns "-+-" (by simp)).ok (by simp [maxNesting, String.length])
  exact ⟨hsigned, n, hbeside⟩

end FormulaDesk
