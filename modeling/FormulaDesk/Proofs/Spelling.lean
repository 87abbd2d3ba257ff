/-
  FormulaDesk.Proofs.Spelling
  ──────────────────────────────────────
  **HOW TOKENS ARE WRITTEN.**

  Pieces spell tokens when each token is written by its own pieces, one after
  the other: an operator and a terminal by a lexeme, a group between
  parentheses, a call behind the name of its function.  Blanks stand anywhere,
  but for the place between a function and its parenthesis.

    • `Token.levelsAfter_spelled`, `Token.levelsAfter_deep` — spelled tokens
      are read as they are, unless they nest too deep;
    • `Spells.append`, `Spells.group`, `Spells.call` — how texts that spell
      tokens are put together.
-/
import FormulaDesk.Proofs.Levels
import FormulaDesk.Proofs.Parted

namespace FormulaDesk

/-! ## §1. How deep tokens nest. -/

namespace Token

mutual

/-- How many groups and calls are nested in a token. -/
def nesting : Token → Nat
  | .terminal _ => 0
  | .operator _ => 0
  | .group body => nestingAll body + 1
  | .call _ body => nestingAll body + 1

/-- The deepest nesting in a list of tokens. -/
def nestingAll : List Token → Nat
  | [] => 0
  | t :: ts => max (nesting t) (nestingAll ts)

end

theorem nestingAll_append (ts us : List Token) :
    nestingAll (ts ++ us) = max (nestingAll ts) (nestingAll us) := by
  induction ts with
  | nil => rw [List.nil_append, nestingAll, Nat.zero_max]
  | cons t ts ih => rw [List.cons_append, nestingAll, nestingAll, ih, Nat.max_assoc]

/-- More tokens in front of the innermost level. -/
def Levels.prepend (ts : List Token) (l : Levels) : Levels := { l with current := ts ++ l.current }

end Token

/-! ## §2. Spelled tokens. -/

/-- Pieces that write tokens. -/
inductive Spelled : List Piece → List Token → Prop where
  | nil : Spelled [] []
  | blank (c : Char) {ps : List Piece} {ts : List Token} (behind : Spelled ps ts) :
      Spelled (.blank c :: ps) ts
  | operator (op : Operator) {ps : List Piece} {ts : List Token} (behind : Spelled ps ts) :
      Spelled (.lexeme (.operator op) :: ps) (.operator op :: ts)
  /-- A number, or a name that calls nothing. -/
  | terminal (l : Lexeme) (operand : l.isOperand = true) (complete : l.complete = true)
      {ps : List Piece} (callee : Piece.callee? (.lexeme l) ps = none) {ts : List Token}
      (behind : Spelled ps ts) :
      Spelled (.lexeme l :: ps) (.terminal (.ofList l.text) :: ts)
  | group {body ps : List Piece} {us ts : List Token} (inside : Spelled body us)
      (behind : Spelled ps ts) :
      Spelled (.opening :: (body ++ .closing :: ps)) (.group us :: ts)
  | call (f : Func) {body ps : List Piece} {us ts : List Token} (inside : Spelled body us)
      (behind : Spelled ps ts) :
      Spelled (.lexeme (.name f.name.toList) :: .opening :: (body ++ .closing :: ps))
        (.call f us :: ts)

/-- **Spelled lists follow one another**, unless a name would call what comes
behind it. -/
theorem Spelled.append {ps : List Piece} {ts : List Token} (h : Spelled ps ts) :
    ∀ {qs : List Piece} {us : List Token}, Spelled qs us → qs.head? ≠ some .opening →
      Spelled (ps ++ qs) (ts ++ us) := by
  induction h with
  | nil => intro qs us h _; exact h
  | blank c _ ih => intro qs us h hqs; exact .blank c (ih h hqs)
  | operator op _ ih => intro qs us h hqs; exact .operator op (ih h hqs)
  | terminal l operand complete callee _ ih =>
      intro qs us h hqs
      exact .terminal l operand complete ((Piece.callee?_append hqs).trans callee) (ih h hqs)
  | group inside _ _ ih =>
      intro qs us h hqs
      have hgroup := Spelled.group inside (ih h hqs)
      simpa using hgroup
  | call f inside _ _ ih =>
      intro qs us h hqs
      have hcall := Spelled.call f inside (ih h hqs)
      simpa using hcall

namespace Token

/-! ## §3. Reading spelled tokens. -/

theorem prepend_prepend (ts us : List Token) (l : Levels) :
    (l.prepend us).prepend ts = l.prepend (ts ++ us) := by
  simp [Levels.prepend]

theorem position_cons (position : Nat) (p : Piece) (ps : List Piece) :
    position + (Piece.textOf (p :: ps)).length =
      position + p.text.length + (Piece.textOf ps).length := by
  rw [Piece.textOf_cons, List.length_append, Nat.add_assoc]

/-- A piece that only adds tokens in front. -/
theorem levelsAfter_single (p : Piece) (own : List Token) {ps rest : List Piece}
    {ts : List Token} {position : Nat} {opened : List Nat}
    (hfault : p.fault? position opened = none)
    (hopens : p.opens position opened = opened) (hcallee : p.callee? (ps ++ rest) = none)
    (hact : ∀ l, p.act none (ps ++ rest) l = l.prepend own)
    (ih : levelsAfter none (position + p.text.length) opened (ps ++ rest) =
      (levelsAfter none (position + p.text.length + (Piece.textOf ps).length) opened rest).map
        (.prepend ts)) :
    levelsAfter none position opened (p :: ps ++ rest) =
      (levelsAfter none (position + (Piece.textOf (p :: ps)).length) opened rest).map
        (.prepend (own ++ ts)) := by
  rw [List.cons_append, levelsAfter_cons, hfault, hopens, hcallee, position_cons]
  show (levelsAfter _ _ _ _).map _ = _
  rw [ih, map_map]
  simp only [hact, prepend_prepend]

/-- A pair of parentheses is one token, if what is inside it is read. -/
theorem levelsAfter_pair {body ps rest : List Piece} {us ts : List Token}
    {callee : Option Func} {whole : List Token → Token}
    (hwhole : callee.elim .group .call = whole) {position : Nat} {opened : List Nat}
    (hopened : opened.length < maxNesting)
    (hbody : levelsAfter none (position + 1) (position :: opened)
        (body ++ .closing :: (ps ++ rest)) =
      (levelsAfter none (position + 1 + (Piece.textOf body).length) (position :: opened)
        (.closing :: (ps ++ rest))).map (.prepend us))
    (ih : ∀ n, levelsAfter none n opened (ps ++ rest) =
      (levelsAfter none (n + (Piece.textOf ps).length) opened rest).map (.prepend ts)) :
    levelsAfter callee position opened (.opening :: (body ++ .closing :: ps) ++ rest) =
      (levelsAfter none
        (position + (Piece.textOf (.opening :: (body ++ .closing :: ps))).length) opened rest).map
          (.prepend (whole us :: ts)) := by
  have hplace : position + (Piece.textOf (.opening :: (body ++ .closing :: ps))).length =
      position + 1 + (Piece.textOf body).length + 1 + (Piece.textOf ps).length := by
    rw [position_cons, Piece.textOf_append, List.length_append, ← Nat.add_assoc, position_cons]
    rfl
  rw [List.cons_append, List.append_assoc, List.cons_append, levelsAfter_cons, Piece.fault?,
    if_neg (Nat.not_le.2 hopened), hplace]
  show (levelsAfter none (position + 1) (position :: opened) _).map _ = _
  rw [hbody, levelsAfter_cons]
  show (((levelsAfter none _ opened _).map Levels.close).map _).map _ = _
  rw [ih, map_map, map_map, map_map]
  refine congrArg (Except.map · _) (funext fun l => ?_)
  show ((l.prepend ts).close.prepend us).wrap (callee.elim .group .call) = _
  rw [hwhole]
  simp [Levels.prepend, Levels.close, Levels.wrap]

/-- **Spelled tokens are read as they are**, in front of what follows. -/
theorem levelsAfter_spelled {ps : List Piece} {ts : List Token} (h : Spelled ps ts) :
    ∀ (rest : List Piece) (position : Nat) (opened : List Nat),
      rest.head? ≠ some .opening → opened.length + nestingAll ts ≤ maxNesting →
      levelsAfter none position opened (ps ++ rest) =
        (levelsAfter none (position + (Piece.textOf ps).length) opened rest).map
          (.prepend ts) := by
  induction h with
  | nil =>
      intro rest position opened _ _
      show levelsAfter none position opened rest = (levelsAfter none position opened rest).map id
      cases levelsAfter none position opened rest <;> rfl
  | blank c _ ih =>
      intro rest position opened hrest hdeep
      exact levelsAfter_single (.blank c) [] rfl rfl rfl (fun _ => rfl)
        (ih rest _ opened hrest hdeep)
  | operator op _ ih =>
      intro rest position opened hrest hdeep
      rw [nestingAll, nesting, Nat.zero_max] at hdeep
      exact levelsAfter_single (.lexeme (.operator op)) [.operator op] rfl rfl rfl
        (fun _ => rfl) (ih rest _ opened hrest hdeep)
  | terminal l operand complete callee _ ih =>
      intro rest position opened hrest hdeep
      rw [nestingAll, nesting, Nat.zero_max] at hdeep
      have hcallee := (Piece.callee?_append hrest).trans callee
      refine levelsAfter_single (.lexeme l) [.terminal (.ofList l.text)]
        (by rw [Piece.fault?, if_pos complete]) rfl hcallee ?_ (ih rest _ opened hrest hdeep)
      intro levels
      cases l with
      | operator op => cases operand
      | number whole fraction => rfl
      | name letters => simp [Piece.act, hcallee, Levels.push, Levels.prepend]
  | group inside _ ihbody ih =>
      intro rest position opened hrest hdeep
      rw [nestingAll, nesting] at hdeep
      exact levelsAfter_pair rfl (by omega)
        (ihbody _ _ _ (by simp) (by rw [List.length_cons]; omega))
        (fun n => ih rest n opened hrest (by omega))
  | call f inside _ ihbody ih =>
      intro rest position opened hrest hdeep
      rw [nestingAll, nesting] at hdeep
      -- The name adds nothing, and the pair behind it is read as its call.
      have hcallee : ∀ qs, Piece.callee? (.lexeme (.name f.name.toList)) (.opening :: qs) =
          some f := by
        intro qs
        rw [Piece.callee?, String.ofList_toList, Func.ofName?_name]
      rw [List.cons_append, levelsAfter_cons, position_cons]
      show (levelsAfter (Piece.callee? _ (.opening :: _)) _ opened _).map _ = _
      rw [hcallee, levelsAfter_pair rfl (by omega)
        (ihbody _ _ _ (by simp) (by rw [List.length_cons]; omega))
        (fun n => ih rest n opened hrest (by omega)), map_map]
      simp [Piece.act, hcallee]

/-! ## §4. Tokens that nest too deep. -/

/-- Somewhere too many parentheses are open. -/
def TooDeep (result : Except TextFault Levels) : Prop :=
  ∃ position, result = .error (.nestingTooDeep position)

theorem TooDeep.map {result : Except TextFault Levels} (h : TooDeep result)
    (f : Levels → Levels) : TooDeep (result.map f) := by
  obtain ⟨position, rfl⟩ := h
  exact ⟨position, rfl⟩

/-- What is too deep behind a piece is too deep before it. -/
theorem TooDeep.cons (p : Piece) (callee : Option Func) {ps : List Piece} {position : Nat}
    {opened : List Nat} (hfault : p.fault? position opened = none)
    (h : TooDeep (levelsAfter (p.callee? ps) (position + p.text.length)
      (p.opens position opened) ps)) :
    TooDeep (levelsAfter callee position opened (p :: ps)) := by
  rw [levelsAfter_cons, hfault]
  exact h.map _

/-- A pair of parentheses is too deep, or something in it, or something
behind it. -/
theorem tooDeep_pair {body ps rest : List Piece} {us ts : List Token} (inside : Spelled body us)
    {position : Nat} {opened : List Nat} (callee : Option Func)
    (hdeep : maxNesting < opened.length + max (nestingAll us + 1) (nestingAll ts))
    (ihbody : maxNesting < opened.length + 1 + nestingAll us → opened.length + 1 ≤ maxNesting →
      TooDeep (levelsAfter none (position + 1) (position :: opened)
        (body ++ .closing :: (ps ++ rest))))
    (ih : maxNesting < opened.length + nestingAll ts →
      ∀ n, TooDeep (levelsAfter none n opened (ps ++ rest))) :
    TooDeep (levelsAfter callee position opened
      (.opening :: (body ++ .closing :: ps) ++ rest)) := by
  rw [List.cons_append, List.append_assoc, List.cons_append]
  -- The leftmost reason counts: the parenthesis itself, then its body, then what follows.
  by_cases hfull : maxNesting ≤ opened.length
  · rw [levelsAfter_cons, Piece.fault?, if_pos hfull]
    exact ⟨position, rfl⟩
  · refine TooDeep.cons .opening callee (by rw [Piece.fault?, if_neg hfull]) ?_
    show TooDeep (levelsAfter none (position + 1) (position :: opened) _)
    by_cases hbody : maxNesting < opened.length + 1 + nestingAll us
    · exact ihbody hbody (by omega)
    · rw [levelsAfter_spelled inside _ _ _ (by simp) (by rw [List.length_cons]; omega)]
      refine TooDeep.map (TooDeep.cons .closing none rfl ?_) _
      exact ih (by omega) _

/-- **Spelled tokens that nest too deep are refused as such**, and for nothing
else. -/
theorem levelsAfter_deep {ps : List Piece} {ts : List Token} (h : Spelled ps ts) :
    ∀ (rest : List Piece) (position : Nat) (opened : List Nat),
      rest.head? ≠ some .opening → opened.length ≤ maxNesting →
      maxNesting < opened.length + nestingAll ts →
      TooDeep (levelsAfter none position opened (ps ++ rest)) := by
  induction h with
  | nil =>
      intro rest position opened _ hopened hdeep
      rw [nestingAll] at hdeep
      omega
  | blank c _ ih =>
      intro rest position opened hrest hopened hdeep
      exact TooDeep.cons (.blank c) none rfl (ih rest _ opened hrest hopened hdeep)
  | operator op _ ih =>
      intro rest position opened hrest hopened hdeep
      rw [nestingAll, nesting, Nat.zero_max] at hdeep
      exact TooDeep.cons (.lexeme (.operator op)) none rfl
        (ih rest _ opened hrest hopened hdeep)
  | terminal l operand complete callee _ ih =>
      intro rest position opened hrest hopened hdeep
      rw [nestingAll, nesting, Nat.zero_max] at hdeep
      have hnone := (Piece.callee?_append hrest).trans callee
      refine TooDeep.cons (.lexeme l) none (by rw [Piece.fault?, if_pos complete]) ?_
      show TooDeep (levelsAfter (Piece.callee? (.lexeme l) (_ ++ rest)) _ opened (_ ++ rest))
      rw [hnone]
      exact ih rest _ opened hrest hopened hdeep
  | group inside _ ihbody ih =>
      intro rest position opened hrest hopened hdeep
      rw [nestingAll, nesting] at hdeep
      exact tooDeep_pair inside none hdeep
        (fun hbody hle => ihbody _ _ _ (by simp) hle hbody)
        (fun hbehind n => ih rest n opened hrest hopened hbehind)
  | call f inside _ ihbody ih =>
      intro rest position opened hrest hopened hdeep
      rw [nestingAll, nesting] at hdeep
      exact TooDeep.cons (.lexeme (.name f.name.toList)) none rfl
        (tooDeep_pair inside _ hdeep
          (fun hbody hle => ihbody _ _ _ (by simp) hle hbody)
          (fun hbehind n => ih rest n opened hrest hopened hbehind))

end Token

/-! ## §5. Texts that spell tokens. -/

/-- A text that writes tokens. -/
def Spells (cs : List Char) (ts : List Token) : Prop := Spelled (Piece.split cs) ts

namespace Piece

theorem split_opening (cs : List Char) : split ('(' :: cs) = .opening :: split cs := by
  rw [split, if_neg (by decide), if_pos rfl]

theorem split_closing (cs : List Char) : split (')' :: cs) = .closing :: split cs := by
  rw [split, if_neg (by decide), if_neg (by decide), if_pos rfl]

/-- A lexeme falls off the text that does not go on with it. -/
theorem split_lexeme {l : Lexeme} (hl : l.Sound) {cs : List Char} (hcs : l.EndsAt cs) :
    split (l.text ++ cs) = .lexeme l :: split cs := by
  have hparted : Parted (.lexeme l :: split cs) :=
    ⟨hl, by rw [textOf_split]; exact hcs, parted_split cs⟩
  rw [← split_textOf hparted, textOf_cons, textOf_split]
  rfl

theorem head?_split {cs : List Char} (h : cs.head? ≠ some '(') :
    (split cs).head? ≠ some .opening := by
  intro hsplit
  obtain ⟨ps, hps⟩ := List.head?_eq_some_iff.1 hsplit
  rw [← textOf_split cs, hps] at h
  exact h rfl

end Piece

theorem isName_name (f : Func) : isName f.name.toList = true := by
  cases f <;> decide

/-- A function's name has letters only. -/
theorem isNameStart_of_mem_name (f : Func) : ∀ c ∈ f.name.toList, isNameStart c = true := by
  rw [← List.all_eq_true]
  cases f <;> rfl

theorem name_ne_nil (f : Func) : f.name.toList ≠ [] := by
  intro h
  have hname := isName_name f
  rw [h] at hname
  exact nomatch hname

namespace Spells

theorem nil : Spells [] [] := by
  rw [Spells, Piece.split]
  exact .nil

theorem space {cs : List Char} {ts : List Token} (h : Spells cs ts) : Spells (' ' :: cs) ts := by
  rw [Spells, Piece.split, if_pos (by decide)]
  exact .blank ' ' h

theorem operator (op : Operator) {cs : List Char} {ts : List Token} (h : Spells cs ts) :
    Spells (op.symbol :: cs) (.operator op :: ts) := by
  have hsplit : Piece.split (op.symbol :: cs) = .lexeme (.operator op) :: Piece.split cs :=
    Piece.split_lexeme (l := .operator op) trivial (fun _ _ => rfl)
  rw [Spells, hsplit]
  exact .operator op h

/-- A lexeme alone is a terminal. -/
theorem terminal {l : Lexeme} (hsound : l.Sound) (hoperand : l.isOperand = true)
    (hcomplete : l.complete = true) : Spells l.text [.terminal (.ofList l.text)] := by
  have hsplit := Piece.split_lexeme hsound l.endsAt_nil
  rw [List.append_nil, Piece.split] at hsplit
  rw [Spells, hsplit]
  refine .terminal l hoperand hcomplete ?_ .nil
  cases l <;> rfl

/-- **Texts that spell tokens follow one another**, where the second neither
goes on with a lexeme of the first nor begins with a parenthesis. -/
theorem append {cs ds : List Char} {ts us : List Token} (h : Spells cs ts) (h' : Spells ds us)
    (hfresh : Piece.Fresh ds) (hhead : ds.head? ≠ some '(') : Spells (cs ++ ds) (ts ++ us) := by
  rw [Spells, Piece.split_append cs hfresh]
  exact Spelled.append h h' (Piece.head?_split hhead)

/-- The pieces of a text between parentheses. -/
theorem split_pair (cs ds : List Char) :
    Piece.split ('(' :: (cs ++ ')' :: ds)) =
      .opening :: (Piece.split cs ++ .closing :: Piece.split ds) := by
  have hfresh : Piece.Fresh (')' :: ds) := Piece.fresh_cons (by decide) (by decide) ds
  rw [Piece.split_opening, Piece.split_append cs hfresh, Piece.split_closing]

theorem group {cs ds : List Char} {ts us : List Token} (inside : Spells cs ts)
    (behind : Spells ds us) : Spells ('(' :: (cs ++ ')' :: ds)) (.group ts :: us) := by
  rw [Spells, split_pair]
  exact .group inside behind

theorem call (f : Func) {cs ds : List Char} {ts us : List Token} (inside : Spells cs ts)
    (behind : Spells ds us) :
    Spells (f.name.toList ++ '(' :: (cs ++ ')' :: ds)) (.call f ts :: us) := by
  have hend : (Lexeme.name f.name.toList).EndsAt ('(' :: (cs ++ ')' :: ds)) :=
    Lexeme.endsAt_cons rfl
  -- The name ends at its parenthesis, so it is one lexeme.
  have hsplit := Piece.split_lexeme (l := .name f.name.toList) (isName_name f) hend
  rw [split_pair] at hsplit
  rw [Spells, show f.name.toList ++ _ = (Lexeme.name f.name.toList).text ++ _ from rfl, hsplit]
  exact .call f inside behind

end Spells

/-- **The tokens of a text that spells them.** -/
theorem Token.ofText_spells {text : String} {ts : List Token} (h : Spells text.toList ts) :
    (nestingAll ts ≤ maxNesting → ofText text = .ok ts) ∧
      (maxNesting < nestingAll ts →
        ∃ position, ofText text = .error (.nestingTooDeep position)) := by
  have hrest : ([] : List Piece).head? ≠ some .opening := by simp
  rw [ofText, ← levelsAfter_none, ← List.append_nil (Piece.split text.toList)]
  constructor
  · intro hle
    rw [levelsAfter_spelled h [] 0 [] hrest (by rw [List.length_nil]; omega), levelsAfter_nil]
    simp [Except.map, Levels.prepend]
  · intro hdeep
    obtain ⟨position, hposition⟩ :=
      levelsAfter_deep h [] 0 [] hrest (Nat.zero_le _) (by rw [List.length_nil]; omega)
    exact ⟨position, by rw [hposition]; rfl⟩

end FormulaDesk
