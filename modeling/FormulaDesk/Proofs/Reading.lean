/-
  FormulaDesk.Proofs.Reading
  ──────────────────────────────────────
  **WHAT IS READ IS SPELLED.**

  Whatever pieces the reader of tokens takes, they spell the tokens that it
  gives: nothing is left out but blanks, and nothing is added.  Where some
  parentheses are open, the pieces spell the rest of the innermost list, and
  behind every parenthesis that closes one the rest of the list around it.

    • `Token.spelled_of_levels` — the pieces of all open levels;
    • `Token.ofText_eq_ok_iff` — a text has the tokens that it spells, and no
      others, as long as they do not nest too deep.
-/
import FormulaDesk.Proofs.Spelling

namespace FormulaDesk

/-! ## §1. The pieces of all open levels. -/

/-- Pieces that close the open parentheses one by one, each with the rest of
the list around it behind it. -/
inductive Closes : List Piece → List (List Token) → Prop where
  | nil : Closes [] []
  | cons {ps qs : List Piece} {ts : List Token} {around : List (List Token)}
      (inside : Spelled ps ts) (behind : Closes qs around) :
      Closes (.closing :: (ps ++ qs)) (ts :: around)

/-- No parenthesis opens where one closes. -/
theorem Closes.head?_ne {ps : List Piece} {around : List (List Token)} (h : Closes ps around) :
    ps.head? ≠ some .opening := by
  cases h with
  | nil => simp
  | cons inside behind => simp

/-- Pieces that write the rests of all lists that are open within `opened`
parentheses. -/
def SpelledLevels (opened : Nat) (ps : List Piece) (l : Token.Levels) : Prop :=
  l.around.length = opened ∧
    ∃ own rest, ps = own ++ rest ∧ Spelled own l.current ∧ Closes rest l.around

namespace SpelledLevels

variable {opened : Nat} {ps : List Piece} {l : Token.Levels}

/-- A piece that writes tokens of the innermost list. -/
theorem step {p : Piece} (own : List Token) (h : SpelledLevels opened ps l)
    (hspelled : ∀ qs rest, ps = qs ++ rest → rest.head? ≠ some .opening →
      Spelled qs l.current → Spelled (p :: qs) (own ++ l.current)) :
    SpelledLevels opened (p :: ps) (l.prepend own) := by
  obtain ⟨hlength, qs, rest, rfl, hqs, hrest⟩ := h
  exact ⟨hlength, p :: qs, rest, rfl, hspelled qs rest rfl hrest.head?_ne hqs, hrest⟩

/-- A closing parenthesis: one more list is open before it, and ends there. -/
theorem close (h : SpelledLevels opened ps l) :
    SpelledLevels (opened + 1) (.closing :: ps) l.close := by
  obtain ⟨hlength, qs, rest, rfl, hqs, hrest⟩ := h
  exact ⟨congrArg (· + 1) hlength, [], .closing :: (qs ++ rest), rfl, .nil, .cons hqs hrest⟩

/-- An opening parenthesis, perhaps behind the name that calls it: the
innermost list is whole, and becomes one token of the list around it. -/
theorem wrap {whole : List Token → Token} (h : SpelledLevels (opened + 1) ps l)
    (front : List Piece)
    (hspelled : ∀ {body qs : List Piece} {us ts : List Token}, Spelled body us →
      Spelled qs ts → Spelled (front ++ .opening :: (body ++ .closing :: qs)) (whole us :: ts)) :
    SpelledLevels opened (front ++ .opening :: ps) (l.wrap whole) := by
  obtain ⟨current, around⟩ := l
  obtain ⟨hlength, body, rest, rfl, hbody, hrest⟩ := h
  cases hrest with
  | nil => exact nomatch hlength
  | @cons qs behind ts around hqs hbehind =>
      refine ⟨Nat.succ.inj hlength, front ++ .opening :: (body ++ .closing :: qs), behind, ?_,
        hspelled hbody hqs, hbehind⟩
      simp

end SpelledLevels

namespace Token

/-- **The pieces that are read spell all levels** that are open where they
begin. -/
theorem spelled_of_levels (position : Nat) (opened : List Nat) (ps : List Piece) :
    ∀ l : Levels, levels position opened ps = .ok l → SpelledLevels opened.length ps l := by
  fun_induction levels position opened ps with
  | case1 position =>
      intro l h
      obtain rfl := Except.ok.inj h
      exact ⟨rfl, [], [], rfl, .nil, .nil⟩
  | case3 position opened c ps ih =>
      intro l h
      exact (ih l h).step [] fun qs _ _ _ hqs => .blank c hqs
  | case6 position ps place outer ih =>
      intro l h
      obtain ⟨l', hl', rfl⟩ := map_eq_ok_iff.1 h
      exact (ih l' hl').close
  | case8 position opened ps hdeep ih =>
      intro l h
      obtain ⟨l', hl', rfl⟩ := map_eq_ok_iff.1 h
      exact (ih l' hl').wrap [] .group
  | case9 position opened op ps ih =>
      intro l h
      obtain ⟨l', hl', rfl⟩ := map_eq_ok_iff.1 h
      exact (ih l' hl').step [.operator op] fun qs _ _ _ hqs => .operator op hqs
  | case10 position opened whole fraction ps lex text hcomplete ih =>
      intro l h
      obtain ⟨l', hl', rfl⟩ := map_eq_ok_iff.1 h
      exact (ih l' hl').step [.terminal text] fun qs _ _ _ hqs =>
        .terminal lex rfl hcomplete rfl hqs
  | case13 position opened letters name next f body hf hdeep ih =>
      intro l h
      obtain ⟨l', hl', rfl⟩ := map_eq_ok_iff.1 h
      have hletters : letters = f.name.toList := by
        rw [← Func.ofName?_eq_some.1 hf, String.toList_ofList]
      rw [hletters]
      exact (ih l' hl').wrap [.lexeme (.name f.name.toList)] (.call f)
  | case14 position opened letters name next ps hcall ih =>
      intro l h
      obtain ⟨l', hl', rfl⟩ := map_eq_ok_iff.1 h
      -- The name calls nothing in all that follows, so nothing in its own list.
      have hcallee : Piece.callee? (.lexeme (.name letters)) ps = none := by
        cases hc : Piece.callee? (.lexeme (.name letters)) ps with
        | none => rfl
        | some f =>
            obtain ⟨body, rfl⟩ := List.head?_eq_some_iff.1 (Piece.head?_of_callee? hc)
            exact absurd rfl (hcall f body hc)
      refine (ih l' hl').step [.terminal name] fun qs rest hps hrest hqs => ?_
      rw [hps, Piece.callee?_append hrest] at hcallee
      exact .terminal (.name letters) rfl rfl hcallee hqs
  -- All other cases are faults.
  | _ => intro l h; exact nomatch h

/-! ## §2. The tokens of a text. -/

/-- **A text has the tokens that it spells**, unless they nest too deep, and
it has no others. -/
theorem ofText_eq_ok_iff {text : String} {ts : List Token} :
    ofText text = .ok ts ↔ Spells text.toList ts ∧ nestingAll ts ≤ maxNesting := by
  constructor
  · intro h
    obtain ⟨l, hl, rfl⟩ := map_eq_ok_iff.1 h
    obtain ⟨hlength, own, rest, hsplit, hown, hrest⟩ := spelled_of_levels _ _ _ l hl
    -- No parenthesis is open at the head of a text, so the pieces all spell one list.
    have hspells : Spells text.toList l.current := by
      rw [List.length_eq_zero_iff.1 hlength] at hrest
      cases hrest
      rw [Spells, hsplit, List.append_nil]
      exact hown
    refine ⟨hspells, ?_⟩
    by_contra hdeep
    obtain ⟨position, hfault⟩ := (ofText_spells hspells).2 (Nat.lt_of_not_le hdeep)
    cases h.symm.trans hfault
  · intro h
    exact (ofText_spells h.1).1 h.2

end Token

end FormulaDesk
