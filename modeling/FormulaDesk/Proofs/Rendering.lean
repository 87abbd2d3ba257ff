/-
  FormulaDesk.Proofs.Rendering
  ──────────────────────────────────────
  **TOKENS WRITTEN AND READ AGAIN.**

  Tokens are shown with a space between any two and on both sides of every
  parenthesis, but for the one that a function touches.  One space is enough
  to keep lexemes apart, and none is enough to make a call; so what is shown
  is read as the same tokens, unless they nest deeper than any text may.

    • `Spells.renderAll` — the writing spells its tokens;
    • `Token.ofText_toText` — writing is undone by reading, for just the tokens
      that some text has.
-/
import FormulaDesk.Proofs.Reading
import FormulaDesk.Proofs.Terminals

namespace FormulaDesk

/-! ## §1. The writing spells its tokens. -/

namespace Spells

/-- Spaces inside a pair of parentheses add no token. -/
theorem spaced {cs : List Char} {ts : List Token} (h : Spells cs ts) :
    Spells (' ' :: (cs ++ [' '])) ts := by
  have hbehind := h.append nil.space (Piece.fresh_blank (by decide) []) (by simp)
  rw [List.append_nil] at hbehind
  exact hbehind.space

mutual

theorem render (t : Token) :
    (∀ text ∈ t.terminals, IsOperand text) → Spells t.render [t] := by
  intro h
  cases t with
  | terminal text =>
      obtain ⟨l, hsound, hcomplete, hoperand, rfl⟩ := h text (List.mem_singleton_self text)
      rw [Token.render, String.toList_ofList]
      exact Spells.terminal hsound hoperand hcomplete
  | operator op => exact Spells.nil.operator op
  | group body =>
      have hbody := renderAll body h
      have hgroup := Spells.group hbody.spaced nil
      simpa [Token.render] using hgroup
  | call f body =>
      have hbody := renderAll body h
      have hcall := Spells.call f hbody.spaced nil
      simpa [Token.render] using hcall

/-- **The writing of tokens spells them.** -/
theorem renderAll (ts : List Token) :
    (∀ text ∈ Token.terminalsAll ts, IsOperand text) → Spells (Token.renderAll ts) ts := by
  intro h
  match ts with
  | [] => exact nil
  | [t] =>
      rw [Token.terminalsAll_singleton] at h
      exact render t h
  | t :: u :: ts =>
      rw [Token.terminalsAll, List.forall_mem_append] at h
      rw [Token.renderAll]
      exact (render t h.1).append (renderAll (u :: ts) h.2).space
        (Piece.fresh_blank (by decide) _) (by simp)

end

end Spells

namespace Token

/-! ## §2. Reading the writing. -/

/-- Tokens as a text has them: every terminal is a whole number or a name, of a
function or any other, and groups and calls do not nest too deep. -/
structure Readable (ts : List Token) : Prop where
  operand : ∀ text ∈ terminalsAll ts, IsOperand text
  nesting : nestingAll ts ≤ maxNesting

theorem Readable.ofText_eq_ok {ts : List Token} (h : Readable ts) :
    ofText (toText ts) = .ok ts := by
  rw [ofText_eq_ok_iff, toText, String.toList_ofList]
  exact ⟨Spells.renderAll ts h.operand, h.nesting⟩

theorem readable_of_ofText {text : String} {ts : List Token} (h : ofText text = .ok ts) :
    Readable ts :=
  ⟨operand_of_ofText h, (ofText_eq_ok_iff.1 h).2⟩

/-- **WRITING TOKENS IS UNDONE BY READING THEM.**  Tokens whose terminals are
whole numbers and names, and which do not nest too deep, are read from their
writing; the tokens of every text are such tokens; so two texts whose tokens are
written alike have the same tokens. -/
theorem ofText_toText :
    (∀ ts : List Token, Readable ts → ofText (toText ts) = .ok ts) ∧
    (∀ (text : String) (ts : List Token), ofText text = .ok ts → Readable ts) ∧
    (∀ (text text' : String) (ts ts' : List Token), ofText text = .ok ts →
      ofText text' = .ok ts' → toText ts = toText ts' → ts = ts') := by
  refine ⟨fun ts h => h.ofText_eq_ok, fun text ts h => readable_of_ofText h, ?_⟩
  intro text text' ts ts' h h' heq
  have hread := (readable_of_ofText h).ofText_eq_ok
  rw [heq, (readable_of_ofText h').ofText_eq_ok] at hread
  exact (Except.ok.inj hread).symm

/-- The name of a function before an empty group, and its call with an empty
argument. -/
theorem ofText_toText_sin :
    Readable [.terminal "sin", .group [], .call .sin []] ∧
    ofText "sin (  ) sin(  )" = .ok [.terminal "sin", .group [], .call .sin []] := by
  have hreadable : Readable [.terminal "sin", .group [], .call .sin []] := by
    have hsin : IsOperand "sin" := ⟨.name ['s', 'i', 'n'], rfl, rfl, rfl, rfl⟩
    refine ⟨?_, by simp [nestingAll, nesting, maxNesting]⟩
    simpa [terminalsAll, terminals] using hsin
  have htext : toText [.terminal "sin", .group [], .call .sin []] = "sin (  ) sin(  )" := rfl
  have hread := ofText_toText.1 _ hreadable
  rw [htext] at hread
  exact ⟨hreadable, hread⟩

end Token

end FormulaDesk
