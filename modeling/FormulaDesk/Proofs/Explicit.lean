/-
  FormulaDesk.Proofs.Explicit
  ──────────────────────────────────────
  **TEXTS WITH EVERY PRODUCT WRITTEN.**

  A text whose products are all written is left as it is, and writing them
  once makes every text such a text.  The second reading meets other places
  and one more operator for each star, but the same lexemes, and as many open
  parentheses before each of them; so the depth at which the text is left as
  it stands is met at the same parentheses, in texts of any form.

    • `Piece.withProducts_eq_self_iff` — pieces stay as they are exactly when
      no star is due among them;
    • `Piece.explicit_withProducts` — behind the first pass none is due;
    • `explicitProducts_eq_self_iff` — the same for texts.
-/
import FormulaDesk.Proofs.Products

namespace FormulaDesk

namespace Piece

/-- No star is written before any of the pieces. -/
def Explicit (opened : Nat) (before : Before) : List Piece → Prop
  | [] => True
  | p :: ps =>
    starred opened before p = false ∧
      Explicit (p.openedAfter opened) (p.leaves opened before) ps

/-- A star that is due makes the pieces more. -/
theorem length_withProducts_cons (opened : Nat) (before : Before) (p : Piece)
    (ps : List Piece) :
    (starred opened before p).toNat + (p :: ps).length ≤
      (withProducts opened before (p :: ps)).length := by
  have hsub := (sublist_withProducts ps (p.openedAfter opened) (p.leaves opened before)).length_le
  rw [withProducts_cons, List.length_append, List.length_replicate, List.length_cons,
    List.length_cons]
  omega

/-- **Pieces stay as they are exactly when no star is due among them.** -/
theorem withProducts_eq_self_iff (ps : List Piece) :
    ∀ (opened : Nat) (before : Before),
      withProducts opened before ps = ps ↔ Explicit opened before ps := by
  induction ps with
  | nil => intro opened before; exact ⟨fun _ => trivial, fun _ => rfl⟩
  | cons p ps ih =>
      intro opened before
      have hlength := length_withProducts_cons opened before p ps
      rw [Explicit, ← ih, withProducts_cons]
      rw [withProducts_cons] at hlength
      cases hstar : starred opened before p with
      | false => simp
      | true =>
          -- One star alone makes the list longer than it was.
          rw [hstar] at hlength
          constructor
          · intro heq
            rw [heq, Bool.toNat_true] at hlength
            omega
          · intro h
            exact nomatch h.1

/-- Behind an operator no star is due. -/
theorem starred_nothing (opened : Nat) (p : Piece) : starred opened .nothing p = false := by
  cases p <;> simp [starred, starDue]

/-- A piece that a star precedes hides what came before the star. -/
theorem leaves_of_starred {opened : Nat} {before : Before} {p : Piece}
    (h : starred opened before p = true) (before' : Before) :
    p.leaves opened before' = p.leaves opened before := by
  cases p with
  | blank c => simp [starred, starDue] at h
  | opening => rfl
  | closing => rfl
  | lexeme l => rfl
  | stray c => rfl

/-- **Behind the first pass no star is due.** -/
theorem explicit_withProducts (ps : List Piece) :
    ∀ (opened : Nat) (before : Before),
      Explicit opened before (withProducts opened before ps) := by
  induction ps with
  | nil => intro opened before; trivial
  | cons p ps ih =>
      intro opened before
      have hrest := ih (p.openedAfter opened) (p.leaves opened before)
      rw [withProducts_cons]
      cases hstar : starred opened before p with
      | false => exact ⟨hstar, hrest⟩
      | true =>
          -- The star opens and closes nothing, and itself follows no star.
          have hdue : starred opened before star = false := by
            simp [starred, starDue, star, Lexeme.isOperand]
          refine ⟨hdue, starred_nothing opened p, ?_⟩
          show Explicit (p.openedAfter opened) (p.leaves opened .nothing) _
          rw [leaves_of_starred hstar]
          exact hrest

end Piece

/-- **A text stays as it is exactly when no star is due in it.** -/
theorem explicitProducts_eq_self_iff (text : String) :
    explicitProducts text = text ↔
      Piece.Explicit 0 .nothing (Piece.split text.toList) := by
  rw [← Piece.withProducts_eq_self_iff, ← Piece.split_explicitProducts]
  constructor
  · intro h
    rw [h]
  · intro h
    have htext := congrArg Piece.textOf h
    rw [Piece.textOf_split, Piece.textOf_split] at htext
    exact String.toList_inj.1 htext

/-- **WRITING THE PRODUCTS ONCE IS ENOUGH.**  Of any text at all: whatever its
parentheses, characters, numbers and blanks, and however deep it nests. -/
theorem explicitProducts_idempotent (text : String) :
    explicitProducts (explicitProducts text) = explicitProducts text := by
  rw [explicitProducts_eq_self_iff, Piece.split_explicitProducts]
  exact Piece.explicit_withProducts _ 0 .nothing

/-- A star is written at each end of a group, and then no more. -/
example : explicitProducts "k(a + b)c" = "k*(a + b)*c" ∧
    explicitProducts "k*(a + b)*c" = "k*(a + b)*c" := by
  constructor <;> cbv

end FormulaDesk
