/-
  FormulaDesk.Proofs.Segments
  ──────────────────────────────────────
  **PRODUCTS, SEGMENT BY SEGMENT.**

  A second way to write the products of a text: where a parenthesis opens, look
  ahead for the one that closes it, write the products of what stands between
  the two as of a text of its own, and go on behind.  Where nothing closes the
  parenthesis, what stands between is all the rest.  Segments inside more than
  `maxNesting` parentheses are left as they stand.

    • `Piece.withProducts_append` — products of pieces that follow one another;
    • `segment_eq` — a segment has the products that the pass over its pieces
      writes;
    • `explicitProducts_eq_segment` — both ways come to the same text.
-/
import FormulaDesk.Proofs.Closing
import FormulaDesk.Proofs.Spelling

namespace FormulaDesk

open FormulaDesk.Text (isBlank)

/-! ## §1. Segments. -/

/-- The star before an operand, where one is due. -/
def starIf (due : Bool) : List Char := if due then ['*'] else []

/-- **The products of a segment** inside `depth` parentheses; `before` is what
the characters in front of it leave there. -/
def segment (depth : Nat) (before : Before) : List Char → List Char
  | [] => []
  | c :: cs =>
    if maxNesting < depth then c :: cs
    else if isBlank c then c :: segment depth before.afterBlank cs
    else if c = '(' then
      match closing? (c :: cs) 0 with
      | some j =>
        starIf (before == .value) ++ '(' :: (segment (depth + 1) .nothing (cs.take (j - 1)) ++
          ')' :: segment depth .value (cs.drop j))
      | none => starIf (before == .value) ++ '(' :: segment (depth + 1) .nothing cs
    else if c = ')' then ')' :: segment depth .nothing cs
    else
      match Lexeme.longest? (c :: cs) with
      | some l =>
        starIf (l.isOperand && before != .nothing) ++
          (l.text ++ segment depth (.ofLexeme l) (cs.drop (l.text.length - 1)))
      | none => c :: segment depth .nothing cs
termination_by cs => cs.length

/-! ## §2. Products of pieces. -/

namespace Piece

/-- **Products of pieces that follow one another.** -/
theorem withProducts_append (ps qs : List Piece) :
    ∀ (opened : Nat) (before : Before), withProducts opened before (ps ++ qs) =
      withProducts opened before ps ++
        withProducts (openAfter opened ps) (leftBy opened before ps) qs := by
  induction ps with
  | nil => intro opened before; rfl
  | cons p ps ih =>
      intro opened before
      rw [List.cons_append, withProducts_cons, withProducts_cons, ih, List.append_assoc,
        List.cons_append]
      rfl

/-- Where too many parentheses are open and stay so, nothing is written. -/
theorem withProducts_of_within {ps : List Piece} :
    ∀ {n opened : Nat} (before : Before), Within n ps → maxNesting + n < opened →
      withProducts opened before ps = ps := by
  induction ps with
  | nil => intro n opened before _ _; rfl
  | cons p ps ih =>
      intro n opened before h hdeep
      obtain ⟨hp, hps⟩ := h
      have hafter : maxNesting + p.openedAfter n < p.openedAfter opened := by
        cases p with
        | opening => exact Nat.succ_lt_succ hdeep
        | closing =>
            have hpos := hp rfl
            show maxNesting + (n - 1) < opened - 1
            omega
        | blank c => exact hdeep
        | lexeme l => exact hdeep
        | stray c => exact hdeep
      have hstar : starred opened before p = false := by
        rw [starred, decide_eq_false (by omega), Bool.false_and]
      rw [withProducts_cons, hstar, ih _ hps hafter]
      rfl

/-- What stays open stays so behind a piece that opens nothing. -/
theorem StaysOpen.tail {p : Piece} {ps : List Piece} (h : StaysOpen (p :: ps))
    (ho : p ≠ .opening) : p ≠ .closing ∧ StaysOpen ps := by
  obtain ⟨hp, hps⟩ := staysOpen_iff.1 h
  have hc : p ≠ .closing := fun heq => absurd (hp heq) (Nat.lt_irrefl 0)
  rw [openedAfter_eq ho hc] at hps
  exact ⟨hc, staysOpen_iff.2 hps⟩

/-- Behind a pair of parentheses as many are open as in front of it. -/
theorem Balanced.openAfter_eq {body : List Piece} (h : Balanced body) (n : Nat) :
    openAfter n body = n := by
  obtain ⟨hwithin, hopen⟩ := balanced_iff.1 h
  have hadd := (hwithin.add n).2
  rwa [Nat.zero_add, hopen, Nat.zero_add] at hadd

/-- What stays open stays so behind a pair of parentheses. -/
theorem StaysOpen.behind_pair {body behind : List Piece} (hbody : Balanced body)
    (h : StaysOpen (.opening :: (body ++ .closing :: behind))) : StaysOpen behind := by
  obtain ⟨-, hrest⟩ := staysOpen_iff.1 h
  obtain ⟨-, -, hbehind⟩ := (within_append body _ 1).1 hrest
  rw [hbody.openAfter_eq] at hbehind
  exact staysOpen_iff.2 hbehind

/-- The star before a piece, where the text is not left as it stands. -/
theorem replicate_starred {depth : Nat} (hdepth : ¬ maxNesting < depth) (before : Before)
    (p : Piece) :
    List.replicate (starred depth before p).toNat '*' = starIf (p.starDue before) := by
  rw [starred, decide_eq_true (Nat.not_lt.1 hdepth), Bool.true_and]
  cases p.starDue before <;> rfl

/-- The first piece of a segment, and the pieces behind it. -/
theorem textOf_withProducts_of_le {depth : Nat} (hdepth : ¬ maxNesting < depth)
    (before : Before) (p : Piece) (ps : List Piece) :
    textOf (withProducts depth before (p :: ps)) =
      starIf (p.starDue before) ++ (p.text ++
        textOf (withProducts (p.openedAfter depth) (p.leaves depth before) ps)) := by
  rw [textOf_withProducts_cons, replicate_starred hdepth]

/-- **A pair of parentheses in a segment**: what stands between the two has the
products of a segment of its own. -/
theorem textOf_withProducts_pair {depth : Nat} (hdepth : ¬ maxNesting < depth) (before : Before)
    {body : List Piece} (hbody : Balanced body) (behind : List Piece) :
    textOf (withProducts depth before (.opening :: (body ++ .closing :: behind))) =
      starIf (before == .value) ++ '(' :: (textOf (withProducts (depth + 1) .nothing body) ++
        ')' :: textOf (withProducts depth .value behind)) := by
  have hclosing : ∀ b : Before,
      textOf (withProducts (depth + 1) b (.closing :: behind)) =
        ')' :: textOf (withProducts depth .value behind) := by
    intro b
    rw [textOf_withProducts_cons, starred, show starDue b .closing = false from rfl,
      Bool.and_false]
    rfl
  rw [textOf_withProducts_of_le hdepth, show openedAfter depth .opening = depth + 1 from rfl,
    withProducts_append, textOf_append, hbody.openAfter_eq, hclosing]
  rfl

end Piece

/-! ## §3. The two ways. -/

/-- **A segment has the products of its pieces**, if it is no text inside a
parenthesis that one of its own closes. -/
theorem segment_eq (depth : Nat) (before : Before) (cs : List Char) :
    depth = 0 ∨ Piece.StaysOpen (Piece.split cs) →
      segment depth before cs =
        Piece.textOf (Piece.withProducts depth before (Piece.split cs)) := by
  fun_induction segment depth before cs with
  | case1 => intro _; rw [Piece.split]; rfl
  | case2 depth before c cs hdeep =>
      intro h
      have hopen := Piece.staysOpen_iff.1 (h.resolve_left (by omega))
      rw [Piece.withProducts_of_within before hopen hdeep, Piece.textOf_split]
  | case3 depth before c cs hdepth hb ih =>
      intro h
      rw [Piece.split, if_pos hb] at h ⊢
      rw [Piece.textOf_withProducts_of_le hdepth, ih (h.imp_right fun ho => (ho.tail (by simp)).2)]
      rfl
  | case4 depth before cs hdepth j _ hj ih ih' =>
      intro h
      rw [Piece.split_opening] at h ⊢
      rcases Piece.staysOpen_or_closes (Piece.split cs) with hopen | ⟨body, behind, hsplit, hbody⟩
      · have hnone : closing? ('(' :: cs) 0 = none := closing?_of_staysOpen rfl hopen
        rw [hnone] at hj
        exact absurd hj.symm (Option.some_ne_none j)
      · -- The look-ahead ends at the piece that closes the parenthesis.
        have hplace : j = (Piece.textOf body).length + 1 := by
          have hfound : closing? ('(' :: cs) 0 = some (0 + 1 + (Piece.textOf body).length) :=
            closing?_of_split rfl hsplit hbody
          have heq := Option.some.inj (hj.symm.trans hfound)
          omega
        have hcs : cs = Piece.textOf body ++ ')' :: Piece.textOf behind := by
          rw [← Piece.textOf_split cs, hsplit, Piece.textOf_append]
          rfl
        have htake : cs.take (j - 1) = Piece.textOf body := by
          rw [hcs, hplace, Nat.add_sub_cancel]
          exact List.take_left
        have hdrop : cs.drop j = Piece.textOf behind := by
          rw [hcs, hplace, List.drop_length_add_append]
          rfl
        have hparted := Piece.parted_split cs
        rw [hsplit] at hparted h
        rw [htake, Piece.split_textOf hparted.left] at ih
        rw [hdrop, Piece.split_textOf hparted.right.2.2] at ih'
        rw [htake, hdrop, hsplit, Piece.textOf_withProducts_pair hdepth before hbody,
          ih (.inr hbody.staysOpen), ih' (h.imp_right (Piece.StaysOpen.behind_pair hbody))]
  | case5 depth before cs hdepth _ hj ih =>
      intro h
      have hopen : Piece.StaysOpen (Piece.split cs) := by
        refine (Piece.staysOpen_or_closes (Piece.split cs)).resolve_right ?_
        rintro ⟨body, behind, hsplit, hbody⟩
        have hfound : closing? ('(' :: cs) 0 = some (0 + 1 + (Piece.textOf body).length) :=
          closing?_of_split rfl hsplit hbody
        exact absurd (hfound.symm.trans hj) (Option.some_ne_none _)
      rw [Piece.split_opening, Piece.textOf_withProducts_of_le hdepth, ih (.inr hopen)]
      rfl
  | case6 depth before cs hdepth _ _ ih =>
      intro h
      rw [Piece.split_closing] at h ⊢
      obtain rfl := h.resolve_right fun ho => (ho.tail (by simp)).1 rfl
      rw [Piece.textOf_withProducts_of_le hdepth, ih (.inl rfl)]
      rfl
  | case7 depth before c cs hdepth hb ho hc l hl ih =>
      intro h
      rw [Piece.split, if_neg hb, if_neg ho, if_neg hc, hl] at h ⊢
      rw [Piece.textOf_withProducts_of_le hdepth, ih (h.imp_right fun ho => (ho.tail (by simp)).2)]
      rfl
  | case8 depth before c cs hdepth hb ho hc hl ih =>
      intro h
      rw [Piece.split, if_neg hb, if_neg ho, if_neg hc, hl] at h ⊢
      rw [Piece.textOf_withProducts_of_le hdepth, ih (h.imp_right fun ho => (ho.tail (by simp)).2)]
      rfl

/-- **The products of a text are written segment by segment.** -/
theorem explicitProducts_eq_segment (text : String) :
    explicitProducts text = .ofList (segment 0 .nothing text.toList) := by
  rw [explicitProducts, segment_eq 0 .nothing text.toList (.inl rfl)]

end FormulaDesk
