/-
  FormulaDesk.Proofs.Stars
  ──────────────────────────────────────
  **WHERE THE STARS STAND.**

  Writing the products of a text puts stars into it and does nothing else.  A
  star stands before a piece when three things hold there: the piece is an
  operand; a value comes before it in the same parentheses, with nothing but
  blanks between; and it is no parenthesis that a function calls.  Where more
  than `maxNesting` parentheses are open no star is written at all.

  The pass keeps one word on what came before.  What that word says of the
  pieces read so far is said here without the pass: `AfterValue` and
  `AfterNothing` look back from a place of the text, for any text, also one
  whose parentheses do not pair off.

    • `Piece.afterValue_or_afterNothing` — one of the two holds everywhere;
    • `Piece.starred_iff` — where the pass writes a star;
    • `explicitProducts_stars` — the stars of a text.
-/
import FormulaDesk.Proofs.Leftmost

namespace FormulaDesk

namespace Piece

/-! ## §1. What comes before a place. -/

/-- Pieces whose parentheses pair off among themselves. -/
structure Balanced (ps : List Piece) : Prop where
  staysOpen : StaysOpen ps
  count_eq : ps.count .opening = ps.count .closing

/-- Some pieces end in a value, blanks apart: a number, a name, or a group. -/
inductive AfterValue : List Piece → Prop where
  | number (front : List Piece) (whole : List Char) (fraction : Option (List Char)) :
      AfterValue (front ++ [Piece.lexeme (.number whole fraction)])
  | name (front : List Piece) (letters : List Char) :
      AfterValue (front ++ [Piece.lexeme (.name letters)])
  | group (front : List Piece) {inner : List Piece} (h : Balanced inner) :
      AfterValue (front ++ .opening :: inner ++ [Piece.closing])
  | blank {front : List Piece} (h : AfterValue front) (c : Char) :
      AfterValue (front ++ [Piece.blank c])

/-- Some pieces end in no value, blanks apart: the text or a parenthesis begins
there, or an operator stands there, a stray character, or a parenthesis that
closes nothing. -/
inductive AfterNothing : List Piece → Prop where
  | start : AfterNothing []
  | opening (front : List Piece) : AfterNothing (front ++ [Piece.opening])
  | operator (front : List Piece) (op : Operator) :
      AfterNothing (front ++ [Piece.lexeme (.operator op)])
  | stray (front : List Piece) (c : Char) : AfterNothing (front ++ [Piece.stray c])
  | orphan {front : List Piece} (h : depth front = 0) : AfterNothing (front ++ [Piece.closing])
  | blank {front : List Piece} (h : AfterNothing front) (c : Char) :
      AfterNothing (front ++ [Piece.blank c])

/-- **A parenthesis is open behind some pieces** exactly when one opens among
them and the pieces behind it pair off. -/
theorem depth_ne_zero_iff {ps : List Piece} :
    depth ps ≠ 0 ↔ ∃ front inner, ps = front ++ .opening :: inner ∧ Balanced inner := by
  have hlength : depth ps = (Scanner.start.readAll ps).places.length :=
    (Scanner.length_places_readAll ps .start).symm
  constructor
  · intro h
    -- The nearest parenthesis that waits on the scanner's stack.
    obtain ⟨place, hplace⟩ : ∃ place, (Scanner.start.readAll ps).places[0]? = some place :=
      ⟨_, List.getElem?_eq_getElem (by omega)⟩
    obtain ⟨front, inner, hps, -, hopen, hcount⟩ := (Scanner.getElem?_places ps place 0).1 hplace
    exact ⟨front, inner, hps, hopen, hcount⟩
  · rintro ⟨front, inner, hps, hopen, hcount⟩
    have hplace := (Scanner.getElem?_places ps _ 0).2 ⟨front, inner, hps, rfl, hopen, hcount⟩
    obtain ⟨hlt, -⟩ := List.getElem?_eq_some_iff.1 hplace
    omega

/-- **Everywhere a value comes before, or nothing that is one.** -/
theorem afterValue_or_afterNothing (front : List Piece) :
    AfterValue front ∨ AfterNothing front := by
  induction front using List.reverseRecOn with
  | nil => exact .inr .start
  | append_singleton front p ih =>
      cases p with
      | blank c => exact ih.imp (.blank · c) (.blank · c)
      | opening => exact .inr (.opening front)
      | stray c => exact .inr (.stray front c)
      | closing =>
          by_cases hdepth : depth front = 0
          · exact .inr (.orphan hdepth)
          · obtain ⟨outer, inner, rfl, hinner⟩ := depth_ne_zero_iff.1 hdepth
            exact .inl (.group outer hinner)
      | lexeme l =>
          cases l with
          | number whole fraction => exact .inl (.number front whole fraction)
          | name letters => exact .inl (.name front letters)
          | operator op => exact .inr (.operator front op)

/-! ## §2. What the pass keeps of it. -/

/-- What some pieces leave before the next one. -/
def leftBy (opened : Nat) (before : Before) : List Piece → Before
  | [] => before
  | p :: ps => leftBy (p.openedAfter opened) (p.leaves opened before) ps

/-- What the pieces of a text up to a place leave there. -/
def left (front : List Piece) : Before := leftBy 0 .nothing front

theorem depth_concat (front : List Piece) (p : Piece) :
    depth (front ++ [p]) = p.openedAfter (depth front) := by
  rw [depth, List.foldl_append]
  rfl

theorem left_concat (front : List Piece) (p : Piece) :
    left (front ++ [p]) = p.leaves (depth front) (left front) := by
  suffices general : ∀ (ps : List Piece) (opened : Nat) (before : Before),
      leftBy opened before (ps ++ [p]) =
        p.leaves (ps.foldl (fun n p => p.openedAfter n) opened) (leftBy opened before ps) from
    general front 0 .nothing
  intro ps
  induction ps with
  | nil => intro opened before; rfl
  | cons q ps ih => intro opened before; exact ih _ _

theorem left_of_afterValue {front : List Piece} (h : AfterValue front) :
    left front ≠ .nothing := by
  induction h with
  | number front whole fraction =>
      rw [left_concat]
      exact nofun
  | name front letters =>
      rw [left_concat, leaves, Before.ofLexeme]
      split <;> decide
  | @group front inner h =>
      have hdepth : depth (front ++ .opening :: inner) ≠ 0 :=
        depth_ne_zero_iff.2 ⟨front, inner, rfl, h⟩
      rw [left_concat, leaves, if_neg hdepth]
      decide
  | @blank front h c ih =>
      rw [left_concat, leaves]
      cases hleft : left front with
      | nothing => exact absurd hleft ih
      | value => decide
      | callee => decide

theorem left_of_afterNothing {front : List Piece} (h : AfterNothing front) :
    left front = .nothing := by
  induction h with
  | start => rfl
  | opening front => exact left_concat front .opening
  | operator front op => exact left_concat front _
  | stray front c => exact left_concat front _
  | orphan h => rw [left_concat, leaves, if_pos h]
  | blank h c ih => rw [left_concat, ih]; rfl

/-- **The pass knows whether a value comes before.** -/
theorem left_ne_nothing_iff {front : List Piece} : left front ≠ .nothing ↔ AfterValue front := by
  refine ⟨fun hleft => ?_, left_of_afterValue⟩
  exact (afterValue_or_afterNothing front).resolve_right fun h => hleft (left_of_afterNothing h)

/-- Behind no value is behind nothing that is one. -/
theorem AfterNothing.not_afterValue {front : List Piece} (h : AfterNothing front) :
    ¬ AfterValue front :=
  fun hvalue => left_of_afterValue hvalue (left_of_afterNothing h)

/-- The name of a function is the last piece. -/
def EndsInFunction (front : List Piece) : Prop :=
  ∃ p, front.getLast? = some p ∧ p.function?.isSome = true

/-- **The pass knows whether a function waits** for the parenthesis that
touches it. -/
theorem left_eq_callee_iff {front : List Piece} :
    left front = .callee ↔ EndsInFunction front := by
  rcases List.eq_nil_or_concat front with rfl | ⟨front, p, rfl⟩
  · refine iff_of_false nofun ?_
    rintro ⟨p, hp, -⟩
    exact nomatch hp
  · rw [List.concat_eq_append, left_concat, Token.leaves_eq_callee_iff]
    simp [EndsInFunction]

/-! ## §3. Stars that are due. -/

/-- A star is due before a piece, behind the pieces of a text in front of it. -/
structure StarDue (front : List Piece) (p : Piece) : Prop where
  /-- The text is left as it stands inside more parentheses. -/
  shallow : depth front ≤ maxNesting
  /-- The piece is a number, a name, or an opening parenthesis. -/
  operand : p = .opening ∨ ∃ l, p = .lexeme l ∧ l.isOperand = true
  value : AfterValue front
  /-- The piece is no parenthesis that touches the name of a function. -/
  uncalled : ¬ (p = .opening ∧ EndsInFunction front)

/-- **The pass writes the stars that are due.** -/
theorem starred_iff {front : List Piece} {p : Piece} :
    starred (depth front) (left front) p = true ↔ StarDue front p := by
  have hvalue : left front = .value ↔ AfterValue front ∧ ¬ EndsInFunction front := by
    rw [← left_ne_nothing_iff, ← left_eq_callee_iff]
    cases left front <;> simp
  have hdue : p.starDue (left front) = true ↔
      (p = .opening ∨ ∃ l, p = .lexeme l ∧ l.isOperand = true) ∧ AfterValue front ∧
        ¬ (p = .opening ∧ EndsInFunction front) := by
    cases p with
    | opening => simp [starDue, hvalue]
    | lexeme l => simp [starDue, ← left_ne_nothing_iff]
    | blank c => simp [starDue]
    | closing => simp [starDue]
    | stray c => simp [starDue]
  rw [starred, Bool.and_eq_true, decide_eq_true_eq, hdue]
  constructor
  · rintro ⟨hshallow, hoperand, hafter, huncalled⟩
    exact ⟨hshallow, hoperand, hafter, huncalled⟩
  · rintro ⟨hshallow, hoperand, hafter, huncalled⟩
    exact ⟨hshallow, hoperand, hafter, huncalled⟩

/-- Too deep, or behind no value, no star is due. -/
theorem not_starDue {front : List Piece} (h : maxNesting < depth front ∨ AfterNothing front)
    (p : Piece) : ¬ StarDue front p := by
  rintro ⟨hshallow, -, hvalue, -⟩
  rcases h with hdeep | hnothing
  · exact absurd hshallow (Nat.not_le.2 hdeep)
  · exact hnothing.not_afterValue hvalue

end Piece

/-! ## §4. Texts with stars. -/

/-- A text and the same text with a star before the characters at some places,
and nowhere else; `n` is the place of its first character. -/
inductive WithStars (due : Nat → Prop) : Nat → List Char → List Char → Prop where
  | nil (n : Nat) : WithStars due n [] []
  | star {n : Nat} (h : due n) (c : Char) {cs ds : List Char} (rest : WithStars due (n + 1) cs ds) :
      WithStars due n (c :: cs) ('*' :: c :: ds)
  | keep {n : Nat} (h : ¬ due n) (c : Char) {cs ds : List Char}
      (rest : WithStars due (n + 1) cs ds) : WithStars due n (c :: cs) (c :: ds)

namespace WithStars

variable {due : Nat → Prop} {cs ds cs' ds' : List Char}

theorem append {n : Nat} (h : WithStars due n cs ds) :
    WithStars due (n + cs.length) cs' ds' → WithStars due n (cs ++ cs') (ds ++ ds') := by
  induction h with
  | nil n => exact id
  | @star n h c cs ds _ ih =>
      intro h'
      rw [List.length_cons, ← Nat.add_assoc, Nat.add_right_comm] at h'
      exact .star h c (ih h')
  | @keep n h c cs ds _ ih =>
      intro h'
      rw [List.length_cons, ← Nat.add_assoc, Nat.add_right_comm] at h'
      exact .keep h c (ih h')

/-- Where no star is due a text stays as it is. -/
theorem unchanged (cs : List Char) :
    ∀ {n : Nat}, (∀ k < cs.length, ¬ due (n + k)) → WithStars due n cs cs := by
  induction cs with
  | nil => intro n _; exact .nil n
  | cons c cs ih =>
      intro n h
      refine .keep (h 0 (Nat.succ_pos _)) c (ih fun k hk => ?_)
      rw [Nat.add_assoc, Nat.add_comm 1]
      exact h (k + 1) (Nat.succ_lt_succ hk)

/-- At most the first character of a piece has a star. -/
theorem piece {n : Nat} {b : Bool} (hne : cs ≠ []) (hb : b = true ↔ due n)
    (hnone : ∀ k < cs.length, k ≠ 0 → ¬ due (n + k)) :
    WithStars due n cs (List.replicate b.toNat '*' ++ cs) := by
  cases cs with
  | nil => exact absurd rfl hne
  | cons c cs =>
      have hrest : WithStars due (n + 1) cs cs := by
        refine unchanged cs fun k hk => ?_
        rw [Nat.add_assoc, Nat.add_comm 1]
        exact hnone (k + 1) (Nat.succ_lt_succ hk) (Nat.succ_ne_zero k)
      cases b with
      | true => exact .star (hb.1 rfl) c hrest
      | false => exact .keep (fun h => nomatch hb.2 h) c hrest

end WithStars

/-- At a place of a text a piece begins before which a star is due. -/
def StarAt (text : String) (n : Nat) : Prop :=
  ∃ front p behind, Piece.split text.toList = front ++ p :: behind ∧
    n = (Piece.textOf front).length ∧ Piece.StarDue front p

section Places

variable {text : String} {front behind : List Piece} {p : Piece}

/-- A place within a piece is a place of no other piece. -/
theorem eq_of_place (h : Piece.split text.toList = front ++ p :: behind)
    {front' behind' : List Piece} {p' : Piece}
    (h' : Piece.split text.toList = front' ++ p' :: behind') {k : Nat} (hk : k < p.text.length)
    (hplace : (Piece.textOf front).length + k = (Piece.textOf front').length) :
    front' = front ∧ p' = p ∧ k = 0 := by
  have hne := Piece.text_ne_nil_of_parted (Piece.parted_split text.toList)
  rcases Token.places_cases (h.symm.trans h') with ⟨rfl, rfl⟩ | ⟨mid, rfl, -⟩ | ⟨mid, rfl⟩
  · exact ⟨rfl, rfl, by omega⟩
  · rw [Piece.textOf_append, Piece.textOf_cons, List.length_append, List.length_append] at hplace
    omega
  · have hp' : 0 < p'.text.length := List.length_pos_iff.2 (hne p' (by rw [h']; simp))
    rw [Piece.textOf_append, Piece.textOf_cons, List.length_append, List.length_append] at hplace
    omega

/-- A star stands before a piece when it is due there. -/
theorem starAt_iff (h : Piece.split text.toList = front ++ p :: behind) :
    StarAt text (Piece.textOf front).length ↔ Piece.StarDue front p := by
  constructor
  · rintro ⟨front', p', behind', h', hplace, hdue⟩
    have hp : 0 < p.text.length := by
      refine List.length_pos_iff.2 ?_
      exact Piece.text_ne_nil_of_parted (Piece.parted_split text.toList) p (by rw [h]; simp)
    obtain ⟨rfl, rfl, -⟩ := eq_of_place h h' hp hplace
    exact hdue
  · intro hdue
    exact ⟨front, p, behind, h, rfl, hdue⟩

/-- No star stands within a piece. -/
theorem not_starAt_within (h : Piece.split text.toList = front ++ p :: behind) {k : Nat}
    (hk : k < p.text.length) (hne : k ≠ 0) : ¬ StarAt text ((Piece.textOf front).length + k) := by
  rintro ⟨front', p', behind', h', hplace, -⟩
  exact hne (eq_of_place h h' hk hplace).2.2

end Places

/-- **The pass writes a star at each place where one is due**, from any place
of the text on. -/
theorem withStars_withProducts {text : String} (ps : List Piece) :
    ∀ {front : List Piece}, Piece.split text.toList = front ++ ps →
      WithStars (StarAt text) (Piece.textOf front).length (Piece.textOf ps)
        (Piece.textOf (Piece.withProducts (Piece.depth front) (Piece.left front) ps)) := by
  induction ps with
  | nil => intro front _; exact .nil _
  | cons p ps ih =>
      intro front h
      have hne : p.text ≠ [] :=
        Piece.text_ne_nil_of_parted (Piece.parted_split text.toList) p (by rw [h]; simp)
      have hhead : WithStars (StarAt text) (Piece.textOf front).length p.text
          (List.replicate (Piece.starred (Piece.depth front) (Piece.left front) p).toNat '*' ++
            p.text) :=
        .piece hne (Piece.starred_iff.trans (starAt_iff h).symm)
          fun k hk hzero => not_starAt_within h hk hzero
      have hfront : Piece.split text.toList = (front ++ [p]) ++ ps := by
        rw [h, List.append_assoc]
        rfl
      have hrest := ih hfront
      rw [Piece.depth_concat, Piece.left_concat, Piece.textOf_append, Piece.textOf_cons,
        Piece.textOf_nil, List.append_nil, List.length_append] at hrest
      rw [Piece.textOf_withProducts_cons, Piece.textOf_cons, ← List.append_assoc]
      exact hhead.append hrest

/-- **STARS ARE WRITTEN EXACTLY WHERE THEY ARE DUE**, in any text at all, and
nothing else is changed: before a number, a name or an opening parenthesis that
a value precedes in the same parentheses, unless it is the parenthesis that a
function calls.  Where more than `maxNesting` parentheses are open, where a
parenthesis or the text begins, and behind an operator, a stray character or a
parenthesis that closes nothing, none is due. -/
theorem explicitProducts_stars (text : String) :
    WithStars (StarAt text) 0 text.toList (explicitProducts text).toList ∧
    (∀ front p behind, Piece.split text.toList = front ++ p :: behind →
      (StarAt text (Piece.textOf front).length ↔ Piece.StarDue front p) ∧
      (maxNesting < Piece.depth front ∨ Piece.AfterNothing front →
        ¬ StarAt text (Piece.textOf front).length)) := by
  constructor
  · have hwhole : Piece.split text.toList = [] ++ Piece.split text.toList := rfl
    have h := withStars_withProducts _ hwhole
    rw [Piece.textOf_split] at h
    rw [explicitProducts, String.toList_ofList]
    exact h
  · intro front p behind h
    refine ⟨starAt_iff h, fun hnone => ?_⟩
    rw [starAt_iff h]
    exact Piece.not_starDue hnone p

/-- In `)2 x` a star is due before the name, and none behind the parenthesis. -/
theorem explicitProducts_stars_orphan : StarAt ")2 x" 3 ∧ ¬ StarAt ")2 x" 1 := by
  have hsplit : Piece.split ")2 x".toList =
      [Piece.closing, .lexeme (.number ['2'] none), .blank ' ', .lexeme (.name ['x'])] := by
    cbv
  obtain ⟨-, hplaces⟩ := explicitProducts_stars ")2 x"
  constructor
  · refine (hplaces [.closing, .lexeme (.number ['2'] none), .blank ' ']
      (.lexeme (.name ['x'])) [] hsplit).1.2 ⟨by decide, .inr ⟨_, rfl, rfl⟩, ?_, by simp⟩
    exact .blank (.number [Piece.closing] ['2'] none) ' '
  · have horphan : Piece.AfterNothing ([] ++ [Piece.closing]) := .orphan rfl
    exact (hplaces [.closing] _ _ hsplit).2 (.inr horphan)

end FormulaDesk
