/-
  FormulaDesk.Proofs.Products
  ──────────────────────────────────────
  **WRITTEN PRODUCTS AND TOKENS.**

  Stars are written into a text before its tokens are read, by a pass that
  knows nothing of tokens.  This module shows that the two agree on every
  text: the tokens of the text with its stars are the tokens of the text with
  a product between any two terms that stand side by side, at every level; and
  a fault stays the same fault, moved by the stars in front of it.

    • `Piece.split_explicitProducts` — stars change no lexeme;
    • `Piece.getElem?_starsBefore`, `Piece.count_starsBefore` — how far a
      character moves;
    • `Token.levelsAfter_withProducts` — the simulation, piece by piece.
-/
import FormulaDesk.Proofs.Levels
import FormulaDesk.Proofs.Parted

namespace FormulaDesk

/-! ## §1. Products between tokens. -/

namespace Token

mutual

/-- A token with every product written inside it. -/
def explicit : Token → Token
  | .group body => .group (explicitAll false body)
  | .call f body => .call f (explicitAll false body)
  | .terminal text => .terminal text
  | .operator op => .operator op

/-- Tokens with a product between any two terms that stand side by side, also
within groups and arguments; `afterTerm` tells whether a term stands before
them. -/
def explicitAll (afterTerm : Bool) : List Token → List Token
  | [] => []
  | t :: ts =>
    let rest := explicit t :: explicitAll t.isTerm ts
    if afterTerm && t.isTerm then .operator .mul :: rest else rest

end

/-- The same for the ends of all levels that are open at a place: behind each
parenthesis that will be closed stands a term. -/
def Levels.explicit (afterTerm : Bool) (l : Levels) : Levels :=
  ⟨explicitAll afterTerm l.current, l.around.map (explicitAll true)⟩

end Token

/-- A fault at another place. -/
def TextFault.moved (place : Nat → Nat) : TextFault → TextFault
  | .unsupportedCharacter c position => .unsupportedCharacter c (place position)
  | .unexpectedClosing position => .unexpectedClosing (place position)
  | .unclosed position => .unclosed (place position)
  | .incompleteToken text position => .incompleteToken text (place position)
  | .nestingTooDeep position => .nestingTooDeep (place position)

namespace Piece

/-! ## §2. Where the stars are. -/

/-- A star is written before a piece. -/
def starred (opened : Nat) (before : Before) (p : Piece) : Bool :=
  decide (opened ≤ maxNesting) && p.starDue before

/-- How many stars are written before the character at a place, that place
counted in the text of the pieces. -/
def starsBefore (opened : Nat) (before : Before) : List Piece → Nat → Nat
  | [], _ => 0
  | p :: ps, n =>
    (starred opened before p).toNat +
      if n < p.text.length then 0
      else starsBefore (p.openedAfter opened) (p.leaves opened before) ps (n - p.text.length)

theorem withProducts_cons (opened : Nat) (before : Before) (p : Piece) (ps : List Piece) :
    withProducts opened before (p :: ps) =
      List.replicate (starred opened before p).toNat star ++
        p :: withProducts (p.openedAfter opened) (p.leaves opened before) ps := by
  rw [withProducts]
  by_cases h : opened ≤ maxNesting ∧ p.starDue before = true
  · simp [h, starred]
  · cases hs : starred opened before p with
    | false => simp [h]
    | true => exact absurd (by simpa [starred] using hs) h

theorem starsBefore_cons (opened : Nat) (before : Before) (p : Piece) (ps : List Piece)
    (n : Nat) :
    starsBefore opened before (p :: ps) (p.text.length + n) =
      (starred opened before p).toNat +
        starsBefore (p.openedAfter opened) (p.leaves opened before) ps n := by
  rw [starsBefore, if_neg (by omega), Nat.add_sub_cancel_left]

theorem starsBefore_head (opened : Nat) (before : Before) {p : Piece} (hp : p.text ≠ [])
    (ps : List Piece) :
    starsBefore opened before (p :: ps) 0 = (starred opened before p).toNat := by
  rw [starsBefore, if_pos (List.length_pos_iff.2 hp), Nat.add_zero]

/-- The text of pieces with stars, star by star. -/
theorem textOf_withProducts_cons (opened : Nat) (before : Before) (p : Piece)
    (ps : List Piece) :
    textOf (withProducts opened before (p :: ps)) =
      List.replicate (starred opened before p).toNat '*' ++ (p.text ++
        textOf (withProducts (p.openedAfter opened) (p.leaves opened before) ps)) := by
  rw [withProducts_cons, textOf_append, textOf_cons]
  cases starred opened before p <;> rfl

/-- **A character moves by the stars before it.** -/
theorem getElem?_starsBefore (ps : List Piece) :
    ∀ (opened : Nat) (before : Before) (n : Nat), n < (textOf ps).length →
      (textOf (withProducts opened before ps))[n + starsBefore opened before ps n]? =
        (textOf ps)[n]? := by
  induction ps with
  | nil => intro opened before n h; simp at h
  | cons p ps ih =>
      intro opened before n h
      rw [textOf_withProducts_cons, textOf_cons, starsBefore]
      -- The character is one of the first piece, or one of the pieces behind it.
      by_cases hn : n < p.text.length
      · rw [if_pos hn, Nat.add_zero,
          List.getElem?_append_right (by rw [List.length_replicate]; omega),
          List.length_replicate, Nat.add_sub_cancel, List.getElem?_append_left hn,
          List.getElem?_append_left hn]
      · rw [textOf_cons, List.length_append] at h
        obtain ⟨m, rfl⟩ := Nat.exists_eq_add_of_le (Nat.le_of_not_lt hn)
        rw [if_neg hn, Nat.add_sub_cancel_left,
          List.getElem?_append_right (by rw [List.length_replicate]; omega),
          List.length_replicate, List.getElem?_append_right (by omega),
          List.getElem?_append_right (by omega), Nat.add_sub_cancel_left,
          ← ih (p.openedAfter opened) (p.leaves opened before) m (by omega)]
        congr 1
        omega

/-- **The stars before a character are counted**: what stands before it has so
many stars more than it had. -/
theorem count_starsBefore (ps : List Piece) :
    ∀ (opened : Nat) (before : Before) (n : Nat), n < (textOf ps).length →
      ((textOf (withProducts opened before ps)).take
          (n + starsBefore opened before ps n)).count '*' =
        ((textOf ps).take n).count '*' + starsBefore opened before ps n := by
  induction ps with
  | nil => intro opened before n h; simp at h
  | cons p ps ih =>
      intro opened before n h
      -- So many stars in front are counted, whatever is taken behind them.
      have hfront : ∀ (k : Nat) (cs : List Char) (d : Nat),
          ((List.replicate d '*' ++ cs).take (k + d)).count '*' = (cs.take k).count '*' + d := by
        intro k cs d
        have hk : k + d = (List.replicate d '*').length + k := by
          rw [List.length_replicate, Nat.add_comm]
        rw [hk, List.take_length_add_append, List.count_append, List.count_replicate_self,
          Nat.add_comm]
      rw [textOf_withProducts_cons, textOf_cons, starsBefore]
      by_cases hn : n < p.text.length
      · rw [if_pos hn, Nat.add_zero, hfront, List.take_append_of_le_length (Nat.le_of_lt hn),
          List.take_append_of_le_length (Nat.le_of_lt hn)]
      · rw [textOf_cons, List.length_append] at h
        obtain ⟨m, rfl⟩ := Nat.exists_eq_add_of_le (Nat.le_of_not_lt hn)
        have hstars := ih (p.openedAfter opened) (p.leaves opened before) m (by omega)
        rw [if_neg hn, Nat.add_sub_cancel_left, ← Nat.add_assoc, Nat.add_right_comm, hfront,
          Nat.add_assoc, List.take_length_add_append, List.take_length_add_append,
          List.count_append, List.count_append, hstars]
        omega

/-! ## §3. Stars change no lexeme. -/

/-- A text with stars begins with a star or as it did. -/
theorem endsAt_withProducts {q : Piece} {ps : List Piece} (hq : q.EndsAt (textOf ps))
    (hps : Parted ps) (opened : Nat) (before : Before) :
    q.EndsAt (textOf (withProducts opened before ps)) := by
  cases ps with
  | nil => exact hq
  | cons p ps =>
      rw [textOf_withProducts_cons]
      cases starred opened before p with
      | true => exact (fresh_symbol .mul _).endsAt q
      | false =>
          refine endsAt_congr ?_ hq
          show (textOf (p :: ps)).head? = (textOf (p :: _)).head?
          rw [head?_textOf_cons hps.1, head?_textOf_cons hps.1]

/-- **Pieces stay parted when stars are written between them.** -/
theorem parted_withProducts {ps : List Piece} (h : Parted ps) :
    ∀ (opened : Nat) (before : Before), Parted (withProducts opened before ps) := by
  induction ps with
  | nil => intro _ _; trivial
  | cons p ps ih =>
      intro opened before
      obtain ⟨hp, hend, hps⟩ := h
      have hrest : Parted
          (p :: withProducts (p.openedAfter opened) (p.leaves opened before) ps) :=
        ⟨hp, endsAt_withProducts hend hps _ _, ih hps _ _⟩
      rw [withProducts_cons]
      cases starred opened before p with
      | true => exact ⟨trivial, fun _ _ => rfl, hrest⟩
      | false => exact hrest

/-- **The text with its products falls into the same pieces and the stars.** -/
theorem split_explicitProducts (text : String) :
    split (explicitProducts text).toList =
      withProducts 0 .nothing (split text.toList) := by
  rw [explicitProducts, String.toList_ofList]
  exact split_textOf (parted_withProducts (parted_split _) 0 .nothing)

end Piece

namespace Token

/-! ## §4. The simulation. -/

/-- A term stands in front of what is read: a value, unless it is the function
that is being called. -/
def afterValue (callee : Option Func) (before : Before) : Bool :=
  callee.isNone && before != .nothing

/-- A function waits exactly where a name of one touches a parenthesis. -/
def Waits (callee : Option Func) (before : Before) (ps : List Piece) : Prop :=
  callee.isSome = true ↔ before = .callee ∧ ps.head? = some .opening

theorem explicitAll_cons (afterTerm : Bool) (t : Token) (ts : List Token) :
    explicitAll afterTerm (t :: ts) =
      (if afterTerm && t.isTerm then [.operator .mul] else []) ++
        explicit t :: explicitAll t.isTerm ts := by
  rw [explicitAll]
  cases afterTerm && t.isTerm <;> rfl

/-- An operator between two lists parts their products. -/
theorem explicitAll_join (b : Bool) (left : List Token) (op : Operator) (right : List Token) :
    explicitAll b (left ++ .operator op :: right) =
      explicitAll b left ++ .operator op :: explicitAll false right := by
  induction left generalizing b with
  | nil =>
      rw [List.nil_append, explicitAll_cons, isTerm_operator, Bool.and_false, explicit]
      rfl
  | cons t left ih =>
      rw [List.cons_append, explicitAll_cons, explicitAll_cons, ih, List.append_assoc]
      rfl

/-- One more term in front of the levels. -/
theorem explicit_push_term {t : Token} (h : t.isTerm = true) (afterTerm : Bool)
    (l : Levels) :
    (l.push t).explicit afterTerm =
      (if afterTerm then Levels.push (.operator .mul) else id)
        ((l.explicit true).push t.explicit) := by
  simp only [Levels.explicit, Levels.push, explicitAll_cons, h, Bool.and_true]
  cases afterTerm <;> rfl

theorem explicit_wrap {whole : List Token → Token}
    (hterm : ∀ body, (whole body).isTerm = true)
    (hwhole : ∀ body, explicit (whole body) = whole (explicitAll false body))
    (afterTerm : Bool) (l : Levels) :
    (l.wrap whole).explicit afterTerm =
      (if afterTerm then Levels.push (.operator .mul) else id)
        ((l.explicit false).wrap whole) := by
  have hhead : explicitAll true (l.around.headD []) =
      (l.around.map (explicitAll true)).headD [] := by
    cases l.around <;> rfl
  simp only [Levels.explicit, Levels.wrap, explicitAll_cons, hterm, hwhole, Bool.and_true, hhead]
  cases afterTerm <;> simp [Levels.push]

/-- What no parenthesis begins is not called. -/
theorem Waits.eq_none {callee : Option Func} {before : Before} {ps : List Piece}
    (h : Waits callee before ps) (hps : ps.head? ≠ some .opening) : callee = none := by
  cases callee with
  | none => rfl
  | some f => exact absurd (h.1 rfl).2 hps

/-- Only a function name leaves a function behind it. -/
theorem leaves_eq_callee_iff (p : Piece) (opened : Nat) (before : Before) :
    p.leaves opened before = .callee ↔ p.function?.isSome = true := by
  cases p with
  | blank c => cases before <;> simp [Piece.leaves, Before.afterBlank, Piece.function?]
  | opening => simp [Piece.leaves, Piece.function?]
  | closing => simp only [Piece.leaves, Piece.function?]; split <;> simp
  | stray c => simp [Piece.leaves, Piece.function?]
  | lexeme l =>
      cases l with
      | number whole fraction => simp [Piece.leaves, Before.ofLexeme, Piece.function?]
      | operator op => simp [Piece.leaves, Before.ofLexeme, Piece.function?]
      | name letters =>
          simp only [Piece.leaves, Before.ofLexeme, Piece.function?]
          cases Func.ofName? (.ofList letters) <;> simp

/-- The wait goes on from piece to piece. -/
theorem waits_next (opened : Nat) (before : Before) (p : Piece) (ps : List Piece) :
    Waits (p.callee? ps) (p.leaves opened before) ps := by
  rw [Waits, leaves_eq_callee_iff, Piece.callee?_eq]
  by_cases hps : ps.head? = some .opening
  · rw [if_pos hps, and_iff_left hps]
  · rw [if_neg hps]
    simp [hps]

/-- Behind a function no star comes before a parenthesis. -/
theorem head?_withProducts_callee (n : Nat) (ps : List Piece) :
    (Piece.withProducts n .callee ps).head? = some .opening ↔ ps.head? = some .opening := by
  cases ps with
  | nil => rfl
  | cons q ps =>
      rw [Piece.withProducts_cons]
      have hstar : Piece.star ≠ .opening := by simp [Piece.star]
      cases hdue : Piece.starred n .callee q with
      | false => rfl
      | true =>
          have hq : q ≠ .opening := by
            intro heq
            subst heq
            simp [Piece.starred, Piece.starDue] at hdue
          simp [hstar, hq]

/-- Stars do not part a function from the parenthesis that it calls. -/
theorem callee?_withProducts (p : Piece) (ps : List Piece) (opened n : Nat)
    (before : Before) :
    p.callee? (Piece.withProducts n (p.leaves opened before) ps) = p.callee? ps := by
  rw [Piece.callee?_eq, Piece.callee?_eq]
  cases hfunction : p.function? with
  | none => rw [ite_self, ite_self]
  | some f =>
      have hcallee : p.leaves opened before = .callee :=
        (leaves_eq_callee_iff p opened before).2 (by rw [hfunction]; rfl)
      simp only [hcallee, head?_withProducts_callee]

/-- **A piece does to the tokens with products what it does to the tokens**,
behind the star that is due before it. -/
theorem explicit_act {callee : Option Func} {before : Before} {p : Piece} {ps : List Piece}
    {position : Nat} {opened : List Nat} {l : Levels}
    (hwait : Waits callee before (p :: ps)) (hfault : p.fault? position opened = none)
    (hl : ∀ f, p.callee? ps = some f → ∃ body ts, l.current = .call f body :: ts) :
    (p.act callee ps l).explicit (afterValue callee before) =
      (if p.starDue before then Levels.push (.operator .mul) else id)
        (p.act callee ps (l.explicit
          (afterValue (p.callee? ps) (p.leaves opened.length before)))) := by
  cases p with
  | blank c =>
      obtain rfl := hwait.eq_none (by simp)
      cases before <;> rfl
  | opening =>
      cases callee with
      | some f =>
          obtain rfl := (hwait.1 rfl).1
          exact explicit_wrap (fun _ => rfl) (fun _ => by rw [Option.elim, explicit]) _ l
      | none =>
          -- No function waits, so what stands before the parenthesis is no function name.
          have hbefore : before ≠ .callee := by
            intro heq
            subst heq
            exact absurd (hwait.2 ⟨rfl, rfl⟩) (by simp)
          have hdue : afterValue none before = Piece.starDue before .opening := by
            cases before with
            | nothing => rfl
            | value => rfl
            | callee => exact absurd rfl hbefore
          rw [hdue]
          exact explicit_wrap (fun _ => rfl) (fun _ => by rw [Option.elim, explicit]) _ l
  | closing =>
      have hopened : opened ≠ [] := by
        intro heq
        subst heq
        exact nomatch hfault
      have hleaves : Piece.leaves opened.length before .closing = .value := by
        simp [Piece.leaves, hopened]
      rw [hleaves]
      rfl
  | stray c => exact nomatch hfault
  | lexeme lex =>
      obtain rfl := hwait.eq_none (by simp)
      cases lex with
      | operator op =>
          show Levels.explicit _ (l.push (.operator op)) =
            Levels.push (.operator op) (l.explicit false)
          simp only [Levels.explicit, Levels.push, explicitAll_cons, isTerm_operator,
            Bool.and_false, explicit]
          rfl
      | number whole fraction =>
          exact explicit_push_term rfl _ l
      | name letters =>
          cases hcallee : Piece.callee? (.lexeme (.name letters)) ps with
          | none =>
              have hvalue : afterValue none
                  (Piece.leaves opened.length before (.lexeme (.name letters))) = true := by
                simp only [Piece.leaves, Before.ofLexeme]
                cases (Func.ofName? (.ofList letters)).isSome <;> rfl
              simp only [Piece.act, hcallee, hvalue]
              exact explicit_push_term rfl _ l
          | some f =>
              -- The name adds nothing: the call behind it is the term that the star precedes.
              obtain ⟨body, ts, hcurrent⟩ := hl f hcallee
              have hterm : (Token.call f body).isTerm = true := rfl
              simp only [Piece.act, hcallee, Option.isSome_some, if_true, Levels.explicit,
                hcurrent, explicitAll_cons, hterm, Bool.and_true, afterValue]
              cases before <;> rfl

/-- The reader takes a star that is due as one more operator. -/
theorem levelsAfter_star {callee : Option Func} {due : Bool} (h : due = true → callee = none)
    (position : Nat) (opened : List Nat) (p : Piece) (ps : List Piece) :
    levelsAfter callee position opened (List.replicate due.toNat Piece.star ++ p :: ps) =
      (levelsAfter callee (position + due.toNat) opened (p :: ps)).map
        (if due then Levels.push (.operator .mul) else id) := by
  cases due with
  | false =>
      show levelsAfter callee position opened (p :: ps) =
        (levelsAfter callee position opened (p :: ps)).map id
      cases levelsAfter callee position opened (p :: ps) <;> rfl
  | true =>
      obtain rfl := h rfl
      show levelsAfter none position opened (Piece.star :: p :: ps) = _
      rw [levelsAfter_cons]
      rfl

theorem fault?_moved (place : Nat → Nat) (p : Piece) (position : Nat) (opened : List Nat) :
    p.fault? (place position) (opened.map place) =
      (p.fault? position opened).map (TextFault.moved place) := by
  cases p with
  | blank c => rfl
  | stray c => rfl
  | opening =>
      simp only [Piece.fault?, List.length_map]
      split <;> rfl
  | closing =>
      simp only [Piece.fault?, List.map_eq_nil_iff]
      split <;> rfl
  | lexeme l =>
      simp only [Piece.fault?]
      split <;> rfl

theorem opens_moved (place : Nat → Nat) (p : Piece) (position : Nat) (opened : List Nat) :
    p.opens (place position) (opened.map place) = (p.opens position opened).map place := by
  cases p <;> simp [Piece.opens, List.map_tail]

/-- What was read, with its products, or its fault at another place. -/
def explicitResult (afterTerm : Bool) (place : Nat → Nat) :
    Except TextFault Levels → Except TextFault Levels
  | .ok l => .ok (l.explicit afterTerm)
  | .error fault => .error (fault.moved place)

/-- **The tokens of pieces with stars are the tokens of the pieces with
products**, and every fault is moved by the stars before it. -/
theorem levelsAfter_withProducts (place : Nat → Nat) (ps : List Piece) :
    ∀ (callee : Option Func) (before : Before) (position position' : Nat)
      (opened : List Nat), (∀ p ∈ ps, p.text ≠ []) → opened.length ≤ maxNesting →
      Waits callee before ps →
      (∀ n, place (position + n) =
        position' + n + Piece.starsBefore opened.length before ps n) →
      levelsAfter callee position' (opened.map place)
          (Piece.withProducts opened.length before ps) =
        explicitResult (afterValue callee before) place
          (levelsAfter callee position opened ps) := by
  induction ps with
  | nil =>
      intro callee before position position' opened _ _ _ _
      show levelsAfter callee position' (opened.map place) [] = _
      rw [levelsAfter_nil, levelsAfter_nil]
      cases opened with
      | nil => cases afterValue callee before <;> rfl
      | cons p outer => rfl
  | cons p ps ih =>
      intro callee before position position' opened hne hopened hwait hplace
      have hp : p.text ≠ [] := hne p (List.mem_cons_self ..)
      have hstarred : Piece.starred opened.length before p = p.starDue before := by
        simp [Piece.starred, hopened]
      -- No star is due between a function and its parenthesis, so the star is read first.
      have hcallee : p.starDue before = true → callee = none := by
        intro hdue
        cases callee with
        | none => rfl
        | some f =>
            obtain ⟨rfl, hhead⟩ := hwait.1 rfl
            obtain rfl := Option.some.inj hhead
            exact nomatch hdue
      have hposition : place position = position' + (p.starDue before).toNat := by
        rw [← hstarred, ← Piece.starsBefore_head opened.length before hp ps]
        exact hplace 0
      rw [Piece.withProducts_cons, hstarred, levelsAfter_star hcallee, levelsAfter_cons,
        levelsAfter_cons, ← hposition, fault?_moved]
      cases hfault : p.fault? position opened with
      | some fault => rfl
      | none =>
          -- The invariant goes on behind the piece: the levels are as many, the place is moved by
          -- the stars before it, and a function waits where one did.
          have hnext := ih (p.callee? ps) (p.leaves opened.length before)
            (position + p.text.length) (place position + p.text.length)
            (p.opens position opened) (fun q hq => hne q (List.mem_cons_of_mem p hq))
            (length_opens_le hfault hopened) (waits_next opened.length before p ps) (by
              intro n
              rw [Nat.add_assoc, hplace, Piece.length_opens, Piece.starsBefore_cons, hstarred,
                hposition]
              omega)
          rw [Piece.length_opens] at hnext
          simp only [Option.map_none, callee?_withProducts, opens_moved, hnext,
            Piece.act_congr (callee?_withProducts p ps opened.length _ before)]
          cases hl : levelsAfter (p.callee? ps) (position + p.text.length)
              (p.opens position opened) ps with
          | error fault => rfl
          | ok l =>
              have hact := explicit_act (l := l) hwait hfault (by
                intro f hf
                rw [hf] at hl
                exact exists_call_of_levelsAfter (Piece.head?_of_callee? hf) hl)
              show Except.ok _ = Except.ok _
              rw [hact]

end Token

/-! ## §5. Texts. -/

/-- How many stars are written before the character at a place of a text. -/
def starsBefore (text : String) (n : Nat) : Nat :=
  Piece.starsBefore 0 .nothing (Piece.split text.toList) n

/-- The place of a character in the text with its products. -/
def placeWithStars (text : String) (n : Nat) : Nat := n + starsBefore text n

/-- Somewhere a segment begins that is left as it stands, inside more than
`maxNesting` parentheses. -/
def LeavesSegment (text : String) : Prop :=
  ∃ front behind, Piece.split text.toList = front ++ behind ∧
    maxNesting < front.foldl (fun n p => p.openedAfter n) 0

theorem Piece.text_ne_nil_of_parted {ps : List Piece} (h : Parted ps) :
    ∀ p ∈ ps, p.text ≠ [] :=
  fun p hp => text_ne_nil (proper_of_parted h p hp)

namespace Token

theorem ofText_eq (text : String) :
    ofText text =
      (levelsAfter none 0 [] (Piece.split text.toList)).map (·.current) := by
  rw [ofText, levelsAfter_none]

/-- The tokens of a text with its products, or its fault among the stars. -/
theorem ofText_explicit (text : String) :
    ofText (explicitProducts text) =
      match ofText text with
      | .ok ts => .ok (explicitAll false ts)
      | .error fault => .error (fault.moved (placeWithStars text)) := by
  have hne := Piece.text_ne_nil_of_parted (Piece.parted_split text.toList)
  have hwait : Waits none .nothing (Piece.split text.toList) := by simp [Waits]
  have hread := levelsAfter_withProducts (placeWithStars text) (Piece.split text.toList)
    none .nothing 0 0 [] hne (Nat.zero_le _) hwait
    (fun n => by rw [Nat.zero_add]; rfl)
  rw [ofText_eq, ofText_eq, Piece.split_explicitProducts]
  rw [show levelsAfter none 0 [] (Piece.withProducts 0 .nothing (Piece.split text.toList)) = _
    from hread]
  cases levelsAfter none 0 [] (Piece.split text.toList) <;> rfl

/-- A fault of a text is at one of its characters. -/
theorem position_lt_of_ofText {text : String} {fault : TextFault}
    (h : ofText text = .error fault) : fault.position < text.toList.length := by
  rw [ofText_eq] at h
  cases hread : levelsAfter none 0 [] (Piece.split text.toList) with
  | ok l =>
      rw [hread] at h
      exact nomatch h
  | error fault' =>
      rw [hread] at h
      obtain rfl := Except.error.inj h
      have hne := Piece.text_ne_nil_of_parted (Piece.parted_split text.toList)
      rcases position_of_levelsAfter _ hne hread with hmem | hin
      · exact absurd hmem (by simp)
      · rw [Piece.textOf_split] at hin
        omega

/-- A text with a segment that is left as it stands has no tokens. -/
theorem exists_fault_of_leavesSegment {text : String} (h : LeavesSegment text) :
    ∃ fault, ofText text = .error fault := by
  obtain ⟨front, behind, hsplit, hdeep⟩ := h
  cases hread : ofText text with
  | error fault => exact ⟨fault, rfl⟩
  | ok ts =>
      rw [ofText_eq, hsplit] at hread
      obtain ⟨l, hl, -⟩ := map_eq_ok_iff.1 hread
      have hle := nested_of_levelsAfter front behind (Nat.zero_le _) hl
      exact absurd hdeep (Nat.not_lt.2 hle)

/-- **STARS AND TOKENS AGREE ON EVERY TEXT.**  With its products written, a
text has the tokens that it had, with a product between any two terms side by
side; a fault is the same fault at the same character, which stands behind
just the stars that were written before it; and no text of which a segment was
left as it stands, for its depth, has tokens at all. -/
theorem ofText_explicitProducts (text : String) :
    (∀ ts, ofText text = .ok ts →
      ofText (explicitProducts text) = .ok (explicitAll false ts)) ∧
    (∀ fault, ofText text = .error fault → fault.position < text.toList.length ∧
      ofText (explicitProducts text) = .error (fault.moved fun n => n + starsBefore text n)) ∧
    (∀ n < text.toList.length,
      (explicitProducts text).toList[n + starsBefore text n]? = text.toList[n]? ∧
      ((explicitProducts text).toList.take (n + starsBefore text n)).count '*' =
        (text.toList.take n).count '*' + starsBefore text n) ∧
    (LeavesSegment text → ∃ fault fault', ofText text = .error fault ∧
      ofText (explicitProducts text) = .error fault') := by
  refine ⟨?_, ?_, ?_, ?_⟩
  · intro ts h
    rw [ofText_explicit, h]
  · intro fault h
    refine ⟨position_lt_of_ofText h, ?_⟩
    rw [ofText_explicit, h]
    rfl
  · intro n hn
    rw [← Piece.textOf_split text.toList] at hn
    have hchar := Piece.getElem?_starsBefore _ 0 .nothing n hn
    have hcount := Piece.count_starsBefore _ 0 .nothing n hn
    rw [Piece.textOf_split] at hchar hcount
    rw [explicitProducts, String.toList_ofList]
    exact ⟨hchar, hcount⟩
  · intro h
    obtain ⟨fault, hfault⟩ := exists_fault_of_leavesSegment h
    exact ⟨fault, fault.moved (placeWithStars text), hfault, by rw [ofText_explicit, hfault]⟩

end Token

end FormulaDesk
