/-
  FormulaDesk.Proofs.Respacing
  ──────────────────────────────────────
  **BLANKS BETWEEN LEXEMES.**

  A blank parts two lexemes, and parts a function from its parenthesis.  Where
  blanks already stand, others do the same; and where nothing can be parted
  (at an end of the text, beside an operator, behind an opening parenthesis,
  on either side of a closing one) they may come and go.  What a text compiles
  to stays the same, and so does its fault, but for its place.

    • `Token.alike_append` — what is read behind the same pieces;
    • `partsAt_of_mayPart` — no piece reaches across a place for blanks;
    • `BlankEdit.outcome_eq` — one edit;
    • `outcome_respaced` — any number of them.
-/
import Mathlib.Logic.Relation
import FormulaDesk.Proofs.Compiled
import FormulaDesk.Proofs.Ends

namespace FormulaDesk

open FormulaDesk.Text (isBlank)

/-! ## §1. Faults without their places. -/

/-- A fault of a text without its place. -/
def TextFault.placeless (fault : TextFault) : TextFault := fault.moved fun _ => 0

theorem TextFault.placeless_moved (fault : TextFault) (place : Nat → Nat) :
    (fault.moved place).placeless = fault.placeless := by
  cases fault <;> rfl

/-- A fault without its place, if it has one. -/
def Fault.placeless : Fault → Fault
  | .text fault => .text fault.placeless
  | .formula fault => .formula fault
  | .sequence fault => .sequence fault

/-- What a text compiles to: its sequence, or its fault without a place. -/
def outcome (text : String) : Except Fault (List String) :=
  ((compile text).map (·.sequence)).mapError Fault.placeless

/-- **Only the tokens of a text count**, and its fault without a place. -/
theorem outcome_eq (text : String) :
    outcome text =
      (Token.ofText text).mapError (fun fault => Fault.text fault.placeless) >>= fun ts =>
        (Fault.lift .formula (Formula.ofTokens (Token.explicitAll false ts))).map (·.sequence) := by
  rw [Token.ofText_trim]
  by_cases hblank : Text.trim text.toList = []
  · -- A blank text has no tokens, and no tokens are no formula.
    have htokens : Token.ofText (.ofList []) = .ok [] := by
      rw [Token.ofText_eq, String.toList_ofList, Piece.split, Token.levelsAfter_nil]
      rfl
    rw [outcome, compile, if_pos hblank, hblank, htokens]
    rfl
  · rw [outcome, compile_eq hblank, Token.ofText_explicit]
    cases Token.ofText (.ofList (Text.trim text.toList)) with
    | error fault =>
        show Except.error (Fault.text _) = Except.error (Fault.text _)
        rw [TextFault.placeless_moved, TextFault.placeless_moved]
    | ok ts =>
        show ((Fault.lift Fault.formula (Formula.ofTokens _) >>= _).map _).mapError _ =
          (Fault.lift Fault.formula (Formula.ofTokens _)).map _
        cases Formula.ofTokens (Token.explicitAll false ts) <;> rfl

namespace Token

/-! ## §2. Reading the same pieces at other places. -/

/-- The same levels, or the same fault at maybe another place. -/
def Alike (result result' : Except TextFault Levels) : Prop :=
  result.mapError TextFault.placeless = result'.mapError TextFault.placeless

theorem Alike.map {result result' : Except TextFault Levels} (h : Alike result result')
    (f : Levels → Levels) : Alike (result.map f) (result'.map f) := by
  have hmap : ∀ result : Except TextFault Levels,
      (result.map f).mapError TextFault.placeless =
        (result.mapError TextFault.placeless).map f := by
    intro result
    cases result <;> rfl
  rw [Alike, hmap, hmap, show result.mapError _ = _ from h]

/-- What is read alike has the same innermost list. -/
theorem Alike.current {result result' : Except TextFault Levels} (h : Alike result result') :
    (result.map (·.current)).mapError (fun fault => Fault.text fault.placeless) =
      (result'.map (·.current)).mapError (fun fault => Fault.text fault.placeless) := by
  have hmap : ∀ result : Except TextFault Levels,
      (result.map (·.current)).mapError (fun fault => Fault.text fault.placeless) =
        ((result.mapError TextFault.placeless).map (·.current)).mapError Fault.text := by
    intro result
    cases result <;> rfl
  rw [hmap, hmap, show result.mapError _ = _ from h]

/-- Which fault a piece is only hangs on how many parentheses are open. -/
theorem fault?_placeless (p : Piece) (position position' : Nat) {opened opened' : List Nat}
    (h : opened.length = opened'.length) :
    (p.fault? position opened).map TextFault.placeless =
      (p.fault? position' opened').map TextFault.placeless := by
  have hopened : opened.map (fun _ => 0) = opened'.map (fun _ => 0) := by
    rw [List.map_const', List.map_const', h]
  have hmoved := fault?_moved (fun _ => 0) p position opened
  rw [hopened, fault?_moved (fun _ => 0) p position' opened'] at hmoved
  exact hmoved.symm

/-- **One piece before what is read alike.** -/
theorem Alike.cons (p : Piece) {ps ps' : List Piece} (hcallee : p.callee? ps = p.callee? ps')
    (callee : Option Func) {position position' : Nat} {opened opened' : List Nat}
    (hopened : opened.length = opened'.length)
    (h : Alike
      (levelsAfter (p.callee? ps) (position + p.text.length) (p.opens position opened) ps)
      (levelsAfter (p.callee? ps') (position' + p.text.length) (p.opens position' opened') ps')) :
    Alike (levelsAfter callee position opened (p :: ps))
      (levelsAfter callee position' opened' (p :: ps')) := by
  have hfault := fault?_placeless p position position' hopened
  rw [levelsAfter_cons, levelsAfter_cons, Piece.act_congr hcallee]
  cases hleft : p.fault? position opened with
  | none =>
      rw [hleft] at hfault
      rw [Option.map_eq_none_iff.1 hfault.symm]
      exact h.map _
  | some fault =>
      rw [hleft] at hfault
      obtain ⟨fault', hright, heq⟩ := Option.map_eq_some_iff.1 hfault.symm
      rw [hright]
      exact congrArg Except.error heq.symm

theorem length_opens_congr (p : Piece) (position position' : Nat) {opened opened' : List Nat}
    (h : opened.length = opened'.length) :
    (p.opens position opened).length = (p.opens position' opened').length := by
  rw [Piece.length_opens, Piece.length_opens, h]

/-- **The same pieces are read alike at all places** with as many open
parentheses. -/
theorem alike_of_length (ps : List Piece) :
    ∀ (callee : Option Func) (position position' : Nat) {opened opened' : List Nat},
      opened.length = opened'.length →
      Alike (levelsAfter callee position opened ps) (levelsAfter callee position' opened' ps) := by
  induction ps with
  | nil =>
      intro callee position position' opened opened' h
      rw [levelsAfter_nil, levelsAfter_nil]
      cases opened with
      | nil =>
          obtain rfl := List.length_eq_zero_iff.1 h.symm
          rfl
      | cons place outer =>
          cases opened' with
          | nil => exact nomatch h
          | cons place' outer' => rfl
  | cons p ps ih =>
      intro callee position position' opened opened' h
      exact Alike.cons p rfl callee h (ih _ _ _ (length_opens_congr p position position' h))

/-- **What is read behind the same pieces**, when the last of them calls
nothing. -/
theorem alike_append {back back' : List Piece}
    (hback : ∀ (position position' : Nat) {opened opened' : List Nat},
      opened.length = opened'.length →
      Alike (levelsAfter none position opened back) (levelsAfter none position' opened' back'))
    (front : List Piece) :
    ∀ (callee : Option Func) (position position' : Nat) {opened opened' : List Nat},
      opened.length = opened'.length → (front = [] → callee = none) →
      (∀ p, front.getLast? = some p → p.callee? back = none ∧ p.callee? back' = none) →
      Alike (levelsAfter callee position opened (front ++ back))
        (levelsAfter callee position' opened' (front ++ back')) := by
  induction front with
  | nil =>
      intro callee position position' opened opened' h hnone _
      rw [hnone rfl]
      exact hback position position' h
  | cons p front ih =>
      intro callee position position' opened opened' h _ hlast
      -- Only behind the last piece the two lists differ, and that one calls neither.
      have hnone : front = [] →
          p.callee? (front ++ back) = none ∧ p.callee? (front ++ back') = none := by
        intro hnil
        subst hnil
        exact hlast p rfl
      have hcallee : p.callee? (front ++ back) = p.callee? (front ++ back') := by
        cases front with
        | nil => rw [(hnone rfl).1, (hnone rfl).2]
        | cons q front => rw [Piece.callee?_eq, Piece.callee?_eq]; rfl
      refine Alike.cons p hcallee callee h ?_
      rw [← hcallee]
      refine ih _ _ _ (length_opens_congr p position position' h) (fun hnil => (hnone hnil).1) ?_
      intro q hq
      refine hlast q ?_
      cases front with
      | nil => exact nomatch hq
      | cons r front => exact hq

end Token

/-! ## §3. Where blanks come and go. -/

/-- A place where blanks may come and go. -/
inductive MayPart : List Char → List Char → Prop where
  | atStart (behind : List Char) : MayPart [] behind
  | atEnd (front : List Char) : MayPart front []
  | beforeOperator (front : List Char) (op : Operator) (behind : List Char) :
      MayPart front (op.symbol :: behind)
  | behindOperator (front : List Char) (op : Operator) (behind : List Char) :
      MayPart (front ++ [op.symbol]) behind
  | behindOpening (front behind : List Char) : MayPart (front ++ ['(']) behind
  | beforeClosing (front behind : List Char) : MayPart front (')' :: behind)
  | behindClosing (front behind : List Char) : MayPart (front ++ [')']) behind

/-- An edit of the blanks of a text: some become others, or they come or go
where they may. -/
inductive BlankEdit : List Char → List Char → Prop where
  | change (front : List Char) {blanks blanks' : List Char} (behind : List Char)
      (blank : blanks.all isBlank = true) (blank' : blanks'.all isBlank = true)
      (present : blanks ≠ []) (present' : blanks' ≠ []) :
      BlankEdit (front ++ (blanks ++ behind)) (front ++ (blanks' ++ behind))
  | add {front blanks behind : List Char} (place : MayPart front behind)
      (blank : blanks.all isBlank = true) :
      BlankEdit (front ++ behind) (front ++ (blanks ++ behind))
  | remove {front blanks behind : List Char} (place : MayPart front behind)
      (blank : blanks.all isBlank = true) :
      BlankEdit (front ++ (blanks ++ behind)) (front ++ behind)

/-- The last piece of a text neither goes on in what is behind the text nor
calls it. -/
def PartsAt (front behind : List Char) : Prop :=
  ∀ p, (Piece.split front).getLast? = some p →
    p.EndsAt behind ∧ p.callee? (Piece.split behind) = none

/-- A text that begins afresh and with no parenthesis. -/
theorem partsAt_of_fresh (front : List Char) {behind : List Char} (hfresh : Piece.Fresh behind)
    (hhead : behind.head? ≠ some '(') : PartsAt front behind := by
  intro p _
  exact ⟨hfresh.endsAt p, by rw [Piece.callee?_eq, if_neg (Piece.head?_split hhead)]⟩

/-- A text whose last character is of no number and of no name. -/
theorem partsAt_of_last (front behind : List Char) {c : Char} (hc : isNameChar c = false)
    (hpoint : c ≠ '.') : PartsAt (front ++ [c]) behind := by
  intro p hp
  obtain ⟨ps, hps⟩ := List.getLast?_eq_some_iff.1 hp
  have hproper : p.Proper := by
    have hparted := Piece.parted_split (front ++ [c])
    rw [hps] at hparted
    exact hparted.right.1
  have hlast : p.text.getLast? = some c := by
    rw [← Piece.getLast?_textOf_concat hproper ps, ← hps, Piece.textOf_split]
    exact List.getLast?_concat ..
  have hmem := List.mem_of_getLast? hlast
  cases p with
  | blank b => exact ⟨trivial, rfl⟩
  | opening => exact ⟨trivial, rfl⟩
  | closing => exact ⟨trivial, rfl⟩
  | stray d => exact ⟨trivial, rfl⟩
  | lexeme l =>
      cases l with
      | operator op => exact ⟨fun _ _ => rfl, rfl⟩
      | name letters =>
          rw [Lexeme.isNameChar_of_mem hproper hmem] at hc
          exact nomatch hc
      | number whole fraction =>
          rcases Lexeme.of_mem_number hproper hmem with hdigit | hdot
          · rw [isNameChar_iff.2 (.inr hdigit)] at hc
            exact nomatch hc
          · exact absurd hdot hpoint

/-- **No piece reaches across a place for blanks.** -/
theorem partsAt_of_mayPart {front behind : List Char} (h : MayPart front behind) :
    PartsAt front behind := by
  cases h with
  | atStart =>
      intro p hp
      rw [Piece.split] at hp
      cases hp
  | atEnd => exact partsAt_of_fresh front (Piece.fresh_of_blanks List.all_nil) (by simp)
  | beforeOperator _ op behind =>
      exact partsAt_of_fresh front (Piece.fresh_symbol op behind)
        (by cases op <;> simp [Operator.symbol])
  | behindOperator front op =>
      exact partsAt_of_last front behind (isNameChar_symbol op) (by cases op <;> decide)
  | behindOpening front => exact partsAt_of_last front behind rfl (by decide)
  | beforeClosing _ behind =>
      exact partsAt_of_fresh front (Piece.fresh_cons rfl (by decide) behind) (by simp)
  | behindClosing front => exact partsAt_of_last front behind rfl (by decide)

/-- A blank parts whatever is before it from whatever is behind it. -/
theorem partsAt_blanks (front : List Char) {blanks : List Char} (hne : blanks ≠ [])
    (hblank : blanks.all isBlank = true) (behind : List Char) :
    PartsAt front (blanks ++ behind) := by
  cases blanks with
  | nil => exact absurd rfl hne
  | cons b blanks =>
      have hb : isBlank b = true := (Bool.and_eq_true_iff.1 (List.all_cons ▸ hblank)).1
      refine partsAt_of_fresh front (Piece.fresh_blank hb _) ?_
      intro heq
      rw [Option.some.inj heq] at hb
      exact nomatch hb

/-- Blanks where they may come and go, or none. -/
theorem partsAt_of_place {front behind : List Char} (h : MayPart front behind)
    {blanks : List Char} (hblank : blanks.all isBlank = true) :
    PartsAt front (blanks ++ behind) := by
  by_cases hne : blanks = []
  · rw [hne]
    exact partsAt_of_mayPart h
  · exact partsAt_blanks front hne hblank behind

/-! ## §4. Edits of blanks. -/

/-- **Blanks in one place of a text for others**, each of which part it there. -/
theorem outcome_blanks {front blanks blanks' behind : List Char}
    (hblank : blanks.all isBlank = true) (hblank' : blanks'.all isBlank = true)
    (h : PartsAt front (blanks ++ behind)) (h' : PartsAt front (blanks' ++ behind)) :
    outcome (.ofList (front ++ (blanks' ++ behind))) =
      outcome (.ofList (front ++ (blanks ++ behind))) := by
  have hsplit : ∀ {bs : List Char}, bs.all isBlank = true → PartsAt front (bs ++ behind) →
      Piece.split (front ++ (bs ++ behind)) =
        Piece.split front ++ (bs.map .blank ++ Piece.split behind) := by
    intro bs hbs hparts
    rw [Piece.split_append_of_endsAt fun p hp => (hparts p hp).1, Piece.split_blanks hbs]
  have hread : Token.Alike
      (Token.levelsAfter none 0 []
        (Piece.split front ++ (blanks'.map .blank ++ Piece.split behind)))
      (Token.levelsAfter none 0 []
        (Piece.split front ++ (blanks.map .blank ++ Piece.split behind))) := by
    refine Token.alike_append ?_ (Piece.split front) none 0 0 rfl (fun _ => rfl) ?_
    · intro position position' opened opened' hlength
      rw [Token.levelsAfter_blanks, Token.levelsAfter_blanks]
      exact Token.alike_of_length _ none _ _ hlength
    · intro p hp
      rw [← Piece.split_blanks hblank, ← Piece.split_blanks hblank']
      exact ⟨(h' p hp).2, (h p hp).2⟩
  rw [outcome_eq, outcome_eq, Token.ofText_eq, Token.ofText_eq, String.toList_ofList,
    String.toList_ofList, hsplit hblank h, hsplit hblank' h', hread.current]

/-- **An edit of blanks changes nothing but places.** -/
theorem BlankEdit.outcome_eq {cs ds : List Char} (h : BlankEdit cs ds) :
    outcome (.ofList ds) = outcome (.ofList cs) := by
  have hnil : ([] : List Char).all isBlank = true := rfl
  cases h with
  | change front behind blank blank' present present' =>
      exact outcome_blanks blank blank' (partsAt_blanks front present blank behind)
        (partsAt_blanks front present' blank' behind)
  | @add front blanks behind place blank =>
      have hadd := outcome_blanks hnil blank (partsAt_of_place place hnil)
        (partsAt_of_place place blank)
      rwa [List.nil_append] at hadd
  | @remove front blanks behind place blank =>
      have hremove := outcome_blanks blank hnil (partsAt_of_place place blank)
        (partsAt_of_place place hnil)
      rwa [List.nil_append] at hremove

/-- **BLANKS BETWEEN LEXEMES DO NOT COUNT.**  Texts that differ by edits of
blanks alone, any number of them, compile to the same sequence or have the same
fault, but for its place. -/
theorem outcome_respaced {text text' : String}
    (h : Relation.ReflTransGen BlankEdit text.toList text'.toList) :
    outcome text' = outcome text := by
  have hrun : ∀ ds, Relation.ReflTransGen BlankEdit text.toList ds →
      outcome (.ofList ds) = outcome text := by
    intro ds hds
    induction hds with
    | refl => rw [String.ofList_toList]
    | tail _ hedit ih => rw [hedit.outcome_eq, ih]
  have hlast := hrun text'.toList h
  rwa [String.ofList_toList] at hlast

/-- A product with and without blanks, and a parenthesis that stays open. -/
theorem outcome_respaced_product :
    outcome "2 *( x)" = .ok ["*", "2", "x"] ∧ outcome "2*(x)" = outcome "2 *( x)" ∧
      outcome "(2 x" = .error (.text (.unclosed 0)) ∧ outcome " (2\tx" = outcome "(2 x" := by
  -- One blank goes from before the operator, one from behind the parenthesis.
  have hbefore : BlankEdit "2 *( x)".toList "2*( x)".toList :=
    @BlankEdit.remove ['2'] [' '] ['*', '(', ' ', 'x', ')']
      (.beforeOperator ['2'] .mul ['(', ' ', 'x', ')']) rfl
  have hbehind : BlankEdit "2*( x)".toList "2*(x)".toList :=
    @BlankEdit.remove ['2', '*', '('] [' '] ['x', ')']
      (.behindOpening ['2', '*'] ['x', ')']) rfl
  have hproduct : Relation.ReflTransGen BlankEdit "2 *( x)".toList "2*(x)".toList :=
    .tail (.single hbefore) hbehind
  -- A blank becomes another one, and one comes in front.
  have hchange : BlankEdit "(2 x".toList "(2\tx".toList :=
    @BlankEdit.change ['(', '2'] [' '] ['\t'] ['x'] rfl rfl (by simp) (by simp)
  have hfront : BlankEdit "(2\tx".toList " (2\tx".toList :=
    @BlankEdit.add [] [' '] ['(', '2', '\t', 'x'] (.atStart _) rfl
  have hopen : Relation.ReflTransGen BlankEdit "(2 x".toList " (2\tx".toList :=
    .tail (.single hchange) hfront
  have htokens : Token.ofText "2 *( x)" =
      .ok [.terminal "2", .operator .mul, .group [.terminal "x"]] := by cbv
  have hfault : Token.ofText "(2 x" = .error (.unclosed 0) := by cbv
  refine ⟨?_, outcome_respaced hproduct, ?_, outcome_respaced hopen⟩
  · rw [outcome_eq, htokens]
    rfl
  · rw [outcome_eq, hfault]
    rfl

end FormulaDesk
