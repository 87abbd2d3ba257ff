/-
  FormulaDesk.Proofs.Levels
  ──────────────────────────────────────
  **READING PIECES ONE AT A TIME.**

  The reader of tokens takes a function name and the parenthesis that it
  touches in one go.  Here it takes every piece by itself: a function name
  that touches a parenthesis adds nothing, and the parenthesis behind it is
  told which function calls it.  So a step of the reader is the same for every
  piece: the piece is a fault, or the levels behind it are read and the piece
  acts on them.

    • `Token.levelsAfter_cons` — one step;
    • `Token.levelsAfter_none` — without a function before them the pieces are
      read as `Token.levels` reads them;
    • `Token.nested_of_levelsAfter` — what is read never nests deeper than
      `maxNesting`.
-/
import FormulaDesk.Product
import FormulaDesk.Proofs.Outcome
import FormulaDesk.Token

namespace FormulaDesk

/-- The place that a fault names. -/
def TextFault.position : TextFault → Nat
  | .unsupportedCharacter _ position => position
  | .unexpectedClosing position => position
  | .unclosed position => position
  | .incompleteToken _ position => position
  | .nestingTooDeep position => position

/-! ## §1. What a piece does. -/

namespace Piece

/-- The function that a name calls: its own, when a parenthesis opens right
behind it. -/
def callee? : Piece → List Piece → Option Func
  | .lexeme (.name letters), .opening :: _ => Func.ofName? (.ofList letters)
  | _, _ => none

/-- The fault of a piece at a place, with the parentheses open there. -/
def fault? (position : Nat) (opened : List Nat) : Piece → Option TextFault
  | .stray c => some (.unsupportedCharacter c position)
  | .closing => if opened = [] then some (.unexpectedClosing position) else none
  | .opening => if maxNesting ≤ opened.length then some (.nestingTooDeep position) else none
  | .lexeme l =>
    if l.complete then none else some (.incompleteToken (.ofList l.text) position)
  | .blank _ => none

/-- The places of the parentheses that are open behind a piece. -/
def opens (position : Nat) (opened : List Nat) : Piece → List Nat
  | .opening => position :: opened
  | .closing => opened.tail
  | _ => opened

/-- What a piece adds to the levels behind it; `callee` is the function that
calls it, `behind` are the pieces behind it. -/
def act (callee : Option Func) (behind : List Piece) : Piece → Token.Levels → Token.Levels
  | .closing, levels => levels.close
  | .opening, levels => levels.wrap (callee.elim .group .call)
  | .lexeme (.operator op), levels => levels.push (.operator op)
  | .lexeme l, levels =>
    if (callee? (.lexeme l) behind).isSome then levels
    else levels.push (.terminal (.ofList l.text))
  | _, levels => levels

/-- The function that a piece names. -/
def function? : Piece → Option Func
  | .lexeme (.name letters) => Func.ofName? (.ofList letters)
  | _ => none

theorem eq_name_of_function? {p : Piece} {f : Func} (h : p.function? = some f) :
    p = .lexeme (.name f.name.toList) := by
  unfold function? at h
  split at h
  next letters => rw [← Func.ofName?_eq_some.1 h, String.toList_ofList]
  next => exact nomatch h

/-- A function is called when a parenthesis touches its name. -/
theorem callee?_eq (p : Piece) (ps : List Piece) :
    p.callee? ps = if ps.head? = some .opening then p.function? else none := by
  have hnone : ∀ q : Option Func, q = none →
      none = if ps.head? = some .opening then q else none := by
    intro q hq
    rw [hq, ite_self]
  cases p with
  | lexeme l =>
      cases l with
      | number whole fraction => exact hnone _ rfl
      | operator op => exact hnone _ rfl
      | name letters =>
          cases ps with
          | nil => rfl
          | cons q ps => cases q <;> rfl
  | blank c => exact hnone _ rfl
  | opening => exact hnone _ rfl
  | closing => exact hnone _ rfl
  | stray c => exact hnone _ rfl

/-- What comes later is not called, unless nothing is between. -/
theorem callee?_append {p : Piece} {ps rest : List Piece} (hrest : rest.head? ≠ some .opening) :
    p.callee? (ps ++ rest) = p.callee? ps := by
  rw [callee?_eq, callee?_eq]
  cases ps with
  | nil => simp [hrest]
  | cons q ps => rfl

theorem head?_of_callee? {p : Piece} {ps : List Piece} {f : Func}
    (h : p.callee? ps = some f) : ps.head? = some .opening := by
  unfold callee? at h
  split at h
  next => rfl
  next => exact nomatch h

theorem act_congr {p : Piece} {ps qs : List Piece} (h : p.callee? ps = p.callee? qs)
    (callee : Option Func) : p.act callee ps = p.act callee qs := by
  cases p with
  | lexeme l =>
      cases l with
      | name letters => funext levels; simp only [act, h]
      | number whole fraction => rfl
      | operator op => rfl
  | blank c => rfl
  | opening => rfl
  | closing => rfl
  | stray c => rfl

/-- Behind a piece no parenthesis is open but those before it and itself. -/
theorem mem_opens {p : Piece} {position n : Nat} {opened : List Nat}
    (h : n ∈ p.opens position opened) : n ∈ opened ∨ n = position := by
  cases p with
  | opening => exact (List.mem_cons.1 h).symm
  | closing => exact .inl (List.mem_of_mem_tail h)
  | blank c => exact .inl h
  | lexeme l => exact .inl h
  | stray c => exact .inl h

theorem length_opens (p : Piece) (position : Nat) (opened : List Nat) :
    (p.opens position opened).length = p.openedAfter opened.length := by
  cases p <;> simp [opens, openedAfter]

end Piece

namespace Token

/-! ## §2. One step. -/

/-- The levels at a place where a function may be waiting for the parenthesis
that it calls. -/
def levelsAfter (callee : Option Func) (position : Nat) (opened : List Nat) :
    List Piece → Except TextFault Levels
  | .opening :: ps =>
    if maxNesting ≤ opened.length then .error (.nestingTooDeep position)
    else
      (levels (position + 1) (position :: opened) ps).map
        (.wrap (callee.elim .group .call))
  | ps => levels position opened ps

/-- **Without a function that waits, the pieces are read as they stand.** -/
theorem levelsAfter_none (position : Nat) (opened : List Nat) (ps : List Piece) :
    levelsAfter none position opened ps = levels position opened ps := by
  cases ps with
  | nil => rfl
  | cons p ps =>
      cases p with
      | opening => rw [levelsAfter, levels]; rfl
      | blank c => rfl
      | closing => rfl
      | lexeme l => rfl
      | stray c => rfl

/-- At the end of a text the parenthesis that was opened last is the fault. -/
theorem levelsAfter_nil (callee : Option Func) (position : Nat) (opened : List Nat) :
    levelsAfter callee position opened [] =
      match opened with
      | [] => .ok ⟨[], []⟩
      | place :: _ => .error (.unclosed place) := by
  cases opened <;> rfl

/-- A function waits only for a parenthesis. -/
theorem levelsAfter_of_head {ps : List Piece} (h : ps.head? ≠ some .opening)
    (callee : Option Func) (position : Nat) (opened : List Nat) :
    levelsAfter callee position opened ps = levels position opened ps := by
  cases ps with
  | nil => rfl
  | cons p ps =>
      cases p with
      | opening => exact absurd rfl h
      | blank c => rfl
      | closing => rfl
      | lexeme l => rfl
      | stray c => rfl

/-- A name is a terminal, unless it calls what is behind it. -/
theorem levels_name (position : Nat) (opened : List Nat) (letters : List Char)
    (ps : List Piece) :
    levels position opened (.lexeme (.name letters) :: ps) =
      (levelsAfter (Piece.callee? (.lexeme (.name letters)) ps)
        (position + letters.length) opened ps).map
          (Piece.act none ps (.lexeme (.name letters))) := by
  have terminal : Piece.callee? (.lexeme (.name letters)) ps = none →
      levels position opened (.lexeme (.name letters) :: ps) =
        (levels (position + letters.length) opened ps).map
          (.push (.terminal (.ofList letters))) := by
    intro h
    rw [levels]
    intro f body hf hps
    subst hps
    rw [Piece.callee?, hf] at h
    cases h
  -- Either the name calls nothing and is a terminal, or the parenthesis behind it waits for
  -- it and is taken in the same step.
  cases hcallee : Piece.callee? (.lexeme (.name letters)) ps with
  | none =>
      rw [terminal hcallee, levelsAfter_none]
      congr 1
      funext l
      simp [Piece.act, hcallee, Lexeme.text]
  | some f =>
      cases ps with
      | nil => cases hcallee
      | cons p body =>
          cases p with
          | opening =>
              have hf : Func.ofName? (.ofList letters) = some f := hcallee
              rw [levels.eq_def]
              simp only [hf]
              rw [levelsAfter]
              by_cases hdeep : maxNesting ≤ opened.length
              · rw [if_pos hdeep, if_pos hdeep]
                rfl
              · rw [if_neg hdeep, if_neg hdeep]
                show _ = ((levels _ _ body).map _).map _
                cases levels (position + letters.length + 1)
                  ((position + letters.length) :: opened) body with
                | error fault => rfl
                | ok l => simp [Except.map, Piece.act, hcallee]
          | blank c => cases hcallee
          | closing => cases hcallee
          | lexeme l => cases hcallee
          | stray c => cases hcallee

/-- **One step of the reader**: a piece is a fault, or it acts on the levels
behind it. -/
theorem levelsAfter_cons (callee : Option Func) (position : Nat) (opened : List Nat)
    (p : Piece) (ps : List Piece) :
    levelsAfter callee position opened (p :: ps) =
      match p.fault? position opened with
      | some fault => .error fault
      | none =>
        (levelsAfter (p.callee? ps) (position + p.text.length)
          (p.opens position opened) ps).map (p.act callee ps) := by
  cases p with
  | blank c =>
      show levels (position + 1) opened ps = (levelsAfter none (position + 1) opened ps).map id
      rw [levelsAfter_none]
      cases levels (position + 1) opened ps <;> rfl
  | opening =>
      rw [levelsAfter, Piece.fault?]
      by_cases hdeep : maxNesting ≤ opened.length
      · rw [if_pos hdeep, if_pos hdeep]
      · rw [if_neg hdeep, if_neg hdeep]
        show _ = (levelsAfter none _ _ ps).map _
        rw [levelsAfter_none]
        rfl
  | closing =>
      cases opened with
      | nil => rfl
      | cons place outer =>
          show (levels (position + 1) outer ps).map Levels.close =
            (levelsAfter none (position + 1) outer ps).map Levels.close
          rw [levelsAfter_none]
  | lexeme l =>
      cases l with
      | operator op =>
          show (levels (position + 1) opened ps).map _ =
            (levelsAfter none (position + 1) opened ps).map _
          rw [levelsAfter_none]
          rfl
      | number whole fraction =>
          show levels position opened (.lexeme (.number whole fraction) :: ps) = _
          rw [levels, Piece.fault?]
          by_cases hc : (Lexeme.number whole fraction).complete = true
          · rw [if_pos hc, if_pos hc]
            show _ = (levelsAfter none _ _ ps).map _
            rw [levelsAfter_none]
            rfl
          · rw [if_neg hc, if_neg hc]
      | name letters => exact levels_name position opened letters ps
  | stray c => rfl

theorem levelsAfter_cons_ok {callee : Option Func} {position : Nat} {opened : List Nat}
    {p : Piece} {ps : List Piece} {l : Levels} :
    levelsAfter callee position opened (p :: ps) = .ok l ↔
      p.fault? position opened = none ∧
        ∃ l', levelsAfter (p.callee? ps) (position + p.text.length)
          (p.opens position opened) ps = .ok l' ∧ p.act callee ps l' = l := by
  rw [levelsAfter_cons]
  cases hfault : p.fault? position opened with
  | none => simp [map_eq_ok_iff]
  | some fault => simp

/-- A function that waits makes a call of its parenthesis. -/
theorem exists_call_of_levelsAfter {f : Func} {position : Nat} {opened : List Nat}
    {ps : List Piece} {l : Levels} (hps : ps.head? = some .opening)
    (h : levelsAfter (some f) position opened ps = .ok l) :
    ∃ body ts, l.current = .call f body :: ts := by
  obtain ⟨rest, rfl⟩ := List.head?_eq_some_iff.1 hps
  obtain ⟨-, l', -, rfl⟩ := levelsAfter_cons_ok.1 h
  exact ⟨l'.current, l'.around.headD [], rfl⟩

/-! ## §3. How deep a text can nest. -/

/-- A piece that is no fault leaves at most `maxNesting` parentheses open. -/
theorem length_opens_le {p : Piece} {position : Nat} {opened : List Nat}
    (hfault : p.fault? position opened = none) (h : opened.length ≤ maxNesting) :
    (p.opens position opened).length ≤ maxNesting := by
  cases p with
  | opening =>
      -- An opening parenthesis that is no fault finds room for one more.
      have hlt : ¬ maxNesting ≤ opened.length := by
        intro hle
        rw [Piece.fault?, if_pos hle] at hfault
        exact nomatch hfault
      show opened.length + 1 ≤ maxNesting
      omega
  | closing =>
      show opened.tail.length ≤ maxNesting
      rw [List.length_tail]
      omega
  | blank c => exact h
  | lexeme l => exact h
  | stray c => exact h

/-- **What is read never nests too deep**: nowhere in it are more than
`maxNesting` parentheses open. -/
theorem nested_of_levelsAfter (before behind : List Piece) :
    ∀ {callee : Option Func} {position : Nat} {opened : List Nat} {l : Levels},
      opened.length ≤ maxNesting →
      levelsAfter callee position opened (before ++ behind) = .ok l →
      before.foldl (fun n p => p.openedAfter n) opened.length ≤ maxNesting := by
  induction before with
  | nil => intro _ _ _ _ hopened _; exact hopened
  | cons p before ih =>
      intro callee position opened l hopened h
      obtain ⟨hfault, l', hl', -⟩ := levelsAfter_cons_ok.1 h
      have hle := ih (length_opens_le hfault hopened) hl'
      rw [Piece.length_opens] at hle
      exact hle

/-! ## §4. Where a fault is. -/

/-- A fault of a piece is at its place. -/
theorem position_of_fault? {p : Piece} {position : Nat} {opened : List Nat} {fault : TextFault}
    (h : p.fault? position opened = some fault) : fault.position = position := by
  cases p with
  | blank c => exact nomatch h
  | stray c => obtain rfl := Option.some.inj h; rfl
  | opening =>
      rw [Piece.fault?] at h
      split at h
      next => obtain rfl := Option.some.inj h; rfl
      next => exact nomatch h
  | closing =>
      rw [Piece.fault?] at h
      split at h
      next => obtain rfl := Option.some.inj h; rfl
      next => exact nomatch h
  | lexeme l =>
      rw [Piece.fault?] at h
      split at h
      next => exact nomatch h
      next => obtain rfl := Option.some.inj h; rfl

/-- **A fault is at a parenthesis that is open, or within the pieces read.** -/
theorem position_of_levelsAfter (ps : List Piece) :
    ∀ {callee : Option Func} {position : Nat} {opened : List Nat} {fault : TextFault},
      (∀ p ∈ ps, p.text ≠ []) → levelsAfter callee position opened ps = .error fault →
      fault.position ∈ opened ∨
        position ≤ fault.position ∧ fault.position < position + (Piece.textOf ps).length := by
  induction ps with
  | nil =>
      intro callee position opened fault _ h
      rw [levelsAfter_nil] at h
      cases opened with
      | nil => exact nomatch h
      | cons place outer =>
          obtain rfl := Except.error.inj h
          exact .inl (List.mem_cons_self ..)
  | cons p ps ih =>
      intro callee position opened fault hne h
      have hp : 0 < p.text.length := List.length_pos_iff.2 (hne p (List.mem_cons_self ..))
      rw [Piece.textOf_cons, List.length_append]
      rw [levelsAfter_cons] at h
      cases hfault : p.fault? position opened with
      | some fault' =>
          rw [hfault] at h
          obtain rfl := Except.error.inj h
          rw [position_of_fault? hfault]
          exact .inr ⟨Nat.le_refl _, by omega⟩
      | none =>
          rw [hfault] at h
          cases hrest : levelsAfter (p.callee? ps) (position + p.text.length)
              (p.opens position opened) ps with
          | ok l =>
              rw [hrest] at h
              exact nomatch h
          | error fault' =>
              rw [hrest] at h
              obtain rfl := Except.error.inj h
              -- The fault is further right, or at a parenthesis that was open before the piece
              -- or is the piece itself.
              rcases ih (fun q hq => hne q (List.mem_cons_of_mem p hq)) hrest with hmem | hin
              · rcases Piece.mem_opens hmem with hmem | heq
                · exact .inl hmem
                · exact .inr ⟨Nat.le_of_eq heq.symm, by omega⟩
              · exact .inr ⟨by omega, by omega⟩

end Token

end FormulaDesk
