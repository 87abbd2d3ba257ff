/-
  FormulaDesk.Proofs.Leftmost
  ──────────────────────────────────────
  **THE FAULT OF A TEXT IS ITS LEFTMOST ONE.**

  Four things are faults where they stand: a character that begins no lexeme,
  a number that stops at its point, a parenthesis that closes nothing, and
  one that opens within `maxNesting` others.  The leftmost of them is the
  fault of the text, and the text before it has none of its own but a
  parenthesis that it leaves open.  Only a text without such faults is asked
  whether it leaves a parenthesis open, and then the last one is named.

    • `Token.ofText_leftmost` — the tokens of a text, or its fault.
-/
import FormulaDesk.Proofs.Scanner

namespace FormulaDesk

/-! ## §1. Faults where they stand. -/

namespace Piece

/-- How many parentheses are open behind some pieces of a text. -/
def depth (front : List Piece) : Nat := front.foldl (fun n p => p.openedAfter n) 0

/-- A piece is a fault at a place of a text with that many parentheses open. -/
inductive Faulty (place opened : Nat) : Piece → TextFault → Prop where
  | stray (c : Char) : Faulty place opened (.stray c) (.unsupportedCharacter c place)
  | incomplete (l : Lexeme) (h : l.complete = false) :
      Faulty place opened (.lexeme l) (.incompleteToken (.ofList l.text) place)
  | closing (h : opened = 0) : Faulty place opened .closing (.unexpectedClosing place)
  | opening (h : maxNesting ≤ opened) : Faulty place opened .opening (.nestingTooDeep place)

theorem Faulty.position_eq {place opened : Nat} {p : Piece} {fault : TextFault}
    (h : p.Faulty place opened fault) : fault.position = place := by
  cases h <;> rfl

theorem Faulty.unique {place opened : Nat} {p : Piece} {fault other : TextFault}
    (h : p.Faulty place opened fault) (h' : p.Faulty place opened other) : other = fault := by
  cases h <;> cases h' <;> rfl

theorem fault?_eq_some_iff {position : Nat} {opened : List Nat} {p : Piece}
    {fault : TextFault} :
    p.fault? position opened = some fault ↔ p.Faulty position opened.length fault := by
  constructor
  · intro h
    cases p with
    | blank c => cases h
    | stray c => obtain rfl := Option.some.inj h; exact .stray c
    | opening =>
        rw [fault?] at h
        split at h
        next hdeep => obtain rfl := Option.some.inj h; exact .opening hdeep
        next => cases h
    | closing =>
        rw [fault?] at h
        split at h
        next hnone =>
          obtain rfl := Option.some.inj h
          exact .closing (List.length_eq_zero_iff.2 hnone)
        next => cases h
    | lexeme l =>
        rw [fault?] at h
        split at h
        next => cases h
        next hc => obtain rfl := Option.some.inj h; exact .incomplete l (by simpa using hc)
  · intro h
    cases h with
    | stray c => rfl
    | incomplete l hc => rw [fault?, if_neg (by simp [hc])]
    | closing hnone => rw [fault?, if_pos (List.length_eq_zero_iff.1 hnone)]
    | opening hdeep => rw [fault?, if_pos hdeep]

/-- The scanner meets a fault where it stands. -/
theorem fault?_readAll_iff {front : List Piece} {p : Piece} {fault : TextFault} :
    p.fault? (Scanner.start.readAll front).position (Scanner.start.readAll front).places =
        some fault ↔
      p.Faulty (textOf front).length (depth front) fault := by
  rw [fault?_eq_some_iff, Scanner.position_readAll, Scanner.length_places_readAll]
  show p.Faulty (0 + _) _ fault ↔ _
  rw [Nat.zero_add]
  exact Iff.rfl

end Piece

namespace Token

/-- A piece of a text is a fault where it stands. -/
def FaultIn (text : String) (fault : TextFault) : Prop :=
  ∃ front p behind, Piece.split text.toList = front ++ p :: behind ∧
    p.Faulty (Piece.textOf front).length (Piece.depth front) fault

/-- The fault of a text that stands before all others. -/
def LeftmostFault (text : String) (fault : TextFault) : Prop :=
  FaultIn text fault ∧
    ∀ other, FaultIn text other → other = fault ∨ fault.position < other.position

/-- A parenthesis that opens at a place of a text and is never closed. -/
def UnclosedAt (text : String) (place : Nat) : Prop :=
  ∃ front behind, Piece.split text.toList = front ++ .opening :: behind ∧
    place = (Piece.textOf front).length ∧ Piece.StaysOpen behind

/-- The text before a place. -/
def textBefore (text : String) (place : Nat) : String := .ofList (text.toList.take place)

/-! ## §2. The leftmost fault. -/

theorem not_faulty_of_clean {front behind : List Piece} {p : Piece}
    (h : Scanner.start.Clean (front ++ p :: behind)) (fault : TextFault) :
    ¬ p.Faulty (Piece.textOf front).length (Piece.depth front) fault := by
  intro hfault
  obtain ⟨-, hnone, -⟩ := (Scanner.clean_append _ _ _).1 h
  rw [Piece.fault?_readAll_iff.2 hfault] at hnone
  exact nomatch hnone

/-- **No piece is a fault** exactly when the scanner meets none. -/
theorem clean_iff (text : String) :
    Scanner.start.Clean (Piece.split text.toList) ↔ ∀ fault, ¬ FaultIn text fault := by
  constructor
  · intro h fault hin
    obtain ⟨front, p, behind, hsplit, hfault⟩ := hin
    rw [hsplit] at h
    exact not_faulty_of_clean h fault hfault
  · intro h
    rcases Scanner.exists_fault (Piece.split text.toList) .start with
      hclean | ⟨front, p, behind, fault, hsplit, -, hfault, -⟩
    · exact hclean
    · exact absurd ⟨front, p, behind, hsplit, Piece.fault?_readAll_iff.1 hfault⟩ (h fault)

/-- Of two places in a list of pieces one comes first, or they are the same. -/
theorem places_cases {front behind front' behind' : List Piece} {p q : Piece}
    (h : front ++ p :: behind = front' ++ q :: behind') :
    (front = front' ∧ p = q) ∨
      (∃ mid, front' = front ++ p :: mid ∧ behind = mid ++ q :: behind') ∨
      ∃ mid, front = front' ++ q :: mid := by
  rcases List.append_eq_append_iff.1 h with ⟨mid, rfl, hmid⟩ | ⟨mid, rfl, hmid⟩
  · cases mid with
    | nil => exact .inl ⟨(List.append_nil _).symm, (List.cons.inj hmid).1⟩
    | cons r mid =>
        obtain ⟨rfl, rfl⟩ := List.cons.inj hmid
        exact .inr (.inl ⟨mid, rfl, rfl⟩)
  · cases mid with
    | nil => exact .inl ⟨List.append_nil _, (List.cons.inj hmid).1.symm⟩
    | cons r mid =>
        obtain ⟨rfl, rfl⟩ := List.cons.inj hmid
        exact .inr (.inr ⟨mid, rfl⟩)

/-- **A fault behind clean pieces is the leftmost one.** -/
theorem leftmostFault_of_clean {text : String} {front behind : List Piece} {p : Piece}
    {fault : TextFault} (hsplit : Piece.split text.toList = front ++ p :: behind)
    (hclean : Scanner.start.Clean front)
    (hfault : p.Faulty (Piece.textOf front).length (Piece.depth front) fault) :
    LeftmostFault text fault := by
  refine ⟨⟨front, p, behind, hsplit, hfault⟩, ?_⟩
  intro other hin
  obtain ⟨front', q, behind', hsplit', hother⟩ := hin
  rcases places_cases (hsplit.symm.trans hsplit') with
    ⟨rfl, rfl⟩ | ⟨mid, rfl, -⟩ | ⟨mid, rfl⟩
  · exact .inl (hfault.unique hother)
  · -- The other fault stands further right, since the first one has a character.
    have hp : p.text ≠ [] :=
      Piece.text_ne_nil_of_parted (Piece.parted_split text.toList) p (by simp [hsplit])
    have hlength := List.length_pos_iff.2 hp
    right
    rw [hfault.position_eq, hother.position_eq, Piece.textOf_append, Piece.textOf_cons,
      List.length_append, List.length_append]
    omega
  · exact absurd hother (not_faulty_of_clean hclean other)

/-- The pieces before a place where one begins. -/
theorem split_textBefore {text : String} {front behind : List Piece}
    (hsplit : Piece.split text.toList = front ++ behind) :
    Piece.split (textBefore text (Piece.textOf front).length).toList = front := by
  have hparted := Piece.parted_split text.toList
  rw [hsplit] at hparted
  have htext : text.toList = Piece.textOf front ++ Piece.textOf behind := by
    rw [← Piece.textOf_append, ← hsplit, Piece.textOf_split]
  rw [textBefore, String.toList_ofList, htext, List.take_left]
  exact Piece.split_textOf hparted.left

/-- A text without faulty pieces has tokens, or it leaves a parenthesis
open. -/
theorem ofText_of_clean {text : String} (h : Scanner.start.Clean (Piece.split text.toList)) :
    (∃ ts, ofText text = .ok ts) ∨ ∃ place, ofText text = .error (.unclosed place) := by
  rw [Scanner.ofText_eq_scan, Scanner.scan_of_clean h]
  split
  next => exact .inl ⟨_, rfl⟩
  next place _ _ => exact .inr ⟨place, rfl⟩

/-! ## §3. The parenthesis that is left open. -/

/-- The stack holds the parentheses that are never closed. -/
theorem mem_places_iff (text : String) (place : Nat) :
    place ∈ (Scanner.start.readAll (Piece.split text.toList)).places ↔ UnclosedAt text place := by
  rw [List.mem_iff_getElem?]
  constructor
  · rintro ⟨i, hi⟩
    obtain ⟨front, behind, hsplit, hplace, hopen, -⟩ := (Scanner.getElem?_places _ _ i).1 hi
    exact ⟨front, behind, hsplit, hplace, hopen⟩
  · rintro ⟨front, behind, hsplit, hplace, hopen⟩
    have hle := hopen behind (List.prefix_refl behind)
    exact ⟨behind.count .opening - behind.count .closing, (Scanner.getElem?_places _ _ _).2
      ⟨front, behind, hsplit, hplace, hopen, by omega⟩⟩

/-- **The top of the stack is the last parenthesis** that is never closed. -/
theorem isGreatest_unclosed {text : String} {place : Nat} {outer : List Nat}
    (h : (Scanner.start.readAll (Piece.split text.toList)).places = place :: outer) :
    IsGreatest {n | UnclosedAt text n} place := by
  have htop : (Scanner.start.readAll (Piece.split text.toList)).places[0]? = some place := by
    rw [h]
    rfl
  obtain ⟨front, behind, hsplit, rfl, hopen, hcount⟩ := (Scanner.getElem?_places _ _ 0).1 htop
  refine ⟨⟨front, behind, hsplit, rfl, hopen⟩, ?_⟩
  intro other hother
  obtain ⟨front', behind', hsplit', rfl, hopen'⟩ := hother
  rcases places_cases (hsplit.symm.trans hsplit') with
    ⟨rfl, -⟩ | ⟨mid, rfl, rfl⟩ | ⟨mid, rfl⟩
  · exact Nat.le_refl _
  · -- A parenthesis further right that stays open would be open behind the top one.
    have hmid := hopen mid (List.prefix_append ..)
    have hbehind := hopen' behind' (List.prefix_refl behind')
    simp [List.count_append] at hcount
    omega
  · rw [Piece.textOf_append, List.length_append]
    exact Nat.le_add_right ..

/-! ## §4. Texts. -/

/-- A text has tokens when no piece of it is a fault and no parenthesis is
left open. -/
theorem exists_tokens_iff (text : String) :
    (∃ ts, ofText text = .ok ts) ↔
      (∀ fault, ¬ FaultIn text fault) ∧ ∀ place, ¬ UnclosedAt text place := by
  have hopen : (Scanner.start.readAll (Piece.split text.toList)).frames = [] ↔
      ∀ place, ¬ UnclosedAt text place := by
    rw [← Scanner.places_eq_nil_iff, List.eq_nil_iff_forall_not_mem]
    simp only [mem_places_iff]
  rw [Scanner.ofText_eq_scan, ← clean_iff, ← hopen]
  constructor
  · rintro ⟨ts, hts⟩
    obtain ⟨hclean, hframes, -⟩ := Scanner.scan_eq_ok_iff.1 hts
    exact ⟨hclean, hframes⟩
  · rintro ⟨hclean, hframes⟩
    exact ⟨_, Scanner.scan_eq_ok_iff.2 ⟨hclean, hframes, rfl⟩⟩

/-- **The leftmost faulty piece** is the fault of the text, and nothing is
wrong before it but parentheses that are open there. -/
theorem exists_leftmostFault {text : String} (h : ∃ fault, FaultIn text fault) :
    ∃ fault, LeftmostFault text fault ∧ ofText text = .error fault ∧
      ((∃ ts, ofText (textBefore text fault.position) = .ok ts) ∨
        ∃ place, ofText (textBefore text fault.position) = .error (.unclosed place)) := by
  rcases Scanner.exists_fault (Piece.split text.toList) .start with
    hclean | ⟨front, p, behind, fault, hsplit, hclean, hfault, hscan⟩
  · obtain ⟨fault, hfault⟩ := h
    exact absurd hfault ((clean_iff text).1 hclean fault)
  · have hfaulty := Piece.fault?_readAll_iff.1 hfault
    refine ⟨fault, leftmostFault_of_clean hsplit hclean hfaulty, ?_, ?_⟩
    · rw [Scanner.ofText_eq_scan, hscan]
    · rw [hfaulty.position_eq]
      exact ofText_of_clean (by rw [split_textBefore hsplit]; exact hclean)

/-- Without faulty pieces **the last parenthesis that is never closed** is the
fault. -/
theorem exists_unclosed {text : String} (h : ∀ fault, ¬ FaultIn text fault)
    (hopen : ∃ place, UnclosedAt text place) :
    ∃ place, IsGreatest {n | UnclosedAt text n} place ∧
      ofText text = .error (.unclosed place) := by
  rw [Scanner.ofText_eq_scan, Scanner.scan_of_clean ((clean_iff text).2 h)]
  cases hplaces : (Scanner.start.readAll (Piece.split text.toList)).places with
  | nil =>
      obtain ⟨place, hplace⟩ := hopen
      rw [← mem_places_iff, hplaces] at hplace
      exact nomatch hplace
  | cons place outer => exact ⟨place, isGreatest_unclosed hplaces, rfl⟩

/-- **The tokens of a text, or its fault.**  The reader of tokens is a scan
with a stack.  A text has tokens when no piece of it is a fault and no
parenthesis is left open.  The leftmost faulty piece is the fault of the text,
and before it nothing is wrong but parentheses that are open there.  Without
faulty pieces the last parenthesis that is never closed is the fault. -/
theorem ofText_leftmost (text : String) :
    ofText text = Scanner.start.scan (Piece.split text.toList) ∧
      ((∃ ts, ofText text = .ok ts) ↔
        (∀ fault, ¬ FaultIn text fault) ∧ ∀ place, ¬ UnclosedAt text place) ∧
      ((∃ fault, FaultIn text fault) →
        ∃ fault, LeftmostFault text fault ∧ ofText text = .error fault ∧
          ((∃ ts, ofText (textBefore text fault.position) = .ok ts) ∨
            ∃ place, ofText (textBefore text fault.position) = .error (.unclosed place))) ∧
      ((∀ fault, ¬ FaultIn text fault) → (∃ place, UnclosedAt text place) →
        ∃ place, IsGreatest {n | UnclosedAt text n} place ∧
          ofText text = .error (.unclosed place)) := by
  exact ⟨Scanner.ofText_eq_scan text, exists_tokens_iff text, exists_leftmostFault,
    exists_unclosed⟩

/-- In `(3.` the number is the fault, and not the parenthesis before it; in
`((1)` the first parenthesis is the one that stays open. -/
theorem ofText_leftmost_unfinished :
    LeftmostFault "(3." (.incompleteToken "3." 1) ∧
      IsGreatest {n | UnclosedAt "((1)" n} 0 := by
  have hnumber : Piece.split "(3.".toList = [.opening, .lexeme (.number ['3'] (some []))] := by
    cbv
  have hopen : Piece.split "((1)".toList =
      [.opening, .opening, .lexeme (.number ['1'] none), .closing] := by
    cbv
  constructor
  · obtain ⟨fault, hleft, hfault, -⟩ := (ofText_leftmost "(3.").2.2.1
      ⟨.incompleteToken "3." 1, [.opening], _, [], hnumber, .incomplete _ rfl⟩
    have hread : ofText "(3." = .error (.incompleteToken "3." 1) := by cbv
    obtain rfl := Except.error.inj (hread.symm.trans hfault)
    exact hleft
  · have hclean : ∀ fault, ¬ FaultIn "((1)" fault := by
      rw [← clean_iff, hopen]
      exact ⟨rfl, rfl, rfl, rfl, trivial⟩
    have hstays : UnclosedAt "((1)" 0 := by
      refine ⟨[], _, hopen, rfl, ?_⟩
      intro mid hmid
      rw [← List.mem_inits] at hmid
      revert mid
      decide
    obtain ⟨place, hplace, hfault⟩ := (ofText_leftmost "((1)").2.2.2 hclean ⟨0, hstays⟩
    have hread : ofText "((1)" = .error (.unclosed 0) := by cbv
    obtain ⟨⟩ := hread.symm.trans hfault
    exact hplace

end Token

end FormulaDesk
