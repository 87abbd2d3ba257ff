/-
  FormulaDesk.Proofs.Trim
  ──────────────────────────────────────
  **BLANKS AT THE ENDS OF A TEXT.**

  A formula is compiled without the blanks at its ends.  They are no part of
  any lexeme, so without them a text has the same tokens; only its faults
  move, by the blanks in front.

    • `Text.exists_trim` — the text between its blanks;
    • `Solid`, `Lexeme.solid` — texts with no blank at their ends;
    • `Token.levelsAfter_moved` — what is read does not hang on its place;
    • `Token.ofText_trim` — the tokens of a text without its blanks.
-/
import FormulaDesk.Proofs.Products

namespace FormulaDesk

open FormulaDesk.Text (isBlank)

/-! ## §1. A text between its blanks. -/

namespace Text

theorem exists_trimEnd (cs : List Char) :
    ∃ back, cs = trimEnd cs ++ back ∧ back.all isBlank = true := by
  refine ⟨(cs.reverse.takeWhile isBlank).reverse, ?_, ?_⟩
  · rw [trimEnd, ← List.reverse_append, List.takeWhile_append_dropWhile, List.reverse_reverse]
  · rw [List.all_reverse]
    exact List.all_takeWhile

/-- **A text is its blanks in front, the text without blanks at its ends, and
its blanks behind.** -/
theorem exists_trim (cs : List Char) :
    ∃ back, cs = cs.takeWhile isBlank ++ (trim cs ++ back) ∧ back.all isBlank = true := by
  obtain ⟨back, hback, hblank⟩ := exists_trimEnd (trimStart cs)
  refine ⟨back, ?_, hblank⟩
  rw [trim, ← hback, trimStart, List.takeWhile_append_dropWhile]

/-- Nothing is left of a text of blanks, and only of such a text. -/
theorem trim_eq_nil_iff {cs : List Char} : trim cs = [] ↔ cs.all isBlank = true := by
  constructor
  · intro h
    obtain ⟨back, hcs, hback⟩ := exists_trim cs
    rw [hcs, h, List.nil_append, List.all_append, List.all_takeWhile, hback]
    rfl
  · intro h
    rw [trim, trimStart, List.dropWhile_eq_nil_iff.2 (List.all_eq_true.1 h)]
    rfl

/-- A text that does not begin with a blank stays as it is. -/
theorem trimStart_eq_self {cs : List Char} (h : ∀ c, cs.head? = some c → isBlank c = false) :
    trimStart cs = cs := by
  cases cs with
  | nil => rfl
  | cons c cs => rw [trimStart, List.dropWhile_cons_of_neg (by simp [h c rfl])]

/-- A text that does not end with a blank stays as it is. -/
theorem trimEnd_eq_self {cs : List Char} (h : ∀ c, cs.getLast? = some c → isBlank c = false) :
    trimEnd cs = cs := by
  have hreverse : cs.reverse.dropWhile isBlank = cs.reverse :=
    trimStart_eq_self (by simpa using h)
  rw [trimEnd, hreverse, List.reverse_reverse]

/-- Blanks behind a text go with those at its end. -/
theorem trimEnd_append_blanks (cs : List Char) {blanks : List Char}
    (h : blanks.all isBlank = true) : trimEnd (cs ++ blanks) = trimEnd cs := by
  have hblanks : ∀ c ∈ blanks.reverse, isBlank c = true := by simpa using h
  rw [trimEnd, List.reverse_append, List.dropWhile_append_of_pos hblanks, trimEnd]

theorem trimEnd_trimEnd (cs : List Char) : trimEnd (trimEnd cs) = trimEnd cs := by
  obtain ⟨back, hcs, hback⟩ := exists_trimEnd cs
  have hback' := trimEnd_append_blanks (trimEnd cs) hback
  rwa [← hcs, eq_comm] at hback'

/-- A text that neither begins nor ends with a blank stays as it is. -/
theorem trim_eq_self {cs : List Char} (hhead : ∀ c, cs.head? = some c → isBlank c = false)
    (hlast : ∀ c, cs.getLast? = some c → isBlank c = false) : trim cs = cs := by
  rw [trim, trimStart_eq_self hhead, trimEnd_eq_self hlast]

end Text

/-! ## §2. Texts with no blank at their ends. -/

/-- A text that neither begins nor ends with a blank. -/
structure Solid (cs : List Char) : Prop where
  ne_nil : cs ≠ []
  head : ∀ c, cs.head? = some c → Text.isBlank c = false
  last : ∀ c, cs.getLast? = some c → Text.isBlank c = false

theorem Solid.of_forall {cs : List Char} (hne : cs ≠ [])
    (h : ∀ c ∈ cs, Text.isBlank c = false) : Solid cs :=
  ⟨hne, fun c hc => h c (List.mem_of_head? hc), fun c hc => h c (List.mem_of_getLast? hc)⟩

theorem Solid.singleton {c : Char} (h : Text.isBlank c = false) : Solid [c] :=
  Solid.of_forall (List.cons_ne_nil c []) fun d hd => by rw [List.mem_singleton.1 hd, h]

/-- Only the ends of a text count. -/
theorem Solid.append {cs ds : List Char} (h : Solid cs) (h' : Solid ds) (middle : List Char) :
    Solid (cs ++ (middle ++ ds)) := by
  refine ⟨by simp [h.ne_nil], ?_, ?_⟩
  · intro c hc
    cases hhead : cs.head? with
    | none => exact absurd (List.head?_eq_none_iff.1 hhead) h.ne_nil
    | some d =>
        rw [List.head?_append, hhead] at hc
        exact h.head c (hhead.trans hc)
  · intro c hc
    cases hlast : ds.getLast? with
    | none => exact absurd (List.getLast?_eq_none_iff.1 hlast) h'.ne_nil
    | some d =>
        rw [← List.append_assoc, List.getLast?_append, hlast] at hc
        exact h'.last c (hlast.trans hc)

/-- Whatever stands between parentheses. -/
theorem solid_pair (cs : List Char) : Solid ('(' :: (cs ++ [')'])) :=
  (Solid.singleton (c := '(') rfl).append (Solid.singleton (c := ')') rfl) cs

theorem Solid.trim_eq {cs : List Char} (h : Solid cs) : Text.trim cs = cs :=
  Text.trim_eq_self h.head h.last

/-- Blanks around a solid text are all that is taken from it. -/
theorem Solid.trim_surrounded {cs : List Char} (h : Solid cs) {front back : List Char}
    (hfront : front.all isBlank = true) (hback : back.all isBlank = true) :
    Text.trim (front ++ (cs ++ back)) = cs := by
  have hhead : ∀ c, (cs ++ back).head? = some c → isBlank c = false := by
    intro c hc
    rw [List.head?_append_of_ne_nil _ h.ne_nil] at hc
    exact h.head c hc
  have hreverse : cs.reverse.dropWhile isBlank = cs.reverse :=
    Text.trimStart_eq_self (by simpa using h.last)
  have hback' : ∀ c ∈ back.reverse, isBlank c = true := by simpa using hback
  rw [Text.trim, Text.trimStart, List.dropWhile_append_of_pos (List.all_eq_true.1 hfront),
    show (cs ++ back).dropWhile isBlank = cs ++ back from Text.trimStart_eq_self hhead,
    Text.trimEnd, List.reverse_append, List.dropWhile_append_of_pos hback', hreverse,
    List.reverse_reverse]

/-- What a text is without the blanks at its ends is solid. -/
theorem solid_trim {cs : List Char} (hne : Text.trim cs ≠ []) : Solid (Text.trim cs) := by
  refine ⟨hne, ?_, ?_⟩
  · intro c hc
    obtain ⟨back, hback, -⟩ := Text.exists_trimEnd (Text.trimStart cs)
    obtain ⟨ds, hds⟩ := List.head?_eq_some_iff.1 hc
    -- The first character stays the first when the blanks behind go.
    have hhead : (Text.trimStart cs).head? = some c := by
      rw [hback, show Text.trimEnd (Text.trimStart cs) = c :: ds from hds]
      rfl
    exact Lexeme.head?_dropWhile hhead
  · intro c hc
    rw [Text.trim, Text.trimEnd, List.getLast?_reverse] at hc
    exact Lexeme.head?_dropWhile hc

theorem isBlank_eq_false_of_isNameChar {c : Char} (h : isNameChar c = true) :
    Text.isBlank c = false := by
  cases hblank : Text.isBlank c with
  | false => rfl
  | true => rw [isNameChar_eq_false_of_isBlank hblank] at h; exact nomatch h

/-- **No lexeme has a blank in it.** -/
theorem Lexeme.isBlank_eq_false {l : Lexeme} (h : l.Sound) :
    ∀ c ∈ l.text, Text.isBlank c = false := by
  intro c hc
  cases l with
  | number whole fraction =>
      rcases of_mem_number h hc with hdigit | rfl
      · exact isBlank_eq_false_of_isNameChar (isNameChar_iff.2 (.inr hdigit))
      · rfl
  | name letters => exact isBlank_eq_false_of_isNameChar (isNameChar_of_mem h hc)
  | operator op =>
      obtain rfl := List.mem_singleton.1 hc
      exact isBlank_symbol op

theorem Lexeme.solid {l : Lexeme} (h : l.Sound) : Solid l.text :=
  Solid.of_forall (Piece.text_ne_nil (p := .lexeme l) h) (Lexeme.isBlank_eq_false h)

theorem solid_name {letters : List Char} (h : isName letters = true) : Solid letters :=
  Lexeme.solid (l := .name letters) h

/-! ## §3. Blank pieces. -/

namespace Piece

/-- Blanks fall into blank pieces. -/
theorem split_blanks {blanks : List Char} (h : blanks.all isBlank = true) (cs : List Char) :
    split (blanks ++ cs) = blanks.map blank ++ split cs := by
  induction blanks with
  | nil => rfl
  | cons b blanks ih =>
      obtain ⟨hb, hblanks⟩ := Bool.and_eq_true_iff.1 (List.all_cons ▸ h)
      rw [List.cons_append, split, if_pos hb, ih hblanks]
      rfl

/-- A text begins afresh where blanks follow and nothing else. -/
theorem fresh_of_blanks {blanks : List Char} (h : blanks.all isBlank = true) :
    Fresh blanks := by
  cases blanks with
  | nil => intro c hc; exact nomatch hc
  | cons b blanks => exact fresh_blank (Bool.and_eq_true_iff.1 (List.all_cons ▸ h)).1 _

theorem head?_blanks (blanks : List Char) : (blanks.map blank).head? ≠ some .opening := by
  cases blanks <;> simp

end Piece

namespace Token

/-! ## §4. Reading at another place. -/

/-- **What is read does not hang on its place**; only faults tell it. -/
theorem levelsAfter_moved (k : Nat) (ps : List Piece) :
    ∀ (callee : Option Func) (position : Nat) (opened : List Nat),
      levelsAfter callee (k + position) (opened.map (k + ·)) ps =
        (levelsAfter callee position opened ps).mapError (.moved (k + ·)) := by
  induction ps with
  | nil =>
      intro callee position opened
      rw [levelsAfter_nil, levelsAfter_nil]
      cases opened <;> rfl
  | cons p ps ih =>
      intro callee position opened
      rw [levelsAfter_cons, levelsAfter_cons, fault?_moved (k + ·)]
      cases p.fault? position opened with
      | some fault => rfl
      | none =>
          rw [opens_moved (k + ·), Nat.add_assoc, Option.map_none]
          show (levelsAfter _ _ _ ps).map _ = ((levelsAfter _ _ _ ps).map _).mapError _
          rw [ih]
          cases levelsAfter (p.callee? ps) (position + p.text.length)
            (p.opens position opened) ps <;> rfl

/-- Blanks in front only take up place. -/
theorem levelsAfter_blanks (blanks : List Char) (ps : List Piece) :
    ∀ (position : Nat) (opened : List Nat),
      levelsAfter none position opened (blanks.map .blank ++ ps) =
        levelsAfter none (position + blanks.length) opened ps := by
  induction blanks with
  | nil => intro position opened; rfl
  | cons b blanks ih =>
      intro position opened
      rw [List.map_cons, List.cons_append, levelsAfter_cons]
      show (levelsAfter none (position + 1) opened _).map id = _
      rw [ih, List.length_cons, Nat.add_assoc, Nat.add_comm 1]
      cases levelsAfter none (position + (blanks.length + 1)) opened ps <;> rfl

/-- Blanks behind add nothing. -/
theorem levelsAfter_append_blanks (blanks : List Char) (ps : List Piece) :
    ∀ (callee : Option Func) (position : Nat) (opened : List Nat),
      levelsAfter callee position opened (ps ++ blanks.map .blank) =
        levelsAfter callee position opened ps := by
  induction ps with
  | nil =>
      intro callee position opened
      have hread := levelsAfter_blanks blanks [] position opened
      rw [List.append_nil] at hread
      rw [List.nil_append, levelsAfter_of_head (Piece.head?_blanks blanks),
        ← levelsAfter_none, hread, levelsAfter_nil, levelsAfter_nil]
  | cons p ps ih =>
      intro callee position opened
      have hcallee : p.callee? (ps ++ blanks.map .blank) = p.callee? ps :=
        Piece.callee?_append (Piece.head?_blanks blanks)
      rw [List.cons_append, levelsAfter_cons, levelsAfter_cons, ih, hcallee,
        Piece.act_congr hcallee]

/-! ## §5. The tokens of a trimmed text. -/

/-- **Without the blanks at its ends a text has the same tokens**, and a fault
is moved by the blanks in front. -/
theorem ofText_trim (text : String) :
    ofText text =
      (ofText (.ofList (Text.trim text.toList))).mapError
        (.moved ((text.toList.takeWhile isBlank).length + ·)) := by
  obtain ⟨back, htext, hback⟩ := Text.exists_trim text.toList
  -- The text falls into blanks, the pieces between them, and blanks again.
  have hbehind : Piece.split back = back.map .blank := by
    have hblanks := Piece.split_blanks hback []
    rwa [List.append_nil, Piece.split, List.append_nil] at hblanks
  have hsplit : Piece.split text.toList =
      (text.toList.takeWhile isBlank).map .blank ++
        (Piece.split (Text.trim text.toList) ++ back.map .blank) := by
    calc Piece.split text.toList
        = Piece.split (text.toList.takeWhile isBlank ++ (Text.trim text.toList ++ back)) :=
          congrArg Piece.split htext
      _ = (text.toList.takeWhile isBlank).map .blank ++
            Piece.split (Text.trim text.toList ++ back) :=
          Piece.split_blanks List.all_takeWhile _
      _ = _ := by rw [Piece.split_append _ (Piece.fresh_of_blanks hback), hbehind]
  rw [ofText_eq, hsplit, levelsAfter_blanks, levelsAfter_append_blanks, ofText_eq,
    String.toList_ofList]
  have hmoved := levelsAfter_moved (text.toList.takeWhile isBlank).length
    (Piece.split (Text.trim text.toList)) none 0 []
  rw [Nat.add_comm] at hmoved
  rw [show levelsAfter none _ [] (Piece.split (Text.trim text.toList)) = _ from hmoved]
  cases levelsAfter none 0 [] (Piece.split (Text.trim text.toList)) <;> rfl

/-- A text has tokens when it has them without the blanks at its ends. -/
theorem ofText_of_trim {text : String} {ts : List Token}
    (h : ofText (.ofList (Text.trim text.toList)) = .ok ts) : ofText text = .ok ts := by
  rw [ofText_trim, h]
  rfl

end Token

end FormulaDesk
