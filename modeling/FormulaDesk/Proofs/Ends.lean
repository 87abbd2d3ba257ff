/-
  FormulaDesk.Proofs.Ends
  ──────────────────────────────────────
  **HOW A TEXT ENDS.**

  The last character of a text tells of its last piece: a letter ends a name
  and nothing else.  So a word of letters that ends a text ends one of its
  names, since a name goes back as far as it can.  What is put behind a text
  is read by itself where the last piece does not go on with it.

    • `Piece.exists_name_of_suffix` — a word at the end of a text is the end
      of a name;
    • `Piece.split_append_lexeme`, `Piece.split_trimEnd` — the pieces of a
      text with a lexeme behind it, and without the blanks behind it.
-/
import FormulaDesk.Proofs.Spelling
import FormulaDesk.Proofs.Trim

namespace FormulaDesk

open FormulaDesk.Text (isBlank)

/-! ## §1. The last piece. -/

namespace Piece

/-- A text ends as its last piece does. -/
theorem getLast?_textOf_concat {p : Piece} (h : p.Proper) (front : List Piece) :
    (textOf (front ++ [p])).getLast? = p.text.getLast? := by
  rw [textOf_append, textOf_cons, textOf_nil, List.append_nil, List.getLast?_append]
  cases hlast : p.text.getLast? with
  | none => exact absurd (List.getLast?_eq_none_iff.1 hlast) (text_ne_nil h)
  | some c => rfl

/-- The name among the pieces of a text is one. -/
theorem isName_of_split {cs : List Char} {front behind : List Piece} {letters : List Char}
    (h : split cs = front ++ Piece.lexeme (.name letters) :: behind) : isName letters = true := by
  have hparted := parted_split cs
  rw [h] at hparted
  exact hparted.right.1

/-- A piece that has a letter is a name. -/
theorem exists_name_of_mem {p : Piece} (hp : p.Proper) {c : Char} (hc : c ∈ p.text)
    (hstart : isNameStart c = true) : ∃ letters, p = .lexeme (.name letters) := by
  have hname : isNameChar c = true := isNameChar_iff.2 (.inl hstart)
  cases p with
  | blank b =>
      obtain rfl := List.mem_singleton.1 hc
      rw [isNameChar_eq_false_of_isBlank hp] at hname
      exact nomatch hname
  | opening => obtain rfl := List.mem_singleton.1 hc; exact nomatch hname
  | closing => obtain rfl := List.mem_singleton.1 hc; exact nomatch hname
  | stray d =>
      obtain rfl := List.mem_singleton.1 hc
      obtain ⟨-, -, -, hnone⟩ := hp
      rw [(Lexeme.longest?_eq_none_iff.1 hnone c rfl).2.1] at hstart
      exact nomatch hstart
  | lexeme l =>
      cases l with
      | name letters => exact ⟨letters, rfl⟩
      | operator op =>
          obtain rfl := List.mem_singleton.1 hc
          rw [isNameChar_symbol] at hname
          exact nomatch hname
      | number whole fraction =>
          rcases Lexeme.of_mem_number hp hc with hdigit | rfl
          · rw [isDigit_eq_false_of_isNameStart hstart] at hdigit
            exact nomatch hdigit
          · exact nomatch hname

/-- Only a name goes on with a name. -/
theorem endsAt_name {p : Piece} (hp : ∀ letters, p ≠ .lexeme (.name letters))
    {word : List Char} (hword : isName word = true) : p.EndsAt word := by
  have hdigit : ∀ c, word.head? = some c → c.isDigit = false ∧ c ≠ '.' := by
    intro c hc
    obtain ⟨cs, rfl⟩ := List.head?_eq_some_iff.1 hc
    have hstart : isNameStart c = true :=
      (Bool.and_eq_true_iff.1 (show (isNameStart c && _) = true from hword)).1
    exact ⟨isDigit_eq_false_of_isNameStart hstart, ne_of_class hstart rfl⟩
  cases p with
  | lexeme l =>
      intro c hc
      obtain ⟨hno, hpoint⟩ := hdigit c hc
      match l with
      | .number _ none => simp [Lexeme.grows, hno, hpoint]
      | .number _ (some _) => exact hno
      | .name letters => exact absurd rfl (hp letters)
      | .operator _ => rfl
  | _ => trivial

/-- **A letter ends a name.** -/
theorem exists_name_of_getLast? {ps : List Piece} (h : Parted ps) {c : Char}
    (hc : (textOf ps).getLast? = some c) (hstart : isNameStart c = true) :
    ∃ front letters, ps = front ++ [Piece.lexeme (.name letters)] ∧
      letters.getLast? = some c := by
  rcases List.eq_nil_or_concat ps with rfl | ⟨front, p, rfl⟩
  · exact nomatch hc
  · rw [List.concat_eq_append] at h hc ⊢
    have hp : p.Proper := h.right.1
    rw [getLast?_textOf_concat hp] at hc
    obtain ⟨letters, rfl⟩ := exists_name_of_mem hp (List.mem_of_getLast? hc) hstart
    exact ⟨front, letters, rfl, hc⟩

/-- A name that ends a text has the letter in front of what it has. -/
theorem cons_suffix_of_suffix {front : List Piece} {letters : List Char} {c d : Char}
    {word : List Char} (h : Parted (front ++ [Piece.lexeme (.name letters)]))
    (hc : isNameStart c = true) (hd : isNameStart d = true)
    (hword : d :: word <:+ letters) (htext : c :: d :: word <:+ textOf front ++ letters) :
    c :: d :: word <:+ letters := by
  obtain ⟨kept, rfl⟩ := hword
  obtain ⟨ds, hds⟩ := htext
  have happend : (textOf front ++ kept) ++ d :: word = (ds ++ [c]) ++ d :: word := by
    simp [hds]
  have hfront : textOf front ++ kept = ds ++ [c] := List.append_cancel_right happend
  rcases List.eq_nil_or_concat kept with rfl | ⟨kept, b, rfl⟩
  · -- Otherwise a name would end right before, and it would go on with the next letter.
    rw [List.append_nil] at hfront
    obtain ⟨front', letters', rfl, -⟩ :=
      exists_name_of_getLast? h.left (by rw [hfront]; simp) hc
    rw [List.append_assoc] at h
    have hend : isNameChar d = false := h.right.2.1 d rfl
    rw [isNameChar_iff.2 (.inl hd)] at hend
    exact nomatch hend
  · rw [List.concat_eq_append] at hfront ⊢
    rw [← List.append_assoc] at hfront
    obtain ⟨-, hb⟩ := List.append_inj' hfront rfl
    obtain rfl : b = c := by simpa using hb
    exact ⟨kept, by simp⟩

/-- **A word of letters that ends a text ends one of its names.** -/
theorem exists_name_of_suffix {word : List Char} (hne : word ≠ [])
    (hword : ∀ c ∈ word, isNameStart c = true) {ps : List Piece} (h : Parted ps)
    (hsuffix : word <:+ textOf ps) :
    ∃ front letters, ps = front ++ [Piece.lexeme (.name letters)] ∧ word <:+ letters := by
  induction word with
  | nil => exact absurd rfl hne
  | cons c word ih =>
      have hc : isNameStart c = true := hword c (List.mem_cons_self ..)
      cases word with
      | nil =>
          obtain ⟨ds, hds⟩ := hsuffix
          obtain ⟨front, letters, rfl, hletters⟩ :=
            exists_name_of_getLast? h (by rw [← hds]; simp) hc
          obtain ⟨kept, hkept⟩ := List.getLast?_eq_some_iff.1 hletters
          exact ⟨front, letters, rfl, kept, hkept.symm⟩
      | cons d word =>
          have hd : isNameStart d = true := hword d (by simp)
          obtain ⟨front, letters, rfl, hletters⟩ :=
            ih (by simp) (fun e he => hword e (List.mem_cons_of_mem c he))
              ((List.suffix_cons c (d :: word)).trans hsuffix)
          rw [textOf_append, textOf_cons, textOf_nil, List.append_nil] at hsuffix
          exact ⟨front, letters, rfl, cons_suffix_of_suffix h hc hd hletters hsuffix⟩

end Piece

/-! ## §2. What is put behind a text. -/

/-- A lexeme behind a text is a piece of its own where it does not go on with
the last one. -/
theorem Piece.split_append_lexeme {cs : List Char} {l : Lexeme} (hl : l.Sound)
    (hend : ∀ p, (split cs).getLast? = some p → p.EndsAt l.text) :
    split (cs ++ l.text) = split cs ++ [Piece.lexeme l] := by
  have hsplit := split_lexeme hl l.endsAt_nil
  rw [List.append_nil, split] at hsplit
  rw [split_append_of_endsAt hend, hsplit]

theorem Piece.split_space (cs : List Char) : split (cs ++ [' ']) = split cs ++ [Piece.blank ' '] := by
  rw [split_append cs (fresh_blank (by decide) []), split, if_pos (by decide), split]

/-- Characters of names stay at the end of a text. -/
theorem Text.trimEnd_letters (front : List Char) {letters : List Char} (hne : letters ≠ [])
    (h : ∀ c ∈ letters, isNameChar c = true) :
    Text.trimEnd (front ++ letters) = front ++ letters := by
  refine Text.trimEnd_eq_self fun c hc => isBlank_eq_false_of_isNameChar (h c ?_)
  cases hlast : letters.getLast? with
  | none => exact absurd (List.getLast?_eq_none_iff.1 hlast) hne
  | some d =>
      rw [List.getLast?_append, hlast] at hc
      obtain rfl := Option.some.inj hc
      exact List.mem_of_getLast? hlast

/-- The pieces of a text without the blanks behind it. -/
theorem Piece.split_trimEnd (cs : List Char) :
    ∃ blanks : List Char, split cs = split (Text.trimEnd cs) ++ blanks.map .blank := by
  obtain ⟨back, hcs, hback⟩ := Text.exists_trimEnd cs
  have hblanks := split_blanks hback []
  rw [List.append_nil, split, List.append_nil] at hblanks
  refine ⟨back, ?_⟩
  rw [← hblanks, ← split_append _ (fresh_of_blanks hback), ← hcs]

end FormulaDesk
