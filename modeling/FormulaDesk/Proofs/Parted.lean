/-
  FormulaDesk.Proofs.Parted
  ──────────────────────────────────────
  **WHICH PIECES A TEXT FALLS INTO.**

  A lexeme takes every character that would make it longer.  So pieces that
  are put end to end fall apart again into the same pieces exactly when no
  lexeme among them is followed by a character that it would have taken: the
  pieces are parted.

    • `Lexeme.longest?_append` — the lexeme at the head of a text that does
      not go on with it;
    • `Piece.split_textOf` — parted pieces are the pieces of their text;
    • `Piece.parted_split` — the pieces of a text are parted;
    • `Piece.split_append_of_endsAt` — two texts fall apart side by side where
      the first does not end within a lexeme of the whole.
-/
import Mathlib
import FormulaDesk.Piece

namespace FormulaDesk

open FormulaDesk.Text (isBlank)

/-! ## §1. Classes of characters. -/

/-- A character of a class is none that is not in it. -/
theorem ne_of_class {p : Char → Bool} {c d : Char} (hc : p c = true) (hd : p d = false) :
    c ≠ d := by
  intro heq
  rw [heq, hd] at hc
  exact nomatch hc

theorem isDigit_iff {c : Char} : c.isDigit = true ↔ 48 ≤ c.toNat ∧ c.toNat ≤ 57 := by
  simp only [Char.isDigit, Bool.and_eq_true, decide_eq_true_eq, ge_iff_le,
    UInt32.le_iff_toNat_le]
  rfl

theorem isNameStart_iff {c : Char} :
    isNameStart c = true ↔
      (65 ≤ c.toNat ∧ c.toNat ≤ 90) ∨ (97 ≤ c.toNat ∧ c.toNat ≤ 122) ∨ c.toNat = 95 := by
  have h95 : c = '_' ↔ c.toNat = 95 :=
    ⟨fun h => h ▸ rfl, fun h => Char.toNat_inj.1 h⟩
  simp only [isNameStart, Char.isAlpha, Char.isUpper, Char.isLower, Bool.or_eq_true,
    Bool.and_eq_true, decide_eq_true_eq, beq_iff_eq, ge_iff_le, UInt32.le_iff_toNat_le, h95,
    or_assoc]
  rfl

theorem isNameChar_iff {c : Char} :
    isNameChar c = true ↔ isNameStart c = true ∨ c.isDigit = true := by
  simp only [isNameChar, isNameStart, Char.isAlphanum, Bool.or_eq_true]
  exact or_right_comm

theorem isDigit_eq_false_of_isNameStart {c : Char} (h : isNameStart c = true) :
    c.isDigit = false := by
  rw [isNameStart_iff] at h
  rw [Bool.eq_false_iff, ne_eq, isDigit_iff]
  omega

/-- A blank is no character of a name. -/
theorem isNameChar_eq_false_of_isBlank {c : Char} (h : isBlank c = true) :
    isNameChar c = false := by
  simp only [isBlank, Text.blankRanges, List.any_cons, List.any_nil, Bool.or_false,
    Bool.or_eq_true, Bool.and_eq_true, decide_eq_true_eq] at h
  rw [Bool.eq_false_iff, ne_eq, isNameChar_iff, isNameStart_iff, isDigit_iff]
  omega

theorem isNameChar_symbol (op : Operator) : isNameChar op.symbol = false := by
  cases op <;> rfl

theorem isBlank_symbol (op : Operator) : isBlank op.symbol = false := by
  cases op <;> rfl

/-! ## §2. The lexeme at the head of a text. -/

namespace Lexeme

/-- A lexeme as its class has it, whole or stopped behind a point. -/
def Sound : Lexeme → Prop
  | .number whole none => whole ≠ [] ∧ whole.all Char.isDigit = true
  | .number whole (some fraction) =>
    (whole ≠ [] ∧ whole.all Char.isDigit = true) ∧ fraction.all Char.isDigit = true
  | .name letters => isName letters = true
  | .operator _ => True

/-- A number is written by digits and a point. -/
theorem of_mem_number {whole : List Char} {fraction : Option (List Char)} {c : Char}
    (h : (number whole fraction).Sound) (hc : c ∈ (number whole fraction).text) :
    c.isDigit = true ∨ c = '.' := by
  cases fraction with
  | none => exact .inl (List.all_eq_true.1 h.2 c hc)
  | some fraction =>
      obtain ⟨⟨-, hwhole⟩, hfraction⟩ := h
      rcases List.mem_append.1 hc with hc | hc
      · exact .inl (List.all_eq_true.1 hwhole c hc)
      · rcases List.mem_cons.1 hc with rfl | hc
        · exact .inr rfl
        · exact .inl (List.all_eq_true.1 hfraction c hc)

/-- A name is written by characters of names. -/
theorem isNameChar_of_mem {letters : List Char} {c : Char} (h : isName letters = true)
    (hc : c ∈ letters) : isNameChar c = true := by
  cases letters with
  | nil => exact nomatch hc
  | cons d ds =>
      obtain ⟨hd, hds⟩ := Bool.and_eq_true_iff.1 (show (isNameStart d && _) = true from h)
      rcases List.mem_cons.1 hc with rfl | hc
      · exact isNameChar_iff.2 (.inl hd)
      · exact List.all_eq_true.1 hds c hc

/-- A character that would make a lexeme longer. -/
def grows : Lexeme → Char → Bool
  | .number _ none, c => c.isDigit || c == '.'
  | .number _ (some _), c => c.isDigit
  | .name _, c => isNameChar c
  | .operator _, _ => false

/-- The text behind a lexeme does not make it longer. -/
def EndsAt (l : Lexeme) (rest : List Char) : Prop :=
  ∀ c, rest.head? = some c → l.grows c = false

theorem endsAt_nil (l : Lexeme) : l.EndsAt [] := by
  intro c h
  simp at h

theorem endsAt_cons {l : Lexeme} {c : Char} {rest : List Char} (h : l.grows c = false) :
    l.EndsAt (c :: rest) := by
  intro c' h'
  obtain rfl := Option.some.inj h'
  exact h

/-- No lexeme goes on with a character that is neither a point nor of a
name. -/
theorem grows_eq_false {c : Char} (h : isNameChar c = false) (hpoint : c ≠ '.')
    (l : Lexeme) : l.grows c = false := by
  have hdigit : c.isDigit = false := by
    rw [Bool.eq_false_iff, ne_eq, isNameChar_iff] at h
    simpa using fun h' => h (.inr h')
  match l with
  | .number _ none => simp [grows, hdigit, hpoint]
  | .number _ (some _) => exact hdigit
  | .name _ => exact h
  | .operator _ => rfl

/-- A run of characters of a class ends where the text behind it does not
begin with one. -/
theorem takeWhile_append_of_endsAt {p : Char → Bool} {run rest : List Char}
    (hrun : run.all p = true) (hrest : ∀ c, rest.head? = some c → p c = false) :
    (run ++ rest).takeWhile p = run ∧ (run ++ rest).dropWhile p = rest := by
  have hp : ∀ c ∈ run, p c = true := List.all_eq_true.1 hrun
  rw [List.takeWhile_append_of_pos hp, List.dropWhile_append_of_pos hp]
  cases rest with
  | nil => simp
  | cons c rest => simp [hrest c rfl]

theorem longestNumber_append {whole rest : List Char} (hw : whole.all Char.isDigit = true) :
    ((number whole none).EndsAt rest → longestNumber (whole ++ rest) = .number whole none) ∧
    ∀ fraction : List Char, fraction.all Char.isDigit = true →
      (number whole (some fraction)).EndsAt rest →
      longestNumber (whole ++ '.' :: (fraction ++ rest)) = .number whole (some fraction) := by
  constructor
  · intro h
    obtain ⟨htake, hdrop⟩ := takeWhile_append_of_endsAt hw
      (fun c hc => (Bool.or_eq_false_iff.1 (h c hc)).1)
    unfold longestNumber
    rw [htake, hdrop]
    cases rest with
    | nil => rfl
    | cons c rest =>
        have hpoint : c ≠ '.' := by simpa using (Bool.or_eq_false_iff.1 (h c rfl)).2
        split
        next heq => exact absurd (List.cons.inj heq).1 hpoint
        next => rfl
  -- The point ends the digits before it, and the fraction ends where the text goes on.
  · intro fraction hf h
    have hpoint : ∀ c, ('.' :: (fraction ++ rest)).head? = some c → c.isDigit = false := by
      intro c hc
      obtain rfl := Option.some.inj hc
      rfl
    obtain ⟨htake, hdrop⟩ := takeWhile_append_of_endsAt hw hpoint
    unfold longestNumber
    rw [htake, hdrop]
    simp only [(takeWhile_append_of_endsAt hf h).1]

theorem longest?_of_isDigit {cs : List Char} (hne : cs ≠ []) (h : cs.all Char.isDigit = true)
    (rest : List Char) : longest? (cs ++ rest) = some (longestNumber (cs ++ rest)) := by
  cases cs with
  | nil => exact absurd rfl hne
  | cons c cs =>
      have hc : c.isDigit = true := List.all_eq_true.1 h c (List.mem_cons_self ..)
      simp [longest?, hc]

/-- **A lexeme is the longest one** at the head of a text that does not go on
with it. -/
theorem longest?_append {l : Lexeme} (hl : l.Sound) {rest : List Char} (hr : l.EndsAt rest) :
    longest? (l.text ++ rest) = some l := by
  match l with
  | .number whole none =>
      obtain ⟨hne, hw⟩ := hl
      show longest? (whole ++ rest) = _
      rw [longest?_of_isDigit hne hw, (longestNumber_append hw).1 hr]
  | .number whole (some fraction) =>
      obtain ⟨⟨hne, hw⟩, hf⟩ := hl
      show longest? ((whole ++ '.' :: fraction) ++ rest) = _
      rw [List.append_assoc, longest?_of_isDigit hne hw]
      show some (longestNumber (whole ++ '.' :: (fraction ++ rest))) = _
      rw [(longestNumber_append hw).2 fraction hf hr]
  | .name [] => exact absurd hl (by simp [Sound, isName])
  | .name (c :: cs) =>
      obtain ⟨hc, hcs⟩ := Bool.and_eq_true_iff.1 (show (isNameStart c && _) = true from hl)
      show longest? (c :: (cs ++ rest)) = _
      rw [longest?, if_neg (by simp [isDigit_eq_false_of_isNameStart hc]), if_pos hc,
        (takeWhile_append_of_endsAt hcs hr).1]
  | .operator op =>
      have hchar := isNameChar_symbol op
      rw [Bool.eq_false_iff, ne_eq, isNameChar_iff, not_or] at hchar
      show longest? (op.symbol :: rest) = _
      rw [longest?, if_neg hchar.2, if_neg hchar.1, Operator.ofSymbol?_symbol]
      rfl

/-- A run of characters of a class is followed by none. -/
theorem head?_dropWhile {p : Char → Bool} {cs : List Char} {c : Char}
    (h : (cs.dropWhile p).head? = some c) : p c = false := by
  have := List.head?_dropWhile_not p cs
  rw [h] at this
  exact this

/-- The number at the head of a text that begins with a digit. -/
theorem longestNumber_sound {cs : List Char} (h : cs.takeWhile Char.isDigit ≠ []) :
    (longestNumber cs).Sound ∧
      ∃ rest, cs = (longestNumber cs).text ++ rest ∧ (longestNumber cs).EndsAt rest := by
  have hcs := List.takeWhile_append_dropWhile (p := Char.isDigit) (l := cs)
  unfold longestNumber
  split
  next rest hdrop =>
    refine ⟨⟨⟨h, List.all_takeWhile⟩, List.all_takeWhile⟩,
      rest.dropWhile Char.isDigit, ?_, fun c hc => head?_dropWhile hc⟩
    rw [hdrop] at hcs
    simp only [text, List.append_assoc, List.cons_append, List.takeWhile_append_dropWhile]
    exact hcs.symm
  next hpoint =>
    refine ⟨⟨h, List.all_takeWhile⟩, cs.dropWhile Char.isDigit, hcs.symm, ?_⟩
    intro c hc
    have hdigit : c.isDigit = false := head?_dropWhile hc
    have hne : c ≠ '.' := by
      intro heq
      subst heq
      obtain ⟨rest, hrest⟩ := List.head?_eq_some_iff.1 hc
      exact hpoint rest hrest
    simp [grows, hdigit, hne]

/-- **The longest lexeme is one of its class, and the text does not go on with
it.** -/
theorem longest?_eq_some {cs : List Char} {l : Lexeme} (h : longest? cs = some l) :
    l.Sound ∧ ∃ rest, cs = l.text ++ rest ∧ l.EndsAt rest := by
  cases cs with
  | nil => simp [longest?] at h
  | cons c cs =>
      rw [longest?] at h
      split at h
      next hd =>
        obtain rfl := Option.some.inj h
        exact longestNumber_sound (by simp [hd])
      next hd =>
        split at h
        next hn =>
          obtain rfl := Option.some.inj h
          have hall : (cs.takeWhile isNameChar).all isNameChar = true := List.all_takeWhile
          exact ⟨by simp [Sound, isName, hn, hall], cs.dropWhile isNameChar,
            by simp [text], fun c hc => head?_dropWhile hc⟩
        next hn =>
          obtain ⟨op, hop, rfl⟩ := Option.map_eq_some_iff.1 h
          exact ⟨trivial, cs, by simp [text, Operator.ofSymbol?_eq_some.1 hop],
            fun _ _ => rfl⟩

/-- Nothing but a digit, a letter, `_` or an operator begins a lexeme. -/
theorem longest?_head {c : Char} {cs : List Char} {l : Lexeme}
    (h : longest? (c :: cs) = some l) : isBlank c = false ∧ c ≠ '(' ∧ c ≠ ')' := by
  -- Each class of lexemes begins with its own characters, and none of them is a blank or
  -- a parenthesis.
  have hstart : isNameChar c = true ∨ ∃ op : Operator, c = op.symbol := by
    rw [longest?] at h
    split at h
    next hd => exact .inl (isNameChar_iff.2 (.inr hd))
    next =>
      split at h
      next hn => exact .inl (isNameChar_iff.2 (.inl hn))
      next =>
        obtain ⟨op, hop, -⟩ := Option.map_eq_some_iff.1 h
        exact .inr ⟨op, Operator.ofSymbol?_eq_some.1 hop⟩
  rcases hstart with hc | ⟨op, rfl⟩
  · refine ⟨?_, ne_of_class hc rfl, ne_of_class hc rfl⟩
    cases hb : isBlank c with
    | false => rfl
    | true => exact absurd (isNameChar_eq_false_of_isBlank hb) (by simp [hc])
  · exact ⟨isBlank_symbol op, by cases op <;> decide, by cases op <;> decide⟩

/-- What is left of a text behind the lexeme at its head. -/
theorem drop_text {c : Char} {cs rest : List Char} {l : Lexeme} (hne : l.text ≠ [])
    (h : c :: cs = l.text ++ rest) : cs.drop (l.text.length - 1) = rest := by
  cases htext : l.text with
  | nil => exact absurd htext hne
  | cons d ds =>
      rw [htext] at h
      obtain ⟨rfl, rfl⟩ := List.cons.inj h
      simp

/-- Whether a lexeme begins at a character hangs on the character alone. -/
theorem longest?_eq_none_of_head {c : Char} {cs : List Char} (h : longest? [c] = none)
    : longest? (c :: cs) = none := by
  rw [longest?_eq_none_iff] at h ⊢
  exact h

end Lexeme

/-! ## §3. Parted pieces. -/

namespace Piece

/-- A piece that a text can fall into. -/
def Proper : Piece → Prop
  | .blank c => isBlank c = true
  | .opening => True
  | .closing => True
  | .lexeme l => l.Sound
  | .stray c => isBlank c = false ∧ c ≠ '(' ∧ c ≠ ')' ∧ Lexeme.longest? [c] = none

/-- A piece ends where the text behind it begins. -/
def EndsAt : Piece → List Char → Prop
  | .lexeme l, rest => l.EndsAt rest
  | _, _ => True

/-- Pieces that stay apart when they are put end to end. -/
def Parted : List Piece → Prop
  | [] => True
  | p :: ps => p.Proper ∧ p.EndsAt (textOf ps) ∧ Parted ps

/-- **Parted pieces are the pieces of their text.** -/
theorem split_textOf {ps : List Piece} (h : Parted ps) : split (textOf ps) = ps := by
  induction ps with
  | nil => rw [textOf_nil, split]
  | cons p ps ih =>
      obtain ⟨hp, hend, hps⟩ := h
      rw [textOf_cons]
      cases p with
      | blank c =>
          have hb : isBlank c = true := hp
          show split (c :: textOf ps) = _
          rw [split, if_pos hb, ih hps]
      | opening =>
          show split ('(' :: textOf ps) = _
          rw [split, if_neg (by decide), if_pos rfl, ih hps]
      | closing =>
          show split (')' :: textOf ps) = _
          rw [split, if_neg (by decide), if_neg (by decide), if_pos rfl, ih hps]
      | lexeme l =>
          have hlong := Lexeme.longest?_append hp hend
          show split (l.text ++ textOf ps) = _
          -- The head of the lexeme decides that `split` looks for a lexeme here.
          cases htext : l.text with
          | nil => exact absurd htext (Lexeme.longest?_text_ne_nil hlong)
          | cons c cs =>
              rw [htext] at hlong
              obtain ⟨hb, ho, hc⟩ := Lexeme.longest?_head hlong
              rw [List.cons_append] at hlong ⊢
              rw [split, if_neg (by simp [hb]), if_neg ho, if_neg hc, hlong]
              simp [htext, ih hps]
      | stray c =>
          obtain ⟨hb, ho, hc, hnone⟩ := hp
          show split (c :: textOf ps) = _
          rw [split, if_neg (by simp [hb]), if_neg ho, if_neg hc,
            Lexeme.longest?_eq_none_of_head hnone]
          simp [ih hps]

/-- **The pieces of a text are parted.** -/
theorem parted_split (cs : List Char) : Parted (split cs) := by
  fun_induction split cs with
  | case1 => trivial
  | case2 c cs hb ih => exact ⟨hb, trivial, ih⟩
  | case3 cs _ ih => exact ⟨trivial, trivial, ih⟩
  | case4 cs _ _ ih => exact ⟨trivial, trivial, ih⟩
  | case5 c cs hb ho hc l hl ih =>
      obtain ⟨hsound, rest, hrest, hend⟩ := Lexeme.longest?_eq_some hl
      refine ⟨hsound, ?_, ih⟩
      show l.EndsAt (textOf _)
      rw [textOf_split, Lexeme.drop_text (Lexeme.longest?_text_ne_nil hl) hrest]
      exact hend
  | case6 c cs hb ho hc hnone ih =>
      refine ⟨⟨by simpa using hb, ho, hc, ?_⟩, trivial, ih⟩
      rw [Lexeme.longest?_eq_none_iff] at hnone ⊢
      exact hnone

theorem proper_of_parted {ps : List Piece} (h : Parted ps) : ∀ p ∈ ps, p.Proper := by
  induction ps with
  | nil => intro p hp; simp at hp
  | cons q ps ih =>
      intro p hp
      rcases List.mem_cons.1 hp with rfl | hp
      · exact h.1
      · exact ih h.2.2 p hp

theorem proper_of_mem_split {cs : List Char} {p : Piece} (h : p ∈ split cs) : p.Proper :=
  proper_of_parted (parted_split cs) p h

/-! ## §4. Pieces side by side. -/

/-- No lexeme goes on with the head of a text. -/
def Fresh (cs : List Char) : Prop :=
  ∀ c, cs.head? = some c → isNameChar c = false ∧ c ≠ '.'

theorem Fresh.endsAt {cs : List Char} (h : Fresh cs) (p : Piece) : p.EndsAt cs := by
  cases p with
  | lexeme l => exact fun c hc => Lexeme.grows_eq_false (h c hc).1 (h c hc).2 l
  | blank c => trivial
  | opening => trivial
  | closing => trivial
  | stray c => trivial

theorem fresh_cons {c : Char} (h : isNameChar c = false) (hpoint : c ≠ '.')
    (cs : List Char) : Fresh (c :: cs) := by
  intro c' hc'
  obtain rfl := Option.some.inj hc'
  exact ⟨h, hpoint⟩

theorem fresh_blank {c : Char} (h : isBlank c = true) (cs : List Char) : Fresh (c :: cs) :=
  fresh_cons (isNameChar_eq_false_of_isBlank h) (ne_of_class h rfl) cs

theorem fresh_symbol (op : Operator) (cs : List Char) : Fresh (op.symbol :: cs) :=
  fresh_cons (isNameChar_symbol op) (by cases op <;> decide) cs

/-- Only the head of what follows decides where a piece ends. -/
theorem endsAt_congr {cs ds : List Char} (h : cs.head? = ds.head?) {p : Piece}
    (hp : p.EndsAt cs) : p.EndsAt ds := by
  cases p with
  | lexeme l => exact fun c hc => hp c (h.trans hc)
  | blank c => trivial
  | opening => trivial
  | closing => trivial
  | stray c => trivial

/-- A piece has a character. -/
theorem text_ne_nil {p : Piece} (h : p.Proper) : p.text ≠ [] := by
  cases p with
  | lexeme l =>
      exact Lexeme.longest?_text_ne_nil (Lexeme.longest?_append h l.endsAt_nil)
  | blank c => simp [text]
  | opening => simp [text]
  | closing => simp [text]
  | stray c => simp [text]

/-- A text begins as its first piece does. -/
theorem head?_textOf_cons {p : Piece} (h : p.Proper) (ps : List Piece) :
    (textOf (p :: ps)).head? = p.text.head? := by
  rw [textOf_cons]
  cases htext : p.text with
  | nil => exact absurd htext (text_ne_nil h)
  | cons c cs => rfl

/-- Without the pieces behind them parted pieces are parted. -/
theorem Parted.left {ps qs : List Piece} (h : Parted (ps ++ qs)) : Parted ps := by
  induction ps with
  | nil => trivial
  | cons p ps ih =>
      obtain ⟨hp, hend, hps⟩ := h
      refine ⟨hp, ?_, ih hps⟩
      cases ps with
      | nil =>
          -- Nothing makes a lexeme longer at the end of a text.
          cases p with
          | lexeme l => exact l.endsAt_nil
          | _ => trivial
      | cons q ps =>
          refine endsAt_congr ?_ hend
          show (textOf (q :: (ps ++ qs))).head? = (textOf (q :: ps)).head?
          rw [head?_textOf_cons hps.1, head?_textOf_cons hps.1]

/-- Without the pieces in front of them parted pieces are parted. -/
theorem Parted.right {ps qs : List Piece} (h : Parted (ps ++ qs)) : Parted qs := by
  induction ps with
  | nil => exact h
  | cons p ps ih => exact ih h.2.2

/-- **Parted pieces stay parted side by side** when the last of the first ones
ends where the second ones begin. -/
theorem parted_append {qs : List Piece} (hqs : Parted qs) :
    ∀ {ps : List Piece}, Parted ps → (∀ p, ps.getLast? = some p → p.EndsAt (textOf qs)) →
      Parted (ps ++ qs) := by
  intro ps
  induction ps with
  | nil => intro _ _; exact hqs
  | cons p ps ih =>
      intro h hlast
      obtain ⟨hp, hend, hps⟩ := h
      -- Only the last of the pieces sees the second text.
      cases ps with
      | nil => exact ⟨hp, hlast p rfl, hqs⟩
      | cons q ps =>
          refine ⟨hp, endsAt_congr ?_ hend, ih hps fun r hr => hlast r hr⟩
          show (textOf (q :: ps)).head? = (textOf (q :: (ps ++ qs))).head?
          rw [head?_textOf_cons hps.1, head?_textOf_cons hps.1]

/-- **Two texts fall apart side by side** where the last piece of the first one
ends. -/
theorem split_append_of_endsAt {cs ds : List Char}
    (h : ∀ p, (split cs).getLast? = some p → p.EndsAt ds) :
    split (cs ++ ds) = split cs ++ split ds := by
  have hparted : Parted (split cs ++ split ds) :=
    parted_append (parted_split ds) (parted_split cs) (by rw [textOf_split]; exact h)
  rw [← split_textOf hparted, textOf_append, textOf_split, textOf_split]

/-- Two texts fall apart side by side when the second one is fresh. -/
theorem split_append (cs : List Char) {ds : List Char} (h : Fresh ds) :
    split (cs ++ ds) = split cs ++ split ds :=
  split_append_of_endsAt fun p _ => h.endsAt p

end Piece

end FormulaDesk
