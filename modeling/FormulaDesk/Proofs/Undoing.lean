/-
  FormulaDesk.Proofs.Undoing
  ──────────────────────────────────────
  **WHAT A KEY ADDS IS TAKEN BACK.**

  A key puts its text behind the entry, parted from it where the two could be
  read as one.  So the last symbol of the new entry is just what the key wrote:
  no function that the entry ends in reaches into it, and the blanks that the
  key put around it go with it.  What is left is the entry without the blanks
  at its end.  One key is not parted from a name, an opening parenthesis: behind
  the name of a function it becomes the call, and is taken back as one.

    • `Entry.trimEnd_before` — before its text a key changes only blanks;
    • `Entry.deleteLast_concat`, `Entry.deleteLast_call` — a character and a
      call at the end of an entry;
    • `Entry.deleteLast_type` — each key, taken back.
-/
import FormulaDesk.Proofs.Deleting
import FormulaDesk.Proofs.Typing

namespace FormulaDesk.Entry

open FormulaDesk.Text (isBlank trimEnd)

/-! ## §1. Blanks. -/

/-- **Before its text a key changes only blanks** at the end of the entry. -/
theorem trimEnd_before (entry : List Char) (k : Key) :
    trimEnd (before entry k) = trimEnd entry := by
  have hspace : ∀ cs : List Char, trimEnd (cs ++ [' ']) = trimEnd cs :=
    fun cs => Text.trimEnd_append_blanks cs rfl
  have hname : trimEnd (beforeName entry) = trimEnd entry := by
    rw [beforeName]
    split
    next => exact hspace entry
    next => rfl
  cases k with
  | opening =>
      rw [before]
      split
      next => exact hspace entry
      next => rfl
  | closing => exact Text.trimEnd_trimEnd entry
  | operator op =>
      rw [before]
      split
      next hnil => rw [hnil]; rfl
      next => rw [hspace, Text.trimEnd_trimEnd]
  | func f => exact hname
  | quantity q => exact hname
  | digit d => rfl
  | point => rfl

/-- The blanks at the end of an entry do not count. -/
theorem deleteLast_append_blanks (entry : List Char) {blanks : List Char}
    (h : blanks.all isBlank = true) : deleteLast (entry ++ blanks) = deleteLast entry := by
  rw [deleteLast, deleteLast, Text.trimEnd_append_blanks entry h]

/-- What a key puts behind its text does not count. -/
theorem deleteLast_type_eq (entry : List Char) (k : Key) :
    deleteLast (type entry k) = deleteLast (before entry k ++ k.text) := by
  have hbehind : (behind k).all isBlank = true := by cases k <;> rfl
  rw [type, deleteLast_append_blanks _ hbehind]

/-! ## §2. The last symbol. -/

variable {front : List Char}

/-- A call ends an entry when the name does in front of the parenthesis. -/
theorem call_suffix_concat_iff (f : Func) :
    (Key.func f).text <:+ front ++ ['('] ↔ f.name.toList <:+ front := by
  constructor
  · rintro ⟨kept, hkept⟩
    rw [Key.text, ← List.append_assoc] at hkept
    exact ⟨kept, List.append_cancel_right hkept⟩
  · rintro ⟨kept, rfl⟩
    exact ⟨kept, by rw [Key.text, List.append_assoc]⟩

/-- Only a parenthesis ends a call. -/
theorem not_call_suffix {c : Char} (hc : c ≠ '(') (f : Func) :
    ¬ (Key.func f).text <:+ front ++ [c] := by
  rintro ⟨kept, hkept⟩
  rw [Key.text, ← List.append_assoc] at hkept
  obtain ⟨-, hlast⟩ := List.append_inj' hkept rfl
  exact hc (by simpa using hlast.symm)

/-- **A character that ends no call** is taken back alone. -/
theorem deleteLast_concat {c : Char} (hblank : isBlank c = false)
    (hcall : ∀ f, ¬ (Key.func f).text <:+ front ++ [c]) :
    deleteLast (front ++ [c]) = trimEnd front := by
  have hsolid : trimEnd (front ++ [c]) = front ++ [c] := by
    refine Text.trimEnd_eq_self fun d hd => ?_
    rw [List.getLast?_concat] at hd
    rw [← Option.some.inj hd, hblank]
  have hlength : lastSymbolLength (front ++ [c]) = 1 := by
    rcases lastSymbolLength_cases (front ++ [c]) with ⟨hlength, -⟩ | ⟨f, -, hf, -⟩
    · exact hlength
    · exact absurd hf (hcall f)
  rw [deleteLast, hsolid, hlength, List.length_append, List.length_singleton,
    Nat.add_sub_cancel, List.take_left]

/-- **The longest call** that ends an entry is taken back as one. -/
theorem deleteLast_call {f : Func}
    (hlongest : ∀ g, (Key.func g).text <:+ front ++ (Key.func f).text →
      (Key.func g).text.length ≤ (Key.func f).text.length) :
    deleteLast (front ++ (Key.func f).text) = trimEnd front := by
  have hsolid : trimEnd (front ++ (Key.func f).text) = front ++ (Key.func f).text := by
    refine Text.trimEnd_eq_self fun d hd => ?_
    rw [Key.text, ← List.append_assoc, List.getLast?_concat] at hd
    rw [← Option.some.inj hd]
    rfl
  have hsuffix : (Key.func f).text <:+ front ++ (Key.func f).text := List.suffix_append ..
  have hlength : lastSymbolLength (front ++ (Key.func f).text) = (Key.func f).text.length := by
    rcases lastSymbolLength_cases (front ++ (Key.func f).text) with
      ⟨-, hnone⟩ | ⟨g, hlength, hg, hlong⟩
    · exact absurd hsuffix (hnone f)
    · rw [hlength]
      exact Nat.le_antisymm (hlongest g hg) (hlong f hsuffix)
  rw [deleteLast, hsolid, hlength, List.length_append, Nat.add_sub_cancel, List.take_left]

/-- A word of a name is taken back character by character. -/
theorem deleteLast_iterate_word (word : List Char) :
    word ≠ [] → (∀ c ∈ word, isNameChar c = true) →
      deleteLast^[word.length] (front ++ word) = trimEnd front := by
  induction word using List.reverseRecOn with
  | nil => intro hne; exact absurd rfl hne
  | append_singleton word c ih =>
      intro _ hchars
      obtain ⟨hword, hc⟩ := List.forall_mem_append.1 hchars
      have hname : isNameChar c = true := hc c (List.mem_singleton_self c)
      have hstep : deleteLast (front ++ word ++ [c]) = trimEnd (front ++ word) :=
        deleteLast_concat (isBlank_eq_false_of_isNameChar hname)
          (not_call_suffix (ne_of_class hname rfl))
      rw [List.length_append, List.length_singleton, Function.iterate_succ_apply,
        ← List.append_assoc, hstep]
      by_cases hnil : word = []
      · rw [hnil, List.append_nil]
        rfl
      · rw [Text.trimEnd_letters front hnil hword]
        exact ih hnil hword

/-! ## §3. Each key. -/

/-- A key of one character that is neither a blank nor an opening parenthesis. -/
theorem deleteLast_type_of_text (entry : List Char) {k : Key} {c : Char} (htext : k.text = [c])
    (hblank : isBlank c = false) (hc : c ≠ '(') : deleteLast (type entry k) = trimEnd entry := by
  rw [deleteLast_type_eq, htext, deleteLast_concat hblank (not_call_suffix hc), trimEnd_before]

theorem deleteLast_type_digit (entry : List Char) (d : Fin 10) :
    deleteLast (type entry (.digit d)) = trimEnd entry := by
  obtain ⟨c, htext, hdigit⟩ : ∃ c, (Key.digit d).text = [c] ∧ c.isDigit = true := by
    fin_cases d <;> exact ⟨_, rfl, rfl⟩
  have hname : isNameChar c = true := isNameChar_iff.2 (.inr hdigit)
  exact deleteLast_type_of_text entry htext (isBlank_eq_false_of_isNameChar hname)
    (ne_of_class hdigit rfl)

theorem deleteLast_type_operator (entry : List Char) (op : Operator) :
    deleteLast (type entry (.operator op)) = trimEnd entry := by
  have htext : (Key.operator op).text = [op.symbol] := by
    show (String.singleton op.symbol).toList = _
    rw [String.toList_singleton]
  exact deleteLast_type_of_text entry htext (isBlank_symbol op) (by cases op <;> decide)

/-- No function that the entry ends in reaches into the call of a key. -/
theorem deleteLast_type_func (entry : List Char) (f : Func) :
    deleteLast (type entry (.func f)) = trimEnd entry := by
  have hsplit : Piece.split (before entry (.func f) ++ (Key.func f).text) =
      Piece.split (beforeName entry) ++ [Piece.lexeme (.name f.name.toList), .opening] := by
    rw [Key.text, ← List.append_assoc,
      Piece.split_append _ (Piece.fresh_cons (by decide) (by decide) []), Piece.split_opening,
      Piece.split]
    show Piece.split (beforeName entry ++ f.name.toList) ++ [Piece.opening] = _
    rw [split_beforeName (isName_name f), List.append_assoc]
    rfl
  rw [deleteLast_type_eq, deleteLast_call, trimEnd_before]
  intro g hg
  obtain ⟨front, letters, hletters, hsuffix⟩ := (call_suffix_iff g _).1 hg
  rw [letters_unique hsplit hletters] at hsuffix
  simpa [Key.text] using hsuffix.length_le

/-- The name of a quantity, by as many deletions as it has characters. -/
theorem deleteLast_type_quantity (entry : List Char) (q : Quantity) :
    deleteLast^[q.name.length] (type entry (.quantity q)) = trimEnd entry := by
  have hname := isName_quantity q
  have htype : type entry (.quantity q) = before entry (.quantity q) ++ q.name.toList :=
    List.append_nil _
  rw [htype, ← String.length_toList, deleteLast_iterate_word q.name.toList,
    trimEnd_before]
  · rintro hnil
    rw [hnil] at hname
    exact nomatch hname
  · exact fun c => Lexeme.isNameChar_of_mem hname

/-- A letter ends a text that the name of a function ends. -/
theorem getLast?_of_name_suffix {cs : List Char} {f : Func} (h : f.name.toList <:+ cs) :
    ∃ c, isNameStart c = true ∧ cs.getLast? = some c := by
  obtain ⟨kept, rfl⟩ := h
  cases hlast : f.name.toList.getLast? with
  | none => exact absurd (List.getLast?_eq_none_iff.1 hlast) (name_ne_nil f)
  | some c =>
      refine ⟨c, isNameStart_of_mem_name f c (List.mem_of_getLast? hlast), ?_⟩
      rw [List.getLast?_append, hlast]
      rfl

/-- Behind the name of a function no space is put before a parenthesis. -/
theorem before_opening_of_name {entry : List Char} {f : Func} (h : f.name.toList <:+ entry) :
    before entry .opening = entry := by
  obtain ⟨c, hstart, hlast⟩ := getLast?_of_name_suffix h
  have htrim : trimEnd entry = entry := by
    refine Text.trimEnd_eq_self fun d hd => ?_
    rw [← Option.some.inj (hlast.symm.trans hd)]
    exact isBlank_eq_false_of_isNameChar (isNameChar_iff.2 (.inl hstart))
  have hparen : c ≠ ')' := ne_of_class hstart rfl
  rw [before, lastSolid?, htrim, hlast, if_neg]
  simp [partsGroup, isDigit_eq_false_of_isNameStart hstart, hparen]

/-- The longest name of a function that ends a text. -/
def LongestName (cs : List Char) (f : Func) : Prop :=
  f.name.toList <:+ cs ∧
    ∀ g : Func, g.name.toList <:+ cs → g.name.toList.length ≤ f.name.toList.length

/-- An opening parenthesis: alone, or with the longest name that it calls. -/
theorem deleteLast_type_opening (entry : List Char) :
    ((∀ f : Func, ¬ f.name.toList <:+ entry) ∧
        deleteLast (type entry .opening) = trimEnd entry) ∨
      ∃ front f, entry = front ++ f.name.toList ∧ LongestName entry f ∧
        deleteLast (type entry .opening) = trimEnd front := by
  have hlength : ∀ f : Func, (Key.func f).text.length = f.name.toList.length + 1 :=
    fun f => List.length_append
  rw [deleteLast_type_eq]
  show (_ ∧ deleteLast (before entry .opening ++ ['(']) = _) ∨
    ∃ front f, _ ∧ _ ∧ deleteLast (before entry .opening ++ ['(']) = _
  rcases lastSymbolLength_cases (entry ++ ['(']) with ⟨-, hnone⟩ | ⟨f, -, hf, hlong⟩
  · have hnone : ∀ f : Func, ¬ f.name.toList <:+ entry :=
      fun f hf => hnone f ((call_suffix_concat_iff f).2 hf)
    refine .inl ⟨hnone, ?_⟩
    rw [deleteLast_concat rfl, trimEnd_before]
    intro f hf
    have hsuffix := (call_suffix_concat_iff f).1 hf
    rw [before] at hsuffix
    split at hsuffix
    next =>
      -- No name ends with a space.
      obtain ⟨c, hstart, hlast⟩ := getLast?_of_name_suffix hsuffix
      rw [List.getLast?_concat] at hlast
      rw [← Option.some.inj hlast] at hstart
      exact absurd hstart (by decide)
    next => exact hnone f hsuffix
  · have hname := (call_suffix_concat_iff f).1 hf
    have hbefore := before_opening_of_name hname
    obtain ⟨front, rfl⟩ := hname
    refine .inr ⟨front, f, rfl, ⟨List.suffix_append .., fun g hg => ?_⟩, ?_⟩
    · have hle := hlong g ((call_suffix_concat_iff g).2 hg)
      rw [hlength, hlength] at hle
      exact Nat.le_of_succ_le_succ hle
    · rw [hbefore, List.append_assoc]
      refine deleteLast_call fun g hg => hlong g ?_
      rwa [List.append_assoc]

/-- **WHAT A KEY ADDS IS TAKEN BACK**, and the blanks at the end of the entry
go with it: at once for a digit, the point, an operator, a closing parenthesis
and the call of a function, and character by character for the name of a
quantity.  An opening parenthesis is taken back alone too, unless the entry ends
in the name of a function: then the longest such name goes with it. -/
theorem deleteLast_type (entry : List Char) :
    (∀ d, deleteLast (type entry (.digit d)) = trimEnd entry) ∧
    deleteLast (type entry .point) = trimEnd entry ∧
    (∀ op, deleteLast (type entry (.operator op)) = trimEnd entry) ∧
    (∀ f, deleteLast (type entry (.func f)) = trimEnd entry) ∧
    deleteLast (type entry .closing) = trimEnd entry ∧
    (∀ q, deleteLast^[q.name.length] (type entry (.quantity q)) = trimEnd entry) ∧
    (((∀ f : Func, ¬ f.name.toList <:+ entry) ∧
        deleteLast (type entry .opening) = trimEnd entry) ∨
      ∃ front f, entry = front ++ f.name.toList ∧ LongestName entry f ∧
        deleteLast (type entry .opening) = trimEnd front) :=
  ⟨deleteLast_type_digit entry, deleteLast_type_of_text entry rfl rfl (by decide),
    deleteLast_type_operator entry, deleteLast_type_func entry,
    deleteLast_type_of_text entry rfl rfl (by decide), deleteLast_type_quantity entry,
    deleteLast_type_opening entry⟩

/-- The key of `sin` is taken back whole behind an `a`, and a parenthesis behind
`2asin` takes the name with it. -/
example : deleteLast (type "a".toList (.func .sin)) = "a".toList ∧
    deleteLast (type "2 asin".toList .opening) = "2".toList := by
  constructor <;> cbv

end FormulaDesk.Entry
