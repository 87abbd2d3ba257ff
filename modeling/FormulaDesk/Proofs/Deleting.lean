/-
  FormulaDesk.Proofs.Deleting
  ──────────────────────────────────────
  **TAKING BACK THE LAST SYMBOL.**

  To the reader of tokens an entry ends in an open call when a parenthesis
  opens at its end and touches the name of a function.  Such a call is one
  symbol, and otherwise a symbol is one character.  `deleteLast` does not ask
  the reader: it compares the end of the entry with the names.  So it takes
  back the same symbol, but for one case: a longer name that ends in that of
  a function, right before a parenthesis, is cut as if it were the call.

    • `Entry.call_suffix_iff` — the functions that end an entry, by its
      pieces;
    • `Entry.deleteLast_eq_iff` — where the last symbol is taken back as the
      reader sees it, and what is left where it is not.
-/
import FormulaDesk.Proofs.Ends
import FormulaDesk.Screen.Entry

namespace FormulaDesk

/-! ## §1. Calls at the end of a text. -/

/-- The function that is called where a text ends: a parenthesis opens there,
and touches the name. -/
def openCall? (cs : List Char) : Option Func :=
  match (Piece.split cs).reverse with
  | .opening :: p :: _ => p.function?
  | _ => none

theorem openCall?_of_split {cs : List Char} {front : List Piece} {p : Piece}
    (h : Piece.split cs = front ++ [p, .opening]) : openCall? cs = p.function? := by
  rw [openCall?, h, List.reverse_append]
  rfl

theorem exists_of_openCall? {cs : List Char} {f : Func} (h : openCall? cs = some f) :
    ∃ front, Piece.split cs = front ++ [Piece.lexeme (.name f.name.toList), .opening] := by
  rw [openCall?] at h
  split at h
  next p front hsplit =>
    refine ⟨front.reverse, ?_⟩
    rw [← List.reverse_reverse (Piece.split cs), hsplit, Piece.eq_name_of_function? h]
    simp
  next => exact nomatch h

namespace Entry

/-- The text of a name and the parenthesis that touches it. -/
theorem eq_of_split {cs : List Char} {front : List Piece} {letters : List Char}
    (h : Piece.split cs = front ++ [Piece.lexeme (.name letters), .opening]) :
    cs = Piece.textOf front ++ letters ++ ['('] := by
  rw [← Piece.textOf_split cs, h, Piece.textOf_append]
  simp [Piece.text, Lexeme.text]

/-- A function's name and parenthesis end an entry when its last pieces are a
name that ends so, and a parenthesis that touches it. -/
theorem call_suffix_iff (f : Func) (cs : List Char) :
    (Key.func f).text <:+ cs ↔
      ∃ front letters, Piece.split cs = front ++ [Piece.lexeme (.name letters), .opening] ∧
        f.name.toList <:+ letters := by
  constructor
  · rintro ⟨ds, rfl⟩
    have hopening : Piece.Fresh ['('] := Piece.fresh_cons (by decide) (by decide) []
    have hsplit : Piece.split (ds ++ (Key.func f).text) =
        Piece.split (ds ++ f.name.toList) ++ [Piece.opening] := by
      rw [Key.text, ← List.append_assoc, Piece.split_append _ hopening, Piece.split_opening,
        Piece.split]
    obtain ⟨front, letters, hname, hsuffix⟩ :=
      Piece.exists_name_of_suffix (name_ne_nil f) (isNameStart_of_mem_name f)
        (Piece.parted_split (ds ++ f.name.toList))
        (by rw [Piece.textOf_split]; exact List.suffix_append ..)
    exact ⟨front, letters, by rw [hsplit, hname]; simp, hsuffix⟩
  · rintro ⟨front, letters, hsplit, kept, rfl⟩
    exact ⟨Piece.textOf front ++ kept, by rw [eq_of_split hsplit]; simp [Key.text]⟩

/-! ## §2. The last symbol. -/

/-- How many characters the last symbol has for the reader of tokens: an open
call all of its own, and otherwise one. -/
def symbolLength (cs : List Char) : Nat :=
  ((openCall? cs).map fun f => (Key.func f).text.length).getD 1

/-- The entry without its last symbol, as the reader of tokens sees it, and
without blanks at its end. -/
def withoutLastSymbol (entry : List Char) : List Char :=
  let solid := Text.trimEnd entry
  Text.trimEnd (solid.take (solid.length - symbolLength solid))

/-- A text ends in a name and a parenthesis that it does not call, but the
name ends in that of a function. -/
def CutsName (cs : List Char) : Prop :=
  ∃ (front : List Piece) (letters : List Char) (f : Func),
    Piece.split cs = front ++ [Piece.lexeme (.name letters), .opening] ∧
      Func.ofName? (.ofList letters) = none ∧ f.name.toList <:+ letters

/-- **The longest function by its letters** that ends an entry with its
parenthesis, or one character where there is none. -/
theorem lastSymbolLength_cases (cs : List Char) :
    (lastSymbolLength cs = 1 ∧ ∀ f, ¬ (Key.func f).text <:+ cs) ∨
      ∃ f, lastSymbolLength cs = (Key.func f).text.length ∧ (Key.func f).text <:+ cs ∧
        ∀ g, (Key.func g).text <:+ cs → (Key.func g).text.length ≤ (Key.func f).text.length := by
  have hmem : ∀ word,
      word ∈ (Func.all.map fun f => (Key.func f).text).filter (·.isSuffixOf cs) ↔
        ∃ f, (Key.func f).text = word ∧ word <:+ cs := by
    intro word
    have hall : ∀ f : Func, f ∈ Func.all := by intro f; cases f <;> decide
    simp [hall]
  cases hmax : (((Func.all.map fun f => (Key.func f).text).filter
      (·.isSuffixOf cs)).map List.length).max? with
  | none =>
      have hnil := List.map_eq_nil_iff.1 (List.max?_eq_none_iff.1 hmax)
      refine .inl ⟨by rw [lastSymbolLength, hmax]; rfl, fun f hf => ?_⟩
      exact List.eq_nil_iff_forall_not_mem.1 hnil _ ((hmem _).2 ⟨f, rfl, hf⟩)
  | some n =>
      obtain ⟨hn, hle⟩ := List.max?_eq_some_iff.1 hmax
      obtain ⟨word, hword, rfl⟩ := List.mem_map.1 hn
      obtain ⟨f, rfl, hf⟩ := (hmem word).1 hword
      refine .inr ⟨f, by rw [lastSymbolLength, hmax]; rfl, hf, fun g hg => ?_⟩
      exact hle _ (List.mem_map.2 ⟨_, (hmem _).2 ⟨g, rfl, hg⟩, rfl⟩)

/-- The name before the parenthesis that ends a text. -/
theorem letters_unique {cs : List Char} {front front' : List Piece}
    {letters letters' : List Char}
    (h : Piece.split cs = front ++ [Piece.lexeme (.name letters), .opening])
    (h' : Piece.split cs = front' ++ [Piece.lexeme (.name letters'), .opening]) :
    letters' = letters := by
  obtain ⟨-, hlast⟩ := List.append_inj' (h'.symm.trans h) rfl
  simpa using hlast

/-- **The two lengths agree** unless a name is cut. -/
theorem lastSymbolLength_eq_iff (cs : List Char) :
    lastSymbolLength cs = symbolLength cs ↔ ¬ CutsName cs := by
  rcases lastSymbolLength_cases cs with ⟨hlength, hnone⟩ | ⟨f, hlength, hf, hlongest⟩
  · -- No function ends the entry, so none is called there and no name is cut.
    have hcall : openCall? cs = none := by
      cases hcall : openCall? cs with
      | none => rfl
      | some g =>
          obtain ⟨front, hsplit⟩ := exists_of_openCall? hcall
          exact absurd ((call_suffix_iff g cs).2 ⟨front, _, hsplit, List.suffix_rfl⟩) (hnone g)
    refine iff_of_true (by rw [hlength, symbolLength, hcall]; rfl) ?_
    rintro ⟨front, letters, g, hsplit, -, hg⟩
    exact hnone g ((call_suffix_iff g cs).2 ⟨front, letters, hsplit, hg⟩)
  · obtain ⟨front, letters, hsplit, hletters⟩ := (call_suffix_iff f cs).1 hf
    have hcall : openCall? cs = Func.ofName? (.ofList letters) := openCall?_of_split hsplit
    cases hname : Func.ofName? (.ofList letters) with
    | none =>
        -- The name is no function's, and the longest one that ends it is taken.
        have hlong : 0 < f.name.toList.length := List.length_pos_iff.2 (name_ne_nil f)
        refine iff_of_false ?_ (not_not_intro ⟨front, letters, f, hsplit, hname, hletters⟩)
        rw [hlength, symbolLength, hcall, hname]
        show (f.name.toList ++ ['(']).length ≠ 1
        rw [List.length_append]
        show f.name.toList.length + 1 ≠ 1
        omega
    | some g =>
        -- The whole name is a function's, and the longest one that ends it.
        have heq : letters = g.name.toList := by
          rw [← Func.ofName?_eq_some.1 hname, String.toList_ofList]
        have hg := hlongest g ((call_suffix_iff g cs).2 ⟨front, letters, hsplit, by rw [heq]⟩)
        have hle : (Key.func f).text.length ≤ (Key.func g).text.length := by
          rw [heq] at hletters
          simpa [Key.text] using hletters.length_le
        refine iff_of_true ?_ ?_
        · rw [hlength, symbolLength, hcall, hname]
          exact Nat.le_antisymm hle hg
        · rintro ⟨front', letters', -, hsplit', hnone, -⟩
          rw [letters_unique hsplit hsplit', hname] at hnone
          exact nomatch hnone

/-! ## §3. What is left. -/

/-- Where a name is cut, **the letters in front of the longest function stay**,
and the whole name should. -/
theorem deleteLast_of_cut {entry : List Char} {front : List Piece} {kept : List Char} {f : Func}
    (hsplit : Piece.split (Text.trimEnd entry) =
      front ++ [Piece.lexeme (.name (kept ++ f.name.toList)), .opening])
    (hname : Func.ofName? (.ofList (kept ++ f.name.toList)) = none)
    (hlongest : ∀ g : Func, g.name.toList <:+ kept ++ f.name.toList →
      g.name.toList.length ≤ f.name.toList.length) :
    deleteLast entry = Piece.textOf front ++ kept ∧
      withoutLastSymbol entry = Piece.textOf front ++ (kept ++ f.name.toList) := by
  have hsolid := eq_of_split hsplit
  have hletters : ∀ c ∈ kept ++ f.name.toList, isNameChar c = true :=
    fun c => Lexeme.isNameChar_of_mem (Piece.isName_of_split hsplit)
  have hkept : kept ≠ [] := by
    rintro rfl
    rw [List.nil_append, String.ofList_toList, Func.ofName?_name] at hname
    exact nomatch hname
  constructor
  · -- No function that ends the entry is longer, so this one is taken.
    have hf : (Key.func f).text <:+ Text.trimEnd entry :=
      (call_suffix_iff f _).2 ⟨front, _, hsplit, List.suffix_append ..⟩
    have hlength : lastSymbolLength (Text.trimEnd entry) = (Key.func f).text.length := by
      rcases lastSymbolLength_cases (Text.trimEnd entry) with ⟨-, hnone⟩ | ⟨g, hlength, hg, hlong⟩
      · exact absurd hf (hnone f)
      · obtain ⟨front', letters, hsplit', hsuffix⟩ := (call_suffix_iff g _).1 hg
        rw [letters_unique hsplit hsplit'] at hsuffix
        have hle : (Key.func g).text.length ≤ (Key.func f).text.length := by
          simpa [Key.text] using hlongest g hsuffix
        rw [hlength]
        exact Nat.le_antisymm hle (hlong f hf)
    have htake : Text.trimEnd entry = (Piece.textOf front ++ kept) ++ (Key.func f).text := by
      rw [hsolid]
      simp [Key.text]
    rw [deleteLast, hlength, htake, List.length_append, Nat.add_sub_cancel, List.take_left]
    exact Text.trimEnd_letters _ hkept fun c hc => hletters c (List.mem_append_left _ hc)
  · have hlength : symbolLength (Text.trimEnd entry) = 1 := by
      rw [symbolLength, openCall?_of_split hsplit]
      show ((Func.ofName? (.ofList (kept ++ f.name.toList))).map _).getD 1 = 1
      rw [hname]
      rfl
    rw [withoutLastSymbol, hlength, hsolid, List.length_append]
    show Text.trimEnd (List.take (_ + 1 - 1) _) = _
    rw [Nat.add_sub_cancel, List.take_left]
    exact Text.trimEnd_letters _ (by simp [hkept]) hletters

/-- A name that is cut ends in a longest function. -/
theorem CutsName.exists_longest {cs : List Char} (h : CutsName cs) :
    ∃ (front : List Piece) (kept : List Char) (f : Func),
      Piece.split cs = front ++ [Piece.lexeme (.name (kept ++ f.name.toList)), .opening] ∧
        Func.ofName? (.ofList (kept ++ f.name.toList)) = none ∧
        ∀ g : Func, g.name.toList <:+ kept ++ f.name.toList →
          g.name.toList.length ≤ f.name.toList.length := by
  obtain ⟨front, letters, f, hsplit, hname, hletters⟩ := h
  rcases lastSymbolLength_cases cs with ⟨-, hnone⟩ | ⟨g, -, hg, hlong⟩
  · exact absurd ((call_suffix_iff f cs).2 ⟨front, letters, hsplit, hletters⟩) (hnone f)
  · obtain ⟨front', letters', hsplit', kept, rfl⟩ := (call_suffix_iff g cs).1 hg
    obtain rfl := letters_unique hsplit hsplit'
    refine ⟨front, kept, g, hsplit, hname, fun g' hsuffix => ?_⟩
    simpa [Key.text] using hlong g' ((call_suffix_iff g' cs).2 ⟨front, _, hsplit, hsuffix⟩)

/-- **The last symbol is taken back** as the reader of tokens sees it, unless
it would be the parenthesis behind a name that ends in that of a function.
Then the longest such function goes with the parenthesis, and the letters in
front of it stay. -/
theorem deleteLast_eq_iff (entry : List Char) :
    (deleteLast entry = withoutLastSymbol entry ↔ ¬ CutsName (Text.trimEnd entry)) ∧
      ∀ (front : List Piece) (kept : List Char) (f : Func),
        Piece.split (Text.trimEnd entry) =
          front ++ [Piece.lexeme (.name (kept ++ f.name.toList)), .opening] →
        Func.ofName? (.ofList (kept ++ f.name.toList)) = none →
        (∀ g : Func, g.name.toList <:+ kept ++ f.name.toList →
          g.name.toList.length ≤ f.name.toList.length) →
        deleteLast entry = Piece.textOf front ++ kept ∧
          withoutLastSymbol entry = Piece.textOf front ++ (kept ++ f.name.toList) := by
  refine ⟨⟨?_, ?_⟩, fun front kept f => deleteLast_of_cut⟩
  · intro heq hcut
    obtain ⟨front, kept, f, hsplit, hname, hlongest⟩ := hcut.exists_longest
    obtain ⟨hleft, hall⟩ := deleteLast_of_cut hsplit hname hlongest
    have hnil : kept = kept ++ f.name.toList :=
      List.append_cancel_left (hleft.symm.trans (heq.trans hall))
    exact name_ne_nil f (List.self_eq_append_right.1 hnil)
  · intro hcut
    rw [deleteLast, withoutLastSymbol, (lastSymbolLength_eq_iff _).2 hcut]

/-- In `1 + kcos(` only the parenthesis is a symbol of its own, but `cos(`
goes. -/
theorem deleteLast_kcos :
    deleteLast "1 + kcos(".toList = "1 + k".toList ∧
      withoutLastSymbol "1 + kcos(".toList = "1 + kcos".toList := by
  have hsplit : Piece.split (Text.trimEnd "1 + kcos(".toList) =
      [Piece.lexeme (.number ['1'] none), .blank ' ', .lexeme (.operator .add), .blank ' '] ++
        [Piece.lexeme (.name (['k'] ++ Func.cos.name.toList)), .opening] := by
    cbv
  refine (deleteLast_eq_iff "1 + kcos(".toList).2 _ ['k'] .cos hsplit (by cbv) ?_
  intro g hsuffix
  revert hsuffix
  cases g <;> decide

/-- The end of `kcos(` is taken for a call, which it is not. -/
theorem deleteLast_ne_withoutLastSymbol :
    ¬ ∀ entry, deleteLast entry = withoutLastSymbol entry := by
  intro h
  have hkcos := h "kcos(".toList
  have hcut : deleteLast "kcos(".toList = ['k'] := by cbv
  have hwhole : withoutLastSymbol "kcos(".toList = "kcos".toList := by cbv
  rw [hcut, hwhole] at hkcos
  exact absurd hkcos (by decide)

end Entry

end FormulaDesk
