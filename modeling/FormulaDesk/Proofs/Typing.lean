/-
  FormulaDesk.Proofs.Typing
  ──────────────────────────────────────
  **A KEY ADDS ITS OWN TOKEN.**

  The blanks that a key puts before its text keep it apart from what is
  already typed.  So in an entry that has tokens once its parentheses are
  closed, every key that writes a whole token adds that token to the
  innermost open list, and nothing that was there changes.  One case is meant
  otherwise: an opening parenthesis that touches the name of a function is
  its call, and takes the name with it.

    • `Entry.beforeName_not_name`, `Entry.lastName?_opening` — the entry as it
      stands before the text of a key;
    • `Entry.ofText_type` — what each key does to the tokens.
-/
import FormulaDesk.Proofs.OpenLists
import FormulaDesk.Screen.Entry

namespace FormulaDesk

open Scanner (after closeAll)

namespace Entry

variable {entry : List Char} {frames : List Frame} {tokens : List Token}

/-! ## §1. Before a name. -/

/-- A name that ends an entry has its last character. -/
theorem getLast?_of_name {front : List Piece} {letters : List Char}
    (h : Piece.split entry = front ++ [Piece.lexeme (.name letters)]) :
    ∃ c ∈ letters, isNameChar c = true ∧ entry.getLast? = some c ∧
      lastSolid? entry = some c := by
  have hname : isName letters = true := Piece.isName_of_split h
  have hchars : ∀ c ∈ letters, isNameChar c = true := fun c => Lexeme.isNameChar_of_mem hname
  have hentry : entry = Piece.textOf front ++ letters := by
    rw [← Piece.textOf_split entry, h, Piece.textOf_append]
    simp [Piece.text, Lexeme.text]
  cases hlast : letters.getLast? with
  | none =>
      rw [List.getLast?_eq_none_iff.1 hlast] at hname
      exact absurd hname (by decide)
  | some c =>
      have hc := List.mem_of_getLast? hlast
      have hend : entry.getLast? = some c := by
        rw [hentry, List.getLast?_append, hlast]
        rfl
      have htrim : Text.trimEnd entry = entry := by
        rw [hentry]
        exact Text.trimEnd_letters _ (List.ne_nil_of_mem hc) hchars
      exact ⟨c, hc, hchars c hc, hend, by rw [lastSolid?, htrim, hend]⟩

/-- **No name ends the entry** as it stands before another one. -/
theorem beforeName_not_name (entry : List Char) {p : Piece}
    (hp : (Piece.split (beforeName entry)).getLast? = some p) (letters : List Char) :
    p ≠ .lexeme (.name letters) := by
  rintro rfl
  obtain ⟨front, hsplit⟩ := List.getLast?_eq_some_iff.1 hp
  rw [beforeName] at hsplit
  split at hsplit
  next =>
    -- The space is the last piece.
    obtain ⟨c, hc, hchar, hlast, -⟩ := getLast?_of_name hsplit
    rw [List.getLast?_concat] at hlast
    obtain rfl := Option.some.inj hlast
    exact absurd hchar (by decide)
  next hkeep =>
    -- A name at the end would have asked for a space.
    obtain ⟨c, -, hchar, hlast, hsolid⟩ := getLast?_of_name hsplit
    have hparts : partsName c = true := by
      rw [partsName]
      exact Bool.or_eq_true_iff.2 (.inl hchar)
    have hblank : endsBlank entry = false := by
      rw [endsBlank, hlast]
      exact isBlank_eq_false_of_isNameChar hchar
    exact hkeep (by rw [hsolid, hblank]; simp [hparts])

theorem leaves_beforeName (h : Leaves entry frames tokens) :
    Leaves (beforeName entry) frames tokens := by
  rw [beforeName]
  split
  next => exact h.space
  next => exact h

theorem split_beforeName {word : List Char} (hword : isName word = true) (entry : List Char) :
    Piece.split (beforeName entry ++ word) =
      Piece.split (beforeName entry) ++ [Piece.lexeme (.name word)] :=
  Piece.split_append_lexeme (l := .name word) hword fun _ hp =>
    Piece.endsAt_name (beforeName_not_name entry hp) hword

/-- **A name typed by a key** comes to the innermost list. -/
theorem leaves_name (h : Leaves entry frames tokens) {word : List Char}
    (hword : isName word = true) :
    Leaves (beforeName entry ++ word) frames (tokens ++ [Token.terminal (String.ofList word)]) :=
  (leaves_beforeName h).add (split_beforeName hword entry) (.lexeme _ rfl)

/-! ## §2. Before a parenthesis. -/

theorem leaves_opening (h : Leaves entry frames tokens) :
    Leaves (before entry .opening) frames tokens := by
  rw [before]
  split
  next => exact h.space
  next => exact h

/-- The space before a parenthesis parts it from no name of a function. -/
theorem lastName?_opening (entry : List Char) :
    lastName? (before entry .opening) = lastName? entry := by
  rw [before]
  split
  next hparts =>
    have hspace : lastName? (entry ++ [' ']) = none := by
      rw [lastName?, Piece.split_space, List.getLast?_concat]
      rfl
    rw [hspace]
    cases hname : lastName? entry with
    | none => rfl
    | some f =>
        -- The name ends with a letter, after which no space is put.
        obtain ⟨front, hsplit⟩ := exists_of_lastName? hname
        obtain ⟨c, hc, -, -, hsolid⟩ := getLast?_of_name hsplit
        have hstart := isNameStart_of_mem_name f c hc
        have hparen : c ≠ ')' := ne_of_class hstart rfl
        rw [hsolid] at hparts
        simp [partsGroup, isDigit_eq_false_of_isNameStart hstart, hparen] at hparts
  next => rfl

/-! ## §3. Whole tokens. -/

theorem isName_quantity (q : Quantity) : isName q.name.toList = true := by
  cases q <;> decide

/-- The name of a quantity. -/
theorem leaves_quantity (h : Leaves entry frames tokens) (q : Quantity) :
    Leaves (type entry (.quantity q)) frames (tokens ++ [Token.terminal q.name]) := by
  have hname := leaves_name h (isName_quantity q)
  rw [String.ofList_toList] at hname
  have htype : type entry (.quantity q) = beforeName entry ++ q.name.toList :=
    List.append_nil _
  rw [htype]
  exact hname

/-- An operator between its spaces. -/
theorem leaves_operator (h : Leaves entry frames tokens) (op : Operator) :
    Leaves (type entry (.operator op)) frames (tokens ++ [Token.operator op]) := by
  have hbefore : Leaves (before entry (.operator op)) frames tokens := by
    show Leaves (if Text.trimEnd entry = [] then [] else Text.trimEnd entry ++ [' ']) _ _
    split
    next hnil => rw [← hnil]; exact h.trimEnd
    next => exact h.trimEnd.space
  have htext : (Key.operator op).text = [op.symbol] := by
    show (String.singleton op.symbol).toList = _
    rw [String.toList_singleton]
  have hsplit : Piece.split (before entry (.operator op) ++ [op.symbol]) =
      Piece.split (before entry (.operator op)) ++ [Piece.lexeme (.operator op)] :=
    Piece.split_append_lexeme (l := .operator op) trivial fun p _ =>
      (Piece.fresh_symbol op []).endsAt p
  rw [type, htext]
  exact (hbefore.add hsplit (.lexeme _ rfl)).space

/-- A pair of parentheses behind a function key is its call. -/
theorem leaves_call (h : Leaves entry frames tokens) (f : Func) {u : String} {us : List Token}
    (hu : Token.ofText u = .ok us)
    (hdeep : frames.length + 1 + Token.nestingAll us ≤ maxNesting) :
    Leaves (type entry (.func f) ++ (u.toList ++ [')'])) frames (tokens ++ [Token.call f us]) := by
  have hname := leaves_name h (isName_name f)
  have hf : lastName? (beforeName entry ++ f.name.toList) = some f := by
    rw [lastName?, split_beforeName (isName_name f), List.getLast?_concat]
    show Func.ofName? (.ofList f.name.toList) = some f
    rw [String.ofList_toList, Func.ofName?_name]
  have htype : type entry (.func f) ++ (u.toList ++ [')']) =
      beforeName entry ++ f.name.toList ++ '(' :: (u.toList ++ [')']) := by
    simp [type, before, behind, Key.text]
  -- The name is a token of its own first, and the parenthesis takes it back.
  have hfront := hname.eq_front_of_lastName? hf
  rw [String.ofList_toList] at hfront
  have hpair := hname.pair hu hdeep
  rw [callee_after, hf, ← List.append_cancel_right hfront] at hpair
  rw [htype]
  exact hpair

/-- A pair of parentheses behind the key that opens it is the call of the name
that ends the entry, or a group. -/
theorem leaves_pair (h : Leaves entry frames tokens) {u : String} {us : List Token}
    (hu : Token.ofText u = .ok us)
    (hdeep : frames.length + 1 + Token.nestingAll us ≤ maxNesting) :
    (∀ f, lastName? entry = some f → ∃ init, tokens = init ++ [Token.terminal f.name] ∧
      Leaves (type entry .opening ++ (u.toList ++ [')'])) frames (init ++ [Token.call f us])) ∧
    (lastName? entry = none →
      Leaves (type entry .opening ++ (u.toList ++ [')'])) frames (tokens ++ [Token.group us])) := by
  have hopening := leaves_opening h
  have hpair := hopening.pair hu hdeep
  rw [callee_after, lastName?_opening] at hpair
  have htype : type entry .opening ++ (u.toList ++ [')']) =
      before entry .opening ++ '(' :: (u.toList ++ [')']) := by
    simp [type, behind, Key.text, Key.label]
  rw [htype]
  constructor
  · intro f hf
    rw [hf] at hpair
    exact ⟨_, hopening.eq_front_of_lastName? ((lastName?_opening entry).trans hf), hpair⟩
  · intro hnone
    rw [hnone, Scanner.front_of_callee (by rw [callee_after, lastName?_opening, hnone]),
      hopening.tokens_eq] at hpair
    exact hpair

/-! ## §4. The tokens of an entry. -/

/-- **A key adds its own token** to the innermost open list of an entry whose
parentheses have been closed: the name of a quantity, an operator, the call
of a function key.  A pair of parentheses is a group there, or the call of
the name that the entry ends with.  A closing parenthesis only closes the
innermost list. -/
theorem ofText_type {entry : List Char} {k : Nat} {ts : List Token}
    (h : Token.ofText (String.ofList (entry ++ List.replicate k ')')) = .ok ts) :
    (∀ change, Token.openList k (Token.changeOpen change k ts) =
        change (Token.openList k ts)) ∧
      (∀ q, Token.ofText (String.ofList (type entry (.quantity q) ++ List.replicate k ')')) =
        .ok (Token.changeOpen (· ++ [Token.terminal q.name]) k ts)) ∧
      (∀ op, Token.ofText (String.ofList (type entry (.operator op) ++ List.replicate k ')')) =
        .ok (Token.changeOpen (· ++ [Token.operator op]) k ts)) ∧
      (∀ u us, Token.ofText u = .ok us → k + 1 + Token.nestingAll us ≤ maxNesting →
        (∀ f, Token.ofText (String.ofList
            (type entry (.func f) ++ (u.toList ++ [')']) ++ List.replicate k ')')) =
          .ok (Token.changeOpen (· ++ [Token.call f us]) k ts)) ∧
        (∀ f, lastName? entry = some f →
          (Token.openList k ts).getLast? = some (.terminal f.name) ∧
          Token.ofText (String.ofList
              (type entry .opening ++ (u.toList ++ [')']) ++ List.replicate k ')')) =
            .ok (Token.changeOpen (·.dropLast ++ [Token.call f us]) k ts)) ∧
        (lastName? entry = none →
          Token.ofText (String.ofList
              (type entry .opening ++ (u.toList ++ [')']) ++ List.replicate k ')')) =
            .ok (Token.changeOpen (· ++ [Token.group us]) k ts))) ∧
      (∀ n, k = n + 1 →
        Token.ofText (String.ofList (type entry .closing ++ List.replicate n ')')) = .ok ts) := by
  obtain ⟨frames, tokens, hleaves, rfl, rfl⟩ := ofText_closed_iff.1 h
  simp only [Scanner.openList_closeAll, Scanner.changeOpen_closeAll]
  refine ⟨fun _ => trivial, fun q => (leaves_quantity hleaves q).ofText,
    fun op => (leaves_operator hleaves op).ofText, ?_, ?_⟩
  · intro u us hu hdeep
    obtain ⟨hcall, hgroup⟩ := leaves_pair hleaves hu hdeep
    refine ⟨fun f => (leaves_call hleaves f hu hdeep).ofText, ?_,
      fun hnone => (hgroup hnone).ofText⟩
    intro f hf
    obtain ⟨init, rfl, hinit⟩ := hcall f hf
    rw [List.getLast?_concat, List.dropLast_concat]
    exact ⟨rfl, hinit.ofText⟩
  · intro n hn
    have htype : type entry .closing ++ List.replicate n ')' =
        Text.trimEnd entry ++ List.replicate frames.length ')' := by
      rw [hn, List.replicate_succ]
      simp [type, before, behind, Key.text, Key.label]
    rw [htype]
    exact hleaves.trimEnd.ofText

/-- A variable behind the name of a function is one more token, and a
parenthesis there is its call. -/
theorem ofText_type_sin :
    Token.ofText (String.ofList (type "(2 sin".toList (.quantity .time) ++ [')'])) =
        .ok [.group [Token.terminal "2", .terminal "sin", .terminal "t"]] ∧
      Token.ofText (String.ofList
          (type "(2 sin".toList .opening ++ ("x".toList ++ [')']) ++ [')'])) =
        .ok [.group [Token.terminal "2", .call .sin [Token.terminal "x"]]] := by
  have hentry : Token.ofText (String.ofList ("(2 sin".toList ++ List.replicate 1 ')')) =
      .ok [.group [Token.terminal "2", .terminal "sin"]] := by
    cbv
  obtain ⟨-, hquantity, -, hpair, -⟩ := ofText_type hentry
  obtain ⟨-, hcall, -⟩ := hpair "x" [Token.terminal "x"] (by cbv) (by decide)
  exact ⟨hquantity .time, (hcall .sin (by cbv)).2⟩

end Entry

end FormulaDesk
