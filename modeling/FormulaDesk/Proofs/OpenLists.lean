/-
  FormulaDesk.Proofs.OpenLists
  ──────────────────────────────────────
  **THE LISTS THAT A TEXT LEAVES OPEN.**

  A formula that is still typed has parentheses open at its end.  With as
  many closing parentheses behind it, it has tokens, and the lists that were
  open are those at their right end, each inside the last token of the one
  around it.  `Token.openList` goes down to the innermost of them and
  `Token.changeOpen` changes it, and nothing else.

    • `Scanner.scan_closings` — what the closing parentheses make of a state
      of the scanner;
    • `Scanner.adds_spelled` — spelled tokens come to the innermost list;
    • `ofText_closed_iff` — the tokens of a text with its parentheses closed;
    • `Leaves.add`, `Leaves.pair` — what is put behind a text.
-/
import FormulaDesk.Proofs.Ends
import FormulaDesk.Proofs.Reading
import FormulaDesk.Proofs.Scanner

namespace FormulaDesk

/-! ## §1. Down the right end. -/

namespace Token

/-- The list at the right end that `n` parentheses enclose. -/
def openList : Nat → List Token → List Token
  | 0, ts => ts
  | n + 1, ts =>
    match ts.getLast? with
    | some (.group body) => openList n body
    | some (.call _ body) => openList n body
    | _ => []

/-- The tokens with a change to the list at the right end that `n` parentheses
enclose. -/
def changeOpen (change : List Token → List Token) : Nat → List Token → List Token
  | 0, ts => change ts
  | n + 1, ts =>
    match ts.getLast? with
    | some (.group body) => ts.dropLast ++ [.group (changeOpen change n body)]
    | some (.call f body) => ts.dropLast ++ [.call f (changeOpen change n body)]
    | _ => ts

end Token

namespace Scanner

/-- The innermost list with all lists around it closed. -/
def closeAll (frames : List Frame) (ts : List Token) : List Token :=
  frames.foldl (fun body fr => fr.close body) ts

theorem closeAll_concat (frames : List Frame) (fr : Frame) (ts : List Token) :
    closeAll (frames ++ [fr]) ts = fr.close (closeAll frames ts) := by
  rw [closeAll, List.foldl_append]
  rfl

theorem openList_close (fr : Frame) (n : Nat) (ts : List Token) :
    Token.openList (n + 1) (fr.close ts) = Token.openList n ts := by
  rw [Token.openList, Frame.close, List.getLast?_concat]
  cases fr.callee <;> rfl

theorem changeOpen_close (change : List Token → List Token) (fr : Frame) (n : Nat)
    (ts : List Token) :
    Token.changeOpen change (n + 1) (fr.close ts) = fr.close (Token.changeOpen change n ts) := by
  rw [Token.changeOpen, Frame.close, List.getLast?_concat, List.dropLast_concat, Frame.close]
  cases fr.callee <;> rfl

/-- **The innermost list is at the right end** when all others are closed. -/
theorem openList_closeAll (frames : List Frame) (ts : List Token) :
    Token.openList frames.length (closeAll frames ts) = ts := by
  induction frames using List.reverseRecOn with
  | nil => rfl
  | append_singleton frames fr ih =>
      rw [closeAll_concat, List.length_append]
      exact (openList_close fr _ _).trans ih

/-- **A change to the innermost list** leaves the others as they are. -/
theorem changeOpen_closeAll (change : List Token → List Token) (frames : List Frame)
    (ts : List Token) :
    Token.changeOpen change frames.length (closeAll frames ts) = closeAll frames (change ts) := by
  induction frames using List.reverseRecOn with
  | nil => rfl
  | append_singleton frames fr ih =>
      rw [closeAll_concat, closeAll_concat, List.length_append, ← ih]
      exact changeOpen_close change fr _ _

/-! ## §2. Closing what is open. -/

/-- **Closing parentheses** close the lists that are open, and there must be as
many of them. -/
theorem scan_closings (k : Nat) :
    ∀ {s : Scanner} {ts : List Token},
      s.scan (List.replicate k .closing) = .ok ts ↔
        s.frames.length = k ∧ closeAll s.frames s.tokens = ts := by
  induction k with
  | zero =>
      intro s ts
      rw [List.replicate_zero, scan_eq_ok_iff, List.length_eq_zero_iff]
      constructor
      · rintro ⟨-, hframes, htokens⟩
        have hnone : s.frames = [] := hframes
        exact ⟨hnone, by rw [hnone]; exact htokens⟩
      · rintro ⟨hframes, htokens⟩
        rw [hframes] at htokens
        exact ⟨trivial, hframes, htokens⟩
  | succ k ih =>
      intro s ts
      rw [List.replicate_succ, scan]
      cases hframes : s.frames with
      | nil => simp [Piece.fault?, places, hframes]
      | cons fr outer =>
          have hfault : Piece.fault? s.position s.places .closing = none := by
            simp [Piece.fault?, places, hframes]
          rw [hfault]
          show (s.read .closing).scan _ = _ ↔ _
          rw [read_closing hframes, ih, List.length_cons, Nat.succ_inj]
          rfl

/-! ## §3. Tokens that come to the innermost list. -/

/-- Pieces add tokens to the innermost list, and leave the others alone. -/
structure Adds (s : Scanner) (ps : List Piece) (ts : List Token) : Prop where
  clean : s.Clean ps
  frames : (s.readAll ps).frames = s.frames
  tokens : (s.readAll ps).tokens = s.tokens ++ ts

theorem Adds.nil (s : Scanner) : s.Adds [] [] := ⟨trivial, rfl, (List.append_nil _).symm⟩

/-- One piece that adds tokens, and others behind it. -/
theorem Adds.cons {s : Scanner} {p : Piece} {ps : List Piece} {own ts : List Token}
    (hfault : p.fault? s.position s.places = none) (hframes : (s.read p).frames = s.frames)
    (htokens : (s.read p).tokens = s.tokens ++ own) (h : (s.read p).Adds ps ts) :
    s.Adds (p :: ps) (own ++ ts) :=
  ⟨⟨hfault, h.clean⟩, h.frames.trans hframes,
    by rw [readAll_cons, h.tokens, htokens, List.append_assoc]⟩

/-- A lexeme is one token. -/
theorem Adds.lexeme (s : Scanner) {l : Lexeme} (h : l.complete = true) :
    s.Adds [.lexeme l] [l.token] := by
  show s.Adds [.lexeme l] ([l.token] ++ [])
  exact .cons (by rw [Piece.fault?, if_pos h]) rfl rfl (.nil _)

/-- **A pair of parentheses** is one token behind those that stay in front of
it. -/
theorem readAll_pair {s : Scanner} {body ps : List Piece} {us ts : List Token}
    (hroom : s.frames.length < maxNesting) (inside : (s.read .opening).Adds body us)
    (behind : ∀ s' : Scanner, s'.callee = none → s'.frames = s.frames → s'.Adds ps ts) :
    s.Clean (.opening :: (body ++ Piece.closing :: ps)) ∧
      (s.readAll (.opening :: (body ++ Piece.closing :: ps))).frames = s.frames ∧
      (s.readAll (.opening :: (body ++ Piece.closing :: ps))).tokens =
        s.front ++ s.callee.elim Token.group Token.call us :: ts := by
  have hframes : ((s.read .opening).readAll body).frames =
      ⟨s.position, s.callee, s.front⟩ :: s.frames := inside.frames
  have hread := read_closing hframes
  have hbehind := behind _ (callee_read _ .closing) (by rw [hread])
  have hopening : Piece.fault? s.position s.places .opening = none := by
    rw [Piece.fault?, if_neg (by rw [places, List.length_map]; exact Nat.not_le.2 hroom)]
  have hclosing : Piece.fault? ((s.read .opening).readAll body).position
      ((s.read .opening).readAll body).places .closing = none := by
    rw [Piece.fault?, if_neg (by rw [places, hframes]; exact List.cons_ne_nil _ _)]
  have hend : s.readAll (.opening :: (body ++ Piece.closing :: ps)) =
      (((s.read .opening).readAll body).read .closing).readAll ps := by
    rw [readAll_cons, readAll_append, readAll_cons]
  refine ⟨⟨hopening, (clean_append _ _ _).2 ⟨inside.clean, hclosing, hbehind.clean⟩⟩, ?_, ?_⟩
  · rw [hend, hbehind.frames, hread]
  · rw [hend, hbehind.tokens, hread, inside.tokens]
    simp [Frame.close, read]

/-- **Spelled tokens come to the innermost list**, as deep as they may nest. -/
theorem adds_spelled {ps : List Piece} {ts : List Token} (h : Spelled ps ts) :
    ∀ s : Scanner, (s.callee = none ∨ ps.head? ≠ some .opening) →
      s.frames.length + Token.nestingAll ts ≤ maxNesting → s.Adds ps ts := by
  induction h with
  | nil => intro s _ _; exact .nil s
  | blank c _ ih =>
      intro s _ hdeep
      exact Adds.cons rfl rfl (List.append_nil _).symm (ih (s.read (.blank c)) (.inl rfl) hdeep)
  | operator op _ ih =>
      intro s _ hdeep
      rw [Token.nestingAll, Token.nesting, Nat.zero_max] at hdeep
      exact Adds.cons rfl rfl rfl (ih (s.read (.lexeme (.operator op))) (.inl rfl) hdeep)
  | @terminal l operand complete ps callee ts _ ih =>
      intro s _ hdeep
      rw [Token.nestingAll, Token.nesting, Nat.zero_max] at hdeep
      -- The name is no function's, or no parenthesis touches it.
      have hcallee : (s.read (.lexeme l)).callee = none ∨ ps.head? ≠ some .opening := by
        rw [Piece.callee?_eq] at callee
        by_cases hhead : ps.head? = some .opening
        · rw [if_pos hhead] at callee
          exact .inl callee
        · exact .inr hhead
      have htoken : l.token = .terminal (.ofList l.text) := by
        cases l with
        | operator op => exact nomatch operand
        | number whole fraction => rfl
        | name letters => rfl
      rw [← htoken]
      exact Adds.cons (by rw [Piece.fault?, if_pos complete]) rfl rfl
        (ih (s.read (.lexeme l)) hcallee hdeep)
  | group _ _ ihbody ih =>
      intro s hcallee hdeep
      rw [Token.nestingAll, Token.nesting] at hdeep
      have hnone : s.callee = none := hcallee.resolve_right fun hhead => hhead rfl
      obtain ⟨hclean, hframes, htokens⟩ := readAll_pair (by omega)
        (ihbody (s.read .opening) (.inl rfl) (by show s.frames.length + 1 + _ ≤ _; omega))
        (fun s' hs' hsame => ih s' (.inl hs') (by rw [hsame]; omega))
      exact ⟨hclean, hframes, by rw [htokens, front_of_callee hnone, hnone]; rfl⟩
  | call f _ _ ihbody ih =>
      intro s _ hdeep
      rw [Token.nestingAll, Token.nesting] at hdeep
      have hcallee : (s.read (.lexeme (.name f.name.toList))).callee = some f := by
        rw [callee_read, Piece.function?, String.ofList_toList, Func.ofName?_name]
      have hfront : (s.read (.lexeme (.name f.name.toList))).front = s.tokens := by
        rw [front, hcallee]
        exact List.dropLast_concat
      -- The name is read first, and taken back by its parenthesis.
      obtain ⟨hclean, hframes, htokens⟩ := readAll_pair
        (show (s.read (.lexeme (.name f.name.toList))).frames.length < _ by
          show s.frames.length < _; omega)
        (ihbody _ (.inl rfl) (by show s.frames.length + 1 + _ ≤ _; omega))
        (fun s' hs' hsame => ih s' (.inl hs') (by rw [hsame]; show s.frames.length + _ ≤ _; omega))
      refine ⟨⟨rfl, hclean⟩, hframes, ?_⟩
      rw [readAll_cons, htokens, hfront, hcallee]
      rfl

/-- Blanks add nothing. -/
theorem adds_blanks (blanks : List Char) : ∀ s : Scanner, s.Adds (blanks.map .blank) [] := by
  induction blanks with
  | nil => intro s; exact .nil s
  | cons b blanks ih =>
      intro s
      exact Adds.cons rfl rfl (List.append_nil _).symm (ih (s.read (.blank b)))

/-! ## §4. Texts. -/

/-- Where the scanner is behind a text. -/
def after (cs : List Char) : Scanner := start.readAll (Piece.split cs)

theorem after_of_split {cs cs' : List Char} {ps : List Piece}
    (h : Piece.split cs' = Piece.split cs ++ ps) : after cs' = (after cs).readAll ps := by
  rw [after, h, readAll_append]
  rfl

end Scanner

open Scanner (start after closeAll)

/-- A text is read to its end, with these lists around the innermost one. -/
structure Leaves (cs : List Char) (frames : List Frame) (tokens : List Token) : Prop where
  clean : start.Clean (Piece.split cs)
  frames_eq : (after cs).frames = frames
  tokens_eq : (after cs).tokens = tokens

theorem split_closings (k : Nat) :
    Piece.split (List.replicate k ')') = List.replicate k .closing := by
  induction k with
  | zero => rw [List.replicate_zero, List.replicate_zero, Piece.split]
  | succ k ih => rw [List.replicate_succ, List.replicate_succ, Piece.split_closing, ih]

/-- **The tokens of a text with its parentheses closed** are the lists that it
leaves open. -/
theorem ofText_closed_iff {cs : List Char} {k : Nat} {ts : List Token} :
    Token.ofText (String.ofList (cs ++ List.replicate k ')')) = .ok ts ↔
      ∃ frames tokens, Leaves cs frames tokens ∧ frames.length = k ∧
        closeAll frames tokens = ts := by
  have hfresh : Piece.Fresh (List.replicate k ')') := by
    intro c hc
    obtain rfl := List.eq_of_mem_replicate (List.mem_of_head? hc)
    exact ⟨rfl, by decide⟩
  rw [Scanner.ofText_eq_scan, String.toList_ofList, Piece.split_append cs hfresh, split_closings]
  constructor
  · intro h
    obtain ⟨hclean, -⟩ := (Scanner.clean_append _ _ _).1 (Scanner.scan_eq_ok_iff.1 h).1
    rw [Scanner.scan_append _ hclean, Scanner.scan_closings] at h
    exact ⟨_, _, ⟨hclean, rfl, rfl⟩, h⟩
  · rintro ⟨frames, tokens, ⟨hclean, rfl, rfl⟩, h⟩
    rw [Scanner.scan_append _ hclean]
    exact Scanner.scan_closings k |>.2 h

namespace Leaves

variable {cs : List Char} {frames : List Frame} {tokens : List Token}

/-- A text with all its parentheses closed, with what is around its innermost
list. -/
theorem ofText (h : Leaves cs frames tokens) :
    Token.ofText (String.ofList (cs ++ List.replicate frames.length ')')) =
      .ok (closeAll frames tokens) :=
  ofText_closed_iff.2 ⟨frames, tokens, h, rfl, rfl⟩

/-- A text that goes on with clean pieces. -/
theorem of_split (h : Leaves cs frames tokens) {cs' : List Char} {ps : List Piece}
    (hsplit : Piece.split cs' = Piece.split cs ++ ps) (hclean : (after cs).Clean ps) :
    Leaves cs' ((after cs).readAll ps).frames ((after cs).readAll ps).tokens := by
  have hafter := Scanner.after_of_split hsplit
  refine ⟨?_, by rw [hafter], by rw [hafter]⟩
  rw [hsplit]
  exact (Scanner.clean_append _ _ _).2 ⟨h.clean, hclean⟩

/-- **What is put behind a text** comes to the innermost list. -/
theorem add (h : Leaves cs frames tokens) {cs' : List Char} {ps : List Piece} {us : List Token}
    (hsplit : Piece.split cs' = Piece.split cs ++ ps) (hadds : (after cs).Adds ps us) :
    Leaves cs' frames (tokens ++ us) := by
  have hleaves := h.of_split hsplit hadds.clean
  rwa [hadds.frames, hadds.tokens, h.frames_eq, h.tokens_eq] at hleaves

/-- Without the blanks behind it a text leaves the same lists open. -/
theorem trimEnd (h : Leaves cs frames tokens) : Leaves (Text.trimEnd cs) frames tokens := by
  obtain ⟨blanks, hsplit⟩ := Piece.split_trimEnd cs
  obtain ⟨hclean, hframes, htokens⟩ := h
  have hadds := Scanner.adds_blanks blanks (after (Text.trimEnd cs))
  rw [hsplit] at hclean
  rw [Scanner.after_of_split hsplit, hadds.frames] at hframes
  rw [Scanner.after_of_split hsplit, hadds.tokens, List.append_nil] at htokens
  exact ⟨((Scanner.clean_append _ _ _).1 hclean).1, hframes, htokens⟩

/-- A space behind a text adds nothing. -/
theorem space (h : Leaves cs frames tokens) : Leaves (cs ++ [' ']) frames tokens := by
  have hadd := h.add (Piece.split_space cs) (Scanner.adds_blanks [' '] _)
  rwa [List.append_nil] at hadd

/-- **A pair of parentheses behind a text** is one token, behind the tokens that
stay in front of it. -/
theorem pair (h : Leaves cs frames tokens) {u : String} {us : List Token}
    (hu : Token.ofText u = .ok us)
    (hdeep : frames.length + 1 + Token.nestingAll us ≤ maxNesting) :
    Leaves (cs ++ '(' :: (u.toList ++ [')'])) frames
      ((after cs).front ++ [(after cs).callee.elim Token.group Token.call us]) := by
  have hfresh : Piece.Fresh ('(' :: (u.toList ++ [')'])) :=
    Piece.fresh_cons (by decide) (by decide) _
  have hsplit : Piece.split (cs ++ '(' :: (u.toList ++ [')'])) =
      Piece.split cs ++ Piece.opening :: (Piece.split u.toList ++ [Piece.closing]) := by
    rw [Piece.split_append cs hfresh, Spells.split_pair, Piece.split]
  have hlength : (after cs).frames.length = frames.length := by rw [h.frames_eq]
  -- What is inside is spelled, so it comes to the list that the parenthesis opens.
  have hinside : ((after cs).read .opening).Adds (Piece.split u.toList) us := by
    refine Scanner.adds_spelled (Token.ofText_eq_ok_iff.1 hu).1 _ (.inl rfl) ?_
    show (after cs).frames.length + 1 + _ ≤ _
    omega
  obtain ⟨hclean, hframes, htokens⟩ :=
    Scanner.readAll_pair (by omega) hinside fun s' _ _ => Scanner.Adds.nil s'
  have hleaves := h.of_split hsplit hclean
  rwa [hframes, htokens, h.frames_eq] at hleaves

end Leaves

/-! ## §5. A name at the end of a text. -/

/-- The function whose name ends a text. -/
def lastName? (cs : List Char) : Option Func :=
  (Piece.split cs).getLast?.bind Piece.function?

/-- The scanner has just read a name when the text ends with it. -/
theorem callee_after (cs : List Char) : (after cs).callee = lastName? cs := by
  rw [after, lastName?]
  rcases List.eq_nil_or_concat (Piece.split cs) with hnil | ⟨front, p, hsplit⟩
  · rw [hnil]
    rfl
  · rw [hsplit, List.concat_eq_append, Scanner.readAll_append, List.getLast?_concat]
    exact Scanner.callee_read _ p

theorem exists_of_lastName? {cs : List Char} {f : Func} (h : lastName? cs = some f) :
    ∃ front, Piece.split cs = front ++ [Piece.lexeme (.name f.name.toList)] := by
  obtain ⟨p, hp, hf⟩ := Option.bind_eq_some_iff.1 h
  obtain ⟨front, hsplit⟩ := List.getLast?_eq_some_iff.1 hp
  refine ⟨front, ?_⟩
  rw [hsplit, Piece.eq_name_of_function? hf]

/-- The name of a function is the last token of its list, and goes with the
parenthesis that it calls. -/
theorem Leaves.eq_front_of_lastName? {cs : List Char} {frames : List Frame}
    {tokens : List Token} (h : Leaves cs frames tokens) {f : Func} (hf : lastName? cs = some f) :
    tokens = (after cs).front ++ [Token.terminal f.name] := by
  obtain ⟨front, hsplit⟩ := exists_of_lastName? hf
  have htokens : (after cs).tokens = (start.readAll front).tokens ++ [Token.terminal f.name] := by
    rw [after, hsplit, Scanner.readAll_append]
    show _ ++ [Token.terminal (.ofList f.name.toList)] = _
    rw [String.ofList_toList]
  have hfront : (after cs).front = (start.readAll front).tokens := by
    rw [Scanner.front, callee_after, hf, htokens]
    exact List.dropLast_concat
  rw [← h.tokens_eq, htokens, hfront]

end FormulaDesk
