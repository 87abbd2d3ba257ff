/-
  FormulaDesk.Proofs.Descent
  ──────────────────────────────────────
  **READING DOWN INTO PARENTHESES.**

  A third way to read tokens, beside the reader that goes from right to left
  and the scanner with its stack: one call reads one list of tokens.  At an
  opening parenthesis it calls itself for the list inside, and goes on where
  that call came to its end.  A call ends at the parenthesis that closes its
  list, or at the end of the text when it reads the list of the whole text.

  The three agree, faults included.  And a call for the list inside a
  parenthesis comes to its end right behind the parenthesis that the look-ahead
  finds.

    • `Scanner.scan_eq_descend` — the scanner descends into its innermost list;
    • `exists_closes` — what a list inside parentheses has read when it ends;
    • `closing?_meets_descent` — the look-ahead and the descent at any
      parenthesis of any text.
-/
import FormulaDesk.Proofs.Segments

namespace FormulaDesk

/-! ## §1. The descent. -/

/-- How the list of tokens at the head of some pieces has ended. -/
structure Ended (ps : List Piece) where
  tokens : List Token
  /-- The place behind all that has been read. -/
  position : Nat
  /-- The pieces that have not been read. -/
  rest : List Piece
  rest_le : rest.length ≤ ps.length

/-- The same end, seen from farther in front. -/
def Ended.within {ps qs : List Piece} (h : ps.length ≤ qs.length) (e : Ended ps) : Ended qs :=
  { e with rest_le := Nat.le_trans e.rest_le h }

/-- **The descent**: one list of tokens, inside `depth` parentheses.  `opening`
is the place of the one that opens the list, `tokens` is the list so far, and
`callee` is the function whose name has just been read. -/
def descend (opening : Option Nat) (depth position : Nat) (tokens : List Token)
    (callee : Option Func) (ps : List Piece) : Except TextFault (Ended ps) :=
  match ps with
  | [] =>
    match opening with
    | none => .ok ⟨tokens, position, [], Nat.le_refl _⟩
    | some place => .error (.unclosed place)
  | .closing :: ps =>
    match opening with
    | none => .error (.unexpectedClosing position)
    | some _ => .ok ⟨tokens, position + 1, ps, Nat.le_succ _⟩
  | .opening :: ps =>
    if maxNesting ≤ depth then .error (.nestingTooDeep position)
    else do
      let inner ← descend (some position) (depth + 1) (position + 1) [] none ps
      let front := if callee.isSome then tokens.dropLast else tokens
      let whole := callee.elim Token.group Token.call inner.tokens
      let e ← descend opening depth inner.position (front ++ [whole]) none inner.rest
      return e.within (Nat.le_succ_of_le inner.rest_le)
  | .blank _ :: ps =>
    (descend opening depth (position + 1) tokens none ps).map (.within (Nat.le_succ _))
  | .lexeme l :: ps =>
    if l.complete then
      (descend opening depth (position + l.text.length) (tokens ++ [l.token])
        (Piece.lexeme l).function? ps).map (.within (Nat.le_succ _))
    else .error (.incompleteToken (.ofList l.text) position)
  | .stray c :: _ => .error (.unsupportedCharacter c position)
termination_by ps.length
decreasing_by
  all_goals simp_wf
  have := inner.rest_le
  omega

/-- The descent from a place of a text: the tokens of the list there, and the
place behind it. -/
def Token.scan (cs : List Char) (start : Nat) (opening : Option Nat) (depth : Nat) :
    Except TextFault (List Token × Nat) :=
  (descend opening depth start [] none (Piece.split (cs.drop start))).map
    fun e => (e.tokens, e.position)

/-- **Induction along the descent**: behind the first piece it goes on with some
of the pieces there, and not with more. -/
theorem Piece.induct_shorter {motive : List Piece → Prop} (nil : motive [])
    (cons : ∀ p ps, (∀ qs : List Piece, qs.length ≤ ps.length → motive qs) → motive (p :: ps))
    (ps : List Piece) : motive ps := by
  induction hlength : ps.length using Nat.strong_induction_on generalizing ps with
  | h n ih =>
      cases ps with
      | nil => exact nil
      | cons p ps =>
          refine cons p ps fun qs hqs => ih qs.length ?_ qs rfl
          rw [← hlength]
          exact Nat.lt_succ_of_le hqs

/-! ## §2. The descent and the scanner. -/

/-- How the scanner goes on where a list has ended. -/
def Scanner.resume (frames : List Frame) {ps : List Piece} (e : Ended ps) :
    Except TextFault (List Token) :=
  match frames with
  | [] => .ok e.tokens
  | fr :: outer => (⟨e.position, outer, fr.close e.tokens, none⟩ : Scanner).scan e.rest

/-- The descent of the innermost list of a scanner. -/
def Scanner.descend (s : Scanner) (ps : List Piece) : Except TextFault (Ended ps) :=
  FormulaDesk.descend s.places.head? s.places.length s.position s.tokens s.callee ps

/-- **The scanner descends**: it reads the innermost list to its end and goes on
there. -/
theorem Scanner.scan_eq_descend (ps : List Piece) :
    ∀ s : Scanner, s.scan ps = s.descend ps >>= resume s.frames := by
  induction ps using Piece.induct_shorter with
  | nil =>
      intro s
      rw [scan, descend, places]
      cases s.frames with
      | nil => rw [List.map_nil, List.head?_nil, FormulaDesk.descend]; rfl
      | cons fr outer => rw [List.map_cons, List.head?_cons, FormulaDesk.descend]; rfl
  | cons p ps ih =>
      intro s
      rw [scan]
      cases p with
      | blank c =>
          rw [descend, FormulaDesk.descend, map_bind]
          exact ih ps (Nat.le_refl _) _
      | stray c =>
          rw [descend, FormulaDesk.descend]
          rfl
      | closing =>
          -- The list ends here, and the frame that waits for it goes on.
          rw [descend]
          cases hframes : s.frames with
          | nil =>
              rw [places, hframes, List.map_nil, List.head?_nil, FormulaDesk.descend]
              rfl
          | cons fr outer =>
              rw [read_closing hframes, places, hframes, List.map_cons, List.head?_cons,
                FormulaDesk.descend]
              rfl
      | lexeme l =>
          rw [descend, FormulaDesk.descend, Piece.fault?]
          cases l.complete with
          | true =>
              rw [if_pos rfl, if_pos rfl, map_bind]
              exact ih ps (Nat.le_refl _) _
          | false => rfl
      | opening =>
          rw [descend, FormulaDesk.descend, Piece.fault?]
          by_cases hdeep : maxNesting ≤ s.places.length
          · rw [if_pos hdeep, if_pos hdeep]
            rfl
          · -- First the list inside is read, then the rest of this one.
            rw [if_neg hdeep, if_neg hdeep]
            show (s.read .opening).scan ps = _
            rw [ih ps (Nat.le_refl _), bind_assoc]
            refine congrArg (_ >>= ·) (funext fun inner => ?_)
            rw [bind_assoc]
            exact ih inner.rest inner.rest_le _

/-- **The tokens of a text are those of the descent**, and so are its faults. -/
theorem Token.ofText_eq_descent (text : String) :
    ofText text = (scan text.toList 0 none 0).map Prod.fst := by
  rw [Scanner.ofText_eq_scan, Scanner.scan_eq_descend, scan, map_map, List.drop_zero]
  show _ >>= Scanner.resume [] = (FormulaDesk.descend _ _ _ _ _ _).map _
  show FormulaDesk.descend none 0 0 [] none _ >>= _ = _
  cases FormulaDesk.descend none 0 0 [] none (Piece.split text.toList) <;> rfl

/-! ## §3. Where a list inside parentheses ends. -/

/-- A list that begins at a place has ended at the parenthesis that closes it:
what has been read before that pairs off. -/
structure Ended.Closes {ps : List Piece} (e : Ended ps) (position : Nat) (body : List Piece) :
    Prop where
  eq_append : ps = body ++ .closing :: e.rest
  balanced : Piece.Balanced body
  position_eq : e.position = position + (Piece.textOf body).length + 1

namespace Ended.Closes

variable {ps body behind : List Piece} {position : Nat}

/-- A piece that is no parenthesis comes in front. -/
theorem cons {p : Piece} {e : Ended ps} (h : e.Closes (position + p.text.length) body)
    (ho : p ≠ .opening) (hc : p ≠ .closing) :
    (e.within (Nat.le_succ _) : Ended (p :: ps)).Closes position (p :: body) := by
  refine ⟨congrArg (p :: ·) h.eq_append, h.balanced.cons ho hc, ?_⟩
  show e.position = _
  rw [h.position_eq, Piece.textOf_cons, List.length_append, Nat.add_assoc position]

/-- A pair of parentheses comes in front. -/
theorem pair {inner : Ended ps} (h : inner.Closes (position + 1) body) {e : Ended inner.rest}
    (h' : e.Closes inner.position behind) :
    (e.within (Nat.le_succ_of_le inner.rest_le) : Ended (.opening :: ps)).Closes position
      (.opening :: body ++ .closing :: behind) := by
  refine ⟨?_, h.balanced.pair h'.balanced, ?_⟩
  · show .opening :: ps = .opening :: (body ++ .closing :: behind) ++ .closing :: e.rest
    rw [List.cons_append, List.append_assoc, List.cons_append, ← h'.eq_append, ← h.eq_append]
  · show e.position = _
    rw [h'.position_eq, h.position_eq, Piece.textOf_append, Piece.textOf_cons,
      Piece.textOf_cons, List.length_append, List.length_append, List.length_append]
    show position + 1 + _ + 1 + _ + 1 = position + (1 + _ + (1 + _)) + 1
    omega

end Ended.Closes

/-- **A list inside parentheses ends where they close.** -/
theorem exists_closes (ps : List Piece) :
    ∀ {place depth position : Nat} {tokens : List Token} {callee : Option Func} {e : Ended ps},
      descend (some place) depth position tokens callee ps = .ok e →
        ∃ body, e.Closes position body := by
  induction ps using Piece.induct_shorter with
  | nil =>
      intro place depth position tokens callee e h
      rw [descend] at h
      exact nomatch h
  | cons p ps ih =>
      intro place depth position tokens callee e h
      cases p with
      | blank c =>
          rw [descend] at h
          obtain ⟨e', he', rfl⟩ := map_eq_ok_iff.1 h
          obtain ⟨body, hbody⟩ := ih ps (Nat.le_refl _) he'
          exact ⟨_, Ended.Closes.cons (p := .blank c) hbody nofun nofun⟩
      | stray c =>
          rw [descend] at h
          exact nomatch h
      | closing =>
          rw [descend] at h
          obtain rfl := Except.ok.inj h
          exact ⟨[], rfl, Piece.balanced_nil, rfl⟩
      | lexeme l =>
          rw [descend] at h
          split at h
          next =>
            obtain ⟨e', he', rfl⟩ := map_eq_ok_iff.1 h
            obtain ⟨body, hbody⟩ := ih ps (Nat.le_refl _) he'
            exact ⟨_, Ended.Closes.cons (p := .lexeme l) hbody nofun nofun⟩
          next => exact nomatch h
      | opening =>
          rw [descend] at h
          split at h
          next => exact nomatch h
          next =>
            obtain ⟨inner, hinner, h⟩ := bind_eq_ok_iff.1 h
            obtain ⟨e', he', h⟩ := bind_eq_ok_iff.1 h
            obtain rfl := Except.ok.inj h
            obtain ⟨body, hbody⟩ := ih ps (Nat.le_refl _) hinner
            obtain ⟨behind, hbehind⟩ := ih inner.rest inner.rest_le he'
            exact ⟨_, hbody.pair hbehind⟩

/-! ## §4. The look-ahead and the descent. -/

/-- **A group ends where the look-ahead says.** -/
theorem closing?_of_scan {cs : List Char} {i : Nat} (h : cs[i]? = some '(') {depth next : Nat}
    {ts : List Token} (hscan : Token.scan cs (i + 1) (some i) depth = .ok (ts, next)) :
    ∃ j, next = j + 1 ∧ closing? cs i = some j := by
  obtain ⟨e, he, hend⟩ := map_eq_ok_iff.1 hscan
  obtain ⟨body, hbody⟩ := exists_closes _ he
  obtain ⟨-, rfl⟩ := Prod.mk.inj hend
  exact ⟨_, hbody.position_eq, closing?_of_split h hbody.eq_append hbody.balanced⟩

/-- **LOOK-AHEAD AND DESCENT FIND THE SAME PARENTHESIS.**  The tokens of a text
are read by the descent, and its products are written with the look-ahead.
Where a parenthesis opens, the look-ahead ends at the first place up to which
as many parentheses are closed as opened, and its counter is never negative.
When the descent has read the list inside the parenthesis, it goes on right
behind that place; and where there is none it fails, however deep it is. -/
theorem closing?_meets_descent (cs : List Char) :
    Token.ofText (.ofList cs) = (Token.scan cs 0 none 0).map Prod.fst ∧
    explicitProducts (.ofList cs) = .ofList (segment 0 .nothing cs) ∧
    ∀ i, cs[i]? = some '(' →
      (∀ j, closing? cs i = some j ↔
        IsLeast {k | i < k ∧ k < cs.length ∧
          (stretch cs i k).count '(' = (stretch cs i k).count ')'} j) ∧
      (∀ n ∈ closingCounters cs i, 0 ≤ n) ∧
      (∀ depth ts next, Token.scan cs (i + 1) (some i) depth = .ok (ts, next) →
        ∃ j, next = j + 1 ∧ closing? cs i = some j) ∧
      (closing? cs i = none →
        ∀ depth, ∃ fault, Token.scan cs (i + 1) (some i) depth = .error fault) := by
  have hdescent := Token.ofText_eq_descent (.ofList cs)
  have hsegment := explicitProducts_eq_segment (.ofList cs)
  rw [String.toList_ofList] at hdescent hsegment
  refine ⟨hdescent, hsegment, fun i h => ⟨closing?_eq_some_iff h,
    nonneg_of_mem_closingCounters h, fun depth ts next => closing?_of_scan h, ?_⟩⟩
  intro hnone depth
  cases hscan : Token.scan cs (i + 1) (some i) depth with
  | error fault => exact ⟨fault, rfl⟩
  | ok r =>
      obtain ⟨j, -, hj⟩ := closing?_of_scan h hscan
      exact nomatch hnone.symm.trans hj

/-- In `(x)(y` the first parenthesis is closed, and the second one stays open. -/
theorem closing?_meets_descent_open :
    (∃ j, 3 = j + 1 ∧ closing? "(x)(y".toList 0 = some j) ∧
    closing? "(x)(y".toList 3 = none ∧
    ∃ fault, Token.scan "(x)(y".toList 4 (some 3) 0 = .error fault := by
  have hscan : Token.scan "(x)(y".toList 1 (some 0) 0 = .ok ([.terminal "x"], 3) := by
    have hsplit : Piece.split ("(x)(y".toList.drop 1) =
        [.lexeme (.name ['x']), .closing, .opening, .lexeme (.name ['y'])] := by
      cbv
    have hcomplete : (Lexeme.name ['x']).complete = true := rfl
    rw [Token.scan, hsplit, descend, if_pos hcomplete, descend]
    rfl
  have hnone : closing? "(x)(y".toList 3 = none := by
    decide
  obtain ⟨-, -, hplaces⟩ := closing?_meets_descent "(x)(y".toList
  obtain ⟨-, -, hcloses, -⟩ := hplaces 0 rfl
  obtain ⟨-, -, -, hopen⟩ := hplaces 3 rfl
  exact ⟨hcloses 0 _ 3 hscan, hnone, hopen hnone 0⟩

end FormulaDesk
