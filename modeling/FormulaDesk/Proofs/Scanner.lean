/-
  FormulaDesk.Proofs.Scanner
  ──────────────────────────────────────
  **READING FORWARD, WITH A STACK.**

  The reader of tokens nests as the parentheses do.  The scanner does not: it
  passes once over the pieces, keeps the tokens of the innermost list that is
  open, and puts every list that waits for a parenthesis inside it to close
  on a stack.  A function name is first one more terminal of its list; the
  parenthesis that touches it takes it back.

    • `Scanner.scan_eq` — the scanner finds what the reader finds, from every
      state;
    • `Scanner.scan_eq_ok_iff` — a scan has tokens when no piece is a fault
      and no list waits at its end;
    • `Scanner.exists_fault` — otherwise there is a first fault;
    • `Scanner.getElem?_places` — which parentheses wait on the stack.
-/
import FormulaDesk.Proofs.Trim

namespace FormulaDesk

/-- The token of a lexeme that calls nothing. -/
def Lexeme.token : Lexeme → Token
  | .operator op => .operator op
  | l => .terminal (.ofList l.text)

/-! ## §1. The stack. -/

/-- A list of tokens that waits for the parenthesis behind it to close. -/
structure Frame where
  /-- Where the parenthesis opened. -/
  place : Nat
  /-- The function that calls the parenthesis. -/
  callee : Option Func
  /-- The tokens in front of the parenthesis, and of the name that calls it. -/
  front : List Token

/-- The list goes on behind the closed parenthesis. -/
def Frame.close (fr : Frame) (body : List Token) : List Token :=
  fr.front ++ [fr.callee.elim Token.group Token.call body]

/-- Where a scan is. -/
structure Scanner where
  position : Nat
  /-- The lists that wait, the nearest first. -/
  frames : List Frame
  /-- The innermost list so far. -/
  tokens : List Token
  /-- The function whose name has just been read. -/
  callee : Option Func

namespace Scanner

/-- Before the first piece of a text. -/
def start : Scanner := ⟨0, [], [], none⟩

/-- The places of the parentheses that are open. -/
def places (s : Scanner) : List Nat := s.frames.map Frame.place

/-- The tokens in front of an opening parenthesis: the name that calls it goes
with it. -/
def front (s : Scanner) : List Token :=
  if s.callee.isSome then s.tokens.dropLast else s.tokens

/-- One piece further, whatever it is. -/
def read (s : Scanner) : Piece → Scanner
  | .blank _ => ⟨s.position + 1, s.frames, s.tokens, none⟩
  | .opening => ⟨s.position + 1, ⟨s.position, s.callee, s.front⟩ :: s.frames, [], none⟩
  | .closing =>
    match s.frames with
    | [] => ⟨s.position + 1, [], s.tokens, none⟩
    | fr :: outer => ⟨s.position + 1, outer, fr.close s.tokens, none⟩
  | .lexeme l =>
    ⟨s.position + l.text.length, s.frames, s.tokens ++ [l.token], (Piece.lexeme l).function?⟩
  | .stray _ => ⟨s.position + 1, s.frames, s.tokens, none⟩

/-- Many pieces further, whatever they are. -/
def readAll (s : Scanner) (ps : List Piece) : Scanner := ps.foldl read s

/-- **The scan**: the first fault wins, and a list that still waits at the end
is one. -/
def scan (s : Scanner) : List Piece → Except TextFault (List Token)
  | [] =>
    match s.places with
    | [] => .ok s.tokens
    | place :: _ => .error (.unclosed place)
  | p :: ps =>
    match p.fault? s.position s.places with
    | some fault => .error fault
    | none => (s.read p).scan ps

theorem position_read (s : Scanner) (p : Piece) :
    (s.read p).position = s.position + p.text.length := by
  cases p with
  | closing => rw [read]; split <;> rfl
  | _ => rfl

theorem callee_read (s : Scanner) (p : Piece) : (s.read p).callee = p.function? := by
  cases p with
  | closing => rw [read]; split <;> rfl
  | _ => rfl

theorem places_read (s : Scanner) (p : Piece) :
    (s.read p).places = p.opens s.position s.places := by
  cases p with
  | closing =>
      cases hframes : s.frames <;> simp [read, places, Piece.opens, hframes]
  | _ => rfl

theorem places_eq_nil_iff (s : Scanner) : s.places = [] ↔ s.frames = [] := List.map_eq_nil_iff

/-- A closing parenthesis ends the innermost list. -/
theorem read_closing {s : Scanner} {fr : Frame} {outer : List Frame} (h : s.frames = fr :: outer) :
    s.read .closing = ⟨s.position + 1, outer, fr.close s.tokens, none⟩ := by
  rw [read, h]

/-- No name is called where none has just been read. -/
theorem front_of_callee {s : Scanner} (h : s.callee = none) : s.front = s.tokens := by
  rw [front, h]
  rfl

theorem readAll_cons (s : Scanner) (p : Piece) (ps : List Piece) :
    s.readAll (p :: ps) = (s.read p).readAll ps := rfl

theorem readAll_append (s : Scanner) (ps qs : List Piece) :
    s.readAll (ps ++ qs) = (s.readAll ps).readAll qs := List.foldl_append

theorem position_readAll (ps : List Piece) :
    ∀ s : Scanner, (s.readAll ps).position = s.position + (Piece.textOf ps).length := by
  induction ps with
  | nil => intro s; rfl
  | cons p ps ih =>
      intro s
      rw [readAll_cons, ih, position_read, Piece.textOf_cons, List.length_append,
        Nat.add_assoc]

/-- How many parentheses are open hangs on the pieces alone. -/
theorem length_places_readAll (ps : List Piece) :
    ∀ s : Scanner, (s.readAll ps).places.length =
      ps.foldl (fun n p => p.openedAfter n) s.places.length := by
  induction ps with
  | nil => intro s; rfl
  | cons p ps ih =>
      intro s
      rw [readAll_cons, ih, places_read, Piece.length_opens]
      rfl

/-! ## §2. The scanner and the reader. -/

/-- The list that a scan began with the tokens of the innermost level, and
then closed frame by frame with what the reader found behind. -/
def join : List Frame → List Token → List (List Token) → List Token
  | [], ts, _ => ts
  | fr :: frames, ts, around => join frames (fr.close ts ++ around.headD []) around.tail

/-- The tokens that stay before the next pieces: a name goes with the
parenthesis that it calls. -/
def kept (s : Scanner) (ps : List Piece) : List Token :=
  if ps.head? = some .opening then s.front else s.tokens

/-- What the reader found behind, put behind what the scanner has. -/
def finish (s : Scanner) (ps : List Piece) (l : Token.Levels) : List Token :=
  join s.frames (s.kept ps ++ l.current) l.around

/-- Nothing goes with a parenthesis that no name calls. -/
theorem kept_of_callee {s : Scanner} (h : s.callee = none) (ps : List Piece) :
    s.kept ps = s.tokens := by
  rw [kept, front_of_callee h, ite_self]

/-- A name stays among the tokens unless the next piece is a parenthesis that
it calls. -/
theorem kept_read_lexeme (s : Scanner) (l : Lexeme) (ps : List Piece) :
    (s.read (.lexeme l)).kept ps =
      if ((Piece.lexeme l).callee? ps).isSome then s.tokens else s.tokens ++ [l.token] := by
  rw [Piece.callee?_eq]
  by_cases hhead : ps.head? = some .opening
  · simp [kept, front, read, hhead]
  · simp [kept, read, hhead]

/-- **One piece**: the scanner takes it as the reader does. -/
theorem finish_read (s : Scanner) (p : Piece) (ps : List Piece) (l : Token.Levels)
    (hfault : p.fault? s.position s.places = none) :
    (s.read p).finish ps l = s.finish (p :: ps) (p.act s.callee ps l) := by
  cases p with
  | blank c => rw [finish, kept_of_callee rfl]; rfl
  | stray c => exact nomatch hfault
  | opening =>
      -- The reader wraps what it found inside; the scanner has a frame for it.
      rw [finish, kept_of_callee rfl]
      simp [finish, read, join, Frame.close, kept, Piece.act, Token.Levels.wrap]
  | closing =>
      cases hframes : s.frames with
      | nil => simp [Piece.fault?, places, hframes] at hfault
      | cons fr outer =>
          rw [finish, kept_of_callee (callee_read s .closing)]
          simp [finish, read, hframes, join, kept, Piece.act, Token.Levels.close]
  | lexeme l' =>
      rw [finish, kept_read_lexeme]
      cases l' with
      | operator op => simp [finish, read, kept, Piece.act, Piece.callee?, Token.Levels.push,
          Lexeme.token]
      | number whole fraction => simp [finish, read, kept, Piece.act, Piece.callee?,
          Token.Levels.push, Lexeme.token]
      | name letters =>
          -- Both leave the name out where a parenthesis is its call.
          by_cases hcall : (Piece.callee? (.lexeme (.name letters)) ps).isSome = true
          · simp [finish, read, kept, Piece.act, hcall]
          · simp [finish, read, kept, Piece.act, hcall, Token.Levels.push, Lexeme.token]

/-- **The scanner finds what the reader finds**: the same fault, or the tokens
that it has with those behind. -/
theorem scan_eq (ps : List Piece) :
    ∀ s : Scanner, s.scan ps =
      (Token.levelsAfter s.callee s.position s.places ps).map (s.finish ps) := by
  induction ps with
  | nil =>
      intro s
      rw [Token.levelsAfter_nil, scan]
      cases hframes : s.frames with
      | nil => simp [places, hframes, Except.map, finish, join, kept]
      | cons fr outer => simp [places, hframes, Except.map]
  | cons p ps ih =>
      intro s
      rw [scan, Token.levelsAfter_cons]
      cases hfault : p.fault? s.position s.places with
      | some fault => rfl
      | none =>
          -- A name waits for nothing but a parenthesis.
          have hcallee : ∀ position opened,
              Token.levelsAfter p.function? position opened ps =
                Token.levelsAfter (p.callee? ps) position opened ps := by
            intro position opened
            rw [Piece.callee?_eq]
            split
            next => rfl
            next hhead =>
              rw [Token.levelsAfter_of_head hhead, Token.levelsAfter_of_head hhead]
          show (s.read p).scan ps = ((Token.levelsAfter _ _ _ ps).map _).map _
          rw [ih, callee_read, position_read, places_read, hcallee, map_map]
          exact congrArg (Except.map · _) (funext fun l => finish_read s p ps l hfault)

theorem ofText_eq_scan (text : String) :
    Token.ofText text = start.scan (Piece.split text.toList) := by
  rw [scan_eq, Token.ofText_eq]
  refine congrArg (Except.map · _) (funext fun l => ?_)
  rw [finish, kept_of_callee rfl]
  rfl

/-! ## §3. Clean scans. -/

/-- No piece is a fault where the scanner meets it. -/
def Clean (s : Scanner) : List Piece → Prop
  | [] => True
  | p :: ps => p.fault? s.position s.places = none ∧ (s.read p).Clean ps

theorem clean_append (ps qs : List Piece) :
    ∀ s : Scanner, s.Clean (ps ++ qs) ↔ s.Clean ps ∧ (s.readAll ps).Clean qs := by
  induction ps with
  | nil => intro s; exact (and_iff_right trivial).symm
  | cons p ps ih =>
      intro s
      rw [List.cons_append, Clean, Clean, ih, readAll_cons, and_assoc]

/-- **A scan goes on behind clean pieces.** -/
theorem scan_append {ps : List Piece} (qs : List Piece) :
    ∀ {s : Scanner}, s.Clean ps → s.scan (ps ++ qs) = (s.readAll ps).scan qs := by
  induction ps with
  | nil => intro s _; rfl
  | cons p ps ih =>
      intro s h
      rw [List.cons_append, scan, h.1]
      exact ih h.2

/-- **Without clean pieces there is a first fault**, and it is what the scan
finds. -/
theorem exists_fault (ps : List Piece) :
    ∀ s : Scanner, s.Clean ps ∨
      ∃ front p behind fault, ps = front ++ p :: behind ∧ s.Clean front ∧
        p.fault? (s.readAll front).position (s.readAll front).places = some fault ∧
        s.scan ps = .error fault := by
  induction ps with
  | nil => intro s; exact .inl trivial
  | cons p ps ih =>
      intro s
      cases hfault : p.fault? s.position s.places with
      | some fault =>
          exact .inr ⟨[], p, ps, fault, rfl, trivial, hfault, by rw [scan, hfault]⟩
      | none =>
          rcases ih (s.read p) with hclean | ⟨front, q, behind, fault, rfl, hclean, hq, hscan⟩
          · exact .inl ⟨hfault, hclean⟩
          · refine .inr ⟨p :: front, q, behind, fault, rfl, ⟨hfault, hclean⟩, hq, ?_⟩
            rw [scan, hfault]
            exact hscan

/-- What clean pieces come to hangs on the lists that wait at their end. -/
theorem scan_of_clean {s : Scanner} {ps : List Piece} (h : s.Clean ps) :
    s.scan ps =
      match (s.readAll ps).places with
      | [] => .ok (s.readAll ps).tokens
      | place :: _ => .error (.unclosed place) := by
  have hscan := scan_append [] h
  rwa [List.append_nil] at hscan

/-- **A scan has tokens** when no piece is a fault and no list waits at its
end. -/
theorem scan_eq_ok_iff {s : Scanner} {ps : List Piece} {ts : List Token} :
    s.scan ps = .ok ts ↔
      s.Clean ps ∧ (s.readAll ps).frames = [] ∧ (s.readAll ps).tokens = ts := by
  constructor
  · intro h
    rcases exists_fault ps s with hclean | ⟨_, _, _, _, _, _, _, hfault⟩
    · rw [scan_of_clean hclean] at h
      cases hend : (s.readAll ps).places with
      | nil =>
          rw [hend] at h
          exact ⟨hclean, (places_eq_nil_iff _).1 hend, Except.ok.inj h⟩
      | cons place outer =>
          rw [hend] at h
          exact nomatch h
    · exact nomatch hfault.symm.trans h
  · rintro ⟨hclean, hend, rfl⟩
    rw [scan_of_clean hclean, (places_eq_nil_iff _).2 hend]

end Scanner

/-! ## §4. Which parentheses wait. -/

namespace Piece

/-- A parenthesis right before these pieces stays open all along: nowhere are
more closed than opened. -/
def StaysOpen (behind : List Piece) : Prop :=
  ∀ mid, mid <+: behind → mid.count .closing ≤ mid.count .opening

/-- A parenthesis opens at a place and stays open, with `i` others open behind
it. -/
def OpenAt (ps : List Piece) (i place : Nat) : Prop :=
  ∃ front behind, ps = front ++ .opening :: behind ∧ place = (textOf front).length ∧
    StaysOpen behind ∧ behind.count .opening = behind.count .closing + i

theorem staysOpen_concat (behind : List Piece) (p : Piece) :
    StaysOpen (behind ++ [p]) ↔
      StaysOpen behind ∧ (behind ++ [p]).count .closing ≤ (behind ++ [p]).count .opening := by
  constructor
  · intro h
    exact ⟨fun mid hmid => h mid (hmid.trans (List.prefix_append ..)),
      h _ (List.prefix_refl _)⟩
  · rintro ⟨h, hlast⟩ mid hmid
    rcases List.prefix_concat_iff.1 hmid with rfl | hmid
    · exact hlast
    · exact h mid hmid

/-- **One more piece**: it opens a parenthesis itself, or it counts behind the
others. -/
theorem openAt_concat (ps : List Piece) (p : Piece) (i place : Nat) :
    OpenAt (ps ++ [p]) i place ↔
      (p = .opening ∧ i = 0 ∧ place = (textOf ps).length) ∨
        ∃ front behind, ps = front ++ .opening :: behind ∧ place = (textOf front).length ∧
          StaysOpen behind ∧
            (behind ++ [p]).count .opening = (behind ++ [p]).count .closing + i := by
  constructor
  · rintro ⟨front, behind, hps, hplace, hopen, hcount⟩
    rcases List.eq_nil_or_concat behind with rfl | ⟨behind, q, rfl⟩
    · obtain ⟨rfl, hp⟩ := List.append_inj' hps rfl
      refine .inl ⟨by simpa using hp, ?_, hplace⟩
      simpa using hcount.symm
    · rw [List.concat_eq_append] at hps hopen hcount
      rw [← List.cons_append, ← List.append_assoc] at hps
      obtain ⟨rfl, hq⟩ := List.append_inj' hps rfl
      obtain rfl : p = q := by simpa using hq
      exact .inr ⟨front, behind, rfl, hplace, ((staysOpen_concat behind p).1 hopen).1, hcount⟩
  · rintro (⟨rfl, rfl, hplace⟩ | ⟨front, behind, rfl, hplace, hopen, hcount⟩)
    · refine ⟨ps, [], rfl, hplace, ?_, rfl⟩
      intro mid hmid
      rw [List.prefix_nil.1 hmid]
      exact Nat.le_refl _
    · refine ⟨front, behind ++ [p], by simp, hplace, ?_, hcount⟩
      exact (staysOpen_concat behind p).2 ⟨hopen, by omega⟩

end Piece

namespace Scanner

/-- **The stack holds the parentheses that stay open**, the last one first. -/
theorem getElem?_places (ps : List Piece) (place : Nat) :
    ∀ i, (start.readAll ps).places[i]? = some place ↔ Piece.OpenAt ps i place := by
  induction ps using List.reverseRecOn with
  | nil =>
      intro i
      constructor
      · intro h
        exact nomatch h
      · rintro ⟨front, behind, hps, -⟩
        exact absurd hps.symm (by simp)
  | append_singleton ps p ih =>
      intro i
      have hplaces : (start.readAll (ps ++ [p])).places =
          p.opens (Piece.textOf ps).length (start.readAll ps).places := by
        rw [readAll_append, readAll_cons]
        show ((start.readAll ps).read p).places = _
        rw [places_read, position_readAll]
        show p.opens (0 + _) _ = _
        rw [Nat.zero_add]
      -- A piece that is no parenthesis changes no count.
      have hother : p.opens (Piece.textOf ps).length (start.readAll ps).places =
          (start.readAll ps).places → p ≠ .opening → p ≠ .closing →
          ((start.readAll (ps ++ [p])).places[i]? = some place ↔
            Piece.OpenAt (ps ++ [p]) i place) := by
        intro hopens hopening hclosing
        rw [hplaces, hopens, ih, Piece.openAt_concat]
        simp [hopening, hclosing, List.count_append, Piece.OpenAt]
      cases p with
      | blank c => exact hother rfl (by simp) (by simp)
      | lexeme l => exact hother rfl (by simp) (by simp)
      | stray c => exact hother rfl (by simp) (by simp)
      | closing =>
          rw [hplaces, Piece.opens, List.getElem?_tail, ih, Piece.openAt_concat]
          simp [List.count_append, Piece.OpenAt, Nat.add_assoc, Nat.add_comm 1]
      | opening =>
          rw [hplaces, Piece.opens, Piece.openAt_concat]
          cases i with
          | zero =>
              -- Whatever was open before now has one more behind it.
              constructor
              · intro h
                exact .inl ⟨rfl, rfl, (Option.some.inj h).symm⟩
              · rintro (⟨-, -, rfl⟩ | ⟨front, behind, -, -, hopen, hcount⟩)
                · rfl
                · have hle := hopen behind (List.prefix_refl behind)
                  simp [List.count_append] at hcount
                  omega
          | succ i =>
              rw [List.getElem?_cons_succ, ih]
              simp [List.count_append, Piece.OpenAt, ← Nat.add_assoc]

end Scanner

end FormulaDesk
