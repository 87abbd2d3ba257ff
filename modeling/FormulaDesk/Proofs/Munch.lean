/-
  FormulaDesk.Proofs.Munch
  ──────────────────────────────────────
  **A LEXEME IS AS LONG AS IT CAN BE.**

  The words of the three classes are numbers `digit+ ('.' digit+)?`, names and
  single operators.  A lexeme is the longest piece at its place that some word
  of its class begins with, even where the piece is no word itself: the number
  of `3.x` is `3.`, and nothing goes back to `3`.

  The same lexeme is found by a race.  One candidate starts for each class
  whose words begin with the first character, all candidates take the text
  character by character, and who cannot go on is out.  The last ones in the
  race win, a candidate with a whole word before the others.

    • `Candidate.reads_concat` — a candidate knows what has been read: one
      character more is one step of the race;
    • `Candidate.begins_iff` — a candidate is alive exactly as long as a word
      of its class begins with what has been read;
    • `race?_eq` — the race finds the lexeme;
    • `Lexeme.longest?_munches` — the lexeme at any place of any text.
-/
import FormulaDesk.Proofs.Parted

namespace FormulaDesk

/-! ## §1. Words. -/

/-- One digit or more. -/
def Digits (cs : List Char) : Prop := cs ≠ [] ∧ cs.all Char.isDigit = true

namespace LexemeClass

/-- The words of a class. -/
inductive Word : LexemeClass → List Char → Prop where
  | whole {digits : List Char} (h : Digits digits) : Word .number digits
  | decimal {whole fraction : List Char} (hw : Digits whole) (hf : Digits fraction) :
      Word .number (whole ++ '.' :: fraction)
  | name (c : Char) (cs : List Char) (hc : isNameStart c = true)
      (hcs : cs.all isNameChar = true) : Word .name (c :: cs)
  | operator (op : Operator) : Word .operator [op.symbol]

/-- Some word of the class begins with a piece. -/
def Begins (k : LexemeClass) (piece : List Char) : Prop := ∃ word, k.Word word ∧ piece <+: word

/-- The longest piece at the head of a text that some word of the class begins
with. -/
structure Longest (k : LexemeClass) (cs piece : List Char) : Prop where
  at_head : piece <+: cs
  begins : k.Begins piece
  greatest : ∀ other, other <+: cs → k.Begins other → other.length ≤ piece.length

end LexemeClass

/-! ## §2. Candidates. -/

/-- How much of a number has been read. -/
inductive NumberState where
  | whole
  /-- The point has just been read: a digit has to follow. -/
  | point
  | fraction
deriving DecidableEq

/-- A class that is still in the race. -/
inductive Candidate where
  | number (state : NumberState)
  | name
  | operator
deriving DecidableEq

namespace Candidate

/-- The class of a candidate. -/
def kind : Candidate → LexemeClass
  | .number _ => .number
  | .name => .name
  | .operator => .operator

/-- One candidate for each class whose words begin with a character. -/
def start (c : Char) : List Candidate :=
  (if c.isDigit then [.number .whole] else []) ++
    (if isNameStart c then [.name] else []) ++
    (if (Operator.ofSymbol? c).isSome then [.operator] else [])

/-- A candidate takes a character, or it is out. -/
def advance : Candidate → Char → Option Candidate
  | .number .whole, c =>
    if c.isDigit then some (.number .whole)
    else if c = '.' then some (.number .point)
    else none
  | .number .point, c | .number .fraction, c =>
    if c.isDigit then some (.number .fraction) else none
  | .name, c => if isNameChar c then some .name else none
  | .operator, _ => none

/-- What a candidate has read is a word. -/
def accepts : Candidate → Bool
  | .number .point => false
  | _ => true

/-- What a candidate can have read. -/
inductive Reads : Candidate → List Char → Prop where
  | whole {digits : List Char} (h : Digits digits) : Reads (.number .whole) digits
  | point {digits : List Char} (h : Digits digits) : Reads (.number .point) (digits ++ ['.'])
  | fraction {whole fraction : List Char} (hw : Digits whole) (hf : Digits fraction) :
      Reads (.number .fraction) (whole ++ '.' :: fraction)
  | name (c : Char) (cs : List Char) (hc : isNameStart c = true)
      (hcs : cs.all isNameChar = true) : Reads .name (c :: cs)
  | operator (op : Operator) : Reads .operator [op.symbol]

theorem kind_advance {k k' : Candidate} {c : Char} (h : k.advance c = some k') :
    k'.kind = k.kind := by
  revert h
  fun_cases advance k c <;> intro h <;> cases h <;> rfl

end Candidate

/-- Digits with one more character are digits. -/
theorem digits_concat {cs : List Char} (hne : cs ≠ []) (c : Char) :
    Digits (cs ++ [c]) ↔ Digits cs ∧ c.isDigit = true := by
  simp [Digits, hne]

theorem digits_singleton (c : Char) : Digits [c] ↔ c.isDigit = true := by
  simp [Digits]

namespace Candidate

/-- **One character more is one step.**  A candidate has read some characters
and one more exactly when it has come from one that read the former and took
the latter. -/
theorem reads_concat {k' : Candidate} {p : List Char} (hp : p ≠ []) (c : Char) :
    k'.Reads (p ++ [c]) ↔ ∃ k : Candidate, k.Reads p ∧ k.advance c = some k' := by
  constructor
  · intro h
    generalize hq : p ++ [c] = q at h
    cases h with
    | whole h =>
        subst hq
        obtain ⟨hdigits, hc⟩ := (digits_concat hp c).1 h
        exact ⟨_, .whole hdigits, by rw [advance, if_pos hc]⟩
    | point h =>
        obtain ⟨rfl, hc⟩ := List.append_inj' hq rfl
        obtain rfl := (List.cons.inj hc).1
        exact ⟨_, .whole h, rfl⟩
    | @fraction whole fraction hw hf =>
        -- The last character is a digit of the fraction, its first one or a later one.
        rcases List.eq_nil_or_concat fraction with rfl | ⟨front, d, rfl⟩
        · exact absurd rfl hf.1
        · rw [List.concat_eq_append] at hq hf
          rw [← List.cons_append, ← List.append_assoc] at hq
          obtain ⟨rfl, hc⟩ := List.append_inj' hq rfl
          obtain rfl := (List.cons.inj hc).1
          cases front with
          | nil => exact ⟨_, .point hw, by rw [advance, if_pos ((digits_singleton c).1 hf)]⟩
          | cons d front =>
              obtain ⟨hfront, hc⟩ := (digits_concat (List.cons_ne_nil d front) c).1 hf
              exact ⟨_, .fraction hw hfront, by rw [advance, if_pos hc]⟩
    | name d cs hd hcs =>
        cases p with
        | nil => exact absurd rfl hp
        | cons d' p =>
            obtain ⟨rfl, hcs'⟩ := List.cons.inj hq
            rw [← hcs'] at hcs
            obtain ⟨hp', hc⟩ : p.all isNameChar = true ∧ isNameChar c = true := by simpa using hcs
            exact ⟨_, .name d' p hd hp', by rw [advance, if_pos hc]⟩
    | operator op =>
        obtain ⟨rfl, -⟩ := List.append_inj' (hq.trans (List.nil_append _).symm) rfl
        exact absurd rfl hp
  · rintro ⟨k, hreads, hstep⟩
    unfold advance at hstep
    cases hreads with
    | whole h =>
        dsimp only at hstep
        split at hstep
        next hc =>
          obtain rfl := Option.some.inj hstep
          exact .whole ((digits_concat hp c).2 ⟨h, hc⟩)
        next =>
          split at hstep
          next hpoint =>
            obtain rfl := Option.some.inj hstep
            subst hpoint
            exact .point h
          next => exact nomatch hstep
    | point h =>
        dsimp only at hstep
        split at hstep
        next hc =>
          obtain rfl := Option.some.inj hstep
          rw [List.append_assoc]
          exact .fraction h ((digits_singleton c).2 hc)
        next => exact nomatch hstep
    | fraction hw hf =>
        dsimp only at hstep
        split at hstep
        next hc =>
          obtain rfl := Option.some.inj hstep
          rw [List.append_assoc, List.cons_append]
          exact .fraction hw ((digits_concat hf.1 c).2 ⟨hf, hc⟩)
        next => exact nomatch hstep
    | name d cs hd hcs =>
        dsimp only at hstep
        split at hstep
        next hc =>
          obtain rfl := Option.some.inj hstep
          exact .name d (cs ++ [c]) hd (by simp [hcs, hc])
        next => exact nomatch hstep
    | operator op => exact nomatch hstep

/-- What starts with a character has read it. -/
theorem reads_singleton (k : Candidate) (c : Char) : k.Reads [c] ↔ k ∈ start c := by
  have hop : (∃ op : Operator, c = op.symbol) ↔ (Operator.ofSymbol? c).isSome = true := by
    rw [Option.isSome_iff_exists]
    exact exists_congr fun op => Operator.ofSymbol?_eq_some.symm
  have hstart : k ∈ start c ↔ (c.isDigit = true ∧ k = .number .whole) ∨
      (isNameStart c = true ∧ k = .name) ∨
        (Operator.ofSymbol? c).isSome = true ∧ k = .operator := by
    simp only [start, List.mem_append, List.mem_ite_nil_right, List.mem_singleton, or_assoc]
  rw [hstart, ← hop]
  constructor
  · intro h
    generalize hq : [c] = q at h
    cases h with
    | whole h => subst hq; exact .inl ⟨(digits_singleton c).1 h, rfl⟩
    | point h =>
        obtain ⟨rfl, -⟩ := List.append_inj' ((List.nil_append _).trans hq) rfl
        exact absurd rfl h.1
    | @fraction whole fraction hw hf =>
        have hlength := congrArg List.length hq
        have hpos := List.length_pos_iff.2 hw.1
        simp at hlength
        omega
    | name d cs hd hcs => obtain ⟨rfl, rfl⟩ := List.cons.inj hq; exact .inr (.inl ⟨hd, rfl⟩)
    | operator op => exact .inr (.inr ⟨⟨op, (List.cons.inj hq).1⟩, rfl⟩)
  · rintro (⟨hc, rfl⟩ | ⟨hc, rfl⟩ | ⟨⟨op, rfl⟩, rfl⟩)
    · exact .whole ((digits_singleton c).2 hc)
    · exact .name c [] hc rfl
    · exact .operator op

/-- **At most one candidate starts**: no character begins words of two
classes. -/
theorem start_eq_of_mem {k : Candidate} {c : Char} (h : k ∈ start c) : start c = [k] := by
  have hsymbol : (Operator.ofSymbol? c).isSome = true →
      c.isDigit = false ∧ isNameStart c = false := by
    intro hop
    obtain ⟨op, hop⟩ := Option.isSome_iff_exists.1 hop
    have hchar := isNameChar_symbol op
    rw [← Operator.ofSymbol?_eq_some.1 hop, Bool.eq_false_iff, ne_eq, isNameChar_iff,
      not_or] at hchar
    exact ⟨by simpa using hchar.2, by simpa using hchar.1⟩
  unfold start at h ⊢
  cases hop : (Operator.ofSymbol? c).isSome with
  | true =>
      obtain ⟨hd, hn⟩ := hsymbol hop
      simp_all
  | false =>
      cases hn : isNameStart c with
      | true =>
          have hd := isDigit_eq_false_of_isNameStart hn
          simp_all
      | false => cases hd : c.isDigit <;> simp_all

/-- **What has been read decides the candidate.** -/
theorem Reads.unique {p : List Char} (hp : p ≠ []) :
    ∀ {k k' : Candidate}, k.Reads p → k'.Reads p → k = k' := by
  induction p using List.reverseRecOn with
  | nil => exact absurd rfl hp
  | append_singleton p c ih =>
      intro k k' h h'
      cases p with
      | nil =>
          have hk := start_eq_of_mem ((reads_singleton k c).1 h)
          have hk' := start_eq_of_mem ((reads_singleton k' c).1 h')
          exact (List.cons.inj (hk.symm.trans hk')).1
      | cons d p =>
          obtain ⟨r, hr, hstep⟩ := (reads_concat (List.cons_ne_nil d p) c).1 h
          obtain ⟨r', hr', hstep'⟩ := (reads_concat (List.cons_ne_nil d p) c).1 h'
          obtain rfl := ih (List.cons_ne_nil d p) hr hr'
          exact Option.some.inj (hstep.symm.trans hstep')

/-- A candidate has read every beginning of what it has read. -/
theorem Reads.of_append {p : List Char} (hp : p ≠ []) (q : List Char) :
    ∀ {k : Candidate}, k.Reads (p ++ q) → ∃ k' : Candidate, k'.Reads p ∧ k'.kind = k.kind := by
  induction q using List.reverseRecOn with
  | nil =>
      intro k h
      rw [List.append_nil] at h
      exact ⟨k, h, rfl⟩
  | append_singleton q c ih =>
      intro k h
      rw [← List.append_assoc, reads_concat (by simp [hp])] at h
      obtain ⟨r, hr, hstep⟩ := h
      obtain ⟨k', hk', hkind⟩ := ih hr
      exact ⟨k', hk', hkind.trans (kind_advance hstep).symm⟩

theorem Reads.ne_nil {k : Candidate} {p : List Char} (h : k.Reads p) : p ≠ [] := by
  cases h with
  | whole h => exact h.1
  | _ => simp

/-! ## §3. Candidates and words. -/

/-- **A word is what a candidate that accepts has read.** -/
theorem word_iff {kind : LexemeClass} {p : List Char} :
    kind.Word p ↔ ∃ k : Candidate, k.kind = kind ∧ k.accepts = true ∧ k.Reads p := by
  constructor
  · intro h
    cases h with
    | whole h => exact ⟨_, rfl, rfl, .whole h⟩
    | decimal hw hf => exact ⟨_, rfl, rfl, .fraction hw hf⟩
    | name c cs hc hcs => exact ⟨_, rfl, rfl, .name c cs hc hcs⟩
    | operator op => exact ⟨_, rfl, rfl, .operator op⟩
  · rintro ⟨k, rfl, haccepts, h⟩
    cases h with
    | whole h => exact .whole h
    | point h => exact nomatch haccepts
    | fraction hw hf => exact .decimal hw hf
    | name c cs hc hcs => exact .name c cs hc hcs
    | operator op => exact .operator op

/-- **A candidate is alive as long as a word begins** with what has been
read. -/
theorem begins_iff {kind : LexemeClass} {p : List Char} (hp : p ≠ []) :
    kind.Begins p ↔ ∃ k : Candidate, k.kind = kind ∧ k.Reads p := by
  constructor
  · rintro ⟨word, hword, q, rfl⟩
    obtain ⟨k, rfl, -, hk⟩ := word_iff.1 hword
    obtain ⟨k', hk', hkind⟩ := hk.of_append hp q
    exact ⟨k', hkind, hk'⟩
  · rintro ⟨k, rfl, hk⟩
    by_cases haccepts : k.accepts = true
    · exact ⟨p, word_iff.2 ⟨k, rfl, haccepts, hk⟩, List.prefix_refl p⟩
    · -- Only behind a point no word has been read, and any digit makes one.
      cases hk with
      | point h =>
          refine ⟨_, .decimal h ((digits_singleton '0').2 rfl), ['0'], ?_⟩
          rw [List.append_assoc]
          rfl
      | _ => exact absurd rfl haccepts

/-- **A candidate that cannot go on has read the longest piece** that any word
begins with. -/
theorem Reads.length_le {k : Candidate} {p behind : List Char} (h : k.Reads p)
    (hstop : ∀ c, behind.head? = some c → k.advance c = none) {k' : Candidate} {q : List Char}
    (hq : q <+: p ++ behind) (h' : k'.Reads q) : q.length ≤ p.length := by
  by_contra hlt
  have hp : p <+: q :=
    List.prefix_of_prefix_length_le (List.prefix_append p behind) hq (by omega)
  obtain ⟨rest, rfl⟩ := hp
  cases rest with
  | nil => simp at hlt
  | cons c rest =>
      -- The other piece goes on with the character at which the candidate is out.
      obtain ⟨tail, htail⟩ := hq
      rw [List.append_assoc, List.append_cancel_left_eq] at htail
      have hc : behind.head? = some c := by rw [← htail]; rfl
      rw [List.append_cons] at h'
      obtain ⟨r, hr, -⟩ := h'.of_append (by simp) rest
      obtain ⟨r', hr', hstep⟩ := (reads_concat h.ne_nil c).1 hr
      obtain rfl := hr'.unique h.ne_nil h
      exact nomatch hstep.symm.trans (hstop c hc)

end Candidate

/-! ## §4. The race. -/

/-- The candidates in the race at each of its steps. -/
def rounds (alive : List Candidate) : List Char → List (List Candidate)
  | [] => [alive]
  | c :: cs =>
    let next := alive.filterMap (·.advance c)
    alive :: if next = [] then [] else rounds next cs

/-- The race at a place of a text; there is none at its end. -/
def roundsAt (cs : List Char) (i : Nat) : List (List Candidate) :=
  match cs.drop i with
  | [] => []
  | c :: behind => rounds (Candidate.start c) behind

/-- A lexeme at its place: its class, where it begins, the place behind it, and
whether it is a word. -/
structure Span where
  kind : LexemeClass
  first : Nat
  next : Nat
  complete : Bool
deriving DecidableEq

/-- A lexeme that begins at a place. -/
def Lexeme.span (i : Nat) (l : Lexeme) : Span := ⟨l.kind, i, i + l.text.length, l.complete⟩

/-- **The race**: each step takes one character, and of the candidates at the
last step the first that has a word wins, or else the first one. -/
def race? (cs : List Char) (i : Nat) : Option Span :=
  let last := (roundsAt cs i).getLast?.getD []
  ((last.find? Candidate.accepts).or last.head?).map fun k =>
    ⟨k.kind, i, i + (roundsAt cs i).length, k.accepts⟩

/-- **A race with one candidate has one all along**, and goes as far as this
candidate does. -/
theorem exists_rounds (behind : List Char) :
    ∀ {k : Candidate} {p : List Char}, k.Reads p →
      ∃ (taken rest : List Char) (k' : Candidate) (front : List Candidate),
        behind = taken ++ rest ∧ k'.Reads (p ++ taken) ∧
        (∀ c, rest.head? = some c → k'.advance c = none) ∧
        rounds [k] behind = front.map ([·]) ++ [[k']] ∧ front.length = taken.length := by
  induction behind with
  | nil =>
      intro k p h
      exact ⟨[], [], k, [], rfl, by rwa [List.append_nil], by simp, rfl, rfl⟩
  | cons c behind ih =>
      intro k p h
      cases hstep : k.advance c with
      | none =>
          refine ⟨[], c :: behind, k, [], rfl, by rwa [List.append_nil], ?_, ?_, rfl⟩
          · intro c' hc'
            obtain rfl := Option.some.inj hc'
            exact hstep
          · simp [rounds, hstep]
      | some next =>
          have hnext : next.Reads (p ++ [c]) :=
            (Candidate.reads_concat h.ne_nil c).2 ⟨k, h, hstep⟩
          obtain ⟨taken, rest, k', front, rfl, hreads, hstop, hrounds, hlength⟩ := ih hnext
          refine ⟨c :: taken, rest, k', k :: front, rfl, ?_, hstop, ?_, ?_⟩
          · rwa [List.append_assoc] at hreads
          · simp [rounds, hstep, hrounds]
          · rw [List.length_cons, List.length_cons, hlength]

/-! ## §5. Lexemes and candidates. -/

namespace Lexeme

/-- The candidate that reads a lexeme. -/
def candidate : Lexeme → Candidate
  | .number _ none => .number .whole
  | .number _ (some []) => .number .point
  | .number _ (some (_ :: _)) => .number .fraction
  | .name _ => .name
  | .operator _ => .operator

@[simp] theorem kind_candidate (l : Lexeme) : l.candidate.kind = l.kind := by
  match l with
  | .number _ none => rfl
  | .number _ (some []) => rfl
  | .number _ (some (_ :: _)) => rfl
  | .name _ => rfl
  | .operator _ => rfl

@[simp] theorem accepts_candidate (l : Lexeme) : l.candidate.accepts = l.complete := by
  match l with
  | .number _ none => rfl
  | .number _ (some []) => rfl
  | .number _ (some (_ :: _)) => rfl
  | .name _ => rfl
  | .operator _ => rfl

theorem reads_candidate {l : Lexeme} (h : l.Sound) : l.candidate.Reads l.text := by
  match l with
  | .number _ none => exact .whole h
  | .number _ (some []) => exact .point h.1
  | .number _ (some (_ :: _)) => exact .fraction h.1 ⟨List.cons_ne_nil _ _, h.2⟩
  | .name [] => exact nomatch (show false = true from h)
  | .name (c :: cs) =>
      obtain ⟨hc, hcs⟩ := Bool.and_eq_true_iff.1 (show (isNameStart c && _) = true from h)
      exact .name c cs hc hcs
  | .operator op => exact .operator op

/-- A character that does not make a lexeme longer puts its candidate out. -/
theorem advance_candidate {l : Lexeme} {c : Char} (h : l.grows c = false) :
    l.candidate.advance c = none := by
  match l with
  | .number _ none =>
      obtain ⟨hdigit, hpoint⟩ := Bool.or_eq_false_iff.1 h
      have hne : c ≠ '.' := by simpa using hpoint
      simp [candidate, Candidate.advance, hdigit, hne]
  | .number _ (some []) =>
      have hdigit : c.isDigit = false := h
      simp [candidate, Candidate.advance, hdigit]
  | .number _ (some (_ :: _)) =>
      have hdigit : c.isDigit = false := h
      simp [candidate, Candidate.advance, hdigit]
  | .name _ =>
      have hchar : isNameChar c = false := h
      simp [candidate, Candidate.advance, hchar]
  | .operator _ => rfl

/-- **A lexeme is read by its candidate, which can go no further.** -/
theorem exists_behind {cs : List Char} {l : Lexeme} (h : longest? cs = some l) :
    l.candidate.Reads l.text ∧ ∃ behind, cs = l.text ++ behind ∧
      ∀ c, behind.head? = some c → l.candidate.advance c = none := by
  obtain ⟨hsound, behind, hcs, hend⟩ := longest?_eq_some h
  exact ⟨reads_candidate hsound, behind, hcs, fun c hc => advance_candidate (hend c hc)⟩

/-- Nothing starts where no lexeme begins. -/
theorem start_eq_nil_iff {c : Char} {cs : List Char} :
    Candidate.start c = [] ↔ longest? (c :: cs) = none := by
  rw [longest?_eq_none_iff]
  simp [Candidate.start]

end Lexeme

/-- **The race finds the lexeme**, and until its end one candidate is in it. -/
theorem race_of_longest? {cs : List Char} {i : Nat} {l : Lexeme}
    (h : Lexeme.longest? (cs.drop i) = some l) :
    (∀ round ∈ roundsAt cs i, ∃ k, round = [k]) ∧
      (roundsAt cs i).getLast? = some [l.candidate] ∧
      (roundsAt cs i).length = l.text.length := by
  obtain ⟨hreads, behind, hcs, hstop⟩ := Lexeme.exists_behind h
  cases htext : l.text with
  | nil => exact absurd htext hreads.ne_nil
  | cons c text =>
      rw [htext] at hreads hcs
      -- One candidate starts; the race ends where the candidate of the lexeme does, since
      -- either has read the longest piece.
      obtain ⟨k, hk, -⟩ := hreads.of_append (p := [c]) (by simp) text
      have hstart := Candidate.start_eq_of_mem ((Candidate.reads_singleton k c).1 hk)
      obtain ⟨taken, rest, k', front, heq, hreads', hstop', hrounds, hlength⟩ :=
        exists_rounds (text ++ behind) hk
      have hle := hreads.length_le hstop (q := c :: taken)
        ⟨rest, by rw [List.cons_append, List.cons_append, heq]⟩ hreads'
      have hge := hreads'.length_le hstop' (q := c :: text)
        ⟨behind, by rw [List.cons_append, heq, List.append_assoc]; rfl⟩ hreads
      obtain ⟨rfl, -⟩ := List.append_inj heq (by simp at hle hge; omega)
      obtain rfl := hreads'.unique (by simp) hreads
      have hall : roundsAt cs i = front.map ([·]) ++ [[l.candidate]] := by
        rw [roundsAt, hcs, List.cons_append]
        show rounds (Candidate.start c) (text ++ behind) = _
        rw [hstart, hrounds]
      rw [hall]
      refine ⟨?_, by simp, by simp [hlength]⟩
      intro round hround
      rcases List.mem_append.1 hround with hround | hround
      · obtain ⟨k, -, rfl⟩ := List.mem_map.1 hround
        exact ⟨k, rfl⟩
      · exact ⟨_, List.mem_singleton.1 hround⟩

/-- **The race finds what is longest.** -/
theorem race?_eq (cs : List Char) (i : Nat) :
    race? cs i = (Lexeme.longest? (cs.drop i)).map (Lexeme.span i) := by
  cases h : Lexeme.longest? (cs.drop i) with
  | some l =>
      obtain ⟨-, hlast, hlength⟩ := race_of_longest? h
      unfold race?
      rw [hlast, hlength]
      cases hcomplete : l.complete <;> simp [Lexeme.span, hcomplete]
  | none =>
      cases hdrop : cs.drop i with
      | nil => simp [race?, roundsAt, hdrop]
      | cons c behind =>
          rw [hdrop] at h
          have hstart := Lexeme.start_eq_nil_iff.2 h
          have hrounds : (roundsAt cs i).getLast? = some [] := by
            unfold roundsAt
            rw [hdrop]
            show (rounds (Candidate.start c) behind).getLast? = _
            rw [hstart]
            cases behind <;> rfl
          simp [race?, hrounds]

/-! ## §6. The longest lexeme. -/

namespace Lexeme

/-- A lexeme is the longest piece of its class. -/
theorem longest_of_longest? {cs : List Char} {l : Lexeme} (h : longest? cs = some l) :
    l.kind.Longest cs l.text := by
  obtain ⟨hreads, behind, rfl, hstop⟩ := exists_behind h
  refine ⟨List.prefix_append .., ?_, ?_⟩
  · exact (Candidate.begins_iff hreads.ne_nil).2 ⟨_, kind_candidate l, hreads⟩
  · intro other hother hbegins
    by_cases hnil : other = []
    · rw [hnil]
      exact Nat.zero_le _
    · obtain ⟨k, -, hk⟩ := (Candidate.begins_iff hnil).1 hbegins
      exact hreads.length_le hstop hother hk

/-- It is complete when it is a word. -/
theorem complete_iff_word {cs : List Char} {l : Lexeme} (h : longest? cs = some l) :
    l.complete = true ↔ l.kind.Word l.text := by
  obtain ⟨hreads, -⟩ := exists_behind h
  rw [Candidate.word_iff]
  constructor
  · intro hcomplete
    exact ⟨l.candidate, kind_candidate l, by rw [accepts_candidate, hcomplete], hreads⟩
  · rintro ⟨k, -, haccepts, hk⟩
    obtain rfl := hk.unique hreads.ne_nil hreads
    rwa [accepts_candidate] at haccepts

/-- It is incomplete only as a number that ends with its point. -/
theorem incomplete_iff {cs : List Char} {l : Lexeme} (h : longest? cs = some l) :
    l.complete = false ↔ l.kind = .number ∧ ∃ digits, Digits digits ∧ l.text = digits ++ ['.'] := by
  obtain ⟨hreads, -⟩ := exists_behind h
  constructor
  · intro hcomplete
    match l with
    | .number whole (some []) => exact ⟨rfl, whole, (longest?_eq_some h).1.1, rfl⟩
    | .number _ none => exact nomatch hcomplete
    | .number _ (some (_ :: _)) => exact nomatch hcomplete
    | .name _ => exact nomatch hcomplete
    | .operator _ => exact nomatch hcomplete
  · rintro ⟨-, digits, hdigits, htext⟩
    rw [htext] at hreads
    have hpoint := hreads.unique (by simp) (.point hdigits)
    rw [← accepts_candidate, hpoint]
    rfl

/-- The first character decides the class. -/
theorem begins_head_iff {c : Char} {cs : List Char} {l : Lexeme}
    (h : longest? (c :: cs) = some l) (kind : LexemeClass) : kind.Begins [c] ↔ kind = l.kind := by
  obtain ⟨hreads, behind, hcs, -⟩ := exists_behind h
  cases htext : l.text with
  | nil => exact absurd htext hreads.ne_nil
  | cons d text =>
      rw [htext] at hreads hcs
      obtain ⟨rfl, -⟩ := List.cons.inj hcs
      obtain ⟨k, hk, hkind⟩ := hreads.of_append (p := [c]) (by simp) text
      rw [kind_candidate] at hkind
      rw [Candidate.begins_iff (List.cons_ne_nil c [])]
      constructor
      · rintro ⟨k', rfl, hk'⟩
        rw [hk'.unique (by simp) hk, hkind]
      · rintro rfl
        exact ⟨k, hkind, hk⟩

/-- No word begins where there is no lexeme, and only there. -/
theorem longest?_eq_none_iff_begins (cs : List Char) (i : Nat) :
    longest? (cs.drop i) = none ↔
      cs.length ≤ i ∨ ∃ c, cs[i]? = some c ∧ ∀ kind : LexemeClass, ¬ kind.Begins [c] := by
  cases hdrop : cs.drop i with
  | nil => simp [longest?, List.drop_eq_nil_iff.1 hdrop]
  | cons c behind =>
      have hc : cs[i]? = some c := by rw [← List.head?_drop, hdrop]; rfl
      have hlt : i < cs.length := (List.getElem?_eq_some_iff.1 hc).1
      rw [hc]
      constructor
      · intro h
        refine .inr ⟨c, rfl, fun kind hbegins => ?_⟩
        obtain ⟨k, -, hk⟩ := (Candidate.begins_iff (List.cons_ne_nil c [])).1 hbegins
        rw [Candidate.reads_singleton, start_eq_nil_iff.2 h] at hk
        exact absurd hk List.not_mem_nil
      · rintro (hle | ⟨c', hc', hnone⟩)
        · omega
        · obtain rfl := Option.some.inj hc'
          cases h : longest? (c :: behind) with
          | none => rfl
          | some l => exact absurd ((begins_head_iff h l.kind).2 rfl) (hnone l.kind)

/-- **A LEXEME IS AS LONG AS IT CAN BE.**  At a place of a text there is none
exactly at the end and where no word of any class begins.  Otherwise the race
finds it and has one candidate at each of its steps; its class is that of the
first character; it ends behind its beginning and within the text; it is the
longest piece there that some word of its class begins with; and it is complete
when it is such a word, which all are but digits that end with a point. -/
theorem longest?_munches (cs : List Char) (i : Nat) :
    race? cs i = (longest? (cs.drop i)).map (span i) ∧
    (longest? (cs.drop i) = none ↔
      cs.length ≤ i ∨ ∃ c, cs[i]? = some c ∧ ∀ kind : LexemeClass, ¬ kind.Begins [c]) ∧
    ∀ l, longest? (cs.drop i) = some l →
      (∀ round ∈ roundsAt cs i, ∃ k, round = [k]) ∧
      (∃ c, cs[i]? = some c ∧ ∀ kind : LexemeClass, kind.Begins [c] ↔ kind = l.kind) ∧
      i < i + l.text.length ∧ i + l.text.length ≤ cs.length ∧
      l.text = (cs.drop i).take l.text.length ∧
      l.kind.Longest (cs.drop i) l.text ∧
      (l.complete = true ↔ l.kind.Word l.text) ∧
      (l.complete = false ↔
        l.kind = .number ∧ ∃ digits, Digits digits ∧ l.text = digits ++ ['.']) := by
  refine ⟨race?_eq cs i, longest?_eq_none_iff_begins cs i, ?_⟩
  intro l h
  have hlongest := longest_of_longest? h
  have hpos := List.length_pos_iff.2 (longest?_text_ne_nil h)
  have hlength := hlongest.at_head.length_le
  rw [List.length_drop] at hlength
  refine ⟨(race_of_longest? h).1, ?_, by omega, by omega,
    List.prefix_iff_eq_take.1 hlongest.at_head, hlongest, complete_iff_word h, incomplete_iff h⟩
  cases hdrop : cs.drop i with
  | nil => exact nomatch (hdrop ▸ h : longest? [] = some l)
  | cons c behind =>
      rw [hdrop] at h
      exact ⟨c, by rw [← List.head?_drop, hdrop]; rfl, begins_head_iff h⟩

/-- In `3.x` the number takes its point, though then it is no word. -/
theorem longest?_munches_point :
    longest? ("3.x".toList.drop 0) = some (.number ['3'] (some [])) ∧
    LexemeClass.number.Longest ("3.x".toList.drop 0) ['3', '.'] ∧
    ¬ LexemeClass.number.Word ['3', '.'] := by
  have h : longest? ("3.x".toList.drop 0) = some (.number ['3'] (some [])) := by decide
  obtain ⟨-, -, -, -, -, hlongest, hword, -⟩ := (longest?_munches "3.x".toList 0).2.2 _ h
  exact ⟨h, hlongest, fun hw => nomatch hword.2 hw⟩

end Lexeme

end FormulaDesk
