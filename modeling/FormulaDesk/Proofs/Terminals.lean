/-
  FormulaDesk.Proofs.Terminals
  ──────────────────────────────────────
  **THE TERMINALS OF A TEXT.**

  The terminals of a list of tokens, left to right and through all groups and
  arguments, are the operands of its text that call nothing.  Each of them is
  a whole number, which a formula reads as such, or a name, which it never
  does.

    • `Token.terminalsAll_explicitAll` — products add no terminal;
    • `Token.operand_of_ofText` — every terminal is a number or a name;
    • `Number.literal?_number`, `Number.literal?_name` — what they stand for.
-/
import FormulaDesk.Number.Reading
import FormulaDesk.Proofs.Products

namespace FormulaDesk

/-! ## §1. Terminals. -/

namespace Token

mutual

/-- The texts of the terminals in a token, left to right. -/
def terminals : Token → List String
  | .terminal text => [text]
  | .operator _ => []
  | .group body => terminalsAll body
  | .call _ body => terminalsAll body

/-- The texts of the terminals in a list of tokens, left to right. -/
def terminalsAll : List Token → List String
  | [] => []
  | t :: ts => terminals t ++ terminalsAll ts

end

/-- The names among the terminals. -/
def names (ts : List Token) : List String :=
  (terminalsAll ts).filter fun text => isName text.toList

theorem terminalsAll_append (ts us : List Token) :
    terminalsAll (ts ++ us) = terminalsAll ts ++ terminalsAll us := by
  induction ts with
  | nil => rfl
  | cons t ts ih => rw [List.cons_append, terminalsAll, terminalsAll, ih, List.append_assoc]

@[simp] theorem terminalsAll_singleton (t : Token) : terminalsAll [t] = terminals t := by
  rw [terminalsAll, terminalsAll, List.append_nil]

/-- An operator between two lists adds no terminal. -/
@[simp] theorem terminalsAll_join (left : List Token) (op : Operator) (right : List Token) :
    terminalsAll (left ++ .operator op :: right) = terminalsAll left ++ terminalsAll right := by
  rw [terminalsAll_append]
  rfl

mutual

theorem terminals_explicit (t : Token) : terminals (explicit t) = terminals t := by
  cases t with
  | terminal text => rfl
  | operator op => rfl
  | group body => rw [explicit, terminals, terminals, terminalsAll_explicitAll]
  | call f body => rw [explicit, terminals, terminals, terminalsAll_explicitAll]

/-- **Products add no terminal.** -/
theorem terminalsAll_explicitAll (b : Bool) (ts : List Token) :
    terminalsAll (explicitAll b ts) = terminalsAll ts := by
  cases ts with
  | nil => rfl
  | cons t ts =>
      rw [explicitAll_cons, terminalsAll_append, terminalsAll, terminalsAll,
        terminals_explicit t, terminalsAll_explicitAll _ ts]
      split <;> rfl

end

/-- The terminals of all levels, the innermost first. -/
def Levels.terminals (l : Levels) : List String :=
  terminalsAll l.current ++ l.around.flatMap terminalsAll

end Token

/-! ## §2. Operands. -/

/-- A text that a terminal has: a whole number or a name. -/
def IsOperand (text : String) : Prop :=
  ∃ l : Lexeme, l.Sound ∧ l.complete = true ∧ l.isOperand = true ∧ text = .ofList l.text

namespace Piece

/-- The text of the terminal that a piece is; none when it calls what is
behind it. -/
def terminal? (behind : List Piece) : Piece → Option String
  | .lexeme l =>
    if l.isOperand && (callee? (.lexeme l) behind).isNone then some (.ofList l.text) else none
  | _ => none

theorem isOperand_of_terminal? {p : Piece} {ps : List Piece} {position : Nat}
    {opened : List Nat} (hp : p.Proper) (hfault : p.fault? position opened = none)
    {text : String} (h : p.terminal? ps = some text) : IsOperand text := by
  cases p with
  | lexeme l =>
      rw [terminal?] at h
      split at h
      next hoperand =>
        obtain rfl := Option.some.inj h
        have hcomplete : l.complete = true := by
          cases hc : l.complete with
          | true => rfl
          | false =>
              rw [fault?, hc] at hfault
              cases hfault
        exact ⟨l, hp, hcomplete, (Bool.and_eq_true_iff.1 hoperand).1, rfl⟩
      next => cases h
  | blank c => cases h
  | opening => cases h
  | closing => cases h
  | stray c => cases h

/-- **A piece adds its own terminal in front**, and moves no other. -/
theorem terminals_act (callee : Option Func) (behind : List Piece) (p : Piece)
    (l : Token.Levels) :
    (p.act callee behind l).terminals = (p.terminal? behind).toList ++ l.terminals := by
  -- Joining two levels keeps their terminals and the order of them.
  have hwrap : ∀ whole : List Token → Token,
      (∀ body, (whole body).terminals = Token.terminalsAll body) →
      (l.wrap whole).terminals = l.terminals := by
    intro whole hwhole
    rw [Token.Levels.terminals, Token.Levels.wrap, Token.terminalsAll, hwhole,
      Token.Levels.terminals, List.append_assoc]
    cases l.around <;> rfl
  cases p with
  | blank c => rfl
  | opening =>
      cases callee with
      | none => exact hwrap .group fun _ => by rw [Token.terminals]
      | some f => exact hwrap (.call f) fun _ => by rw [Token.terminals]
  | closing => rfl
  | stray c => rfl
  | lexeme lex =>
      cases lex with
      | operator op => rfl
      | number whole fraction => rfl
      | name letters =>
          rw [act, terminal?]
          cases callee? (.lexeme (.name letters)) behind <;> rfl
          simp

end Piece

namespace Token

/-- **Every terminal that is read is a whole number or a name.** -/
theorem operand_of_levelsAfter (ps : List Piece) :
    ∀ {callee : Option Func} {position : Nat} {opened : List Nat} {l : Levels},
      Piece.Parted ps → levelsAfter callee position opened ps = .ok l →
      ∀ text ∈ l.terminals, IsOperand text := by
  induction ps with
  | nil =>
      intro callee position opened l _ h text htext
      rw [levelsAfter_nil] at h
      cases opened with
      | nil =>
          obtain rfl := Except.ok.inj h
          exact absurd htext (by simp [Levels.terminals, terminalsAll])
      | cons place outer => exact nomatch h
  | cons p ps ih =>
      intro callee position opened l hparted h text htext
      obtain ⟨hfault, l', hl', rfl⟩ := levelsAfter_cons_ok.1 h
      rw [Piece.terminals_act, List.mem_append] at htext
      rcases htext with hown | hrest
      · exact Piece.isOperand_of_terminal? hparted.1 hfault (Option.mem_toList.1 hown)
      · exact ih hparted.2.2 hl' text hrest

theorem operand_of_ofText {text : String} {ts : List Token} (h : ofText text = .ok ts) :
    ∀ t ∈ terminalsAll ts, IsOperand t := by
  rw [ofText_eq] at h
  obtain ⟨l, hl, rfl⟩ := map_eq_ok_iff.1 h
  intro t ht
  exact operand_of_levelsAfter _ (Piece.parted_split _) hl t (List.mem_append_left _ ht)

end Token

/-! ## §3. Numbers and names. -/

/-- Every number begins with a digit. -/
theorem Lexeme.exists_digit_of_number {whole : List Char} {fraction : Option (List Char)}
    (h : (number whole fraction).Sound) :
    ∃ c body, (number whole fraction).text = c :: body ∧ c.isDigit = true := by
  have hwhole : whole ≠ [] ∧ whole.all Char.isDigit = true := by
    cases fraction with
    | none => exact h
    | some digits => exact h.1
  cases whole with
  | nil => exact absurd rfl hwhole.1
  | cons c cs =>
      have hc : c.isDigit = true := List.all_eq_true.1 hwhole.2 c (List.mem_cons_self ..)
      cases fraction with
      | none => exact ⟨c, cs, rfl, hc⟩
      | some digits => exact ⟨c, cs ++ '.' :: digits, rfl, hc⟩

namespace Number

theorem unsigned_cons {c : Char} (hplus : c ≠ '+') (hminus : c ≠ '-') (cs : List Char) :
    unsigned (c :: cs) = (false, c :: cs) := by
  unfold unsigned
  split
  next heq => exact absurd (List.cons.inj heq).1 hminus
  next heq => exact absurd (List.cons.inj heq).1 hplus
  next => rfl

/-- A text that begins with a digit, after its sign, is read as a numeral. -/
theorem number?_digit {cs body : List Char} {negative : Bool} {c : Char}
    (hunsigned : unsigned cs = (negative, c :: body)) (h : c.isDigit = true) :
    number? cs = (unsignedNumeral? negative (c :: body)).map Numeral.toFloat := by
  have hlower : c.toLower = c := by
    have hdigit := isDigit_iff.1 h
    unfold Char.toLower
    rw [dif_neg]
    intro hupper
    have hle : 65 ≤ c.toNat := hupper.1
    omega
  -- `nan`, `inf` and `infinity` begin with a letter, and digits have no capitals.
  have hword : ∀ word : String, word.toList.head?.map Char.isDigit = some false →
      lowered (c :: body) ≠ word.toList := by
    intro word hhead heq
    rw [← heq] at hhead
    have hc : some c.toLower.isDigit = some false := hhead
    rw [hlower, h] at hc
    exact nomatch hc
  simp only [number?, hunsigned]
  rw [if_neg (hword "nan" rfl), if_neg (not_or.2 ⟨hword "inf" rfl, hword "infinity" rfl⟩)]

/-- **The digits of a number are those of its numeral**, in units of the last
one. -/
theorem unsignedNumeral?_number (negative : Bool) {whole : List Char}
    {fraction : Option (List Char)} (h : (Lexeme.number whole fraction).Sound) :
    unsignedNumeral? negative (Lexeme.number whole fraction).text =
      some ⟨negative, readDigits 0 (whole ++ fraction.getD []),
        -((fraction.getD []).length : Int)⟩ := by
  have hend : ∀ c, ([] : List Char).head? = some c → c.isDigit = false := by simp
  cases fraction with
  | none =>
      obtain ⟨hne, hdigits⟩ := h
      obtain ⟨htake, hdrop⟩ := Lexeme.takeWhile_append_of_endsAt hdigits hend
      rw [List.append_nil] at htake hdrop
      show unsignedNumeral? negative whole = _
      rw [unsignedNumeral?, htake, hdrop]
      simp [exponent?, hne]
  | some digits =>
      obtain ⟨⟨hne, hdigits⟩, hfraction⟩ := h
      have hpoint : ∀ c, ('.' :: digits).head? = some c → c.isDigit = false := by
        intro c hc
        obtain rfl := Option.some.inj hc
        rfl
      obtain ⟨htake, hdrop⟩ := Lexeme.takeWhile_append_of_endsAt hdigits hpoint
      obtain ⟨htake', hdrop'⟩ := Lexeme.takeWhile_append_of_endsAt hfraction hend
      rw [List.append_nil] at htake' hdrop'
      show unsignedNumeral? negative (whole ++ '.' :: digits) = _
      rw [unsignedNumeral?, htake, hdrop]
      simp [htake', hdrop', exponent?, hne]

/-- **A whole number is read as the double nearest to its digits.** -/
theorem literal?_number {whole : List Char} {fraction : Option (List Char)}
    (h : (Lexeme.number whole fraction).Sound) :
    literal? (Lexeme.number whole fraction).text =
      some (Numeral.toFloat ⟨false, readDigits 0 (whole ++ fraction.getD []),
        -((fraction.getD []).length : Int)⟩) := by
  obtain ⟨c, body, htext, hc⟩ := Lexeme.exists_digit_of_number h
  have hunsigned : unsigned (c :: body) = (false, c :: body) :=
    unsigned_cons (ne_of_class hc rfl) (ne_of_class hc rfl) body
  have hnumeral := unsignedNumeral?_number false h
  rw [htext] at hnumeral ⊢
  simp only [literal?, hunsigned, hc, Bool.true_or, if_true]
  rw [number?_digit hunsigned hc, hnumeral]
  rfl

/-- **A name is never read as a number.** -/
theorem literal?_name {cs : List Char} (h : isName cs = true) : literal? cs = none := by
  cases cs with
  | nil => exact nomatch h
  | cons c cs =>
      have hc : isNameStart c = true := (Bool.and_eq_true_iff.1 h).1
      have hdigit := isDigit_eq_false_of_isNameStart hc
      have hunsigned : unsigned (c :: cs) = (false, c :: cs) :=
        unsigned_cons (ne_of_class hc rfl) (ne_of_class hc rfl) cs
      have hpoint : c ≠ '.' := ne_of_class hc rfl
      simp [literal?, hunsigned, hdigit, hpoint]

end Number

/-- No operand is written like an operator. -/
theorem IsOperand.ofText?_eq_none {text : String} (h : IsOperand text) :
    Operator.ofText? text = none := by
  obtain ⟨l, hsound, -, hoperand, rfl⟩ := h
  cases hop : Operator.ofText? (.ofList l.text) with
  | none => rfl
  | some op =>
      rw [Operator.ofText?_eq_some, String.toList_ofList] at hop
      -- The operator and the operand would both be the longest lexeme of the same text.
      have hlong := Lexeme.longest?_append hsound l.endsAt_nil
      have hsymbol := Lexeme.longest?_append (l := .operator op) trivial
        (Lexeme.endsAt_nil _)
      rw [hop] at hlong
      obtain rfl : l = .operator op := Option.some.inj (hlong.symm.trans hsymbol)
      exact nomatch hoperand

/-- An operand is a name exactly where a formula reads no number. -/
theorem IsOperand.isName_iff {text : String} (h : IsOperand text) :
    isName text.toList = true ↔ Number.literal? text.toList = none := by
  obtain ⟨l, hsound, -, hoperand, rfl⟩ := h
  rw [String.toList_ofList]
  constructor
  · exact Number.literal?_name
  · intro hnone
    cases l with
    | number whole fraction => rw [Number.literal?_number hsound] at hnone; exact nomatch hnone
    | name letters => exact hsound
    | operator op => exact nomatch hoperand

end FormulaDesk
