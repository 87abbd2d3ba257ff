/-
  FormulaDesk.Proofs.Grammar
  ──────────────────────────────────────
  **THE GRAMMAR OF FORMULAS.**

  The reader of formulas cuts a list of tokens again and again at one
  operator and follows no grammar.  This module gives the grammar,

      sum     ::= sum (+|-) product | product
      product ::= product (*|/) signed | signed
      signed  ::= (+|-) signed | power
      power   ::= atom | atom ^ signed
      atom    ::= terminal | group(sum) | f(sum)

  as derivations, trees that know the tokens they derive, the formula they
  mean and how high they nest, and shows that the reader accepts it.

    • `Derivation.tokens_injective` — a list of tokens has at most one
      derivation;
    • `Derivation.ofTokens_tokens` — what has a derivation is read as its
      formula, unless it nests too deep;
    • `exists_derivation` — what is read has a derivation.
-/
import FormulaDesk.Proofs.Joints
import FormulaDesk.Proofs.Outcome

namespace FormulaDesk

open FormulaDesk.Token (endsInTerm joints)

/-! ## §1. Derivations. -/

/-- The nonterminals of the grammar, the loosest first. -/
inductive Layer where
  | sum
  | product
  | signed
  | power
  | atom
deriving DecidableEq

/-- A derivation: which rule is used at each place. -/
inductive Derivation : Layer → Type where
  | add (op : Operator) (h : op.tier = .additive) (left : Derivation .sum)
      (right : Derivation .product) : Derivation .sum
  | ofProduct (d : Derivation .product) : Derivation .sum
  | mul (op : Operator) (h : op.tier = .multiplicative) (left : Derivation .product)
      (right : Derivation .signed) : Derivation .product
  | ofSigned (d : Derivation .signed) : Derivation .product
  | sign (op : Operator) (h : op.tier = .additive) (operand : Derivation .signed) :
      Derivation .signed
  | ofPower (d : Derivation .power) : Derivation .signed
  | ofAtom (d : Derivation .atom) : Derivation .power
  | raise (base : Derivation .atom) (exponent : Derivation .signed) : Derivation .power
  /-- A terminal; the name of a function is none. -/
  | terminal (text : String) (h : Func.ofName? text = none) : Derivation .atom
  | group (body : Derivation .sum) : Derivation .atom
  | call (f : Func) (argument : Derivation .sum) : Derivation .atom

namespace Derivation

/-- The tokens that are derived. -/
def tokens : {l : Layer} → Derivation l → List Token
  | _, .add op _ left right => left.tokens ++ .operator op :: right.tokens
  | _, .ofProduct d => d.tokens
  | _, .mul op _ left right => left.tokens ++ .operator op :: right.tokens
  | _, .ofSigned d => d.tokens
  | _, .sign op _ operand => .operator op :: operand.tokens
  | _, .ofPower d => d.tokens
  | _, .ofAtom d => d.tokens
  | _, .raise base exponent => base.tokens ++ .operator .pow :: exponent.tokens
  | _, .terminal text _ => [.terminal text]
  | _, .group body => [.group body.tokens]
  | _, .call f argument => [.call f argument.tokens]

/-- The formula that is meant. -/
def formula : {l : Layer} → Derivation l → Formula
  | _, .add op _ left right => .binary op left.formula right.formula
  | _, .ofProduct d => d.formula
  | _, .mul op _ left right => .binary op left.formula right.formula
  | _, .ofSigned d => d.formula
  | _, .sign op _ operand => if op = .sub then operand.formula.negated else operand.formula
  | _, .ofPower d => d.formula
  | _, .ofAtom d => d.formula
  | _, .raise base exponent => .binary .pow base.formula exponent.formula
  | _, .terminal text _ => .leaf text
  | _, .group body => body.formula
  | _, .call f argument => .call f argument.formula

/-- The longest nesting of operators between operands, signs, groups and
calls. -/
def height : {l : Layer} → Derivation l → Nat
  | _, .add _ _ left right => max left.height right.height + 1
  | _, .ofProduct d => d.height
  | _, .mul _ _ left right => max left.height right.height + 1
  | _, .ofSigned d => d.height
  | _, .sign _ _ operand => operand.height + 1
  | _, .ofPower d => d.height
  | _, .ofAtom d => d.height
  | _, .raise base exponent => max base.height exponent.height + 1
  | _, .terminal _ _ => 0
  | _, .group body => body.height + 1
  | _, .call _ argument => argument.height + 1

/-- **What the rules keep, every derivation has.**  The layers only say which
operands a rule takes; apart from them there are five ways to go on. -/
theorem induct {motive : List Token → Formula → Nat → Prop}
    (join : ∀ (op : Operator) {ts us : List Token} {e e' : Formula} {m n : Nat},
      motive ts e m → motive us e' n →
        motive (ts ++ .operator op :: us) (.binary op e e') (max m n + 1))
    (sign : ∀ (op : Operator) {ts : List Token} {e : Formula} {n : Nat}, motive ts e n →
      motive (.operator op :: ts) (if op = .sub then e.negated else e) (n + 1))
    (terminal : ∀ text, Func.ofName? text = none → motive [.terminal text] (.leaf text) 0)
    (group : ∀ {ts : List Token} {e : Formula} {n : Nat}, motive ts e n →
      motive [.group ts] e (n + 1))
    (call : ∀ (f : Func) {ts : List Token} {e : Formula} {n : Nat}, motive ts e n →
      motive [.call f ts] (.call f e) (n + 1))
    {l : Layer} (d : Derivation l) : motive d.tokens d.formula d.height := by
  induction d with
  | add op h left right ihl ihr => exact join op ihl ihr
  | ofProduct d ih => exact ih
  | mul op h left right ihl ihr => exact join op ihl ihr
  | ofSigned d ih => exact ih
  | sign op h operand ih => exact sign op ih
  | ofPower d ih => exact ih
  | ofAtom d ih => exact ih
  | raise base exponent ihb ihe => exact join .pow ihb ihe
  | terminal text h => exact terminal text h
  | group body ih => exact group ih
  | call f argument ih => exact call f ih

/-- An atom as a whole sum. -/
def sumOfAtom (a : Derivation .atom) : Derivation .sum :=
  .ofProduct (.ofSigned (.ofPower (.ofAtom a)))

/-! ## §2. The joints of derived tokens. -/

/-- An atom is one token, and it is a term. -/
theorem exists_term (d : Derivation .atom) :
    ∃ t : Token, t.isTerm = true ∧ d.tokens = [t] := by
  cases d with
  | terminal text h => exact ⟨_, rfl, rfl⟩
  | group body => exact ⟨_, rfl, rfl⟩
  | call f argument => exact ⟨_, rfl, rfl⟩

/-- Derived tokens end in a term. -/
theorem endsInTerm_tokens {l : Layer} (d : Derivation l) :
    ∀ b : Bool, endsInTerm b d.tokens = true := by
  refine d.induct (motive := fun ts _ _ => ∀ b, endsInTerm b ts = true) ?join ?sign ?terminal
    ?group ?call
  case join =>
    intro op ts us _ _ _ _ _ hr b
    rw [Token.endsInTerm_append, Token.endsInTerm_cons, hr]
  case sign => intro op ts _ _ ih b; exact ih false
  case terminal => intro text _ b; rfl
  case group => intro ts _ _ _ b; rfl
  case call => intro f ts _ _ _ b; rfl

theorem tokens_ne_nil {l : Layer} (d : Derivation l) : d.tokens ≠ [] := by
  intro h
  have hend := d.endsInTerm_tokens false
  rw [h] at hend
  exact absurd hend (by decide)

/-- The joints of an operator between derived operands. -/
theorem joints_join {l : Layer} (left : Derivation l) (op : Operator) (right : List Token) :
    joints false (left.tokens ++ .operator op :: right) =
      joints false left.tokens ++ op :: joints false right :=
  Token.joints_split (left.endsInTerm_tokens false) op right

end Derivation

/-- The loosest tier whose operators a layer shows outside its groups, by
rank. -/
def Layer.rank : Layer → Nat
  | .sum => 0
  | .product => 1
  | .signed => 2
  | .power => 2
  | .atom => 3

namespace Derivation

/-- **No joint is looser than its layer.** -/
theorem rank_le_of_mem_joints {l : Layer} (d : Derivation l) :
    ∀ o ∈ joints false d.tokens, l.rank ≤ o.tier.rank := by
  induction d with
  | add op h left right ihl ihr => intro o _; exact Nat.zero_le _
  | ofProduct d ih => intro o _; exact Nat.zero_le _
  | mul op h left right ihl ihr =>
      intro o ho
      rw [tokens, joints_join, List.mem_append, List.mem_cons] at ho
      rcases ho with ho | rfl | ho
      · exact ihl o ho
      · rw [h]; exact Nat.le_refl _
      · exact Nat.le_trans (by decide) (ihr o ho)
  | ofSigned d ih => intro o ho; exact Nat.le_trans (by decide) (ih o ho)
  | sign op h operand ih => exact ih
  | ofPower d ih => exact ih
  | ofAtom d ih => intro o ho; exact Nat.le_trans (by decide) (ih o ho)
  | raise base exponent ihb ihe =>
      intro o ho
      rw [tokens, joints_join, List.mem_append, List.mem_cons] at ho
      rcases ho with ho | rfl | ho
      · exact Nat.le_trans (by decide) (ihb o ho)
      · exact Nat.le_refl _
      · exact ihe o ho
  | terminal text h => intro o ho; simp [tokens, joints] at ho
  | group body _ => intro o ho; simp [tokens, joints] at ho
  | call f argument _ => intro o ho; simp [tokens, joints] at ho

/-- An atom has no joints. -/
theorem joints_atom (d : Derivation .atom) : joints false d.tokens = [] := by
  obtain ⟨t, -, ht⟩ := d.exists_term
  simp [ht, joints]

/-- A power does not begin with a sign. -/
theorem sign?_power (d : Derivation .power) : Formula.sign? d.tokens = none := by
  have atom : ∀ (a : Derivation .atom) (ts : List Token),
      Formula.sign? (a.tokens ++ ts) = none := by
    intro a ts
    cases a <;> rfl
  cases d with
  | ofAtom a => simpa [tokens] using atom a []
  | raise base exponent => exact atom base _

/-- **Derived operands split at the operator between them**, as long as the
left one is not looser and the right one is tighter, the other way round for a
power. -/
theorem best_join {l r : Layer} (left : Derivation l) (op : Operator) (right : Derivation r)
    (hl : op.tier.rank < l.rank ∨ op.tier.rank = l.rank ∧ op.tier.rank < Tier.power.rank)
    (hr : op.tier.rank < r.rank ∨ op.tier.rank = r.rank ∧ op.tier.rank = Tier.power.rank) :
    (⟨left.tokens, op, right.tokens⟩ : Formula.Split).Best false
      (left.tokens ++ .operator op :: right.tokens) := by
  refine ⟨rfl, left.endsInTerm_tokens false, ?_, ?_⟩
  · intro o ho
    have hrank := left.rank_le_of_mem_joints o ho
    show Formula.Split.prefers o op = true
    exact Formula.Split.prefers_iff.2 (by omega)
  · intro o ho
    have hrank := right.rank_le_of_mem_joints o ho
    show Formula.Split.prefers op o = false
    rw [Bool.eq_false_iff, ne_eq, Formula.Split.prefers_iff]
    omega

end Derivation

namespace Formula

/-! ## §3. The shape of derived tokens. -/

theorem sign?_eq_some_iff {ts : List Token} {op : Operator} :
    sign? ts = some op ↔ ∃ operand, ts = .operator op :: operand ∧ op.tier = .additive := by
  constructor
  · intro h
    unfold sign? at h
    split at h
    next operand => obtain rfl := Option.some.inj h; exact ⟨operand, rfl, rfl⟩
    next operand => obtain rfl := Option.some.inj h; exact ⟨operand, rfl, rfl⟩
    next => simp at h
  · intro h'
    obtain ⟨operand, rfl, h⟩ := h'
    cases op with
    | add => rfl
    | sub => rfl
    | mul => simp [Operator.tier] at h
    | div => simp [Operator.tier] at h
    | pow => simp [Operator.tier] at h

theorem shape_eq_binary_iff {ts : List Token} {s : Split} :
    shape ts = .binary s ↔
      split? false ts = some s ∧ (sign? ts = none ∨ s.op.tier ≠ .power) := by
  unfold shape
  split
  next s' hs hsign => simp [hs, hsign]
  next s' op hs hsign =>
    split
    next hp =>
      simp only [hs, hsign, reduceCtorEq, false_iff, Option.some.injEq, false_or, not_and]
      intro heq
      subst heq
      simpa using hp
    next hp =>
      simp only [hs, hsign, Option.some.injEq, Shape.binary.injEq, reduceCtorEq, false_or]
      constructor
      · intro heq
        subst heq
        exact ⟨rfl, hp⟩
      · exact And.left
  next op hs hsign => simp [hs]
  next t hs hsign => simp [hs]
  next t ts _ hs hsign => simp [hs]
  next hs hsign => simp [hs]

theorem shape_eq_signed_iff {ts : List Token} {op : Operator} {operand : List Token} :
    shape ts = .signed op operand ↔
      ts = .operator op :: operand ∧ op.tier = .additive ∧
        ∀ s, split? false ts = some s → s.op.tier = .power := by
  constructor
  · intro h
    unfold shape at h
    split at h
    next => simp at h
    next s' op' hs hsign =>
      split at h
      next hp =>
        obtain ⟨rest, rfl, hop⟩ := sign?_eq_some_iff.1 hsign
        obtain ⟨rfl, rfl⟩ := Shape.signed.inj h
        refine ⟨rfl, hop, ?_⟩
        intro s hs'
        obtain rfl := Option.some.inj (hs.symm.trans hs')
        exact hp
      next => simp at h
    next op' hs hsign =>
      obtain ⟨rest, rfl, hop⟩ := sign?_eq_some_iff.1 hsign
      obtain ⟨rfl, rfl⟩ := Shape.signed.inj h
      exact ⟨rfl, hop, by simp [hs]⟩
    next => simp at h
    next => simp at h
    next => simp at h
  · intro h'
    obtain ⟨rfl, hop, hs⟩ := h'
    have hsign := sign?_eq_some_iff.2 ⟨operand, rfl, hop⟩
    unfold shape
    cases hs' : split? false (.operator op :: operand) with
    | none => simp [hsign]
    | some s => simp [hsign, hs s hs']

theorem shape_single {t : Token} (h : t.isTerm = true) : shape [t] = .single t := by
  cases t with
  | operator op => simp at h
  | terminal text => rfl
  | group body => rfl
  | call f body => rfl

theorem eq_of_shape_single {ts : List Token} {t : Token} (h : shape ts = .single t) :
    ts = [t] := by
  unfold shape at h
  split at h
  next => exact nomatch h
  next => split at h <;> exact nomatch h
  next => exact nomatch h
  next u _ _ => rw [Shape.single.inj h]
  next => exact nomatch h
  next => exact nomatch h

end Formula

namespace Derivation

open FormulaDesk.Formula (Split Shape shape ofTokensWithin)

theorem shape_add (op : Operator) (h : op.tier = .additive) (left : Derivation .sum)
    (right : Derivation .product) :
    shape (add op h left right).tokens = .binary ⟨left.tokens, op, right.tokens⟩ := by
  have best := best_join left op right (by rw [h]; decide) (by rw [h]; decide)
  exact Formula.shape_eq_binary_iff.2 ⟨best.split?_eq, .inr (by simp [h])⟩

theorem shape_mul (op : Operator) (h : op.tier = .multiplicative)
    (left : Derivation .product) (right : Derivation .signed) :
    shape (mul op h left right).tokens = .binary ⟨left.tokens, op, right.tokens⟩ := by
  have best := best_join left op right (by rw [h]; decide) (by rw [h]; decide)
  exact Formula.shape_eq_binary_iff.2 ⟨best.split?_eq, .inr (by simp [h])⟩

theorem shape_raise (base : Derivation .atom) (exponent : Derivation .signed) :
    shape (raise base exponent).tokens = .binary ⟨base.tokens, .pow, exponent.tokens⟩ := by
  have best := best_join base .pow exponent (by decide) (by decide)
  exact Formula.shape_eq_binary_iff.2 ⟨best.split?_eq, .inl (sign?_power _)⟩

theorem shape_sign (op : Operator) (h : op.tier = .additive) (operand : Derivation .signed) :
    shape (sign op h operand).tokens = .signed op operand.tokens := by
  refine Formula.shape_eq_signed_iff.2 ⟨rfl, h, ?_⟩
  intro s hs
  -- A split behind a sign is at a joint of the operand, and these are all powers.
  have hmem : s.op ∈ joints false (sign op h operand).tokens := by
    rw [(Formula.split?_best _ hs).joints_eq]
    exact List.mem_append_right _ (List.mem_cons_self ..)
  have hrank : Tier.power.rank ≤ s.op.tier.rank := rank_le_of_mem_joints _ _ hmem
  revert hrank
  cases s.op <;> decide

end Derivation

/-! ## §4. Reading derived tokens. -/

namespace Formula

/-- A list of tokens is read as `e` within any room greater than `height`, and
nests too deep for any other. -/
def ReadAs (ts : List Token) (e : Formula) (height : Nat) : Prop :=
  ∀ room, ofTokensWithin room ts =
    if height < room then .ok e else .error .nestingTooDeep

/-- One level more is needed than the whole of what is below it. -/
theorem ReadAs.of_succ {ts : List Token} {e : Formula} {height : Nat}
    (h : ∀ room, ofTokensWithin (room + 1) ts =
      if height < room then .ok e else .error .nestingTooDeep) :
    ReadAs ts e (height + 1) := by
  intro room
  cases room with
  | zero => rfl
  | succ room =>
      rw [h]
      by_cases hlt : height < room
      · rw [if_pos hlt, if_pos (Nat.succ_lt_succ hlt)]
      · rw [if_neg hlt, if_neg (fun h => hlt (Nat.lt_of_succ_lt_succ h))]

theorem ReadAs.binary {s : Split} {ts : List Token} {left right : Formula} {m n : Nat}
    (hshape : shape ts = .binary s) (hne : s.right ≠ []) (hl : ReadAs s.left left m)
    (hr : ReadAs s.right right n) : ReadAs ts (.binary s.op left right) (max m n + 1) := by
  refine .of_succ fun room => ?_
  rw [ofTokensWithin, hshape]
  simp only [List.isEmpty_iff, hne, if_false, hl room, hr room]
  by_cases hm : m < room
  · by_cases hn : n < room
    · rw [if_pos hm, if_pos hn, if_pos (by omega)]
      rfl
    · rw [if_pos hm, if_neg hn, if_neg (by omega)]
      rfl
  · rw [if_neg hm, if_neg (show ¬ max m n < room by omega)]
    rfl

/-- What is read through one operand is one level higher than the operand. -/
theorem ReadAs.through {ts body : List Token} (f : Formula → Formula) {e : Formula} {n : Nat}
    (h : ∀ room, ofTokensWithin (room + 1) ts = (ofTokensWithin room body).map f)
    (he : ReadAs body e n) : ReadAs ts (f e) (n + 1) := by
  refine .of_succ fun room => ?_
  rw [h, he room]
  by_cases hn : n < room
  · rw [if_pos hn, if_pos hn]
    rfl
  · rw [if_neg hn, if_neg hn]
    rfl

theorem ReadAs.signed {ts operand : List Token} {op : Operator} {e : Formula} {n : Nat}
    (hshape : shape ts = .signed op operand) (hne : operand ≠ []) (he : ReadAs operand e n) :
    ReadAs ts (if op = .sub then e.negated else e) (n + 1) := by
  refine he.through (fun e => if op = .sub then e.negated else e) fun room => ?_
  rw [ofTokensWithin, hshape]
  simp only [List.isEmpty_iff, hne, if_false]
  cases ofTokensWithin room operand <;> rfl

theorem ReadAs.terminal {text : String} (h : Func.ofName? text = none) :
    ReadAs [.terminal text] (.leaf text) 0 := by
  intro room
  cases room with
  | zero => rfl
  | succ room =>
      rw [ofTokensWithin, shape_single rfl]
      simp [h]

theorem ReadAs.group {body : List Token} {e : Formula} {n : Nat} (he : ReadAs body e n) :
    ReadAs [.group body] e (n + 1) := by
  refine he.through id fun room => ?_
  rw [ofTokensWithin, shape_single rfl]
  show ofTokensWithin room body = _
  cases ofTokensWithin room body <;> rfl

theorem ReadAs.call (f : Func) {body : List Token} {e : Formula} {n : Nat} (hne : body ≠ [])
    (he : ReadAs body e n) : ReadAs [.call f body] (.call f e) (n + 1) := by
  refine he.through (.call f) fun room => ?_
  rw [ofTokensWithin, shape_single rfl]
  simp only [List.isEmpty_iff, hne, if_false]
  cases ofTokensWithin room body <;> rfl

end Formula

namespace Derivation

open FormulaDesk.Formula (ReadAs Shape Split shape ofTokensWithin)

/-- **What has a derivation is read as its formula**, unless it nests too
deep. -/
theorem readAs {l : Layer} (d : Derivation l) : ReadAs d.tokens d.formula d.height := by
  induction d with
  | add op h left right ihl ihr =>
      exact .binary (shape_add op h left right) right.tokens_ne_nil ihl ihr
  | ofProduct d ih => exact ih
  | mul op h left right ihl ihr =>
      exact .binary (shape_mul op h left right) right.tokens_ne_nil ihl ihr
  | ofSigned d ih => exact ih
  | sign op h operand ih =>
      exact .signed (shape_sign op h operand) operand.tokens_ne_nil ih
  | ofPower d ih => exact ih
  | ofAtom d ih => exact ih
  | raise base exponent ihb ihe =>
      exact .binary (shape_raise base exponent) exponent.tokens_ne_nil ihb ihe
  | terminal text h => exact .terminal h
  | group body ih => exact .group ih
  | call f argument ih => exact .call f argument.tokens_ne_nil ih

/-! ## §5. At most one derivation. -/

/-- A sum without additive joints is a product. -/
theorem exists_product (d : Derivation .sum)
    (h : ∀ o ∈ joints false d.tokens, Layer.product.rank ≤ o.tier.rank) :
    ∃ p : Derivation .product, d = ofProduct p := by
  cases d with
  | add op hop left right =>
      have hrank := h op (by rw [tokens, joints_join]; simp)
      rw [hop] at hrank
      exact absurd hrank (by decide)
  | ofProduct p => exact ⟨p, rfl⟩

/-- A product without multiplicative joints is an operand with its signs. -/
theorem exists_signed (d : Derivation .product)
    (h : ∀ o ∈ joints false d.tokens, Layer.signed.rank ≤ o.tier.rank) :
    ∃ s : Derivation .signed, d = ofSigned s := by
  cases d with
  | mul op hop left right =>
      have hrank := h op (by rw [tokens, joints_join]; simp)
      rw [hop] at hrank
      exact absurd hrank (by decide)
  | ofSigned s => exact ⟨s, rfl⟩

/-- An operand that does not begin with a sign is a power. -/
theorem exists_power (d : Derivation .signed) (h : Formula.sign? d.tokens = none) :
    ∃ p : Derivation .power, d = ofPower p := by
  cases d with
  | sign op hop operand =>
      have hsign := Formula.sign?_eq_some_iff.2 ⟨operand.tokens, rfl, hop⟩
      exact absurd (h.symm.trans hsign) (by simp)
  | ofPower p => exact ⟨p, rfl⟩

/-- A power without joints is an atom. -/
theorem exists_atom (d : Derivation .power) (h : joints false d.tokens = []) :
    ∃ a : Derivation .atom, d = ofAtom a := by
  cases d with
  | raise base exponent =>
      rw [tokens, joints_join] at h
      exact absurd h (by simp)
  | ofAtom a => exact ⟨a, rfl⟩

/-- Two derivations of one shape: operators in equal places have equal
operands. -/
theorem operands_eq {ts : List Token} {left left' right right' : List Token}
    {op op' : Operator} (h : shape ts = .binary ⟨left, op, right⟩)
    (h' : shape ts = .binary ⟨left', op', right'⟩) :
    left = left' ∧ op = op' ∧ right = right' := by
  have heq : (⟨left, op, right⟩ : Split) = ⟨left', op', right'⟩ :=
    Shape.binary.inj (h.symm.trans h')
  exact ⟨congrArg Split.left heq, congrArg Split.op heq, congrArg Split.right heq⟩

/-- **A list of tokens has at most one derivation** from each nonterminal. -/
theorem tokens_injective {l : Layer} (d : Derivation l) :
    ∀ d' : Derivation l, d.tokens = d'.tokens → d = d' := by
  induction d with
  | add op h left right ihl ihr =>
      intro d' heq
      cases d' with
      | add op' h' left' right' =>
          have hshape := shape_add op' h' left' right'
          rw [← heq] at hshape
          obtain ⟨hl, rfl, hr⟩ := operands_eq (shape_add op h left right) hshape
          rw [ihl left' hl, ihr right' hr]
      -- A product has no additive joint, but the sum has one.
      | ofProduct p =>
          obtain ⟨q, hq⟩ := exists_product (add op h left right)
            (fun o ho => p.rank_le_of_mem_joints o (heq ▸ ho))
          exact nomatch hq
  | ofProduct p ih =>
      intro d' heq
      obtain ⟨p', rfl⟩ := exists_product d'
        (fun o ho => p.rank_le_of_mem_joints o (heq.symm ▸ ho))
      rw [ih p' heq]
  | mul op h left right ihl ihr =>
      intro d' heq
      cases d' with
      | mul op' h' left' right' =>
          have hshape := shape_mul op' h' left' right'
          rw [← heq] at hshape
          obtain ⟨hl, rfl, hr⟩ := operands_eq (shape_mul op h left right) hshape
          rw [ihl left' hl, ihr right' hr]
      -- In the same way there is no multiplicative joint in an operand.
      | ofSigned s =>
          obtain ⟨q, hq⟩ := exists_signed (mul op h left right)
            (fun o ho => s.rank_le_of_mem_joints o (heq ▸ ho))
          exact nomatch hq
  | ofSigned s ih =>
      intro d' heq
      obtain ⟨s', rfl⟩ := exists_signed d'
        (fun o ho => s.rank_le_of_mem_joints o (heq.symm ▸ ho))
      rw [ih s' heq]
  | sign op h operand ih =>
      intro d' heq
      cases d' with
      | sign op' h' operand' =>
          obtain ⟨hop, htokens⟩ := List.cons.inj heq
          obtain rfl := Token.operator.inj hop
          rw [ih operand' htokens]
      | ofPower p =>
          obtain ⟨q, hq⟩ := exists_power (sign op h operand) (heq ▸ p.sign?_power)
          exact nomatch hq
  | ofPower p ih =>
      intro d' heq
      obtain ⟨p', rfl⟩ := exists_power d' (heq ▸ p.sign?_power)
      rw [ih p' heq]
  | ofAtom a ih =>
      intro d' heq
      obtain ⟨a', rfl⟩ := exists_atom d' (heq ▸ a.joints_atom)
      rw [ih a' heq]
  | raise base exponent ihb ihe =>
      intro d' heq
      cases d' with
      | raise base' exponent' =>
          have hshape := shape_raise base' exponent'
          rw [← heq] at hshape
          obtain ⟨hb, -, he⟩ := operands_eq (shape_raise base exponent) hshape
          rw [ihb base' hb, ihe exponent' he]
      | ofAtom a =>
          obtain ⟨q, hq⟩ := exists_atom (raise base exponent) (heq ▸ a.joints_atom)
          exact nomatch hq
  | terminal text h =>
      intro d' heq
      cases d' with
      | terminal text' h' => simpa [tokens] using heq
      | group body' => simp [tokens] at heq
      | call f' argument' => simp [tokens] at heq
  | group body ih =>
      intro d' heq
      cases d' with
      | terminal text' h' => simp [tokens] at heq
      | group body' => rw [ih body' (by simpa [tokens] using heq)]
      | call f' argument' => simp [tokens] at heq
  | call f argument ih =>
      intro d' heq
      cases d' with
      | terminal text' h' => simp [tokens] at heq
      | group body' => simp [tokens] at heq
      | call f' argument' =>
          obtain ⟨rfl, htokens⟩ : f = f' ∧ argument.tokens = argument'.tokens := by
            simpa [tokens] using heq
          rw [ih argument' htokens]

end Derivation

/-! ## §6. What is read has a derivation. -/

open FormulaDesk.Formula (Split ofTokensWithin)

/-- A derived sum without additive joints is a derived product. -/
theorem exists_product_tokens (d : Derivation .sum)
    (h : ∀ o ∈ joints false d.tokens, Layer.product.rank ≤ o.tier.rank) :
    ∃ p : Derivation .product, p.tokens = d.tokens := by
  obtain ⟨p, rfl⟩ := d.exists_product h
  exact ⟨p, rfl⟩

/-- A derived sum whose joints are all powers is a derived operand. -/
theorem exists_signed_tokens (d : Derivation .sum)
    (h : ∀ o ∈ joints false d.tokens, Layer.signed.rank ≤ o.tier.rank) :
    ∃ s : Derivation .signed, s.tokens = d.tokens := by
  obtain ⟨p, rfl⟩ := d.exists_product (fun o ho => Nat.le_trans (by decide) (h o ho))
  obtain ⟨s, rfl⟩ := p.exists_signed h
  exact ⟨s, rfl⟩

/-- A derived sum without joints and without a sign is a derived atom. -/
theorem exists_atom_tokens (d : Derivation .sum) (h : joints false d.tokens = [])
    (hsign : Formula.sign? d.tokens = none) : ∃ a : Derivation .atom, a.tokens = d.tokens := by
  obtain ⟨s, hs⟩ := exists_signed_tokens d (fun o ho => by simp [h] at ho)
  rw [← hs] at h hsign ⊢
  obtain ⟨p, rfl⟩ := s.exists_power hsign
  obtain ⟨a, rfl⟩ := p.exists_atom h
  exact ⟨a, rfl⟩

/-- A list that does not begin with a sign has a left part that does not. -/
theorem sign?_left {left right : List Token} {op : Operator}
    (h : Formula.sign? (left ++ .operator op :: right) = none)
    (hend : endsInTerm false left = true) : Formula.sign? left = none := by
  cases hs : Formula.sign? left with
  | none => rfl
  | some op' =>
      obtain ⟨operand, rfl, hop⟩ := Formula.sign?_eq_some_iff.1 hs
      have hsome := Formula.sign?_eq_some_iff.2
        ⟨operand ++ .operator op :: right, rfl, hop⟩
      exact absurd (h.symm.trans hsome) (by simp)

/-- **Operands around the best split**, derived as sums, are as narrow as the
rule of their operator asks. -/
theorem exists_derivation_of_best {ts : List Token} {s : Split} (best : s.Best false ts)
    (hsign : Formula.sign? ts = none ∨ s.op.tier ≠ .power) (left right : Derivation .sum)
    (hl : left.tokens = s.left) (hr : right.tokens = s.right) :
    ∃ d : Derivation .sum, d.tokens = ts := by
  have hleft : ∀ o ∈ joints false left.tokens, s.op.tier.rank < o.tier.rank ∨
      s.op.tier.rank = o.tier.rank ∧ o.tier.rank < Tier.power.rank :=
    fun o ho => Split.prefers_iff.1 (best.left o (hl ▸ ho))
  have hright : ∀ o ∈ joints false right.tokens, ¬ (o.tier.rank < s.op.tier.rank ∨
      o.tier.rank = s.op.tier.rank ∧ s.op.tier.rank < Tier.power.rank) := by
    intro o ho
    rw [← Split.prefers_iff, best.right o (hr ▸ ho)]
    simp
  have hpower : ∀ o : Operator, o.tier.rank ≤ Tier.power.rank := by
    intro o
    cases o <;> decide
  rw [best.eq_append, ← hl, ← hr]
  -- The joints left and right of the split say from which layer each side is derived.
  cases htier : s.op.tier with
  | additive =>
      rw [htier] at hright
      obtain ⟨p, hp⟩ := exists_product_tokens right (fun o ho => by
        have := hright o ho
        simp only [Tier.rank, Layer.rank] at this ⊢
        omega)
      exact ⟨.add s.op htier left p, by rw [Derivation.tokens, hp]⟩
  | multiplicative =>
      rw [htier] at hleft hright
      obtain ⟨p, hp⟩ := exists_product_tokens left (fun o ho => by
        have := hleft o ho
        simp only [Tier.rank, Layer.rank] at this ⊢
        omega)
      obtain ⟨q, hq⟩ := exists_signed_tokens right (fun o ho => by
        have := hright o ho
        simp only [Tier.rank, Layer.rank] at this ⊢
        omega)
      exact ⟨.ofProduct (.mul s.op htier p q), by
        rw [Derivation.tokens, Derivation.tokens, hp, hq]⟩
  | power =>
      rw [htier] at hleft hright
      -- A power is split at its first joint, so nothing on its left can be split at all.
      have hjoints : joints false left.tokens = [] := by
        refine List.eq_nil_iff_forall_not_mem.2 fun o ho => ?_
        have := hleft o ho
        have := hpower o
        omega
      have hhead : Formula.sign? left.tokens = none := by
        have hts := hsign.resolve_right (fun h => h htier)
        rw [best.eq_append] at hts
        rw [hl]
        exact sign?_left hts best.after_term
      obtain ⟨a, ha⟩ := exists_atom_tokens left hjoints hhead
      obtain ⟨q, hq⟩ := exists_signed_tokens right (fun o ho => by
        have := hright o ho
        simp only [Tier.rank, Layer.rank] at this ⊢
        omega)
      have hop : s.op = .pow := by
        revert htier
        cases s.op <;> decide
      exact ⟨.ofProduct (.ofSigned (.ofPower (.raise a q))), by
        rw [hop]
        simp only [Derivation.tokens, ha, hq]⟩
  | term =>
      have := hpower s.op
      rw [htier] at this
      exact absurd this (by decide)

/-- A derived sum behind a sign, where only a power could be split. -/
theorem exists_derivation_of_sign {op : Operator} (hop : op.tier = .additive)
    (operand : Derivation .sum)
    (h : ∀ s, Formula.split? false (.operator op :: operand.tokens) = some s →
      s.op.tier = .power) :
    ∃ d : Derivation .sum, d.tokens = .operator op :: operand.tokens := by
  -- A sign is no joint, so the split of the whole is that of the operand.
  have hjoints : joints false (.operator op :: operand.tokens) = joints false operand.tokens :=
    Token.joints_operator_cons false op operand.tokens
  obtain ⟨q, hq⟩ := exists_signed_tokens operand (by
    rw [← hjoints]
    intro o ho
    cases hs : Formula.split? false (.operator op :: operand.tokens) with
    | none =>
        rw [(Formula.split?_eq_none_iff _ _).1 hs] at ho
        simp at ho
    | some s =>
        have hrank := (Formula.split?_best _ hs).rank_le o ho
        rw [h s hs] at hrank
        exact hrank)
  exact ⟨.ofProduct (.ofSigned (.sign op hop q)), by simp only [Derivation.tokens, hq]⟩

/-- **What is read as a formula has a derivation.** -/
theorem exists_derivation (room : Nat) :
    ∀ (ts : List Token) (e : Formula), ofTokensWithin room ts = .ok e →
      ∃ d : Derivation .sum, d.tokens = ts := by
  induction room with
  | zero => intro ts e h; simp [ofTokensWithin] at h
  | succ room ih =>
      intro ts e h
      rw [ofTokensWithin] at h
      split at h
      next s hshape =>
        obtain ⟨hs, hsign⟩ := Formula.shape_eq_binary_iff.1 hshape
        split at h
        next => exact nomatch h
        next =>
          obtain ⟨el, hel, h⟩ := bind_eq_ok_iff.1 h
          obtain ⟨er, her, -⟩ := bind_eq_ok_iff.1 h
          obtain ⟨left, hl⟩ := ih s.left el hel
          obtain ⟨right, hr⟩ := ih s.right er her
          exact exists_derivation_of_best (Formula.split?_best ts hs) hsign left right hl hr
      next op operand hshape =>
        obtain ⟨rfl, hop, hs⟩ := Formula.shape_eq_signed_iff.1 hshape
        split at h
        next => exact nomatch h
        next =>
          obtain ⟨e', he', -⟩ := bind_eq_ok_iff.1 h
          obtain ⟨d, rfl⟩ := ih operand e' he'
          exact exists_derivation_of_sign hop d hs
      next text hshape =>
        obtain rfl := Formula.eq_of_shape_single hshape
        split at h
        next => exact nomatch h
        next hf =>
          have hnone : Func.ofName? text = none := by simpa using hf
          exact ⟨.sumOfAtom (.terminal text hnone), rfl⟩
      next body hshape =>
        obtain rfl := Formula.eq_of_shape_single hshape
        obtain ⟨d, rfl⟩ := ih body e h
        exact ⟨.sumOfAtom (.group d), rfl⟩
      next f body hshape =>
        obtain rfl := Formula.eq_of_shape_single hshape
        split at h
        next => exact nomatch h
        next =>
          obtain ⟨e', he', -⟩ := bind_eq_ok_iff.1 h
          obtain ⟨d, rfl⟩ := ih body e' he'
          exact ⟨.sumOfAtom (.call f d), rfl⟩
      next => exact nomatch h
      next => exact nomatch h
      next => exact nomatch h
      next => exact nomatch h

/-! ## §7. The reader of formulas. -/

/-- What has a derivation is read as its formula, unless it is too high. -/
theorem Derivation.ofTokens_tokens (d : Derivation .sum) :
    Formula.ofTokens d.tokens =
      if d.height ≤ maxNesting then .ok d.formula else .error .nestingTooDeep := by
  rw [Formula.ofTokens, d.readAs]
  by_cases h : d.height ≤ maxNesting
  · rw [if_pos h, if_pos (Nat.lt_succ_of_le h)]
  · rw [if_neg h, if_neg (fun hlt => h (Nat.le_of_lt_succ hlt))]

/-- Tokens are read as the formula of their derivation. -/
theorem ofTokens_eq_ok_iff {ts : List Token} {e : Formula} :
    Formula.ofTokens ts = .ok e ↔
      ∃ d : Derivation .sum, d.tokens = ts ∧ d.formula = e ∧ d.height ≤ maxNesting := by
  constructor
  · intro h
    obtain ⟨d, rfl⟩ := exists_derivation _ _ _ h
    rw [d.ofTokens_tokens] at h
    by_cases hd : d.height ≤ maxNesting
    · rw [if_pos hd] at h
      exact ⟨d, rfl, Except.ok.inj h, hd⟩
    · rw [if_neg hd] at h
      exact nomatch h
  · intro h'
    obtain ⟨d, rfl, rfl, hd⟩ := h'
    rw [d.ofTokens_tokens, if_pos hd]

/-- **THE READER OF FORMULAS ACCEPTS EXACTLY THE GRAMMAR.**  A list of tokens
has at most one derivation; it is read as a formula when this is the formula
of its derivation and the derivation is at most `maxNesting` high; a higher
derivation nests too deep; and without a derivation the list is refused. -/
theorem ofTokens_grammar (ts : List Token) :
    (∀ d d' : Derivation .sum, d.tokens = ts → d'.tokens = ts → d = d') ∧
    (∀ e : Formula, Formula.ofTokens ts = .ok e ↔
      ∃ d : Derivation .sum, d.tokens = ts ∧ d.formula = e ∧ d.height ≤ maxNesting) ∧
    (∀ d : Derivation .sum, d.tokens = ts → maxNesting < d.height →
      Formula.ofTokens ts = .error .nestingTooDeep) ∧
    ((¬ ∃ d : Derivation .sum, d.tokens = ts) →
      ∃ fault, Formula.ofTokens ts = .error fault) := by
  refine ⟨?_, fun e => ofTokens_eq_ok_iff, ?_, ?_⟩
  · intro d d' hd hd'
    subst hd
    exact d.tokens_injective d' hd'.symm
  · intro d htokens hd
    subst htokens
    rw [d.ofTokens_tokens, if_neg (Nat.not_le.2 hd)]
  · intro hnone
    cases h : Formula.ofTokens ts with
    | error fault => exact ⟨fault, rfl⟩
    | ok e => exact absurd (exists_derivation _ _ _ h) hnone

end FormulaDesk
