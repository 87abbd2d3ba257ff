/-
  FormulaDesk.Proofs.Sequence
  ──────────────────────────────────────
  **A SEQUENCE BUILDS ITS FORMULA AGAIN.**

  An operator-first sequence has no parentheses: only the number of operands
  of each atom tells where an operand ends.  This module shows that the
  assembly finds the formula again, node for node, as long as its leaves are
  not written like operators or functions, and that it refuses exactly the
  formulas that are more than `maxNesting` high.

    • `Assembly.push_sequence` — what the atoms of a formula do to any shells;
    • `Operation.ofAtoms_sequence` — the whole sequence;
    • `Formula.evaluate_operation` — the operation has the value of the
      formula, or lacks the first name without a value.
-/
import FormulaDesk.Assembly
import FormulaDesk.Formula
import FormulaDesk.Proofs.Outcome

namespace FormulaDesk

namespace Formula

/-! ## §1. Formulas as operations. -/

/-- The longest nesting of operators and calls. -/
def height : Formula → Nat
  | .leaf _ => 0
  | .binary _ left right => max left.height right.height + 1
  | .call _ argument => argument.height + 1

/-- No leaf is written like an operator or a function. -/
def Plain : Formula → Prop
  | .leaf text => Operator.ofText? text = none ∧ Func.ofName? text = none
  | .binary _ left right => left.Plain ∧ right.Plain
  | .call _ argument => argument.Plain

/-- The formula as an operation, node for node. -/
def operation : Formula → Operation
  | .leaf text =>
    match Number.literal? text.toList with
    | some value => .number value
    | none => .named text
  | .binary op left right => .binary op (some left.operation) (some right.operation)
  | .call f argument => .call f (some argument.operation)

theorem isFilled_operation (e : Formula) : e.operation.isFilled = true := by
  cases e with
  | leaf text => unfold operation; split <;> rfl
  | binary op left right => rfl
  | call f argument => rfl

end Formula

namespace Operation

theorem ofAtom_operator (op : Operator) :
    ofAtom (.symbol op.text) = .binary op none none := by
  cases op <;> rfl

theorem ofAtom_func (f : Func) : ofAtom (.symbol f.name) = .call f none := by
  cases f <;> rfl

theorem ofAtom_leaf {text : String} (h : (Formula.leaf text).Plain) :
    ofAtom (.symbol text) = (Formula.leaf text).operation := by
  obtain ⟨hop, hf⟩ := h
  unfold ofAtom Formula.operation
  cases hnumber : Number.literal? text.toList with
  | some value => simp [hnumber]
  | none => simp [hnumber, hop, hf]

end Operation

namespace Assembly

/-! ## §2. Atoms over shells. -/

/-- The stack whose open shells are `shells`: nothing at all stands for none. -/
def ofShells (shells : List Operation) : Assembly :=
  ⟨if shells = [] then [.empty] else shells⟩

/-- The latest shell waits for an operand. -/
def Waiting (shells : List Operation) : Prop :=
  ∀ shell, shells.head? = some shell → shell.isFilled = false ∧ shell ≠ .empty

theorem ofShells_cons (shell : Operation) (shells : List Operation) :
    ofShells (shell :: shells) = ⟨shell :: shells⟩ := rfl

theorem start_eq_ofShells : start = ofShells [] := rfl

theorem waiting_nil : Waiting [] := by
  intro shell h
  exact nomatch h

theorem waiting_cons {shell : Operation} {shells : List Operation}
    (h : shell.isFilled = false) (hne : shell ≠ .empty) : Waiting (shell :: shells) := by
  intro shell' h'
  obtain rfl := Option.some.inj h'
  exact ⟨h, hne⟩

/-- The first operand of an operator leaves it waiting for the second. -/
theorem settle_first (op : Operator) (first : Operation) (shells : List Operation) :
    settle first (.binary op none none :: shells) = .binary op (some first) none :: shells :=
  rfl

/-- With its second operand an operator is whole, and falls too. -/
theorem settle_second (op : Operator) (first second : Operation) (shells : List Operation) :
    settle second (.binary op (some first) none :: shells) =
      settle (.binary op (some first) (some second)) shells := rfl

theorem settle_argument (f : Func) (argument : Operation) (shells : List Operation) :
    settle argument (.call f none :: shells) = settle (.call f (some argument)) shells := rfl

/-- An atom that waits for operands becomes the latest shell, unless too many
are open. -/
theorem push_shell {atom : Atom} {shell : Operation} (hatom : Operation.ofAtom atom = shell)
    (hshell : shell.isFilled = false) {shells : List Operation} (hwait : Waiting shells) :
    (ofShells shells).push atom =
      if shells.length < maxNesting then .ok (ofShells (shell :: shells))
      else .error .nestingTooDeep := by
  cases shells with
  | nil =>
      have hfilled : Operation.isFilled .empty = false := rfl
      simp [ofShells, push, base, hatom, hshell, hfilled, maxNesting]
  | cons latest shells =>
      obtain ⟨hlatest, hne⟩ := hwait latest rfl
      have hbase : base (latest :: shells) = latest :: shells := by
        cases latest with
        | empty => exact absurd rfl hne
        | number value => rfl
        | named name => rfl
        | binary op first second => rfl
        | call f argument => rfl
      simp only [ofShells_cons, push, List.head?_cons, Option.map_some, Option.getD_some, hlatest,
        hatom, hshell, hbase, Bool.false_eq_true, if_false]
      by_cases h : (latest :: shells).length < maxNesting
      · rw [if_neg (Nat.not_le.2 h), if_pos h]
      · rw [if_pos (Nat.not_lt.1 h), if_neg h]

/-- An atom that is whole at once falls onto the shells. -/
theorem push_whole {atom : Atom} {whole : Operation} (hatom : Operation.ofAtom atom = whole)
    (hwhole : whole.isFilled = true) {shells : List Operation} (hwait : Waiting shells) :
    (ofShells shells).push atom = .ok ⟨settle whole shells⟩ := by
  cases shells with
  | nil =>
      have hfilled : Operation.isFilled .empty = false := rfl
      simp [ofShells, push, settle, hatom, hwhole, hfilled]
  | cons latest shells =>
      obtain ⟨hlatest, -⟩ := hwait latest rfl
      simp [ofShells_cons, push, hlatest, hatom, hwhole]

/-- **The atoms of a formula, over any shells**: the formula falls onto them
whole, unless it and they together are too deep. -/
theorem push_sequence (e : Formula) :
    ∀ shells : List Operation, e.Plain → Waiting shells → shells.length ≤ maxNesting →
      (e.sequence.map Atom.symbol).foldlM push (ofShells shells) =
        if shells.length + e.height ≤ maxNesting then
          Except.ok (⟨settle e.operation shells⟩ : Assembly)
        else .error .nestingTooDeep := by
  induction e with
  | leaf text =>
      intro shells hplain hwait hlen
      have hheight : (Formula.leaf text).height = 0 := rfl
      rw [hheight, Nat.add_zero, if_pos hlen]
      show (ofShells shells).push (.symbol text) >>= pure = _
      rw [push_whole (Operation.ofAtom_leaf hplain) (Formula.isFilled_operation _) hwait]
      rfl
  | binary op left right ihl ihr =>
      intro shells hplain hwait hlen
      have hheight : (Formula.binary op left right).height
          = max left.height right.height + 1 := rfl
      rw [Formula.sequence, List.map_cons, List.map_append, List.foldlM_cons,
        push_shell (Operation.ofAtom_operator op) rfl hwait, hheight]
      -- The operator is one more shell for its operands; the first operand fills one slot and
      -- leaves as many shells open for the second.
      by_cases hlt : shells.length < maxNesting
      · have hfirst := ihl (.binary op none none :: shells) hplain.1
          (waiting_cons rfl (by simp)) hlt
        have hsecond := ihr (.binary op (some left.operation) none :: shells) hplain.2
          (waiting_cons rfl (by simp)) hlt
        rw [if_pos hlt]
        show List.foldlM push (ofShells (.binary op none none :: shells)) _ = _
        rw [List.foldlM_append, hfirst, List.length_cons]
        rw [List.length_cons] at hsecond
        by_cases hl : shells.length + 1 + left.height ≤ maxNesting
        · rw [if_pos hl, settle_first]
          show List.foldlM push (ofShells (.binary op (some left.operation) none :: shells)) _ = _
          rw [hsecond, settle_second]
          by_cases hr : shells.length + 1 + right.height ≤ maxNesting
          · rw [if_pos hr, if_pos (by omega)]
            rfl
          · rw [if_neg hr, if_neg (by omega)]
        · rw [if_neg hl, if_neg (by omega)]
          rfl
      · rw [if_neg hlt, if_neg (by omega)]
        rfl
  | call f argument ih =>
      intro shells hplain hwait hlen
      have hheight : (Formula.call f argument).height = argument.height + 1 := rfl
      rw [Formula.sequence, List.map_cons, List.foldlM_cons,
        push_shell (Operation.ofAtom_func f) rfl hwait, hheight]
      by_cases hlt : shells.length < maxNesting
      -- The call is one more shell for its argument, and falls as soon as it is filled.
      · have hbody := ih (.call f none :: shells) hplain (waiting_cons rfl (by simp)) hlt
        rw [if_pos hlt]
        show List.foldlM push (ofShells (.call f none :: shells)) _ = _
        rw [hbody, List.length_cons, settle_argument]
        by_cases ha : shells.length + 1 + argument.height ≤ maxNesting
        · rw [if_pos ha, if_pos (by omega)]
          rfl
        · rw [if_neg ha, if_neg (by omega)]
      · rw [if_neg hlt, if_neg (by omega)]
        rfl

theorem build_whole {whole : Operation} (h : whole.isFilled = true) :
    build ⟨[whole]⟩ = .ok whole := by
  cases whole with
  | empty => exact nomatch h
  | number value => rfl
  | named name => rfl
  | binary op first second => simp [build, h]
  | call f argument => simp [build, h]

end Assembly

/-- **A sequence builds its formula again**, unless the formula is too deep. -/
theorem Operation.ofAtoms_sequence {e : Formula} (h : e.Plain) :
    Operation.ofAtoms (e.sequence.map .symbol) =
      if e.height ≤ maxNesting then .ok e.operation else .error .nestingTooDeep := by
  have hpush := Assembly.push_sequence e [] h Assembly.waiting_nil (Nat.zero_le _)
  rw [List.length_nil, Nat.zero_add] at hpush
  rw [Operation.ofAtoms, Assembly.start_eq_ofShells, hpush]
  by_cases hheight : e.height ≤ maxNesting
  · rw [if_pos hheight, if_pos hheight]
    exact Assembly.build_whole e.isFilled_operation
  · rw [if_neg hheight, if_neg hheight]
    rfl

namespace Formula

/-! ## §3. The value of a formula. -/

/-- The names of a formula, left to right: its leaves that write no number. -/
def names : Formula → List String
  | .leaf text => if (Number.literal? text.toList).isSome then [] else [text]
  | .binary _ left right => left.names ++ right.names
  | .call _ argument => argument.names

/-- The value of a formula whose names all have values. -/
def value (valueOf : String → Float) : Formula → Float
  | .leaf text => (Number.literal? text.toList).getD (valueOf text)
  | .binary op left right => op.apply (left.value valueOf) (right.value valueOf)
  | .call f argument => f.apply (argument.value valueOf)

/-- **Only the values of its names count.** -/
theorem value_congr {f g : String → Float} (e : Formula) :
    (∀ name ∈ e.names, f name = g name) → e.value f = e.value g := by
  induction e with
  | leaf text =>
      intro h
      rw [names] at h
      rw [value, value]
      cases hnumber : Number.literal? text.toList with
      | some v => rfl
      | none => exact h text (by simp [hnumber])
  | binary op left right ihl ihr =>
      intro h
      rw [names, List.forall_mem_append] at h
      rw [value, value, ihl h.1, ihr h.2]
  | call f argument ih =>
      intro h
      rw [value, value, ih h]

end Formula

namespace KnownValues

/-- The value of a name, zero where there is none. -/
def get (known : KnownValues) (name : String) : Float := known[name]?.getD 0

/-- The first of some names that has no value. -/
def firstMissing? (known : KnownValues) (names : List String) : Option String :=
  names.find? (· ∉ known)

/-- A result, unless one of some names has no value. -/
def result {α : Type} (known : KnownValues) (names : List String) (a : α) :
    Except SequenceFault α :=
  match known.firstMissing? names with
  | some name => .error (.unboundVariable name)
  | none => .ok a

/-- **Either every name has a value, or one is the first without.** -/
theorem result_cases {α : Type} (known : KnownValues) (names : List String) (a : α) :
    (names.find? (· ∉ known) = none ∧ (∀ name ∈ names, name ∈ known) ∧
      known.result names a = .ok a) ∨
    ∃ name ∈ names, name ∉ known ∧ names.find? (· ∉ known) = some name ∧
      known.result names a = .error (.unboundVariable name) := by
  unfold result firstMissing?
  cases hfirst : names.find? (· ∉ known) with
  | none =>
      have hall := List.find?_eq_none.1 hfirst
      exact .inl ⟨rfl, fun name hname => by simpa using hall name hname, rfl⟩
  | some name =>
      have hnot : name ∉ known := by simpa using List.find?_some hfirst
      exact .inr ⟨name, List.mem_of_find?_eq_some hfirst, hnot, rfl, rfl⟩

theorem firstMissing?_append (known : KnownValues) (first second : List String) :
    known.firstMissing? (first ++ second) =
      (known.firstMissing? first).or (known.firstMissing? second) := List.find?_append

theorem result_append {α β γ : Type} (known : KnownValues) (first second : List String) (a : α)
    (b : β) (f : α → β → γ) :
    known.result (first ++ second) (f a b) =
      known.result first a >>= fun a => known.result second b >>= fun b => pure (f a b) := by
  unfold result
  rw [firstMissing?_append]
  cases known.firstMissing? first with
  | some name => rfl
  | none => cases known.firstMissing? second <;> rfl

theorem firstMissing?_congr {known known' : KnownValues} {names : List String}
    (h : ∀ name ∈ names, known[name]? = known'[name]?) :
    known.firstMissing? names = known'.firstMissing? names := by
  rw [firstMissing?, firstMissing?, ← List.head?_filter, ← List.head?_filter]
  refine congrArg List.head? (List.filter_congr fun name hname => ?_)
  simp only [Std.ExtTreeMap.mem_iff_isSome_getElem?, h name hname]

/-- The value of one name. -/
theorem result_singleton (known : KnownValues) (name : String) :
    known.result [name] (known.get name) =
      match known[name]? with
      | some value => .ok value
      | none => .error (.unboundVariable name) := by
  unfold result firstMissing? get
  cases hvalue : known[name]? with
  | some value =>
      have hmem : name ∈ known := Std.ExtTreeMap.mem_iff_isSome_getElem?.2 (by simp [hvalue])
      simp [hmem]
  | none =>
      have hmem : name ∉ known := by
        rw [Std.ExtTreeMap.mem_iff_isSome_getElem?, hvalue]
        exact Bool.false_ne_true
      simp [hmem]

end KnownValues

/-- **The value of the operation is that of the formula**, unless a name has no
value: then the first such name is the fault. -/
theorem Formula.evaluate_operation (known : KnownValues) (e : Formula) :
    e.operation.evaluate known = known.result e.names (e.value known.get) := by
  induction e with
  | leaf text =>
      unfold operation names value
      cases hnumber : Number.literal? text.toList with
      | some v => rfl
      | none =>
          show Operation.evaluate known (.named text) = known.result [text] (known.get text)
          exact (KnownValues.result_singleton known text).symm
  | binary op left right ihl ihr =>
      rw [operation, Operation.evaluate, ihl, ihr, names, value,
        KnownValues.result_append known _ _ _ _ op.apply]
  | call f argument ih =>
      rw [operation, Operation.evaluate, ih, names, value]
      unfold KnownValues.result
      cases known.firstMissing? argument.names <;> rfl

end FormulaDesk
