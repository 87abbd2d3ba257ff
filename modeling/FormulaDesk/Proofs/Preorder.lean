/-
  FormulaDesk.Proofs.Preorder
  ──────────────────────────────────────
  **WHOLE SEQUENCES.**

  The nodes of a complete operation, each before its operands, are an
  operator-first sequence; a sequence of atoms is whole when it is the one of
  some complete operation.  No parentheses tell where an operand ends, and none
  are needed: the number of slots of each atom does.

    • `Operation.preorder_append_inj` — where a whole sequence ends, and of
      which operation it is, hangs on nothing that follows;
    • `Atom.Whole.eq_of_prefix` — no whole sequence begins another;
    • `Atom.behind?_one_eq_some_iff` — one count of missing operands finds the
      end of the whole sequence that a sequence begins with;
    • `Atom.openShells` — the shells of a sequence that wait for operands.
-/
import FormulaDesk.Proofs.Sequence

namespace FormulaDesk

namespace Operation

/-! ## §1. Complete operations. -/

/-- The slots of the root. -/
def slots : Operation → List (Option Operation)
  | .binary _ first second => [first, second]
  | .call _ argument => [argument]
  | _ => []

mutual

/-- Every slot is filled, at every depth, and nowhere is nothing at all. -/
def Complete : Operation → Prop
  | .empty => False
  | .number _ => True
  | .named _ => True
  | .binary _ first second => CompleteSlot first ∧ CompleteSlot second
  | .call _ argument => CompleteSlot argument

/-- A slot holds a complete operation. -/
def CompleteSlot : Option Operation → Prop
  | none => False
  | some o => o.Complete

end

theorem completeSlot_iff {slot : Option Operation} :
    CompleteSlot slot ↔ ∃ o, slot = some o ∧ o.Complete := by
  cases slot with
  | none => simp [CompleteSlot]
  | some o => simp [CompleteSlot]

theorem complete_binary {op : Operator} {first second : Option Operation} :
    (binary op first second).Complete ↔
      ∃ a b, first = some a ∧ second = some b ∧ a.Complete ∧ b.Complete := by
  rw [Complete, completeSlot_iff, completeSlot_iff]
  constructor
  · rintro ⟨⟨a, rfl, ha⟩, b, rfl, hb⟩
    exact ⟨a, b, rfl, rfl, ha, hb⟩
  · rintro ⟨a, b, rfl, rfl, ha, hb⟩
    exact ⟨⟨a, rfl, ha⟩, b, rfl, hb⟩

theorem complete_call {f : Func} {argument : Option Operation} :
    (call f argument).Complete ↔ ∃ a, argument = some a ∧ a.Complete := by
  rw [Complete, completeSlot_iff]

theorem Complete.isFilled {o : Operation} (h : o.Complete) : o.isFilled = true := by
  cases o with
  | empty => exact h.elim
  | number value => rfl
  | named name => rfl
  | binary op first second =>
      obtain ⟨a, b, rfl, rfl, -, -⟩ := complete_binary.1 h
      rfl
  | call f argument =>
      obtain ⟨a, rfl, -⟩ := complete_call.1 h
      rfl

/-! ## §2. Operator-first order. -/

mutual

/-- The nodes of an operation in operator-first order, each without its
operands. -/
def preorder : Operation → List Operation
  | .empty => []
  | .number value => [.number value]
  | .named name => [.named name]
  | .binary op first second =>
    .binary op none none :: (preorderSlot first ++ preorderSlot second)
  | .call f argument => .call f none :: preorderSlot argument

/-- The nodes of the operation in a slot. -/
def preorderSlot : Option Operation → List Operation
  | none => []
  | some o => o.preorder

end

@[simp] theorem preorder_number (value : Float) : preorder (.number value) = [.number value] :=
  rfl

@[simp] theorem preorder_named (name : String) : preorder (.named name) = [.named name] := rfl

@[simp] theorem preorder_binary (op : Operator) (first second : Option Operation) :
    preorder (.binary op first second) =
      .binary op none none :: (preorderSlot first ++ preorderSlot second) := rfl

@[simp] theorem preorder_call (f : Func) (argument : Option Operation) :
    preorder (.call f argument) = .call f none :: preorderSlot argument := rfl

@[simp] theorem preorderSlot_none : preorderSlot none = [] := rfl

@[simp] theorem preorderSlot_some (o : Operation) : preorderSlot (some o) = o.preorder := rfl

theorem Complete.preorder_ne_nil {o : Operation} (h : o.Complete) : o.preorder ≠ [] := by
  cases o with
  | empty => exact h.elim
  | number value => simp
  | named name => simp
  | binary op first second => simp
  | call f argument => simp

/-- **A sequence shows where its operation ends**: whatever follows, the nodes
of two complete operations agree only if the operations do. -/
theorem preorder_append_inj {t : Operation} :
    ∀ {t' : Operation} {rest rest' : List Operation}, t.Complete → t'.Complete →
      t.preorder ++ rest = t'.preorder ++ rest' → t = t' ∧ rest = rest' := by
  -- The first node tells the root of both, and the operands follow one after the other.
  induction t using Operation.induct with
  | empty => intro _ _ _ h; exact h.elim
  | number value =>
      intro t' rest rest' _ h' heq
      cases t' with
      | empty => exact h'.elim
      | number value' => simpa using heq
      | named name => simp at heq
      | binary op first second => simp at heq
      | call f argument => simp at heq
  | named name =>
      intro t' rest rest' _ h' heq
      cases t' with
      | empty => exact h'.elim
      | number value => simp at heq
      | named name' => simpa using heq
      | binary op first second => simp at heq
      | call f argument => simp at heq
  | binary op first second ihl ihr =>
      intro t' rest rest' h h' heq
      obtain ⟨a, b, rfl, rfl, ha, hb⟩ := complete_binary.1 h
      cases t' with
      | empty => exact h'.elim
      | number value => simp at heq
      | named name => simp at heq
      | binary op' first' second' =>
          obtain ⟨a', b', rfl, rfl, ha', hb'⟩ := complete_binary.1 h'
          simp only [preorder_binary, preorderSlot_some, List.cons_append, List.append_assoc,
            List.cons.injEq, Operation.binary.injEq, and_true] at heq
          obtain ⟨rfl, hoperands⟩ := heq
          obtain ⟨rfl, hsecond⟩ := ihl a rfl ha ha' hoperands
          obtain ⟨rfl, rfl⟩ := ihr b rfl hb hb' hsecond
          exact ⟨rfl, rfl⟩
      | call f argument => simp at heq
  | call f argument ih =>
      intro t' rest rest' h h' heq
      obtain ⟨a, rfl, ha⟩ := complete_call.1 h
      cases t' with
      | empty => exact h'.elim
      | number value => simp at heq
      | named name => simp at heq
      | binary op first second => simp at heq
      | call f' argument' =>
          obtain ⟨a', rfl, ha'⟩ := complete_call.1 h'
          simp only [preorder_call, preorderSlot_some, List.cons_append, List.cons.injEq,
            Operation.call.injEq, and_true] at heq
          obtain ⟨rfl, hoperand⟩ := heq
          obtain ⟨rfl, rfl⟩ := ih a rfl ha ha' hoperand
          exact ⟨rfl, rfl⟩

/-! ## §3. The nodes of atoms. -/

/-- A sequence of atoms is that of an operation: this is complete, and the
atoms begin its nodes in operator-first order. -/
def WrittenBy (t : Operation) (atoms : List Atom) : Prop :=
  t.Complete ∧ t.preorder = atoms.map ofAtom

/-- **An atom is a leaf or an empty shell.** -/
theorem ofAtom_cases (a : Atom) :
    (∃ value, ofAtom a = .number value) ∨ (∃ name, ofAtom a = .named name) ∨
      (∃ op, ofAtom a = .binary op none none) ∨ ∃ f, ofAtom a = .call f none := by
  cases a with
  | number value => exact .inl ⟨value, rfl⟩
  | symbol text =>
      rw [ofAtom]
      cases Number.literal? text.toList with
      | some value => exact .inl ⟨value, rfl⟩
      | none =>
          cases Operator.ofText? text with
          | some op => exact .inr (.inr (.inl ⟨op, rfl⟩))
          | none =>
              cases Func.ofName? text with
              | some f => exact .inr (.inr (.inr ⟨f, rfl⟩))
              | none => exact .inr (.inl ⟨text, rfl⟩)

theorem preorder_ofAtom (a : Atom) : (ofAtom a).preorder = [ofAtom a] := by
  rcases ofAtom_cases a with ⟨value, h⟩ | ⟨name, h⟩ | ⟨op, h⟩ | ⟨f, h⟩ <;> rw [h] <;> rfl

theorem isFilled_ofAtom_iff (a : Atom) :
    (ofAtom a).isFilled = true ↔ (ofAtom a).slots = [] := by
  rcases ofAtom_cases a with ⟨value, h⟩ | ⟨name, h⟩ | ⟨op, h⟩ | ⟨f, h⟩ <;>
    rw [h] <;> simp [isFilled, slots]

/-- An atom without slots is complete. -/
theorem complete_ofAtom {a : Atom} (h : (ofAtom a).isFilled = true) : (ofAtom a).Complete := by
  rcases ofAtom_cases a with ⟨value, ha⟩ | ⟨name, ha⟩ | ⟨op, ha⟩ | ⟨f, ha⟩ <;> rw [ha] at h ⊢
  · trivial
  · trivial
  · exact nomatch h
  · exact nomatch h

/-- The symbol of a shell is the text of the atom that began it. -/
theorem symbol_ofAtom {a : Atom} (h : (ofAtom a).isFilled = false) :
    (ofAtom a).symbol = a.text := by
  cases a with
  | number value => exact nomatch h
  | symbol text =>
      rw [ofAtom] at h ⊢
      cases hnumber : Number.literal? text.toList with
      | some value =>
          rw [hnumber] at h
          exact nomatch h
      | none =>
          rw [hnumber] at h
          cases hop : Operator.ofText? text with
          | some op =>
              have hsymbol : op.text.toList = [op.symbol] := by cases op <;> rfl
              show op.text = text
              exact String.toList_inj.1 (hsymbol.trans (Operator.ofText?_eq_some.1 hop).symm)
          | none =>
              rw [hop] at h
              cases hf : Func.ofName? text with
              | some f => exact (Func.ofName?_eq_some.1 hf).symm
              | none =>
                  rw [hf] at h
                  exact nomatch h

end Operation

namespace Atom

/-! ## §4. Whole sequences of atoms. -/

/-- How many operands an atom takes: two for an operator, one for a function,
none for a number or a name. -/
def arity (a : Atom) : Nat := (Operation.ofAtom a).slots.length

/-- A sequence is that of a complete operation. -/
def Whole (atoms : List Atom) : Prop := ∃ t : Operation, t.WrittenBy atoms

/-- **A sequence is that of one operation at most.** -/
theorem writtenBy_unique {t t' : Operation} {atoms : List Atom} (h : t.WrittenBy atoms)
    (h' : t'.WrittenBy atoms) : t = t' := by
  have hnodes : t.preorder ++ [] = t'.preorder ++ [] := by rw [h.2, h'.2]
  exact (Operation.preorder_append_inj h.1 h'.1 hnodes).1

theorem Whole.ne_nil {atoms : List Atom} (h : Whole atoms) : atoms ≠ [] := by
  obtain ⟨t, ht, hatoms⟩ := h
  rintro rfl
  exact ht.preorder_ne_nil hatoms

/-- Behind a whole sequence no other one ends, whatever follows. -/
theorem Whole.append_inj {xs ys xs' ys' : List Atom} (h : Whole xs) (h' : Whole xs')
    (heq : xs ++ ys = xs' ++ ys') : xs = xs' ∧ ys = ys' := by
  obtain ⟨t, ht, hxs⟩ := h
  obtain ⟨t', ht', hxs'⟩ := h'
  have hnodes := congrArg (List.map Operation.ofAtom) heq
  rw [List.map_append, List.map_append, ← hxs, ← hxs'] at hnodes
  obtain ⟨rfl, -⟩ := Operation.preorder_append_inj ht ht' hnodes
  -- As many nodes are as many atoms.
  have hlength : xs.length = xs'.length := by
    have := congrArg List.length (hxs.symm.trans hxs')
    rwa [List.length_map, List.length_map] at this
  exact List.append_inj heq hlength

/-- **No whole sequence begins another.** -/
theorem Whole.eq_of_prefix {xs ys : List Atom} (h : Whole xs) (h' : Whole ys)
    (hbegins : xs <+: ys) : xs = ys := by
  obtain ⟨rest, hrest⟩ := hbegins
  rw [← List.append_nil ys] at hrest
  exact (h.append_inj h' hrest).1

/-- What stands behind the first `n` whole sequences of a sequence, if it
begins with so many: each atom is one of the operands that are missing, and
its own operands are missing then. -/
def behind? : Nat → List Atom → Option (List Atom)
  | 0, atoms => some atoms
  | _ + 1, [] => none
  | n + 1, a :: atoms => behind? (a.arity + n) atoms

theorem arity_eq {a : Atom} {o : Operation} (h : Operation.ofAtom a = o) :
    a.arity = o.slots.length := by
  rw [arity, h]

/-- **A whole sequence is one operand**, whatever follows. -/
theorem behind?_append {t : Operation} :
    ∀ {atoms : List Atom}, t.WrittenBy atoms → ∀ (n : Nat) (rest : List Atom),
      behind? (n + 1) (atoms ++ rest) = behind? n rest := by
  -- A leaf takes the place of one operand.
  have leaf : ∀ {o : Operation} {atoms : List Atom}, o.slots.length = 0 →
      [o] = atoms.map Operation.ofAtom → ∀ (n : Nat) (rest : List Atom),
        behind? (n + 1) (atoms ++ rest) = behind? n rest := by
    intro o atoms hslots hatoms n rest
    obtain ⟨a, rfl, ha⟩ := List.map_eq_singleton_iff.1 hatoms.symm
    rw [List.singleton_append, behind?, arity_eq ha, hslots, Nat.zero_add]
  induction t using Operation.induct with
  | empty => intro _ h; exact h.1.elim
  | number value => intro atoms h; exact leaf rfl h.2
  | named name => intro atoms h; exact leaf rfl h.2
  | binary op first second ihl ihr =>
      intro atoms ⟨hcomplete, hatoms⟩ n rest
      obtain ⟨l, r, rfl, rfl, hl, hr⟩ := Operation.complete_binary.1 hcomplete
      obtain ⟨a, operands, rfl, ha, hoperands⟩ := List.map_eq_cons_iff.1 hatoms.symm
      obtain ⟨xs, ys, rfl, hxs, hys⟩ := List.map_eq_append_iff.1 hoperands
      have harity : a.arity = 2 := arity_eq ha
      rw [List.cons_append, behind?, harity, List.append_assoc, Nat.add_comm 2 n,
        ihl l rfl ⟨hl, hxs.symm⟩, ihr r rfl ⟨hr, hys.symm⟩]
  | call f argument ih =>
      intro atoms ⟨hcomplete, hatoms⟩ n rest
      obtain ⟨x, rfl, hx⟩ := Operation.complete_call.1 hcomplete
      obtain ⟨a, operands, rfl, ha, hoperands⟩ := List.map_eq_cons_iff.1 hatoms.symm
      have harity : a.arity = 1 := arity_eq ha
      rw [List.cons_append, behind?, harity, Nat.add_comm 1 n, ih x rfl ⟨hx, hoperands.symm⟩]

/-- **An atom takes its operands** from the operations behind it, when there
are enough of them. -/
theorem exists_takes (a : Atom) {n : Nat} {ts : List Operation} (hts : ∀ t ∈ ts, t.Complete)
    (hlength : ts.length = a.arity + n) :
    ∃ (t : Operation) (us : List Operation), t.Complete ∧ (∀ u ∈ us, u.Complete) ∧
      us.length = n ∧ t.preorder ++ us.flatMap Operation.preorder =
        Operation.ofAtom a :: ts.flatMap Operation.preorder := by
  rcases Operation.ofAtom_cases a with ⟨value, ha⟩ | ⟨name, ha⟩ | ⟨op, ha⟩ | ⟨f, ha⟩ <;>
    rw [arity_eq ha] at hlength <;> rw [ha]
  · exact ⟨.number value, ts, trivial, hts, by simpa [Operation.slots] using hlength, rfl⟩
  · exact ⟨.named name, ts, trivial, hts, by simpa [Operation.slots] using hlength, rfl⟩
  · match ts, hts with
    | [], _ => simp [Operation.slots] at hlength; omega
    | [_], _ => simp [Operation.slots] at hlength; omega
    | l :: r :: us, hts =>
        obtain ⟨hl, hrest⟩ := List.forall_mem_cons.1 hts
        obtain ⟨hr, hus⟩ := List.forall_mem_cons.1 hrest
        refine ⟨.binary op (some l) (some r), us,
          Operation.complete_binary.2 ⟨l, r, rfl, rfl, hl, hr⟩, hus, ?_, by simp⟩
        simp only [Operation.slots, List.length_cons, List.length_nil] at hlength
        omega
  · match ts, hts with
    | [], _ => simp [Operation.slots] at hlength; omega
    | x :: us, hts =>
        obtain ⟨hx, hus⟩ := List.forall_mem_cons.1 hts
        refine ⟨.call f (some x), us, Operation.complete_call.2 ⟨x, rfl, hx⟩, hus, ?_, by simp⟩
        simp only [Operation.slots, List.length_cons, List.length_nil] at hlength
        omega

/-- The count of missing operands finds operations. -/
theorem exists_of_behind? (atoms : List Atom) :
    ∀ {n : Nat} {rest : List Atom}, behind? n atoms = some rest →
      ∃ (ts : List Operation) (front : List Atom), ts.length = n ∧ (∀ t ∈ ts, t.Complete) ∧
        ts.flatMap Operation.preorder = front.map Operation.ofAtom ∧ atoms = front ++ rest := by
  -- Where nothing is missing, the rest is all of the sequence.
  have none : ∀ {atoms rest : List Atom}, behind? 0 atoms = some rest →
      ∃ (ts : List Operation) (front : List Atom), ts.length = 0 ∧ (∀ t ∈ ts, t.Complete) ∧
        ts.flatMap Operation.preorder = front.map Operation.ofAtom ∧ atoms = front ++ rest := by
    intro atoms rest h
    rw [behind?] at h
    exact ⟨[], [], rfl, by simp, rfl, Option.some.inj h⟩
  induction atoms with
  | nil =>
      intro n rest h
      cases n with
      | zero => exact none h
      | succ n => exact nomatch h
  | cons a atoms ih =>
      intro n rest h
      cases n with
      | zero => exact none h
      | succ n =>
          rw [behind?] at h
          obtain ⟨ts, front, hlength, hts, hfront, rfl⟩ := ih h
          obtain ⟨t, us, ht, hus, hn, hnodes⟩ := exists_takes a hts hlength
          refine ⟨t :: us, a :: front, by simp [hn], List.forall_mem_cons.2 ⟨ht, hus⟩, ?_, rfl⟩
          rw [List.flatMap_cons, hnodes, hfront, List.map_cons]

/-- **The count finds the end of the whole sequence at the head.** -/
theorem behind?_one_eq_some_iff {atoms rest : List Atom} :
    behind? 1 atoms = some rest ↔ ∃ front, Whole front ∧ atoms = front ++ rest := by
  constructor
  · intro h
    obtain ⟨ts, front, hlength, hts, hfront, hatoms⟩ := exists_of_behind? atoms h
    obtain ⟨t, rfl⟩ := List.length_eq_one_iff.1 hlength
    exact ⟨front, ⟨t, hts t (List.mem_singleton_self t), by simpa using hfront⟩, hatoms⟩
  · rintro ⟨front, ⟨t, ht⟩, rfl⟩
    rw [← Nat.zero_add 1, behind?_append ht, behind?]

theorem behind?_one_eq_none_iff {atoms : List Atom} :
    behind? 1 atoms = none ↔ ∀ front, front <+: atoms → ¬ Whole front := by
  constructor
  · rintro h front ⟨rest, rfl⟩ hwhole
    rw [behind?_one_eq_some_iff.2 ⟨front, hwhole, rfl⟩] at h
    exact nomatch h
  · intro h
    cases hrest : behind? 1 atoms with
    | none => rfl
    | some rest =>
        obtain ⟨front, hwhole, rfl⟩ := behind?_one_eq_some_iff.1 hrest
        exact absurd hwhole (h front (List.prefix_append front rest))

/-! ## §5. Shells that wait. -/

/-- A shell whose operands have not all come: among the atoms from it on no
whole sequence begins. -/
def IsOpen (a : Atom) (behind : List Atom) : Prop :=
  0 < a.arity ∧ ∀ front, front <+: a :: behind → ¬ Whole front

instance (a : Atom) (behind : List Atom) : Decidable (a.IsOpen behind) :=
  decidable_of_iff (0 < a.arity ∧ behind? 1 (a :: behind) = none) <|
    and_congr_right fun _ => behind?_one_eq_none_iff

/-- The shells of a sequence whose operands have not all come, the last one
first. -/
def openShells : List Atom → List Atom
  | [] => []
  | a :: atoms => if a.IsOpen atoms then openShells atoms ++ [a] else openShells atoms

/-- **The shells within a whole sequence are filled**, whatever follows. -/
theorem openShells_append {t : Operation} :
    ∀ {atoms : List Atom}, t.WrittenBy atoms → ∀ rest : List Atom,
      openShells (atoms ++ rest) = openShells rest := by
  -- What begins a whole sequence is not open.
  have head : ∀ {a : Atom} {atoms rest : List Atom}, Whole (a :: atoms) →
      openShells (a :: (atoms ++ rest)) = openShells (atoms ++ rest) := by
    intro a atoms rest h
    rw [openShells, if_neg]
    intro hopen
    exact hopen.2 (a :: atoms) ⟨rest, rfl⟩ h
  have leaf : ∀ {o : Operation} {atoms : List Atom}, o.preorder = [o] →
      o.WrittenBy atoms → ∀ rest : List Atom, openShells (atoms ++ rest) = openShells rest := by
    intro o atoms hpre h rest
    obtain ⟨a, rfl, -⟩ := List.map_eq_singleton_iff.1 (h.2.symm.trans hpre)
    exact head ⟨o, h⟩
  induction t using Operation.induct with
  | empty => intro _ h; exact h.1.elim
  | number value => intro atoms h; exact leaf rfl h
  | named name => intro atoms h; exact leaf rfl h
  | binary op first second ihl ihr =>
      intro atoms h rest
      obtain ⟨l, r, rfl, rfl, hl, hr⟩ := Operation.complete_binary.1 h.1
      obtain ⟨a, operands, rfl, -, hoperands⟩ := List.map_eq_cons_iff.1 h.2.symm
      obtain ⟨xs, ys, rfl, hxs, hys⟩ := List.map_eq_append_iff.1 hoperands
      rw [List.cons_append, head ⟨_, h⟩, List.append_assoc, ihl l rfl ⟨hl, hxs.symm⟩,
        ihr r rfl ⟨hr, hys.symm⟩]
  | call f argument ih =>
      intro atoms h rest
      obtain ⟨x, rfl, hx⟩ := Operation.complete_call.1 h.1
      obtain ⟨a, operands, rfl, -, hoperands⟩ := List.map_eq_cons_iff.1 h.2.symm
      rw [List.cons_append, head ⟨_, h⟩, ih x rfl ⟨hx, hoperands.symm⟩]

/-- In `+ x * 2` the sum waits for its second operand, which is the product,
and the product for its own. -/
example : openShells [.symbol "+", .symbol "x", .symbol "*", .symbol "y"] =
    [.symbol "*", .symbol "+"] := by cbv

/-! ## §6. Why a sequence is not whole. -/

/-- An atom comes behind a whole sequence. -/
def Trailing (atoms : List Atom) (a : Atom) : Prop :=
  ∃ front behind, atoms = front ++ a :: behind ∧ Whole front

/-- A shell comes while `maxNesting` shells are open: the atoms before it hold
no whole sequence, behind which nothing comes, and leave so many shells
without all their operands. -/
def TooDeep (atoms : List Atom) : Prop :=
  ∃ front a behind, atoms = front ++ a :: behind ∧ 0 < a.arity ∧
    (∀ whole, whole <+: front → ¬ Whole whole) ∧ (openShells front).length = maxNesting

/-- A sequence is the beginning of a whole one, and a shell is the last one
that waits for operands. -/
def Unfinished (atoms : List Atom) (shell : Atom) : Prop :=
  atoms ≠ [] ∧ (∃ rest, rest ≠ [] ∧ Whole (atoms ++ rest)) ∧
    (openShells atoms).head? = some shell

theorem Trailing.append {atoms : List Atom} {a : Atom} (h : Trailing atoms a)
    (rest : List Atom) : Trailing (atoms ++ rest) a := by
  obtain ⟨front, behind, rfl, hwhole⟩ := h
  exact ⟨front, behind ++ rest, by simp, hwhole⟩

theorem TooDeep.append {atoms : List Atom} (h : TooDeep atoms) (rest : List Atom) :
    TooDeep (atoms ++ rest) := by
  obtain ⟨front, a, behind, rfl, harity, hnone, hopen⟩ := h
  exact ⟨front, a, behind ++ rest, by simp, harity, hnone, hopen⟩

end Atom

end FormulaDesk
