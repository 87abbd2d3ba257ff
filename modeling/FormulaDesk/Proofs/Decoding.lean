/-
  FormulaDesk.Proofs.Decoding
  ──────────────────────────────────────
  **SEQUENCES ARE DECODED.**

  The sequence of a formula, with nothing between its atoms, is decoded to the
  formula: its operation has the same nodes at the same places, and so the
  value that the formula has on its own.  The bound on the nesting is exact: an
  operator or a call is refused when it has `maxNesting` ancestors, whether
  they hold it on the left, on the right or in turns.

    • `Formula.forall_innerDepths_iff` — ancestors and height;
    • `Formula.evaluate_operation_eq` — the value of the operation is that of
      the formula, fault by fault;
    • `Formula.decode_sequence` — the sequence is decoded, or nests too deep.
-/
import FormulaDesk.Proofs.Sequence

namespace FormulaDesk

namespace Formula

/-! ## §1. Ancestors. -/

/-- How many ancestors each operator and each call of a formula has, in
operator-first order, when the formula itself has `above`. -/
def innerDepths (above : Nat) : Formula → List Nat
  | .leaf _ => []
  | .binary _ left right =>
    above :: (left.innerDepths (above + 1) ++ right.innerDepths (above + 1))
  | .call _ argument => above :: argument.innerDepths (above + 1)

/-- **Ancestors and height**: every operator and call has less than `bound`
ancestors exactly when the formula is no higher than that. -/
theorem forall_innerDepths_iff (e : Formula) {bound : Nat} :
    ∀ {above : Nat}, above ≤ bound →
      ((∀ n ∈ e.innerDepths above, n < bound) ↔ above + e.height ≤ bound) := by
  induction e with
  | leaf text =>
      intro above h
      simp [innerDepths, height, h]
  | binary op left right ihl ihr =>
      intro above h
      rw [innerDepths, List.forall_mem_cons, List.forall_mem_append, height]
      -- The root itself is the first of the nodes, and one more ancestor of all others.
      by_cases hlt : above < bound
      · rw [ihl hlt, ihr hlt]
        omega
      · constructor
        · intro hall
          exact absurd hall.1 hlt
        · intro hle
          omega
  | call f argument ih =>
      intro above h
      rw [innerDepths, List.forall_mem_cons, height]
      by_cases hlt : above < bound
      · rw [ih hlt]
        omega
      · constructor
        · intro hall
          exact absurd hall.1 hlt
        · intro hle
          omega

/-! ## §2. The value of a formula. -/

/-- The value of a formula, read off the tree: a leaf that writes a number is
that number, any other leaf is a name; of two operands the left comes first. -/
def evaluate (known : KnownValues) : Formula → Except SequenceFault Float
  | .leaf text =>
    match Number.literal? text.toList with
    | some value => .ok value
    | none =>
      match known[text]? with
      | some value => .ok value
      | none => .error (.unboundVariable text)
  | .binary op left right => do
    let x ← left.evaluate known
    let y ← right.evaluate known
    return op.apply x y
  | .call f argument => do
    let x ← argument.evaluate known
    return f.apply x

/-- **The value of the operation is that of the formula**, fault by fault. -/
theorem evaluate_operation_eq (known : KnownValues) (e : Formula) :
    e.operation.evaluate known = e.evaluate known := by
  induction e with
  | leaf text =>
      rw [operation, evaluate]
      cases Number.literal? text.toList with
      | some value => rfl
      | none => rfl
  | binary op left right ihl ihr =>
      rw [operation, Operation.evaluate, evaluate, ihl, ihr]
  | call f argument ih =>
      rw [operation, Operation.evaluate, evaluate, ih]

/-! ## §3. Decoding. -/

/-- **THE SEQUENCE OF A FORMULA IS DECODED.**  If no operator and no call has
`maxNesting` ancestors or more, the sequence builds the operation with the
nodes of the formula, and has the value of the formula under any known values;
if one has, the nesting is too deep. -/
theorem decode_sequence (e : Formula) (h : e.Plain) :
    ((∀ n ∈ e.innerDepths 0, n < maxNesting) →
      Operation.ofAtoms (e.sequence.map .symbol) = .ok e.operation ∧
      ∀ known : KnownValues,
        evaluateAtoms known (e.sequence.map .symbol) = e.evaluate known) ∧
    ((∃ n ∈ e.innerDepths 0, maxNesting ≤ n) →
      Operation.ofAtoms (e.sequence.map .symbol) = .error .nestingTooDeep) := by
  have hheight := e.forall_innerDepths_iff (Nat.zero_le maxNesting)
  rw [Nat.zero_add] at hheight
  have hdecode := Operation.ofAtoms_sequence h
  constructor
  · intro hshallow
    rw [if_pos (hheight.1 hshallow)] at hdecode
    refine ⟨hdecode, fun known => ?_⟩
    rw [evaluateAtoms, hdecode]
    exact evaluate_operation_eq known e
  · rintro ⟨n, hn, hdeep⟩
    rw [hdecode, if_neg]
    intro hle
    exact absurd (hheight.2 hle n hn) (Nat.not_lt.2 hdeep)

/-- A chain of calls of one function over a formula. -/
def calls (f : Func) (e : Formula) : Nat → Formula
  | 0 => e
  | n + 1 => .call f (calls f e n)

theorem plain_calls (f : Func) {e : Formula} (h : e.Plain) (n : Nat) : (calls f e n).Plain := by
  induction n with
  | zero => exact h
  | succ n ih => exact ih

theorem innerDepths_calls (f : Func) (e : Formula) (n : Nat) :
    ∀ above : Nat, (calls f e n).innerDepths above =
      List.range' above n ++ e.innerDepths (above + n) := by
  induction n with
  | zero => intro above; rfl
  | succ n ih =>
      intro above
      rw [calls, innerDepths, ih, List.range'_succ, List.cons_append, Nat.add_right_comm,
        Nat.add_assoc]

/-- Below `n` calls the only operator or call of a sum is the sum itself. -/
theorem forall_innerDepths_calls_sum (f : Func) (n : Nat) :
    ∀ m ∈ (calls f (.binary .add (.leaf "x") (.leaf "2")) n).innerDepths 0, m ≤ n := by
  intro m hm
  rw [innerDepths_calls, List.mem_append, List.mem_range'_1] at hm
  simp only [innerDepths, List.append_nil, List.mem_singleton] at hm
  omega

set_option maxRecDepth 1000 in
/-- A sum may stand in 511 calls, and not in 512. -/
theorem decode_calls_sum :
    Operation.ofAtoms ((calls .sin (.binary .add (.leaf "x") (.leaf "2")) 511).sequence.map
        .symbol) =
      .ok (calls .sin (.binary .add (.leaf "x") (.leaf "2")) 511).operation ∧
    Operation.ofAtoms ((calls .sin (.binary .add (.leaf "x") (.leaf "2")) 512).sequence.map
        .symbol) = .error .nestingTooDeep := by
  have hsum : (Formula.binary .add (.leaf "x") (.leaf "2")).Plain := ⟨⟨rfl, rfl⟩, rfl, rfl⟩
  constructor
  · refine ((decode_sequence _ (plain_calls .sin hsum 511)).1 fun m hm => ?_).1
    exact Nat.lt_succ_of_le (forall_innerDepths_calls_sum .sin 511 m hm)
  · refine (decode_sequence _ (plain_calls .sin hsum 512)).2 ⟨512, ?_, Nat.le_refl 512⟩
    rw [innerDepths_calls, List.mem_append]
    exact .inr (List.mem_cons_self ..)

end Formula

end FormulaDesk
