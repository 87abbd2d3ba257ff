/-
  FormulaDesk.Proofs.FirstFault
  ──────────────────────────────────────
  **THE FIRST FAULT OF AN OPERATION.**

  Any operation may be evaluated, also one that no assembly builds: with free
  slots at any depth, a filled slot behind a free one, or nothing at all in a
  slot.  Each node can be a fault by itself, and an operation has a value when
  none of its nodes is.  Otherwise its fault is that of the node that comes
  first, a node coming before all that its slots hold, and the first operand
  before the second.

    • `Operation.nodes` — the nodes in that order;
    • `Operation.HasValue` — the value, from the leaves up;
    • `Operation.evaluate_of_firstFault` — the first fault wins;
    • `Operation.evaluate_reports` — both outcomes of every operation.
-/
import FormulaDesk.Proofs.Preorder

namespace FormulaDesk.Operation

variable {known : KnownValues}

/-! ## §1. Nodes and their faults. -/

mutual

/-- An operation and all that its slots hold, at every depth: each node before
what is in its slots. -/
def nodes : Operation → List Operation
  | .binary op first second => .binary op first second :: (nodesIn first ++ nodesIn second)
  | .call f argument => .call f argument :: nodesIn argument
  | leaf => [leaf]

/-- The nodes of the operation in a slot. -/
def nodesIn : Option Operation → List Operation
  | none => []
  | some o => o.nodes

end

/-- A node is a fault by itself: nothing at all, a name without a value, or a
shell with a free slot, whatever its other slot holds. -/
inductive Faulty (known : KnownValues) : Operation → SequenceFault → Prop where
  | empty : Faulty known .empty .empty
  | unbound {name : String} (h : name ∉ known) :
      Faulty known (.named name) (.unboundVariable name)
  | unfilled {shell : Operation} (h : none ∈ shell.slots) :
      Faulty known shell (.unfilledOperand shell.symbol)

/-- A node is no fault by itself. -/
def Faultless (known : KnownValues) (node : Operation) : Prop :=
  ∀ fault, ¬ node.Faulty known fault

/-- The first of some nodes that is a fault. -/
def FirstFault (known : KnownValues) (ns : List Operation) (fault : SequenceFault) : Prop :=
  ∃ front node behind, ns = front ++ node :: behind ∧
    (∀ n ∈ front, n.Faultless known) ∧ node.Faulty known fault

/-- A name is no fault when it has a value. -/
theorem faultless_named_iff {name : String} : (named name).Faultless known ↔ name ∈ known := by
  constructor
  · intro h
    exact Decidable.not_not.1 fun hnot => h _ (.unbound hnot)
  · rintro hmem _ (_ | hnot | h)
    · exact hnot hmem
    · exact nomatch h

/-- A shell is no fault when its slots are filled. -/
theorem faultless_binary_iff {op : Operator} {first second : Option Operation} :
    (binary op first second).Faultless known ↔ ∃ a b, first = some a ∧ second = some b := by
  constructor
  · intro h
    cases first with
    | none => exact absurd (.unfilled (by simp [slots])) (h _)
    | some a =>
        cases second with
        | none => exact absurd (.unfilled (by simp [slots])) (h _)
        | some b => exact ⟨a, b, rfl, rfl⟩
  · rintro ⟨a, b, rfl, rfl⟩ _ (_ | _ | h)
    simp [slots] at h

theorem faultless_call_iff {f : Func} {argument : Option Operation} :
    (call f argument).Faultless known ↔ ∃ a, argument = some a := by
  constructor
  · intro h
    cases argument with
    | none => exact absurd (.unfilled (by simp [slots])) (h _)
    | some a => exact ⟨a, rfl⟩
  · rintro ⟨a, rfl⟩ _ (_ | _ | h)
    simp [slots] at h

/-! ## §2. The first fault of a list of nodes. -/

/-- The first node is the fault, or it is none and the fault is behind it. -/
theorem firstFault_cons {n : Operation} {ns : List Operation} {fault : SequenceFault} :
    FirstFault known (n :: ns) fault ↔
      n.Faulty known fault ∨ n.Faultless known ∧ FirstFault known ns fault := by
  constructor
  · rintro ⟨front, node, behind, hns, hfront, hnode⟩
    cases front with
    | nil =>
        obtain ⟨rfl, rfl⟩ := List.cons.inj hns
        exact .inl hnode
    | cons m front =>
        obtain ⟨rfl, rfl⟩ := List.cons.inj hns
        obtain ⟨hm, hfront⟩ := List.forall_mem_cons.1 hfront
        exact .inr ⟨hm, front, node, behind, rfl, hfront, hnode⟩
  · rintro (hnode | ⟨hn, front, node, behind, rfl, hfront, hnode⟩)
    · exact ⟨[], n, ns, rfl, by simp, hnode⟩
    · exact ⟨n :: front, node, behind, rfl, List.forall_mem_cons.2 ⟨hn, hfront⟩, hnode⟩

theorem firstFault_append {ns ms : List Operation} {fault : SequenceFault} :
    FirstFault known (ns ++ ms) fault ↔
      FirstFault known ns fault ∨ (∀ n ∈ ns, n.Faultless known) ∧ FirstFault known ms fault := by
  induction ns with
  | nil =>
      have hnone : ¬ FirstFault known [] fault := by
        rintro ⟨front, node, behind, hns, -⟩
        exact absurd hns (by simp)
      simp [hnone]
  | cons n ns ih =>
      rw [List.cons_append, firstFault_cons, firstFault_cons, ih, List.forall_mem_cons,
        and_or_left, or_assoc, and_assoc]

/-- **Among nodes there is a first fault**, or none of them is one. -/
theorem faultless_or_firstFault (known : KnownValues) (ns : List Operation) :
    (∀ n ∈ ns, n.Faultless known) ∨ ∃ fault, FirstFault known ns fault := by
  induction ns with
  | nil => exact .inl (by simp)
  | cons n ns ih =>
      by_cases hn : ∃ fault, n.Faulty known fault
      · obtain ⟨fault, hfault⟩ := hn
        exact .inr ⟨fault, firstFault_cons.2 (.inl hfault)⟩
      · have hnone : n.Faultless known := not_exists.1 hn
        rcases ih with hns | ⟨fault, hfault⟩
        · exact .inl (List.forall_mem_cons.2 ⟨hnone, hns⟩)
        · exact .inr ⟨fault, firstFault_cons.2 (.inr ⟨hnone, hfault⟩)⟩

/-! ## §3. Values. -/

/-- The value of an operation: that of a leaf, or an operator or function
applied to the values of what its slots hold. -/
inductive HasValue (known : KnownValues) : Operation → Float → Prop where
  | number (value : Float) : HasValue known (.number value) value
  | named {name : String} {value : Float} (h : known[name]? = some value) :
      HasValue known (.named name) value
  | binary (op : Operator) {a b : Operation} {x y : Float} (ha : HasValue known a x)
      (hb : HasValue known b y) : HasValue known (.binary op (some a) (some b)) (op.apply x y)
  | call (f : Func) {a : Operation} {x : Float} (ha : HasValue known a x) :
      HasValue known (.call f (some a)) (f.apply x)

theorem HasValue.evaluate {o : Operation} {value : Float} (h : HasValue known o value) :
    o.evaluate known = .ok value := by
  induction h with
  | number value => rfl
  | named h => rw [Operation.evaluate, h]
  | binary op _ _ iha ihb => rw [Operation.evaluate, iha, ihb]; rfl
  | call f _ ih => rw [Operation.evaluate, ih]; rfl

/-- **Without a fault among its nodes an operation has a value.** -/
theorem exists_hasValue {o : Operation} :
    (∀ n ∈ o.nodes, n.Faultless known) → ∃ value, HasValue known o value := by
  induction o using Operation.induct with
  | empty =>
      intro h
      exact absurd .empty (h .empty (by simp [nodes]) _)
  | number value => intro _; exact ⟨value, .number value⟩
  | named name =>
      intro h
      have hmem := faultless_named_iff.1 (h (.named name) (by simp [nodes]))
      obtain ⟨value, hvalue⟩ :=
        Option.isSome_iff_exists.1 (Std.ExtTreeMap.mem_iff_isSome_getElem?.1 hmem)
      exact ⟨value, .named hvalue⟩
  | binary op first second iha ihb =>
      intro h
      obtain ⟨hroot, hslots⟩ := List.forall_mem_cons.1 h
      obtain ⟨a, b, rfl, rfl⟩ := faultless_binary_iff.1 hroot
      obtain ⟨ha, hb⟩ := List.forall_mem_append.1 hslots
      obtain ⟨x, hx⟩ := iha a rfl ha
      obtain ⟨y, hy⟩ := ihb b rfl hb
      exact ⟨op.apply x y, .binary op hx hy⟩
  | call f argument ih =>
      intro h
      obtain ⟨hroot, hslot⟩ := List.forall_mem_cons.1 h
      obtain ⟨a, rfl⟩ := faultless_call_iff.1 hroot
      obtain ⟨x, hx⟩ := ih a rfl hslot
      exact ⟨f.apply x, .call f hx⟩

/-! ## §4. The fault of an operation. -/

/-- A node that is a fault by itself is evaluated to it. -/
theorem Faulty.evaluate {o : Operation} {fault : SequenceFault} (h : o.Faulty known fault) :
    o.evaluate known = .error fault := by
  cases h with
  | empty => rfl
  | @unbound name h =>
      have hnone : known[name]? = none := by
        rw [Std.ExtTreeMap.mem_iff_isSome_getElem?] at h
        simpa using h
      rw [Operation.evaluate, hnone]
  | unfilled h =>
      cases o with
      | empty => exact absurd h List.not_mem_nil
      | number value => exact absurd h List.not_mem_nil
      | named name => exact absurd h List.not_mem_nil
      | binary op first second =>
          -- A free slot is met before anything in the other one.
          cases first with
          | none => rfl
          | some a =>
              cases second with
              | none => rfl
              | some b => simp [slots] at h
      | call f argument =>
          cases argument with
          | none => rfl
          | some a => simp [slots] at h

/-- **The first fault among its nodes is the fault of an operation.** -/
theorem evaluate_of_firstFault {o : Operation} :
    ∀ {fault : SequenceFault}, FirstFault known o.nodes fault →
      o.evaluate known = .error fault := by
  -- The root is a fault itself, or the fault is in a slot and the slots before it have values.
  induction o using Operation.induct with
  | empty =>
      intro fault h
      rcases firstFault_cons.1 h with h | ⟨h, -⟩
      · exact h.evaluate
      · exact absurd .empty (h _)
  | number value =>
      intro fault h
      rcases firstFault_cons.1 h with h | ⟨-, _, _, _, h, -⟩
      · exact h.evaluate
      · exact absurd h (by simp)
  | named name =>
      intro fault h
      rcases firstFault_cons.1 h with h | ⟨-, _, _, _, h, -⟩
      · exact h.evaluate
      · exact absurd h (by simp)
  | binary op first second iha ihb =>
      intro fault h
      rcases firstFault_cons.1 h with h | ⟨hroot, hslots⟩
      · exact h.evaluate
      · obtain ⟨a, b, rfl, rfl⟩ := faultless_binary_iff.1 hroot
        rcases firstFault_append.1 hslots with ha | ⟨ha, hb⟩
        · rw [Operation.evaluate, iha a rfl ha]
          rfl
        · obtain ⟨x, hx⟩ := exists_hasValue ha
          rw [Operation.evaluate, hx.evaluate, ihb b rfl hb]
          rfl
  | call f argument ih =>
      intro fault h
      rcases firstFault_cons.1 h with h | ⟨hroot, hslot⟩
      · exact h.evaluate
      · obtain ⟨a, rfl⟩ := faultless_call_iff.1 hroot
        rw [Operation.evaluate, ih a rfl hslot]
        rfl

/-- **EVERY OPERATION REPORTS ITS FIRST FAULT.**  It has a value exactly when
no node of it is a fault by itself, and the value is built up from the leaves.
Otherwise its fault is that of the node that comes first, whether or not the
slots of its root are filled. -/
theorem evaluate_reports (known : KnownValues) (o : Operation) :
    ((∃ value, o.evaluate known = .ok value) ↔ ∀ n ∈ o.nodes, n.Faultless known) ∧
    (∀ value, o.evaluate known = .ok value ↔ HasValue known o value) ∧
    (∀ fault, o.evaluate known = .error fault ↔ FirstFault known o.nodes fault) := by
  have hok : ∀ value, o.evaluate known = .ok value →
      (∀ n ∈ o.nodes, n.Faultless known) ∧ HasValue known o value := by
    intro value hvalue
    rcases faultless_or_firstFault known o.nodes with hnone | ⟨fault, hfirst⟩
    · obtain ⟨value', h⟩ := exists_hasValue hnone
      obtain rfl := Except.ok.inj (hvalue.symm.trans h.evaluate)
      exact ⟨hnone, h⟩
    · exact nomatch hvalue.symm.trans (evaluate_of_firstFault hfirst)
  refine ⟨⟨fun ⟨value, hvalue⟩ => (hok value hvalue).1, fun hnone => ?_⟩,
    fun value => ⟨fun hvalue => (hok value hvalue).2, HasValue.evaluate⟩,
    fun fault => ⟨fun herror => ?_, evaluate_of_firstFault⟩⟩
  · obtain ⟨value, h⟩ := exists_hasValue hnone
    exact ⟨value, h.evaluate⟩
  · rcases faultless_or_firstFault known o.nodes with hnone | ⟨other, hfirst⟩
    · obtain ⟨value, h⟩ := exists_hasValue hnone
      exact nomatch herror.symm.trans h.evaluate
    · obtain rfl := Except.error.inj (herror.symm.trans (evaluate_of_firstFault hfirst))
      exact hfirst

/-- A filled root hides no fault, and a free slot comes before what the slot
behind it lacks. -/
example :
    let inner : Operation := .binary .add none (some (.named "y"))
    (call .sin (some inner)).isFilled = true ∧
      (call .sin (some inner)).evaluate ∅ = .error (.unfilledOperand "+") :=
  ⟨rfl, rfl⟩

end FormulaDesk.Operation
