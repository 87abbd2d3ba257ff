/-
  FormulaDesk.Proofs.Stages
  ──────────────────────────────────────
  **THE STAGES OF AN ASSEMBLY.**

  While a sequence is read the stack is in one of two stages: it holds shells
  that wait, each with a free slot and complete operands in the others, or it
  holds one complete operation alone.  In both, the nodes on the stack, read
  from the bottom, are the atoms that were read: nothing is lost and nothing
  is out of order.  So the shells on the stack are the shells of the sequence
  whose operands have not all come.

    • `Assembly.settle_cases` — a complete operation that falls ends in one of
      the two stages;
    • `Assembly.Reads.push` — one atom: taken, refused behind a whole sequence,
      or refused over too many shells;
    • `Assembly.reads_foldlM` — a whole run;
    • `Assembly.openShells_of_shells`, `Assembly.exists_whole_of_shells` —
      what the shells on the stack say about the sequence.
-/
import FormulaDesk.Proofs.Preorder

namespace FormulaDesk

namespace Operation

/-! ## §1. Shells. -/

/-- A shell that waits: its slots are filled in order, with complete
operations, and the last one is free. -/
def IsShell : Operation → Prop
  | .binary _ none none => True
  | .binary _ (some a) none => a.Complete
  | .call _ none => True
  | _ => False

/-- The forms of a shell. -/
theorem IsShell.cases {s : Operation} (h : s.IsShell) :
    (∃ op, s = .binary op none none) ∨ (∃ op a, s = .binary op (some a) none ∧ a.Complete) ∨
      ∃ f, s = .call f none := by
  match s, h with
  | .binary op none none, _ => exact .inl ⟨op, rfl⟩
  | .binary op (some a) none, h => exact .inr (.inl ⟨op, a, rfl, h⟩)
  | .call f none, _ => exact .inr (.inr ⟨f, rfl⟩)

theorem IsShell.isFilled {s : Operation} (h : s.IsShell) : s.isFilled = false := by
  rcases h.cases with ⟨op, rfl⟩ | ⟨op, a, rfl, -⟩ | ⟨f, rfl⟩ <;> rfl

theorem IsShell.ne_empty {s : Operation} (h : s.IsShell) : s ≠ .empty := by
  rcases h.cases with ⟨op, rfl⟩ | ⟨op, a, rfl, -⟩ | ⟨f, rfl⟩ <;> simp

theorem isShell_ofAtom {a : Atom} (h : (ofAtom a).isFilled = false) : (ofAtom a).IsShell := by
  rcases ofAtom_cases a with ⟨value, ha⟩ | ⟨name, ha⟩ | ⟨op, ha⟩ | ⟨f, ha⟩ <;> rw [ha] at h ⊢
  · exact nomatch h
  · exact nomatch h
  · trivial
  · trivial

theorem arity_pos_iff (a : Atom) : 0 < a.arity ↔ (ofAtom a).isFilled = false := by
  rw [Atom.arity, List.length_pos_iff, ← Bool.not_eq_true, isFilled_ofAtom_iff]

/-- The root with its slots free again. -/
def bare : Operation → Operation
  | .binary op _ _ => .binary op none none
  | .call f _ => .call f none
  | leaf => leaf

theorem symbol_bare (o : Operation) : o.bare.symbol = o.symbol := by
  cases o <;> rfl

theorem IsShell.isFilled_bare {s : Operation} (h : s.IsShell) : s.bare.isFilled = false := by
  rcases h.cases with ⟨op, rfl⟩ | ⟨op, a, rfl, -⟩ | ⟨f, rfl⟩ <;> rfl

end Operation

namespace Assembly

/-! ## §2. What falls onto shells. -/

/-- The nodes on a stack, read from the bottom. -/
def nodes (stack : List Operation) : List Operation := stack.reverse.flatMap Operation.preorder

@[simp] theorem nodes_nil : nodes [] = [] := rfl

@[simp] theorem nodes_cons (o : Operation) (below : List Operation) :
    nodes (o :: below) = nodes below ++ o.preorder := by
  simp [nodes]

/-- Every operation on the stack is a shell that waits. -/
def Shells (stack : List Operation) : Prop := ∀ s ∈ stack, s.IsShell

theorem shells_cons {s : Operation} {below : List Operation} :
    Shells (s :: below) ↔ s.IsShell ∧ Shells below := List.forall_mem_cons

/-- The latest of some shells waits for an operand. -/
theorem Shells.waiting {stack : List Operation} (h : Shells stack) : Waiting stack := by
  intro s hs
  have hshell := h s (List.mem_of_mem_head? hs)
  exact ⟨hshell.isFilled, hshell.ne_empty⟩

/-- **A complete operation that falls** either fills the last slot of all, and
one complete operation is left, or leaves shells that wait, no more than there
were.  Its nodes come behind those of the shells. -/
theorem settle_cases (shells : List Operation) :
    ∀ whole : Operation, whole.Complete → Shells shells →
      (∃ t, settle whole shells = [t] ∧ t.Complete ∧
        t.preorder = nodes shells ++ whole.preorder) ∨
      (settle whole shells ≠ [] ∧ Shells (settle whole shells) ∧
        (settle whole shells).length ≤ shells.length ∧
        nodes (settle whole shells) = nodes shells ++ whole.preorder) := by
  induction shells with
  | nil =>
      intro whole hwhole _
      exact .inl ⟨whole, rfl, hwhole, rfl⟩
  | cons s below ih =>
      intro whole hwhole hshells
      obtain ⟨hs, hbelow⟩ := shells_cons.1 hshells
      -- A shell that is filled by the operation falls in its turn, onto the shells below.
      have falls : ∀ filled : Operation, filled.Complete →
          filled.preorder = s.preorder ++ whole.preorder →
          settle whole (s :: below) = settle filled below →
          (∃ t, settle whole (s :: below) = [t] ∧ t.Complete ∧
            t.preorder = nodes (s :: below) ++ whole.preorder) ∨
          (settle whole (s :: below) ≠ [] ∧ Shells (settle whole (s :: below)) ∧
            (settle whole (s :: below)).length ≤ (s :: below).length ∧
            nodes (settle whole (s :: below)) = nodes (s :: below) ++ whole.preorder) := by
        intro filled hfilled hpreorder hsettle
        rw [hsettle, nodes_cons, List.append_assoc, ← hpreorder, List.length_cons]
        rcases ih filled hfilled hbelow with hone | ⟨hne, hshells, hlength, hnodes⟩
        · exact .inl hone
        · exact .inr ⟨hne, hshells, Nat.le_succ_of_le hlength, hnodes⟩
      rcases hs.cases with ⟨op, rfl⟩ | ⟨op, a, rfl, ha⟩ | ⟨f, rfl⟩
      · refine .inr ?_
        rw [settle_first]
        refine ⟨by simp, shells_cons.2 ⟨hwhole, hbelow⟩, Nat.le_refl _, by simp⟩
      · exact falls (.binary op (some a) (some whole))
          (Operation.complete_binary.2 ⟨a, whole, rfl, rfl, ha, hwhole⟩) (by simp)
          (settle_second op a whole below)
      · exact falls (.call f (some whole)) (Operation.complete_call.2 ⟨whole, rfl, hwhole⟩)
          (by simp) (settle_argument f whole below)

/-! ## §3. The shells of a sequence. -/

/-- **A shell at the head of a sequence** is its first atom.  If an operand has
come, a whole sequence follows, and leaves no shell open; behind it the free
slots are what is missing. -/
theorem exists_behind_shell {s : Operation} (hs : s.IsShell) {atoms : List Atom}
    {others : List Operation} (h : s.preorder ++ others = atoms.map Operation.ofAtom) :
    ∃ (a : Atom) (operands rest : List Atom) (free : Nat), atoms = a :: operands ∧
      Operation.ofAtom a = s.bare ∧ others = rest.map Operation.ofAtom ∧
      Atom.openShells operands = Atom.openShells rest ∧
      ∀ n, Atom.behind? (n + 1) atoms = Atom.behind? (n + free + 1) rest := by
  rcases hs.cases with ⟨op, rfl⟩ | ⟨op, x, rfl, hx⟩ | ⟨f, rfl⟩
  · obtain ⟨a, rest, rfl, ha, hrest⟩ := List.map_eq_cons_iff.1 h.symm
    refine ⟨a, rest, rest, 1, rfl, ha, hrest.symm, rfl, fun n => ?_⟩
    have harity : a.arity = 2 := Atom.arity_eq ha
    rw [Atom.behind?, harity, Nat.add_comm 2 n]
  · obtain ⟨a, operands, rfl, ha, hoperands⟩ := List.map_eq_cons_iff.1 h.symm
    obtain ⟨xs, rest, rfl, hxs, hrest⟩ := List.map_eq_append_iff.1 hoperands
    have hwritten : x.WrittenBy xs := ⟨hx, by simpa using hxs.symm⟩
    refine ⟨a, xs ++ rest, rest, 0, rfl, ha, hrest.symm, Atom.openShells_append hwritten rest,
      fun n => ?_⟩
    have harity : a.arity = 2 := Atom.arity_eq ha
    rw [Atom.behind?, harity, Nat.add_comm 2 n, Atom.behind?_append hwritten, Nat.add_zero]
  · obtain ⟨a, rest, rfl, ha, hrest⟩ := List.map_eq_cons_iff.1 h.symm
    refine ⟨a, rest, rest, 0, rfl, ha, hrest.symm, rfl, fun n => ?_⟩
    have harity : a.arity = 1 := Atom.arity_eq ha
    rw [Atom.behind?, harity, Nat.add_comm 1 n, Nat.add_zero]

/-- **Shells that wait are no whole sequence**, and begin with none: with all
that has come, the count of missing operands never comes to an end. -/
theorem behind?_of_chain (chain : List Operation) :
    ∀ {atoms : List Atom} (n : Nat), Shells chain →
      chain.flatMap Operation.preorder = atoms.map Operation.ofAtom →
      Atom.behind? (n + 1) atoms = none := by
  -- The chain is the stack from the bottom: its first shell is the first atom, and everything
  -- else of the sequence is among its operands.
  induction chain with
  | nil =>
      intro atoms n _ hatoms
      obtain rfl := List.map_eq_nil_iff.1 hatoms.symm
      rfl
  | cons s chain ih =>
      intro atoms n hshells hatoms
      obtain ⟨hs, hchain⟩ := shells_cons.1 hshells
      rw [List.flatMap_cons] at hatoms
      obtain ⟨_, _, rest, free, -, -, hrest, -, hbehind⟩ := exists_behind_shell hs hatoms
      rw [hbehind]
      exact ih (n + free) hchain hrest

/-- **The shells of a chain are the shells whose operands have not all
come.** -/
theorem openShells_of_chain (chain : List Operation) :
    ∀ {atoms : List Atom}, Shells chain →
      chain.flatMap Operation.preorder = atoms.map Operation.ofAtom →
      (Atom.openShells atoms).map Operation.ofAtom = (chain.map Operation.bare).reverse := by
  induction chain with
  | nil =>
      intro atoms _ hatoms
      obtain rfl := List.map_eq_nil_iff.1 hatoms.symm
      rfl
  | cons s chain ih =>
      intro atoms hshells hatoms
      have hbehind := behind?_of_chain (s :: chain) 0 hshells hatoms
      obtain ⟨hs, hchain⟩ := shells_cons.1 hshells
      rw [List.flatMap_cons] at hatoms
      obtain ⟨a, operands, rest, -, rfl, ha, hrest, hopen, -⟩ := exists_behind_shell hs hatoms
      -- The first atom is open, and the rest of the chain is what stands behind the operand that
      -- has come.
      have hwaits : a.IsOpen operands := by
        refine ⟨?_, Atom.behind?_one_eq_none_iff.1 hbehind⟩
        rw [Operation.arity_pos_iff, ha]
        exact hs.isFilled_bare
      rw [Atom.openShells, if_pos hwaits, hopen, List.map_append, ih hchain hrest,
        List.map_singleton, ha, List.map_cons, List.reverse_cons]

/-- **The shells on the stack are the shells of the sequence whose operands
have not all come**, the latest first, and the sequence begins with no whole
one. -/
theorem openShells_of_shells {shells : List Operation} {atoms : List Atom}
    (hshells : Shells shells) (hnodes : nodes shells = atoms.map Operation.ofAtom) :
    (∀ front, front <+: atoms → ¬ Atom.Whole front) ∧
      (Atom.openShells atoms).map Operation.ofAtom = shells.map Operation.bare := by
  have hchain : Shells shells.reverse := fun s hs => hshells s (List.mem_reverse.1 hs)
  refine ⟨Atom.behind?_one_eq_none_iff.1 (behind?_of_chain _ 0 hchain hnodes), ?_⟩
  rw [openShells_of_chain _ hchain hnodes, ← List.map_reverse, List.reverse_reverse]

/-- **Shells that wait can be filled**: with enough numbers behind it, what
was read is whole. -/
theorem exists_complete_of_shells (shells : List Operation) :
    ∀ t : Operation, t.Complete → Shells shells →
      ∃ (n : Nat) (t' : Operation), t'.Complete ∧
        t'.preorder = nodes shells ++ t.preorder ++ List.replicate n (.number 0) := by
  induction shells with
  | nil => intro t ht _; exact ⟨0, t, ht, by simp⟩
  | cons s below ih =>
      intro t ht hshells
      obtain ⟨hs, hbelow⟩ := shells_cons.1 hshells
      rcases hs.cases with ⟨op, rfl⟩ | ⟨op, a, rfl, ha⟩ | ⟨f, rfl⟩
      · have hfilled : (Operation.binary op (some t) (some (.number 0))).Complete :=
          Operation.complete_binary.2 ⟨t, _, rfl, rfl, ht, trivial⟩
        obtain ⟨n, t', ht', hnodes⟩ := ih _ hfilled hbelow
        exact ⟨n + 1, t', ht', by rw [hnodes]; simp [List.replicate_succ]⟩
      · have hfilled : (Operation.binary op (some a) (some t)).Complete :=
          Operation.complete_binary.2 ⟨a, t, rfl, rfl, ha, ht⟩
        obtain ⟨n, t', ht', hnodes⟩ := ih _ hfilled hbelow
        exact ⟨n, t', ht', by rw [hnodes]; simp⟩
      · have hfilled : (Operation.call f (some t)).Complete :=
          Operation.complete_call.2 ⟨t, rfl, ht⟩
        obtain ⟨n, t', ht', hnodes⟩ := ih _ hfilled hbelow
        exact ⟨n, t', ht', by rw [hnodes]; simp⟩

/-- A sequence that leaves shells begins a whole one. -/
theorem exists_whole_of_shells {shells : List Operation} {atoms : List Atom}
    (hshells : Shells shells) (hnodes : nodes shells = atoms.map Operation.ofAtom) :
    ∃ rest, rest ≠ [] ∧ Atom.Whole (atoms ++ rest) := by
  obtain ⟨n, t, ht, hpreorder⟩ := exists_complete_of_shells shells (.number 0) trivial hshells
  refine ⟨.number 0 :: List.replicate n (.number 0), by simp, t, ht, ?_⟩
  rw [hpreorder, hnodes]
  simp [Operation.ofAtom]

/-! ## §4. One atom, and a run. -/

/-- What the assembly holds when some atoms have been read. -/
inductive Reads (atoms : List Atom) : Assembly → Prop where
  /-- Shells that wait, or nothing at all. -/
  | shells {shells : List Operation} (hshells : Shells shells)
      (hlength : shells.length ≤ maxNesting)
      (hnodes : nodes shells = atoms.map Operation.ofAtom) : Reads atoms (ofShells shells)
  /-- One complete operation. -/
  | whole {t : Operation} (h : t.WrittenBy atoms) : Reads atoms ⟨[t]⟩

theorem reads_start : Reads [] start := by
  rw [start_eq_ofShells]
  exact .shells (by simp [Shells]) (Nat.zero_le _) rfl

/-- **One atom**: it is taken, or refused because a whole sequence has come
already, or refused because it is a shell over too many shells. -/
theorem Reads.push {atoms : List Atom} {st : Assembly} (h : Reads atoms st) (a : Atom) :
    (∃ st', st.push a = .ok st' ∧ Reads (atoms ++ [a]) st') ∨
    (Atom.Trailing (atoms ++ [a]) a ∧ st.push a = .error (.trailingAtom a.text)) ∨
    (Atom.TooDeep (atoms ++ [a]) ∧ st.push a = .error .nestingTooDeep) := by
  cases h with
  | whole h =>
      refine .inr (.inl ⟨⟨atoms, [], rfl, _, h⟩, ?_⟩)
      simp [Assembly.push, h.1.isFilled]
  | @shells shells hshells hlength hnodes =>
      have hread : ∀ os : List Operation, os = nodes shells ++ [Operation.ofAtom a] →
          os = (atoms ++ [a]).map Operation.ofAtom := by
        intro os hos
        rw [hos, hnodes, List.map_append, List.map_singleton]
      cases hfilled : (Operation.ofAtom a).isFilled with
      | true =>
          -- The atom falls onto the shells.
          refine .inl ⟨_, push_whole rfl hfilled hshells.waiting, ?_⟩
          have hpreorder := Operation.preorder_ofAtom a
          rcases settle_cases shells _ (Operation.complete_ofAtom hfilled) hshells with
            ⟨t, hsettle, ht, hnodes'⟩ | ⟨hne, hshells', hlength', hnodes'⟩
          · rw [hsettle]
            exact .whole ⟨ht, hread _ (by rw [hnodes', hpreorder])⟩
          · have hshells := Reads.shells hshells' (Nat.le_trans hlength' hlength)
              (hread _ (by rw [hnodes', hpreorder]))
            rwa [ofShells, if_neg hne] at hshells
      | false =>
          rw [push_shell rfl hfilled hshells.waiting]
          by_cases hlt : shells.length < maxNesting
          · refine .inl ⟨_, if_pos hlt, .shells ?_ hlt (hread _ ?_)⟩
            · exact shells_cons.2 ⟨Operation.isShell_ofAtom hfilled, hshells⟩
            · rw [nodes_cons, Operation.preorder_ofAtom]
          · obtain ⟨hnone, hopen⟩ := openShells_of_shells hshells hnodes
            have hcount : (Atom.openShells atoms).length = shells.length := by
              simpa using congrArg List.length hopen
            refine .inr (.inr ⟨⟨atoms, a, [], rfl, (Operation.arity_pos_iff a).2 hfilled, hnone, ?_⟩,
              if_neg hlt⟩)
            omega

/-- **A run over any atoms**: they are all taken, or the run ends at the first
atom that is refused, and the reason is one of the two. -/
theorem reads_foldlM (atoms : List Atom) :
    ∀ {before : List Atom} {st : Assembly}, Reads before st →
      (∃ st', atoms.foldlM push st = .ok st' ∧ Reads (before ++ atoms) st') ∨
      (∃ a, Atom.Trailing (before ++ atoms) a ∧
        atoms.foldlM push st = .error (.trailingAtom a.text)) ∨
      (Atom.TooDeep (before ++ atoms) ∧ atoms.foldlM push st = .error .nestingTooDeep) := by
  induction atoms with
  | nil =>
      intro before st h
      exact .inl ⟨st, rfl, by rwa [List.append_nil]⟩
  | cons a atoms ih =>
      intro before st h
      rw [List.append_cons, List.foldlM_cons]
      rcases h.push a with ⟨st', hpush, hreads⟩ | ⟨htrailing, hpush⟩ | ⟨hdeep, hpush⟩
      · rw [hpush]
        exact ih hreads
      · rw [hpush]
        exact .inr (.inl ⟨a, htrailing.append atoms, rfl⟩)
      · rw [hpush]
        exact .inr (.inr ⟨hdeep.append atoms, rfl⟩)

end Assembly

end FormulaDesk
