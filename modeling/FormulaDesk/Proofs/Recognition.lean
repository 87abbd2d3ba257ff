/-
  FormulaDesk.Proofs.Recognition
  ──────────────────────────────────────
  **WHICH SEQUENCES ARE OPERATIONS.**

  The assembly reads a sequence once, with a stack and no way back, and still
  accepts exactly the whole sequences, each as the one operation that it is
  of.  Of any other sequence it tells which of four things is wrong: nothing
  has come; an atom comes behind a whole sequence; operands are missing; or,
  before any of that, a shell comes over `maxNesting` open shells.

    • `Atom.verdict_ofAtoms` — every outcome has its reason;
    • `Atom.Verdict.unique` — at most one reason holds, depth apart;
    • `Atom.ofAtoms_of_tooDeep` — depth comes before all other reasons;
    • `Operation.ofAtoms_recognizes` — the whole classification.
-/
import FormulaDesk.Proofs.Stages

namespace FormulaDesk

namespace Atom

/-! ## §1. Every outcome has its reason. -/

/-- The outcomes of a sequence with the reasons for them. -/
inductive Verdict (atoms : List Atom) : Except SequenceFault Operation → Prop where
  | whole {t : Operation} (h : t.WrittenBy atoms) : Verdict atoms (.ok t)
  | empty (h : atoms = []) : Verdict atoms (.error .empty)
  | trailing {a : Atom} (h : Trailing atoms a) : Verdict atoms (.error (.trailingAtom a.text))
  | unfinished {shell : Atom} (h : Unfinished atoms shell) :
      Verdict atoms (.error (.unfilledOperand shell.text))
  | tooDeep (h : TooDeep atoms) : Verdict atoms (.error .nestingTooDeep)

/-- What is built from what the assembly holds in the end. -/
theorem verdict_build {atoms : List Atom} {st : Assembly} (h : Assembly.Reads atoms st) :
    Verdict atoms st.build := by
  cases h with
  | whole h =>
      rw [Assembly.build_whole h.1.isFilled]
      exact .whole h
  | @shells shells hshells _ hnodes =>
      cases shells with
      | nil => exact .empty (List.map_eq_nil_iff.1 hnodes.symm)
      | cons top below =>
          obtain ⟨-, hopen⟩ := Assembly.openShells_of_shells hshells hnodes
          obtain ⟨shell, others, hcons, hshell, -⟩ := List.map_eq_cons_iff.1 hopen
          have htop := (Assembly.shells_cons.1 hshells).1
          -- The latest shell of the stack is the last one of the sequence that waits.
          have hsymbol : shell.text = top.symbol := by
            rw [← Operation.symbol_bare, ← hshell, Operation.symbol_ofAtom]
            rw [hshell]
            exact htop.isFilled_bare
          have hbuild : Assembly.build (Assembly.ofShells (top :: below)) =
              .error (.unfilledOperand shell.text) := by
            rw [hsymbol]
            rcases htop.cases with ⟨op, rfl⟩ | ⟨op, a, rfl, -⟩ | ⟨f, rfl⟩ <;>
              simp [Assembly.ofShells_cons, Assembly.build, Operation.isFilled]
          rw [hbuild]
          refine .unfinished ⟨?_, Assembly.exists_whole_of_shells hshells hnodes, ?_⟩
          · rintro rfl
            exact List.cons_ne_nil shell others hcons.symm
          · rw [hcons]
            rfl

/-- **Every outcome has its reason.** -/
theorem verdict_ofAtoms (atoms : List Atom) : Verdict atoms (Operation.ofAtoms atoms) := by
  rw [Operation.ofAtoms]
  rcases Assembly.reads_foldlM atoms Assembly.reads_start with
    ⟨st, hrun, hreads⟩ | ⟨a, htrailing, hrun⟩ | ⟨hdeep, hrun⟩ <;> rw [hrun]
  · exact verdict_build hreads
  · exact .trailing htrailing
  · exact .tooDeep hdeep

/-! ## §2. The reasons exclude each other. -/

/-- Nothing that follows makes a whole sequence out of one with an atom behind
a whole sequence. -/
theorem Trailing.not_whole {atoms : List Atom} {a : Atom} (h : Trailing atoms a)
    (rest : List Atom) : ¬ Whole (atoms ++ rest) := by
  obtain ⟨front, behind, rfl, hfront⟩ := h
  intro hwhole
  have heq := hfront.eq_of_prefix hwhole ⟨a :: behind ++ rest, by simp⟩
  exact absurd (congrArg List.length heq) (by simp)

/-- At most one atom is the first behind a whole sequence. -/
theorem Trailing.unique {atoms : List Atom} {a a' : Atom} (h : Trailing atoms a)
    (h' : Trailing atoms a') : a = a' := by
  obtain ⟨front, behind, rfl, hfront⟩ := h
  obtain ⟨front', behind', heq, hfront'⟩ := h'
  exact (List.cons.inj (hfront.append_inj hfront' heq).2).1

theorem Trailing.ne_nil {atoms : List Atom} {a : Atom} (h : Trailing atoms a) : atoms ≠ [] := by
  obtain ⟨front, behind, rfl, -⟩ := h
  simp

/-- The beginning of a longer whole sequence is not whole. -/
theorem Unfinished.not_whole {atoms : List Atom} {shell : Atom} (h : Unfinished atoms shell) :
    ¬ Whole atoms := by
  obtain ⟨-, ⟨rest, hrest, hlonger⟩, -⟩ := h
  intro hwhole
  have heq := hwhole.eq_of_prefix hlonger ⟨rest, rfl⟩
  exact hrest (List.self_eq_append_right.1 heq)

/-- An atom behind a whole sequence, and a sequence that can still become
whole, exclude each other. -/
theorem Trailing.not_unfinished {atoms : List Atom} {a shell : Atom} (h : Trailing atoms a) :
    ¬ Unfinished atoms shell := by
  rintro ⟨-, ⟨rest, -, hwhole⟩, -⟩
  exact h.not_whole rest hwhole

/-- **Where no shell comes too deep, only one outcome has a reason.** -/
theorem Verdict.unique {atoms : List Atom} {r r' : Except SequenceFault Operation}
    (hdeep : ¬ TooDeep atoms) (h : Verdict atoms r) (h' : Verdict atoms r') : r = r' := by
  cases h with
  | whole h =>
      have hwhole : Whole atoms := ⟨_, h⟩
      cases h' with
      | whole h' => rw [writtenBy_unique h h']
      | empty h' => exact absurd h' hwhole.ne_nil
      | trailing h' => exact absurd hwhole (by simpa using h'.not_whole [])
      | unfinished h' => exact absurd hwhole h'.not_whole
      | tooDeep h' => exact absurd h' hdeep
  | empty h =>
      cases h' with
      | whole h' => exact absurd h (Whole.ne_nil ⟨_, h'⟩)
      | empty _ => rfl
      | trailing h' => exact absurd h h'.ne_nil
      | unfinished h' => exact absurd h h'.1
      | tooDeep h' => exact absurd h' hdeep
  | trailing h =>
      cases h' with
      | whole h' => exact absurd (show Whole atoms from ⟨_, h'⟩) (by simpa using h.not_whole [])
      | empty h' => exact absurd h' h.ne_nil
      | trailing h' => rw [h.unique h']
      | unfinished h' => exact absurd h' h.not_unfinished
      | tooDeep h' => exact absurd h' hdeep
  | unfinished h =>
      cases h' with
      | whole h' => exact absurd ⟨_, h'⟩ h.not_whole
      | empty h' => exact absurd h' h.1
      | trailing h' => exact absurd h h'.not_unfinished
      | unfinished h' => rw [Option.some.inj (h.2.2.symm.trans h'.2.2)]
      | tooDeep h' => exact absurd h' hdeep
  | tooDeep h => exact absurd h hdeep

/-- **Depth comes before all other reasons**: a shell that comes too deep is
refused, whatever follows it. -/
theorem ofAtoms_of_tooDeep {atoms : List Atom} (h : TooDeep atoms) :
    Operation.ofAtoms atoms = .error .nestingTooDeep := by
  obtain ⟨front, a, behind, rfl, harity, hnone, hopen⟩ := h
  rw [Operation.ofAtoms, List.foldlM_append]
  rcases Assembly.reads_foldlM front Assembly.reads_start with
    ⟨st, hrun, hreads⟩ | ⟨a', ⟨whole, behind', hfront, hwhole⟩, -⟩ | ⟨-, hrun⟩
  · rw [hrun]
    cases hreads with
    | whole hwritten => exact absurd ⟨_, hwritten⟩ (hnone front (List.prefix_refl front))
    | @shells shells hshells _ hnodes =>
        -- The shells on the stack are the open ones, so there are too many for one more.
        obtain ⟨-, hmap⟩ := Assembly.openShells_of_shells hshells hnodes
        have hcount : shells.length = maxNesting := by
          rw [← hopen]
          simpa using (congrArg List.length hmap).symm
        have hfilled := (Operation.arity_pos_iff a).1 harity
        have hpush := Assembly.push_shell rfl hfilled hshells.waiting
        rw [if_neg (by omega)] at hpush
        show (a :: behind).foldlM Assembly.push (Assembly.ofShells shells) >>= _ = _
        rw [List.foldlM_cons, hpush]
        rfl
  · -- Nothing before the shell is behind a whole sequence.
    exact absurd hwhole (hnone whole ⟨a' :: behind', hfront.symm⟩)
  · rw [hrun]
    rfl

end Atom

/-! ## §3. The classification. -/

namespace Operation

/-- An outcome has its reason exactly when it is the outcome. -/
theorem ofAtoms_eq_iff {atoms : List Atom} (hdeep : ¬ Atom.TooDeep atoms)
    (r : Except SequenceFault Operation) : ofAtoms atoms = r ↔ Atom.Verdict atoms r := by
  constructor
  · rintro rfl
    exact Atom.verdict_ofAtoms atoms
  · exact (Atom.verdict_ofAtoms atoms).unique hdeep

/-- **THE ASSEMBLY RECOGNISES EXACTLY THE WHOLE SEQUENCES.**  No whole sequence
begins another, and a sequence is of one operation at most.  Where no shell
comes while `maxNesting` are open, the outcome is the operation of the
sequence; nothing, for nothing; the first atom behind a whole sequence; or the
last shell that waits, for the beginning of a whole sequence.  Where one comes
so deep, and only there, the nesting is too deep. -/
theorem ofAtoms_recognizes :
    (∀ xs ys, Atom.Whole xs → Atom.Whole ys → xs <+: ys → xs = ys) ∧
    ∀ atoms : List Atom,
      (∀ t t' : Operation, t.WrittenBy atoms → t'.WrittenBy atoms → t = t') ∧
      (¬ Atom.TooDeep atoms →
        (∀ t, ofAtoms atoms = .ok t ↔ t.WrittenBy atoms) ∧
        (ofAtoms atoms = .error .empty ↔ atoms = []) ∧
        (∀ text, ofAtoms atoms = .error (.trailingAtom text) ↔
          ∃ front a behind, atoms = front ++ a :: behind ∧ Atom.Whole front ∧ text = a.text) ∧
        (∀ symbol, ofAtoms atoms = .error (.unfilledOperand symbol) ↔
          atoms ≠ [] ∧ (∃ rest, rest ≠ [] ∧ Atom.Whole (atoms ++ rest)) ∧
            ∃ shell, (Atom.openShells atoms).head? = some shell ∧ symbol = shell.text)) ∧
      (ofAtoms atoms = .error .nestingTooDeep ↔ Atom.TooDeep atoms) ∧
      (∀ name, ofAtoms atoms ≠ .error (.unboundVariable name)) := by
  refine ⟨fun xs ys hxs hys => hxs.eq_of_prefix hys, fun atoms => ⟨?_, ?_, ?_, ?_⟩⟩
  · exact fun t t' => Atom.writtenBy_unique
  · intro hdeep
    refine ⟨?_, ?_, ?_, ?_⟩
    · intro t
      rw [ofAtoms_eq_iff hdeep]
      exact ⟨fun h => by cases h; assumption, .whole⟩
    · rw [ofAtoms_eq_iff hdeep]
      exact ⟨fun h => by cases h; assumption, .empty⟩
    · intro text
      rw [ofAtoms_eq_iff hdeep]
      constructor
      · intro h
        cases h with
        | @trailing a h =>
            obtain ⟨front, behind, hatoms, hwhole⟩ := h
            exact ⟨front, a, behind, hatoms, hwhole, rfl⟩
      · rintro ⟨front, a, behind, hatoms, hwhole, rfl⟩
        exact .trailing ⟨front, behind, hatoms, hwhole⟩
    · intro symbol
      rw [ofAtoms_eq_iff hdeep]
      constructor
      · intro h
        cases h with
        | @unfinished shell h => exact ⟨h.1, h.2.1, shell, h.2.2, rfl⟩
      · rintro ⟨hne, hrest, shell, hshell, rfl⟩
        exact .unfinished ⟨hne, hrest, hshell⟩
  · constructor
    · intro h
      have hverdict := Atom.verdict_ofAtoms atoms
      rw [h] at hverdict
      cases hverdict with
      | tooDeep h => exact h
    · exact Atom.ofAtoms_of_tooDeep
  · intro name h
    have hverdict := Atom.verdict_ofAtoms atoms
    rw [h] at hverdict
    exact nomatch hverdict

end Operation

end FormulaDesk
