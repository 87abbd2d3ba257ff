/-
  FormulaDesk.Proofs.History
  ──────────────────────────────────────
  **ANY HISTORY OF AN ASSEMBLY.**

  An assembly may be offered atoms on and on, refused ones among them.  A
  refusal comes before anything is done to the stack, so the assembly is at
  every time what the atoms that it took have made of it; and whatever they
  were, the stack is in one of its two stages.

    • `Assembly.offer_eq` — the step on a stack that stays is the step that
      answers with a new one;
    • `Assembly.reads_offerAll` — what is on the stack after any history;
    • `Assembly.offerAll_accepted` — the refused atoms make no difference;
    • `Operation.Complete.evaluate_cases` — what is built can only lack the
      value of a name;
    • `Assembly.offerAll_start` — all of this, for a new assembly.
-/
import FormulaDesk.Proofs.Recognition

namespace FormulaDesk

namespace Operation

/-! ## §1. Complete operations. -/

theorem IsShell.none_mem_slots {s : Operation} (h : s.IsShell) : none ∈ s.slots := by
  rcases h.cases with ⟨op, rfl⟩ | ⟨op, a, rfl, -⟩ | ⟨f, rfl⟩ <;> simp [slots]

theorem IsShell.complete_of_mem_slots {s x : Operation} (h : s.IsShell)
    (hx : some x ∈ s.slots) : x.Complete := by
  rcases h.cases with ⟨op, rfl⟩ | ⟨op, a, rfl, ha⟩ | ⟨f, rfl⟩
  · simp [slots] at hx
  · obtain rfl : x = a := by simpa [slots] using hx
    exact ha
  · simp [slots] at hx

theorem Complete.complete_of_mem_slots {o x : Operation} (h : o.Complete)
    (hx : some x ∈ o.slots) : x.Complete := by
  cases o with
  | empty => exact h.elim
  | number value => simp [slots] at hx
  | named name => simp [slots] at hx
  | binary op first second =>
      obtain ⟨a, b, rfl, rfl, ha, hb⟩ := complete_binary.1 h
      obtain rfl | rfl : x = a ∨ x = b := by simpa [slots] using hx
      · exact ha
      · exact hb
  | call f argument =>
      obtain ⟨a, rfl, ha⟩ := complete_call.1 h
      obtain rfl : x = a := by simpa [slots] using hx
      exact ha

/-- **A complete operation can only lack the value of a name.** -/
theorem Complete.evaluate_cases (known : KnownValues) {o : Operation} :
    o.Complete → (∃ value, o.evaluate known = .ok value) ∨
      ∃ name, o.evaluate known = .error (.unboundVariable name) := by
  induction o using Operation.induct with
  | empty => intro h; exact h.elim
  | number value => intro _; exact .inl ⟨value, rfl⟩
  | named name =>
      intro _
      rw [evaluate]
      cases known[name]? with
      | some value => exact .inl ⟨value, rfl⟩
      | none => exact .inr ⟨name, rfl⟩
  | binary op first second ihl ihr =>
      intro h
      obtain ⟨a, b, rfl, rfl, ha, hb⟩ := complete_binary.1 h
      rw [evaluate]
      rcases ihl a rfl ha with ⟨x, hx⟩ | ⟨name, hname⟩
      · rcases ihr b rfl hb with ⟨y, hy⟩ | ⟨name, hname⟩
        · exact .inl ⟨op.apply x y, by rw [hx, hy]; rfl⟩
        · exact .inr ⟨name, by rw [hx, hname]; rfl⟩
      · exact .inr ⟨name, by rw [hname]; rfl⟩
  | call f argument ih =>
      intro h
      obtain ⟨a, rfl, ha⟩ := complete_call.1 h
      rw [evaluate]
      rcases ih a rfl ha with ⟨x, hx⟩ | ⟨name, hname⟩
      · exact .inl ⟨f.apply x, by rw [hx]; rfl⟩
      · exact .inr ⟨name, by rw [hname]; rfl⟩

end Operation

namespace Assembly

/-! ## §2. The form of the stack. -/

/-- What every stack is like. -/
structure WellFormed (a : Assembly) : Prop where
  ne_nil : a.stack ≠ []
  /-- Nothing at all stands alone. -/
  empty_alone : .empty ∈ a.stack → a.stack = [.empty]
  /-- So does an operation without a free slot. -/
  filled_alone : ∀ o ∈ a.stack, o.isFilled = true → a.stack = [o]
  /-- Every other operation has a free slot. -/
  free_slot : ∀ o ∈ a.stack, o ≠ .empty → o.isFilled = false → none ∈ o.slots
  /-- The second slot is filled after the first. -/
  first_before_second : ∀ (op : Operator) (b : Operation), .binary op none (some b) ∉ a.stack
  /-- What is in a slot is complete. -/
  complete_of_mem_slots : ∀ o ∈ a.stack, ∀ x, some x ∈ o.slots → x.Complete
  length_le : a.stack.length ≤ maxNesting

/-- One complete operation alone. -/
theorem wellFormed_whole {t : Operation} (h : t.Complete) : WellFormed ⟨[t]⟩ where
  ne_nil := by simp
  empty_alone hmem := by rw [List.mem_singleton.1 hmem]
  filled_alone o ho _ := by rw [List.mem_singleton.1 ho]
  free_slot o ho _ hfree := by
    rw [List.mem_singleton.1 ho, h.isFilled] at hfree
    exact nomatch hfree
  first_before_second op b hmem := by
    rw [← List.mem_singleton.1 hmem] at h
    exact h.1
  complete_of_mem_slots o ho x hx := by
    rw [List.mem_singleton.1 ho] at hx
    exact h.complete_of_mem_slots hx
  length_le := by simp [maxNesting]

theorem wellFormed_start : WellFormed start where
  ne_nil := by simp [start]
  empty_alone _ := rfl
  filled_alone o ho hfilled := by
    rw [List.mem_singleton.1 ho] at hfilled
    exact nomatch hfilled
  free_slot o ho hne _ := absurd (List.mem_singleton.1 ho) hne
  first_before_second op b hmem := nomatch List.mem_singleton.1 hmem
  complete_of_mem_slots o ho x hx := by
    rw [List.mem_singleton.1 ho] at hx
    exact nomatch hx
  length_le := by simp [start, maxNesting]

/-- Shells that wait. -/
theorem wellFormed_shells {stack : List Operation} (hne : stack ≠ []) (h : Shells stack)
    (hlength : stack.length ≤ maxNesting) : WellFormed ⟨stack⟩ where
  ne_nil := hne
  empty_alone hmem := absurd rfl (h _ hmem).ne_empty
  filled_alone o ho hfilled := by
    rw [(h o ho).isFilled] at hfilled
    exact nomatch hfilled
  free_slot o ho _ _ := (h o ho).none_mem_slots
  first_before_second op b hmem := h _ hmem
  complete_of_mem_slots o ho x hx := (h o ho).complete_of_mem_slots hx
  length_le := hlength

/-- **Whatever was read, the stack is well formed.** -/
theorem Reads.wellFormed {atoms : List Atom} {a : Assembly} (h : Reads atoms a) :
    a.WellFormed := by
  cases h with
  | whole h => exact wellFormed_whole h.1
  | @shells shells hshells hlength _ =>
      rw [ofShells]
      by_cases hne : shells = []
      · rw [if_pos hne]
        exact wellFormed_start
      · rw [if_neg hne]
        exact wellFormed_shells hne hshells hlength

/-! ## §3. A stack that stays. -/

/-- **An atom is offered and pushed alike**, and a refusal leaves the stack as
it was: both checks come before the stack is touched. -/
theorem offer_eq (atom : Atom) (a : Assembly) :
    offer atom a =
      match a.push atom with
      | .ok next => .ok () next
      | .error fault => .error fault a := by
  rw [push]
  show (if (a.stack.head?.map Operation.isFilled).getD false = true then _ else _ :
    EStateM SequenceFault Assembly Unit) a = _
  by_cases hwhole : (a.stack.head?.map Operation.isFilled).getD false = true
  · rw [if_pos hwhole, if_pos hwhole]
    rfl
  rw [if_neg hwhole, if_neg hwhole]
  by_cases hfilled : (Operation.ofAtom atom).isFilled = true
  · rw [if_pos hfilled, if_pos hfilled]
    rfl
  rw [if_neg hfilled, if_neg hfilled]
  show (if maxNesting ≤ a.stack.length then _ else _ : EStateM SequenceFault Assembly Unit) a = _
  by_cases hdeep : maxNesting ≤ a.stack.length
  · rw [if_pos hdeep, if_pos hdeep]
    rfl
  · rw [if_neg hdeep, if_neg hdeep]
    rfl

theorem stack_of_offer_error {atom : Atom} {a a' : Assembly} {fault : SequenceFault}
    (h : offer atom a = .error fault a') : a' = a := by
  rw [offer_eq] at h
  cases hpush : a.push atom with
  | ok next =>
      rw [hpush] at h
      exact nomatch h
  | error fault' =>
      rw [hpush] at h
      exact (EStateM.Result.error.inj h).2.symm

theorem offerAll_cons_ok {a next : Assembly} {atom : Atom} (h : a.push atom = .ok next)
    (atoms : List Atom) :
    a.offerAll (atom :: atoms) = (none :: (next.offerAll atoms).1, (next.offerAll atoms).2) := by
  rw [offerAll, offer_eq, h]

theorem offerAll_cons_error {a : Assembly} {atom : Atom} {fault : SequenceFault}
    (h : a.push atom = .error fault) (atoms : List Atom) :
    a.offerAll (atom :: atoms) =
      (some fault :: (a.offerAll atoms).1, (a.offerAll atoms).2) := by
  rw [offerAll, offer_eq, h]

/-- One history after another. -/
theorem offerAll_append (atoms more : List Atom) :
    ∀ a : Assembly, a.offerAll (atoms ++ more) =
      ((a.offerAll atoms).1 ++ ((a.offerAll atoms).2.offerAll more).1,
        ((a.offerAll atoms).2.offerAll more).2) := by
  induction atoms with
  | nil => intro a; rfl
  | cons atom atoms ih =>
      intro a
      rw [List.cons_append]
      cases hpush : a.push atom with
      | ok next => rw [offerAll_cons_ok hpush, offerAll_cons_ok hpush, ih]; rfl
      | error fault => rw [offerAll_cons_error hpush, offerAll_cons_error hpush, ih]; rfl

/-! ## §4. The atoms that were taken. -/

/-- The atoms that were not refused. -/
def accepted (refusals : List (Option SequenceFault)) (atoms : List Atom) : List Atom :=
  ((atoms.zip refusals).filter (·.2.isNone)).map (·.1)

theorem accepted_cons_none (refusals : List (Option SequenceFault)) (atom : Atom)
    (atoms : List Atom) :
    accepted (none :: refusals) (atom :: atoms) = atom :: accepted refusals atoms := rfl

theorem accepted_cons_some (fault : SequenceFault) (refusals : List (Option SequenceFault))
    (atom : Atom) (atoms : List Atom) :
    accepted (some fault :: refusals) (atom :: atoms) = accepted refusals atoms := rfl

/-- **The refused atoms make no difference**: the others alone are all taken,
and lead to the same stack. -/
theorem offerAll_accepted (atoms : List Atom) :
    ∀ a : Assembly, a.offerAll (accepted (a.offerAll atoms).1 atoms) =
      (List.replicate (accepted (a.offerAll atoms).1 atoms).length none,
        (a.offerAll atoms).2) := by
  induction atoms with
  | nil => intro a; rfl
  | cons atom atoms ih =>
      intro a
      cases hpush : a.push atom with
      | ok next =>
          rw [offerAll_cons_ok hpush, accepted_cons_none, offerAll_cons_ok hpush, ih]
          rfl
      | error fault =>
          rw [offerAll_cons_error hpush, accepted_cons_some]
          exact ih a

/-- The atoms that were taken are a run without a refusal. -/
theorem foldlM_accepted (atoms : List Atom) :
    ∀ a : Assembly,
      (accepted (a.offerAll atoms).1 atoms).foldlM push a = .ok (a.offerAll atoms).2 := by
  induction atoms with
  | nil => intro a; rfl
  | cons atom atoms ih =>
      intro a
      cases hpush : a.push atom with
      | ok next =>
          rw [offerAll_cons_ok hpush, accepted_cons_none, List.foldlM_cons, hpush]
          exact ih next
      | error fault =>
          rw [offerAll_cons_error hpush, accepted_cons_some]
          exact ih a

/-- **What is on the stack after any history** is what the atoms that were
taken have made of it. -/
theorem reads_offerAll (atoms : List Atom) {before : List Atom} {a : Assembly}
    (h : Reads before a) :
    Reads (before ++ accepted (a.offerAll atoms).1 atoms) (a.offerAll atoms).2 := by
  have hrun := foldlM_accepted atoms a
  rcases reads_foldlM (accepted (a.offerAll atoms).1 atoms) h with
    ⟨last, hlast, hreads⟩ | ⟨atom, -, herror⟩ | ⟨-, herror⟩
  · obtain rfl := Except.ok.inj (hrun.symm.trans hlast)
    exact hreads
  · exact nomatch hrun.symm.trans herror
  · exact nomatch hrun.symm.trans herror

/-! ## §5. Any history of a new assembly. -/

/-- **WHATEVER ATOMS AN ASSEMBLY IS OFFERED**, refused ones among them: each is
taken or refused as the assembly of a whole sequence does it; the stack is well
formed; a refusal leaves the stack as it was, so that nothing that comes later
tells the history from that of the atoms that were taken; and what it builds
has a value under any known values, or lacks that of a name. -/
theorem offerAll_start (atoms : List Atom) :
    (∀ (a : Assembly) (atom : Atom), offer atom a =
      match a.push atom with
      | .ok next => .ok () next
      | .error fault => .error fault a) ∧
    (start.offerAll atoms).2.WellFormed ∧
    (∀ (a a' : Assembly) (atom : Atom) (fault : SequenceFault),
      offer atom a = .error fault a' → a' = a) ∧
    (∀ more, ∃ later last,
      start.offerAll (atoms ++ more) = ((start.offerAll atoms).1 ++ later, last) ∧
      start.offerAll (accepted (start.offerAll atoms).1 atoms ++ more) =
        (List.replicate (accepted (start.offerAll atoms).1 atoms).length none ++ later, last)) ∧
    Operation.ofAtoms (accepted (start.offerAll atoms).1 atoms) =
      (start.offerAll atoms).2.build ∧
    (∀ t, (start.offerAll atoms).2.build = .ok t →
      t.Complete ∧ ∀ known : KnownValues, (∃ value, t.evaluate known = .ok value) ∨
        ∃ name, t.evaluate known = .error (.unboundVariable name)) := by
  have hreads := reads_offerAll atoms reads_start
  refine ⟨fun a atom => offer_eq atom a, hreads.wellFormed,
    fun a a' atom fault => stack_of_offer_error, ?_, ?_, ?_⟩
  · intro more
    refine ⟨_, _, offerAll_append atoms more start, ?_⟩
    rw [offerAll_append, offerAll_accepted]
  · rw [Operation.ofAtoms, foldlM_accepted]
    rfl
  · intro t ht
    have hverdict := Atom.verdict_build hreads
    rw [ht] at hverdict
    cases hverdict with
    | whole h => exact ⟨h.1, fun known => h.1.evaluate_cases known⟩

end Assembly

end FormulaDesk
