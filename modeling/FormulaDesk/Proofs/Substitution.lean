/-
  FormulaDesk.Proofs.Substitution
  ──────────────────────────────────────
  **VALUES IN PLACE OF NAMES.**

  Two assemblies that read atoms of the same kinds, where each leaf has the
  same value, stay alike atom by atom: the same shells are open, the same
  slots filled, and the same atoms refused.  So a name may be replaced by its
  value anywhere in a sequence, well-formed or not, and a name that has been
  replaced everywhere needs no value any more.  Only the text of an atom that
  is refused shows what it was replaced by.

    • `Assembly.push_agrees`, `Assembly.foldlM_agrees` — one atom, and a run;
    • `Operation.Agrees.evaluate` — operations that are alike have one value;
    • `evaluateAtoms_agrees` — sequences of atoms that are alike;
    • `evaluateAtoms_substituteAt` — names that are replaced by their values.
-/
import Mathlib.Data.Finset.Basic
import FormulaDesk.Proofs.History

namespace FormulaDesk

variable {known known' : KnownValues}

namespace Operation

/-! ## §1. Operations that are alike. -/

/-- A number or a name. -/
def IsLeaf : Operation → Prop
  | .number _ => True
  | .named _ => True
  | _ => False

theorem IsLeaf.cases {o : Operation} (h : o.IsLeaf) :
    (∃ value, o = .number value) ∨ ∃ name, o = .named name := by
  match o, h with
  | .number value, _ => exact .inl ⟨value, rfl⟩
  | .named name, _ => exact .inr ⟨name, rfl⟩

theorem IsLeaf.isFilled {o : Operation} (h : o.IsLeaf) : o.isFilled = true := by
  rcases h.cases with ⟨value, rfl⟩ | ⟨name, rfl⟩ <;> rfl

/-- A leaf has no slot. -/
theorem IsLeaf.fill {o : Operation} (h : o.IsLeaf) (operand : Operation) :
    o.fill operand = o := by
  rcases h.cases with ⟨value, rfl⟩ | ⟨name, rfl⟩ <;> rfl

/-- Operations of one form, where each leaf has the same value, or lacks the
same one: on either side under its own known values. -/
inductive Agrees (known known' : KnownValues) : Operation → Operation → Prop where
  | empty : Agrees known known' .empty .empty
  | leaf {o o' : Operation} (hleaf : o.IsLeaf) (hleaf' : o'.IsLeaf)
      (h : o.evaluate known = o'.evaluate known') : Agrees known known' o o'
  | operator (op : Operator) : Agrees known known' (.binary op none none) (.binary op none none)
  | first (op : Operator) {a a' : Operation} (h : Agrees known known' a a') :
      Agrees known known' (.binary op (some a) none) (.binary op (some a') none)
  | both (op : Operator) {a a' b b' : Operation} (ha : Agrees known known' a a')
      (hb : Agrees known known' b b') :
      Agrees known known' (.binary op (some a) (some b)) (.binary op (some a') (some b'))
  | func (f : Func) : Agrees known known' (.call f none) (.call f none)
  | call (f : Func) {a a' : Operation} (h : Agrees known known' a a') :
      Agrees known known' (.call f (some a)) (.call f (some a'))

namespace Agrees

variable {o o' operand operand' : Operation}

/-- **Operations that are alike have the same value**, or the same fault. -/
theorem evaluate (h : Agrees known known' o o') : o.evaluate known = o'.evaluate known' := by
  induction h with
  | empty => rfl
  | leaf _ _ h => exact h
  | operator op => rfl
  | first op _ _ => rfl
  | both op _ _ iha ihb => rw [Operation.evaluate, Operation.evaluate, iha, ihb]
  | func f => rfl
  | call f _ ih => rw [Operation.evaluate, Operation.evaluate, ih]

theorem isFilled (h : Agrees known known' o o') : o.isFilled = o'.isFilled := by
  cases h with
  | leaf hleaf hleaf' _ => rw [hleaf.isFilled, hleaf'.isFilled]
  | empty => rfl
  | operator op => rfl
  | first op _ => rfl
  | both op _ _ => rfl
  | func f => rfl
  | call f _ => rfl

/-- What waits for an operand shows the same symbol. -/
theorem symbol (h : Agrees known known' o o') (hfilled : o.isFilled = false) :
    o.symbol = o'.symbol := by
  cases h with
  | leaf hleaf _ _ =>
      rw [hleaf.isFilled] at hfilled
      exact nomatch hfilled
  | empty => rfl
  | operator op => rfl
  | first op _ => rfl
  | both op _ _ => rfl
  | func f => rfl
  | call f _ => rfl

theorem eq_empty_iff (h : Agrees known known' o o') : o = .empty ↔ o' = .empty := by
  cases h with
  | leaf hleaf hleaf' _ =>
      rcases hleaf.cases with ⟨value, rfl⟩ | ⟨name, rfl⟩ <;>
        rcases hleaf'.cases with ⟨value', rfl⟩ | ⟨name', rfl⟩ <;> simp
  | empty => simp
  | operator op => simp
  | first op _ => simp
  | both op _ _ => simp
  | func f => simp
  | call f _ => simp

/-- Operands that are alike go into the same slot. -/
theorem fill (h : Agrees known known' o o') (hoperand : Agrees known known' operand operand') :
    Agrees known known' (o.fill operand) (o'.fill operand') := by
  cases h with
  | leaf hleaf hleaf' h =>
      rw [hleaf.fill, hleaf'.fill]
      exact .leaf hleaf hleaf' h
  | empty => exact .empty
  | operator op => exact .first op hoperand
  | first op h => exact .both op h hoperand
  | both op ha hb => exact .both op ha hb
  | func f => exact .call f hoperand
  | call f h => exact .call f h

end Agrees

/-- An atom is alike under known values that give its name the same value. -/
theorem agrees_ofAtom {a : Atom}
    (h : ∀ name, ofAtom a = .named name → known[name]? = known'[name]?) :
    Agrees known known' (ofAtom a) (ofAtom a) := by
  rcases ofAtom_cases a with ⟨value, ha⟩ | ⟨name, ha⟩ | ⟨op, ha⟩ | ⟨f, ha⟩
  · rw [ha]
    exact .leaf trivial trivial rfl
  · have hname := h name ha
    rw [ha]
    refine .leaf trivial trivial ?_
    rw [Operation.evaluate, Operation.evaluate, hname]
  · rw [ha]
    exact .operator op
  · rw [ha]
    exact .func f

end Operation

namespace Assembly

open Operation

/-! ## §2. Assemblies that stay alike. -/

/-- The operations on two stacks are alike. -/
def StacksAgree (known known' : KnownValues) (stack stack' : List Operation) : Prop :=
  List.Forall₂ (Agrees known known') stack stack'

/-- What falls onto anything but nothing fills a slot of it. -/
theorem settle_cons {shell : Operation} (h : shell ≠ .empty) (whole : Operation)
    (below : List Operation) :
    settle whole (shell :: below) =
      if (shell.fill whole).isFilled then settle (shell.fill whole) below
      else shell.fill whole :: below := by
  cases shell with
  | empty => exact absurd rfl h
  | number value => rfl
  | named name => rfl
  | binary op first second => rfl
  | call f argument => rfl

/-- **Operations that are alike fall alike.** -/
theorem settle_agrees {stack stack' : List Operation} (h : StacksAgree known known' stack stack') :
    ∀ {whole whole' : Operation}, Agrees known known' whole whole' →
      StacksAgree known known' (settle whole stack) (settle whole' stack') := by
  induction h with
  | nil => intro whole whole' hwhole; exact .cons hwhole .nil
  | @cons shell shell' below below' hshell hbelow ih =>
      intro whole whole' hwhole
      by_cases hempty : shell = .empty
      · obtain rfl := hshell.eq_empty_iff.1 hempty
        subst hempty
        exact .cons hwhole hbelow
      · have hfill := hshell.fill hwhole
        rw [settle_cons hempty, settle_cons (mt hshell.eq_empty_iff.2 hempty), hfill.isFilled]
        by_cases hfilled : (shell'.fill whole').isFilled = true
        · rw [if_pos hfilled, if_pos hfilled]
          exact ih hfill
        · rw [if_neg hfilled, if_neg hfilled]
          exact .cons hfill hbelow

theorem base_agrees {stack stack' : List Operation} (h : StacksAgree known known' stack stack') :
    StacksAgree known known' (base stack) (base stack') := by
  have hbase : ∀ {o : Operation} {below : List Operation}, o ≠ .empty →
      base (o :: below) = o :: below := by
    intro o below hne
    cases o with
    | empty => exact absurd rfl hne
    | number value => rfl
    | named name => rfl
    | binary op first second => rfl
    | call f argument => rfl
  cases h with
  | nil => exact .nil
  | @cons o o' below below' ho hbelow =>
      by_cases hempty : o = .empty
      · obtain rfl := ho.eq_empty_iff.1 hempty
        subst hempty
        exact hbelow
      · rw [hbase hempty, hbase (mt ho.eq_empty_iff.2 hempty)]
        exact .cons ho hbelow

theorem head_agrees {stack stack' : List Operation} (h : StacksAgree known known' stack stack') :
    stack.head?.map Operation.isFilled = stack'.head?.map Operation.isFilled := by
  cases h with
  | nil => rfl
  | cons ho _ => exact congrArg some ho.isFilled

/-- The four answers to an atom. -/
theorem push_eq (st : Assembly) (a : Atom) :
    st.push a =
      if (st.stack.head?.map Operation.isFilled).getD false then
        .error (.trailingAtom a.text)
      else if (ofAtom a).isFilled then .ok ⟨settle (ofAtom a) st.stack⟩
      else if maxNesting ≤ st.stack.length then .error .nestingTooDeep
      else .ok ⟨ofAtom a :: base st.stack⟩ := rfl

/-- **One atom on either side**: both are taken, and the stacks stay alike, or
both are refused for the same reason. -/
theorem push_agrees {a a' : Atom} (ha : Agrees known known' (ofAtom a) (ofAtom a'))
    {st st' : Assembly} (h : StacksAgree known known' st.stack st'.stack) :
    (∃ next next', st.push a = .ok next ∧ st'.push a' = .ok next' ∧
      StacksAgree known known' next.stack next'.stack) ∨
    (st.push a = .error .nestingTooDeep ∧ st'.push a' = .error .nestingTooDeep) ∨
    (st.push a = .error (.trailingAtom a.text) ∧
      st'.push a' = .error (.trailingAtom a'.text)) := by
  rw [push_eq, push_eq, head_agrees h, ha.isFilled, h.length_eq]
  by_cases htop : (st'.stack.head?.map Operation.isFilled).getD false = true
  · rw [if_pos htop, if_pos htop]
    exact .inr (.inr ⟨rfl, rfl⟩)
  rw [if_neg htop, if_neg htop]
  by_cases hfilled : (ofAtom a').isFilled = true
  · rw [if_pos hfilled, if_pos hfilled]
    exact .inl ⟨_, _, rfl, rfl, settle_agrees h ha⟩
  rw [if_neg hfilled, if_neg hfilled]
  by_cases hdeep : maxNesting ≤ st'.stack.length
  · rw [if_pos hdeep, if_pos hdeep]
    exact .inr (.inl ⟨rfl, rfl⟩)
  · rw [if_neg hdeep, if_neg hdeep]
    exact .inl ⟨_, _, rfl, rfl, .cons ha (base_agrees h)⟩

/-- Only behind a whole sequence an atom is one too many. -/
theorem Reads.whole_of_trailing {read : List Atom} {st : Assembly} (h : Reads read st) {a : Atom}
    {text : String} (hpush : st.push a = .error (.trailingAtom text)) : Atom.Whole read := by
  cases h with
  | whole h => exact ⟨_, h⟩
  | @shells shells hshells _ _ =>
      cases hfilled : (ofAtom a).isFilled with
      | true =>
          rw [push_whole rfl hfilled hshells.waiting] at hpush
          exact nomatch hpush
      | false =>
          rw [push_shell rfl hfilled hshells.waiting] at hpush
          split at hpush
          · exact nomatch hpush
          · exact nomatch hpush

/-- Atoms that are alike, one by one. -/
def AtomsAgree (known known' : KnownValues) (atoms atoms' : List Atom) : Prop :=
  List.Forall₂ (fun a a' => Agrees known known' (ofAtom a) (ofAtom a')) atoms atoms'

/-- **A run on either side**: all atoms are taken, and the stacks stay alike;
or both runs end at the same place, and for the same reason. -/
theorem foldlM_agrees {atoms atoms' : List Atom} (hatoms : AtomsAgree known known' atoms atoms') :
    ∀ {read : List Atom} {st st' : Assembly}, Reads read st →
      StacksAgree known known' st.stack st'.stack →
      (∃ last last', atoms.foldlM push st = .ok last ∧ atoms'.foldlM push st' = .ok last' ∧
        Reads (read ++ atoms) last ∧ StacksAgree known known' last.stack last'.stack) ∨
      (atoms.foldlM push st = .error .nestingTooDeep ∧
        atoms'.foldlM push st' = .error .nestingTooDeep) ∨
      ∃ n a a', atoms[n]? = some a ∧ atoms'[n]? = some a' ∧
        Atom.Whole (read ++ atoms.take n) ∧
        atoms.foldlM push st = .error (.trailingAtom a.text) ∧
        atoms'.foldlM push st' = .error (.trailingAtom a'.text) := by
  induction hatoms with
  | nil =>
      intro read st st' hreads h
      exact .inl ⟨st, st', rfl, rfl, by rwa [List.append_nil], h⟩
  | @cons a a' atoms atoms' ha hatoms ih =>
      intro read st st' hreads h
      rw [List.foldlM_cons, List.foldlM_cons]
      rcases push_agrees ha h with ⟨next, next', hpush, hpush', hnext⟩ | ⟨hpush, hpush'⟩ |
        ⟨hpush, hpush'⟩
      · -- What was read is longer by one atom, and so is every place behind it.
        have hreads' : Reads (read ++ [a]) next := by
          rcases hreads.push a with ⟨st₁, hst₁, hreads₁⟩ | ⟨-, herror⟩ | ⟨-, herror⟩
          · obtain rfl := Except.ok.inj (hst₁.symm.trans hpush)
            exact hreads₁
          · exact nomatch hpush.symm.trans herror
          · exact nomatch hpush.symm.trans herror
        rw [hpush, hpush']
        show (∃ last last', atoms.foldlM push next = _ ∧ atoms'.foldlM push next' = _ ∧ _) ∨
          (atoms.foldlM push next = _ ∧ atoms'.foldlM push next' = _) ∨ _
        rcases ih hreads' hnext with ⟨last, last', hrun, hrun', hlast, hagree⟩ | hdeep |
          ⟨n, b, b', hb, hb', hwhole, hrun, hrun'⟩
        · refine .inl ⟨last, last', hrun, hrun', ?_, hagree⟩
          rwa [List.append_assoc] at hlast
        · exact .inr (.inl hdeep)
        · refine .inr (.inr ⟨n + 1, b, b', hb, hb', ?_, hrun, hrun'⟩)
          rwa [List.append_assoc] at hwhole
      · rw [hpush, hpush']
        exact .inr (.inl ⟨rfl, rfl⟩)
      · refine .inr (.inr ⟨0, a, a', rfl, rfl, ?_, ?_, ?_⟩)
        · rw [List.take_zero, List.append_nil]
          exact hreads.whole_of_trailing hpush
        · rw [hpush]
          rfl
        · rw [hpush']
          rfl

/-- What waits for an operand in the end is the fault. -/
theorem build_unfilled {shell : Operation} (hne : shell ≠ .empty)
    (hfilled : shell.isFilled = false) (below : List Operation) :
    build ⟨shell :: below⟩ = .error (.unfilledOperand shell.symbol) := by
  cases shell with
  | empty => exact absurd rfl hne
  | number value => exact nomatch hfilled
  | named name => exact nomatch hfilled
  | binary op first second => simp [build, hfilled]
  | call f argument => simp [build, hfilled]

/-- **What is built on either side** is alike, or lacks the same. -/
theorem build_agrees {read : List Atom} {last last' : Assembly} (hreads : Reads read last)
    (h : StacksAgree known known' last.stack last'.stack) :
    (∃ o o', last.build = .ok o ∧ last'.build = .ok o' ∧ o.Complete ∧
      Agrees known known' o o') ∨
    ∃ fault, last.build = .error fault ∧ last'.build = .error fault ∧
      ∀ text, fault ≠ .trailingAtom text := by
  obtain ⟨stack'⟩ := last'
  cases hreads with
  | @whole t ht =>
      obtain ⟨t', below', ht', hbelow, rfl⟩ := List.forall₂_cons_left_iff.1 h
      obtain rfl := List.forall₂_nil_left_iff.1 hbelow
      have hfilled := ht.1.isFilled
      refine .inl ⟨t, t', build_whole hfilled, build_whole ?_, ht.1, ht'⟩
      rw [← ht'.isFilled, hfilled]
  | @shells shells hshells _ _ =>
      cases shells with
      | nil =>
          obtain ⟨o', below', ho', hbelow, rfl⟩ := List.forall₂_cons_left_iff.1 h
          obtain rfl := ho'.eq_empty_iff.1 rfl
          exact .inr ⟨.empty, rfl, rfl, by simp⟩
      | cons shell below =>
          obtain ⟨shell', below', hshell, -, rfl⟩ := List.forall₂_cons_left_iff.1 h
          obtain ⟨hwait, -⟩ := shells_cons.1 hshells
          have hfilled := hwait.isFilled
          refine .inr ⟨.unfilledOperand shell.symbol,
            build_unfilled hwait.ne_empty hfilled below, ?_, by simp⟩
          rw [build_unfilled (mt hshell.eq_empty_iff.2 hwait.ne_empty)
            (hshell.isFilled.symm.trans hfilled), hshell.symbol hfilled]

end Assembly

open Assembly (AtomsAgree)

/-! ## §3. Sequences that are alike. -/

/-- **Sequences of atoms that are alike have the same value, or the same
fault**; only an atom behind a whole sequence is shown as it is written. -/
theorem evaluateAtoms_agrees {atoms atoms' : List Atom}
    (h : AtomsAgree known known' atoms atoms') :
    (evaluateAtoms known atoms = evaluateAtoms known' atoms' ∧
      ∀ text, evaluateAtoms known atoms ≠ .error (.trailingAtom text)) ∨
      ∃ n a a', atoms[n]? = some a ∧ atoms'[n]? = some a' ∧ Atom.Whole (atoms.take n) ∧
        evaluateAtoms known atoms = .error (.trailingAtom a.text) ∧
        evaluateAtoms known' atoms' = .error (.trailingAtom a'.text) := by
  have hstart : Assembly.StacksAgree known known' Assembly.start.stack Assembly.start.stack :=
    .cons .empty .nil
  rw [evaluateAtoms, evaluateAtoms, Operation.ofAtoms, Operation.ofAtoms]
  rcases Assembly.foldlM_agrees h Assembly.reads_start hstart with
    ⟨last, last', hrun, hrun', hreads, hlast⟩ | ⟨hrun, hrun'⟩ |
      ⟨n, a, a', ha, ha', hwhole, hrun, hrun'⟩
  · rw [hrun, hrun']
    refine .inl ?_
    show last.build >>= _ = last'.build >>= _ ∧ ∀ text, last.build >>= _ ≠ _
    rcases Assembly.build_agrees hreads hlast with
      ⟨o, o', ho, ho', hcomplete, hagrees⟩ | ⟨fault, ho, ho', hfault⟩
    · rw [ho, ho']
      refine ⟨hagrees.evaluate, fun text htext => ?_⟩
      change o.evaluate known = _ at htext
      rcases hcomplete.evaluate_cases known with ⟨value, hvalue⟩ | ⟨name, hname⟩
      · rw [hvalue] at htext
        cases htext
      · rw [hname] at htext
        cases htext
    · rw [ho, ho']
      exact ⟨rfl, fun text htext => hfault text (Except.error.inj htext)⟩
  · rw [hrun, hrun']
    refine .inl ⟨rfl, fun text htext => ?_⟩
    cases Except.error.inj htext
  · refine .inr ⟨n, a, a', ha, ha', hwhole, ?_, ?_⟩
    · rw [hrun]
      rfl
    · rw [hrun']
      rfl

/-! ## §4. Values in place of names. -/

/-- An atom, or the value of the name that it is. -/
def Atom.substitute (known : KnownValues) (a : Atom) : Atom :=
  match Operation.ofAtom a with
  | .named name =>
    match known[name]? with
    | some value => .number value
    | none => a
  | _ => a

/-- Atoms with values in place of the names at some places. -/
def Atom.substituteAt (known : KnownValues) (places : Finset Nat) (atoms : List Atom) :
    List Atom :=
  atoms.mapIdx fun n a => if n ∈ places then a.substitute known else a

namespace Atom

/-- What becomes of an atom: it stays, or it is a name and becomes its value. -/
theorem substitute_cases (known : KnownValues) (a : Atom) :
    (a.substitute known = a ∧
      ∀ name, Operation.ofAtom a = .named name → known[name]? = none) ∨
    ∃ name value, Operation.ofAtom a = .named name ∧ known[name]? = some value ∧
      a.substitute known = .number value := by
  rw [substitute]
  rcases Operation.ofAtom_cases a with ⟨value, ha⟩ | ⟨name, ha⟩ | ⟨op, ha⟩ | ⟨f, ha⟩ <;> rw [ha]
  · exact .inl ⟨rfl, fun _ h => nomatch h⟩
  · cases hvalue : known[name]? with
    | some value => exact .inr ⟨name, value, rfl, hvalue, by simp [hvalue]⟩
    | none =>
        refine .inl ⟨by simp [hvalue], fun name' h => ?_⟩
        rw [← Operation.named.inj h, hvalue]
  · exact .inl ⟨rfl, fun _ h => nomatch h⟩
  · exact .inl ⟨rfl, fun _ h => nomatch h⟩

/-- **A name and its value are alike.** -/
theorem agrees_substitute (known : KnownValues) (a : Atom) :
    Operation.Agrees known known (Operation.ofAtom a)
      (Operation.ofAtom (a.substitute known)) := by
  rcases substitute_cases known a with ⟨hsame, -⟩ | ⟨name, value, ha, hvalue, hnumber⟩
  · rw [hsame]
    exact Operation.agrees_ofAtom fun _ _ => rfl
  · rw [ha, hnumber]
    refine .leaf trivial trivial ?_
    rw [Operation.evaluate, hvalue]
    rfl

theorem getElem?_substituteAt (known : KnownValues) (places : Finset Nat) (atoms : List Atom)
    (n : Nat) :
    (substituteAt known places atoms)[n]? =
      atoms[n]?.map fun a => if n ∈ places then a.substitute known else a :=
  List.getElem?_mapIdx

theorem atomsAgree_substituteAt (known : KnownValues) (places : Finset Nat)
    (atoms : List Atom) : AtomsAgree known known atoms (substituteAt known places atoms) := by
  refine List.forall₂_iff_get.2 ⟨by simp [substituteAt], fun n hn hn' => ?_⟩
  simp only [substituteAt, List.get_eq_getElem, List.getElem_mapIdx]
  split
  · exact agrees_substitute known _
  · exact Operation.agrees_ofAtom fun _ _ => rfl

/-- **A name that is replaced wherever it stands needs no value.** -/
theorem atomsAgree_erase (known : KnownValues) (places : Finset Nat) (atoms : List Atom)
    (name : String)
    (h : ∀ n a, atoms[n]? = some a → Operation.ofAtom a = .named name → n ∈ places) :
    AtomsAgree (known.erase name) known (substituteAt known places atoms)
      (substituteAt known places atoms) := by
  refine List.forall₂_same.2 fun b hb => Operation.agrees_ofAtom fun other hother => ?_
  rw [Std.ExtTreeMap.getElem?_erase]
  by_cases hname : name = other
  · -- Whatever is still this name has no value to lose.
    subst hname
    obtain ⟨n, hn⟩ := List.getElem?_of_mem hb
    obtain ⟨a, ha, rfl⟩ := Option.map_eq_some_iff.1
      ((getElem?_substituteAt known places atoms n).symm.trans hn)
    by_cases hplace : n ∈ places
    · rw [if_pos hplace] at hother
      rcases substitute_cases known a with ⟨hsame, hnone⟩ | ⟨_, value, -, -, hnumber⟩
      · rw [hsame] at hother
        simp [hnone name hother]
      · rw [hnumber] at hother
        exact nomatch hother
    · rw [if_neg hplace] at hother
      exact absurd (h n a ha hother) hplace
  · simp [hname]

end Atom

/-- **VALUES MAY STAND IN PLACE OF NAMES.**  Wherever names with a value are
replaced by it, a sequence has the same value or the same fault; only where an
atom behind a whole sequence is the fault, it is shown as it stands now.  And a
name that was replaced wherever it stood needs no value any more. -/
theorem evaluateAtoms_substituteAt (known : KnownValues) (places : Finset Nat)
    (atoms : List Atom) :
    ((∀ text, evaluateAtoms known atoms ≠ .error (.trailingAtom text)) →
      evaluateAtoms known (Atom.substituteAt known places atoms) = evaluateAtoms known atoms) ∧
    (∀ text, evaluateAtoms known atoms = .error (.trailingAtom text) →
      ∃ n a, atoms[n]? = some a ∧ Atom.Whole (atoms.take n) ∧ text = a.text ∧
        evaluateAtoms known (Atom.substituteAt known places atoms) =
          .error (.trailingAtom (if n ∈ places then a.substitute known else a).text)) ∧
    (∀ name, (∀ n a, atoms[n]? = some a → Operation.ofAtom a = .named name → n ∈ places) →
      evaluateAtoms (known.erase name) (Atom.substituteAt known places atoms) =
        evaluateAtoms known (Atom.substituteAt known places atoms)) := by
  have hagree := evaluateAtoms_agrees (Atom.atomsAgree_substituteAt known places atoms)
  refine ⟨?same, ?trailing, ?erased⟩
  case same =>
    intro hnone
    rcases hagree with ⟨heq, -⟩ | ⟨_, a, _, -, -, -, herror, -⟩
    · exact heq.symm
    · exact absurd herror (hnone a.text)
  case trailing =>
    intro text htext
    rcases hagree with ⟨-, hnone⟩ | ⟨n, a, a', ha, ha', hwhole, herror, herror'⟩
    · exact absurd htext (hnone text)
    · refine ⟨n, a, ha, hwhole, ?_, ?_⟩
      · simpa using htext.symm.trans herror
      · rw [Atom.getElem?_substituteAt, ha] at ha'
        rw [herror', ← Option.some.inj ha']
  case erased =>
    intro name hname
    rcases evaluateAtoms_agrees (Atom.atomsAgree_erase known places atoms name hname) with
      ⟨heq, -⟩ | ⟨n, a, a', ha, ha', -, herror, herror'⟩
    · exact heq
    · obtain rfl := Option.some.inj (ha.symm.trans ha')
      rw [herror, herror']

/-- With 2 for `x`: a sequence that lacks another name, a sequence with one atom
too many, and a sequence without any `x` left. -/
theorem evaluateAtoms_substituteAt_two :
    ∃ known : KnownValues,
      evaluateAtoms known [.symbol "+", .number 2, .symbol "y"] =
        .error (.unboundVariable "y") ∧
      evaluateAtoms known [.symbol "x", .number 2] = .error (.trailingAtom (Number.plain 2)) ∧
      evaluateAtoms (known.erase "x") [.symbol "+", .number 2, .number 2] =
        evaluateAtoms known [.symbol "+", .number 2, .number 2] := by
  obtain ⟨known, hx, hy⟩ : ∃ known : KnownValues, known["x"]? = some 2 ∧ known["y"]? = none :=
    ⟨(∅ : KnownValues).insert "x" 2, Std.ExtTreeMap.getElem?_insert_self, by simp⟩
  have hsymbol : Operation.ofAtom (.symbol "x") = .named "x" := rfl
  have hvalue : (Atom.symbol "x").substitute known = .number 2 := by
    simp only [Atom.substitute, hsymbol, hx]
  refine ⟨known, ?_, ?_, ?_⟩
  · obtain ⟨hsame, -, -⟩ := evaluateAtoms_substituteAt known {1}
      [.symbol "+", .symbol "x", .symbol "y"]
    have hlacks : evaluateAtoms known
        [.symbol "+", .symbol "x", .symbol "y"] = .error (.unboundVariable "y") := by
      have hbuild : Operation.ofAtoms [.symbol "+", .symbol "x", .symbol "y"] =
          .ok (.binary .add (some (.named "x")) (some (.named "y"))) := rfl
      rw [evaluateAtoms, hbuild]
      show Operation.evaluate known (.binary .add (some (.named "x")) (some (.named "y"))) = _
      rw [Operation.evaluate, Operation.evaluate, Operation.evaluate, hx, hy]
      rfl
    have hatoms : Atom.substituteAt known {1}
        [.symbol "+", .symbol "x", .symbol "y"] = [.symbol "+", .number 2, .symbol "y"] := by
      simp [Atom.substituteAt, hvalue]
    rw [hatoms, hlacks] at hsame
    exact hsame (by simp)
  · obtain ⟨-, htrailing, -⟩ := evaluateAtoms_substituteAt known {1}
      [.symbol "x", .symbol "x"]
    have hatoms : Atom.substituteAt known {1}
        [.symbol "x", .symbol "x"] = [.symbol "x", .number 2] := by
      simp [Atom.substituteAt, hvalue]
    obtain ⟨n, a, ha, hwhole, -, herror⟩ := htrailing "x" rfl
    rw [hatoms] at herror
    -- Nothing at all is not whole, so it is the second atom.
    rcases n with _ | _ | n
    · exact absurd rfl hwhole.ne_nil
    · obtain rfl := Option.some.inj ha
      rw [if_pos (by simp), hvalue] at herror
      exact herror
    · cases ha
  · obtain ⟨-, -, herased⟩ := evaluateAtoms_substituteAt known {1, 2}
      [.symbol "+", .symbol "x", .symbol "x"]
    have hatoms : Atom.substituteAt known {1, 2}
        [.symbol "+", .symbol "x", .symbol "x"] = [.symbol "+", .number 2, .number 2] := by
      simp [Atom.substituteAt, hvalue]
    rw [hatoms] at herased
    refine herased "x" fun n a ha hname => ?_
    rcases n with _ | _ | _ | n
    · obtain rfl := Option.some.inj ha
      cases hname
    · simp
    · simp
    · cases ha

end FormulaDesk
