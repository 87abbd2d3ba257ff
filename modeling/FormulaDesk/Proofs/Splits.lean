/-
  FormulaDesk.Proofs.Splits
  ──────────────────────────────────────
  **THE SEARCH FOR A SPLIT.**

  A list of tokens is split at one of its joints, the operators right behind a
  term.  One pass from the left finds it: the pass keeps the best joint so far,
  gives it up for a looser one wherever that comes, and of two joints of one
  tier keeps the later one, but for powers the earlier one.  After every token
  the kept joint is the best of all that have been passed, and so it is at the
  end.

    • `Cut.better_assoc` — which of three joints is kept does not depend on
      which two are compared first;
    • `March.Knows.pass` — one token more keeps what the pass knows;
    • `March.best_eq_split?` — the pass ends at the split;
    • `Formula.split?_finds` — which joint the split is at, and why no operand
      is missing on its left.
-/
import FormulaDesk.Proofs.Separated

namespace FormulaDesk

open FormulaDesk.Token (endsInTerm)

/-! ## §1. Joints and their places. -/

namespace Token

/-- At a place of a list an operator stands right behind a term. -/
structure JoinsAt (ts : List Token) (place : Nat) (op : Operator) : Prop where
  operator : ts[place]? = some (.operator op)
  behind_term : ∃ t, 0 < place ∧ ts[place - 1]? = some t ∧ t.isTerm = true

/-- A group with nothing inside stands at some level of a list. -/
def HasEmptyGroup (ts : List Token) : Prop := ∃ level, IsLevel ts level ∧ .group [] ∈ level

theorem not_joinsAt_nil (place : Nat) (op : Operator) : ¬ JoinsAt [] place op := by
  intro h
  simpa using h.operator

/-- A list ends in a term when its last token is one. -/
theorem endsInTerm_iff {ts : List Token} :
    endsInTerm false ts = true ↔ ∃ front t, ts = front ++ [t] ∧ t.isTerm = true := by
  rcases List.eq_nil_or_concat ts with rfl | ⟨front, t, hts⟩
  · simp
  · rw [List.concat_eq_append] at hts
    subst hts
    rw [endsInTerm_append, endsInTerm_cons, endsInTerm_nil]
    constructor
    · intro h
      exact ⟨front, t, rfl, h⟩
    · intro h'
      obtain ⟨front', t', heq, h⟩ := h'
      obtain ⟨-, hlast⟩ := List.append_inj' heq rfl
      obtain rfl := List.head_eq_of_cons_eq hlast
      exact h

/-- **One token more** is a joint behind a term, and the joints before it stay
what they are. -/
theorem joinsAt_concat_iff {ts : List Token} {t : Token} {place : Nat} {op : Operator} :
    JoinsAt (ts ++ [t]) place op ↔
      JoinsAt ts place op ∨ place = ts.length ∧ t = .operator op ∧ endsInTerm false ts = true := by
  constructor
  · intro h
    obtain ⟨u, hpos, hu, hterm⟩ := h.behind_term
    have hop := h.operator
    rcases Nat.lt_trichotomy place ts.length with hlt | rfl | hgt
    · rw [List.getElem?_append_left hlt] at hop
      rw [List.getElem?_append_left (by omega)] at hu
      exact .inl ⟨hop, u, hpos, hu, hterm⟩
    · rw [List.getElem?_concat_length] at hop
      rw [List.getElem?_append_left (by omega)] at hu
      refine .inr ⟨rfl, Option.some.inj hop, endsInTerm_iff.2 ?_⟩
      obtain ⟨front, hfront⟩ := List.getLast?_eq_some_iff.1 (List.getLast?_eq_getElem? ▸ hu)
      exact ⟨front, u, hfront, hterm⟩
    · rw [List.getElem?_eq_none (by rw [List.length_append, List.length_singleton]; omega)] at hop
      exact nomatch hop
  · intro h'
    rcases h' with h | ⟨rfl, rfl, hterm⟩
    · obtain ⟨u, hpos, hu, hterm⟩ := h.behind_term
      have hlt : place < ts.length := (List.getElem?_eq_some_iff.1 h.operator).1
      refine ⟨?_, u, hpos, ?_, hterm⟩
      · rw [List.getElem?_append_left hlt]
        exact h.operator
      · rw [List.getElem?_append_left (by omega)]
        exact hu
    · obtain ⟨front, u, rfl, hu⟩ := endsInTerm_iff.1 hterm
      exact ⟨List.getElem?_concat_length, u, by simp, by simp, hu⟩

end Token

open FormulaDesk.Token (JoinsAt HasEmptyGroup)

/-! ## §2. Which of two joints is kept. -/

/-- A joint with its place. -/
structure Cut where
  place : Nat
  op : Operator
deriving DecidableEq

namespace Cut

/-- Of the joint kept so far and a later one, the one that is kept. -/
def better (kept : Option Cut) (later : Cut) : Cut :=
  match kept with
  | none => later
  | some c => if Formula.Split.prefers c.op later.op then later else c

/-- A joint goes before another: it is looser, or it stands on the right side
of it in one tier, which is the left side for powers. -/
def Outranks (c d : Cut) : Prop :=
  c.op.tier.rank < d.op.tier.rank ∨
    c.op.tier = d.op.tier ∧ if c.op.tier = .power then c.place ≤ d.place else d.place ≤ c.place

/-- The best joint of a list. -/
structure Best (ts : List Token) (c : Cut) : Prop where
  joins : JoinsAt ts c.place c.op
  outranks : ∀ d : Cut, JoinsAt ts d.place d.op → c.Outranks d

theorem outranks_refl (c : Cut) : c.Outranks c := by
  right
  simp

theorem Outranks.trans {c d e : Cut} (hcd : c.Outranks d) (hde : d.Outranks e) :
    c.Outranks e := by
  rcases hcd with hcd | ⟨hcd, hplace⟩
  · rcases hde with hde | ⟨hde, -⟩
    · exact .inl (Nat.lt_trans hcd hde)
    · exact .inl (hde ▸ hcd)
  · rcases hde with hde | ⟨hde, hplace'⟩
    · exact .inl (hcd ▸ hde)
    · refine .inr ⟨hcd.trans hde, ?_⟩
      rw [← hcd] at hplace'
      split
      next hp =>
        rw [if_pos hp] at hplace hplace'
        exact Nat.le_trans hplace hplace'
      next hp =>
        rw [if_neg hp] at hplace hplace'
        exact Nat.le_trans hplace' hplace

/-- **The one that is kept goes before the other.** -/
theorem outranks_of_prefers (c later : Cut) (hplace : c.place ≤ later.place) :
    if Formula.Split.prefers c.op later.op = true then later.Outranks c else c.Outranks later := by
  have cases_rank : ∀ first second : Operator,
      if Formula.Split.prefers first second = true then
        second.tier.rank < first.tier.rank ∨ second.tier = first.tier ∧ second.tier ≠ .power
      else
        first.tier.rank < second.tier.rank ∨ first.tier = second.tier ∧ first.tier = .power := by
    intro first second
    cases first <;> cases second <;> decide
  have hrank := cases_rank c.op later.op
  split
  next hprefers =>
    rw [if_pos hprefers] at hrank
    rcases hrank with hrank | ⟨htier, hpower⟩
    · exact .inl hrank
    · exact .inr ⟨htier, by rw [if_neg hpower]; exact hplace⟩
  next hprefers =>
    rw [if_neg hprefers] at hrank
    rcases hrank with hrank | ⟨htier, hpower⟩
    · exact .inl hrank
    · exact .inr ⟨htier, by rw [if_pos hpower]; exact hplace⟩

theorem better_of_prefers {c later : Cut} (h : Formula.Split.prefers c.op later.op = true) :
    better (some c) later = later :=
  if_pos h

theorem better_of_not_prefers {c later : Cut}
    (h : Formula.Split.prefers c.op later.op = false) : better (some c) later = c :=
  if_neg (Bool.eq_false_iff.1 h)

/-- **Which of three joints is kept does not depend on which two are compared
first.** -/
theorem better_assoc (kept : Option Cut) (c later : Cut) :
    better kept (better (some c) later) = better (some (better kept c)) later := by
  cases kept with
  | none => rfl
  | some k =>
      cases hk : Formula.Split.prefers k.op c.op with
      | true =>
          rw [better_of_prefers hk]
          cases hc : Formula.Split.prefers c.op later.op with
          | true =>
              have hrank := Formula.Split.prefers_iff.1 hk
              have hrank' := Formula.Split.prefers_iff.1 hc
              have hlater : Formula.Split.prefers k.op later.op = true :=
                Formula.Split.prefers_iff.2 (by omega)
              rw [better_of_prefers hc, better_of_prefers hlater]
          | false => rw [better_of_not_prefers hc, better_of_prefers hk]
      | false =>
          rw [better_of_not_prefers hk]
          cases hc : Formula.Split.prefers c.op later.op with
          | true => rw [better_of_prefers hc]
          | false =>
              have hlater : Formula.Split.prefers k.op later.op = false :=
                Formula.Split.prefers_eq_false_of_right hk hc
              rw [better_of_not_prefers hc, better_of_not_prefers hk,
                better_of_not_prefers hlater]

/-- What is kept of the joints so far and the best one of the rest. -/
def merge (kept : Option Cut) : Option Cut → Option Cut
  | none => kept
  | some later => some (better kept later)

@[simp] theorem merge_none_left (later : Option Cut) : merge none later = later := by
  cases later <;> rfl

end Cut

/-! ## §3. The pass. -/

/-- A pass over a list of tokens: how many have been passed, whether the last
of them is a term, and the joint that is kept. -/
structure March where
  place : Nat
  afterTerm : Bool
  best : Option Cut

namespace March

/-- Before the first token. -/
def start : March := ⟨0, false, none⟩

/-- One token is passed. -/
def pass (m : March) (t : Token) : March where
  place := m.place + 1
  afterTerm := t.isTerm
  best :=
    match m.afterTerm, t with
    | true, .operator op => some (Cut.better m.best ⟨m.place, op⟩)
    | _, _ => m.best

/-- What a pass knows of the tokens it has passed. -/
structure Knows (m : March) (ts : List Token) : Prop where
  place : m.place = ts.length
  afterTerm : m.afterTerm = endsInTerm false ts
  without : m.best = none → ∀ place op, ¬ JoinsAt ts place op
  best : ∀ c, m.best = some c → c.Best ts

theorem knows_start : start.Knows [] where
  place := rfl
  afterTerm := rfl
  without := fun _ => Token.not_joinsAt_nil
  best := nofun

theorem pass_best_of_not_joint {m : March} {t : Token}
    (h : m.afterTerm = false ∨ t.isTerm = true) : (m.pass t).best = m.best := by
  obtain ⟨place, afterTerm, best⟩ := m
  rcases h with rfl | h
  · cases t <;> rfl
  · cases t with
    | operator op => simp at h
    | terminal text => cases afterTerm <;> rfl
    | group body => cases afterTerm <;> rfl
    | call f body => cases afterTerm <;> rfl

/-- The kept joint of a pass stays the best one, with the new joint or it
itself in its place. -/
theorem Knows.better {m : March} {ts : List Token} (known : m.Knows ts) {op : Operator}
    (hterm : endsInTerm false ts = true) :
    (Cut.better m.best ⟨m.place, op⟩).Best (ts ++ [.operator op]) := by
  have hjoins : JoinsAt (ts ++ [.operator op]) m.place op :=
    Token.joinsAt_concat_iff.2 (.inr ⟨known.place, rfl, hterm⟩)
  cases hbest : m.best with
  | none =>
      refine ⟨hjoins, fun d hd => ?_⟩
      rcases Token.joinsAt_concat_iff.1 hd with hd | ⟨hplace, heq, -⟩
      · exact absurd hd (known.without hbest d.place d.op)
      · obtain rfl : (⟨m.place, op⟩ : Cut) = d := by
          rw [known.place, ← hplace, Token.operator.inj heq]
        exact Cut.outranks_refl _
  | some c =>
      have hc : c.Best ts := known.best c hbest
      have hplace : c.place ≤ m.place := by
        have hlt := (List.getElem?_eq_some_iff.1 hc.joins.operator).1
        rw [known.place]
        exact Nat.le_of_lt hlt
      have hranks := Cut.outranks_of_prefers c ⟨m.place, op⟩ hplace
      -- Every joint is an earlier one, which the kept one goes before, or the new one.
      have hall : ∀ e : Cut, e.Outranks c → e.Outranks ⟨m.place, op⟩ →
          ∀ d : Cut, JoinsAt (ts ++ [.operator op]) d.place d.op → e.Outranks d := by
        intro e hec hnew d hd
        rcases Token.joinsAt_concat_iff.1 hd with hd | ⟨hd, heq, -⟩
        · exact hec.trans (hc.outranks d hd)
        · obtain rfl : (⟨m.place, op⟩ : Cut) = d := by
            rw [known.place, ← hd, Token.operator.inj heq]
          exact hnew
      unfold Cut.better
      dsimp only
      split
      next hprefers =>
        rw [if_pos hprefers] at hranks
        exact ⟨hjoins, hall _ hranks (Cut.outranks_refl _)⟩
      next hprefers =>
        rw [if_neg hprefers] at hranks
        exact ⟨Token.joinsAt_concat_iff.2 (.inl hc.joins), hall _ (Cut.outranks_refl _) hranks⟩

/-- **One token more keeps what the pass knows.** -/
theorem Knows.pass {m : March} {ts : List Token} (known : m.Knows ts) (t : Token) :
    (m.pass t).Knows (ts ++ [t]) := by
  have hplace : (m.pass t).place = (ts ++ [t]).length := by
    rw [List.length_append, List.length_singleton, ← known.place]
    rfl
  have hterm : (m.pass t).afterTerm = endsInTerm false (ts ++ [t]) := by
    rw [Token.endsInTerm_append]
    rfl
  rcases Token.joint_or_not m.afterTerm t with h | ⟨hbehind, op, rfl⟩
  · -- No joint is added, and none is kept in place of another.
    have hjoins : ∀ place op, JoinsAt (ts ++ [t]) place op ↔ JoinsAt ts place op := by
      intro place op
      rw [Token.joinsAt_concat_iff, or_iff_left]
      rintro ⟨-, rfl, hends⟩
      rw [known.afterTerm, hends] at h
      simp at h
    refine ⟨hplace, hterm, fun hnone place op => ?_, fun c hc => ?_⟩
    · rw [pass_best_of_not_joint h] at hnone
      rw [hjoins]
      exact known.without hnone place op
    · rw [pass_best_of_not_joint h] at hc
      have hbest := known.best c hc
      exact ⟨(hjoins _ _).2 hbest.joins, fun d hd => hbest.outranks d ((hjoins _ _).1 hd)⟩
  · have hpass : (m.pass (.operator op)).best = some (Cut.better m.best ⟨m.place, op⟩) := by
      simp only [March.pass, hbehind]
    refine ⟨hplace, hterm, fun hnone => ?_, fun c hc => ?_⟩
    · rw [hpass] at hnone
      exact nomatch hnone
    · rw [hpass] at hc
      obtain rfl := Option.some.inj hc
      exact known.better (known.afterTerm ▸ hbehind)

/-- **So a pass knows all that it has passed.** -/
theorem knows_foldl (ts : List Token) :
    ∀ {m : March} {front : List Token}, m.Knows front →
      (ts.foldl March.pass m).Knows (front ++ ts) := by
  induction ts with
  | nil =>
      intro m front known
      rw [List.append_nil]
      exact known
  | cons t ts ih =>
      intro m front known
      have hrest := ih (known.pass t)
      rwa [List.append_assoc] at hrest

end March

/-! ## §4. The pass ends at the split. -/

/-- The joint of a split, in a list that begins at a place. -/
def Formula.Split.cut (place : Nat) (s : Formula.Split) : Cut := ⟨place + s.left.length, s.op⟩

theorem Formula.Split.cut_cons (place : Nat) (t : Token) (s : Formula.Split) :
    (s.cons t).cut place = s.cut (place + 1) := by
  simp only [cut, cons, List.length_cons, Cut.mk.injEq, and_true]
  omega

/-- At a joint the split is the better one of the head and the split behind
it. -/
theorem Formula.map_split?_of_joint (place : Nat) (op : Operator) (ts : List Token) :
    (Formula.split? true (.operator op :: ts)).map (Formula.Split.cut place) =
      Cut.merge (some ⟨place, op⟩)
        ((Formula.split? false ts).map (Formula.Split.cut (place + 1))) := by
  rw [split?_cons_of_joint]
  cases split? false ts with
  | none => rfl
  | some r =>
      simp only [Option.map_some]
      show (if Split.prefers op r.op = true then _ else _ : Option Split).map _ = _
      cases hop : Split.prefers op r.op with
      | true =>
          rw [if_pos rfl, Option.map_some, Split.cut_cons]
          exact congrArg some (Cut.better_of_prefers hop).symm
      | false =>
          rw [if_neg (by decide)]
          exact congrArg some (Cut.better_of_not_prefers hop).symm

namespace March

/-- **From any place on** the pass keeps what it has or the joint of the split
of the rest. -/
theorem best_foldl (ts : List Token) :
    ∀ m : March, (ts.foldl pass m).best =
      Cut.merge m.best ((Formula.split? m.afterTerm ts).map (Formula.Split.cut m.place)) := by
  induction ts with
  | nil => intro m; rfl
  | cons t ts ih =>
      intro m
      rw [List.foldl_cons, ih]
      rcases Token.joint_or_not m.afterTerm t with h | ⟨hbehind, op, rfl⟩
      · rw [pass_best_of_not_joint h, Formula.split?_cons_of_not_joint ts h, Option.map_map]
        congr 2
        funext s
        exact (s.cut_cons m.place t).symm
      · have hpass : (m.pass (.operator op)).best = some (Cut.better m.best ⟨m.place, op⟩) := by
          simp only [pass, hbehind]
        rw [hpass, hbehind, Formula.map_split?_of_joint]
        show Cut.merge _ ((Formula.split? false ts).map (Formula.Split.cut (m.place + 1))) = _
        cases Formula.split? false ts with
        | none => rfl
        | some r => exact congrArg some (Cut.better_assoc m.best ⟨m.place, op⟩ _).symm

/-- **The pass ends at the split.** -/
theorem best_eq_split? (ts : List Token) :
    (ts.foldl pass start).best = (Formula.split? false ts).map (Formula.Split.cut 0) := by
  rw [best_foldl, start, Cut.merge_none_left]

end March

/-! ## §5. What is empty. -/

namespace Token

/-- An empty group in a window is one in the list. -/
theorem HasEmptyGroup.of_window {ts us : List Token} (hus : us <:+: ts) (h : HasEmptyGroup us) :
    HasEmptyGroup ts := by
  obtain ⟨level, hlevel, hmem⟩ := h
  rcases hlevel.of_window hus with rfl | hlevel
  · exact ⟨ts, .top, hus.subset hmem⟩
  · exact ⟨level, hlevel, hmem⟩

/-- So is one within a level. -/
theorem HasEmptyGroup.of_isLevel {ts us : List Token} (hus : IsLevel ts us)
    (h : HasEmptyGroup us) : HasEmptyGroup ts := by
  obtain ⟨level, hlevel, hmem⟩ := h
  exact ⟨level, hus.trans hlevel, hmem⟩

end Token

namespace Formula

/-- **What stands on the left of a split ends in a term.** -/
theorem Split.left_eq {ts : List Token} {s : Split} (h : split? false ts = some s) :
    ∃ front t, s.left = front ++ [t] ∧ t.isTerm = true :=
  Token.endsInTerm_iff.1 (split?_best ts h).after_term

theorem eq_nil_of_shape_empty {ts : List Token} (h : shape ts = .empty) : ts = [] := by
  unfold shape at h
  split at h
  next => exact nomatch h
  next => split at h <;> exact nomatch h
  next => exact nomatch h
  next => exact nomatch h
  next => exact nomatch h
  next => rfl

/-- **Nothing is empty but the list or a group**, in whatever windows the list
is cut: an operand on the left of a split ends in a term, and the others are
looked at before they are read. -/
theorem ofTokensWithin_eq_empty (room : Nat) :
    ∀ ts : List Token, ofTokensWithin room ts = .error .empty → ts = [] ∨ HasEmptyGroup ts := by
  induction room with
  | zero => intro ts h; cases h
  | succ room ih =>
      intro ts h
      rw [ofTokensWithin] at h
      split at h
      next s hshape =>
        obtain ⟨hsplit, -⟩ := shape_eq_binary_iff.1 hshape
        have hts := split?_eq_append hsplit
        have hleft : s.left <:+: ts := ⟨[], .operator s.op :: s.right, hts.symm⟩
        have hright : s.right <:+: ts := ⟨s.left ++ [.operator s.op], [], by simp [hts]⟩
        split at h
        next => cases h
        next hne =>
          right
          rcases bind_eq_error_iff.1 h with h | ⟨left, -, h⟩
          · rcases ih s.left h with hnil | hempty
            · obtain ⟨front, t, heq, -⟩ := Split.left_eq hsplit
              simp [hnil] at heq
            · exact hempty.of_window hleft
          · rcases bind_eq_error_iff.1 h with h | ⟨right, -, h⟩
            · rcases ih s.right h with hnil | hempty
              · exact absurd (List.isEmpty_iff.2 hnil) hne
              · exact hempty.of_window hright
            · cases h
      next op operand hshape =>
        obtain ⟨rfl, -, -⟩ := shape_eq_signed_iff.1 hshape
        split at h
        next => cases h
        next hne =>
          right
          rcases bind_eq_error_iff.1 h with h | ⟨e, -, h⟩
          · rcases ih operand h with hnil | hempty
            · exact absurd (List.isEmpty_iff.2 hnil) hne
            · exact hempty.of_window (List.infix_cons (List.infix_refl operand))
          · cases h
      next text hshape => split at h <;> cases h
      next body hshape =>
        obtain rfl := eq_of_shape_single hshape
        right
        rcases ih body h with rfl | hempty
        · exact ⟨[.group []], .top, List.mem_singleton_self _⟩
        · exact hempty.of_isLevel (.group .top (List.mem_singleton_self _))
      next f body hshape =>
        obtain rfl := eq_of_shape_single hshape
        split at h
        next => cases h
        next hne =>
          right
          rcases bind_eq_error_iff.1 h with h | ⟨e, -, h⟩
          · rcases ih body h with hnil | hempty
            · exact absurd (List.isEmpty_iff.2 hnil) hne
            · exact hempty.of_isLevel (.call .top (List.mem_singleton_self _))
          · cases h
      next op hshape => cases h
      next op hshape => cases h
      next t hne hshape => cases h
      next hshape => exact .inl (eq_nil_of_shape_empty hshape)

/-! ## §6. The search. -/

/-- **THE SEARCH FINDS THE JOINT TO SPLIT AT.**  A list of tokens has no split
exactly when no operator in it stands right behind a term.  Otherwise it has
one, and one pass from the left finds its place: it is at such an operator, of
the loosest tier among them, and the last of that tier, for powers the first.
What stands on its left ends in a term.  So a formula is refused as empty only
if there are no tokens, or nothing stands in a group of them, however deep. -/
theorem split?_finds (ts : List Token) :
    (split? false ts = none ↔ ∀ place op, ¬ JoinsAt ts place op) ∧
    (∀ s, split? false ts = some s →
      ts = s.left ++ .operator s.op :: s.right ∧
      JoinsAt ts s.left.length s.op ∧
      (∀ place op, JoinsAt ts place op → s.op.tier.rank ≤ op.tier.rank) ∧
      (∀ place op, JoinsAt ts place op → op.tier = s.op.tier →
        if s.op.tier = .power then s.left.length ≤ place else place ≤ s.left.length) ∧
      ∃ front t, s.left = front ++ [t] ∧ t.isTerm = true) ∧
    (ts.foldl March.pass March.start).best =
      (split? false ts).map (fun s => ⟨s.left.length, s.op⟩) ∧
    (ofTokens ts = .error .empty →
      ts = [] ∨ ∃ level, Token.IsLevel ts level ∧ .group [] ∈ level) := by
  have known : (ts.foldl March.pass March.start).Knows ts := March.knows_foldl ts March.knows_start
  have hpass : (ts.foldl March.pass March.start).best =
      (split? false ts).map (fun s => ⟨s.left.length, s.op⟩) := by
    rw [March.best_eq_split?]
    congr 1
    funext s
    rw [Split.cut, Nat.zero_add]
  refine ⟨⟨fun hnone => ?none, fun hnot => ?some⟩, fun s hs => ?_, hpass,
    ofTokensWithin_eq_empty _ ts⟩
  case none =>
    refine known.without ?_
    rw [hpass, hnone]
    rfl
  case some =>
    cases hs : split? false ts with
    | none => rfl
    | some s =>
        rw [hs] at hpass
        exact absurd (known.best _ hpass).joins (hnot _ _)
  · rw [hs] at hpass
    have best := known.best _ hpass
    refine ⟨split?_eq_append hs, best.joins, ?_, ?_, Split.left_eq hs⟩
    · intro place op h
      rcases best.outranks ⟨place, op⟩ h with hlt | ⟨heq, -⟩
      · exact Nat.le_of_lt hlt
      · exact Nat.le_of_eq (congrArg Tier.rank heq)
    · intro place op h htier
      rcases best.outranks ⟨place, op⟩ h with hlt | ⟨-, hplace⟩
      · rw [htier] at hlt
        exact absurd hlt (Nat.lt_irrefl _)
      · exact hplace

/-- In `x^y^()` the first power is the split, and the group is empty. -/
theorem split?_finds_powers :
    split? false [.terminal "x", .operator .pow, .terminal "y", .operator .pow, .group []] =
      some ⟨[.terminal "x"], .pow, [.terminal "y", .operator .pow, .group []]⟩ ∧
    (∀ place op, JoinsAt [.terminal "x", .operator .pow, .terminal "y", .operator .pow, .group []]
      place op → op.tier = .power → 1 ≤ place) ∧
    ofTokens [.terminal "x", .operator .pow, .terminal "y", .operator .pow, .group []] =
      .error .empty ∧
    ∃ level, Token.IsLevel
      [.terminal "x", .operator .pow, .terminal "y", .operator .pow, .group []] level ∧
        .group [] ∈ level := by
  have hsplit : split? false
      [.terminal "x", .operator .pow, .terminal "y", .operator .pow, .group []] =
        some ⟨[.terminal "x"], .pow, [.terminal "y", .operator .pow, .group []]⟩ := rfl
  have hempty : ofTokens
      [.terminal "x", .operator .pow, .terminal "y", .operator .pow, .group []] =
        .error .empty := by
    cbv
  obtain ⟨-, hfinds, -, hlevel⟩ := split?_finds
    [.terminal "x", .operator .pow, .terminal "y", .operator .pow, .group []]
  obtain ⟨-, -, -, hfirst, -⟩ := hfinds _ hsplit
  exact ⟨hsplit, hfirst, hempty, (hlevel hempty).resolve_left (by simp)⟩

end Formula

end FormulaDesk
