/-
  FormulaDesk.Proofs.Joints
  ──────────────────────────────────────
  **WHERE A LIST OF TOKENS CAN SPLIT.**

  An operator joins two operands where it stands right behind a term; behind
  another operator, or at the head of the list, it is a sign or a fault.  The
  joints of a list are the operators of the first kind, in reading order.

    • `Formula.split?_eq_none_iff` — there is no split exactly where there is
      no joint;
    • `Formula.split?_best`, `Formula.Split.Best.split?_eq` — the split is at
      the one joint that is preferred to every joint on its left, while none
      on its right is preferred to it.
-/
import FormulaDesk.Formula

namespace FormulaDesk

namespace Token

/-! ## §1. Joints. -/

/-- A list of tokens ends in a term; `afterTerm` tells whether a term stands
before the list. -/
def endsInTerm (afterTerm : Bool) (ts : List Token) : Bool :=
  ts.foldl (fun _ t => t.isTerm) afterTerm

/-- The operators of a list that stand right behind a term. -/
def joints (afterTerm : Bool) : List Token → List Operator
  | [] => []
  | t :: ts => (if afterTerm then t.operator?.toList else []) ++ joints t.isTerm ts

@[simp] theorem endsInTerm_nil (b : Bool) : endsInTerm b [] = b := rfl

@[simp] theorem endsInTerm_cons (b : Bool) (t : Token) (ts : List Token) :
    endsInTerm b (t :: ts) = endsInTerm t.isTerm ts := rfl

theorem endsInTerm_append (b : Bool) (ts us : List Token) :
    endsInTerm b (ts ++ us) = endsInTerm (endsInTerm b ts) us := by
  simp [endsInTerm, List.foldl_append]

@[simp] theorem joints_nil (b : Bool) : joints b [] = [] := rfl

theorem joints_append (ts us : List Token) :
    ∀ b : Bool, joints b (ts ++ us) = joints b ts ++ joints (endsInTerm b ts) us := by
  induction ts with
  | nil => intro b; rfl
  | cons t ts ih =>
      intro b
      simp only [List.cons_append, joints, endsInTerm_cons, ih, List.append_assoc]

/-- Behind an operator nothing can be a joint, so a list has the same joints
there as at the head of a window. -/
theorem joints_operator_cons (b : Bool) (op : Operator) (ts : List Token) :
    joints b (.operator op :: ts) = (if b then [op] else []) ++ joints false ts := by
  simp [joints]

/-- The head of a list is a joint, or it is not one. -/
theorem joint_or_not (b : Bool) (t : Token) :
    (b = false ∨ t.isTerm = true) ∨ b = true ∧ ∃ op, t = .operator op := by
  cases ht : t.isTerm with
  | true => exact .inl (.inr rfl)
  | false =>
      cases b with
      | false => exact .inl (.inl rfl)
      | true => exact .inr ⟨rfl, eq_operator_of_isTerm ht⟩

theorem joints_cons_of_not_joint {b : Bool} {t : Token} (ts : List Token)
    (h : b = false ∨ t.isTerm = true) : joints b (t :: ts) = joints t.isTerm ts := by
  rcases h with rfl | h
  · rfl
  · simp [joints, operator?_eq_none h]

/-- **A joint behind a term parts the joints of its list.** -/
theorem joints_split {b : Bool} {left : List Token} (h : endsInTerm b left = true)
    (op : Operator) (right : List Token) :
    joints b (left ++ .operator op :: right) =
      joints b left ++ op :: joints false right := by
  rw [joints_append, h, joints_operator_cons]
  rfl

end Token

namespace Formula

open FormulaDesk.Token (endsInTerm joints)

/-! ## §2. Which joint is preferred. -/

/-- A joint gives way to a looser one, and to one of its own tier unless that
is the tier of powers. -/
theorem Split.prefers_iff {first second : Operator} :
    Split.prefers first second = true ↔
      second.tier.rank < first.tier.rank ∨
        second.tier.rank = first.tier.rank ∧ first.tier.rank < Tier.power.rank := by
  cases first <;> cases second <;> decide

/-- An operator that does not give way to a joint gives way neither to those
which that joint replaces nor to those which do not replace it. -/
theorem Split.prefers_eq_false_of_left {first chosen other : Operator}
    (h : Split.prefers first chosen = false) (ho : Split.prefers other chosen = true) :
    Split.prefers first other = false := by
  revert h ho
  cases first <;> cases chosen <;> cases other <;> decide

theorem Split.prefers_eq_false_of_right {first chosen other : Operator}
    (h : Split.prefers first chosen = false) (ho : Split.prefers chosen other = false) :
    Split.prefers first other = false := by
  revert h ho
  cases first <;> cases chosen <;> cases other <;> decide

/-! ## §3. The split. -/

/-- A split stands at the joint that is preferred to every joint on its left
and to which none on its right is preferred. -/
structure Split.Best (afterTerm : Bool) (ts : List Token) (s : Split) : Prop where
  eq_append : ts = s.left ++ .operator s.op :: s.right
  after_term : endsInTerm afterTerm s.left = true
  left : ∀ o ∈ joints afterTerm s.left, Split.prefers o s.op = true
  right : ∀ o ∈ joints false s.right, Split.prefers s.op o = false

/-- The joints of a list with a best split. -/
theorem Split.Best.joints_eq {b : Bool} {ts : List Token} {s : Split}
    (h : s.Best b ts) : joints b ts = joints b s.left ++ s.op :: joints false s.right := by
  rw [h.eq_append]
  exact Token.joints_split h.after_term s.op s.right

/-- **A best split is at a joint of the loosest tier present.** -/
theorem Split.Best.rank_le {b : Bool} {ts : List Token} {s : Split} (h : s.Best b ts) :
    ∀ o ∈ joints b ts, s.op.tier.rank ≤ o.tier.rank := by
  intro o ho
  rw [h.joints_eq, List.mem_append, List.mem_cons] at ho
  rcases ho with ho | rfl | ho
  · have hleft := Split.prefers_iff.1 (h.left o ho)
    omega
  · exact Nat.le_refl _
  · have hright := h.right o ho
    rw [Bool.eq_false_iff, ne_eq, Split.prefers_iff] at hright
    omega

theorem split?_cons_of_joint (op : Operator) (ts : List Token) :
    split? true (.operator op :: ts) =
      match (split? false ts).map (Split.cons (.operator op)) with
      | some s => if Split.prefers op s.op then some s else some ⟨[], op, ts⟩
      | none => some ⟨[], op, ts⟩ := rfl

theorem split?_cons_of_not_joint {b : Bool} {t : Token} (ts : List Token)
    (h : b = false ∨ t.isTerm = true) :
    split? b (t :: ts) = (split? t.isTerm ts).map (Split.cons t) := by
  rcases h with rfl | h
  · cases t <;> rfl
  · cases t with
    | operator op => simp at h
    | terminal text => cases b <;> rfl
    | group body => cases b <;> rfl
    | call f body => cases b <;> rfl

/-- **Without a joint there is no split, and only then.** -/
theorem split?_eq_none_iff (ts : List Token) :
    ∀ b : Bool, split? b ts = none ↔ joints b ts = [] := by
  induction ts with
  | nil => intro b; simp [split?]
  | cons t ts ih =>
      intro b
      -- A head that is no joint adds neither a split nor a joint.
      rcases Token.joint_or_not b t with h | ⟨rfl, op, rfl⟩
      · rw [split?_cons_of_not_joint ts h, Token.joints_cons_of_not_joint ts h,
          Option.map_eq_none_iff, ih]
      · have hsome : split? true (.operator op :: ts) ≠ none := by
          rw [split?_cons_of_joint]
          split
          · split <;> simp
          · simp
        simp [hsome, Token.joints_operator_cons]

/-- The best split of a tail, behind a head that is no joint or gives way to
it. -/
theorem Split.Best.cons {b : Bool} {t : Token} {ts : List Token} {s : Split}
    (best : s.Best t.isTerm ts)
    (h : ∀ o ∈ (if b then t.operator?.toList else []), Split.prefers o s.op = true) :
    (s.cons t).Best b (t :: ts) := by
  refine ⟨congrArg (t :: ·) best.eq_append, best.after_term, ?_, best.right⟩
  intro o ho
  rcases List.mem_append.1 ho with ho | ho
  · exact h o ho
  · exact best.left o ho

/-- A joint at the head is best when it does not give way to the best split of
what follows. -/
theorem Split.Best.head {op : Operator} {ts : List Token}
    (hnone : split? false ts = none ∨
      ∃ s : Split, s.Best false ts ∧ Split.prefers op s.op = false) :
    (⟨[], op, ts⟩ : Split).Best true (.operator op :: ts) := by
  refine ⟨rfl, rfl, by simp, ?_⟩
  intro o ho
  -- A joint behind the head is preferred neither when it is left of the best one, since
  -- that one is preferred to it, nor when it is right of it.
  rcases hnone with hnone | ⟨s, best, hop⟩
  · have hj : joints false ts = [] := (split?_eq_none_iff ts false).1 hnone
    simp [hj] at ho
  · rw [best.joints_eq] at ho
    rcases List.mem_append.1 ho with ho | ho
    · exact Split.prefers_eq_false_of_left hop (best.left o ho)
    · rcases List.mem_cons.1 ho with rfl | ho
      · exact hop
      · exact Split.prefers_eq_false_of_right hop (best.right o ho)

/-- **The list splits at its best joint.** -/
theorem split?_best (ts : List Token) :
    ∀ {b : Bool} {s : Split}, split? b ts = some s → s.Best b ts := by
  induction ts with
  | nil => intro b s h; simp [split?] at h
  | cons t ts ih =>
      intro b s h
      rcases Token.joint_or_not b t with hj | ⟨rfl, op, rfl⟩
      · rw [split?_cons_of_not_joint ts hj] at h
        obtain ⟨r, hr, rfl⟩ := Option.map_eq_some_iff.1 h
        refine (ih hr).cons ?_
        intro o ho
        rcases hj with rfl | hj
        · simp at ho
        · simp [Token.operator?_eq_none hj] at ho
      · rw [split?_cons_of_joint] at h
        -- The head is a joint: it is compared with the best one behind it.
        cases hs : split? false ts with
        | none =>
            simp only [hs, Option.map_none, Option.some.injEq] at h
            subst h
            exact .head (.inl hs)
        | some r =>
            have best : r.Best false ts := ih hs
            simp only [hs, Option.map_some, Split.cons] at h
            split at h
            next hop =>
              obtain rfl := Option.some.inj h
              exact Split.Best.cons (t := .operator op) best (by simpa using hop)
            next hop =>
              obtain rfl := Option.some.inj h
              exact .head (.inr ⟨r, best, by simpa using hop⟩)

/-- **A best split is the split.** -/
theorem Split.Best.split?_eq (ts : List Token) :
    ∀ {b : Bool} {s : Split}, s.Best b ts → split? b ts = some s := by
  induction ts with
  | nil => intro b s best; simpa using best.eq_append
  | cons t ts ih =>
      intro b s best
      obtain ⟨left, op, right⟩ := s
      cases left with
      | nil =>
          obtain ⟨rfl, rfl⟩ := List.cons.inj best.eq_append
          obtain rfl : b = true := best.after_term
          rw [split?_cons_of_joint]
          cases hs : split? false ts with
          | none => rfl
          | some r =>
              have hr : r.op ∈ joints false ts := by
                rw [(split?_best ts hs).joints_eq]
                exact List.mem_append_right _ (List.mem_cons_self ..)
              simp [Split.cons, best.right r.op hr]
      | cons t' left =>
          obtain ⟨rfl, hts⟩ := List.cons.inj best.eq_append
          -- The tail has the same best split, and a head that is a joint gives way to it.
          have hs : split? t.isTerm ts = some ⟨left, op, right⟩ := by
            refine ih ⟨hts, best.after_term, ?_, best.right⟩
            intro o ho
            exact best.left o (List.mem_append_right _ ho)
          rcases Token.joint_or_not b t with hj | ⟨rfl, first, rfl⟩
          · rw [split?_cons_of_not_joint ts hj, hs]
            rfl
          · have hop : Split.prefers first op = true :=
              best.left first (List.mem_append_left _ (List.mem_cons_self ..))
            rw [Token.isTerm_operator] at hs
            simp [split?_cons_of_joint, hs, Split.cons, hop]

end Formula

end FormulaDesk
