/-
  FormulaDesk.Proofs.Separated
  ──────────────────────────────────────
  **NO TERMS SIDE BY SIDE.**

  Two terms can stand side by side in a text in many ways: numbers, names,
  groups and calls in any order, at the top or within parentheses.  Once the
  products are written they do so nowhere, at no depth.  And a list of tokens
  in which they do so nowhere can always be split or is a single term, and so
  can every window that the reader of formulas cuts from it; so of all its
  faults a missing operator is the one that no text can show.

    • `Token.separated_explicitAll` — products separate the terms of all
      levels;
    • `Formula.ofTokensWithin_ne_missingOperator` — between separated terms no
      operator is missing;
    • `explicitProducts_complete` — the same for texts.
-/
import FormulaDesk.Proofs.Compiled

namespace FormulaDesk

namespace Token

/-! ## §1. The levels of a list of tokens. -/

/-- The lists of tokens within a list: itself, and what stands between the
parentheses of groups and calls, however deep. -/
inductive IsLevel (ts : List Token) : List Token → Prop where
  | top : IsLevel ts ts
  | group {us body : List Token} (within : IsLevel ts us) (h : .group body ∈ us) :
      IsLevel ts body
  | call {us body : List Token} {f : Func} (within : IsLevel ts us) (h : .call f body ∈ us) :
      IsLevel ts body

/-- No two terms of the list stand side by side. -/
def Apart (ts : List Token) : Prop := ts.IsChain fun t u => t.isTerm = false ∨ u.isTerm = false

/-- No two terms stand side by side, at no level. -/
def Separated (ts : List Token) : Prop := ∀ level, IsLevel ts level → Apart level

theorem Apart.of_append {front back : List Token} {t u : Token}
    (h : Apart (front ++ t :: u :: back)) : t.isTerm = false ∨ u.isTerm = false := by
  have hpair : Apart (t :: u :: back) := List.IsChain.right_of_append h
  exact (List.isChain_cons_cons.1 hpair).1

/-- The levels of a window are the window and levels of the list. -/
theorem IsLevel.of_window {ts us level : List Token} (hus : us <:+: ts) (h : IsLevel us level) :
    level = us ∨ IsLevel ts level := by
  induction h with
  | top => exact .inl rfl
  | group within h ih =>
      rcases ih with rfl | ih
      · exact .inr (.group .top (hus.subset h))
      · exact .inr (.group ih h)
  | call within h ih =>
      rcases ih with rfl | ih
      · exact .inr (.call .top (hus.subset h))
      · exact .inr (.call ih h)

/-- The levels of a level are levels of the list. -/
theorem IsLevel.trans {ts us level : List Token} (hus : IsLevel ts us) (h : IsLevel us level) :
    IsLevel ts level := by
  induction h with
  | top => exact hus
  | group within hmem ih => exact .group ih hmem
  | call within hmem ih => exact .call ih hmem

/-- The terms of every window are separated. -/
theorem Separated.of_window {ts us : List Token} (h : Separated ts) (hus : us <:+: ts) :
    Separated us := by
  intro level hlevel
  rcases hlevel.of_window hus with rfl | hlevel
  · exact List.IsChain.infix (h ts .top) hus
  · exact h level hlevel

/-- So are those of every level. -/
theorem Separated.of_isLevel {ts us : List Token} (h : Separated ts) (hus : IsLevel ts us) :
    Separated us := by
  intro level hlevel
  exact h level (hus.trans hlevel)

/-! ## §2. Products separate terms. -/

theorem isTerm_explicit (t : Token) : (explicit t).isTerm = t.isTerm := by
  cases t <;> simp [explicit, isTerm, operator?]

/-- Behind a term the next token is an operator: its own or a star. -/
theorem isTerm_head_explicitAll {ts : List Token} {u : Token}
    (h : u ∈ (explicitAll true ts).head?) : u.isTerm = false := by
  cases ts with
  | nil => simp [explicitAll] at h
  | cons t ts =>
      rw [explicitAll_cons, Bool.true_and] at h
      cases hterm : t.isTerm with
      | true =>
          rw [hterm] at h
          obtain rfl := Option.some.inj h
          rfl
      | false =>
          rw [hterm] at h
          obtain rfl := Option.some.inj h
          rw [isTerm_explicit, hterm]

theorem apart_explicitAll (ts : List Token) : ∀ b : Bool, Apart (explicitAll b ts) := by
  induction ts with
  | nil => intro b; exact List.isChain_nil
  | cons t ts ih =>
      intro b
      -- Either the token is no term, or an operator comes behind it.
      have hrest : Apart (explicit t :: explicitAll t.isTerm ts) := by
        refine List.isChain_cons.2 ⟨fun u hu => ?_, ih t.isTerm⟩
        cases hterm : t.isTerm with
        | false => exact .inl (by rw [isTerm_explicit, hterm])
        | true =>
            rw [hterm] at hu
            exact .inr (isTerm_head_explicitAll hu)
      rw [explicitAll_cons]
      split
      next => exact List.isChain_cons_cons.2 ⟨.inl rfl, hrest⟩
      next => exact hrest

/-- A token among those with products is a star or one of the tokens. -/
theorem mem_explicitAll {t : Token} {ts : List Token} :
    ∀ {b : Bool}, t ∈ explicitAll b ts → t = .operator .mul ∨ ∃ u ∈ ts, t = explicit u := by
  induction ts with
  | nil => intro b h; simp [explicitAll] at h
  | cons u ts ih =>
      intro b h
      rw [explicitAll_cons, List.mem_append, List.mem_cons] at h
      rcases h with h | rfl | h
      · left
        revert h
        cases b && u.isTerm <;> simp
      · exact .inr ⟨u, List.mem_cons_self .., rfl⟩
      · rcases ih h with heq | ⟨v, hv, rfl⟩
        · exact .inl heq
        · exact .inr ⟨v, List.mem_cons_of_mem u hv, rfl⟩

/-- What stands between the parentheses of a token has its products. -/
theorem exists_of_explicit {u : Token} {body : List Token}
    (h : explicit u = .group body ∨ ∃ f, explicit u = .call f body) :
    ∃ us, body = explicitAll false us := by
  cases u with
  | terminal text => simp [explicit] at h
  | operator op => simp [explicit] at h
  | group us => exact ⟨us, by simpa [explicit, eq_comm] using h⟩
  | call f us => exact ⟨us, by simpa [explicit, eq_comm] using h⟩

/-- Every level has its products. -/
theorem exists_explicitAll_of_isLevel {b : Bool} {ts level : List Token}
    (h : IsLevel (explicitAll b ts) level) : ∃ b' us, level = explicitAll b' us := by
  induction h with
  | top => exact ⟨b, ts, rfl⟩
  | group within h ih =>
      obtain ⟨b', us, rfl⟩ := ih
      rcases mem_explicitAll h with heq | ⟨u, -, heq⟩
      · exact nomatch heq
      · exact ⟨false, exists_of_explicit (.inl heq.symm)⟩
  | call within h ih =>
      obtain ⟨b', us, rfl⟩ := ih
      rcases mem_explicitAll h with heq | ⟨u, -, heq⟩
      · exact nomatch heq
      · exact ⟨false, exists_of_explicit (.inr ⟨_, heq.symm⟩)⟩

/-- **Products separate the terms of all levels.** -/
theorem separated_explicitAll (b : Bool) (ts : List Token) : Separated (explicitAll b ts) := by
  intro level h
  obtain ⟨b', us, rfl⟩ := exists_explicitAll_of_isLevel h
  exact apart_explicitAll us b'

end Token

namespace Formula

open FormulaDesk.Token (Apart Separated joints)

/-! ## §3. Between separated terms no operator is missing. -/

/-- A loose list begins with two tokens and has no split. -/
theorem eq_of_shape_loose {ts : List Token} {t : Token} (h : shape ts = .loose t) :
    ∃ u us, ts = t :: u :: us ∧ split? false ts = none := by
  unfold shape at h
  split at h
  next => exact nomatch h
  next => split at h <;> exact nomatch h
  next => exact nomatch h
  next => exact nomatch h
  next t' us hne hs _ =>
    obtain rfl := Shape.loose.inj h
    cases us with
    | nil => exact absurd rfl hne
    | cons u us => exact ⟨u, us, rfl, hs⟩
  next => exact nomatch h

/-- A loose list of separated terms does not begin with one. -/
theorem isTerm_of_shape_loose {ts : List Token} {t : Token} (hapart : Apart ts)
    (h : shape ts = .loose t) : t.isTerm = false := by
  obtain ⟨u, us, rfl, hsplit⟩ := eq_of_shape_loose h
  rcases List.isChain_cons_cons.1 hapart with ⟨ht | hu, -⟩
  · exact ht
  · -- Behind a term the second token would be a joint, and the list could be split there.
    obtain ⟨op, rfl⟩ := Token.eq_operator_of_isTerm hu
    have hjoints := (split?_eq_none_iff _ _).1 hsplit
    cases hterm : t.isTerm with
    | false => rfl
    | true =>
        rw [joints, hterm, Token.joints_operator_cons] at hjoints
        simp at hjoints

/-- **Between separated terms no operator is missing**, in whatever windows the
list is cut. -/
theorem ofTokensWithin_ne_missingOperator (room : Nat) :
    ∀ ts : List Token, Separated ts → ofTokensWithin room ts ≠ .error .missingOperator := by
  induction room with
  | zero => intro ts _ h; cases h
  | succ room ih =>
      intro ts hts h
      rw [ofTokensWithin] at h
      split at h
      next s hshape =>
        have hsplit := split?_eq_append (shape_eq_binary_iff.1 hshape).1
        have hleft : s.left <:+: ts := ⟨[], .operator s.op :: s.right, hsplit.symm⟩
        have hright : s.right <:+: ts := ⟨s.left ++ [.operator s.op], [], by simp [hsplit]⟩
        split at h
        next => cases h
        next =>
          rcases bind_eq_error_iff.1 h with h | ⟨left, -, h⟩
          · exact ih s.left (hts.of_window hleft) h
          · rcases bind_eq_error_iff.1 h with h | ⟨right, -, h⟩
            · exact ih s.right (hts.of_window hright) h
            · cases h
      next op operand hshape =>
        obtain ⟨rfl, -, -⟩ := shape_eq_signed_iff.1 hshape
        split at h
        next => cases h
        next =>
          rcases bind_eq_error_iff.1 h with h | ⟨e, -, h⟩
          · exact ih operand (hts.of_window (List.infix_cons (List.infix_refl operand))) h
          · cases h
      next text hshape => split at h <;> cases h
      next body hshape =>
        obtain rfl := eq_of_shape_single hshape
        exact ih body (hts.of_isLevel (.group .top (List.mem_singleton_self _))) h
      next f body hshape =>
        obtain rfl := eq_of_shape_single hshape
        split at h
        next => cases h
        next =>
          rcases bind_eq_error_iff.1 h with h | ⟨e, -, h⟩
          · exact ih body (hts.of_isLevel (.call .top (List.mem_singleton_self _))) h
          · cases h
      next op hshape => cases h
      next op hshape => cases h
      next t hne hshape =>
        obtain ⟨op, rfl⟩ :=
          Token.eq_operator_of_isTerm (isTerm_of_shape_loose (hts ts .top) hshape)
        exact hne op rfl
      next => cases h

end Formula

/-! ## §4. Texts. -/

/-- **EVERY PRODUCT IS WRITTEN.**  With its products written no text has two
terms side by side, neither at the top nor in any group or argument; so no text
at all is refused for an operator that is missing between two terms. -/
theorem explicitProducts_complete (text : String) :
    (∀ ts : List Token, Token.ofText (explicitProducts text) = .ok ts →
      ∀ level, Token.IsLevel ts level → ∀ (front : List Token) (t u : Token) (back : List Token),
        level = front ++ t :: u :: back → t.isTerm = false ∨ u.isTerm = false) ∧
    compile text ≠ .error (.formula .missingOperator) := by
  -- The tokens of a text with its products are tokens with products.
  have hseparated : ∀ (text : String) (ts : List Token),
      Token.ofText (explicitProducts text) = .ok ts → Token.Separated ts := by
    intro text ts h
    rw [Token.ofText_explicit] at h
    cases hread : Token.ofText text with
    | error fault =>
        rw [hread] at h
        exact nomatch h
    | ok us =>
        rw [hread] at h
        obtain rfl := Except.ok.inj h
        exact Token.separated_explicitAll false us
  constructor
  · intro ts h level hlevel front t u back heq
    have hapart := hseparated text ts h level hlevel
    rw [heq] at hapart
    exact hapart.of_append
  · intro h
    by_cases hblank : Text.trim text.toList = []
    · rw [compile, if_pos hblank] at h
      exact nomatch h
    · rw [compile_eq hblank] at h
      rcases bind_eq_error_iff.1 h with h | ⟨ts, hts, h⟩
      · obtain ⟨cause, -, heq⟩ := lift_eq_error_iff.1 h
        exact nomatch heq
      · rcases bind_eq_error_iff.1 h with h | ⟨e, -, h⟩
        · obtain ⟨cause, hcause, heq⟩ := lift_eq_error_iff.1 h
          obtain rfl := Fault.formula.inj heq
          have hts' := hseparated _ ts (lift_eq_ok_iff.1 hts)
          exact Formula.ofTokensWithin_ne_missingOperator _ ts hts' hcause
        · exact nomatch h

/-- In `(3x)` the product is written within the group. -/
theorem explicitProducts_complete_group :
    Token.ofText (explicitProducts "(3x)") =
      .ok [.group [.terminal "3", .operator .mul, .terminal "x"]] ∧
    ∀ (front : List Token) (t u : Token) (back : List Token),
      [.terminal "3", .operator .mul, .terminal "x"] = front ++ t :: u :: back →
        t.isTerm = false ∨ u.isTerm = false := by
  have htokens : Token.ofText (explicitProducts "(3x)") =
      .ok [.group [.terminal "3", .operator .mul, .terminal "x"]] := by
    cbv
  have hlevel : Token.IsLevel [.group [.terminal "3", .operator .mul, .terminal "x"]]
      [.terminal "3", .operator .mul, .terminal "x"] :=
    .group .top (List.mem_singleton_self _)
  exact ⟨htokens, (explicitProducts_complete "(3x)").1 _ htokens _ hlevel⟩

end FormulaDesk
