/-
  FormulaDesk.Proofs.Closing
  ──────────────────────────────────────
  **LOOKING AHEAD FOR A CLOSING PARENTHESIS.**

  Where does the parenthesis close that opens at a place of a text?  The
  look-ahead counts: one up at every `(`, one down at every `)`, and whatever
  else stands in the text is passed over.  Where a `)` brings the counter back
  to zero the search ends.

  It ends at the first place up to which as many parentheses are closed as
  opened, and its counter is never negative.  In a text that falls into pieces
  it passes over every run of pieces that closes only what it opens.

    • `Closing.search_eq_some_iff` — where the search ends;
    • `Closing.nonneg_of_mem_search` — what the counter keeps;
    • `Closing.search_textOf` — the search over the pieces of a text;
    • `Piece.staysOpen_or_closes` — a parenthesis stays open, or one piece
      closes it.
-/
import FormulaDesk.Proofs.Stars

namespace FormulaDesk

namespace Closing

/-! ## §1. The counter. -/

/-- What a character does to the counter. -/
def weight (c : Char) : Int := if c = '(' then 1 else if c = ')' then -1 else 0

/-- How many more parentheses are opened than closed. -/
def balance (cs : List Char) : Int := (cs.map weight).sum

theorem balance_cons (c : Char) (cs : List Char) : balance (c :: cs) = weight c + balance cs :=
  List.sum_cons

theorem weight_eq_zero {c : Char} (ho : c ≠ '(') (hc : c ≠ ')') : weight c = 0 := by
  rw [weight, if_neg ho, if_neg hc]

/-- Only a closing parenthesis counts down, and by one. -/
theorem weight_ge (c : Char) : -1 ≤ weight c ∧ (weight c < 0 → c = ')') := by
  unfold weight
  split
  next => exact ⟨by decide, fun h => absurd h (by decide)⟩
  next =>
    split
    next h => exact ⟨by decide, fun _ => h⟩
    next => exact ⟨by decide, fun h => absurd h (by decide)⟩

theorem balance_eq_count (cs : List Char) : balance cs = cs.count '(' - cs.count ')' := by
  induction cs with
  | nil => rfl
  | cons c cs ih =>
      rw [balance_cons, ih]
      by_cases ho : c = '('
      · subst ho
        simp [weight]
        omega
      · by_cases hc : c = ')'
        · subst hc
          simp [weight]
          omega
        · simp [weight_eq_zero ho hc, ho, hc]

/-! ## §2. The search. -/

/-- The search from a place on, with the counter at `n`: the place where it
ends, and the values of the counter until then. -/
def search (n : Int) (place : Nat) : List Char → Option Nat × List Int
  | [] => (none, [])
  | c :: cs =>
    let n' := n + weight c
    if c = ')' ∧ n' = 0 then (some place, [n'])
    else
      let rest := search n' (place + 1) cs
      (rest.1, n' :: rest.2)

end Closing

/-- **The look-ahead**: the place of the parenthesis that closes the one at a
place of the text. -/
def closing? (cs : List Char) (i : Nat) : Option Nat := (Closing.search 0 i (cs.drop i)).1

/-- The values of the counter of the look-ahead. -/
def closingCounters (cs : List Char) (i : Nat) : List Int := (Closing.search 0 i (cs.drop i)).2

namespace Closing

theorem search_cons_of_ends {n : Int} {c : Char} (h : c = ')' ∧ n + weight c = 0) (place : Nat)
    (cs : List Char) : search n place (c :: cs) = (some place, [n + weight c]) :=
  if_pos h

theorem search_cons_of_not_ends {n : Int} {c : Char} (h : ¬ (c = ')' ∧ n + weight c = 0))
    (place : Nat) (cs : List Char) :
    search n place (c :: cs) =
      ((search (n + weight c) (place + 1) cs).1,
        (n + weight c) :: (search (n + weight c) (place + 1) cs).2) :=
  if_neg h

/-- Behind the parenthesis that opens, the counter is at one. -/
theorem search_opening (place : Nat) (cs : List Char) :
    search 0 place ('(' :: cs) =
      ((search 1 (place + 1) cs).1, 1 :: (search 1 (place + 1) cs).2) :=
  search_cons_of_not_ends (by decide) place cs

/-- While parentheses are open, the counter stays above zero until the search
ends. -/
theorem pos_of_not_ends {n : Int} {c : Char} (hn : 0 < n) (h : ¬ (c = ')' ∧ n + weight c = 0)) :
    0 < n + weight c := by
  obtain ⟨hge, hclosing⟩ := weight_ge c
  by_contra hle
  have hc : c = ')' := hclosing (by omega)
  exact h ⟨hc, by omega⟩

/-- **The counter is never negative.** -/
theorem nonneg_of_mem_search (cs : List Char) :
    ∀ {n : Int} {place : Nat}, 0 < n → ∀ x ∈ (search n place cs).2, 0 ≤ x := by
  induction cs with
  | nil => intro n place _ x hx; exact nomatch hx
  | cons c cs ih =>
      intro n place hn x hx
      by_cases hends : c = ')' ∧ n + weight c = 0
      · rw [search_cons_of_ends hends] at hx
        obtain rfl := List.mem_singleton.1 hx
        exact hends.2.ge
      · have hpos := pos_of_not_ends hn hends
        rw [search_cons_of_not_ends hends] at hx
        rcases List.mem_cons.1 hx with rfl | hx
        · exact hpos.le
        · exact ih hpos x hx

/-! ## §3. Where the search ends. -/

/-- With `n` parentheses open in front of a text, as many are closed as opened
behind a character of it. -/
def Returns (n : Int) (cs : List Char) (m : Nat) : Prop :=
  m < cs.length ∧ n + balance (cs.take (m + 1)) = 0

theorem returns_zero_iff {n : Int} {c : Char} {cs : List Char} :
    Returns n (c :: cs) 0 ↔ n + weight c = 0 := by
  rw [Returns, List.take_succ_cons, balance_cons]
  simp [balance]

theorem returns_succ_iff {n : Int} {c : Char} {cs : List Char} {m : Nat} :
    Returns n (c :: cs) (m + 1) ↔ Returns (n + weight c) cs m := by
  rw [Returns, Returns, List.take_succ_cons, balance_cons, List.length_cons, add_assoc]
  omega

/-- The least of some numbers without zero. -/
theorem isLeast_succ_iff {S T : Set Nat} (hzero : 0 ∉ T) (hsucc : ∀ m, m + 1 ∈ T ↔ m ∈ S)
    {m : Nat} : IsLeast T (m + 1) ↔ IsLeast S m := by
  constructor
  · intro h
    refine ⟨(hsucc m).1 h.1, fun k hk => ?_⟩
    exact Nat.le_of_succ_le_succ (h.2 ((hsucc k).2 hk))
  · intro h
    refine ⟨(hsucc m).2 h.1, fun k hk => ?_⟩
    cases k with
    | zero => exact absurd hk hzero
    | succ k => exact Nat.succ_le_succ (h.2 ((hsucc k).1 hk))

/-- **The search ends at the first place where the counter returns.** -/
theorem search_eq_some_iff (cs : List Char) :
    ∀ {n : Int} {place j : Nat}, 0 < n →
      ((search n place cs).1 = some j ↔
        ∃ m, j = place + m ∧ IsLeast {m | Returns n cs m} m) := by
  induction cs with
  | nil =>
      intro n place j _
      refine iff_of_false nofun ?_
      rintro ⟨m, -, hm, -⟩
      exact absurd hm.1 (Nat.not_lt_zero m)
  | cons c cs ih =>
      intro n place j hn
      by_cases hends : c = ')' ∧ n + weight c = 0
      · have hzero : Returns n (c :: cs) 0 := returns_zero_iff.2 hends.2
        rw [search_cons_of_ends hends]
        constructor
        · intro h
          exact ⟨0, (Option.some.inj h).symm, hzero, fun m _ => Nat.zero_le m⟩
        · rintro ⟨m, rfl, -, hleast⟩
          obtain rfl : m = 0 := Nat.le_zero.1 (hleast hzero)
          rfl
      · -- The counter is above zero behind this character, so its place is none.
        have hpos := pos_of_not_ends hn hends
        have hzero : 0 ∉ {m | Returns n (c :: cs) m} := by
          intro h
          exact hpos.ne' (returns_zero_iff.1 h)
        have hsucc : ∀ m, m + 1 ∈ {m | Returns n (c :: cs) m} ↔
            m ∈ {m | Returns (n + weight c) cs m} := fun m => returns_succ_iff
        rw [search_cons_of_not_ends hends, ih hpos]
        constructor
        · rintro ⟨m, rfl, hm⟩
          exact ⟨m + 1, by omega, (isLeast_succ_iff hzero hsucc).2 hm⟩
        · rintro ⟨m, rfl, hm⟩
          cases m with
          | zero => exact absurd hm.1 hzero
          | succ m => exact ⟨m, by omega, (isLeast_succ_iff hzero hsucc).1 hm⟩

/-! ## §4. The search over pieces. -/

/-- Characters that are no parentheses are passed over. -/
theorem search_append {ds : List Char} (h : ∀ c ∈ ds, c ≠ '(' ∧ c ≠ ')') :
    ∀ (n : Int) (place : Nat) (cs : List Char),
      (search n place (ds ++ cs)).1 = (search n (place + ds.length) cs).1 := by
  induction ds with
  | nil => intro n place cs; rfl
  | cons d ds ih =>
      intro n place cs
      obtain ⟨ho, hc⟩ := h d (List.mem_cons_self ..)
      rw [List.cons_append, search_cons_of_not_ends (fun hends => hc hends.1),
        weight_eq_zero ho hc, add_zero, ih (fun c hc' => h c (List.mem_cons_of_mem d hc')),
        List.length_cons, Nat.add_right_comm, Nat.add_assoc]

end Closing

/-- A lexeme has no parentheses. -/
theorem Lexeme.ne_of_mem_text {l : Lexeme} (hl : l.Sound) {c : Char} (hc : c ∈ l.text) :
    c ≠ '(' ∧ c ≠ ')' := by
  cases l with
  | number whole fraction =>
      rcases Lexeme.of_mem_number hl hc with h | rfl
      · exact ⟨ne_of_class h (by decide), ne_of_class h (by decide)⟩
      · decide
  | name letters =>
      have h := Lexeme.isNameChar_of_mem hl hc
      exact ⟨ne_of_class h (by decide), ne_of_class h (by decide)⟩
  | operator op =>
      obtain rfl := List.mem_singleton.1 hc
      cases op <;> decide

namespace Piece

/-- Only the pieces that are parentheses have any. -/
theorem ne_of_mem_text {p : Piece} (hp : p.Proper) (ho : p ≠ .opening) (hc : p ≠ .closing)
    {c : Char} (h : c ∈ p.text) : c ≠ '(' ∧ c ≠ ')' := by
  cases p with
  | opening => exact absurd rfl ho
  | closing => exact absurd rfl hc
  | lexeme l => exact Lexeme.ne_of_mem_text hp h
  | blank d =>
      obtain rfl := List.mem_singleton.1 h
      exact ⟨ne_of_class hp (by decide), ne_of_class hp (by decide)⟩
  | stray d =>
      obtain rfl := List.mem_singleton.1 h
      exact ⟨hp.2.1, hp.2.2.1⟩

/-- With `n` parentheses open in front of them, pieces close none that is not
open. -/
def Within (n : Nat) : List Piece → Prop
  | [] => True
  | p :: ps => (p = .closing → 0 < n) ∧ Within (p.openedAfter n) ps

/-- How many parentheses are open behind pieces. -/
def openAfter (n : Nat) (ps : List Piece) : Nat := ps.foldl (fun n p => p.openedAfter n) n

theorem openAfter_cons (n : Nat) (p : Piece) (ps : List Piece) :
    openAfter n (p :: ps) = openAfter (p.openedAfter n) ps := rfl

theorem openAfter_append (n : Nat) (ps qs : List Piece) :
    openAfter n (ps ++ qs) = openAfter (openAfter n ps) qs := List.foldl_append

theorem within_append (ps qs : List Piece) :
    ∀ n, Within n (ps ++ qs) ↔ Within n ps ∧ Within (openAfter n ps) qs := by
  induction ps with
  | nil => intro n; exact (and_iff_right trivial).symm
  | cons p ps ih =>
      intro n
      rw [List.cons_append, Within, Within, ih, openAfter_cons, and_assoc]

theorem openedAfter_eq {p : Piece} (ho : p ≠ .opening) (hc : p ≠ .closing) (n : Nat) :
    p.openedAfter n = n := by
  cases p with
  | opening => exact absurd rfl ho
  | closing => exact absurd rfl hc
  | blank c => rfl
  | lexeme l => rfl
  | stray c => rfl

/-- **More open parentheses in front** stay open behind. -/
theorem Within.add {ps : List Piece} (k : Nat) :
    ∀ {n : Nat}, Within n ps → Within (n + k) ps ∧ openAfter (n + k) ps = openAfter n ps + k := by
  induction ps with
  | nil => intro n _; exact ⟨trivial, rfl⟩
  | cons p ps ih =>
      intro n h
      obtain ⟨hp, hps⟩ := h
      have hopened : p.openedAfter (n + k) = p.openedAfter n + k := by
        cases p with
        | opening => exact Nat.add_right_comm n k 1
        | closing =>
            have hpos := hp rfl
            show n + k - 1 = n - 1 + k
            omega
        | blank c => rfl
        | lexeme l => rfl
        | stray c => rfl
      obtain ⟨hwithin, hopen⟩ := ih hps
      rw [Within, openAfter_cons, openAfter_cons, hopened]
      exact ⟨⟨fun hc => Nat.lt_of_lt_of_le (hp hc) (Nat.le_add_right n k), hwithin⟩, hopen⟩

/-- **Pieces close only what is open**: no more than that are closed anywhere
among them. -/
theorem within_iff (ps : List Piece) :
    ∀ n, Within n ps ↔ ∀ mid, mid <+: ps → mid.count .closing ≤ mid.count .opening + n := by
  induction ps with
  | nil =>
      intro n
      refine iff_of_true trivial fun mid hmid => ?_
      rw [List.prefix_nil.1 hmid]
      exact Nat.zero_le _
  | cons p ps ih =>
      intro n
      have hcount : ∀ mid : List Piece, (p = .closing → 0 < n) →
          (mid.count .closing ≤ mid.count .opening + p.openedAfter n ↔
            (p :: mid).count .closing ≤ (p :: mid).count .opening + n) := by
        intro mid hp
        cases p with
        | opening => simp [openedAfter]; omega
        | closing => have hpos := hp rfl; simp [openedAfter]; omega
        | blank c => simp [openedAfter]
        | lexeme l => simp [openedAfter]
        | stray c => simp [openedAfter]
      rw [Within, ih]
      constructor
      · rintro ⟨hp, hps⟩ mid hmid
        rcases List.prefix_cons_iff.1 hmid with rfl | ⟨mid, rfl, hrest⟩
        · exact Nat.zero_le _
        · exact (hcount mid hp).1 (hps mid hrest)
      · intro h
        have hp : p = .closing → 0 < n := by
          rintro rfl
          simpa [Nat.one_le_iff_ne_zero, Nat.pos_iff_ne_zero] using h [.closing] ⟨ps, rfl⟩
        refine ⟨hp, fun mid hmid => (hcount mid hp).2 (h (p :: mid) ?_)⟩
        exact List.cons_prefix_cons.2 ⟨rfl, hmid⟩

theorem staysOpen_iff {ps : List Piece} : StaysOpen ps ↔ Within 0 ps :=
  (within_iff ps 0).symm

/-- What is open behind pieces, counted. -/
theorem openAfter_count {ps : List Piece} :
    ∀ {n : Nat}, Within n ps → openAfter n ps + ps.count .closing = ps.count .opening + n := by
  induction ps with
  | nil => intro n _; exact Nat.add_comm n 0
  | cons p ps ih =>
      intro n h
      obtain ⟨hp, hps⟩ := h
      have hrest := ih hps
      rw [openAfter_cons]
      cases p with
      | opening => simp [openedAfter] at hrest ⊢; omega
      | closing => have hpos := hp rfl; simp [openedAfter] at hrest ⊢; omega
      | blank c => simpa [openedAfter] using hrest
      | lexeme l => simpa [openedAfter] using hrest
      | stray c => simpa [openedAfter] using hrest

theorem balanced_iff {ps : List Piece} : Balanced ps ↔ Within 0 ps ∧ openAfter 0 ps = 0 := by
  constructor
  · rintro ⟨hopen, hcount⟩
    have hwithin := staysOpen_iff.1 hopen
    have hafter := openAfter_count hwithin
    exact ⟨hwithin, by omega⟩
  · rintro ⟨hwithin, hzero⟩
    have hafter := openAfter_count hwithin
    exact ⟨staysOpen_iff.2 hwithin, by omega⟩

/-- **A parenthesis stays open, or one piece closes it**: the pieces between the
two pair off among themselves. -/
theorem staysOpen_or_closes (ps : List Piece) :
    StaysOpen ps ∨ ∃ body behind, ps = body ++ .closing :: behind ∧ Balanced body := by
  suffices general : ∀ n, Within n ps ∨ ∃ body behind, ps = body ++ .closing :: behind ∧
      Within n body ∧ openAfter n body = 0 by
    rcases general 0 with h | ⟨body, behind, hps, h⟩
    · exact .inl (staysOpen_iff.2 h)
    · exact .inr ⟨body, behind, hps, balanced_iff.2 h⟩
  induction ps with
  | nil => intro n; exact .inl trivial
  | cons p ps ih =>
      intro n
      by_cases hp : p = .closing → 0 < n
      · rcases ih (p.openedAfter n) with h | ⟨body, behind, rfl, hbody, hopen⟩
        · exact .inl ⟨hp, h⟩
        · exact .inr ⟨p :: body, behind, rfl, ⟨hp, hbody⟩, hopen⟩
      · obtain ⟨rfl, hn⟩ := Classical.not_imp.1 hp
        exact .inr ⟨[], ps, rfl, trivial, by simpa [openAfter] using hn⟩

theorem balanced_nil : Balanced [] := balanced_iff.2 ⟨trivial, rfl⟩

/-- A piece that is no parenthesis takes part in no pair. -/
theorem Balanced.cons {p : Piece} {ps : List Piece} (h : Balanced ps) (ho : p ≠ .opening)
    (hc : p ≠ .closing) : Balanced (p :: ps) := by
  have hopened := openedAfter_eq ho hc 0
  rw [balanced_iff, Within, openAfter_cons, hopened]
  obtain ⟨hwithin, hopen⟩ := balanced_iff.1 h
  exact ⟨⟨fun heq => absurd heq hc, hwithin⟩, hopen⟩

/-- A pair of parentheses around pieces that pair off, and such pieces behind
it. -/
theorem Balanced.pair {body behind : List Piece} (h : Balanced body) (h' : Balanced behind) :
    Balanced (.opening :: body ++ .closing :: behind) := by
  obtain ⟨hwithin, hopen⟩ := balanced_iff.1 h
  obtain ⟨hadd, hopenAdd⟩ := hwithin.add 1
  rw [hopen] at hopenAdd
  rw [balanced_iff, within_append, openAfter_append]
  have hone : openAfter 0 (.opening :: body) = 1 := hopenAdd
  rw [hone]
  obtain ⟨hwithin', hopen'⟩ := balanced_iff.1 h'
  exact ⟨⟨⟨nofun, hadd⟩, ⟨fun _ => Nat.one_pos, hwithin'⟩⟩, hopen'⟩

end Piece

namespace Closing

open FormulaDesk.Piece (Balanced StaysOpen Within openAfter textOf)

/-- **The search over pieces** that close only what is open: it comes out
behind them, with the parentheses counted that are open there. -/
theorem search_textOf {ps : List Piece} (cs : List Char) :
    ∀ {n : Nat} (place : Nat), (∀ p ∈ ps, p.Proper) → Within n ps →
      (search (n + 1) place (textOf ps ++ cs)).1 =
        (search (openAfter n ps + 1) (place + (textOf ps).length) cs).1 := by
  induction ps with
  | nil => intro n place _ _; rfl
  | cons p ps ih =>
      intro n place hproper h
      obtain ⟨hp, hps⟩ := h
      have hrest : ∀ place' : Nat,
          (search (p.openedAfter n + 1) place' (textOf ps ++ cs)).1 =
            (search (openAfter n (p :: ps) + 1) (place' + (textOf ps).length) cs).1 :=
        fun place' => ih place' (fun q hq => hproper q (List.mem_cons_of_mem p hq)) hps
      -- It is enough to pass over the first piece.
      suffices hhead : (search (n + 1) place (p.text ++ (textOf ps ++ cs))).1 =
          (search (p.openedAfter n + 1) (place + p.text.length) (textOf ps ++ cs)).1 by
        rw [Piece.textOf_cons, List.append_assoc, hhead, hrest, List.length_append,
          Nat.add_assoc]
      by_cases ho : p = .opening
      · subst ho
        show (search _ _ ('(' :: _)).1 = _
        rw [search_cons_of_not_ends (by simp)]
        rfl
      · by_cases hc : p = .closing
        · subst hc
          have hpos := hp rfl
          have hweight : (n : Int) + 1 + weight ')' = ((n - 1 : Nat) : Int) + 1 := by
            rw [weight, if_neg (by decide), if_pos rfl]
            omega
          show (search _ _ (')' :: _)).1 = _
          rw [search_cons_of_not_ends (by rw [hweight]; omega), hweight]
          rfl
        · rw [search_append fun c => Piece.ne_of_mem_text
            (hproper p (List.mem_cons_self ..)) ho hc, Piece.openedAfter_eq ho hc]

/-- A parenthesis that is closed: the search ends behind what it closes. -/
theorem search_of_closes {body behind : List Piece} (hproper : ∀ p ∈ body, p.Proper)
    (h : Balanced body) (place : Nat) :
    (search 1 place (textOf (body ++ .closing :: behind))).1 =
      some (place + (textOf body).length) := by
  obtain ⟨hwithin, hopen⟩ := Piece.balanced_iff.1 h
  have hbody := search_textOf (textOf (.closing :: behind)) place hproper hwithin
  rw [hopen] at hbody
  rw [Piece.textOf_append]
  exact hbody.trans (congrArg Prod.fst (search_cons_of_ends (by decide) _ _))

/-- A parenthesis that stays open: the search ends nowhere. -/
theorem search_of_staysOpen {ps : List Piece} (hproper : ∀ p ∈ ps, p.Proper)
    (h : StaysOpen ps) (place : Nat) : (search 1 place (textOf ps)).1 = none := by
  have hps := search_textOf [] place hproper (Piece.staysOpen_iff.1 h)
  rwa [List.append_nil] at hps

end Closing

/-! ## §5. The look-ahead. -/

/-- The characters from one place of a text up to another, both among them. -/
def stretch (cs : List Char) (i j : Nat) : List Char := (cs.drop i).take (j + 1 - i)

section LookAhead

variable {cs : List Char} {i : Nat}

/-- The text from an opening parenthesis on. -/
theorem drop_of_opening (h : cs[i]? = some '(') : cs.drop i = '(' :: cs.drop (i + 1) := by
  obtain ⟨hlt, hc⟩ := List.getElem?_eq_some_iff.1 h
  rw [List.drop_eq_getElem_cons hlt, hc]

theorem closing?_eq (h : cs[i]? = some '(') :
    closing? cs i = (Closing.search 1 (i + 1) (cs.drop (i + 1))).1 := by
  rw [closing?, drop_of_opening h, Closing.search_opening]

/-- **The counter of the look-ahead is never negative.** -/
theorem nonneg_of_mem_closingCounters (h : cs[i]? = some '(') :
    ∀ x ∈ closingCounters cs i, 0 ≤ x := by
  intro x hx
  rw [closingCounters, drop_of_opening h, Closing.search_opening] at hx
  rcases List.mem_cons.1 hx with rfl | hx
  · decide
  · exact Closing.nonneg_of_mem_search _ (by decide) x hx

/-- As many parentheses are opened as closed up to a place where the counter
returns. -/
theorem count_stretch_iff (h : cs[i]? = some '(') (m : Nat) :
    (i + 1 + m < cs.length ∧
      (stretch cs i (i + 1 + m)).count '(' = (stretch cs i (i + 1 + m)).count ')') ↔
      Closing.Returns 1 (cs.drop (i + 1)) m := by
  have hstretch : stretch cs i (i + 1 + m) = '(' :: (cs.drop (i + 1)).take (m + 1) := by
    rw [stretch, drop_of_opening h, show i + 1 + m + 1 - i = m + 1 + 1 by omega,
      List.take_succ_cons]
  rw [hstretch, Closing.Returns, Closing.balance_eq_count, List.length_drop]
  simp
  omega

/-- **The look-ahead finds the first place up to which as many parentheses are
closed as opened.** -/
theorem closing?_eq_some_iff (h : cs[i]? = some '(') (j : Nat) :
    closing? cs i = some j ↔
      IsLeast {k | i < k ∧ k < cs.length ∧
        (stretch cs i k).count '(' = (stretch cs i k).count ')'} j := by
  rw [closing?_eq h, Closing.search_eq_some_iff _ (by decide)]
  constructor
  · rintro ⟨m, rfl, hm, hleast⟩
    refine ⟨⟨by omega, (count_stretch_iff h m).2 hm⟩, ?_⟩
    rintro k ⟨hk, hreturns⟩
    obtain ⟨m', rfl⟩ := Nat.exists_eq_add_of_le hk
    have hle := hleast ((count_stretch_iff h m').1 hreturns)
    omega
  · rintro ⟨⟨hj, hreturns⟩, hleast⟩
    obtain ⟨m, rfl⟩ := Nat.exists_eq_add_of_le hj
    refine ⟨m, rfl, (count_stretch_iff h m).1 hreturns, fun m' hm' => ?_⟩
    have hle := hleast ⟨by omega, (count_stretch_iff h m').2 hm'⟩
    omega

/-- **The look-ahead over pieces**: it ends at the piece that closes what the
pieces before it leave open. -/
theorem closing?_of_split (h : cs[i]? = some '(') {body behind : List Piece}
    (hsplit : Piece.split (cs.drop (i + 1)) = body ++ .closing :: behind)
    (hbody : Piece.Balanced body) :
    closing? cs i = some (i + 1 + (Piece.textOf body).length) := by
  rw [closing?_eq h, ← Piece.textOf_split (cs.drop (i + 1)), hsplit]
  refine Closing.search_of_closes (fun p hp => ?_) hbody (i + 1)
  exact Piece.proper_of_mem_split (hsplit ▸ List.mem_append_left _ hp)

/-- Where nothing closes it, the look-ahead finds nothing. -/
theorem closing?_of_staysOpen (h : cs[i]? = some '(')
    (hopen : Piece.StaysOpen (Piece.split (cs.drop (i + 1)))) : closing? cs i = none := by
  rw [closing?_eq h, ← Piece.textOf_split (cs.drop (i + 1))]
  exact Closing.search_of_staysOpen (fun p hp => Piece.proper_of_mem_split hp) hopen (i + 1)

end LookAhead

end FormulaDesk
