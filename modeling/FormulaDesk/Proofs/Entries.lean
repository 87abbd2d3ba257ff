/-
  FormulaDesk.Proofs.Entries
  ──────────────────────────────────────
  **KNOWN VALUES, TEXT BEHIND TEXT.**

  A separator parts the text before it from the text behind it: each gives its
  own pieces, and no piece reaches across.  So the known values of the whole
  are those of both parts, where the second has the last word on a name that
  both give; and the first fault of the whole is that of the first part with
  one.

    • `KnownValues.getElem?_ofEntries` — a name has the value of its last entry;
    • `KnownValues.ofEntries_perm` — entries of different names may come in any
      order;
    • `KnownValues.pieces_beside` — the pieces of a text behind a text;
    • `KnownValues.ofText_beside` — its known values.
-/
import Mathlib.Data.List.Forall2
import FormulaDesk.Known
import FormulaDesk.Proofs.Outcome
import FormulaDesk.Proofs.Trim

namespace FormulaDesk

open FormulaDesk.Text (isBlank)

/-! ## §1. Stages for the members of a list. -/

section Members

variable {ε α β : Type} {f : α → Except ε β}

/-- A list has its results when each of its members has its own. -/
theorem mapM_eq_ok_iff {as : List α} :
    ∀ {bs : List β}, as.mapM f = .ok bs ↔ List.Forall₂ (fun a b => f a = .ok b) as bs := by
  induction as with
  | nil =>
      intro bs
      rw [List.mapM_nil, List.forall₂_nil_left_iff]
      exact ⟨fun h => (Except.ok.inj h).symm, fun h => h ▸ rfl⟩
  | cons a as ih =>
      intro bs
      rw [List.mapM_cons, List.forall₂_cons_left_iff]
      simp only [bind_eq_ok_iff, ih]
      constructor
      · intro ⟨b, hb, bs', hbs', heq⟩
        exact ⟨b, bs', hb, hbs', (Except.ok.inj heq).symm⟩
      · intro ⟨b, bs', hb, hbs', heq⟩
        exact ⟨b, hb, bs', hbs', heq ▸ rfl⟩

/-- **The fault of a list is that of its first member with one.** -/
theorem mapM_eq_error_iff {e : ε} {as : List α} :
    as.mapM f = .error e ↔ ∃ front a behind, as = front ++ a :: behind ∧
      (∀ x ∈ front, ∃ b, f x = .ok b) ∧ f a = .error e := by
  induction as with
  | nil =>
      rw [List.mapM_nil]
      constructor
      · intro h
        exact nomatch h
      · rintro ⟨front, a, behind, h, -⟩
        exact absurd h (by simp)
  | cons a as ih =>
      rw [List.mapM_cons, bind_eq_error_iff]
      constructor
      · rintro (ha | ⟨b, hb, h⟩)
        · exact ⟨[], a, as, rfl, by simp, ha⟩
        · -- The head has a result, so the fault is behind it.
          rcases bind_eq_error_iff.1 h with h | ⟨bs, -, h⟩
          · obtain ⟨front, x, behind, rfl, hfront, hx⟩ := ih.1 h
            exact ⟨a :: front, x, behind, rfl, List.forall_mem_cons.2 ⟨⟨b, hb⟩, hfront⟩, hx⟩
          · exact nomatch h
      · intro ⟨front, x, behind, heq, hfront, hx⟩
        cases front with
        | nil =>
            obtain ⟨rfl, rfl⟩ := List.cons.inj heq
            exact .inl hx
        | cons y front =>
            obtain ⟨rfl, rfl⟩ := List.cons.inj heq
            obtain ⟨⟨b, hb⟩, hfront⟩ := List.forall_mem_cons.1 hfront
            have hrest := ih.2 ⟨front, x, behind, rfl, hfront, hx⟩
            exact .inr ⟨b, hb, bind_eq_error_iff.2 (.inl hrest)⟩

/-- The members of a list in another order have their results in another
order. -/
theorem mapM_of_perm {as as' : List α} {bs : List β} (hperm : as.Perm as')
    (h : as.mapM f = .ok bs) : ∃ bs', as'.mapM f = .ok bs' ∧ bs'.Perm bs := by
  obtain ⟨bs', hbs', hperm'⟩ := List.perm_comp_forall₂ hperm.symm (mapM_eq_ok_iff.1 h)
  exact ⟨bs', mapM_eq_ok_iff.2 hbs', hperm'⟩

/-- Every result is that of some member. -/
theorem exists_of_mem_mapM {as : List α} {bs : List β} (h : as.mapM f = .ok bs) :
    ∀ b ∈ bs, ∃ a ∈ as, f a = .ok b := by
  induction mapM_eq_ok_iff.1 h with
  | nil => intro b hb; exact nomatch hb
  | @cons a b as bs hab hrest ih =>
      intro b' hb'
      rcases List.mem_cons.1 hb' with rfl | hb'
      · exact ⟨a, List.mem_cons_self .., hab⟩
      · obtain ⟨a', ha', hb'⟩ := ih (mapM_eq_ok_iff.2 hrest) b' hb'
        exact ⟨a', List.mem_cons_of_mem a ha', hb'⟩

end Members

namespace KnownValues

/-! ## §2. Entries. -/

/-- The value of the last entry of a name. -/
def lastValue? (entries : List (String × Float)) (name : String) : Option Float :=
  (entries.reverse.find? (·.1 = name)).map (·.2)

/-- **A name has the value of its last entry.** -/
theorem getElem?_ofEntries (entries : List (String × Float)) (name : String) :
    (ofEntries entries)[name]? = lastValue? entries name := by
  induction entries using List.reverseRecOn with
  | nil => simp [ofEntries, lastValue?]
  | append_singleton entries entry ih =>
      rw [getElem?_ofEntries_concat, ih, lastValue?, lastValue?, List.reverse_concat,
        List.find?_cons]
      by_cases h : entry.1 = name <;> simp [h]

/-- **Entries behind entries have the last word.** -/
theorem ofEntries_append (entries more : List (String × Float)) :
    ofEntries (entries ++ more) = ofEntries entries ∪ ofEntries more := by
  refine Std.ExtTreeMap.ext_getElem? fun name => ?_
  rw [Std.ExtTreeMap.getElem?_union, getElem?_ofEntries, getElem?_ofEntries, getElem?_ofEntries,
    lastValue?, List.reverse_append, List.find?_append, Option.map_or]
  rfl

/-- Where no name is given twice, each entry counts. -/
theorem getElem?_ofEntries_eq_some_iff {entries : List (String × Float)}
    (h : (entries.map (·.1)).Nodup) {name : String} {value : Float} :
    (ofEntries entries)[name]? = some value ↔ (name, value) ∈ entries := by
  rw [getElem?_ofEntries, lastValue?, Option.map_eq_some_iff]
  constructor
  · intro ⟨entry, hfind, hvalue⟩
    have hmem := List.mem_reverse.1 (List.mem_of_find?_eq_some hfind)
    have hname : entry.1 = name := by simpa using List.find?_some hfind
    rwa [← hname, ← hvalue]
  · intro hmem
    cases hfind : entries.reverse.find? (·.1 = name) with
    | none =>
        have hnone := List.find?_eq_none.1 hfind (name, value) (List.mem_reverse.2 hmem)
        simp at hnone
    | some entry =>
        -- Two entries of one name are the same entry.
        have hmem' := List.mem_reverse.1 (List.mem_of_find?_eq_some hfind)
        have hname : entry.1 = name := by simpa using List.find?_some hfind
        obtain rfl := List.inj_on_of_nodup_map h hmem' hmem hname
        exact ⟨_, rfl, rfl⟩

/-- **Entries of different names may come in any order.** -/
theorem ofEntries_perm {entries entries' : List (String × Float)}
    (h : (entries.map (·.1)).Nodup) (hperm : entries'.Perm entries) :
    ofEntries entries' = ofEntries entries := by
  have h' : (entries'.map (·.1)).Nodup := (hperm.map _).nodup_iff.2 h
  refine Std.ExtTreeMap.ext_getElem? fun name => Option.ext fun value => ?_
  rw [getElem?_ofEntries_eq_some_iff h, getElem?_ofEntries_eq_some_iff h', hperm.mem_iff]

/-! ## §3. Pieces. -/

/-- A text behind another one, with a separator between them. -/
def beside (text : String) (c : Char) (more : String) : String :=
  text ++ String.singleton c ++ more

theorem toList_beside (text : String) (c : Char) (more : String) :
    (beside text c more).toList = text.toList ++ c :: more.toList := by
  simp [beside]

/-- A text of blank pieces: it has only blanks and separators. -/
def BlankPieces (text : List Char) : Prop :=
  ∀ c ∈ text, isBlank c = true ∨ isSeparator c = true

theorem pieces_append_cons (cs ds : List Char) {c : Char} (h : isSeparator c = true) :
    pieces (cs ++ c :: ds) = pieces cs ++ pieces ds := by
  rw [pieces, List.splitOnP_append_cons cs ds h, List.map_append, List.filter_append]
  rfl

/-- **No piece reaches across a separator.** -/
theorem pieces_beside (text more : String) {c : Char} (h : isSeparator c = true) :
    pieces (beside text c more).toList = pieces text.toList ++ pieces more.toList := by
  rw [toList_beside, pieces_append_cons _ _ h]

/-- Blanks without a separator are one blank piece. -/
theorem pieces_of_blanks {cs : List Char} (hblank : ∀ c ∈ cs, isBlank c = true)
    (hnone : ∀ c ∈ cs, isSeparator c = false) : pieces cs = [] := by
  have htrim : Text.trim cs = [] := Text.trim_eq_nil_iff.2 (List.all_eq_true.2 hblank)
  rw [pieces, List.splitOnP_eq_singleton hnone, List.map_singleton, htrim]
  rfl

/-- **Blank pieces count for nothing.** -/
theorem pieces_of_blankPieces {cs : List Char} (h : BlankPieces cs) : pieces cs = [] := by
  -- The blanks since the last separator are carried along: a line end is a blank and a
  -- separator, and then it is a separator.
  suffices carried : ∀ (cs blanks : List Char), BlankPieces cs →
      (∀ c ∈ blanks, isBlank c = true) → (∀ c ∈ blanks, isSeparator c = false) →
      pieces (blanks ++ cs) = [] from carried cs [] h (by simp) (by simp)
  intro cs
  induction cs with
  | nil =>
      intro blanks _ hblank hnone
      rw [List.append_nil]
      exact pieces_of_blanks hblank hnone
  | cons c cs ih =>
      intro blanks h hblank hnone
      obtain ⟨hc, hcs⟩ := List.forall_mem_cons.1 h
      cases hsep : isSeparator c with
      | true =>
          rw [pieces_append_cons _ _ hsep, pieces_of_blanks hblank hnone, List.nil_append]
          exact ih [] hcs (by simp) (by simp)
      | false =>
          have hcblank : isBlank c = true := hc.resolve_right (by simp [hsep])
          rw [List.append_cons]
          refine ih (blanks ++ [c]) hcs ?_ ?_
          · exact List.forall_mem_append.2 ⟨hblank, List.forall_mem_singleton.2 hcblank⟩
          · exact List.forall_mem_append.2 ⟨hnone, List.forall_mem_singleton.2 hsep⟩

/-! ## §4. Texts. -/

/-- A text whose pieces write some entries, in this order. -/
def Writes (text : String) (entries : List (String × Float)) : Prop :=
  (pieces text.toList).mapM readEntry = .ok entries

theorem Writes.ofText_eq {text : String} {entries : List (String × Float)}
    (h : Writes text entries) : ofText text = .ok (ofEntries entries) := by
  rw [ofText, h]
  rfl

/-- Only its pieces tell what a text gives. -/
theorem ofText_congr {text text' : String} (h : pieces text.toList = pieces text'.toList) :
    ofText text = ofText text' := by
  rw [ofText, ofText, h]

/-- **The known values of a text behind a text.** -/
theorem ofText_beside (text more : String) {c : Char} (h : isSeparator c = true) :
    ofText (beside text c more) = do
      let known ← ofText text
      let further ← ofText more
      return known ∪ further := by
  rw [ofText, pieces_beside _ _ h, List.mapM_append, ofText, ofText]
  cases (pieces text.toList).mapM readEntry with
  | error fault => rfl
  | ok entries =>
      cases (pieces more.toList).mapM readEntry with
      | error fault => rfl
      | ok further => exact congrArg Except.ok (ofEntries_append entries further)

/-- A text has a fault when one of its pieces has it, and then it is the first
piece that does. -/
theorem ofText_eq_error_iff {text : String} {fault : KnownFault} :
    ofText text = .error fault ↔ ∃ front piece behind,
      pieces text.toList = front ++ piece :: behind ∧
      (∀ p ∈ front, ∃ entry, readEntry p = .ok entry) ∧ readEntry piece = .error fault := by
  rw [← mapM_eq_error_iff, ofText]
  cases (pieces text.toList).mapM readEntry <;> simp [Except.map]

/-- **TEXTS OF KNOWN VALUES COMPOSE.**  A text behind a text has the fault of
the first, or else that of the second, or else the values of both, where those
of the second win.  So blank pieces count for nothing, wherever they stand; the
last value of a name wins; the leftmost malformed piece is the fault; and pieces
of different names may come in any order. -/
theorem ofText_composes :
    (∀ (text more : String) (c : Char), isSeparator c = true →
      (∀ fault, ofText text = .error fault →
        ofText (beside text c more) = .error fault) ∧
      (∀ known fault, ofText text = .ok known → ofText more = .error fault →
        ofText (beside text c more) = .error fault) ∧
      (∀ known further, ofText text = .ok known → ofText more = .ok further →
        ∃ both, ofText (beside text c more) = .ok both ∧
          ∀ name : String, both[name]? = further[name]?.or known[name]?)) ∧
    (∀ (text blanks more : String) (c d : Char), isSeparator c = true → isSeparator d = true →
      BlankPieces blanks.toList →
        ofText (beside blanks c more) = ofText more ∧
        ofText (beside text c blanks) = ofText text ∧
        ofText (beside text c (beside blanks d more)) = ofText (beside text c more)) ∧
    (∀ text entries, Writes text entries →
      ∃ known, ofText text = .ok known ∧
        ∀ name : String, known[name]? = lastValue? entries name) ∧
    (∀ text fault, ofText text = .error fault ↔ ∃ front piece behind,
      pieces text.toList = front ++ piece :: behind ∧
      (∀ p ∈ front, ∃ entry, readEntry p = .ok entry) ∧ readEntry piece = .error fault) ∧
    (∀ text text' entries, Writes text entries → (entries.map (·.1)).Nodup →
      (pieces text.toList).Perm (pieces text'.toList) → ofText text' = ofText text) := by
  refine ⟨?beside, ?blanks, ?last, fun text fault => ofText_eq_error_iff, ?order⟩
  case beside =>
    intro text more c hc
    rw [ofText_beside text more hc]
    refine ⟨?_, ?_, ?_⟩
    · intro fault h
      rw [h]
      rfl
    · intro known fault h h'
      rw [h, h']
      rfl
    · intro known further h h'
      rw [h, h']
      exact ⟨known ∪ further, rfl, fun name => Std.ExtTreeMap.getElem?_union⟩
  case blanks =>
    intro text blanks more c d hc hd hblanks
    have hnone := pieces_of_blankPieces hblanks
    refine ⟨ofText_congr ?_, ofText_congr ?_, ofText_congr ?_⟩
    · rw [pieces_beside _ _ hc, hnone, List.nil_append]
    · rw [pieces_beside _ _ hc, hnone, List.append_nil]
    · rw [pieces_beside _ _ hc, pieces_beside _ _ hd, pieces_beside _ _ hc, hnone,
        List.nil_append]
  case last =>
    intro text entries h
    exact ⟨_, h.ofText_eq, getElem?_ofEntries entries⟩
  case order =>
    intro text text' entries h hnodup hperm
    obtain ⟨entries', h', hperm'⟩ := mapM_of_perm hperm h
    have htext' : Writes text' entries' := h'
    rw [h.ofText_eq, htext'.ofText_eq, ofEntries_perm hnodup hperm']

/-- A fault in front of an entry, a name with two values, an entry behind blank
pieces, and two entries in either order. -/
theorem ofText_composes_entries :
    let one := Number.Numeral.toFloat ⟨false, 1, 0⟩
    let two := Number.Numeral.toFloat ⟨false, 2, 0⟩
    ofText (beside "x" ';' "y = 2") = .error (.missingEquals "x") ∧
      (∃ both, ofText (beside "x = 1" ',' "x = 2") = .ok both ∧ both["x"]? = some two) ∧
      ofText (beside " ;\n" ',' "x = 1") = ofText "x = 1" ∧
      Writes "x = 1, y = 2" [("x", one), ("y", two)] ∧
      ofText "y = 2; x = 1" = ofText "x = 1, y = 2" := by
  intro one two
  have hone : Writes "x = 1" [("x", one)] := rfl
  have htwo : Writes "x = 2" [("x", two)] := rfl
  have hboth : Writes "x = 1, y = 2" [("x", one), ("y", two)] := rfl
  have hmissing : ofText "x" = .error (.missingEquals "x") := by cbv
  have hblank : BlankPieces " ;\n".toList := by
    intro c hc
    obtain rfl | rfl | rfl : c = ' ' ∨ c = ';' ∨ c = '\n' := by simpa using hc
    · exact .inl rfl
    · exact .inr rfl
    · exact .inl rfl
  obtain ⟨hbeside, hblanks, -, -, horder⟩ := ofText_composes
  refine ⟨(hbeside "x" "y = 2" ';' rfl).1 _ hmissing, ?_, ?_, hboth, ?_⟩
  · obtain ⟨both, h, hvalue⟩ :=
      (hbeside "x = 1" "x = 2" ',' rfl).2.2 _ _ hone.ofText_eq htwo.ofText_eq
    refine ⟨both, h, ?_⟩
    rw [hvalue, getElem?_ofEntries]
    rfl
  · exact (hblanks "" " ;\n" "x = 1" ',' ';' rfl rfl hblank).1
  · exact horder "x = 1, y = 2" "y = 2; x = 1" _ hboth (by decide) (by decide)

end KnownValues

end FormulaDesk
