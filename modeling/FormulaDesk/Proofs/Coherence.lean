/-
  FormulaDesk.Proofs.Coherence
  ──────────────────────────────────────
  **WHAT THE SCREEN SHOWS GOES TOGETHER.**

  A session begins behind the first frames of a screen, with the promise of
  the focus from the start-up already spent.  It takes any steps in any order,
  and each of them touches some parts of the screen and leaves the others.
  Still the parts of the report always belong together: either there is no
  value and nothing of one is left, or there is one, with no failure beside it,
  and it is the value of the formula that was evaluated last, under the values
  and with the places of that time, however the fields have been edited since.

    • `Screen.report_of_evaluates`, `Screen.report_of_not_evaluates` — what a
      step does to the report;
    • `Screen.report_run` — what a report stems from;
    • `Screen.run_coherent` — the law for all sessions.
-/
import FormulaDesk.Proofs.Traces
import FormulaDesk.Screen.Session

namespace FormulaDesk

/-! ## §1. What is shown of a value. -/

theorem shown_ne_empty (decimals : Nat) (value : Float) : shown decimals value ≠ "" := by
  unfold shown
  split
  next v _ =>
    intro h
    have hnil : v.toFixed decimals = [] := String.ofList_eq_empty_iff.1 h
    unfold Number.Finite.toFixed Number.placed at hnil
    -- Before the point there is at least one digit.
    have hdigits : ∀ n, Number.digitsOf n ≠ [] := fun n => Nat.toDigits_ne_nil
    split at hnil
    next => exact hdigits _ (List.append_eq_nil_iff.1 hnil).2
    next => simp at hnil
  next => split <;> decide
  next => decide

/-- A trace with a text of every stage. -/
structure Trace.Full (t : Trace) : Prop where
  products : t.products ≠ ""
  tokens : t.tokens ≠ ""
  sequence : t.sequence ≠ ""
  note : t.note ≠ ""

/-- **A calculation leaves a text of each of its stages.** -/
theorem full_trace {known : KnownValues} {text : String} {c : Calculation}
    (h : calculate known text = .ok c) : c.trace.Full := by
  obtain ⟨compiled, hcompiled, hvalue, htrace⟩ := calculate_eq_ok_iff.1 h
  obtain ⟨hne, ts, e, hts, he, heq⟩ := compile_eq_ok_iff.1 hcompiled
  have hproducts : c.trace.products ≠ "" := by
    have hsolid : Solid (String.ofList (Text.trim text.toList)).toList := by
      rw [String.toList_ofList]
      exact solid_trim hne
    rw [← htrace, ← heq]
    exact fun hempty => (solid_explicitProducts hsolid).ne_nil (String.toList_eq_nil_iff.2 hempty)
  have htokens : c.trace.tokens ≠ "" := by
    intro hempty
    have hagain := compile_toText hcompiled
    rw [htrace, hempty] at hagain
    exact nomatch hagain
  have hsequence : c.trace.sequence ≠ "" := by
    intro hempty
    have hagain := ofText_sequence hcompiled
    obtain ⟨o, ho, -⟩ := bind_eq_ok_iff.1 hvalue
    rw [htrace, hempty, ho] at hagain
    exact nomatch hagain
  have hnote : c.trace.note ≠ "" := by
    rw [← htrace, ← heq]
    exact (by decide : Trace.stages ≠ "")
  exact ⟨hproducts, htokens, hsequence, hnote⟩

/-! ## §2. What a step does to the report. -/

namespace Step

/-- The report that a step puts in the place of the old one, whatever the
formula is. -/
def report? : Step → Option Report
  | .load _ | .press (.preset _) | .press .clearReport | .press .clearAll => some .blank
  | .fail message => some (.ofFailure message)
  | _ => none

/-- The step changes a field or the number of places, and nothing more. -/
def edits : Step → Bool
  | .setFormula _ | .setValues _ | .setDecimals _ | .select _ | .escape => true
  | .press .clear | .press .deleteLast | .press (.key _) => true
  | _ => false

end Step

namespace Screen

/-- The step evaluates the formula of this screen. -/
def evaluates (s : Screen) : Step → Bool
  | .press .equals => true
  | .enter => s.focus
  | _ => false

/-- A report of a step's own has no value. -/
theorem report?_cases {st : Step} {report : Report} (h : st.report? = some report) :
    report = .blank ∨ ∃ message, report = .ofFailure message := by
  unfold Step.report? at h
  split at h
  next => exact .inl (Option.some.inj h).symm
  next => exact .inl (Option.some.inj h).symm
  next => exact .inl (Option.some.inj h).symm
  next => exact .inl (Option.some.inj h).symm
  next message => exact .inr ⟨message, (Option.some.inj h).symm⟩
  next => exact nomatch h

/-- **A step that evaluates reports on the formula as it stands.** -/
theorem report_of_evaluates {s : Screen} {st : Step} (h : s.evaluates st = true) :
    (s.step st).report = reportOn s.formula s.values s.decimals := by
  cases st with
  | press b =>
      cases b with
      | equals => simp only [step, press, evaluate, takeFocus]
      | _ => exact absurd h Bool.false_ne_true
  | enter =>
      have hfocus : s.focus = true := h
      simp only [step, if_pos hfocus, evaluate, takeFocus]
  | _ => exact absurd h Bool.false_ne_true

/-- **Any other step has a report of its own or leaves the report.** -/
theorem report_of_not_evaluates {s : Screen} {st : Step} (h : s.evaluates st = false) :
    (s.step st).report = st.report?.getD s.report := by
  cases st with
  | press b =>
      cases b with
      | equals => exact nomatch h
      | deleteLast => exact report_editFormula s.takeFocus _
      | key k => exact report_editFormula s.takeFocus _
      | _ => rfl
  | enter =>
      have hfocus : ¬ s.focus = true := by simpa [evaluates] using h
      rw [step, if_neg hfocus]
      rfl
  | select n =>
      rw [step]
      split <;> rfl
  | _ => rfl

/-- Only a calculation makes a report with a value. -/
theorem reportOn_cases (formula values : String) (decimals : Nat) :
    (∃ message, reportOn formula values decimals = .ofFailure message) ∨
      ∃ known c, KnownValues.ofText values = .ok known ∧ calculate known formula = .ok c ∧
        reportOn formula values decimals = .ofCalculation decimals c := by
  unfold reportOn
  split
  next fault _ => exact .inl ⟨_, rfl⟩
  next known hknown =>
    split
    next fault _ => exact .inl ⟨_, rfl⟩
    next c hc => exact .inr ⟨known, c, hknown, hc, rfl⟩

/-! ## §3. What the report of a session stems from. -/

/-- A step that evaluates and what comes since: no step of it evaluates again or
puts another report in the place. -/
structure LastEvaluation (before : List Step) (st : Step) (since : List Step) : Prop where
  evaluates : (run before).evaluates st = true
  last : ∀ (mid : List Step) (st' : Step) (rest : List Step), since = mid ++ st' :: rest →
    (run (before ++ st :: mid)).evaluates st' = false
  kept : ∀ st' ∈ since, st'.report? = none

/-- The value of the formula, under the values of the screen, when the session
evaluated last, and the number of places at that time. -/
def LastValue (steps : List Step) (decimals : Nat) (c : Calculation) : Prop :=
  ∃ before st since known, steps = before ++ st :: since ∧ LastEvaluation before st since ∧
    (run before).decimals = decimals ∧ KnownValues.ofText (run before).values = .ok known ∧
    calculate known (run before).formula = .ok c

/-- A last evaluation stays the last one behind a step that neither evaluates
nor has a report of its own. -/
theorem LastEvaluation.concat {before since : List Step} {st st' : Step}
    (h : LastEvaluation before st since)
    (hnot : (run (before ++ st :: since)).evaluates st' = false) (hkept : st'.report? = none) :
    LastEvaluation before st (since ++ [st']) := by
  refine ⟨h.evaluates, ?_, ?_⟩
  · intro mid st'' rest heq
    rcases List.eq_nil_or_concat rest with rfl | ⟨rest, last, rfl⟩
    · obtain ⟨rfl, hsingle⟩ := List.append_inj' heq rfl
      obtain rfl := (List.cons.inj hsingle).1
      exact hnot
    · rw [List.concat_eq_append, ← List.cons_append, ← List.append_assoc] at heq
      exact h.last mid st'' rest (List.append_inj' heq rfl).1
  · intro st'' hmem
    rcases List.mem_append.1 hmem with hmem | hmem
    · exact h.kept st'' hmem
    · rw [List.mem_singleton.1 hmem, hkept]

/-- Behind a step that evaluates, the last value is that of the formula as it
stood. -/
theorem LastValue.of_evaluates {steps : List Step} {st : Step} {decimals : Nat}
    {c : Calculation} (h : LastValue (steps ++ [st]) decimals c)
    (hst : (run steps).evaluates st = true) :
    (run steps).decimals = decimals ∧ ∃ known,
      KnownValues.ofText (run steps).values = .ok known ∧
        calculate known (run steps).formula = .ok c := by
  obtain ⟨before, st', since, known, heq, hlast, hdecimals, hknown, hc⟩ := h
  rcases List.eq_nil_or_concat since with rfl | ⟨since, last, rfl⟩
  · obtain ⟨rfl, -⟩ := List.append_inj' heq rfl
    exact ⟨hdecimals, known, hknown, hc⟩
  · -- Since the last evaluation nothing has evaluated, and `st` does.
    rw [List.concat_eq_append, ← List.cons_append, ← List.append_assoc] at heq
    obtain ⟨rfl, hsingle⟩ := List.append_inj' heq rfl
    obtain rfl := (List.cons.inj hsingle).1
    have hnot := hlast.last since st [] List.concat_eq_append
    exact absurd (hst.symm.trans hnot) (by decide)

/-- **Where the report of a session comes from**: nothing has been reported, or
a failure, or the value of the last evaluation. -/
theorem report_run (steps : List Step) :
    (run steps).report = .blank ∨ (∃ message, (run steps).report = .ofFailure message) ∨
      ∃ decimals c, LastValue steps decimals c ∧
        (run steps).report = .ofCalculation decimals c := by
  induction steps using List.reverseRecOn with
  | nil => exact .inl rfl
  | append_singleton steps st ih =>
      rw [run_concat]
      cases hst : (run steps).evaluates st with
      | true =>
          rw [report_of_evaluates hst]
          rcases reportOn_cases (run steps).formula (run steps).values (run steps).decimals with
            hfailure | ⟨known, c, hknown, hc, hreport⟩
          · exact .inr (.inl hfailure)
          · have hlast : LastEvaluation steps st [] := ⟨hst, by simp, by simp⟩
            exact .inr (.inr ⟨_, c, ⟨steps, st, [], known, rfl, hlast, rfl, hknown, hc⟩, hreport⟩)
      | false =>
          rw [report_of_not_evaluates hst]
          cases hreport : st.report? with
          | some report =>
              exact (report?_cases hreport).imp_right .inl
          | none =>
              rcases ih with hblank | hfailure | ⟨decimals, c, hvalue, heq⟩
              · exact .inl hblank
              · exact .inr (.inl hfailure)
              · obtain ⟨before, st', since, known, rfl, hlast, hrest⟩ := hvalue
                refine .inr (.inr ⟨decimals, c, ⟨before, st', since ++ [st], known, by simp,
                  hlast.concat hst hreport, hrest⟩, heq⟩)

/-! ## §4. Sessions. -/

/-- No value is shown, and nothing is left of one. -/
structure ShowsNothing (r : Report) : Prop where
  available : r.available = false
  result : r.result = ""
  trace : r.trace = .empty

/-- The value of the last evaluation is shown, with its trace and without a
failure. -/
structure ShowsLastValue (steps : List Step) : Prop where
  available : (run steps).report.available = true
  failure : (run steps).report.failure = ""
  result : (run steps).report.result ≠ ""
  trace : (run steps).report.trace.Full
  value : ∃ decimals c, LastValue steps decimals c ∧
    (run steps).report.result = shown decimals c.value ∧ (run steps).report.trace = c.trace

/-- The number of places stays within its bound. -/
theorem decimals_step_le {s : Screen} (h : s.decimals ≤ maxDecimals) (st : Step) :
    (s.step st).decimals ≤ maxDecimals := by
  cases st with
  | press b =>
      cases b with
      | clearAll => exact (by decide : defaultDecimals ≤ maxDecimals)
      | deleteLast => exact (decimals_editFormula s.takeFocus _).trans_le h
      | key k => exact (decimals_editFormula s.takeFocus _).trans_le h
      | _ => exact h
  | select n =>
      rw [step]
      split
      next => exact h
      next => exact Nat.min_le_right _ _
  | enter =>
      rw [step]
      split <;> exact h
  | setDecimals n => exact Nat.min_le_right _ _
  | _ => exact h

theorem decimals_run_le (steps : List Step) : (run steps).decimals ≤ maxDecimals := by
  induction steps using List.reverseRecOn with
  | nil => decide
  | append_singleton steps st ih =>
      rw [run_concat]
      exact decimals_step_le ih st

/-- An evaluation touches neither a field nor the number of places, and a failure
and an emptied report touch neither. -/
theorem fields_step {s : Screen} {st : Step}
    (h : s.evaluates st = true ∨ st = .press .clearReport ∨ ∃ message, st = .fail message) :
    (s.step st).formula = s.formula ∧ (s.step st).values = s.values ∧
      (s.step st).decimals = s.decimals := by
  rcases h with h | rfl | ⟨message, rfl⟩
  · cases st with
    | enter => exact step_enter_fields s
    | press b =>
        cases b with
        | equals => exact ⟨rfl, rfl, rfl⟩
        | _ => exact absurd h Bool.false_ne_true
    | _ => exact absurd h Bool.false_ne_true
  · exact ⟨rfl, rfl, rfl⟩
  · exact ⟨rfl, rfl, rfl⟩

/-- An edit touches nothing of the report. -/
theorem report_step_of_edits {s : Screen} {st : Step} (h : st.edits = true) :
    (s.step st).report = s.report := by
  have hnot : s.evaluates st = false ∧ st.report? = none := by
    cases st with
    | press b => cases b <;> simp_all [Step.edits, evaluates, Step.report?]
    | _ => simp_all [Step.edits, evaluates, Step.report?]
  rw [report_of_not_evaluates hnot.1, hnot.2]
  rfl

/-- **One of the two is shown**: nothing, or the last value. -/
theorem showsNothing_or_showsLastValue (steps : List Step) :
    ShowsNothing (run steps).report ∨ ShowsLastValue steps := by
  rcases report_run steps with hblank | ⟨message, hfailure⟩ | ⟨decimals, c, hvalue, hreport⟩
  · rw [hblank]
    exact .inl ⟨rfl, rfl, rfl⟩
  · rw [hfailure]
    exact .inl ⟨rfl, rfl, rfl⟩
  · obtain ⟨_, _, _, _, -, -, -, -, hc⟩ := id hvalue
    refine .inr ⟨?_, ?_, ?_, ?_, decimals, c, hvalue, ?_, ?_⟩
    all_goals rw [hreport]
    · rfl
    · rfl
    · exact shown_ne_empty decimals c.value
    · exact full_trace hc
    · rfl
    · rfl

/-- Nothing and a value are never shown at once. -/
theorem ShowsNothing.not_showsLastValue {steps : List Step}
    (h : ShowsNothing (run steps).report) : ¬ ShowsLastValue steps := by
  intro hvalue
  exact Bool.false_ne_true (h.available.symm.trans hvalue.available)

/-- **WHAT THE SCREEN SHOWS GOES TOGETHER.**  After any session either no value
is shown, and nothing is left of one, or the value of the last evaluation is,
with its trace and without a failure; never both.  The number of places stays
within its bound; no evaluation, failure or emptied report touches a field or the
number of places, and no edit touches the report.

A session begins with `opened`, behind the first frames, where the promise of
the focus from the start-up is already spent: Enter as the first step evaluates
nothing. -/
theorem run_coherent (steps : List Step) :
    (run steps).decimals ≤ maxDecimals ∧
    Xor (ShowsNothing (run steps).report) (ShowsLastValue steps) ∧
    (∀ st, ((run steps).evaluates st = true ∨ st = .press .clearReport ∨
        ∃ message, st = .fail message) →
      ((run steps).step st).formula = (run steps).formula ∧
      ((run steps).step st).values = (run steps).values ∧
      ((run steps).step st).decimals = (run steps).decimals) ∧
    (∀ st : Step, st.edits = true → ((run steps).step st).report = (run steps).report) := by
  refine ⟨decimals_run_le steps, ?_, fun _ => fields_step, fun _ => report_step_of_edits⟩
  rcases showsNothing_or_showsLastValue steps with hnothing | hvalue
  · exact .inl ⟨hnothing, hnothing.not_showsLastValue⟩
  · exact .inr ⟨hvalue, fun hnothing => hnothing.not_showsLastValue hvalue⟩

/-- After `2` has been evaluated, its value is shown; Enter evaluates again and
leaves the formula, and Escape leaves the report.  After `2+` has been evaluated
in its place, nothing is left of the value. -/
theorem run_coherent_two :
    (ShowsLastValue [.setFormula "2", .press .equals] ∧
      ∃ c, calculate ∅ "2" = .ok c ∧
        (run [.setFormula "2", .press .equals]).report.result =
          shown defaultDecimals c.value) ∧
    ShowsNothing (run [.setFormula "2", .press .equals, .setFormula "2+",
      .press .equals]).report ∧
    (run [.setFormula "2", .press .equals]).evaluates .enter = true ∧
    ((run [.setFormula "2", .press .equals]).step .enter).formula = "2" ∧
    Step.escape.edits = true ∧
    ((run [.setFormula "2", .press .equals]).step .escape).report =
      (run [.setFormula "2", .press .equals]).report := by
  obtain ⟨-, hone, hfields, hreport⟩ := run_coherent [.setFormula "2", .press .equals]
  obtain ⟨-, hother, -, -⟩ :=
    run_coherent [.setFormula "2", .press .equals, .setFormula "2+", .press .equals]
  have havailable : (run [.setFormula "2", .press .equals]).report.available = true := by
    decide +kernel
  have hgone : (run [.setFormula "2", .press .equals, .setFormula "2+",
      .press .equals]).report.available = false := by
    decide +kernel
  have hvalue : ShowsLastValue [.setFormula "2", .press .equals] := by
    refine hone.or.resolve_left fun hnothing => ?_
    exact Bool.false_ne_true (hnothing.available.symm.trans havailable)
  have hnothing : ShowsNothing (run [.setFormula "2", .press .equals, .setFormula "2+",
      .press .equals]).report := by
    refine hother.or.resolve_right fun hvalue => ?_
    exact Bool.false_ne_true (hgone.symm.trans hvalue.available)
  have henter : (run [.setFormula "2", .press .equals]).evaluates .enter = true := rfl
  refine ⟨⟨hvalue, ?_⟩, hnothing, henter, (hfields .enter (.inl henter)).1, rfl,
    hreport .escape rfl⟩
  obtain ⟨_, c, hlast, hresult, -⟩ := hvalue.value
  obtain ⟨rfl, known, hknown, hc⟩ := @LastValue.of_evaluates [.setFormula "2"] _ _ _ hlast rfl
  obtain rfl : ∅ = known := Except.ok.inj hknown
  exact ⟨c, hc, hresult⟩

end Screen

end FormulaDesk
