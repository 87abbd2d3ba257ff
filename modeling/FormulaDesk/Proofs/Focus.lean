/-
  FormulaDesk.Proofs.Focus
  ──────────────────────────────────────
  **WHEN ENTER EVALUATES.**

  Enter evaluates when a field has the focus, and that is for the toolkit to
  say, not for the desk.  The desk only asks for the focus: nearly every
  action promises it to the formula field, the middle of a frame keeps the
  promise, and what comes later in the frame may promise it again.  Of the
  toolkit one thing is known: a single-line field drops the focus on Enter
  unless it asked for it in that same frame.

  So a frame is taken apart here into what comes before its middle and what
  comes behind, with the toolkit as a parameter, and a session is a run of
  such frames.

    • `Toolkit.frame_eq` — a frame is a step of the session, whatever the
      toolkit does apart from that one thing;
    • `Screen.focus_step_iff` — which steps leave a promise;
    • `Toolkit.enter_evaluates` — when Enter evaluates, and what it does, in
      all sessions.
-/
import FormulaDesk.Proofs.Coherence

namespace FormulaDesk

/-! ## §1. The parts of a frame. -/

/-- The fields that a user can type in. -/
inductive Field where
  | formula
  | values
deriving DecidableEq

namespace Step

/-- A click on a button that is no preset. -/
def isClick : Step → Bool
  | .press (.preset _) => false
  | .press _ => true
  | _ => false

end Step

namespace Screen

/-- What is done to the screen before a frame begins. -/
def prepare (s : Screen) : Step → Screen
  | .setFormula text => { s with formula := text }
  | .setValues text => { s with values := text }
  | .setDecimals n => s.setDecimals n
  | .load p => s.load p
  | .fail message => s.fail message
  | _ => s

/-- The head of a frame: Escape, then the presets. -/
def headOfFrame (s : Screen) : Step → Screen
  | .escape => s.clearFormula
  | .press (.preset p) => s.load p
  | _ => s

/-- The fields that ask for the focus in the middle of a frame: the formula,
where it has been promised. -/
def asks (s : Screen) : Field → Bool
  | .formula => s.focus
  | .values => false

/-- The end of a frame: the other buttons, then the selector. -/
def endOfFrame (s : Screen) : Step → Screen
  | .press (.preset _) => s
  | .press b => s.press b
  | .select n => if selectable n = s.decimals then s else s.setDecimals (selectable n)
  | _ => s

end Screen

/-- What the desk has to be told in a frame with Enter: whether a field has the
focus.  The answer may hang on the session so far and on the fields that asked
for the focus in this frame. -/
structure Toolkit where
  hasFocus : List Step → (Field → Bool) → Field → Bool

namespace Toolkit

/-- A single-line field drops the focus on Enter, unless it asked for it in
that same frame. -/
def DropsFocus (t : Toolkit) : Prop :=
  ∀ session asked field, t.hasFocus session asked field = asked field

/-- One of the two fields has the focus. -/
def anyFocus (t : Toolkit) (session : List Step) (asked : Field → Bool) : Bool :=
  t.hasFocus session asked .formula || t.hasFocus session asked .values

/-- Enter is looked at, and a field has the focus.  The fields have asked for it
before. -/
def entered (t : Toolkit) (session : List Step) (s : Screen) (st : Step) : Bool :=
  st = .enter && t.anyFocus session ((s.prepare st).headOfFrame st).asks

/-- A step and the frame that follows it: the formula field takes the focus that
it was promised, Enter is looked at, and the other buttons come last. -/
def frame (t : Toolkit) (session : List Step) (s : Screen) (st : Step) : Screen :=
  let middle := ((s.prepare st).headOfFrame st).takeFocus
  (if t.entered session s st then middle.evaluate else middle).endOfFrame st

/-- A session with its screen, one step further. -/
def advance (t : Toolkit) (past : List Step × Screen) (st : Step) : List Step × Screen :=
  (past.1 ++ [st], t.frame past.1 past.2 st)

/-- The screen after every frame of a session. -/
def play (t : Toolkit) (steps : List Step) : Screen := (steps.foldl t.advance ([], .opened)).2

/-- The next step evaluates the formula: it is a click on `=`, or Enter with the
focus on a field. -/
def evaluates (t : Toolkit) (session : List Step) (st : Step) : Bool :=
  st = .press .equals || t.entered session (t.play session) st

/-- The next step is the selector's, and it changes the number of places. -/
def Selects (t : Toolkit) (session : List Step) (st : Step) : Prop :=
  (∃ n, st = .select n) ∧ (t.play (session ++ [st])).decimals ≠ (t.play session).decimals

variable {t : Toolkit}

theorem fst_foldl_advance (t : Toolkit) (steps : List Step) :
    (steps.foldl t.advance ([], .opened)).1 = steps := by
  induction steps using List.reverseRecOn with
  | nil => rfl
  | append_singleton steps st ih =>
      rw [List.foldl_append]
      show (steps.foldl t.advance ([], .opened)).1 ++ [st] = _
      rw [ih]

/-- One frame more. -/
theorem play_concat (t : Toolkit) (steps : List Step) (st : Step) :
    t.play (steps ++ [st]) = t.frame steps (t.play steps) st := by
  rw [play, List.foldl_append]
  show t.frame (steps.foldl t.advance ([], .opened)).1 (t.play steps) st = _
  rw [fst_foldl_advance]

/-! ## §2. A frame is a step. -/

/-- **Enter finds a field with the focus exactly when one asked for it**, and
only the formula ever asks. -/
theorem anyFocus_asks (ht : t.DropsFocus) (session : List Step) (s : Screen) :
    t.anyFocus session s.asks = s.focus := by
  rw [anyFocus, ht, ht]
  exact Bool.or_false s.focus

/-- Enter evaluates where the frame begins with a promise. -/
theorem entered_enter (ht : t.DropsFocus) (session : List Step) (s : Screen) :
    t.entered session s .enter = s.focus := by
  show (true && t.anyFocus session s.asks) = _
  rw [Bool.true_and, anyFocus_asks ht]

/-- **A frame is a step of the session**, whatever else the toolkit does. -/
theorem frame_eq (ht : t.DropsFocus) (session : List Step) (s : Screen) (st : Step) :
    t.frame session s st = s.step st := by
  cases st with
  | enter =>
      show (if t.entered session s .enter then s.takeFocus.evaluate else s.takeFocus) = _
      rw [entered_enter ht]
      rfl
  | press b => cases b <;> rfl
  | _ => rfl

/-- **A session of frames is the session.** -/
theorem play_eq (ht : t.DropsFocus) (steps : List Step) : t.play steps = Screen.run steps := by
  induction steps using List.reverseRecOn with
  | nil => rfl
  | append_singleton steps st ih => rw [play_concat, frame_eq ht, ih, Screen.run_concat]

/-- So the same steps evaluate. -/
theorem evaluates_eq (ht : t.DropsFocus) (steps : List Step) (st : Step) :
    t.evaluates steps st = (Screen.run steps).evaluates st := by
  cases st with
  | enter =>
      show (false || t.entered steps (t.play steps) .enter) = _
      rw [Bool.false_or, entered_enter ht, play_eq ht]
      rfl
  | press b => cases b <;> rfl
  | _ => rfl

end Toolkit

/-! ## §3. The promise. -/

namespace Screen

/-- The selector moves to another number of places. -/
def selects (s : Screen) : Step → Bool
  | .select n => selectable n ≠ s.decimals
  | _ => false

/-- A promise that has not been made needs not be kept. -/
theorem takeFocus_eq {s : Screen} (h : s.focus = false) : s.takeFocus = s := by
  cases s
  obtain rfl := h
  rfl

/-- A button promises the focus again, behind the middle of the frame. -/
theorem focus_press (s : Screen) (b : Button) : (s.press b).focus = true := by
  cases b <;> rfl

/-- **Which steps leave a promise**: a click on a button that is no preset, the
selector when it changes the number of places, and Enter when it evaluates. -/
theorem focus_step_iff (s : Screen) (st : Step) :
    (s.step st).focus = true ↔
      st.isClick = true ∨ s.selects st = true ∨ st = .enter ∧ s.focus = true := by
  cases st with
  | press b =>
      cases b with
      | preset p => simp [step, takeFocus, Step.isClick, selects]
      | _ => simp [step, focus_press, Step.isClick]
  | select n =>
      by_cases h : selectable n = s.decimals
      · simp [step, takeFocus, Step.isClick, selects, h]
      · simp [step, takeFocus, setDecimals, Step.isClick, selects, h]
  | enter =>
      cases h : s.focus <;> simp [step, takeFocus, evaluate, Step.isClick, selects, h]
  | _ => simp [step, takeFocus, Step.isClick, selects]

/-- The selector's step shows in the number of places. -/
theorem selects_iff (s : Screen) (st : Step) :
    s.selects st = true ↔ (∃ n, st = .select n) ∧ (s.step st).decimals ≠ s.decimals := by
  cases st with
  | select n =>
      by_cases h : selectable n = s.decimals
      · simp [selects, step, takeFocus, h]
      · have hmin : min (selectable n) maxDecimals = selectable n :=
          Nat.min_eq_left (Nat.min_le_right _ _)
        simp [selects, step, takeFocus, setDecimals, h, hmin]
  | _ => simp [selects]

/-! ## §4. What Enter does. -/

/-- Evaluating again changes nothing. -/
theorem evaluate_evaluate (s : Screen) : s.evaluate.evaluate = s.evaluate := rfl

theorem step_equals (s : Screen) : s.step (.press .equals) = s.evaluate := rfl

/-- **Enter is a click on `=`, or nothing at all.** -/
theorem step_enter (s : Screen) : s.step .enter = if s.focus then s.evaluate else s := by
  cases h : s.focus with
  | true =>
      rw [step, if_pos h]
      rfl
  | false =>
      rw [step, if_neg (by simp [h])]
      exact takeFocus_eq h

/-- **A step that evaluates does what a click on `=` does.** -/
theorem step_of_evaluates {s : Screen} {st : Step} (h : s.evaluates st = true) :
    s.step st = s.evaluate := by
  cases st with
  | enter =>
      have hfocus : s.focus = true := h
      rw [step_enter, if_pos hfocus]
  | press b =>
      cases b with
      | equals => exact step_equals s
      | _ => exact absurd h Bool.false_ne_true
  | _ => exact absurd h Bool.false_ne_true

/-- Where the formula has just been evaluated, evaluating it changes nothing. -/
theorem run_evaluated {steps : List Step} {s : Screen} (h : run steps = s.evaluate)
    (more : List Step) (hmore : ∀ st ∈ more, st = .enter ∨ st = .press .equals) :
    run (steps ++ more) = s.evaluate := by
  induction more using List.reverseRecOn with
  | nil => rwa [List.append_nil]
  | append_singleton more st ih =>
      have hrest := ih fun st' hst' => hmore st' (List.mem_append_left _ hst')
      rw [← List.append_assoc, run_concat, hrest]
      rcases hmore st (List.mem_append_right _ (List.mem_singleton_self st)) with rfl | rfl
      · exact step_enter _
      · exact evaluate_evaluate s

/-- Enter after Enter finds the same promise, or the same lack of one. -/
theorem focus_run_enters (steps : List Step) (n : Nat) :
    (run (steps ++ List.replicate n .enter)).focus = (run steps).focus := by
  induction n with
  | zero => rw [List.replicate_zero, List.append_nil]
  | succ n ih =>
      rw [List.replicate_succ', ← List.append_assoc, run_concat, step_enter, ← ih]
      split
      next h => rw [h]; rfl
      next => rfl

/-- **A lost promise stays lost** until a click or a change of the selector. -/
theorem focus_run_append {steps : List Step} (h : (run steps).focus = false) (more : List Step)
    (hmore : ∀ front st behind, more = front ++ st :: behind →
      st.isClick = false ∧ (run (steps ++ front)).selects st = false) :
    (run (steps ++ more)).focus = false := by
  induction more using List.reverseRecOn with
  | nil => rwa [List.append_nil]
  | append_singleton more st ih =>
      have hrest : (run (steps ++ more)).focus = false := by
        refine ih fun front st' behind heq => hmore front st' (behind ++ [st]) ?_
        rw [heq, List.append_assoc, List.cons_append]
      obtain ⟨hclick, hselects⟩ := hmore more st [] rfl
      rw [← List.append_assoc, run_concat, Bool.eq_false_iff, ne_eq, focus_step_iff]
      simp [hclick, hselects, hrest]

/-- **Without a promise nothing evaluates** until a click or a change of the
selector. -/
theorem evaluates_eq_false {steps : List Step} (h : (run steps).focus = false)
    {more : List Step}
    (hmore : ∀ front st behind, more = front ++ st :: behind →
      st.isClick = false ∧ (run (steps ++ front)).selects st = false)
    {front behind : List Step} {st : Step} (heq : more = front ++ st :: behind) :
    (run (steps ++ front)).evaluates st = false := by
  cases st with
  | enter =>
      show (run (steps ++ front)).focus = false
      refine focus_run_append h front fun front' st' behind' heq' => ?_
      refine hmore front' st' (behind' ++ .enter :: behind) ?_
      rw [heq, heq', List.append_assoc, List.cons_append]
  | press b =>
      cases b with
      | equals => exact absurd (hmore front _ behind heq).1 (by decide)
      | _ => rfl
  | _ => rfl

end Screen

/-! ## §5. Sessions. -/

namespace Toolkit

variable {t : Toolkit}

theorem selects_iff (ht : t.DropsFocus) (steps : List Step) (st : Step) :
    t.Selects steps st ↔ (Screen.run steps).selects st = true := by
  rw [Selects, play_eq ht, play_eq ht, Screen.run_concat, Screen.selects_iff]

/-- **Which Enter evaluates**: one right behind a click, a change of the
selector, or an Enter that evaluated. -/
theorem evaluates_enter_iff (ht : t.DropsFocus) (steps : List Step) :
    t.evaluates steps .enter = true ↔
      ∃ before st, steps = before ++ [st] ∧
        (st.isClick = true ∨ t.Selects before st ∨
          st = .enter ∧ t.evaluates before .enter = true) := by
  have hlast : ∀ before st, t.evaluates (before ++ [st]) .enter = true ↔
      st.isClick = true ∨ t.Selects before st ∨
        st = .enter ∧ t.evaluates before .enter = true := by
    intro before st
    rw [evaluates_eq ht, evaluates_eq ht, selects_iff ht, Screen.run_concat]
    exact Screen.focus_step_iff _ st
  constructor
  · intro h
    rcases List.eq_nil_or_concat steps with rfl | ⟨before, st, rfl⟩
    · rw [evaluates_eq ht] at h
      exact nomatch h
    · rw [List.concat_eq_append] at h
      exact ⟨before, st, List.concat_eq_append, (hlast before st).1 h⟩
  · rintro ⟨before, st, rfl, h⟩
    exact (hlast before st).2 h

/-- **WHEN ENTER EVALUATES.**  In any session, Enter evaluates exactly right
behind a click on a button that is no preset, a change of the selector, or an
Enter that evaluated.  Then it does what a click on `=` does, and otherwise
nothing.  So of several Enters in a row all evaluate or none; what has been
evaluated stays as it is, however often it is evaluated again; and once the
promise of the focus is lost, nothing evaluates before the next click or change
of the selector.

A session begins with `Screen.opened`, behind the first frames, where the promise
of the focus from the start-up is already spent: Enter as the first step
evaluates nothing. -/
theorem enter_evaluates (ht : t.DropsFocus) :
    (∀ steps, t.play steps = Screen.run steps) ∧
    (∀ steps, t.evaluates steps .enter = true ↔
      ∃ before st, steps = before ++ [st] ∧
        (st.isClick = true ∨ t.Selects before st ∨
          st = .enter ∧ t.evaluates before .enter = true)) ∧
    (∀ steps, t.evaluates steps .enter = true →
      t.play (steps ++ [.enter]) = t.play (steps ++ [.press .equals])) ∧
    (∀ steps, t.evaluates steps .enter = false →
      t.play (steps ++ [.enter]) = t.play steps) ∧
    (∀ steps n, t.evaluates (steps ++ List.replicate n .enter) .enter =
      t.evaluates steps .enter) ∧
    (∀ steps st more, t.evaluates steps st = true →
      (∀ st' ∈ more, st' = .enter ∨ st' = .press .equals) →
      t.play (steps ++ [st] ++ more) = t.play (steps ++ [st])) ∧
    (∀ steps more, (t.play steps).focus = false →
      (∀ front st behind, more = front ++ st :: behind →
        st.isClick = false ∧ ¬ t.Selects (steps ++ front) st) →
      ∀ front st behind, more = front ++ st :: behind →
        t.evaluates (steps ++ front) st = false) := by
  simp only [play_eq ht]
  refine ⟨fun _ => trivial, evaluates_enter_iff ht, ?_, ?_, ?_, ?_, ?_⟩
  · intro steps h
    rw [evaluates_eq ht] at h
    rw [Screen.run_concat, Screen.run_concat, Screen.step_of_evaluates h, Screen.step_equals]
  · intro steps h
    rw [evaluates_eq ht] at h
    have hfocus : ¬ (Screen.run steps).focus = true := Bool.eq_false_iff.1 h
    rw [Screen.run_concat, Screen.step_enter, if_neg hfocus]
  · intro steps n
    rw [evaluates_eq ht, evaluates_eq ht]
    exact Screen.focus_run_enters steps n
  · intro steps st more h hmore
    rw [evaluates_eq ht] at h
    have hrun : Screen.run (steps ++ [st]) = (Screen.run steps).evaluate := by
      rw [Screen.run_concat, Screen.step_of_evaluates h]
    rw [Screen.run_evaluated hrun more hmore, hrun]
  · intro steps more hlost hmore front st behind heq
    rw [evaluates_eq ht]
    refine Screen.evaluates_eq_false hlost (fun front' st' behind' heq' => ?_) heq
    obtain ⟨hclick, hselects⟩ := hmore front' st' behind' heq'
    rw [selects_iff ht] at hselects
    exact ⟨hclick, Bool.eq_false_iff.2 hselects⟩

/-- Where the toolkit gives the focus to the field that asked for it, Enter
evaluates behind a click on `=`, and behind a glance at the screen it does not. -/
theorem enter_evaluates_equals :
    (⟨fun _ asked => asked⟩ : Toolkit).DropsFocus ∧
    (⟨fun _ asked => asked⟩ : Toolkit).evaluates [.setFormula "2", .press .equals] .enter = true ∧
    (⟨fun _ asked => asked⟩ : Toolkit).play [.setFormula "2", .press .equals, .look, .enter] =
      (⟨fun _ asked => asked⟩ : Toolkit).play [.setFormula "2", .press .equals, .look] := by
  have ht : (⟨fun _ asked => asked⟩ : Toolkit).DropsFocus := fun _ _ _ => rfl
  obtain ⟨-, hiff, -, hnothing, -⟩ := enter_evaluates ht
  refine ⟨ht, ?_, ?_⟩
  · exact (hiff _).2 ⟨[.setFormula "2"], .press .equals, rfl, .inl rfl⟩
  · exact hnothing [.setFormula "2", .press .equals, .look] (by rw [evaluates_eq ht]; rfl)

end Toolkit

end FormulaDesk
