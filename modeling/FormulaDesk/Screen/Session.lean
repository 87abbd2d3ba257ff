/-
  FormulaDesk.Screen.Session
  ──────────────────────────────────────
  **SESSIONS.**

  A session is a list of steps, each followed by one frame.  Within a frame
  the order is fixed: Escape and the presets come first; then the formula
  field takes the focus that it was promised, and the promise is spent; then
  Enter, and last the other buttons and the selector, whose promise waits for
  the next frame.

  A field drops the focus on Enter unless it asked for it in that same frame.
  So Enter evaluates exactly when the frame began with a promise.
-/
import FormulaDesk.Screen

namespace FormulaDesk

/-- What happens before or in a frame. -/
inductive Step where
  | setFormula (text : String)
  | setValues (text : String)
  | setDecimals (n : Nat)
  | load (p : Preset)
  | fail (message : String)
  /-- The selector of the number of places is moved to a number. -/
  | select (n : Int)
  | press (b : Button)
  | escape
  | enter
  /-- Nothing changes. -/
  | look
deriving DecidableEq

namespace Screen

/-- The formula field takes the focus: the promise is spent. -/
def takeFocus (s : Screen) : Screen := { s with focus := false }

/-- The number of places that the selector accepts. -/
def selectable (n : Int) : Nat := min n.toNat maxDecimals

/-- A step and the frame that follows it. -/
def step (s : Screen) : Step → Screen
  | .setFormula text => { s with formula := text }.takeFocus
  | .setValues text => { s with values := text }.takeFocus
  | .setDecimals n => (s.setDecimals n).takeFocus
  | .load p => (s.load p).takeFocus
  | .fail message => (s.fail message).takeFocus
  | .select n =>
    let s := s.takeFocus
    if selectable n = s.decimals then s else s.setDecimals (selectable n)
  | .press (.preset p) => (s.load p).takeFocus
  | .press b => s.takeFocus.press b
  | .escape => s.clearFormula.takeFocus
  | .enter => if s.focus then s.takeFocus.evaluate else s.takeFocus
  | .look => s.takeFocus

/-- The screen when a session begins: its first frames are over, and the promise
of the focus from the start-up is spent. -/
def opened : Screen := new.takeFocus

/-- The screen after every step of a session. -/
def run (steps : List Step) : Screen := steps.foldl step opened

/-- One more step. -/
theorem run_concat (steps : List Step) (st : Step) :
    run (steps ++ [st]) = (run steps).step st := by
  simp [run]

/-- Enter leaves every field but the report as it is. -/
theorem step_enter_fields (s : Screen) :
    (s.step .enter).formula = s.formula ∧ (s.step .enter).values = s.values ∧
      (s.step .enter).decimals = s.decimals := by
  unfold step
  dsimp only
  split <;> exact ⟨rfl, rfl, rfl⟩

end Screen

end FormulaDesk
