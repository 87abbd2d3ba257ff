/-
  FormulaDesk.Screen
  ──────────────────────────────────────
  **THE DESK'S SCREEN.**

  Two fields, a report, the number of decimal places, and whether the formula
  field has been promised the focus.  Most actions promise it, so that typing
  can go on; the next frame keeps the promise.

    • `Screen.evaluate` — the report on the formula under the known values;
    • `Screen.press` — what a button does;
    • `Screen.labels` — the texts that the screen shows.
-/
import FormulaDesk.Report
import FormulaDesk.Screen.Entry

namespace FormulaDesk

/-! ## §1. The state. -/

/-- The number of decimal places at the start. -/
def defaultDecimals : Nat := 6

/-- Further decimal places of a double say nothing. -/
def maxDecimals : Nat := 17

/-- What the screen holds. -/
structure Screen where
  formula : String
  values : String
  report : Report
  decimals : Nat
  /-- The formula field gets the focus in the next frame. -/
  focus : Bool
deriving DecidableEq

/-- Formulas that are ready for use, with example values. -/
inductive Preset where
  | position
  | duration
deriving DecidableEq

namespace Preset

/-- Every preset, in the order of their buttons. -/
def all : List Preset := [.position, .duration]

/-- What is written on the button of a preset. -/
def name : Preset → String
  | .position => "MRU : position"
  | .duration => "MRU : temps"

/-- The formula of a preset. -/
def formula : Preset → String
  | .position => "x0 + v*tf"
  | .duration => "(xf - x0)/v"

/-- The example values of a preset. -/
def values : Preset → String
  | .position => "x0 = 0, v = 1, tf = 5"
  | .duration => "xf = 10, x0 = 0, v = 2"

end Preset

/-- The buttons of the screen. -/
inductive Button where
  | preset (p : Preset)
  | clear
  | clearReport
  | clearAll
  | deleteLast
  | equals
  | key (k : Key)
deriving DecidableEq

namespace Button

/-- Every button. -/
def all : List Button :=
  Preset.all.map .preset ++ [.clear, .clearReport, .clearAll, .deleteLast, .equals] ++
    Key.all.map .key

/-- What is written on a button. -/
def label : Button → String
  | .preset p => p.name
  | .clear => "C"
  | .clearReport => "CLR"
  | .clearAll => "AC"
  | .deleteLast => "DEL"
  | .equals => "="
  | .key k => k.label

/-- The button with a label. -/
def ofLabel? (label : String) : Option Button := all.find? (·.label == label)

end Button

namespace Screen

/-- A new screen: typing can begin at once. -/
def new : Screen := ⟨"", "", .blank, defaultDecimals, true⟩

/-! ## §2. Actions. -/

/-- Empties the formula and leaves the report. -/
def clearFormula (s : Screen) : Screen := { s with formula := "", focus := true }

/-- Empties the report and leaves the fields. -/
def clearReport (s : Screen) : Screen := { s with report := .blank, focus := true }

/-- Empties everything and goes back to the default number of places. -/
def clearAll (s : Screen) : Screen :=
  { s with formula := "", values := "", report := .blank, decimals := defaultDecimals,
           focus := true }

/-- Takes a preset with its values; the report goes. -/
def load (s : Screen) (p : Preset) : Screen :=
  { s with formula := p.formula, values := p.values, report := .blank, focus := true }

/-- Reports a failure, which takes the place of any result. -/
def fail (s : Screen) (message : String) : Screen :=
  { s with report := .ofFailure message, focus := true }

/-- Sets the number of places, up to `maxDecimals`. -/
def setDecimals (s : Screen) (n : Nat) : Screen :=
  { s with decimals := min n maxDecimals, focus := true }

/-- The report on a formula: a fault of the known values comes first. -/
def reportOn (formula values : String) (decimals : Nat) : Report :=
  match KnownValues.ofText values with
  | .error fault => .ofFailure fault.message
  | .ok known =>
    match calculate known formula with
    | .error fault => .ofFailure fault.message
    | .ok c => .ofCalculation decimals c

/-- Reports on the formula as it stands. -/
def evaluate (s : Screen) : Screen :=
  { s with report := reportOn s.formula s.values s.decimals, focus := true }

/-- Changes the formula by its characters. -/
def editFormula (s : Screen) (edit : List Char → List Char) : Screen :=
  { s with formula := .ofList (edit s.formula.toList), focus := true }

/-- Editing the formula leaves the report. -/
@[simp] theorem report_editFormula (s : Screen) (edit : List Char → List Char) :
    (s.editFormula edit).report = s.report := by
  simp only [editFormula]

@[simp] theorem decimals_editFormula (s : Screen) (edit : List Char → List Char) :
    (s.editFormula edit).decimals = s.decimals := by
  simp only [editFormula]

/-- What a button does. -/
def press (s : Screen) : Button → Screen
  | .preset p => s.load p
  | .clear => s.clearFormula
  | .clearReport => s.clearReport
  | .clearAll => s.clearAll
  | .deleteLast => s.editFormula Entry.deleteLast
  | .equals => s.evaluate
  | .key k => s.editFormula (Entry.type · k)

/-! ## §3. The texts on the screen. -/

/-- The places of the keypad that have no key. -/
def keypadGaps : Nat := 4

/-- The texts that the screen shows beside its buttons and fields, in their
order: titles, the failure if there is one, the result, the trace. -/
def labels (s : Screen) : List String :=
  ["Fisica", "Cinématique :", "Formule :", "Valeurs connues :", "Affichage :"] ++
    List.replicate keypadGaps "" ++
    (if s.report.failure = "" then [] else [s.report.failure]) ++
    ["Résultat :", if s.report.available then s.report.result else "indisponible",
     "Multiplications :", s.report.trace.products,
     "Jetons :", s.report.trace.tokens,
     "Préfixe :", s.report.trace.sequence,
     "Note :", s.report.trace.note]

end Screen

end FormulaDesk
