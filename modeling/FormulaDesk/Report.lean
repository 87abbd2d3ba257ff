/-
  FormulaDesk.Report
  ──────────────────────────────────────
  **REPORTS.**

  What the desk says after a calculation: nothing yet, why there is no value,
  or the value with the trace that leads to it.  A value is shown with a
  fixed number of decimal places.  The parts of a report are kept side by
  side; that they always belong together is a law of sessions.
-/
import FormulaDesk.Calculation

namespace FormulaDesk

/-- A value as the desk shows it. -/
def shown (decimals : Nat) (value : Float) : String :=
  match Number.Double.ofFloat value with
  | .finite v => .ofList (v.toFixed decimals)
  | .infinite negative => if negative then "-∞" else "∞"
  | .undefined => "indéfini"

/-- What the desk reports. -/
structure Report where
  /-- The shown value, empty without one. -/
  result : String
  /-- The message of a failure, empty without one. -/
  failure : String
  /-- There is a value to be shown. -/
  available : Bool
  /-- The trace of the value, empty without one. -/
  trace : Trace
deriving DecidableEq

namespace Report

/-- Nothing has been reported. -/
def blank : Report := ⟨"", "", false, .empty⟩

/-- There is no value, and this is why. -/
def ofFailure (message : String) : Report := ⟨"", message, false, .empty⟩

/-- A value with its trace. -/
def ofCalculation (decimals : Nat) (c : Calculation) : Report :=
  ⟨shown decimals c.value, "", true, c.trace⟩

end Report

end FormulaDesk
