/-
  FormulaDesk.Known
  ──────────────────────────────────────
  **KNOWN VALUES.**

  The values that names have in a calculation.  They are typed as
  `name = number` pieces between commas, semicolons or line ends; blank
  pieces count for nothing, and a name given twice has its last value.  The
  leftmost piece that is not of this form is the fault, and then nothing is
  known.
-/
import Std.Data.ExtTreeMap
import FormulaDesk.Fault
import FormulaDesk.Lexeme
import FormulaDesk.Number.Reading
import FormulaDesk.Text.Blank

namespace FormulaDesk

/-- The values of some names.  Two of them are equal as soon as they give
every name the same value. -/
abbrev KnownValues := Std.ExtTreeMap String Float

namespace KnownValues

/-- The values of a list of entries; the last one of a name wins. -/
def ofEntries (entries : List (String × Float)) : KnownValues :=
  entries.foldl (fun known (name, value) => known.insert name value) ∅

/-- **The last entry of a name wins.** -/
theorem getElem?_ofEntries_concat (entries : List (String × Float)) (name : String)
    (value : Float) (wanted : String) :
    (ofEntries (entries ++ [(name, value)]))[wanted]? =
      if name = wanted then some value else (ofEntries entries)[wanted]? := by
  unfold ofEntries
  rw [List.foldl_append]
  simp only [List.foldl_cons, List.foldl_nil, Std.ExtTreeMap.getElem?_insert]
  by_cases h : name = wanted <;> simp [h]

/-- A character between two pieces. -/
def isSeparator (c : Char) : Bool := c == ',' || c == ';' || c == '\n'

/-- The pieces of a text that are not blank, without the blanks at their
ends. -/
def pieces (text : List Char) : List (List Char) :=
  ((text.splitOnP isSeparator).map Text.trim).filter (· ≠ [])

/-- The entry that a piece writes: a name before the first `=`, a number
behind it. -/
def readEntry (piece : List Char) : Except KnownFault (String × Float) :=
  match piece.dropWhile (· ≠ '=') with
  | [] => .error (.missingEquals (.ofList piece))
  | _ :: behind =>
    let name := Text.trim (piece.takeWhile (· ≠ '='))
    let value := Text.trim behind
    if isName name then
      match Number.number? value with
      | some v => .ok (.ofList name, v)
      | none => .error (.invalidValue (.ofList name) (.ofList value))
    else .error (.invalidName (.ofList name))

/-- The known values that a text gives. -/
def ofText (text : String) : Except KnownFault KnownValues :=
  ((pieces text.toList).mapM readEntry).map ofEntries

end KnownValues

end FormulaDesk
