import FormulaDesk.Assembly
import FormulaDesk.Calculation
import FormulaDesk.Fault
import FormulaDesk.Formula
import FormulaDesk.Known
import FormulaDesk.Lexeme
import FormulaDesk.Number.Binary64
import FormulaDesk.Number.Decimal
import FormulaDesk.Number.Reading
import FormulaDesk.Number.Shortest
import FormulaDesk.Operation
import FormulaDesk.Piece
import FormulaDesk.Product
import FormulaDesk.Proofs.Closing
import FormulaDesk.Proofs.Coherence
import FormulaDesk.Proofs.Compiled
import FormulaDesk.Proofs.Composition
import FormulaDesk.Proofs.Decoding
import FormulaDesk.Proofs.Deleting
import FormulaDesk.Proofs.Derives
import FormulaDesk.Proofs.Descent
import FormulaDesk.Proofs.Ends
import FormulaDesk.Proofs.Entries
import FormulaDesk.Proofs.Explicit
import FormulaDesk.Proofs.FirstFault
import FormulaDesk.Proofs.Focus
import FormulaDesk.Proofs.Grammar
import FormulaDesk.Proofs.History
import FormulaDesk.Proofs.Joints
import FormulaDesk.Proofs.Leftmost
import FormulaDesk.Proofs.Levels
import FormulaDesk.Proofs.Munch
import FormulaDesk.Proofs.Names
import FormulaDesk.Proofs.Nearest
import FormulaDesk.Proofs.OpenLists
import FormulaDesk.Proofs.Outcome
import FormulaDesk.Proofs.Parted
import FormulaDesk.Proofs.Preorder
import FormulaDesk.Proofs.Products
import FormulaDesk.Proofs.Reading
import FormulaDesk.Proofs.Recognition
import FormulaDesk.Proofs.Reentry
import FormulaDesk.Proofs.Rendering
import FormulaDesk.Proofs.Respacing
import FormulaDesk.Proofs.Scanner
import FormulaDesk.Proofs.Segments
import FormulaDesk.Proofs.Separated
import FormulaDesk.Proofs.Sequence
import FormulaDesk.Proofs.Spelling
import FormulaDesk.Proofs.Splits
import FormulaDesk.Proofs.Stages
import FormulaDesk.Proofs.Stars
import FormulaDesk.Proofs.Substitution
import FormulaDesk.Proofs.Terminals
import FormulaDesk.Proofs.Traces
import FormulaDesk.Proofs.Trim
import FormulaDesk.Proofs.Typing
import FormulaDesk.Proofs.Undoing
import FormulaDesk.Proofs.Values
import FormulaDesk.Proofs.Writing
import FormulaDesk.Report
import FormulaDesk.Screen
import FormulaDesk.Screen.Entry
import FormulaDesk.Screen.Session
import FormulaDesk.Symbol
import FormulaDesk.Text.Blank
import FormulaDesk.Token
