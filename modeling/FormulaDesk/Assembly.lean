/-
  FormulaDesk.Assembly
  ──────────────────────────────────────
  **ASSEMBLING A SEQUENCE.**

  An operator-first sequence becomes an operation atom by atom.  The stack
  holds the operations under construction, the latest on top, above nothing
  at all while no atom has come.  A shell goes onto the stack; a whole
  operation fills the first free slot of the shell below it, and if that was
  the last slot, the shell is whole in its turn and falls too.

  A refused atom leaves the stack as it is.
-/
import FormulaDesk.Operation

namespace FormulaDesk

/-- The operations under construction, the latest first. -/
structure Assembly where
  stack : List Operation

namespace Assembly

/-- Before the first atom. -/
def start : Assembly := ⟨[.empty]⟩

/-- The stack after a whole operation has fallen onto it. -/
def settle (whole : Operation) : List Operation → List Operation
  | [] => [whole]
  | .empty :: below => whole :: below
  | shell :: below =>
    let filled := shell.fill whole
    if filled.isFilled then settle filled below else filled :: below

/-- The stack under the next shell: nothing at all makes room for it. -/
def base : List Operation → List Operation
  | .empty :: below => below
  | stack => stack

/-- One more atom, unless the sequence is already whole or too many shells
are open. -/
def push (a : Assembly) (atom : Atom) : Except SequenceFault Assembly :=
  if (a.stack.head?.map Operation.isFilled).getD false then
    .error (.trailingAtom atom.text)
  else
    let operation := Operation.ofAtom atom
    if operation.isFilled then .ok ⟨settle operation a.stack⟩
    else if maxNesting ≤ a.stack.length then .error .nestingTooDeep
    else .ok ⟨operation :: base a.stack⟩

/-- The operation of the whole sequence. -/
def build (a : Assembly) : Except SequenceFault Operation :=
  match a.stack with
  | [] => .error .empty
  | .empty :: _ => .error .empty
  | top :: below =>
    if below.isEmpty && top.isFilled then .ok top
    else .error (.unfilledOperand top.symbol)

/-- The same step on a stack that stays: it goes on from where the atom left
it, taken or refused. -/
def offer (atom : Atom) : EStateM SequenceFault Assembly Unit := do
  if ((← get).stack.head?.map Operation.isFilled).getD false then
    throw (.trailingAtom atom.text)
  let operation := Operation.ofAtom atom
  if operation.isFilled then
    modify fun a => ⟨settle operation a.stack⟩
  else
    if maxNesting ≤ (← get).stack.length then
      throw .nestingTooDeep
    modify fun a => ⟨base a.stack⟩
    modify fun a => ⟨operation :: a.stack⟩

/-- Atoms offered one after the other, whatever the answers: the refusals, and
the assembly in the end. -/
def offerAll (a : Assembly) : List Atom → List (Option SequenceFault) × Assembly
  | [] => ([], a)
  | atom :: atoms =>
    match offer atom a with
    | .ok _ next =>
      let (refusals, last) := offerAll next atoms
      (none :: refusals, last)
    | .error fault next =>
      let (refusals, last) := offerAll next atoms
      (some fault :: refusals, last)

end Assembly

namespace Operation

/-- The operation of an operator-first sequence. -/
def ofAtoms (atoms : List Atom) : Except SequenceFault Operation := do
  let a ← atoms.foldlM Assembly.push .start
  a.build

/-- The operation of a sequence written with blanks between the atoms. -/
def ofText (text : String) : Except SequenceFault Operation :=
  ofAtoms ((Text.words text.toList).map fun w => .symbol (.ofList w))

end Operation

/-- The value of an operator-first sequence. -/
def evaluateAtoms (known : KnownValues) (atoms : List Atom) : Except SequenceFault Float := do
  let o ← Operation.ofAtoms atoms
  o.evaluate known

end FormulaDesk
