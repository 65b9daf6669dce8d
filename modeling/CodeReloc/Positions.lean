import CodeReloc.Record

set_option autoImplicit false

/-!
# Announced positions

While code is generated, the place in the source text is announced as it changes. A recorder
remembers what was announced and what has reached the stream, and says which records are still
missing. A statement position is written before a position, and counts as a written position too:
the position is written only where it then still differs.
-/

namespace CodeReloc

/-- Announced and written positions of both kinds. -/
structure Positions where
  current : Int32
  currentStatement : Int32
  written : Int32
  writtenStatement : Int32
  deriving DecidableEq, Repr

namespace Positions

/-- Nothing announced, nothing written. -/
def start : Positions := ⟨noPosition, noPosition, noPosition, noPosition⟩

/-- Announces a position. -/
def announce (p : Positions) (position : Int32) : Except Fault Positions := do
  require (0 ≤ position) (.invalidPosition position)
  return { p with current := position }

/-- Announces a statement position. -/
def announceStatement (p : Positions) (position : Int32) : Except Fault Positions := do
  require (0 ≤ position) (.invalidPosition position)
  return { p with currentStatement := position }

/-- The state after the statement position has been written. -/
def writeStatement (p : Positions) : Positions :=
  { p with written := p.currentStatement, writtenStatement := p.currentStatement }

/-- The state after the position has been written. -/
def writePosition (p : Positions) : Positions := { p with written := p.current }

/-- The missing statement position, if it is missing. -/
def missingStatement (p : Positions) : List (Mode × Int32) × Positions :=
  if p.currentStatement = p.writtenStatement then ([], p)
  else ([(.statementPosition, p.currentStatement)], p.writeStatement)

/-- The missing position, if it is missing. -/
def missingPosition (p : Positions) : List (Mode × Int32) × Positions :=
  if p.current = p.written then ([], p)
  else ([(.position, p.current)], p.writePosition)

/-- The records that are missing, in the order in which they are to be written, and the state
after they have been. -/
def takeMissing (p : Positions) : List (Mode × Int32) × Positions :=
  let (statement, p) := p.missingStatement
  let (position, p) := p.missingPosition
  (statement ++ position, p)

end Positions

end CodeReloc
