import CodeReloc.Positions
import CodeReloc.Stream.Writer

set_option autoImplicit false

/-!
# The arena of an assembler

An assembler keeps one buffer for one piece of code. Instructions grow upwards from its start, the
relocation stream grows downwards from its end, and the bytes between the two are free. When the
free part gets small the buffer is made larger: it doubles while it is below one mebibyte and grows
by one mebibyte from there on, up to a limit.

`grownSize` says how large the buffer becomes for a request, and whether the limit is in the way.
-/

namespace CodeReloc

/-- The free bytes that an assembler keeps: no write of a record takes more. -/
def gap : Nat := 32

/-- The smallest buffer. -/
def minimalSize : Nat := 4 * 1024

/-- From this size on a buffer grows by this amount. -/
def doublingLimit : Nat := 1024 * 1024

/-- What an assembler is told at the start. -/
structure AssemblerOptions where
  initialSize : Nat
  /-- The size beyond which the buffer does not grow. -/
  maxSize : Nat
  /-- Whether comments are recorded. -/
  comments : Bool
  /-- Whether deopt reasons are recorded for a trace. -/
  traceDeopt : Bool
  /-- Whether deopt reasons are recorded for a profile. -/
  profiling : Bool
  deriving DecidableEq, Repr

namespace AssemblerOptions

/-- Four kibibytes at first, at most 256 mebibytes, and nothing recorded that is optional. -/
def standard : AssemblerOptions := ⟨minimalSize, 256 * 1024 * 1024, false, false, false⟩

/-- Deopt reasons are recorded. -/
def deoptReasons (o : AssemblerOptions) : Bool := o.traceDeopt || o.profiling

end AssemblerOptions

/-- The next size of a buffer that is too small. -/
def nextSize (size : Nat) : Nat :=
  if size < doublingLimit then size * 2 else size + doublingLimit

/-- The first size, from `size` on, that holds the `needed` bytes. If the limit is met before, the
size reached, with the size that would have been next. -/
def grownSize (limit needed size : Nat) : Nat × Option LimitExceeded :=
  if needed ≤ size then
    (size, none)
  else if size < nextSize size ∧ nextSize size ≤ limit then
    grownSize limit needed (nextSize size)
  else
    (size, some ⟨nextSize size, limit⟩)
termination_by limit - size

/-- A code buffer with its instructions, its stream and what goes with them. -/
structure Assembler where
  options : AssemblerOptions
  buffer : ByteArray
  /-- Where the next instruction byte goes. -/
  pc : Nat
  writer : Writer
  /-- The comment table. -/
  comments : Array String
  positions : Positions
  deriving DecidableEq

namespace Assembler

/-- An empty assembler. -/
def new (options : AssemblerOptions) : Assembler :=
  let size := max options.initialSize minimalSize
  ⟨options, copies size 0, 0, .new size, #[], .start⟩

/-- The free bytes between instructions and stream. -/
def space (a : Assembler) : Except Fault Nat := do
  require (a.pc ≤ a.writer.pos) .breach
  return a.writer.pos - a.pc

/-- The bytes of the stream. -/
def streamSize (a : Assembler) : Except Fault Nat := a.writer.size a.buffer.size

/-- The instructions. -/
def instructions (a : Assembler) : ByteArray := a.buffer.extract 0 a.pc

/-- Moves instructions and stream into a buffer of another size, with zeros between them. -/
def resize (a : Assembler) (streamSize size : Nat) : Assembler :=
  let free := size - a.pc - streamSize
  let back := a.buffer.extract (a.buffer.size - streamSize) a.buffer.size
  { a with
    buffer := a.instructions ++ copies free 0 ++ back
    writer := a.writer.moveTo (size - streamSize) a.writer.encoder.lastPc }

end Assembler

end CodeReloc
