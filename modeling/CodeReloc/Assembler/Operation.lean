import CodeReloc.Assembler.Basic

set_option autoImplicit false

/-!
# Operations of an assembler

What can be asked of an assembler until its work is complete, as data. An operation that exceeds the
limit leaves the assembler as it then is, and another operation may follow.
-/

namespace CodeReloc

/-- A request to an assembler. -/
inductive Operation where
  | emitByte (value : UInt8)
  | emitWord32 (value : UInt32)
  | emitWord64 (value : UInt64)
  | emit (bytes : ByteArray)
  | align (multiple : Nat)
  | keepGap
  | record (mode : Mode) (data : Int64)
  | comment (text : String)
  | deoptReason (reason : UInt8) (position : Int32)
  | generatorContinuation
  | debugBreakSlot (mode : Mode) (arguments : Int32)
  | constPool (size : Int32)
  | veneerPool (size : Int32)
  | externalReference (address : UInt64)
  | announce (position : Int32)
  | announceStatement (position : Int32)
  | writePositions
  | overwrite (offset : Nat) (bytes : ByteArray)
  deriving DecidableEq

namespace Operation

/-- Does what is asked for. -/
def run : Operation → Assembly Unit
  | emitByte value => Assembler.emitByte value
  | emitWord32 value => Assembler.emitWord32 value
  | emitWord64 value => Assembler.emitWord64 value
  | emit bytes => Assembler.emit bytes
  | align multiple => Assembler.align multiple
  | keepGap => Assembler.keepGap
  | record mode data => Assembler.record mode data
  | comment text => Assembler.comment text
  | deoptReason reason position => Assembler.deoptReason reason position
  | generatorContinuation => Assembler.generatorContinuation
  | debugBreakSlot mode arguments => Assembler.debugBreakSlot mode arguments
  | constPool size => Assembler.constPool size
  | veneerPool size => Assembler.veneerPool size
  | externalReference address => Assembler.externalReference address
  | announce position => Assembler.announce position
  | announceStatement position => Assembler.announceStatement position
  | writePositions => discard Assembler.writePositions
  | overwrite offset bytes => modify (Assembler.overwrite offset bytes)

end Operation

end CodeReloc
