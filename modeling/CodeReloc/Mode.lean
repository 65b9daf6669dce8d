import CodeReloc.Instances

set_option autoImplicit false

/-!
# Relocation modes

A relocation record says what lies at one place in generated code. Its mode is the kind of thing
that lies there. Every mode has a code, the number that stands for it in a stream, and the codes
are ordered so that each family of modes that is asked for often is an interval: code targets
first, then the other modes that hold heap pointers, then the rest of the modes that move with the
code.

Two names belong to a mode. `Mode.name` is the text of a listing, `Mode.label` is the identifier
that stands for the mode in a message about the mode itself.

Main statements: `ofCode?_code` and `code_of_ofCode?`, so codes and modes determine each other.
-/

namespace CodeReloc

/-- What lies at a place in generated code. -/
inductive Mode where
  | codeTarget
  | codeTargetWithId
  | constructCall
  | debuggerStatement
  | embeddedObject
  | cell
  | runtimeEntry
  | comment
  | position
  | statementPosition
  | debugBreakSlotAtPosition
  | debugBreakSlotAtReturn
  | debugBreakSlotAtCall
  | debugBreakSlotAtConstructCall
  | externalReference
  | internalReference
  | internalReferenceEncoded
  | generatorContinuation
  | constPool
  | veneerPool
  | deoptReason
  | pcJump
  | none32
  | none64
  | codeAgeSequence
  deriving DecidableEq, Repr, Inhabited

/-- What follows the pc byte of a record in its long form. -/
inductive Payload where
  | none
  | int
  | pointer
  deriving DecidableEq, Repr

namespace Mode

/-- All modes, in the order of their codes. -/
def all : List Mode :=
  [codeTarget, codeTargetWithId, constructCall, debuggerStatement, embeddedObject, cell,
    runtimeEntry, comment, position, statementPosition, debugBreakSlotAtPosition,
    debugBreakSlotAtReturn, debugBreakSlotAtCall, debugBreakSlotAtConstructCall,
    externalReference, internalReference, internalReferenceEncoded, generatorContinuation,
    constPool, veneerPool, deoptReason, pcJump, none32, none64, codeAgeSequence]

/-- The number that stands for a mode. Code 22 is not used. -/
def code : Mode → Nat
  | codeTarget => 0
  | codeTargetWithId => 1
  | constructCall => 2
  | debuggerStatement => 3
  | embeddedObject => 4
  | cell => 5
  | runtimeEntry => 6
  | comment => 7
  | position => 8
  | statementPosition => 9
  | debugBreakSlotAtPosition => 10
  | debugBreakSlotAtReturn => 11
  | debugBreakSlotAtCall => 12
  | debugBreakSlotAtConstructCall => 13
  | externalReference => 14
  | internalReference => 15
  | internalReferenceEncoded => 16
  | generatorContinuation => 17
  | constPool => 18
  | veneerPool => 19
  | deoptReason => 20
  | pcJump => 21
  | none32 => 23
  | none64 => 24
  | codeAgeSequence => 25

/-- The mode with a given code, if there is one. -/
def ofCode? : Nat → Option Mode
  | 0 => some codeTarget
  | 1 => some codeTargetWithId
  | 2 => some constructCall
  | 3 => some debuggerStatement
  | 4 => some embeddedObject
  | 5 => some cell
  | 6 => some runtimeEntry
  | 7 => some comment
  | 8 => some position
  | 9 => some statementPosition
  | 10 => some debugBreakSlotAtPosition
  | 11 => some debugBreakSlotAtReturn
  | 12 => some debugBreakSlotAtCall
  | 13 => some debugBreakSlotAtConstructCall
  | 14 => some externalReference
  | 15 => some internalReference
  | 16 => some internalReferenceEncoded
  | 17 => some generatorContinuation
  | 18 => some constPool
  | 19 => some veneerPool
  | 20 => some deoptReason
  | 21 => some pcJump
  | 23 => some none32
  | 24 => some none64
  | 25 => some codeAgeSequence
  | _ => none

@[simp] theorem ofCode?_code (m : Mode) : ofCode? m.code = some m := by
  cases m <;> rfl

theorem code_of_ofCode? {n : Nat} {m : Mode} (h : ofCode? n = some m) : m.code = n := by
  unfold ofCode? at h
  split at h <;> cases h <;> rfl

theorem code_injective {a b : Mode} (h : a.code = b.code) : a = b :=
  Option.some.inj (by rw [← ofCode?_code a, h, ofCode?_code])

theorem code_lt (m : Mode) : m.code < 26 := by
  cases m <;> decide

/-- Codes below this one are the modes of the stream itself; those above mark things that are no
part of a stream. -/
def streamCodes : Nat := 22

/-- The last code target. -/
def lastCodeTarget : Mode := debuggerStatement

/-- The last mode that holds a pointer the collector moves. -/
def lastCollected : Mode := cell

/-- The first mode that describes a place in the instructions. -/
def firstReal : Mode := codeTarget

/-- The last mode that describes a place in the instructions. -/
def lastReal : Mode := veneerPool

/-- The text that names the mode in a listing. -/
def name : Mode → String
  | codeTarget => "code target"
  | codeTargetWithId => "code target with id"
  | constructCall => "code target (js construct call)"
  | debuggerStatement => "debugger statement"
  | embeddedObject => "embedded object"
  | cell => "property cell"
  | runtimeEntry => "runtime entry"
  | comment => "comment"
  | position => "position"
  | statementPosition => "statement position"
  | debugBreakSlotAtPosition => "debug break slot at position"
  | debugBreakSlotAtReturn => "debug break slot at return"
  | debugBreakSlotAtCall => "debug break slot at call"
  | debugBreakSlotAtConstructCall => "debug break slot at construct call"
  | externalReference => "external reference"
  | internalReference => "internal reference"
  | internalReferenceEncoded => "encoded internal reference"
  | generatorContinuation => "generator continuation"
  | constPool => "constant pool"
  | veneerPool => "veneer pool"
  | deoptReason => "deopt reason"
  | pcJump => "pc jump"
  | none32 => "no reloc 32"
  | none64 => "no reloc 64"
  | codeAgeSequence => "code age sequence"

/-- The identifier of the mode. -/
def label : Mode → String
  | codeTarget => "CodeTarget"
  | codeTargetWithId => "CodeTargetWithId"
  | constructCall => "ConstructCall"
  | debuggerStatement => "DebuggerStatement"
  | embeddedObject => "EmbeddedObject"
  | cell => "Cell"
  | runtimeEntry => "RuntimeEntry"
  | comment => "Comment"
  | position => "Position"
  | statementPosition => "StatementPosition"
  | debugBreakSlotAtPosition => "DebugBreakSlotAtPosition"
  | debugBreakSlotAtReturn => "DebugBreakSlotAtReturn"
  | debugBreakSlotAtCall => "DebugBreakSlotAtCall"
  | debugBreakSlotAtConstructCall => "DebugBreakSlotAtConstructCall"
  | externalReference => "ExternalReference"
  | internalReference => "InternalReference"
  | internalReferenceEncoded => "InternalReferenceEncoded"
  | generatorContinuation => "GeneratorContinuation"
  | constPool => "ConstPool"
  | veneerPool => "VeneerPool"
  | deoptReason => "DeoptReason"
  | pcJump => "PcJump"
  | none32 => "None32"
  | none64 => "None64"
  | codeAgeSequence => "CodeAgeSequence"

/-- The mode with a given identifier, if there is one. -/
def ofLabel? (label : String) : Option Mode :=
  all.find? fun m => m.label == label

/-! ## Single modes -/

/-- The mode is the given one. Each test of a single mode is this one. -/
def is (m given : Mode) : Bool := m == given

@[simp] theorem is_iff {m given : Mode} : m.is given = true ↔ m = given := beq_iff_eq

def isEmbeddedObject (m : Mode) : Bool := m.is embeddedObject

def isCell (m : Mode) : Bool := m.is cell

def isRuntimeEntry (m : Mode) : Bool := m.is runtimeEntry

def isComment (m : Mode) : Bool := m.is comment

def isConstPool (m : Mode) : Bool := m.is constPool

def isVeneerPool (m : Mode) : Bool := m.is veneerPool

def isDeoptReason (m : Mode) : Bool := m.is deoptReason

def isStatementPosition (m : Mode) : Bool := m.is statementPosition

def isExternalReference (m : Mode) : Bool := m.is externalReference

def isInternalReference (m : Mode) : Bool := m.is internalReference

def isInternalReferenceEncoded (m : Mode) : Bool := m.is internalReferenceEncoded

def isDebugBreakSlotAtPosition (m : Mode) : Bool := m.is debugBreakSlotAtPosition

def isDebugBreakSlotAtReturn (m : Mode) : Bool := m.is debugBreakSlotAtReturn

def isDebugBreakSlotAtCall (m : Mode) : Bool := m.is debugBreakSlotAtCall

def isDebugBreakSlotAtConstructCall (m : Mode) : Bool := m.is debugBreakSlotAtConstructCall

def isCodeAgeSequence (m : Mode) : Bool := m.is codeAgeSequence

def isGeneratorContinuation (m : Mode) : Bool := m.is generatorContinuation

/-! ## Families -/

/-- The mode describes a place in the instructions. -/
def isReal (m : Mode) : Bool := firstReal.code ≤ m.code && m.code ≤ lastReal.code

/-- A call or jump whose target is another code object. -/
def isCodeTarget (m : Mode) : Bool := m.code ≤ lastCodeTarget.code

/-- The place holds a pointer that the collector moves. -/
def isCollected (m : Mode) : Bool := m.code ≤ lastCollected.code

/-- A source position of either kind. -/
def isPosition (m : Mode) : Bool := m == position || m == statementPosition

/-- A place that a debugger may patch. -/
def isDebugBreakSlot (m : Mode) : Bool :=
  m.isDebugBreakSlotAtPosition || m.isDebugBreakSlotAtReturn || m.isDebugBreakSlotAtCall ||
    m.isDebugBreakSlotAtConstructCall

theorem isDebugBreakSlot_iff {m : Mode} : m.isDebugBreakSlot = true ↔
    m = debugBreakSlotAtPosition ∨ m = debugBreakSlotAtReturn ∨ m = debugBreakSlotAtCall ∨
      m = debugBreakSlotAtConstructCall := by
  simp only [isDebugBreakSlot, isDebugBreakSlotAtPosition, isDebugBreakSlotAtReturn,
    isDebugBreakSlotAtCall, isDebugBreakSlotAtConstructCall, Bool.or_eq_true, is_iff, or_assoc]

/-- A place that a debugger may patch is no source position. -/
theorem isPosition_of_isDebugBreakSlot {m : Mode} (h : m.isDebugBreakSlot = true) :
    m.isPosition = false := by
  rcases isDebugBreakSlot_iff.1 h with rfl | rfl | rfl | rfl <;> rfl

/-- A marker for "nothing to relocate". -/
def isNone (m : Mode) : Bool := m == none32 || m == none64

/-- The mode may be written into a stream as a record. A pc jump is part of the encoding of other
records and is never written by itself. -/
def isWritable (m : Mode) : Bool := m.code < streamCodes && m != pcJump

/-- What the long form of a record of this mode carries after its pc byte. -/
def payload : Mode → Payload
  | comment => .pointer
  | codeTargetWithId => .int
  | position => .int
  | statementPosition => .int
  | constPool => .int
  | veneerPool => .int
  | debugBreakSlotAtCall => .int
  | _ => .none

end Mode

end CodeReloc
