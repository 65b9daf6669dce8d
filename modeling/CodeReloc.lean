import CodeReloc.Mode
import CodeReloc.Mask
import CodeReloc.Hex
import CodeReloc.Fault
import CodeReloc.Record
import CodeReloc.Bytes
import CodeReloc.Wire
import CodeReloc.Buffer
import CodeReloc.Stream.Encoder
import CodeReloc.Stream.Writer
import CodeReloc.Stream.Checked
import CodeReloc.Stream.Cursor
import CodeReloc.Stream.Reader
import CodeReloc.Positions
import CodeReloc.Descriptor
import CodeReloc.Assembler.Arena
import CodeReloc.Assembler.Basic
import CodeReloc.Assembler.Operation
import CodeReloc.ConstantPool.Basic
import CodeReloc.ConstantPool.Emission
import CodeReloc.Code.Basic
import CodeReloc.Code.Host
import CodeReloc.Code.Listing
import CodeReloc.Code.Verify
import CodeReloc.Number.Power
import CodeReloc.Number.Remainder
import CodeReloc.Number.Comparison
import CodeReloc.External.Address
import CodeReloc.External.Counter
import CodeReloc.External.Trampoline
import CodeReloc.External.Failure
import CodeReloc.External.ConstantSet
import CodeReloc.External.Registry
import CodeReloc.External.Reference
import CodeReloc.Proofs.Ranges
import CodeReloc.Proofs.Number.Powers
import CodeReloc.Proofs.Stream.Filtering
import CodeReloc.Proofs.Stream.Moving
import CodeReloc.Proofs.Stream.Ordering
import CodeReloc.Proofs.Code.Placing
import CodeReloc.Proofs.External.Trampolines
import CodeReloc.Proofs.External.Registrations
import CodeReloc.Proofs.External.Naming
import CodeReloc.Proofs.External.Locations
import CodeReloc.Proofs.Stream.Forms
import CodeReloc.Proofs.Stream.Calls
import CodeReloc.Proofs.Stream.Checks
import CodeReloc.Proofs.Stream.Contract
import CodeReloc.Proofs.Stream.RoundTrip
import CodeReloc.Proofs.Stream.Finishing
import CodeReloc.Proofs.Assembler.Room
import CodeReloc.Proofs.Assembler.Draft
import CodeReloc.Proofs.ConstantPool.Collecting
import CodeReloc.Proofs.ConstantPool.Layout
import CodeReloc.Proofs.ConstantPool.Classifying
import CodeReloc.Proofs.ConstantPool.Emitting
import CodeReloc.Proofs.ConstantPool.Patching
import CodeReloc.Proofs.ConstantPool.Placement
import CodeReloc.Proofs.Assembler.Effects
import CodeReloc.Proofs.Assembler.Attempts
import CodeReloc.Proofs.Assembler.Reserving
import CodeReloc.Proofs.Assembler.Recorded
import CodeReloc.Proofs.Assembler.Announced
import CodeReloc.Proofs.Assembler.Exhaustion
import CodeReloc.Proofs.Assembler.Safety
import CodeReloc.Proofs.Assembler.References
import CodeReloc.Proofs.ConstantPool.Retrying
import CodeReloc.Proofs.Stream.Grammar
import CodeReloc.Proofs.Code.Verifying
import CodeReloc.Proofs.Code.Relocating
import CodeReloc.Proofs.Stream.Canonical
import CodeReloc.Proofs.Stream.Payloads
import CodeReloc.Proofs.Positions.Taking
import CodeReloc.Proofs.Positions.Replaying
import CodeReloc.Proofs.Assembler.Recorder
import CodeReloc.Proofs.Stream.Jumps
import CodeReloc.Proofs.Assembler.Headroom
