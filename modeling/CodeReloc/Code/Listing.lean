import CodeReloc.Code.Host

set_option autoImplicit false

/-!
# Listings

A record is listed on one line: its place, the name of its mode, and what its data or its target
mean, as far as the comment table and the host know.
-/

namespace CodeReloc

namespace Record

/-- What a listing says after the name of the mode. -/
def details (host : Host) (comments : Array String) (r : Record) : String :=
  match r.mode with
  | .comment =>
    let text :=
      if 0 ≤ r.data then comments[r.data.toInt.toNat]?.getD "<missing comment>"
      else "<missing comment>"
    s!"  ({text})"
  | .deoptReason =>
    match host.reasonName r.data with
    | some name => s!"  ({name})"
    | none => s!"  ({r.data.toInt})"
  | .embeddedObject => s!"  ({host.objectText (host.objectTarget r)})"
  | .externalReference =>
    let target := host.externalTarget r
    let name := (host.referenceName target).getD "<unknown>"
    s!" ({name})  ({hexAddress target.toNat})"
  | .codeTarget => target
  | .codeTargetWithId => target ++ s!" (id={r.data.toInt32.toInt})"
  | .constructCall => target
  | .debuggerStatement => target
  | .position => s!"  ({r.data.toInt})"
  | .statementPosition => s!"  ({r.data.toInt})"
  | .runtimeEntry =>
    match host.bailoutId (host.callTarget r) with
    | some id => s!"  (deoptimization bailout {id.toInt})"
    | none => ""
  | .constPool => s!" (size {r.data.toInt32.toInt})"
  | _ => ""
where
  /-- The kind and the address of the code that is called. -/
  target : String :=
    let address := host.callTarget r
    let kind := (host.kindOfCode address).getD "unknown"
    s!" ({kind})  ({hexAddress address.toNat})"

/-- The line of a record. -/
def line (host : Host) (comments : Array String) (r : Record) : String :=
  s!"{hexAddress r.pc.toNat}  {r.mode.name}{r.details host comments}\n"

end Record

namespace Code

/-- The lines of all records that a reader leaves behind, and the fault that ended the listing. -/
def listing (c : Code) (host : Host) : String × Option Fault :=
  let w := c.walk .all
  (w.delivered.foldl (fun text r => text ++ r.line host c.comments) "", w.stopped)

end Code

end CodeReloc
