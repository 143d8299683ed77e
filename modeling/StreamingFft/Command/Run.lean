import StreamingFft.Command.Arguments
import StreamingFft.Command.Volume
import StreamingFft.TwiddleTable.Module
/-!
One run of the command: nothing is written unless the whole text could be made.
-/
namespace StreamingFft.Command

inductive Failure where
  /-- The parameters of the table are refused. -/
  | table (size : Nat) (fault : Fault)
  /-- The widths are refused. -/
  | emission (entity : String) (fault : Fault)
  | writing (path : String) (fault : WriteFault)
deriving DecidableEq, Repr

namespace Failure

/-- What the command was about to do. -/
def context : Failure → String
  | table size _ => s!"invalid twiddle table of size {size}"
  | emission entity _ => s!"cannot emit {entity}"
  | writing path _ => s!"failed to write {path}"

def cause : Failure → String
  | table _ f => f.message
  | emission _ f => f.message
  | writing _ f => f.message

/-- The report on the standard error output. -/
def report (f : Failure) : String :=
  s!"Error: {f.context}\n\nCaused by:\n    {f.cause}\n"

end Failure

namespace TableRequest

/-- The table that is asked for. -/
def table (r : TableRequest) : Except Fault TwiddleTable := do
  let t ← match r.modulus with
    | none => TwiddleTable.ofSize r.size
    | some m => TwiddleTable.ofModulus r.size m
  return t.withReduced r.reduced

/-- The text of its module. -/
def text (r : TableRequest) : Except Failure String :=
  match r.table with
  | .error f => .error (.table r.size f)
  | .ok t =>
    match t.render r.widths with
    | .error f => .error (.emission t.entityName f)
    | .ok text => .ok text

/-- The records of making the text. -/
def journal (r : TableRequest) : List Event :=
  match r.table with
  | .error _ => []
  | .ok t => .tableAccepted t.entityName t.size t.modulus r.widths :: t.writingJournal r.widths

end TableRequest

/-- How a run ends. -/
inductive Outcome where
  | success (stdout : String)
  | failure (f : Failure)
  /-- The arguments make no command. -/
  | usage
deriving DecidableEq, Repr

namespace Outcome

def exitCode : Outcome → Nat
  | success _ => 0
  | failure _ => 1
  | usage => 2

def stdout : Outcome → String
  | success text => text
  | _ => ""

end Outcome

/-- Makes the text and delivers it to the standard output or to a file. -/
def Invocation.run (i : Invocation) (v : Volume) : Outcome × Volume :=
  match i.request.text with
  | .error f => (.failure f, v)
  | .ok text =>
    match i.output with
    | none => (.success text, v)
    | some path =>
      match v.write path text with
      | .error f => (.failure (.writing path f), v)
      | .ok v => (.success "", v)

/-- One run of the command. -/
def run (arguments : List String) (v : Volume) : Outcome × Volume :=
  match Invocation.ofArguments? arguments with
  | none => (.usage, v)
  | some i => i.run v

end StreamingFft.Command
