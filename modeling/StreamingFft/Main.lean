import StreamingFft.Command.Run
/-!
The command, run on the files of the machine.
-/
open StreamingFft StreamingFft.Command

/-- Prints the records that the verbosity lets through. -/
def printJournal (i : Invocation) : IO Unit := do
  let bound := (Level.ofVerbosity i.verbosity).rank
  for e in i.request.journal.filter fun e => e.level.rank ≤ bound do
    IO.eprintln e.text

/-- What the machine objects to, by the number of its error where several share a kind. -/
def writeFault : IO.Error → WriteFault
  | .noFileOrDirectory .. => .missingDirectory
  | .inappropriateType _ code text =>
    if code = 20 then .notDirectory
    else if code = 21 then .isDirectory
    else .other text
  | .resourceExhausted _ code text => if code = 28 then .noSpace else .other text
  | .invalidArgument _ code text => if code = 36 then .nameTooLong else .other text
  | e => .other (toString e)

/-- Writes a file. -/
def deliver (path text : String) : IO (Option WriteFault) := do
  try
    IO.FS.writeFile path text
    return none
  catch e => return some (writeFault e)

def main (arguments : List String) : IO UInt32 := do
  match Invocation.ofArguments? arguments with
  | none =>
    IO.eprintln "usage: [-v]... twiddle-rom SIZE WIDTH... [--reduced-bits] [--modulus M] [-o FILE]"
    return 2
  | some i =>
    printJournal i
    match i.request.text with
    | .error f =>
      IO.eprint f.report
      return 1
    | .ok text =>
      match i.output with
      | none =>
        IO.print text
        return 0
      | some path =>
        match ← deliver path text with
        | none => return 0
        | some fault =>
          IO.eprint (Failure.writing path fault).report
          return 1
