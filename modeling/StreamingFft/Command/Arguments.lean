import StreamingFft.Command.Number
/-!
The command line: verbosity flags, the word `twiddle-rom`, then a size and widths mixed with options.
-/
namespace StreamingFft.Command

/-- A twiddle table to be written, as the user asked for it. -/
structure TableRequest where
  size : Nat
  widths : List Nat
  reduced : Bool
  modulus : Option Nat
deriving DecidableEq, Repr

structure Invocation where
  verbosity : Nat
  request : TableRequest
  /-- Where the text goes; to the standard output if nowhere else. -/
  output : Option String
deriving DecidableEq, Repr

/-- Options that take a value. -/
inductive Key where
  | modulus
  | output
deriving DecidableEq, Repr

/-- What one argument stands for. -/
inductive Token where
  | positional (text : String)
  | verbose (count : Nat)
  | reduced
  /-- An option behind `count` verbosity flags, with the value attached to it, if any. -/
  | option (count : Nat) (key : Key) (value : Option String)
  | unknown
deriving DecidableEq, Repr

namespace Token

/-- A cluster of one-letter options; the value of an option is the rest of the cluster. -/
def ofCluster (count : Nat) : List Char → Token
  | [] => verbose count
  | 'v' :: cs => ofCluster (count + 1) cs
  | ['o'] => option count .output none
  | 'o' :: '=' :: cs => option count .output (some (String.ofList cs))
  | 'o' :: cs => option count .output (some (String.ofList cs))
  | _ => unknown

/-- An option spelled out; a value may follow an equals sign. -/
def ofName (cs : List Char) : Token :=
  let name := String.ofList (cs.takeWhile (· != '='))
  let value := match cs.dropWhile (· != '=') with
    | [] => none
    | _ :: rest => some (String.ofList rest)
  match name, value with
  | "verbose", none => verbose 1
  | "reduced-bits", none => reduced
  | "modulus", value => option 0 .modulus value
  | "output", value => option 0 .output value
  | _, _ => unknown

/-- A lone hyphen is an ordinary word. -/
def ofArgument (argument : String) : Token :=
  match argument.toList with
  | ['-'] => positional argument
  | '-' :: '-' :: cs => ofName cs
  | '-' :: cs => ofCluster 0 cs
  | _ => positional argument

end Token

/-- Whether an argument can be the separate value of an option. -/
def isValue (argument : String) : Bool :=
  match Token.ofArgument argument with
  | .positional _ => true
  | _ => false

/-- What has been read so far. -/
structure Reading where
  verbosity : Nat
  positionals : List String := []
  reduced : Bool := false
  modulus : Option String := none
  output : Option String := none

namespace Reading

/-- Records the value of an option; a second value is refused. -/
def set (r : Reading) (count : Nat) (key : Key) (value : String) : Option Reading :=
  let r := { r with verbosity := r.verbosity + count }
  match key, r.modulus, r.output with
  | .modulus, none, _ => some { r with modulus := some value }
  | .output, _, none => some { r with output := some value }
  | _, _, _ => none

/-- Reads the arguments behind the subcommand; after two hyphens all are positional. -/
def scan (r : Reading) : List String → Option Reading
  | [] => some r
  | "--" :: rest => some { r with positionals := r.positionals ++ rest }
  | argument :: rest =>
    match Token.ofArgument argument, rest with
    | .positional text, rest => scan { r with positionals := r.positionals ++ [text] } rest
    | .verbose count, rest => scan { r with verbosity := r.verbosity + count } rest
    | .reduced, rest => if r.reduced then none else scan { r with reduced := true } rest
    | .option count key (some value), rest => r.set count key value >>= fun r => r.scan rest
    | .option count key none, value :: rest =>
      if isValue value then r.set count key value >>= fun r => r.scan rest else none
    | .option _ _ none, [] => none
    | .unknown, _ => none

/-- A path is not empty. -/
def path? (s : String) : Option String :=
  if s.isEmpty then none else some s

/-- Passes an absent value on, and reads one that is there. -/
def optional {α : Type} (read : String → Option α) : Option String → Option (Option α)
  | none => some none
  | some s => (read s).map some

/-- A size and at least one width are required. -/
def finish (r : Reading) : Option Invocation := do
  match r.positionals with
  | size :: width :: more =>
    let size ← word? size
    let widths ← (width :: more).mapM width?
    let modulus ← optional word? r.modulus
    let output ← optional path? r.output
    return ⟨r.verbosity, ⟨size, widths, r.reduced, modulus⟩, output⟩
  | _ => none

end Reading

/-- Reads a whole command line; `none` is a usage error. -/
def Invocation.ofArguments? (arguments : List String) (verbosity : Nat := 0) : Option Invocation :=
  match arguments with
  | [] => none
  | argument :: rest =>
    if argument = "twiddle-rom" then
      Reading.scan { verbosity } rest >>= Reading.finish
    else match Token.ofArgument argument with
      | .verbose count => ofArguments? rest (verbosity + count)
      | _ => none

end StreamingFft.Command
