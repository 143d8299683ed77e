/-!
Files in directories, as far as writing a file needs them. A path is followed name by name, and the
first name that leads nowhere decides what is wrong with it.
-/
namespace StreamingFft.Command

inductive WriteFault where
  | missingDirectory
  | notDirectory
  | isDirectory
  | noSpace
  | nameTooLong
  | other (reason : String)
deriving DecidableEq, Repr

/-- The operating system's sentence and number for a fault. -/
def WriteFault.message : WriteFault → String
  | missingDirectory => "No such file or directory (os error 2)"
  | notDirectory => "Not a directory (os error 20)"
  | isDirectory => "Is a directory (os error 21)"
  | noSpace => "No space left on device (os error 28)"
  | nameTooLong => "File name too long (os error 36)"
  | other reason => reason

/-- The names on the way from the root. -/
abbrev Location := List String

structure Volume where
  directories : List Location
  /-- Contents by location; the first entry of a location counts. -/
  files : List (Location × String)
  /-- Files that take no data. -/
  full : List Location
  /-- Where relative paths start. -/
  working : Location
deriving DecidableEq, Repr

namespace Volume

/-- Most bytes of a name. -/
def maxNameBytes : Nat := 255

/-- Most bytes of a path. -/
def maxPathBytes : Nat := 4095

/-- The names between the slashes. -/
def pathNames (path : String) : List String :=
  (path.toList.splitOn '/').map String.ofList

/-- An empty name stands between two slashes. -/
def staysHere (name : String) : Bool := name == "" || name == "."

/-- The directory `name` in a directory. -/
def enter (v : Volume) (dir : Location) (name : String) : Except WriteFault Location :=
  if staysHere name then .ok dir
  else if name = ".." then .ok dir.dropLast
  else if maxNameBytes < name.utf8ByteSize then .error .nameTooLong
  else if dir ++ [name] ∈ v.directories then .ok (dir ++ [name])
  else if (v.files.lookup (dir ++ [name])).isSome then .error .notDirectory
  else .error .missingDirectory

/-- The file `name` in a directory. -/
def entry (v : Volume) (dir : Location) (name : String) : Except WriteFault Location :=
  if staysHere name || name == ".." then .error .isDirectory
  else if maxNameBytes < name.utf8ByteSize then .error .nameTooLong
  else if dir ++ [name] ∈ v.directories then .error .isDirectory
  else .ok (dir ++ [name])

/-- Follows names to a file. What has a slash behind its last name is meant to be a directory. -/
def follow (v : Volume) (dir : Location) : List String → Except WriteFault Location
  | [] => .error .isDirectory
  | [name] => v.entry dir name
  | name :: rest =>
    if rest.all (· == "") then .error .isDirectory
    else v.enter dir name >>= fun dir => v.follow dir rest

/-- Where a file with this path is or would be. -/
def locate (v : Volume) (path : String) : Except WriteFault Location :=
  if maxPathBytes < path.utf8ByteSize then .error .nameTooLong
  else v.follow (if path.toList.head? = some '/' then [] else v.working) (pathNames path)

/-- Creates or replaces a file in a directory that exists. -/
def write (v : Volume) (path text : String) : Except WriteFault Volume := do
  let l ← v.locate path
  if l ∈ v.full then .error .noSpace
  else .ok { v with files := (l, text) :: v.files }

def read? (v : Volume) (path : String) : Option String :=
  match v.locate path with
  | .ok l => v.files.lookup l
  | .error _ => none

end Volume
end StreamingFft.Command
