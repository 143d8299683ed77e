import StreamingFft.Core.Architecture
import StreamingFft.Core.Latency
import StreamingFft.Vhdl.Identifier
/-!
The entities of a whole tree. A composite child is named after its parent and its position; a leaf
keeps the name of its own entity, for which nothing is written.
-/
namespace StreamingFft.Core

/-- The entity of the child at position `index` below `parent`. -/
def childName (parent : String) (index : Nat) (child : Core) : String :=
  match child with
  | leaf l => l.entity
  | _ => s!"{parent}_sub{index + 1}"

/-- The entities of a tree whose root is called `name`, children before their parents. -/
def architectures (c : Core) (name : String) : List Architecture :=
  match c with
  | leaf _ => []
  | fourStep s sub1 sub2 =>
    let name1 := childName name 0 sub1
    let name2 := childName name 1 sub2
    sub1.architectures name1 ++ sub2.architectures name2 ++
      ((fourStep s sub1 sub2).architecture? name name1 name2).toList
  | radix4 s d sub1 =>
    let name1 := childName name 0 sub1
    sub1.architectures name1 ++ ((radix4 s d sub1).architecture? name name1 "").toList

/-- The entities of a tree whose root is to be called `name`; the name is looked at first. -/
def generate (c : Core) (name : String) : Except Fault (List Architecture) :=
  if Vhdl.isBasicIdentifier name then c.timed fun c => c.architectures name
  else .error (.badEntityName name)

end StreamingFft.Core
