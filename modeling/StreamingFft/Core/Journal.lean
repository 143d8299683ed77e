import StreamingFft.Core.Generation
import StreamingFft.Journal
/-!
What is recorded while a core is built and its entities are written.
-/
namespace StreamingFft.Core

/-- The record of a composite's construction. -/
def built? : Core → Option Event
  | leaf _ => none
  | fourStep s sub1 sub2 => some (.fourStepBuilt s.size sub1.size sub2.size s.buffer.isSome)
  | radix4 s _ sub1 => some (.radix4Built s.size sub1.size s.buffer.isSome)

/-- The record of writing a composite's entity. -/
def written? (c : Core) (name : String) : Option Event :=
  match c with
  | leaf _ => none
  | fourStep s _ _ => some (.fourStepWritten name s.size c.delay)
  | radix4 s _ _ => some (.radix4Written name s.size c.delay)

/-- The records of writing the entities of a tree, in the order of writing. -/
def writings (c : Core) (name : String) : List Event :=
  match c with
  | leaf _ => []
  | fourStep s sub1 sub2 =>
    sub1.writings (childName name 0 sub1) ++ sub2.writings (childName name 1 sub2) ++
      ((fourStep s sub1 sub2).written? name).toList
  | radix4 s d sub1 =>
    sub1.writings (childName name 0 sub1) ++ ((radix4 s d sub1).written? name).toList

/-- The record of writing the entity of one node; a latency that is no word leaves none. -/
def writingJournal (c : Core) (name : String) : List Event :=
  (c.written? name).toList.takeWhile Event.isTimed

/-- The records of generating a tree. A refused name leaves none, and a latency that is no word ends
the writing at its node. -/
def generationJournal (c : Core) (name : String) : List Event :=
  match c.generate name with
  | .ok as => c.writings name ++ [.treeWritten as.length name]
  | .error (.overflow _) => (c.writings name).takeWhile Event.isTimed
  | .error _ => []

end StreamingFft.Core
