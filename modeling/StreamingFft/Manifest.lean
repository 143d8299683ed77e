/-!
The components an entity depends on: a set of names that remembers the order of insertion.
-/
namespace StreamingFft

structure Manifest where
  names : List String
  nodup : names.Nodup
deriving DecidableEq

namespace Manifest

def empty : Manifest := ⟨[], List.nodup_nil⟩

instance : EmptyCollection Manifest := ⟨empty⟩

instance : Membership String Manifest := ⟨fun m x => x ∈ m.names⟩

instance (x : String) (m : Manifest) : Decidable (x ∈ m) :=
  inferInstanceAs (Decidable (x ∈ m.names))

def contains (m : Manifest) (x : String) : Bool := decide (x ∈ m)

def size (m : Manifest) : Nat := m.names.length

def isEmpty (m : Manifest) : Bool := m.names.isEmpty

theorem nodup_concat {l : List String} {x : String} (hl : l.Nodup) (hx : x ∉ l) :
    (l ++ [x]).Nodup := by
  rw [List.nodup_append]
  refine ⟨hl, by simp, ?_⟩
  intro a ha b hb e
  rw [List.mem_singleton.1 hb] at e
  exact hx (e ▸ ha)

/-- Appends a name that is not yet there. -/
def insert (m : Manifest) (x : String) : Manifest :=
  if h : x ∈ m.names then m else ⟨m.names ++ [x], nodup_concat m.nodup h⟩

/-- Inserts a name, and tells whether it was there before. -/
def containsThenInsert (m : Manifest) (x : String) : Bool × Manifest :=
  (m.contains x, m.insert x)

/-- Appends names from left to right. -/
def insertMany (m : Manifest) (xs : List String) : Manifest :=
  xs.foldl insert m

def ofList (xs : List String) : Manifest :=
  empty.insertMany xs

/-- The names of `a`, then those of `b` that `a` lacks. -/
def union (a b : Manifest) : Manifest :=
  a.insertMany b.names

instance : Union Manifest := ⟨union⟩

theorem names_insert (m : Manifest) (x : String) :
    (m.insert x).names = if x ∈ m.names then m.names else m.names ++ [x] := by
  unfold insert
  split <;> simp_all

end Manifest
end StreamingFft
