import StreamingFft.Proofs.Manifest
/-!
Sets of names that come about by insertions, unions and collected lists, in any order and as often as one
likes. Names are looked up in a hash set beside the list; on every history the two stay in step, and the
list is that of all insertions, each name where it was inserted first.
-/
namespace StreamingFft

/-- A list of names with a hash set of them, in which a name is looked up. -/
structure IndexedNames where
  order : List String
  seen : Std.HashSet String

namespace IndexedNames

def empty : IndexedNames := ⟨[], ∅⟩

def contains (s : IndexedNames) (x : String) : Bool := s.seen.contains x

def size (s : IndexedNames) : Nat := s.order.length

def isEmpty (s : IndexedNames) : Bool := s.order.isEmpty

/-- Adds a name to both containers, and tells whether it was new. -/
def insert (s : IndexedNames) (x : String) : Bool × IndexedNames :=
  if s.seen.contains x then (false, s) else (true, ⟨s.order ++ [x], s.seen.insert x⟩)

def insertMany (s : IndexedNames) (xs : List String) : IndexedNames :=
  xs.foldl (fun s x => (s.insert x).2) s

/-- Only the list of the other set is gone through. -/
def union (s t : IndexedNames) : IndexedNames := s.insertMany t.order

def ofList (xs : List String) : IndexedNames := empty.insertMany xs

/-- Both containers hold the names of a manifest. -/
structure Holds (s : IndexedNames) (m : Manifest) : Prop where
  order : s.order = m.names
  mem_seen : ∀ x, x ∈ s.seen ↔ x ∈ m
  size_seen : s.seen.size = m.size

variable {s t : IndexedNames} {m n : Manifest} {x : String}

theorem holds_empty : empty.Holds ∅ where
  order := rfl
  mem_seen _ := iff_of_false Std.HashSet.not_mem_empty List.not_mem_nil
  size_seen := Std.HashSet.size_empty

theorem Holds.contains_iff (h : s.Holds m) : s.contains x = true ↔ x ∈ m :=
  Std.HashSet.mem_iff_contains.symm.trans (h.mem_seen x)

theorem Holds.insert_of_mem (h : s.Holds m) (hx : x ∈ m) : s.insert x = (false, s) :=
  if_pos (h.contains_iff.2 hx)

theorem Holds.insert_of_notMem (h : s.Holds m) (hx : x ∉ m) :
    s.insert x = (true, ⟨s.order ++ [x], s.seen.insert x⟩) :=
  if_neg fun hseen => hx (h.contains_iff.1 hseen)

/-- One insertion keeps the containers in step. -/
theorem Holds.insert (h : s.Holds m) (x : String) : (s.insert x).2.Holds (m.insert x) := by
  by_cases hx : x ∈ m
  · rw [h.insert_of_mem hx, Manifest.insert_of_mem hx]
    exact h
  · rw [h.insert_of_notMem hx]
    have hnames : (m.insert x).names = m.names ++ [x] := (m.names_insert x).trans (if_neg hx)
    have hseen : x ∉ s.seen := fun hmem => hx ((h.mem_seen x).1 hmem)
    refine ⟨?_, ?_, ?_⟩
    · rw [hnames, h.order]
    · intro y
      rw [Std.HashSet.mem_insert, beq_iff_eq, h.mem_seen, Manifest.mem_insert, or_comm, eq_comm]
    · rw [Std.HashSet.size_insert, if_neg hseen, h.size_seen, Manifest.size, Manifest.size, hnames,
        List.length_append, List.length_singleton]

theorem Holds.insertMany (h : s.Holds m) (xs : List String) :
    (s.insertMany xs).Holds (m.insertMany xs) := by
  induction xs generalizing s m with
  | nil => exact h
  | cons x xs ih => exact ih (h.insert x)

theorem Holds.union (hs : s.Holds m) (ht : t.Holds n) : (s.union t).Holds (m ∪ n) := by
  rw [IndexedNames.union, ht.order]
  exact hs.insertMany n.names

theorem holds_ofList (xs : List String) : (ofList xs).Holds (.ofList xs) :=
  holds_empty.insertMany xs

end IndexedNames

namespace Manifest

/-- How a set of names has come about. -/
inductive History where
  | empty
  | insert (before : History) (name : String)
  /-- The other set has a history of its own. -/
  | union (before other : History)
  | ofList (names : List String)

namespace History

def manifest : History → Manifest
  | empty => ∅
  | insert h x => h.manifest.insert x
  | union h k => h.manifest ∪ k.manifest
  | ofList xs => .ofList xs

def indexed : History → IndexedNames
  | empty => .empty
  | insert h x => (h.indexed.insert x).2
  | union h k => h.indexed.union k.indexed
  | ofList xs => .ofList xs

/-- All names that were ever inserted, in order and with their repeats. -/
def inserted : History → List String
  | empty => []
  | insert h x => h.inserted ++ [x]
  | union h k => h.inserted ++ k.inserted
  | ofList xs => xs

/-- The containers are in step after every step. -/
theorem holds (h : History) : h.indexed.Holds h.manifest := by
  induction h with
  | empty => exact IndexedNames.holds_empty
  | insert h x ih => exact ih.insert x
  | union h k ihh ihk => exact ihh.union ihk
  | ofList xs => exact IndexedNames.holds_ofList xs

/-- A history leaves what collecting its insertions gives. -/
theorem manifest_eq (h : History) : h.manifest = .ofList h.inserted := by
  induction h with
  | empty => rfl
  | insert h x ih =>
    rw [manifest, inserted, ih]
    exact (insertMany_concat _ _ _).symm
  | union h k ihh ihk => rw [manifest, inserted, ihh, ihk, ofList_append]
  | ofList xs => rfl

end History

/-- What a set of names is like into which `inserted` went, one name after the other. -/
structure KeepsFirst (m : Manifest) (s : IndexedNames) (inserted : List String) : Prop where
  order : s.order = m.names
  names : m.names = inserted.eraseDups
  nodup : m.names.Nodup
  contains : ∀ x, s.contains x = m.contains x ∧ (m.contains x = true ↔ x ∈ m.names)
  size : s.size = m.size ∧ s.seen.size = m.size ∧ m.size = m.names.length
  isEmpty : s.isEmpty = m.isEmpty ∧ (m.isEmpty = true ↔ m.names = [])
  insert_old : ∀ x ∈ m.names, s.insert x = (false, s) ∧ m.containsThenInsert x = (true, m)
  insert_new : ∀ x ∉ m.names,
    (s.insert x).1 = true ∧ (s.insert x).2.order = s.order ++ [x] ∧
      (m.containsThenInsert x).1 = false ∧ (m.containsThenInsert x).2.names = m.names ++ [x]

/-- On every history the list and the hash set agree, and the list keeps the first of each name. -/
theorem keepsFirst_of_history (h : History) : KeepsFirst h.manifest h.indexed h.inserted := by
  have hholds := h.holds
  have hcontains : ∀ x, h.manifest.contains x = true ↔ x ∈ h.manifest.names := fun x =>
    decide_eq_true_iff
  refine ⟨hholds.order, ?_, h.manifest.nodup, ?_, ?_, ?_, ?_, ?_⟩
  · rw [h.manifest_eq, names_ofList]
  · exact fun x => ⟨Bool.eq_iff_iff.2 (hholds.contains_iff.trans (hcontains x).symm), hcontains x⟩
  · exact ⟨congrArg List.length hholds.order, hholds.size_seen, rfl⟩
  · exact ⟨congrArg List.isEmpty hholds.order, List.isEmpty_iff⟩
  · intro x hx
    refine ⟨hholds.insert_of_mem hx, ?_⟩
    rw [containsThenInsert, (hcontains x).2 hx, insert_of_mem hx]
  · intro x hx
    rw [hholds.insert_of_notMem hx]
    refine ⟨rfl, rfl, decide_eq_false hx, ?_⟩
    exact (names_insert _ _).trans (if_neg hx)

end Manifest
end StreamingFft
