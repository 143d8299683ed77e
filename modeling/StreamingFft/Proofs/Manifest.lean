import Mathlib.Data.List.Basic
import Mathlib.Data.List.Induction
import StreamingFft.Manifest
/-!
What a manifest has after insertions, and in which order: a union is the names of its left side and
then those of its right side that the left one lacks.
-/
namespace StreamingFft.Manifest

@[ext] theorem ext {a b : Manifest} (h : a.names = b.names) : a = b := by
  cases a
  cases b
  cases h
  rfl

theorem mem_iff {m : Manifest} {x : String} : x ∈ m ↔ x ∈ m.names := Iff.rfl

theorem mem_insert {m : Manifest} {x y : String} : x ∈ m.insert y ↔ x ∈ m ∨ x = y := by
  rw [mem_iff, mem_iff, names_insert]
  split
  · next h => exact ⟨Or.inl, fun hx => hx.elim id fun hxy => hxy ▸ h⟩
  · rw [List.mem_append, List.mem_singleton]

theorem mem_insertMany {m : Manifest} {xs : List String} {x : String} :
    x ∈ m.insertMany xs ↔ x ∈ m ∨ x ∈ xs := by
  induction xs generalizing m with
  | nil => simp [insertMany]
  | cons y ys ih =>
    change x ∈ (m.insert y).insertMany ys ↔ _
    rw [ih, mem_insert, List.mem_cons, or_assoc]

/-- A union with a single name inserts it. -/
theorem union_ofList_singleton (m : Manifest) (x : String) : m ∪ ofList [x] = m.insert x := rfl

theorem mem_ofList {xs : List String} {x : String} : x ∈ ofList xs ↔ x ∈ xs := by
  have hempty : x ∉ empty := List.not_mem_nil
  rw [ofList, mem_insertMany, or_iff_right hempty]

theorem mem_union {a b : Manifest} {x : String} : x ∈ a ∪ b ↔ x ∈ a ∨ x ∈ b :=
  mem_insertMany

theorem insert_of_mem {m : Manifest} {x : String} (h : x ∈ m) : m.insert x = m := dif_pos h

theorem insertMany_append (m : Manifest) (xs ys : List String) :
    m.insertMany (xs ++ ys) = (m.insertMany xs).insertMany ys :=
  List.foldl_append

theorem insertMany_concat (m : Manifest) (xs : List String) (x : String) :
    m.insertMany (xs ++ [x]) = (m.insertMany xs).insert x :=
  insertMany_append m xs [x]

/-- Nothing is added by names that are there. -/
theorem insertMany_of_forall_mem {m : Manifest} {xs : List String} (h : ∀ x ∈ xs, x ∈ m) :
    m.insertMany xs = m := by
  induction xs with
  | nil => rfl
  | cons x xs ih =>
    rw [List.forall_mem_cons] at h
    change (m.insert x).insertMany xs = m
    rw [insert_of_mem h.1, ih h.2]

/-- A name that comes up again adds nothing, whether its repeats are dropped before or not. -/
theorem union_ofList (m : Manifest) (xs : List String) : m ∪ ofList xs = m.insertMany xs := by
  induction xs using List.reverseRecOn with
  | nil => rfl
  | append_singleton xs x ih =>
    have hcollect : ofList (xs ++ [x]) = (ofList xs).insert x := insertMany_concat empty xs x
    rw [hcollect, insertMany_concat]
    by_cases hx : x ∈ ofList xs
    · have hmem : x ∈ m.insertMany xs := mem_insertMany.2 (Or.inr (mem_ofList.1 hx))
      rw [insert_of_mem hx, ih, insert_of_mem hmem]
    · have hnames : ((ofList xs).insert x).names = (ofList xs).names ++ [x] :=
        (names_insert _ _).trans (if_neg hx)
      change m.insertMany ((ofList xs).insert x).names = _
      rw [hnames, insertMany_concat]
      exact congrArg (fun n : Manifest => n.insert x) ih

theorem ofList_append (xs ys : List String) : ofList (xs ++ ys) = ofList xs ∪ ofList ys := by
  rw [union_ofList]
  exact insertMany_append empty xs ys

/-- The names that are collected are those of the list, each where it stands first. -/
theorem names_ofList (xs : List String) : (ofList xs).names = xs.eraseDups := by
  induction xs using List.reverseRecOn with
  | nil => rfl
  | append_singleton xs x ih =>
    have hcollect : ofList (xs ++ [x]) = (ofList xs).insert x := insertMany_concat empty xs x
    rw [hcollect, names_insert, List.eraseDups_append, ← ih]
    by_cases hx : x ∈ xs
    · have hmem : x ∈ (ofList xs).names := mem_ofList.2 hx
      simp [hmem, hx, List.removeAll]
    · have hmem : x ∉ (ofList xs).names := fun h => hx (mem_ofList.1 h)
      simp [hmem, hx, List.removeAll, List.eraseDups_cons]

/-- Names that are different from each other are appended if they are new. -/
theorem names_insertMany {m : Manifest} {xs : List String} (h : xs.Nodup) :
    (m.insertMany xs).names = m.names ++ xs.filter fun x => x ∉ m.names := by
  induction xs generalizing m with
  | nil => exact (List.append_nil _).symm
  | cons y ys ih =>
    rw [List.nodup_cons] at h
    change ((m.insert y).insertMany ys).names = _
    rw [ih h.2, names_insert]
    split
    · next hy => rw [List.filter_cons_of_neg (by simpa using hy)]
    · next hy =>
      -- the other names are not `y`, so that they are new before and after its insertion
      have hrest : ys.filter (fun x => x ∉ m.names ++ [y]) = ys.filter fun x => x ∉ m.names := by
        apply List.filter_congr
        intro x hx
        have hxy : x ≠ y := fun hxy => h.1 (hxy ▸ hx)
        simp [hxy]
      rw [hrest, List.filter_cons_of_pos (by simpa using hy), List.append_assoc]
      rfl

theorem names_union (a b : Manifest) :
    (a ∪ b).names = a.names ++ b.names.filter fun x => x ∉ a.names :=
  names_insertMany b.nodup

theorem union_assoc (a b c : Manifest) : (a ∪ b) ∪ c = a ∪ (b ∪ c) := by
  apply ext
  simp only [names_union, List.filter_append, List.filter_filter, List.append_assoc]
  congr 2
  apply List.filter_congr
  intro x _
  by_cases ha : x ∈ a.names <;> simp [ha]

/-- A union with names that are there. -/
theorem union_eq_left {a b : Manifest} (h : ∀ x ∈ b, x ∈ a) : a ∪ b = a :=
  insertMany_of_forall_mem h

theorem union_empty (m : Manifest) : m ∪ ∅ = m := rfl

theorem empty_union (m : Manifest) : ∅ ∪ m = m := by
  apply ext
  rw [names_union]
  exact List.filter_eq_self.2 fun x _ => decide_eq_true List.not_mem_nil

section Fold
variable {α : Type*} (f : α → Manifest)

/-- A fold of unions starts with what was there. -/
theorem foldl_union (l : List α) (m : Manifest) :
    l.foldl (fun m x => m ∪ f x) m = m ∪ l.foldl (fun m x => m ∪ f x) ∅ := by
  induction l generalizing m with
  | nil => exact (union_empty m).symm
  | cons x l ih => rw [List.foldl_cons, List.foldl_cons, ih, ih (∅ ∪ f x), empty_union, union_assoc]

theorem foldl_union_append (l k : List α) :
    (l ++ k).foldl (fun m x => m ∪ f x) ∅ =
      l.foldl (fun m x => m ∪ f x) ∅ ∪ k.foldl (fun m x => m ∪ f x) ∅ := by
  rw [List.foldl_append, foldl_union]

theorem mem_foldl_union {l : List α} {x : String} :
    x ∈ l.foldl (fun m y => m ∪ f y) ∅ ↔ ∃ y ∈ l, x ∈ f y := by
  induction l with
  | nil =>
    have hempty : x ∉ (∅ : Manifest) := List.not_mem_nil
    simp [hempty]
  | cons y l ih =>
    rw [List.foldl_cons, foldl_union, empty_union, mem_union, ih, List.exists_mem_cons_iff]

end Fold

end StreamingFft.Manifest
