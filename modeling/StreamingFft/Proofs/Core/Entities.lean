import StreamingFft.Proofs.Core.Hierarchy
import StreamingFft.Proofs.Core.Invariant
import StreamingFft.Proofs.Manifest
/-!
The entities of a tree as a list. There is one for each path to a composite, below all entities that
it instantiates, and its name tells the path, whatever the case of the letters.
-/
namespace StreamingFft

theorem continuesIdentifier_append {cs ds : List Char} (hc : Vhdl.continuesIdentifier cs = true)
    (hd : Vhdl.continuesIdentifier ds = true) : Vhdl.continuesIdentifier (cs ++ ds) = true := by
  induction cs using Vhdl.continuesIdentifier.induct with
  | case1 => exact hd
  | case2 c rest ih =>
    rw [Vhdl.continuesIdentifier, Bool.and_eq_true] at hc
    rw [List.cons_append, List.cons_append, Vhdl.continuesIdentifier, hc.1, ih hc.2, Bool.and_self]
  | case3 c rest hne ih =>
    rw [Vhdl.continuesIdentifier, Bool.and_eq_true] at hc
    · -- an underline that nothing follows is no letter
      have hletter : c ≠ '_' := by
        rintro rfl
        exact absurd hc.1 (by decide)
      rw [List.cons_append, Vhdl.continuesIdentifier, hc.1, ih hc.2, Bool.and_self]
      exact fun _ _ h => absurd h hletter
    · exact hne

theorem toLower_of_isDigit {c : Char} (h : c.isDigit = true) : c.toLower = c := by
  simp only [Char.isDigit, Bool.and_eq_true, decide_eq_true_eq] at h
  unfold Char.toLower
  rw [dif_neg]
  intro hupper
  exact absurd (UInt32.le_trans hupper.1 h.2) (by decide)

theorem map_toLower_toDigits (n : Nat) : (Nat.toDigits 10 n).map Char.toLower = Nat.toDigits 10 n :=
  (List.map_congr_left (g := id) fun _ hc =>
    toLower_of_isDigit (Nat.isDigit_of_mem_toDigits (by decide) (by decide) hc)).trans (List.map_id _)

namespace Core
open Vhdl

/-- The characters that a step down a path adds to the name of an entity. -/
def nameSegment (i : Nat) : List Char := "_sub".toList ++ Nat.toDigits 10 (i + 1)

/-- The name of the entity at a path below a root called `name`. -/
def pathName (name : String) (path : List Nat) : String :=
  name ++ String.ofList (path.flatMap nameSegment)

theorem toList_pathName (name : String) (path : List Nat) :
    (pathName name path).toList = name.toList ++ path.flatMap nameSegment := by
  rw [pathName, String.toList_append, String.toList_ofList]

theorem pathName_nil (name : String) : pathName name [] = name :=
  String.append_empty

theorem pathName_cons (name : String) (i : Nat) (path : List Nat) :
    pathName s!"{name}_sub{i + 1}" path = pathName name (i :: path) := by
  apply String.toList_inj.1
  have hstep : s!"{name}_sub{i + 1}".toList = name.toList ++ nameSegment i := by
    rw [nameSegment, ← Nat.toList_repr, ← String.toList_append, ← String.toList_append,
      ← String.append_assoc]
    rfl
  rw [toList_pathName, toList_pathName, hstep, List.flatMap_cons, List.append_assoc]

theorem pathName_concat (name : String) (path : List Nat) (i : Nat) :
    pathName name (path ++ [i]) = s!"{pathName name path}_sub{i + 1}" := by
  have happend : pathName name (path ++ [i]) = pathName (pathName name path) [i] := by
    apply String.toList_inj.1
    rw [toList_pathName, toList_pathName, toList_pathName, List.flatMap_append, List.append_assoc]
  rw [happend, ← pathName_cons, pathName_nil]

theorem continuesIdentifier_toDigits (n : Nat) :
    continuesIdentifier (Nat.toDigits 10 n) = true := by
  have hdigits : ∀ c ∈ Nat.toDigits 10 n, c.isDigit = true := fun c hc =>
    Nat.isDigit_of_mem_toDigits (by decide) (by decide) hc
  generalize Nat.toDigits 10 n = ds at hdigits
  induction ds with
  | nil => rfl
  | cons c ds ih =>
    rw [List.forall_mem_cons] at hdigits
    have hone : continuesIdentifier [c] = true := by
      simp [continuesIdentifier, Char.isAlphanum, hdigits.1]
    exact continuesIdentifier_append hone (ih hdigits.2)

theorem continuesIdentifier_flatMap (path : List Nat) :
    continuesIdentifier (path.flatMap nameSegment) = true := by
  induction path with
  | nil => rfl
  | cons i path ih =>
    rw [List.flatMap_cons]
    exact continuesIdentifier_append
      (continuesIdentifier_append (by decide) (continuesIdentifier_toDigits (i + 1))) ih

/-- Identifiers stay identifiers on the way down a tree. -/
theorem isBasicIdentifier_pathName {name : String} (h : isBasicIdentifier name = true)
    (path : List Nat) : isBasicIdentifier (pathName name path) = true := by
  unfold isBasicIdentifier at h
  split at h
  · cases h
  · next c rest hname =>
    rw [Bool.and_eq_true] at h
    rw [isBasicIdentifier, toList_pathName, hname, List.cons_append]
    exact Bool.and_eq_true_iff.2
      ⟨h.1, continuesIdentifier_append h.2 (continuesIdentifier_flatMap path)⟩

/-- The digits of a step end where the next step starts. -/
theorem takeWhile_isDigit (n : Nat) (path : List Nat) :
    (Nat.toDigits 10 n ++ path.flatMap nameSegment).takeWhile Char.isDigit =
      Nat.toDigits 10 n := by
  rw [List.takeWhile_append_of_pos fun c hc =>
    Nat.isDigit_of_mem_toDigits (by decide) (by decide) hc]
  cases path with
  | nil => exact List.append_nil _
  | cons i path =>
    have hstart : ((i :: path).flatMap nameSegment).takeWhile Char.isDigit = [] := rfl
    rw [hstart, List.append_nil]

theorem flatMap_nameSegment_injective : Function.Injective (List.flatMap nameSegment) := by
  intro p q h
  induction p generalizing q with
  | nil =>
    cases q with
    | nil => rfl
    | cons j q => cases h
  | cons i p ih =>
    cases q with
    | nil => cases h
    | cons j q =>
      simp only [List.flatMap_cons, nameSegment, List.append_assoc, List.append_cancel_left_eq] at h
      have hdigits := congrArg (List.takeWhile Char.isDigit) h
      rw [takeWhile_isDigit, takeWhile_isDigit] at hdigits
      have hstep : i + 1 = j + 1 := by
        apply Option.some.inj
        rw [← number?_toDigits, ← number?_toDigits, hdigits]
      rw [hdigits] at h
      rw [Nat.succ.inj hstep, ih (List.append_cancel_left h)]

theorem pathName_injective (name : String) : Function.Injective (pathName name) := by
  intro p q h
  have hlist := congrArg String.toList h
  rw [toList_pathName, toList_pathName] at hlist
  exact flatMap_nameSegment_injective (List.append_cancel_left hlist)

/-- The steps are in lower case already. -/
theorem toLower_pathName (name : String) (path : List Nat) :
    (pathName name path).toLower = pathName name.toLower path := by
  have hsegment : ∀ i, (nameSegment i).map Char.toLower = nameSegment i := by
    intro i
    rw [nameSegment, List.map_append, map_toLower_toDigits]
    rfl
  apply String.toList_inj.1
  unfold String.toLower
  rw [String.toList_map, toList_pathName, toList_pathName, String.toList_map, List.map_append,
    List.map_flatMap]
  simp only [hsegment]

theorem childName_eq {child : Core} (h : child.isLeaf = false) (name : String) (i : Nat) :
    childName name i child = s!"{name}_sub{i + 1}" := by
  cases child with
  | leaf l => cases h
  | fourStep s sub1 sub2 => rfl
  | radix4 s d sub1 => rfl

theorem isLeaf_of_descend {c node : Core} {path : List Nat} (h : c.descend path = some node)
    (hnode : node.isLeaf = false) : c.isLeaf = false := by
  cases c with
  | leaf l =>
    cases path with
    | nil =>
      cases h
      exact hnode
    | cons i path => cases h
  | fourStep s sub1 sub2 => rfl
  | radix4 s d sub1 => rfl

/-- The entity at a path is that of its node, named after the path. -/
theorem architectureAt_eq {c node : Core} {name : String} {path : List Nat}
    (h : c.descend path = some node) (hnode : node.isLeaf = false) :
    c.architectureAt name path = node.ownArchitecture (pathName name path) := by
  induction path generalizing c name with
  | nil =>
    cases h
    rw [pathName_nil]
    rfl
  | cons i path ih =>
    obtain ⟨child, hi, h⟩ := Option.bind_eq_some_iff.1 h
    rw [architectureAt, hi, ← pathName_cons, ← childName_eq (isLeaf_of_descend h hnode)]
    exact ih h

theorem exists_ownArchitecture {c : Core} (h : c.isLeaf = false) (name : String) :
    ∃ a, c.ownArchitecture name = some a := by
  cases c with
  | leaf l => cases h
  | fourStep s sub1 sub2 => exact ⟨_, rfl⟩
  | radix4 s d sub1 => exact ⟨_, rfl⟩

/-- What the entity of a node says about it. -/
structure Describes (a : Architecture) (c : Core) (name : String) : Prop where
  name_eq : a.name = name
  delay : a.delay = c.delay
  inputOrder : a.inputOrder = c.inputOrder
  outputOrder : a.outputOrder = c.outputOrder
  imports : a.imports = c.ownComponents.insertMany (c.children.mapIdx (childName name))

theorem describes_ownArchitecture {c : Core} {name : String} {a : Architecture}
    (h : a ∈ c.ownArchitecture name) : Describes a c name := by
  cases c with
  | leaf l => cases h
  | fourStep s sub1 sub2 =>
    cases h
    exact ⟨rfl, rfl, rfl, rfl, rfl⟩
  | radix4 s d sub1 =>
    cases h
    exact ⟨rfl, rfl, rfl, rfl, rfl⟩

/-- The paths to the composites of a tree, those to children before those to their parents. -/
def compositePaths : Core → List (List Nat)
  | leaf _ => []
  | fourStep _ sub1 sub2 =>
    sub1.compositePaths.map (0 :: ·) ++ sub2.compositePaths.map (1 :: ·) ++ [[]]
  | radix4 _ _ sub1 => sub1.compositePaths.map (0 :: ·) ++ [[]]

theorem filter_nodes_eq (c : Core) :
    c.nodes.filter (fun node => !node.isLeaf) = c.compositePaths.filterMap c.descend := by
  induction c with
  | leaf l => rfl
  | fourStep s sub1 sub2 ih1 ih2 =>
    simp only [nodes, compositePaths, List.filter_append, List.filterMap_append, ih1, ih2,
      List.filterMap_map]
    rfl
  | radix4 s d sub1 ih1 =>
    simp only [nodes, compositePaths, List.filter_append, List.filterMap_append, ih1,
      List.filterMap_map]
    rfl

theorem architectures_eq (c : Core) (name : String) :
    c.architectures name = c.compositePaths.filterMap (c.architectureAt name) := by
  induction c generalizing name with
  | leaf l => rfl
  | fourStep s sub1 sub2 ih1 ih2 =>
    simp only [architectures, compositePaths, List.filterMap_append, ih1, ih2, List.filterMap_map]
    rfl
  | radix4 s d sub1 ih1 =>
    simp only [architectures, compositePaths, List.filterMap_append, ih1, List.filterMap_map]
    rfl

theorem cons_mem_map_cons {i j : Nat} {p : List Nat} {ps : List (List Nat)} :
    i :: p ∈ ps.map (j :: ·) ↔ i = j ∧ p ∈ ps := by
  rw [List.mem_map]
  constructor
  · rintro ⟨q, hq, h⟩
    cases h
    exact ⟨rfl, hq⟩
  · rintro ⟨rfl, hp⟩
    exact ⟨p, hp, rfl⟩

theorem nil_notMem_map_cons (j : Nat) (ps : List (List Nat)) : [] ∉ ps.map (j :: ·) := by
  intro h
  obtain ⟨q, _, hq⟩ := List.mem_map.1 h
  cases hq

/-- A path leads to a composite through one of the children, or it is empty. -/
theorem cons_mem_compositePaths {c : Core} {i : Nat} {path : List Nat} :
    i :: path ∈ c.compositePaths ↔
      ∃ child, c.children[i]? = some child ∧ path ∈ child.compositePaths := by
  cases c with
  | leaf l => simp [compositePaths, children]
  | fourStep s sub1 sub2 =>
    simp only [compositePaths, List.mem_append, cons_mem_map_cons, getElem?_children_fourStep]
    constructor
    · rintro ((⟨rfl, h⟩ | ⟨rfl, h⟩) | h)
      · exact ⟨sub1, Or.inl ⟨rfl, rfl⟩, h⟩
      · exact ⟨sub2, Or.inr ⟨rfl, rfl⟩, h⟩
      · cases List.mem_singleton.1 h
    · rintro ⟨child, ⟨rfl, rfl⟩ | ⟨rfl, rfl⟩, h⟩
      · exact Or.inl (Or.inl ⟨rfl, h⟩)
      · exact Or.inl (Or.inr ⟨rfl, h⟩)
  | radix4 s d sub1 =>
    simp only [compositePaths, List.mem_append, cons_mem_map_cons, getElem?_children_radix4]
    constructor
    · rintro (⟨rfl, h⟩ | h)
      · exact ⟨sub1, ⟨rfl, rfl⟩, h⟩
      · cases List.mem_singleton.1 h
    · rintro ⟨child, ⟨rfl, rfl⟩, h⟩
      exact Or.inl ⟨rfl, h⟩

theorem nil_mem_compositePaths {c : Core} : [] ∈ c.compositePaths ↔ c.isLeaf = false := by
  cases c with
  | leaf l => simp [compositePaths, isLeaf]
  | fourStep s sub1 sub2 => simp [compositePaths, isLeaf]
  | radix4 s d sub1 => simp [compositePaths, isLeaf]

theorem mem_compositePaths {c : Core} {path : List Nat} :
    path ∈ c.compositePaths ↔ ∃ node, c.descend path = some node ∧ node.isLeaf = false := by
  induction path generalizing c with
  | nil => simp [nil_mem_compositePaths, descend]
  | cons i path ih =>
    rw [cons_mem_compositePaths, descend]
    constructor
    · rintro ⟨child, hi, h⟩
      obtain ⟨node, hnode, hleaf⟩ := ih.1 h
      exact ⟨node, Option.bind_eq_some_iff.2 ⟨child, hi, hnode⟩, hleaf⟩
    · rintro ⟨node, hnode, hleaf⟩
      obtain ⟨child, hi, hnode⟩ := Option.bind_eq_some_iff.1 hnode
      exact ⟨child, hi, ih.2 ⟨node, hnode, hleaf⟩⟩

/-- Only composites have entities. -/
theorem mem_compositePaths_of_architectureAt {c : Core} {name : String} {path : List Nat}
    {a : Architecture} (h : a ∈ c.architectureAt name path) : path ∈ c.compositePaths := by
  induction path generalizing c name with
  | nil =>
    rw [nil_mem_compositePaths]
    cases c with
    | leaf l => cases h
    | fourStep s sub1 sub2 => rfl
    | radix4 s d sub1 => rfl
  | cons i path ih =>
    obtain ⟨child, hi, h⟩ := Option.bind_eq_some_iff.1 h
    exact cons_mem_compositePaths.2 ⟨child, hi, ih h⟩

/-- The entities that are written for a tree are those at its paths. -/
theorem mem_architectures_iff_architectureAt {c : Core} {name : String} {a : Architecture} :
    a ∈ c.architectures name ↔ ∃ path, a ∈ c.architectureAt name path := by
  rw [architectures_eq, List.mem_filterMap]
  constructor
  · rintro ⟨path, _, h⟩
    exact ⟨path, h⟩
  · rintro ⟨path, h⟩
    exact ⟨path, mem_compositePaths_of_architectureAt h, h⟩

theorem nodup_compositePaths (c : Core) : c.compositePaths.Nodup := by
  have hcons : ∀ (i : Nat) {ps : List (List Nat)}, ps.Nodup → (ps.map (i :: ·)).Nodup :=
    fun i _ h => h.map fun p q hpq => (List.cons.inj hpq).2
  have hlast : ∀ {ps : List (List Nat)}, ps.Nodup → [] ∉ ps → (ps ++ [[]]).Nodup := by
    intro ps h hnil
    exact h.append (List.nodup_singleton _) (List.disjoint_singleton.2 hnil)
  induction c with
  | leaf l => exact List.nodup_nil
  | fourStep s sub1 sub2 ih1 ih2 =>
    apply hlast
    · apply (hcons 0 ih1).append (hcons 1 ih2)
      intro p h0 h1
      obtain ⟨q, _, rfl⟩ := List.mem_map.1 h0
      exact absurd (cons_mem_map_cons.1 h1).1 (by decide)
    · intro h
      exact (List.mem_append.1 h).elim (nil_notMem_map_cons 0 _) (nil_notMem_map_cons 1 _)
  | radix4 s d sub1 ih1 => exact hlast (hcons 0 ih1) (nil_notMem_map_cons 0 _)

/-- The paths to a child's composites stand together. -/
theorem map_cons_sublist_compositePaths {c child : Core} {i : Nat}
    (hi : c.children[i]? = some child) :
    (child.compositePaths.map (i :: ·) ++ [[]]).Sublist c.compositePaths := by
  cases c with
  | leaf l => cases hi
  | fourStep s sub1 sub2 =>
    obtain ⟨rfl, rfl⟩ | ⟨rfl, rfl⟩ := getElem?_children_fourStep.1 hi
    · exact (List.sublist_append_left _ _).append (List.Sublist.refl _)
    · exact (List.sublist_append_right _ _).append (List.Sublist.refl _)
  | radix4 s d sub1 =>
    obtain ⟨rfl, rfl⟩ := getElem?_children_radix4.1 hi
    exact List.Sublist.refl _

/-- The path to a composite stands behind the paths to its children. -/
theorem pair_sublist_compositePaths {c : Core} {path : List Nat} {i : Nat}
    (h : path ++ [i] ∈ c.compositePaths) : [path ++ [i], path].Sublist c.compositePaths := by
  induction path generalizing c with
  | nil =>
    obtain ⟨child, hi, h⟩ := cons_mem_compositePaths.1 h
    have hchild : [[i]].Sublist (child.compositePaths.map (i :: ·)) :=
      List.singleton_sublist.2 (List.mem_map_of_mem h)
    exact (hchild.append (List.Sublist.refl [[]])).trans (map_cons_sublist_compositePaths hi)
  | cons j path ih =>
    obtain ⟨child, hj, h⟩ := cons_mem_compositePaths.1 h
    have hchild := (ih h).map (j :: ·)
    exact (hchild.trans (List.sublist_append_left _ [[]])).trans
      (map_cons_sublist_compositePaths hj)

end Core
end StreamingFft
