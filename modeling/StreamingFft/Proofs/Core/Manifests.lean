import StreamingFft.Proofs.Core.Generation
/-!
The components of a tree and the manifests of its entities. The tree lists the leaves where it visits
them and knows nothing of the entities that will be written; an entity lists what it instantiates, be
it a leaf or another entity.
-/
namespace StreamingFft.Core
open Vhdl

theorem components_leaf (l : Leaf) : (leaf l).components = (leaf l).ownComponents :=
  Manifest.empty_union _

theorem components_fourStep (s : Stage) (sub1 sub2 : Core) :
    (fourStep s sub1 sub2).components =
      sub1.components ∪ sub2.components ∪ (fourStep s sub1 sub2).ownComponents := by
  rw [components, nodes, Manifest.foldl_union_append, Manifest.foldl_union_append, List.foldl_cons,
    List.foldl_nil, Manifest.empty_union, components, components]

theorem components_radix4 (s : Stage) (d : Nat) (sub1 : Core) :
    (radix4 s d sub1).components = sub1.components ∪ (radix4 s d sub1).ownComponents := by
  rw [components, nodes, Manifest.foldl_union_append, List.foldl_cons, List.foldl_nil,
    Manifest.empty_union, components]

/-- The components of the children in their order, and then those of the node itself. -/
theorem components_eq (c : Core) :
    c.components =
      c.children.foldl (fun m child => m ∪ child.components) ∅ ∪ c.ownComponents := by
  cases c with
  | leaf l => rw [components_leaf, children, List.foldl_nil, Manifest.empty_union]
  | fourStep s sub1 sub2 =>
    rw [components_fourStep, children, List.foldl_cons, List.foldl_cons, List.foldl_nil,
      Manifest.empty_union]
  | radix4 s d sub1 =>
    rw [components_radix4, children, List.foldl_cons, List.foldl_nil, Manifest.empty_union]

theorem mem_components {c : Core} {x : String} :
    x ∈ c.components ↔ ∃ node ∈ c.nodes, x ∈ node.ownComponents :=
  Manifest.mem_foldl_union ownComponents

/-- Every node below the root is the child of a node. -/
theorem exists_parent {c node : Core} {path : List Nat} {i : Nat}
    (h : c.descend (path ++ [i]) = some node) :
    ∃ parent, c.descend path = some parent ∧ parent.children[i]? = some node := by
  induction path generalizing c with
  | nil =>
    obtain ⟨child, hi, h⟩ := Option.bind_eq_some_iff.1 h
    cases h
    exact ⟨c, rfl, hi⟩
  | cons j path ih =>
    obtain ⟨child, hj, h⟩ := Option.bind_eq_some_iff.1 h
    obtain ⟨parent, hparent, hi⟩ := ih h
    exact ⟨parent, Option.bind_eq_some_iff.2 ⟨child, hj, hparent⟩, hi⟩

/-- An entity lists what its node needs itself, and the names of the children. -/
theorem mem_imports_iff {a : Architecture} {node : Core} {name x : String}
    (h : Describes a node name) :
    x ∈ a.imports ↔ x ∈ node.ownComponents ∨
      ∃ (i : Nat) (child : Core), node.children[i]? = some child ∧ x = childName name i child := by
  rw [h.imports, Manifest.mem_insertMany, List.mem_mapIdx]
  simp only [List.getElem?_eq_some_iff]
  refine or_congr_right ⟨?_, ?_⟩
  · rintro ⟨i, hi, rfl⟩
    exact ⟨i, _, ⟨hi, rfl⟩, rfl⟩
  · rintro ⟨i, child, ⟨hi, rfl⟩, rfl⟩
    exact ⟨i, hi, rfl⟩

section
variable {c : Core} {name x : String}

/-- A child is listed as a component of the tree if it is a leaf, and under the name of its entity if
not. -/
theorem mem_components_or_eq_name {path : List Nat} {node child : Core} {i : Nat}
    (hnode : c.descend path = some node) (hi : node.children[i]? = some child) :
    childName (pathName name path) i child ∈ c.components ∨
      ∃ a ∈ c.architectures name, a.name ≠ name ∧ childName (pathName name path) i child = a.name := by
  have hdescend : c.descend (path ++ [i]) = some child := (descend_concat hnode i).trans hi
  cases hleaf : child.isLeaf with
  | true =>
    cases child with
    | leaf l =>
      have hentity : l.entity ∈ (leaf l).ownComponents :=
        Manifest.mem_ofList.2 (List.mem_singleton_self _)
      exact Or.inl (mem_components.2 ⟨leaf l, mem_nodes_iff_descend.2 ⟨_, hdescend⟩, hentity⟩)
    | fourStep s sub1 sub2 => cases hleaf
    | radix4 s d sub1 => cases hleaf
  | false =>
    obtain ⟨a, _, ha, _, hdescribes, -⟩ :=
      exists_architectureAt name (mem_compositePaths.2 ⟨child, hdescend, hleaf⟩)
    refine Or.inr ⟨a, mem_architectures_iff_architectureAt.2 ⟨_, ha⟩, ?_, ?_⟩
    · -- only the root is called like the whole tree
      rw [hdescribes.name_eq]
      intro heq
      exact absurd (pathName_injective name (heq.trans (pathName_nil name).symm)) (by simp)
    · rw [hdescribes.name_eq, childName_eq hleaf, pathName_concat]

/-- The entity of the parent lists a node below the root. -/
theorem exists_childName_mem_imports {path : List Nat} {i : Nat} {node : Core}
    (h : c.descend (path ++ [i]) = some node) :
    ∃ a ∈ c.architectures name, childName (pathName name path) i node ∈ a.imports := by
  obtain ⟨parent, hparent, hi⟩ := exists_parent h
  have hcomposite : parent.isLeaf = false := by
    cases parent with
    | leaf l => cases hi
    | fourStep s sub1 sub2 => rfl
    | radix4 s d sub1 => rfl
  obtain ⟨a, parent', ha, hparent', hdescribes, -⟩ :=
    exists_architectureAt name (mem_compositePaths.2 ⟨parent, hparent, hcomposite⟩)
  cases hparent.symm.trans hparent'
  exact ⟨a, mem_architectures_iff_architectureAt.2 ⟨path, ha⟩,
    (mem_imports_iff hdescribes).2 (Or.inr ⟨i, node, hi, rfl⟩)⟩

theorem exists_mem_imports_of_mem_components (hc : c.isLeaf = false) (hx : x ∈ c.components) :
    ∃ a ∈ c.architectures name, x ∈ a.imports := by
  obtain ⟨node, hmem, hx⟩ := mem_components.1 hx
  obtain ⟨path, hpath⟩ := mem_nodes_iff_descend.1 hmem
  cases hleaf : node.isLeaf with
  | false =>
    obtain ⟨a, node', ha, hnode', hdescribes, -⟩ :=
      exists_architectureAt name (mem_compositePaths.2 ⟨node, hpath, hleaf⟩)
    cases hpath.symm.trans hnode'
    exact ⟨a, mem_architectures_iff_architectureAt.2 ⟨path, ha⟩,
      (mem_imports_iff hdescribes).2 (Or.inl hx)⟩
  | true =>
    -- a leaf has no entity of its own here, but it is not the root, and its parent lists it
    cases node with
    | leaf l =>
      obtain rfl := List.mem_singleton.1 (Manifest.mem_ofList.1 hx)
      rcases List.eq_nil_or_concat path with rfl | ⟨path, i, rfl⟩
      · cases hpath
        cases hc
      · rw [List.concat_eq_append] at hpath
        exact exists_childName_mem_imports hpath
    | fourStep s sub1 sub2 => cases hleaf
    | radix4 s d sub1 => cases hleaf

theorem exists_mem_imports_of_mem_architectures {a : Architecture} (ha : a ∈ c.architectures name)
    (hname : a.name ≠ name) : ∃ parent ∈ c.architectures name, a.name ∈ parent.imports := by
  obtain ⟨path, ha⟩ := mem_architectures_iff_architectureAt.1 ha
  obtain ⟨a', node, ha', hnode, hdescribes, hown⟩ :=
    exists_architectureAt name (mem_compositePaths_of_architectureAt ha)
  cases ha.symm.trans ha'
  rcases List.eq_nil_or_concat path with rfl | ⟨path, i, rfl⟩
  · exact absurd (hdescribes.name_eq.trans (pathName_nil name)) hname
  · rw [List.concat_eq_append] at hnode hdescribes
    have hleaf : node.isLeaf = false := by
      cases node with
      | leaf l => cases hown
      | fourStep s sub1 sub2 => rfl
      | radix4 s d sub1 => rfl
    rw [hdescribes.name_eq, pathName_concat, ← childName_eq hleaf]
    exact exists_childName_mem_imports hnode

end

/-- Every node of a tree needs what its children need, in their order, and then what it needs itself.
The entities of a composite list together what the tree needs and the entities below the root. -/
theorem components_eq_and_covered (c : Core) :
    (∀ node ∈ c.nodes, node.components =
      node.children.foldl (fun m child => m ∪ child.components) ∅ ∪ node.ownComponents) ∧
    (c.isLeaf = false → ∀ (name : String) (as : List Architecture), c.generate name = .ok as →
      ∀ x, (∃ a ∈ as, x ∈ a.imports) ↔
        x ∈ c.components ∨ ∃ a ∈ as, a.name ≠ name ∧ x = a.name) := by
  refine ⟨fun node _ => components_eq node, ?_⟩
  intro hc name as h x
  obtain ⟨-, rfl⟩ := generate_eq_ok_iff.1 h
  constructor
  · rintro ⟨a, ha, hx⟩
    obtain ⟨path, ha⟩ := mem_architectures_iff_architectureAt.1 ha
    obtain ⟨a', node, ha', hnode, hdescribes, -⟩ :=
      exists_architectureAt name (mem_compositePaths_of_architectureAt ha)
    cases ha.symm.trans ha'
    rcases (mem_imports_iff hdescribes).1 hx with hx | ⟨i, child, hi, rfl⟩
    · exact Or.inl (mem_components.2 ⟨node, mem_nodes_iff_descend.2 ⟨path, hnode⟩, hx⟩)
    · exact mem_components_or_eq_name hnode hi
  · rintro (hx | ⟨a, ha, hname, rfl⟩)
    · exact exists_mem_imports_of_mem_components hc hx
    · exact exists_mem_imports_of_mem_architectures ha hname

/-- The entity below the radix-4 stage is listed, and it is no component of the tree. -/
theorem components_eq_and_covered_nested :
    nested.isLeaf = false ∧ nested.generate "top" = .ok (nested.architectures "top") ∧
      nested ∈ nested.nodes ∧
      nested.components =
        ∅ ∪ (swappedPair.replaceMultiplier .wide .tree).components ∪ nested.ownComponents ∧
      "top_sub1" ∉ nested.components ∧ "fft4" ∈ nested.components ∧
      ∀ x ∈ ["top_sub1", "fft4"], ∃ a ∈ nested.architectures "top", x ∈ a.imports := by
  have hgenerate : nested.generate "top" = .ok (nested.architectures "top") :=
    generate_eq_ok_iff.2 ⟨by decide, rfl⟩
  have hleaf : "fft4" ∈ nested.components := by decide
  have hentity : ∃ a ∈ nested.architectures "top", a.name ≠ "top" ∧ "top_sub1" = a.name :=
    ⟨_, List.mem_cons_self, by decide, rfl⟩
  obtain ⟨hnodes, hcovered⟩ := components_eq_and_covered nested
  have hlisted := hcovered rfl "top" _ hgenerate
  refine ⟨rfl, hgenerate, self_mem_nodes _, hnodes nested (self_mem_nodes _), by decide, hleaf, ?_⟩
  exact List.forall_mem_cons.2 ⟨(hlisted _).2 (Or.inr hentity),
    List.forall_mem_singleton.2 ((hlisted _).2 (Or.inl hleaf))⟩

end StreamingFft.Core
