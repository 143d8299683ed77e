import StreamingFft.Proofs.Core.Entities
/-!
Generation writes every composite of a tree once, under a name of its own, behind the composites that
it instantiates, and writes the same as the generations of the children together.
-/
namespace StreamingFft.Core
open Vhdl

/-- Two selections that agree on what they take, taken from one list. -/
theorem forall₂_filterMap {α β γ : Type} {R : β → γ → Prop} {f : α → Option β} {g : α → Option γ}
    {l : List α} (h : ∀ x ∈ l, ∃ y z, f x = some y ∧ g x = some z ∧ R y z) :
    List.Forall₂ R (l.filterMap f) (l.filterMap g) := by
  induction l with
  | nil => exact .nil
  | cons x l ih =>
    rw [List.forall_mem_cons] at h
    obtain ⟨y, z, hy, hz, hyz⟩ := h.1
    rw [List.filterMap_cons_some hy, List.filterMap_cons_some hz]
    exact .cons hyz (ih h.2)

theorem generate_eq_ok_iff {c : Core} {name : String} {as : List Architecture} :
    c.generate name = .ok as ↔
      (isBasicIdentifier name = true ∧ c.isTimed = true) ∧ c.architectures name = as := by
  rw [generate, timed, ite_eq_ok_iff, ite_eq_ok_iff, Except.ok.injEq, and_assoc]

/-- At the path to a composite stands an entity, which describes it. -/
theorem exists_architectureAt {c : Core} (name : String) {path : List Nat}
    (h : path ∈ c.compositePaths) :
    ∃ a node, c.architectureAt name path = some a ∧ c.descend path = some node ∧
      Describes a node (pathName name path) ∧ a ∈ node.ownArchitecture (pathName name path) := by
  obtain ⟨node, hnode, hleaf⟩ := mem_compositePaths.1 h
  obtain ⟨a, ha⟩ := exists_ownArchitecture hleaf (pathName name path)
  exact ⟨a, node, (architectureAt_eq hnode hleaf).trans ha, hnode, describes_ownArchitecture ha, ha⟩

/-- Every entity of a tree is that of a node, under a name that is an identifier if the root's is. -/
theorem exists_node_of_mem_architectures {c : Core} {name : String}
    (hname : Vhdl.isBasicIdentifier name = true) {a : Architecture} (ha : a ∈ c.architectures name) :
    ∃ node ∈ c.nodes, Vhdl.isBasicIdentifier a.name = true ∧ a ∈ node.ownArchitecture a.name := by
  rw [architectures_eq] at ha
  obtain ⟨path, hpath, ha⟩ := List.mem_filterMap.1 ha
  obtain ⟨a', node, ha', hnode, hdescribes, hown⟩ := exists_architectureAt name hpath
  cases ha.symm.trans ha'
  refine ⟨node, mem_nodes_iff_descend.2 ⟨path, hnode⟩, ?_⟩
  rw [hdescribes.name_eq]
  exact ⟨isBasicIdentifier_pathName hname path, hown⟩

/-- The entities are named after their paths. -/
theorem map_name_architectures (c : Core) (name : String) :
    (c.architectures name).map (·.name) = c.compositePaths.map (pathName name) := by
  rw [architectures_eq, List.map_filterMap, ← List.filterMap_eq_map]
  apply List.filterMap_congr
  intro path hpath
  obtain ⟨a, node, ha, -, hdescribes, -⟩ := exists_architectureAt name hpath
  rw [ha]
  exact congrArg some hdescribes.name_eq

/-- No two entities of a tree have the same name, whatever the case of the letters. -/
theorem nodup_toLower_architectures (c : Core) (name : String) :
    ((c.architectures name).map fun a => a.name.toLower).Nodup := by
  have hmap : ((c.architectures name).map fun a => a.name.toLower) =
      c.compositePaths.map (pathName name.toLower) :=
    calc ((c.architectures name).map fun a => a.name.toLower)
        = ((c.architectures name).map (·.name)).map String.toLower := by
          rw [List.map_map]
          rfl
      _ = c.compositePaths.map (pathName name.toLower) := by
          rw [map_name_architectures, List.map_map]
          exact List.map_congr_left fun path _ => toLower_pathName name path
  rw [hmap]
  exact (nodup_compositePaths c).map (pathName_injective _)

/-- What a generation of a tree gives. -/
structure Generated (c : Core) (name : String) (as : List Architecture) : Prop where
  /-- Every composite has one entity, in the order of the nodes, which says what is known of it. -/
  entities : List.Forall₂
    (fun a node => a ∈ node.ownArchitecture a.name ∧ a.delay = node.delay ∧
      a.inputOrder = node.inputOrder ∧ a.outputOrder = node.outputOrder)
    as (c.nodes.filter fun node => !node.isLeaf)
  /-- The entity of a composite child comes before that of its parent, which lists its name. -/
  children : ∀ (path : List Nat) (node : Core) (i : Nat) (child : Core),
    c.descend path = some node → node.children[i]? = some child → child.isLeaf = false →
      ∃ parent ∈ c.architectureAt name path, ∃ own ∈ c.architectureAt name (path ++ [i]),
        [own, parent].Sublist as ∧ own.name ∈ parent.imports
  identifiers : ∀ a ∈ as, isBasicIdentifier a.name = true
  distinct : (as.map fun a => a.name.toLower).Nodup
  /-- The entities of the children can be generated alone, under the names that they have here. -/
  modular : c.isLeaf = false → ∃ (parts : List (List Architecture)) (root : Architecture),
    root ∈ c.ownArchitecture name ∧ as = parts.flatten ++ [root] ∧
      List.Forall₂ (fun child part => child.1.generate s!"{name}_sub{child.2 + 1}" = .ok part)
        c.children.zipIdx parts

theorem entities_architectures (c : Core) (name : String) :
    List.Forall₂
      (fun a node => a ∈ node.ownArchitecture a.name ∧ a.delay = node.delay ∧
        a.inputOrder = node.inputOrder ∧ a.outputOrder = node.outputOrder)
      (c.architectures name) (c.nodes.filter fun node => !node.isLeaf) := by
  rw [architectures_eq, filter_nodes_eq]
  apply forall₂_filterMap
  intro path hpath
  obtain ⟨a, node, ha, hnode, h, hown⟩ := exists_architectureAt name hpath
  refine ⟨a, node, ha, hnode, ?_, h.delay, h.inputOrder, h.outputOrder⟩
  rw [h.name_eq]
  exact hown

theorem descend_concat {c node : Core} {path : List Nat} (h : c.descend path = some node)
    (i : Nat) : c.descend (path ++ [i]) = node.children[i]? := by
  induction path generalizing c with
  | nil =>
    cases h
    exact Option.bind_fun_some _
  | cons j path ih =>
    obtain ⟨child, hj, h⟩ := Option.bind_eq_some_iff.1 h
    rw [List.cons_append, descend, hj]
    exact ih h

theorem children_architectures {c node child : Core} {path : List Nat} {i : Nat} (name : String)
    (hnode : c.descend path = some node) (hi : node.children[i]? = some child)
    (hchild : child.isLeaf = false) :
    ∃ parent ∈ c.architectureAt name path, ∃ own ∈ c.architectureAt name (path ++ [i]),
      [own, parent].Sublist (c.architectures name) ∧ own.name ∈ parent.imports := by
  have hstep : node.descend [i] = some child := Option.bind_eq_some_iff.2 ⟨child, hi, rfl⟩
  have hnodeLeaf : node.isLeaf = false := isLeaf_of_descend hstep hchild
  have hdescend : c.descend (path ++ [i]) = some child := (descend_concat hnode i).trans hi
  obtain ⟨parent, node', hparent, hnode', hparentIs, -⟩ := exists_architectureAt name
    (mem_compositePaths.2 ⟨node, hnode, hnodeLeaf⟩)
  obtain ⟨own, _, hown, -, hownIs, -⟩ := exists_architectureAt name
    (mem_compositePaths.2 ⟨child, hdescend, hchild⟩)
  cases hnode.symm.trans hnode'
  refine ⟨parent, hparent, own, hown, ?_, ?_⟩
  · have hpair := (pair_sublist_compositePaths
      (mem_compositePaths.2 ⟨child, hdescend, hchild⟩)).filterMap (c.architectureAt name)
    rw [architectures_eq]
    rwa [List.filterMap_cons_some hown, List.filterMap_cons_some hparent] at hpair
  · obtain ⟨hlt, rfl⟩ := List.getElem?_eq_some_iff.1 hi
    rw [hparentIs.imports, Manifest.mem_insertMany, hownIs.name_eq, pathName_concat,
      ← childName_eq hchild]
    exact Or.inr (List.mem_mapIdx.2 ⟨i, hlt, rfl⟩)

/-- The entities of a composite are those of its children and its own. -/
theorem modular_architectures {c : Core} {name : String} (hc : c.isLeaf = false)
    (hname : isBasicIdentifier name = true) (htimed : c.isTimed = true) :
    ∃ (parts : List (List Architecture)) (root : Architecture),
      root ∈ c.ownArchitecture name ∧ c.architectures name = parts.flatten ++ [root] ∧
        List.Forall₂ (fun child part => child.1.generate s!"{name}_sub{child.2 + 1}" = .ok part)
          c.children.zipIdx parts := by
  -- leaves give nothing, whatever they are called
  have hpart : ∀ (i : Nat) (child : Core), child ∈ c.children →
      child.generate s!"{name}_sub{i + 1}" = .ok (child.architectures (childName name i child)) := by
    intro i child hchild
    have hident : isBasicIdentifier s!"{name}_sub{i + 1}" = true := by
      rw [← pathName_nil s!"{name}_sub{i + 1}", pathName_cons]
      exact isBasicIdentifier_pathName hname [i]
    refine generate_eq_ok_iff.2 ⟨⟨hident, isTimed_of_mem_children hchild htimed⟩, ?_⟩
    cases hleaf : child.isLeaf with
    | true =>
      cases child with
      | leaf l => rfl
      | fourStep s sub1 sub2 => cases hleaf
      | radix4 s d sub1 => cases hleaf
    | false => rw [childName_eq hleaf]
  cases c with
  | leaf l => cases hc
  | fourStep s sub1 sub2 =>
    refine ⟨[sub1.architectures (childName name 0 sub1), sub2.architectures (childName name 1 sub2)],
      _, rfl, ?_, ?_⟩
    · rw [List.flatten_cons, List.flatten_cons, List.flatten_nil, List.append_nil]
      rfl
    · exact .cons (hpart 0 sub1 (.head _)) (.cons (hpart 1 sub2 (.tail _ (.head _))) .nil)
  | radix4 s d sub1 =>
    refine ⟨[sub1.architectures (childName name 0 sub1)], _, rfl, ?_, ?_⟩
    · rw [List.flatten_cons, List.flatten_nil, List.append_nil]
      rfl
    · exact .cons (hpart 0 sub1 (.head _)) .nil

/-- Generation succeeds for basic identifiers and latencies that a word holds, and for no others. -/
theorem exists_generate_iff_and_generated (c : Core) (name : String) :
    ((∃ as, c.generate name = .ok as) ↔ isBasicIdentifier name = true ∧ c.delay ≤ maxWord) ∧
      ∀ as, c.generate name = .ok as → c.Generated name as := by
  constructor
  · constructor
    · rintro ⟨as, h⟩
      obtain ⟨⟨hname, htimed⟩, -⟩ := generate_eq_ok_iff.1 h
      exact ⟨hname, of_decide_eq_true htimed⟩
    · rintro ⟨hname, hdelay⟩
      exact ⟨_, generate_eq_ok_iff.2 ⟨⟨hname, decide_eq_true hdelay⟩, rfl⟩⟩
  · intro as h
    obtain ⟨⟨hname, htimed⟩, rfl⟩ := generate_eq_ok_iff.1 h
    refine ⟨entities_architectures c name, ?_, ?_, nodup_toLower_architectures c name, ?_⟩
    · intro path node i child hnode hi hchild
      exact children_architectures name hnode hi hchild
    · intro a ha
      have hmem := List.mem_map_of_mem (f := fun a : Architecture => a.name) ha
      rw [map_name_architectures] at hmem
      obtain ⟨path, -, hpath⟩ := List.mem_map.1 hmem
      rw [← hpath]
      exact isBasicIdentifier_pathName hname path
    · intro hc
      exact modular_architectures hc hname htimed

theorem generated_nested :
    isBasicIdentifier "top" = true ∧ nested.delay ≤ maxWord ∧
      nested.generate "top" = .ok (nested.architectures "top") ∧
      nested.Generated "top" (nested.architectures "top") := by
  have hname : isBasicIdentifier "top" = true := by decide
  have hdelay : nested.delay ≤ maxWord := by decide
  have h := generate_eq_ok_iff.2 ⟨⟨hname, decide_eq_true hdelay⟩, rfl⟩
  exact ⟨hname, hdelay, h, (exists_generate_iff_and_generated nested "top").2 _ h⟩

/-- One point, as late as a word can say up to a few cycles. -/
def slowLeaf : Leaf where
  order := 0
  entity := "fft1"
  scale := "SCALE_NONE"
  delay := 18446744073709551602
  inputOrder := .natural 0
  outputOrder := .natural 0
  size_inputOrder := rfl
  size_outputOrder := rfl

/-- Its latency is no word any more. -/
def slowTree : Core :=
  radix4 (.ofLast 4 2 1 (.natural 0)) (radix4Delay 4) (leaf slowLeaf)

theorem not_generate_of_isBasicIdentifier :
    ¬ ∀ (c : Core) (name : String), c.Reachable →
      ((∃ as, c.generate name = .ok as) ↔ isBasicIdentifier name = true) := by
  intro h
  have hslow : Leaf.ofSize 1 "fft1" "SCALE_NONE" 18446744073709551602 = .ok slowLeaf := rfl
  have htree : slowTree.Reachable := .radix4 (n := 4) (.leaf hslow) rfl
  obtain ⟨as, has⟩ := (h slowTree "w" htree).2 (by decide)
  have hfault : slowTree.generate "w" = .error (.overflow .latency) := rfl
  rw [hfault] at has
  cases has

end StreamingFft.Core
