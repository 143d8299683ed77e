import StreamingFft.Core.Basic
/-!
Nodes of a tree, seen from their parents and from the paths that lead to them.
-/
namespace StreamingFft.Core

theorem getElem?_children_fourStep {s : Stage} {sub1 sub2 child : Core} {i : Nat} :
    (fourStep s sub1 sub2).children[i]? = some child ↔
      i = 0 ∧ child = sub1 ∨ i = 1 ∧ child = sub2 := by
  match i with
  | 0 => simp [children, eq_comm]
  | 1 => simp [children, eq_comm]
  | i + 2 => simp [children]

theorem getElem?_children_radix4 {s : Stage} {d : Nat} {sub1 child : Core} {i : Nat} :
    (radix4 s d sub1).children[i]? = some child ↔ i = 0 ∧ child = sub1 := by
  match i with
  | 0 => simp [children, eq_comm]
  | i + 1 => simp [children]

/-- What passes from the children of a node to the node holds for all trees. -/
theorem children_induction {P : Core → Prop}
    (step : ∀ c : Core, (∀ (i : Nat) (child : Core), c.children[i]? = some child → P child) → P c)
    (c : Core) : P c := by
  induction c with
  | leaf l => exact step _ fun i child hi => nomatch hi
  | fourStep s sub1 sub2 ih1 ih2 =>
    apply step
    intro i child hi
    obtain ⟨_, rfl⟩ | ⟨_, rfl⟩ := getElem?_children_fourStep.1 hi
    · exact ih1
    · exact ih2
  | radix4 s d sub1 ih1 =>
    apply step
    intro i child hi
    obtain ⟨_, rfl⟩ := getElem?_children_radix4.1 hi
    exact ih1

theorem mem_nodes_iff {c node : Core} :
    node ∈ c.nodes ↔
      node = c ∨ ∃ (i : Nat) (child : Core), c.children[i]? = some child ∧ node ∈ child.nodes := by
  cases c with
  | leaf l => simp [nodes, children]
  | fourStep s sub1 sub2 =>
    simp only [nodes, List.mem_append, List.mem_singleton, getElem?_children_fourStep]
    constructor
    · intro h
      rcases h with (h | h) | rfl
      · exact Or.inr ⟨0, sub1, Or.inl ⟨rfl, rfl⟩, h⟩
      · exact Or.inr ⟨1, sub2, Or.inr ⟨rfl, rfl⟩, h⟩
      · exact Or.inl rfl
    · intro h
      rcases h with rfl | ⟨i, child, ⟨_, rfl⟩ | ⟨_, rfl⟩, h⟩
      · exact Or.inr rfl
      · exact Or.inl (Or.inl h)
      · exact Or.inl (Or.inr h)
  | radix4 s d sub1 =>
    simp only [nodes, List.mem_append, List.mem_singleton, getElem?_children_radix4]
    constructor
    · intro h
      rcases h with h | rfl
      · exact Or.inr ⟨0, sub1, ⟨rfl, rfl⟩, h⟩
      · exact Or.inl rfl
    · intro h
      rcases h with rfl | ⟨i, child, ⟨_, rfl⟩, h⟩
      · exact Or.inr rfl
      · exact Or.inl h

theorem self_mem_nodes (c : Core) : c ∈ c.nodes :=
  mem_nodes_iff.2 (Or.inl rfl)

theorem child_mem_nodes {c child : Core} {i : Nat} (hi : c.children[i]? = some child) :
    child ∈ c.nodes :=
  mem_nodes_iff.2 (Or.inr ⟨i, child, hi, self_mem_nodes child⟩)

/-- The nodes of a subtree are nodes of the tree. -/
theorem nodes_subset {c node : Core} (h : node ∈ c.nodes) : node.nodes ⊆ c.nodes := by
  induction c using children_induction with
  | step c ih =>
    obtain rfl | ⟨i, child, hi, h⟩ := mem_nodes_iff.1 h
    · exact List.Subset.refl _
    · exact fun n hn => mem_nodes_iff.2 (Or.inr ⟨i, child, hi, ih i child hi h hn⟩)

/-- The nodes of a tree are those at its paths. -/
theorem mem_nodes_iff_descend {c node : Core} :
    node ∈ c.nodes ↔ ∃ path, c.descend path = some node := by
  induction c using children_induction with
  | step c ih =>
    rw [mem_nodes_iff]
    constructor
    · intro h
      rcases h with rfl | ⟨i, child, hi, h⟩
      · exact ⟨[], rfl⟩
      · obtain ⟨path, hpath⟩ := (ih i child hi).1 h
        exact ⟨i :: path, by rw [descend, hi]; exact hpath⟩
    · intro h
      rcases h with ⟨_ | ⟨i, path⟩, h⟩
      · exact Or.inl (Option.some.inj h).symm
      · obtain ⟨child, hi, h⟩ := Option.bind_eq_some_iff.1 h
        exact Or.inr ⟨i, child, hi, (ih i child hi).2 ⟨path, h⟩⟩

theorem exists_descend_of_append {t c : Core} {p q : List Nat} (h : t.descend (p ++ q) = some c) :
    ∃ node, t.descend p = some node ∧ node.descend q = some c := by
  induction p generalizing t with
  | nil => exact ⟨t, rfl, h⟩
  | cons i p ih =>
    obtain ⟨child, hi, h⟩ := Option.bind_eq_some_iff.1 h
    obtain ⟨node, hnode, hq⟩ := ih h
    exact ⟨node, Option.bind_eq_some_iff.2 ⟨child, hi, hnode⟩, hq⟩

end StreamingFft.Core
