import StreamingFft.Proofs.Core.Components
/-!
Unions of manifests keep the order of insertion, and still they may be grouped at will: a union is what
collecting all its names in their order gives, wherever the brackets stand. So the manifest of an entity
is the same for every way to put it together from the components of the stages and the sub-cores.
-/
namespace StreamingFft

namespace Manifest

/-- Unions with brackets around them. -/
inductive Grouping where
  | none
  | part (m : Manifest)
  | join (left right : Grouping)

namespace Grouping

def total : Grouping → Manifest
  | none => ∅
  | part m => m
  | join g h => g.total ∪ h.total

/-- The names of the parts in their order, without the brackets. -/
def names : Grouping → List String
  | none => []
  | part m => m.names
  | join g h => g.names ++ h.names

theorem total_eq (g : Grouping) : g.total = ofList g.names := by
  induction g with
  | none => rfl
  | part m => exact (empty_union m).symm
  | join g h ihg ihh => rw [total, names, ihg, ihh, ofList_append]

end Grouping

/-- The laws of unions that keep the order of insertion. -/
structure UnionLaws : Prop where
  assoc : ∀ a b c : Manifest, (a ∪ b) ∪ c = a ∪ (b ∪ c)
  empty_left : ∀ a : Manifest, ∅ ∪ a = a
  empty_right : ∀ a : Manifest, a ∪ ∅ = a
  self : ∀ a : Manifest, a ∪ a = a
  absorb : ∀ a b : Manifest, (a ∪ b) ∪ a = a ∪ b
  collect : ∀ xs ys : List String, ofList (xs ++ ys) = ofList xs ∪ ofList ys

theorem unionLaws : UnionLaws where
  assoc := union_assoc
  empty_left := empty_union
  empty_right := union_empty
  self _ := union_eq_left fun _ hx => hx
  absorb _ _ := union_eq_left fun _ hx => mem_union.2 (Or.inl hx)
  collect := ofList_append

end Manifest

namespace Core

theorem exists_architectureOf_of_mem {c : Core} {name : String} {a : Architecture}
    (h : a ∈ c.architectures name) :
    ∃ (node : Core) (own : String) (slots : List Slot), a = node.architectureOf own slots := by
  induction c generalizing name with
  | leaf l => cases h
  | fourStep s sub1 sub2 ih1 ih2 =>
    rcases List.mem_append.1 h with h | h
    · rcases List.mem_append.1 h with h | h
      · exact ih1 h
      · exact ih2 h
    · exact ⟨_, _, _, List.mem_singleton.1 h⟩
  | radix4 s d sub1 ih1 =>
    rcases List.mem_append.1 h with h | h
    · exact ih1 h
    · exact ⟨_, _, _, List.mem_singleton.1 h⟩

/-- What a generated entity lists, and what is named in front of it: the components of the stages and
then the sub-cores, all in one list. -/
theorem imports_eq_ofList {c : Core} {name : String} {a : Architecture}
    (h : a ∈ c.architectures name) :
    a.imports = .ofList (a.ownComponents.names ++ a.slots.map (·.entity)) ∧
      a.components = .ofList (a.ownComponents.names ++ a.slots.map (·.entity)) := by
  obtain ⟨node, own, slots, rfl⟩ := exists_architectureOf_of_mem h
  have himports : (node.architectureOf own slots).imports =
      .ofList (node.ownComponents.names ++ slots.map (·.entity)) := by
    rw [Manifest.ofList, Manifest.insertMany_append]
    exact congrArg (Manifest.insertMany · _) (Manifest.empty_union _).symm
  exact ⟨himports, (components_architectureOf node own slots).trans himports⟩

/-- Unions in the order of insertion are an idempotent monoid in which repeats add nothing. Brackets do
not matter, least of all in the manifest of an entity. -/
theorem unions_regrouped :
    Manifest.UnionLaws ∧
      (∀ g h : Manifest.Grouping, g.names = h.names → g.total = h.total) ∧
      ∀ (c : Core) (name : String) (as : List Architecture), c.generate name = .ok as →
        ∀ a ∈ as, ∀ g : Manifest.Grouping,
          g.names = a.ownComponents.names ++ a.slots.map (·.entity) →
            a.imports = g.total ∧ a.components = g.total := by
  refine ⟨Manifest.unionLaws, ?_, ?_⟩
  · intro g h hnames
    rw [g.total_eq, h.total_eq, hnames]
  · intro c name as hgenerate a ha g hnames
    obtain ⟨-, rfl⟩ := generate_eq_ok_iff.1 hgenerate
    rw [g.total_eq, hnames]
    exact imports_eq_ofList ha

/-- The two leaves of the pair are joined first, which leaves one name of them. -/
def pairGrouping : Manifest.Grouping :=
  .join (.part pairArchitecture.ownComponents)
    (.join (.part (.ofList ["fft4"])) (.part (.ofList ["fft4"])))

theorem unions_regrouped_pair :
    nested.generate "top" = .ok (nested.architectures "top") ∧
      pairArchitecture ∈ nested.architectures "top" ∧
      pairGrouping.names = pairArchitecture.ownComponents.names ++ ["fft4", "fft4"] ∧
      pairArchitecture.imports = pairGrouping.total ∧
      pairArchitecture.components = pairGrouping.total := by
  have hgenerate : nested.generate "top" = .ok (nested.architectures "top") :=
    generate_eq_ok_iff.2 ⟨by decide, rfl⟩
  have hmem : pairArchitecture ∈ nested.architectures "top" := List.mem_cons_self
  obtain ⟨-, -, hentity⟩ := unions_regrouped
  exact ⟨hgenerate, hmem, rfl, hentity nested "top" _ hgenerate _ hmem pairGrouping rfl⟩

end Core
end StreamingFft
