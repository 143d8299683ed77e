import StreamingFft.Core.Generation
import StreamingFft.Proofs.Core.Assignments
import StreamingFft.Proofs.Core.Tree
import StreamingFft.Proofs.Vhdl.Signals
/-!
The entities of a tree, each found by the path to its node, and their runs: every instance has signals
of its own, which obey its text, and its ports carry what its parent connects them to.
-/
namespace StreamingFft.Core
open Vhdl

/-- What the caller calls entities and scales are basic identifiers. -/
def Named : Core → Prop
  | leaf l => isBasicIdentifier l.entity = true ∧ isBasicIdentifier l.scale = true
  | fourStep s _ _ => isBasicIdentifier s.multiplier.entity = true
  | radix4 s _ _ => isBasicIdentifier s.multiplier.entity = true

instance : DecidablePred Named
  | leaf _ => inferInstanceAs (Decidable (_ ∧ _))
  | fourStep _ _ _ => inferInstanceAs (Decidable (_ = _))
  | radix4 _ _ _ => inferInstanceAs (Decidable (_ = _))

theorem plain_childName {parent : String} (hparent : Plain parent) (index : Nat) {child : Core}
    (hchild : child.Named) : Plain (childName parent index child) := by
  have hcomposite : Plain s!"{parent}_sub{index + 1}" :=
    plain_append.2 ⟨plain_append.2 ⟨hparent, by decide⟩, plain_repr (index + 1)⟩
  cases child with
  | leaf l => exact plain_of_isBasicIdentifier hchild.1
  | fourStep s a b => exact hcomposite
  | radix4 s d a => exact hcomposite

theorem readable_slot (id : String) {c : Core} (hc : c.Named) {entity : String}
    (hid : id.toList.all isWordChar = true) (hentity : Plain entity) :
    (Statement.instantiate (c.slot id entity).inst).Readable := by
  have hplain := plain_of_isWordChar hid
  have hports : ∀ a ∈ corePorts id, a.Harmless := by simp +decide [corePorts, hplain]
  have hcomposite : (Statement.instantiate (generatedInstance id entity)).Readable := by
    apply Statement.readable_instantiate hplain hentity
    · simp +decide [generatedInstance]
    · exact hports
  cases c with
  | leaf l =>
    have hscale := plain_of_isBasicIdentifier hc.2
    apply Statement.readable_instantiate
    · exact plain_append.2 ⟨hplain, by decide⟩
    · exact plain_of_isBasicIdentifier hc.1
    · simp +decide [slot, instanceAt, Leaf.instanceAt, hscale]
    · exact hports
  | fourStep s a b => exact hcomposite
  | radix4 s d a => exact hcomposite

/-- The entity that is written for a node called `name`. -/
def ownArchitecture (c : Core) (name : String) : Option Architecture :=
  match c with
  | leaf _ => none
  | fourStep s sub1 sub2 =>
    (fourStep s sub1 sub2).architecture? name (childName name 0 sub1) (childName name 1 sub2)
  | radix4 s d sub1 => (radix4 s d sub1).architecture? name (childName name 0 sub1) ""

/-- The entity that is written for the node at a path below a root called `name`. -/
def architectureAt (c : Core) (name : String) : (path : List Nat) → Option Architecture
  | [] => c.ownArchitecture name
  | i :: path => c.children[i]? >>= fun child => child.architectureAt (childName name i child) path

/-- All statements of a composite's entity can be read. -/
theorem readable_ownArchitecture {c : Core} (hc : ∀ node ∈ c.nodes, node.Named) {name : String}
    (hname : Plain name) {a : Architecture} (ha : a ∈ c.ownArchitecture name) :
    ∀ st ∈ a.statements, st.Readable := by
  have hself := hc c (self_mem_nodes c)
  cases c with
  | leaf l => cases ha
  | fourStep s sub1 sub2 =>
    cases ha
    have h1 := hc sub1 (child_mem_nodes (i := 0) rfl)
    have h2 := hc sub2 (child_mem_nodes (i := 1) rfl)
    refine List.forall_mem_append.2 ⟨?_, ?_⟩
    · exact readable_fourStepBody (plain_of_isBasicIdentifier hself) sub1 sub2 (by decide) (by decide)
        (by decide)
    · have hslot1 := readable_slot "sub1" h1 (by decide) (plain_childName hname 0 h1)
      have hslot2 := readable_slot "sub2" h2 (by decide) (plain_childName hname 1 h2)
      exact List.forall_mem_cons.2 ⟨hslot1, List.forall_mem_singleton.2 hslot2⟩
  | radix4 s d sub1 =>
    cases ha
    have h1 := hc sub1 (child_mem_nodes (i := 0) rfl)
    refine List.forall_mem_append.2 ⟨?_, ?_⟩
    · exact readable_radix4Body (plain_of_isBasicIdentifier hself) d sub1 (by decide) (by decide)
    · have hslot1 := readable_slot "sub1" h1 (by decide) (plain_childName hname 0 h1)
      exact List.forall_mem_singleton.2 hslot1

/-- What is read from a composite's entity are the assignments of its body. -/
theorem readAssignments_ownArchitecture {c : Core} (hc : ∀ node ∈ c.nodes, node.Named)
    {name : String} (hname : Plain name) {a : Architecture} (ha : a ∈ c.ownArchitecture name) :
    readAssignments a.bodyText = (c.body "" "sub1" "sub2").filter Statement.isAssignment := by
  rw [Architecture.readAssignments_bodyText (readable_ownArchitecture hc hname ha)]
  cases c with
  | leaf l => cases ha
  | fourStep s sub1 sub2 =>
    cases ha
    rfl
  | radix4 s d sub1 =>
    cases ha
    rfl

/-- A run of the entities of a tree. The signals of an entity stand at the path to its node. -/
structure Run (c : Core) (name : String) (σ : List Nat → Signals) : Prop where
  assignments : ∀ path, ∀ a ∈ c.architectureAt name path, ∀ st ∈ readAssignments a.bodyText,
    st.Holds (2 ^ a.order) (σ path)
  ports : ∀ path, ∀ a ∈ c.architectureAt name path, ∀ (i : Nat), ∀ slot ∈ a.slots[i]?,
    ∀ port ∈ slot.inst.ports, ∀ f ∈ port.formal, ∀ t,
      σ (path ++ [i]) f t = port.actual.value (σ path · t)

/-- A run of the tree runs each of its subtrees. -/
theorem Run.child {c child : Core} {name : String} {σ : List Nat → Signals} (h : c.Run name σ)
    {i : Nat} (hi : c.children[i]? = some child) :
    child.Run (childName name i child) fun path => σ (i :: path) := by
  have hat : ∀ path, ∀ a ∈ child.architectureAt (childName name i child) path,
      a ∈ c.architectureAt name (i :: path) := by
    intro path a ha
    rw [architectureAt, hi]
    exact ha
  constructor
  · intro path a ha
    exact h.assignments (i :: path) a (hat path a ha)
  · intro path a ha
    exact h.ports (i :: path) a (hat path a ha)

/-- A tree runs where its root obeys its text, feeds its children, and these run. -/
theorem run_of_children {c : Core} {name : String} {σ : List Nat → Signals}
    (hassign : ∀ a ∈ c.ownArchitecture name, ∀ st ∈ readAssignments a.bodyText,
      st.Holds (2 ^ a.order) (σ []))
    (hports : ∀ a ∈ c.ownArchitecture name, ∀ (i : Nat), ∀ slot ∈ a.slots[i]?,
      ∀ port ∈ slot.inst.ports, ∀ f ∈ port.formal, ∀ t,
        σ [i] f t = port.actual.value (σ [] · t))
    (hchildren : ∀ (i : Nat) (child : Core), c.children[i]? = some child →
      child.Run (childName name i child) fun path => σ (i :: path)) : c.Run name σ := by
  constructor
  · intro path a ha
    cases path with
    | nil => exact hassign a ha
    | cons i path =>
      obtain ⟨child, hi, ha⟩ := Option.bind_eq_some_iff.1 ha
      exact (hchildren i child hi).assignments path a ha
  · intro path a ha
    cases path with
    | nil => exact hports a ha
    | cons i path =>
      obtain ⟨child, hi, ha⟩ := Option.bind_eq_some_iff.1 ha
      exact (hchildren i child hi).ports path a ha

/-- A run does what the statements of the root say. -/
theorem Run.holds {c : Core} (hc : ∀ node ∈ c.nodes, node.Named) {name : String}
    (hname : Plain name) {σ : List Nat → Signals} (h : c.Run name σ) :
    ∀ st ∈ c.body "" "sub1" "sub2", st.Holds (2 ^ c.order) (σ []) := by
  intro st hst
  -- only assignments are read, but the other statements say nothing
  have hassign : st.isAssignment = true → st.Holds (2 ^ c.order) (σ []) := by
    intro hst'
    cases c with
    | leaf l => cases hst
    | fourStep s sub1 sub2 =>
      apply h.assignments [] _ rfl
      rw [readAssignments_ownArchitecture hc hname rfl]
      exact List.mem_filter.2 ⟨hst, hst'⟩
    | radix4 s d sub1 =>
      apply h.assignments [] _ rfl
      rw [readAssignments_ownArchitecture hc hname rfl]
      exact List.mem_filter.2 ⟨hst, hst'⟩
  cases st with
  | blank => trivial
  | instantiate i => trivial
  | assign target value => exact hassign rfl
  | register target value => exact hassign rfl
  | choose target taken counter bit kept => exact hassign rfl

theorem ports_slot (c : Core) (id entity : String) :
    (c.slot id entity).inst.ports = corePorts id := by
  cases c <;> rfl

/-- The phase of an instance is the phase signal that the parent has for it. -/
theorem Run.phase_slot {c child : Core} {name id entity : String} {σ : List Nat → Signals}
    (h : c.Run name σ) {a : Architecture} (ha : a ∈ c.ownArchitecture name) {i : Nat}
    (hi : a.slots[i]? = some (child.slot id entity)) (t : Int) :
    σ [i] "phase" t = σ [] (id ++ "phase") t := by
  have hport : .next "phase" (.name (id ++ "phase")) ∈ (child.slot id entity).inst.ports := by
    rw [ports_slot]
    simp [corePorts]
  exact h.ports [] a ha i _ hi _ hport "phase" rfl t

end StreamingFft.Core
