import StreamingFft.Proofs.Core.EntityText
import StreamingFft.Proofs.Core.Generation
/-!
The components of a generated entity. Its text instantiates just those that it names in front and that
its manifest lists.
-/
namespace StreamingFft
open Vhdl

namespace TwiddleWidth

/-- A width that is given as a name is a basic identifier. -/
def Named : TwiddleWidth → Prop
  | symbol name => isBasicIdentifier name = true
  | literal _ => True

instance : DecidablePred Named
  | symbol _ => inferInstanceAs (Decidable (_ = _))
  | literal _ => inferInstanceAs (Decidable True)

theorem Named.plain_text {w : TwiddleWidth} (h : w.Named) : Plain w.text := by
  cases w with
  | symbol name => exact plain_of_isBasicIdentifier h
  | literal bits => exact plain_repr bits

end TwiddleWidth

variable {id id1 id2 : String}

theorem TwiddleSource.labelled_body (hid : id.toList.all isWordChar = true) (n : Nat)
    (source : TwiddleSource) : ∀ st ∈ source.body id n, st.Labelled := by
  have htw : IsName (id ++ "tw") := IsName.append hid (by decide)
  have hrom : IsName (id ++ "rom") := IsName.append hid (by decide)
  have hnumbered : ∀ s, IsName s → IsName (s ++ Nat.repr n) := fun _ h => h.append_repr n
  refine List.forall_mem_cons.2 ⟨trivial, ?_⟩
  cases source with
  | table =>
    exact List.forall_mem_singleton.2
      ⟨htw, hnumbered "twiddleGenerator" (by decide), fun h => absurd rfl h, nofun⟩
  | rom =>
    refine List.forall_mem_cons.2 ⟨?_, List.forall_mem_singleton.2 ?_⟩
    · exact ⟨htw, (by decide : IsName "twiddleGenerator"), nofun, nofun⟩
    · exact ⟨hrom, hnumbered "twiddleRom" (by decide), fun h => absurd rfl h, nofun⟩

theorem TwiddleSource.entities_body (id : String) (n : Nat) (source : TwiddleSource) :
    (source.body id n).flatMap Statement.entities = source.components n := by
  cases source <;> rfl

namespace PermutationNetwork

/-- The network itself is made of assignments. -/
theorem entities_stageStatement {counter : String} (i : Nat) (stages : List BitOrder) :
    ∀ st ∈ stageStatements id counter i stages, st.Labelled ∧ st.entities = [] := by
  induction stages generalizing i with
  | nil => exact fun st hst => nomatch hst
  | cons q rest ih => exact List.forall_mem_cons.2 ⟨⟨trivial, rfl⟩, ih (i + 1)⟩

theorem harmless_declarations (p : PermutationNetwork) (hid : id.toList.all isWordChar = true) :
    ∀ d ∈ p.declarations id, d.Harmless := by
  have hvector : ∀ {v : String} (n : Nat), IsName v →
      (Declaration.signal v (.word (.nat n))).Harmless := fun n hv =>
    ⟨by decide, List.forall_mem_singleton.2 (plain_of_isWordChar hv.word),
      plain_append.2 ⟨plain_append.2 ⟨plain_repr n, by decide⟩, by decide⟩⟩
  refine List.forall_mem_append.2 ⟨?_, List.forall_mem_singleton.2 ?_⟩
  · intro d hd
    obtain ⟨i, _, rfl⟩ := List.mem_map.1 hd
    exact hvector _ (isName_tap hid i)
  · exact hvector _ (p.isName_counterSignal hid)

end PermutationNetwork

namespace Core

/-- A width of the twiddles that is given as a name is a basic identifier. -/
def WidthNamed (c : Core) : Prop := ∀ s ∈ c.stage?, s.twiddleWidth.Named

instance : DecidablePred WidthNamed := fun c =>
  inferInstanceAs (Decidable (∀ s ∈ c.stage?, s.twiddleWidth.Named))

theorem labelled_bufferBody (s : Stage) (hid : id.toList.all isWordChar = true) (sub : String)
    (subOrder : Nat) : ∀ st ∈ bufferBody s id sub subOrder, st.Labelled := by
  have hlabel : IsName (id ++ "rb") := IsName.append hid (by decide)
  unfold bufferBody
  split
  · simp
  · next b _ =>
    refine List.forall_mem_append.2 ⟨fun st hst => ?_, ?_⟩
    · exact (PermutationNetwork.entities_stageStatement 0 _ st hst).1
    · simp only [List.forall_mem_cons]
      exact ⟨trivial, ⟨hlabel, (by decide : IsName "reorderBuffer"), nofun, nofun⟩, trivial,
        trivial, by simp⟩

theorem entities_bufferBody (s : Stage) (id sub : String) (subOrder : Nat) :
    (bufferBody s id sub subOrder).flatMap Statement.entities =
      if s.buffer.isSome then ["reorderBuffer"] else [] := by
  unfold bufferBody
  split
  · next h =>
    rw [h]
    rfl
  · next b h =>
    have hnetwork : (b.network.body id).flatMap Statement.entities = [] :=
      List.flatMap_eq_nil_iff.2 fun st hst =>
        (PermutationNetwork.entities_stageStatement 0 _ st hst).2
    rw [h, InputBuffer.body, List.flatMap_append, hnetwork]
    rfl

theorem labelled_fourStepBody {s : Stage} (hm : IsName s.multiplier.entity) (sub1 sub2 : Core)
    (hid : id.toList.all isWordChar = true) :
    ∀ st ∈ fourStepBody s sub1 sub2 id id1 id2, st.Labelled := by
  have hname : ∀ suffix, IsName suffix → IsName (id ++ suffix) := fun _ => IsName.append hid
  refine List.forall_mem_append.2 ⟨List.forall_mem_append.2 ⟨?_, ?_⟩, ?_⟩
  · simp only [List.forall_mem_cons]
    refine ⟨trivial, trivial, trivial, trivial, trivial, trivial,
      ⟨hname "transp" (by decide), (by decide : IsName "transposer"), nofun, nofun⟩,
      trivial, trivial, trivial,
      ⟨hname "twAG" (by decide), (by decide : IsName "twiddleAddrGen"), nofun, nofun⟩,
      trivial, ⟨hname "twMult" (by decide), hm, nofun, nofun⟩,
      trivial, trivial, trivial, trivial, trivial, by simp⟩
  · exact s.twiddleSource.labelled_body hid s.size
  · exact labelled_bufferBody s hid id2 sub2.order

theorem labelled_radix4Body {s : Stage} (hm : IsName s.multiplier.entity) (stageDelay : Nat)
    (sub1 : Core) (hid : id.toList.all isWordChar = true) :
    ∀ st ∈ radix4Body s stageDelay sub1 id id1, st.Labelled := by
  have hname : ∀ suffix, IsName suffix → IsName (id ++ suffix) := fun _ => IsName.append hid
  refine List.forall_mem_append.2 ⟨List.forall_mem_append.2 ⟨?_, ?_⟩, ?_⟩
  · simp only [List.forall_mem_cons]
    refine ⟨trivial,
      ⟨hname "spdfStage" (by decide), (by decide : IsName radix4Entity), nofun, nofun⟩,
      trivial, trivial, trivial,
      ⟨hname "twAG" (by decide), (by decide : IsName "twiddleAddrGen"), nofun, nofun⟩,
      trivial, ⟨hname "twMult" (by decide), hm, nofun, nofun⟩,
      trivial, trivial, trivial, trivial, trivial, trivial, trivial, by simp⟩
  · exact s.twiddleSource.labelled_body hid s.size
  · exact labelled_bufferBody s hid id1 sub1.order

/-- The body of a composite instantiates what the composite needs itself. -/
theorem mem_entities_body (c : Core) (id id1 id2 : String) (hc : c.isLeaf = false) (x : String) :
    x ∈ (c.body id id1 id2).flatMap Statement.entities ↔ x ∈ c.ownComponents := by
  cases c with
  | leaf l => cases hc
  | fourStep s sub1 sub2 =>
    rw [body, fourStepBody, List.flatMap_append, List.flatMap_append, TwiddleSource.entities_body,
      entities_bufferBody, ownComponents, Manifest.mem_ofList, Stage.components]
    change x ∈ ["transposer", "twiddleAddrGen", s.multiplier.entity] ++ _ ++ _ ↔ _
    simp only [List.mem_append, List.mem_cons]
    grind
  | radix4 s d sub1 =>
    rw [body, radix4Body, List.flatMap_append, List.flatMap_append, TwiddleSource.entities_body,
      entities_bufferBody, ownComponents, Manifest.mem_ofList, Stage.components]
    change x ∈ [radix4Entity, "twiddleAddrGen", s.multiplier.entity] ++ _ ++ _ ↔ _
    simp only [List.mem_append, List.mem_cons]
    grind

theorem harmless_constants {c : Core} (hc : c.WidthNamed) (hid : Plain id) :
    ∀ d ∈ c.constants id, d.Harmless := by
  unfold constants
  split
  · simp
  · next s hs =>
    have hwidth : Plain s.twiddleWidth.text := (hc s hs).plain_text
    have hname : ∀ v, Plain v → Plain (id ++ v) := fun v hv => plain_append.2 ⟨hid, hv⟩
    refine List.forall_mem_append.2 ⟨?_, ?_⟩
    · simp only [Declaration.constants, List.map_cons, List.map_nil, List.forall_mem_cons]
      exact ⟨⟨hname _ (by decide), plain_repr _⟩, ⟨hname _ (by decide), hwidth⟩,
        ⟨hname _ (by decide), plain_repr _⟩, ⟨hname _ (by decide), plain_repr _⟩,
        ⟨hname _ (by decide), plain_repr _⟩, by simp⟩
    · split
      · simp
      · exact fun d hd => nomatch hd

theorem harmless_bufferSignals (s : Stage) (hid : id.toList.all isWordChar = true)
    (subOrder : Nat) : ∀ d ∈ bufferSignals s id subOrder, d.Harmless := by
  unfold bufferSignals
  split
  · simp
  · next b _ =>
    refine List.forall_mem_append.2
      ⟨b.network.harmless_declarations hid, List.forall_mem_singleton.2 ?_⟩
    have hphase : Plain (id ++ "rbInPhase") := plain_append.2 ⟨plain_of_isWordChar hid, by decide⟩
    exact ⟨by decide, List.forall_mem_singleton.2 hphase,
      plain_append.2 ⟨plain_append.2 ⟨plain_repr subOrder, by decide⟩, by decide⟩⟩

theorem harmless_declarations (c : Core) : ∀ d ∈ c.declarations "", d.Harmless := by
  have hid : "".toList.all isWordChar = true := by decide
  have htwiddle : ∀ d ∈ twiddleSignals "", d.Harmless := by decide
  cases c with
  | leaf l => exact fun d hd => nomatch hd
  | fourStep s sub1 sub2 =>
    have hdigit : (Declaration.signals "" ["bitPermIn", "bitPermOut"]
        (.word (.nat sub1.order))).Harmless :=
      ⟨by decide, by decide,
        plain_append.2 ⟨plain_append.2 ⟨plain_repr sub1.order, by decide⟩, by decide⟩⟩
    refine List.forall_mem_append.2
      ⟨List.forall_mem_append.2 ⟨?_, htwiddle⟩, harmless_bufferSignals s hid sub2.order⟩
    simp only [List.forall_mem_cons]
    exact ⟨trivial, by decide, by decide, hdigit, trivial, by decide, by simp⟩
  | radix4 s d sub1 =>
    refine List.forall_mem_append.2
      ⟨List.forall_mem_append.2 ⟨by decide, htwiddle⟩, harmless_bufferSignals s hid sub1.order⟩

theorem isBasicIdentifier_childName {parent : String} (hparent : isBasicIdentifier parent = true)
    (i : Nat) {child : Core} (hchild : child.Named) :
    isBasicIdentifier (childName parent i child) = true := by
  cases hleaf : child.isLeaf with
  | true =>
    cases child with
    | leaf l => exact hchild.1
    | fourStep s sub1 sub2 => cases hleaf
    | radix4 s d sub1 => cases hleaf
  | false =>
    rw [childName_eq hleaf, ← pathName_nil s!"{parent}_sub{i + 1}", pathName_cons]
    exact isBasicIdentifier_pathName hparent [i]

/-- A child is instantiated under the name that its parent lists. -/
theorem entity_slot (child : Core) (id parent : String) (i : Nat) :
    (child.slot id (childName parent i child)).inst.entity = childName parent i child := by
  cases child <;> rfl

theorem labelled_slot (child : Core) {id entity : String} (hid : IsName id)
    (hentity : IsName (child.slot id entity).inst.entity) :
    (Statement.instantiate (child.slot id entity).inst).Labelled := by
  cases child with
  | leaf l => exact ⟨IsName.append hid.word (by decide), hentity, nofun, nofun⟩
  | fourStep s sub1 sub2 => exact ⟨hid, hentity, nofun, nofun⟩
  | radix4 s d sub1 => exact ⟨hid, hentity, nofun, nofun⟩

/-- What is named in front of an entity is what its manifest lists. -/
theorem components_architectureOf (c : Core) (name : String) (slots : List Slot) :
    (c.architectureOf name slots).components = (c.architectureOf name slots).imports := by
  rw [Architecture.components]
  simp only [Manifest.union_ofList_singleton]
  exact (List.foldl_map ..).symm

theorem labelled_body {c : Core} (hc : c.Named) : ∀ st ∈ c.body "" "sub1" "sub2", st.Labelled := by
  cases c with
  | leaf l => exact fun st hst => nomatch hst
  | fourStep s sub1 sub2 =>
    exact labelled_fourStepBody (isName_of_isBasicIdentifier hc) sub1 sub2 (by decide)
  | radix4 s d sub1 =>
    exact labelled_radix4Body (isName_of_isBasicIdentifier hc) d sub1 (by decide)

theorem regular_architectureOf {c : Core} (hleaf : c.isLeaf = false) (hc : c.Named)
    (hwidth : c.WidthNamed) {name : String} (hname : isBasicIdentifier name = true)
    {slots : List Slot}
    (hslots : ∀ s ∈ slots, IsName s.id ∧ (Statement.instantiate s.inst).Labelled ∧
      s.inst.entity = s.entity)
    (hreadable : ∀ st ∈ (c.architectureOf name slots).statements, st.Readable) :
    (c.architectureOf name slots).Regular where
  name := plain_of_isBasicIdentifier hname
  slots s hs := plain_of_isWordChar (hslots s hs).1.word
  constants := harmless_constants hwidth (by decide)
  declarations := c.harmless_declarations
  readable := hreadable
  labelled := by
    refine List.forall_mem_append.2 ⟨labelled_body hc, ?_⟩
    intro st hst
    obtain ⟨s, hs, rfl⟩ := List.mem_map.1 hst
    exact (hslots s hs).2.1
  components x := by
    have hentities : (slots.map fun s => Statement.instantiate s.inst).flatMap Statement.entities =
        slots.map (·.entity) := by
      rw [List.flatMap_map, List.map_eq_flatMap]
      apply List.flatMap_congr
      intro s hs
      rw [Statement.entities, (hslots s hs).2.2]
    rw [components_architectureOf, Architecture.statements, List.flatMap_append, List.mem_append]
    have hbody := mem_entities_body c "" "sub1" "sub2" hleaf x
    exact Manifest.mem_insertMany.trans (or_congr hbody.symm (hentities ▸ Iff.rfl))

/-- The entity of a composite is regular, and names in front what its manifest lists. -/
theorem regular_ownArchitecture {c : Core} (hc : ∀ node ∈ c.nodes, node.Named)
    (hwidth : c.WidthNamed) {name : String} (hname : isBasicIdentifier name = true)
    {a : Architecture} (ha : a ∈ c.ownArchitecture name) :
    a.Regular ∧ a.components = a.imports := by
  have hself := hc c (self_mem_nodes c)
  have hreadable := readable_ownArchitecture hc (plain_of_isBasicIdentifier hname) ha
  have hslot : ∀ (i : Nat) (child : Core) (id : String), c.children[i]? = some child → IsName id →
      IsName (child.slot id (childName name i child)).id ∧
        (Statement.instantiate (child.slot id (childName name i child)).inst).Labelled ∧
        (child.slot id (childName name i child)).inst.entity = childName name i child := by
    intro i child id hi hid
    have hchild := isBasicIdentifier_childName hname i (hc child (child_mem_nodes hi))
    have hentity := entity_slot child id name i
    refine ⟨hid, labelled_slot child hid ?_, hentity⟩
    rw [hentity]
    exact isName_of_isBasicIdentifier hchild
  cases c with
  | leaf l => cases ha
  | fourStep s sub1 sub2 =>
    cases ha
    refine ⟨regular_architectureOf rfl hself hwidth hname ?_ hreadable, components_architectureOf ..⟩
    exact List.forall_mem_cons.2 ⟨hslot 0 sub1 "sub1" rfl (by decide),
      List.forall_mem_singleton.2 (hslot 1 sub2 "sub2" rfl (by decide))⟩
  | radix4 s d sub1 =>
    cases ha
    refine ⟨regular_architectureOf rfl hself hwidth hname ?_ hreadable, components_architectureOf ..⟩
    exact List.forall_mem_singleton.2 (hslot 0 sub1 "sub1" rfl (by decide))

theorem regular_of_generate {c : Core} (hc : ∀ node ∈ c.nodes, node.Named ∧ node.WidthNamed)
    {name : String} {as : List Architecture} (h : c.generate name = .ok as) {a : Architecture}
    (ha : a ∈ as) : a.Regular ∧ a.components = a.imports := by
  obtain ⟨⟨hname, -⟩, rfl⟩ := generate_eq_ok_iff.1 h
  obtain ⟨node, hnode, hself, hown⟩ := exists_node_of_mem_architectures hname ha
  exact regular_ownArchitecture (fun n hn => (hc n (nodes_subset hnode hn)).1) (hc node hnode).2
    hself hown

/-- A generated entity starts with clauses for all that its manifest lists, and instantiates just
that. -/
theorem instantiated_iff_mem_imports {c : Core}
    (hc : ∀ node ∈ c.nodes, node.Named ∧ node.WidthNamed) {name : String} {as : List Architecture}
    (h : c.generate name = .ok as) {a : Architecture} (ha : a ∈ as) :
    (∃ rest, a.text = contextClause ++ componentClauses a.imports ++ "\n" ++
      "-- data input bit order: " ++ a.inputOrder.caption ++ "\n" ++
      "-- data output bit order: " ++ a.outputOrder.caption ++ "\n" ++ rest) ∧
    ∀ x, x ∈ instantiated a.text ↔ x ∈ a.imports := by
  obtain ⟨hregular, hcomponents⟩ := regular_of_generate hc h ha
  constructor
  · rw [← hcomponents]
    exact a.exists_text_eq
  · intro x
    rw [hregular.instantiated_text, ← hcomponents]
    exact (hregular.components x).symm

/-- The entity of the pair below the radix-4 stage. -/
def pairArchitecture : Architecture :=
  (swappedPair.replaceMultiplier .wide .tree).architectureOf "top_sub1"
    [(leaf swappedLeaf).slot "sub1" "fft4", (leaf swappedLeaf).slot "sub2" "fft4"]

theorem instantiated_nested :
    (∀ node ∈ nested.nodes, node.Named ∧ node.WidthNamed) ∧
      nested.generate "top" = .ok (nested.architectures "top") ∧
      pairArchitecture ∈ nested.architectures "top" ∧
      pairArchitecture.imports.names = ["twiddleAddrGen", "transposer", "twiddleGenerator16",
        "reorderBuffer", "dsp48e1_complexMultiply", "fft4"] ∧
      ∀ x, x ∈ instantiated pairArchitecture.text ↔ x ∈ pairArchitecture.imports := by
  have hnamed : ∀ node ∈ nested.nodes, node.Named ∧ node.WidthNamed := by decide
  have hgenerate : nested.generate "top" = .ok (nested.architectures "top") :=
    generate_eq_ok_iff.2 ⟨by decide, rfl⟩
  have hmem : pairArchitecture ∈ nested.architectures "top" := .head _
  exact ⟨hnamed, hgenerate, hmem, by decide, (instantiated_iff_mem_imports hnamed hgenerate hmem).2⟩

end Core
end StreamingFft
