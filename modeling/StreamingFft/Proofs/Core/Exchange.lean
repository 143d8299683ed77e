import StreamingFft.Proofs.Core.Context
import StreamingFft.Proofs.Core.Generation
/-!
Generation with one composite exchanged for another that looks alike. The entities of the two are found
by their names, in one place of the list; all others are the same, so they need not be written again.
-/
namespace StreamingFft.Core
open Vhdl

/-- Whether the characters are steps to first and second sub-cores. -/
def isDescent : List Char → Bool
  | [] => true
  | '_' :: 's' :: 'u' :: 'b' :: '1' :: rest => isDescent rest
  | '_' :: 's' :: 'u' :: 'b' :: '2' :: rest => isDescent rest
  | _ => false

/-- Whether `name` is `hole` or leads on from there. -/
def isInside (hole name : String) : Bool :=
  hole.toList.isPrefixOf name.toList && isDescent (name.toList.drop hole.toList.length)

/-- The entities that are neither `hole` nor below it. -/
def outside (hole : String) (as : List Architecture) : List Architecture :=
  as.filter fun a => !isInside hole a.name

theorem isDescent_flatMap {path : List Nat} (h : ∀ i ∈ path, i < 2) :
    isDescent (path.flatMap nameSegment) = true := by
  induction path with
  | nil => rfl
  | cons i path ih =>
    obtain ⟨hi, hpath⟩ := List.forall_mem_cons.1 h
    match i, hi with
    | 0, _ => exact ih hpath
    | 1, _ => exact ih hpath

theorem exists_flatMap_of_isDescent {cs : List Char} (h : isDescent cs = true) :
    ∃ path : List Nat, cs = path.flatMap nameSegment := by
  induction cs using isDescent.induct with
  | case1 => exact ⟨[], rfl⟩
  | case2 rest ih =>
    obtain ⟨path, rfl⟩ := ih h
    exact ⟨0 :: path, rfl⟩
  | case3 rest ih =>
    obtain ⟨path, rfl⟩ := ih h
    exact ⟨1 :: path, rfl⟩
  | case4 cs h1 h2 h3 =>
    rw [isDescent] at h
    · cases h
    · exact h1
    · exact h2
    · exact h3

/-- Names lead on where paths do. -/
theorem isInside_pathName {name : String} {p q : List Nat} (hq : ∀ i ∈ q, i < 2) :
    isInside (pathName name p) (pathName name q) = true ↔ p <+: q := by
  rw [isInside, Bool.and_eq_true, List.isPrefixOf_iff_prefix, toList_pathName, toList_pathName,
    List.prefix_append_right_inj]
  constructor
  · rintro ⟨⟨cs, hcs⟩, hdescent⟩
    rw [← hcs, ← List.append_assoc, List.drop_left] at hdescent
    obtain ⟨r, rfl⟩ := exists_flatMap_of_isDescent hdescent
    rw [← List.flatMap_append] at hcs
    exact ⟨r, flatMap_nameSegment_injective hcs⟩
  · rintro ⟨r, rfl⟩
    rw [List.flatMap_append, ← List.append_assoc, List.drop_left]
    exact ⟨List.prefix_append _ _, isDescent_flatMap fun i hi => hq i (List.mem_append_right p hi)⟩

theorem lt_two_of_mem_compositePaths {c : Core} {path : List Nat} (h : path ∈ c.compositePaths) :
    ∀ i ∈ path, i < 2 := by
  induction path generalizing c with
  | nil => exact fun i hi => nomatch hi
  | cons i path ih =>
    obtain ⟨child, hi, h⟩ := cons_mem_compositePaths.1 h
    have hlength : c.children.length ≤ 2 := by cases c <;> simp [children]
    have hlt := (List.getElem?_eq_some_iff.1 hi).1
    exact List.forall_mem_cons.2 ⟨by omega, ih h⟩

theorem name_of_mem_architectureAt {c : Core} {name : String} {path : List Nat} {a : Architecture}
    (h : a ∈ c.architectureAt name path) : a.name = pathName name path := by
  obtain ⟨a', node, ha', -, hdescribes, -⟩ :=
    exists_architectureAt name (mem_compositePaths_of_architectureAt h)
  cases h.symm.trans ha'
  exact hdescribes.name_eq

/-- An entity is inside a hole if its path passes through the hole. -/
theorem isInside_of_mem_architectureAt {c : Core} {name : String} {p q : List Nat} {a : Architecture}
    (h : a ∈ c.architectureAt name q) : isInside (pathName name p) a.name = true ↔ p <+: q := by
  rw [name_of_mem_architectureAt h]
  exact isInside_pathName (lt_two_of_mem_compositePaths (mem_compositePaths_of_architectureAt h))

/-- All that is generated for a core is inside its name. -/
theorem isInside_of_mem_architectures {c : Core} {name : String} {a : Architecture}
    (h : a ∈ c.architectures name) : isInside name a.name = true := by
  obtain ⟨q, hq⟩ := mem_architectures_iff_architectureAt.1 h
  have hinside := (isInside_of_mem_architectureAt (p := []) hq).2 List.nil_prefix
  rwa [pathName_nil] at hinside

theorem outside_append_append {hole : String} {before inner after : List Architecture}
    (haround : ∀ a ∈ before ++ after, isInside hole a.name = false)
    (hinner : ∀ a ∈ inner, isInside hole a.name = true) :
    outside hole (before ++ inner ++ after) = before ++ after := by
  obtain ⟨hbefore, hafter⟩ := List.forall_mem_append.1 haround
  rw [outside, List.filter_append, List.filter_append, List.filter_eq_self.2, List.filter_eq_nil_iff.2,
    List.filter_eq_self.2, List.append_nil]
  · exact fun a ha => by rw [hafter a ha]; rfl
  · exact fun a ha => by rw [hinner a ha]; exact Bool.false_ne_true
  · exact fun a ha => by rw [hbefore a ha]; rfl

theorem architectureAt_append {t c : Core} {name : String} {path : List Nat}
    (h : t.descend path = some c) (hc : c.isLeaf = false) (q : List Nat) :
    t.architectureAt name (path ++ q) = c.architectureAt (pathName name path) q := by
  induction path generalizing t name with
  | nil =>
    cases h
    rw [pathName_nil]
    rfl
  | cons i path ih =>
    obtain ⟨child, hi, h⟩ := Option.bind_eq_some_iff.1 h
    rw [List.cons_append, architectureAt, hi, ← pathName_cons,
      ← childName_eq (isLeaf_of_descend h hc)]
    exact ih h

/-- Below a place in a tree stand the entities that the core there has alone, named after the place. -/
theorem filterMap_architectureAt_append {t c : Core} {path : List Nat} (h : t.descend path = some c)
    (hc : c.isLeaf = false) (name : String) :
    (c.compositePaths.map (path ++ ·)).filterMap (t.architectureAt name) =
      c.architectures (pathName name path) := by
  rw [List.filterMap_map, architectures_eq]
  exact List.filterMap_congr fun q _ => architectureAt_append h hc q

theorem isTimed_of_descend {t c : Core} {path : List Nat} (h : t.descend path = some c)
    (ht : t.isTimed = true) : c.isTimed = true := by
  induction path generalizing t with
  | nil =>
    cases h
    exact ht
  | cons i path ih =>
    obtain ⟨child, hi, h⟩ := Option.bind_eq_some_iff.1 h
    exact ih h (isTimed_of_mem_children (List.mem_of_getElem? hi) ht)

/-- The generated lists differ at one place only, where the exchanged cores have their entities. -/
theorem Exchanged.exists_around {path : List Nat} {c d t u : Core} (h : Exchanged path c d t u)
    (hc : c.isLeaf = false) (hd : d.isLeaf = false) (name : String) :
    ∃ before after,
      t.architectures name = before ++ c.architectures (pathName name path) ++ after ∧
        u.architectures name = before ++ d.architectures (pathName name path) ++ after ∧
        ∀ a ∈ before ++ after, isInside (pathName name path) a.name = false := by
  obtain ⟨ps, qs, ht, hu, haround⟩ := h.paths
  have hsame : ∀ q ∈ ps ++ qs, u.architectureAt name q = t.architectureAt name q := fun q hq =>
    h.entities name q (haround q hq)
  refine ⟨ps.filterMap (t.architectureAt name), qs.filterMap (t.architectureAt name), ?_, ?_, ?_⟩
  · rw [architectures_eq, ht, List.filterMap_append, List.filterMap_append,
      filterMap_architectureAt_append h.hole hc]
  · rw [architectures_eq, hu, List.filterMap_append, List.filterMap_append,
      filterMap_architectureAt_append h.hole' hd,
      List.filterMap_congr fun q hq => hsame q (List.mem_append_left _ hq),
      List.filterMap_congr fun q hq => hsame q (List.mem_append_right _ hq)]
  · intro a ha
    rw [← List.filterMap_append] at ha
    obtain ⟨q, hq, ha⟩ := List.mem_filterMap.1 ha
    rw [Bool.eq_false_iff, ne_eq, isInside_of_mem_architectureAt ha]
    exact haround q hq

/-- Above the hole, both trees have the same entities. -/
theorem Exchanged.exists_ancestor {path : List Nat} {c d t u : Core} (h : Exchanged path c d t u)
    (hc : c.isLeaf = false) (name : String) {q : List Nat} (hq : q <+: path) (hne : q ≠ path) :
    ∃ a, t.architectureAt name q = some a ∧ u.architectureAt name q = some a := by
  have habove : ¬ path <+: q := fun hpath => hne (hq.eq_of_length_le hpath.length_le)
  obtain ⟨r, rfl⟩ := hq
  have hmem : q ∈ t.compositePaths := by
    obtain ⟨node, hnode, hr⟩ := exists_descend_of_append h.hole
    exact mem_compositePaths.2 ⟨node, hnode, isLeaf_of_descend hr hc⟩
  obtain ⟨a, -, ha, -⟩ := exists_architectureAt name hmem
  exact ⟨a, ha, (h.entities name q habove).trans ha⟩

/-- The same size has the same exponent. -/
theorem order_eq_of_size_eq {c d : Core} (hc : c.Coherent) (hd : d.Coherent) (h : d.size = c.size) :
    d.order = c.order := by
  apply Nat.pow_right_injective (le_refl 2)
  change 2 ^ d.order = 2 ^ c.order
  rw [← hd.size_eq, ← hc.size_eq, h]

/-- Builds the tree with a core in the hole and generates it. -/
def generateFilled (ctx : Context) (c : Core) (name : String) : Except Fault (List Architecture) :=
  ctx.fill c >>= fun t => t.generate name

/-- What is generated with one core in the hole and with the other. -/
structure GeneratedAround (ctx : Context) (name : String) (c d : Core) (as bs : List Architecture) :
    Prop where
  same : outside (pathName name ctx.path) as = outside (pathName name ctx.path) bs
  /-- The exchanged cores have their entities at the same place, those that they have alone. -/
  parts : ∃ before inner inner' after, as = before ++ inner ++ after ∧ bs = before ++ inner' ++ after ∧
    c.generate (pathName name ctx.path) = .ok inner ∧ d.generate (pathName name ctx.path) = .ok inner' ∧
      outside (pathName name ctx.path) as = before ++ after
  /-- The entities above the hole are the same. -/
  ancestors : ∀ q, q <+: ctx.path → q ≠ ctx.path → ∃ a ∈ as, a ∈ bs ∧ a.name = pathName name q

theorem Exchanged.generatedAround {ctx : Context} {c d t u : Core} (h : Exchanged ctx.path c d t u)
    (hc : c.isLeaf = false) (hd : d.isLeaf = false) {name : String}
    (hname : isBasicIdentifier name = true) (ht : t.isTimed = true) (hu : u.isTimed = true) :
    GeneratedAround ctx name c d (t.architectures name) (u.architectures name) := by
  obtain ⟨before, after, has, hbs, haround⟩ := h.exists_around hc hd name
  have hhole := isBasicIdentifier_pathName hname ctx.path
  have hinner := generate_eq_ok_iff.2 ⟨⟨hhole, isTimed_of_descend h.hole ht⟩, rfl⟩
  have hinner' := generate_eq_ok_iff.2 ⟨⟨hhole, isTimed_of_descend h.hole' hu⟩, rfl⟩
  have hout : outside (pathName name ctx.path) (t.architectures name) = before ++ after := by
    rw [has]
    exact outside_append_append haround fun a ha => isInside_of_mem_architectures ha
  have hout' : outside (pathName name ctx.path) (u.architectures name) = before ++ after := by
    rw [hbs]
    exact outside_append_append haround fun a ha => isInside_of_mem_architectures ha
  refine ⟨hout.trans hout'.symm, ⟨before, _, _, after, has, hbs, hinner, hinner', hout⟩, ?_⟩
  intro q hq hne
  obtain ⟨a, ha, ha'⟩ := h.exists_ancestor hc name hq hne
  exact ⟨a, mem_architectures_iff_architectureAt.2 ⟨q, ha⟩,
    mem_architectures_iff_architectureAt.2 ⟨q, ha'⟩, name_of_mem_architectureAt ha⟩

/-- A name or a latency is refused in both trees or in none. -/
theorem Exchanged.generate_alike {ctx : Context} {c d t u : Core} (h : Exchanged ctx.path c d t u)
    (hc : c.isLeaf = false) (hd : d.isLeaf = false) (name : String) :
    Matched (GeneratedAround ctx name c d) (t.generate name) (u.generate name) := by
  have htimed : u.isTimed = t.isTimed := by rw [isTimed, isTimed, h.alike.delay]
  rw [generate, generate, timed, timed, htimed]
  split
  · next hname =>
    split
    · next ht => exact .ok (h.generatedAround hc hd hname ht (htimed.trans ht))
    · exact .error _
  · exact .error _

theorem generateFilled_alike (ctx : Context) (name : String) {c d : Core} (h : Alike c d)
    (hc : c.isLeaf = false) (hd : d.isLeaf = false) :
    Matched (GeneratedAround ctx name c d) (generateFilled ctx c name) (generateFilled ctx d name) :=
  (fill_alike ctx h).bind fun _ _ hexchanged => hexchanged.generate_alike hc hd name

/-- Outside a composite sub-core, generation depends on its size, its latency and its orders only. -/
theorem generateFilled_congr (ctx : Context) (name : String) {c d : Core} (hc : c.Reachable)
    (hd : d.Reachable) (hcleaf : c.isLeaf = false) (hdleaf : d.isLeaf = false)
    (hsize : d.size = c.size) (hdelay : d.delay = c.delay) (hinput : d.inputOrder = c.inputOrder)
    (houtput : d.outputOrder = c.outputOrder) :
    (generateFilled ctx c name).map (outside (pathName name ctx.path)) =
        (generateFilled ctx d name).map (outside (pathName name ctx.path)) ∧
      ∀ as, generateFilled ctx c name = .ok as →
        ∃ bs, generateFilled ctx d name = .ok bs ∧ GeneratedAround ctx name c d as bs := by
  have horder := order_eq_of_size_eq (hc.coherent c (self_mem_nodes c)) (hd.coherent d (self_mem_nodes d))
    hsize
  have halike := alike_of_composite ⟨hsize, horder, hinput, houtput⟩ hdelay hcleaf hdleaf
  have hmatched := generateFilled_alike ctx name halike hcleaf hdleaf
  exact ⟨hmatched.map_eq fun _ _ h => h.same, fun _ has => hmatched.exists_eq_ok has⟩

/-- One point, in two cycles. -/
def pointLeaf : Leaf := { slowLeaf with delay := 2 }

/-- Delivers four samples with the address bits swapped. -/
def deliveringLeaf : Leaf where
  order := swappedLeaf.order
  entity := "fft4_wide"
  scale := "SCALE_DIV_N"
  delay := 2
  inputOrder := swappedLeaf.outputOrder
  outputOrder := swappedLeaf.inputOrder
  size_inputOrder := swappedLeaf.size_outputOrder
  size_outputOrder := swappedLeaf.size_inputOrder

/-- Four points by a radix-4 stage. -/
def staged : Core :=
  radix4 (.ofLast 4 2 1 (.natural 0)) (radix4Delay 4) (leaf pointLeaf)

/-- Four points by two leaves: another kind and shape, with another multiplier and twiddle width. -/
def composed : Core :=
  ((fourStep (.ofLast 4 2 4 (.natural 2)) (leaf pointLeaf) (leaf deliveringLeaf)).replaceMultiplier
    .wide .tree).mapStage (·.useTwiddleWidth (.literal 18))

/-- Sixteen points without the first sub-core, below a radix-4 stage; both composites have buffers. -/
def surroundings : Context :=
  [.radix4 64 ⟨.standard, .literal 24⟩, .first 16 ⟨.wide, .standard⟩ (leaf swappedLeaf)]

theorem reachable_pointLeaf : (leaf pointLeaf).Reachable := by
  have hsize : Leaf.ofSize 1 "fft1" "SCALE_NONE" 2 = .ok pointLeaf := rfl
  exact .leaf hsize

theorem reachable_deliveringLeaf : (leaf deliveringLeaf).Reachable := by
  let plain : Leaf := { plainLeaf with entity := "fft4_wide", scale := "SCALE_DIV_N", delay := 2 }
  have hsize : Leaf.ofSize 4 "fft4_wide" "SCALE_DIV_N" 2 = .ok plain := rfl
  have hdeclare : plain.declare .output [1, 0] = .ok deliveringLeaf := rfl
  exact .declare (.leaf hsize) hdeclare

theorem reachable_staged : staged.Reachable :=
  .radix4 (n := 4) reachable_pointLeaf rfl

theorem reachable_composed : composed.Reachable := by
  have hplain : (fourStep (.ofLast 4 2 4 (.natural 2)) (leaf pointLeaf) (leaf deliveringLeaf)).Reachable :=
    .fourStep (n := 4) reachable_pointLeaf reachable_deliveringLeaf rfl
  exact (hplain.replaceMultiplier .wide .tree).useTwiddleWidth (.literal 18)

theorem generateFilled_surroundings :
    (staged.Reachable ∧ composed.Reachable ∧ staged.isLeaf = false ∧ composed.isLeaf = false ∧
      composed.size = staged.size ∧ composed.delay = staged.delay ∧
      composed.inputOrder = staged.inputOrder ∧ composed.outputOrder = staged.outputOrder) ∧
    (generateFilled surroundings staged "fft64").map
        (outside (pathName "fft64" surroundings.path)) =
      (generateFilled surroundings composed "fft64").map
        (outside (pathName "fft64" surroundings.path)) ∧
    ∃ as bs, generateFilled surroundings staged "fft64" = .ok as ∧
      generateFilled surroundings composed "fft64" = .ok bs ∧
      GeneratedAround surroundings "fft64" staged composed as bs := by
  have hsize : composed.size = staged.size := rfl
  have hdelay : composed.delay = staged.delay := by decide
  have hinput : composed.inputOrder = staged.inputOrder := by decide
  have houtput : composed.outputOrder = staged.outputOrder := by decide
  have hname : isBasicIdentifier "fft64" = true := by decide
  have hfilled : ∃ t, surroundings.fill staged = .ok t ∧ t.isTimed = true := ⟨_, rfl, by decide⟩
  obtain ⟨t, ht, htimed⟩ := hfilled
  have hgenerate : generateFilled surroundings staged "fft64" = .ok (t.architectures "fft64") := by
    rw [generateFilled, ht]
    exact generate_eq_ok_iff.2 ⟨⟨hname, htimed⟩, rfl⟩
  obtain ⟨hsame, hall⟩ := generateFilled_congr surroundings "fft64" reachable_staged reachable_composed
    rfl rfl hsize hdelay hinput houtput
  obtain ⟨bs, hbs, haround⟩ := hall _ hgenerate
  exact ⟨⟨reachable_staged, reachable_composed, rfl, rfl, hsize, hdelay, hinput, houtput⟩, hsame,
    _, bs, hgenerate, hbs, haround⟩

end StreamingFft.Core
