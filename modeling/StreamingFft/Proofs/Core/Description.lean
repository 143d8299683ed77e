import StreamingFft.Core.Latency
import StreamingFft.Proofs.Core.Configuration
import StreamingFft.Proofs.Core.Entities
import StreamingFft.Proofs.Text.Lines
/-!
The indented list of a tree's nodes. The text of a sub-core is indented once more at every composite
around it, so that in the end each line stands behind as many tabs as there are steps down to its node, and
the lines come in the order of the paths.
-/
namespace StreamingFft
open Text

/-- What a line of the list says: so many points, what computes them, and how long that takes. -/
structure Row where
  size : Nat
  label : String
  delay : Nat

namespace Row

def text (r : Row) : String := s!"{r.size}: {r.label}, delay={r.delay}"

/-- The row on a line so many levels below the root. -/
def line (r : Row) (depth : Nat) : String := tabs depth ++ r.text

theorem text_ne_empty (r : Row) : r.text ≠ "" := by
  intro h
  have hlength := congrArg String.length h
  simp [text] at hlength

theorem isLine_text {r : Row} (h : IsLine r.label) : IsLine r.text := by
  have hnumber : ∀ n : Nat, IsLine (toString n) := fun n => Vhdl.notMem_repr rfl n
  have hcolon : IsLine ": " := by decide
  have hdelay : IsLine ", delay=" := by decide
  unfold text
  simp only [isLine_append]
  exact ⟨⟨⟨⟨hnumber _, hcolon⟩, h⟩, hdelay⟩, hnumber _⟩

theorem indentLine_line (r : Row) (depth : Nat) : indentLine 1 (r.line depth) = r.line (depth + 1) := by
  have hne : r.line depth ≠ "" := fun h => r.text_ne_empty (String.append_eq_empty_iff.1 h).2
  rw [indentLine_of_ne 1 hne, line, line, ← String.append_assoc, ← tabs_add, Nat.add_comm]

end Row

namespace Core

/-- The row of a node. -/
def row (c : Core) : Row where
  size := c.size
  label := match c with
    | leaf l => s!"base, '{l.entity}', scale='{l.scale}'"
    | fourStep s _ _ => s!"twiddleBits={s.twiddleWidth.text}"
    | radix4 s _ _ => s!"twiddleBits={s.twiddleWidth.text}"
  delay := c.delay

/-- The row of the stage in front of the sub-core, which has no node of its own. -/
def stageRow? : Core → Option Row
  | radix4 _ d _ => some ⟨4, "(spdf stage)", d⟩
  | _ => none

/-- The lines of a node so many levels below the root. The stage stands one level below its node. -/
def linesAt (c : Core) (depth : Nat) : List String :=
  c.row.line depth :: (c.stageRow?.map (·.line (depth + 1))).toList

/-- The paths to all nodes, those to a node before those further down. -/
def paths : Core → List (List Nat)
  | leaf _ => [[]]
  | fourStep _ sub1 sub2 => [] :: (sub1.paths.map (0 :: ·) ++ sub2.paths.map (1 :: ·))
  | radix4 _ _ sub1 => [] :: sub1.paths.map (0 :: ·)

/-- The lines of the node at a path. -/
def listedAt (c : Core) (path : List Nat) : List String :=
  match c.descend path with
  | none => []
  | some node => node.linesAt path.length

/-- The texts of the caller that the list shows of a node. -/
def shownNames : Core → List String
  | leaf l => [l.entity, l.scale]
  | fourStep s _ _ => s.twiddleWidth.strings
  | radix4 s _ _ => s.twiddleWidth.strings

theorem isLine_text_twiddleWidth {w : TwiddleWidth} (h : ∀ s ∈ w.strings, IsLine s) : IsLine w.text := by
  cases w with
  | symbol name => exact h name List.mem_cons_self
  | literal bits => exact Vhdl.notMem_repr rfl bits

theorem isLine_label {c : Core} (h : ∀ s ∈ c.shownNames, IsLine s) : IsLine c.row.label := by
  have hcomposite : ∀ w : TwiddleWidth, (∀ s ∈ w.strings, IsLine s) →
      IsLine s!"twiddleBits={w.text}" := fun w hw =>
    isLine_append.2 ⟨by decide, isLine_text_twiddleWidth hw⟩
  cases c with
  | leaf l =>
    rw [shownNames, List.forall_mem_cons, List.forall_mem_singleton] at h
    have hkind : IsLine "base, '" := by decide
    have hscale : IsLine "', scale='" := by decide
    have hquote : IsLine "'" := by decide
    simp only [row, isLine_append]
    exact ⟨⟨⟨⟨hkind, h.1⟩, hscale⟩, h.2⟩, hquote⟩
  | fourStep s sub1 sub2 => exact hcomposite _ h
  | radix4 s d sub1 => exact hcomposite _ h

theorem description_leaf (l : Leaf) : (leaf l).description = (leaf l).row.text := by
  have hkind : ": base, '" = ": " ++ "base, '" := by decide
  have hdelay : "', delay=" = "'" ++ ", delay=" := by decide
  change toString l.size ++ ": base, '" ++ l.entity ++ "', scale='" ++ l.scale ++ "', delay=" ++
    toString l.delay = toString l.size ++ ": " ++
      ("base, '" ++ l.entity ++ "', scale='" ++ l.scale ++ "'") ++ ", delay=" ++ toString l.delay
  rw [hkind, hdelay]
  simp only [String.append_assoc]

theorem headline_eq {c : Core} {s : Stage} (h : c.stage? = some s) : c.headline s = c.row.text := by
  have hkind : ": twiddleBits=" = ": " ++ "twiddleBits=" := by decide
  have htext : c.headline s = toString s.size ++ ": " ++ ("twiddleBits=" ++ s.twiddleWidth.text) ++
      ", delay=" ++ toString c.delay := by
    change toString s.size ++ ": twiddleBits=" ++ s.twiddleWidth.text ++ ", delay=" ++
      toString c.delay = _
    rw [hkind]
    simp only [String.append_assoc]
  rw [htext]
  cases c with
  | leaf l => cases h
  | fourStep t sub1 sub2 =>
    cases h
    rfl
  | radix4 t d sub1 =>
    cases h
    rfl

theorem description_fourStep (s : Stage) (sub1 sub2 : Core) :
    (fourStep s sub1 sub2).description = (fourStep s sub1 sub2).row.text ++ "\n" ++
      indent 1 sub1.description ++ "\n" ++ indent 1 sub2.description := by
  rw [description, headline_eq rfl]

theorem description_radix4 (s : Stage) (d : Nat) (sub1 : Core) :
    (radix4 s d sub1).description = (radix4 s d sub1).row.text ++ "\n" ++
      (Row.mk 4 "(spdf stage)" d).line 1 ++ "\n" ++ indent 1 sub1.description := by
  have hstage : "\n\t4: (spdf stage), delay=" =
      "\n" ++ (tabs 1 ++ (toString 4 ++ ": " ++ "(spdf stage)" ++ ", delay=")) := by decide
  have hline : s!"\n\t4: (spdf stage), delay={d}\n" =
      "\n" ++ (Row.mk 4 "(spdf stage)" d).line 1 ++ "\n" := by
    change "\n\t4: (spdf stage), delay=" ++ toString d ++ "\n" = "\n" ++ (tabs 1 ++
      (toString 4 ++ ": " ++ "(spdf stage)" ++ ", delay=" ++ toString d)) ++ "\n"
    rw [hstage]
    simp only [String.append_assoc]
  rw [description, headline_eq rfl, hline]
  simp only [String.append_assoc]

/-- One level further in, all lines of a node have one more tab. -/
theorem map_indentLine_linesAt (c : Core) (depth : Nat) :
    (c.linesAt depth).map (indentLine 1) = c.linesAt (depth + 1) := by
  rw [linesAt, List.map_cons, Row.indentLine_line, linesAt]
  cases c.stageRow? with
  | none => rfl
  | some r => exact congrArg (_ :: [·]) (r.indentLine_line (depth + 1))

/-- The lines of a sub-core, seen from its parent. -/
theorem map_indentLine_listedAt {c child : Core} {i : Nat} (hi : c.children[i]? = some child)
    (path : List Nat) : (child.listedAt path).map (indentLine 1) = c.listedAt (i :: path) := by
  have hdescend : c.descend (i :: path) = child.descend path := by
    rw [descend, hi]
    rfl
  rw [listedAt, listedAt, hdescend]
  split
  · rfl
  · exact map_indentLine_linesAt _ _

theorem map_indentLine_listed {c child : Core} {i : Nat} (hi : c.children[i]? = some child) :
    (child.paths.flatMap child.listedAt).map (indentLine 1) =
      (child.paths.map (i :: ·)).flatMap c.listedAt := by
  rw [List.map_flatMap, List.flatMap_map]
  exact congrArg (child.paths.flatMap ·) (funext fun path => map_indentLine_listedAt hi path)

/-- The lines of the list are those of the nodes, path after path. -/
theorem lines_description {c : Core} (h : ∀ node ∈ c.nodes, ∀ s ∈ node.shownNames, IsLine s) :
    lines c.description = c.paths.flatMap c.listedAt := by
  induction c with
  | leaf l =>
    have hrow := Row.isLine_text (isLine_label (forall_mem_nodes_leaf.1 h))
    rw [description_leaf, lines_of_isLine hrow]
    rfl
  | fourStep s sub1 sub2 ih1 ih2 =>
    obtain ⟨⟨h1, h2⟩, hroot⟩ := forall_mem_nodes_fourStep.1 h
    have hrow := Row.isLine_text (isLine_label hroot)
    rw [description_fourStep, lines_append, lines_append, lines_of_isLine hrow, lines_indent,
      lines_indent, ih1 h1, ih2 h2,
      map_indentLine_listed (c := fourStep s sub1 sub2) (i := 0) rfl,
      map_indentLine_listed (c := fourStep s sub1 sub2) (i := 1) rfl, paths, List.flatMap_cons,
      List.flatMap_append, ← List.append_assoc]
    rfl
  | radix4 s d sub1 ih1 =>
    obtain ⟨h1, hroot⟩ := forall_mem_nodes_radix4.1 h
    have hrow := Row.isLine_text (isLine_label hroot)
    have hstage : IsLine ((Row.mk 4 "(spdf stage)" d).line 1) :=
      isLine_append.2 ⟨isLine_tabs 1, Row.isLine_text (by decide : IsLine "(spdf stage)")⟩
    rw [description_radix4, lines_append, lines_append, lines_of_isLine hrow, lines_of_isLine hstage,
      lines_indent, ih1 h1, map_indentLine_listed (c := radix4 s d sub1) (i := 0) rfl, paths,
      List.flatMap_cons]
    rfl

/-- A node stands above those below it, and what is on the left above what is on the right. -/
theorem pairwise_paths (c : Core) : c.paths.Pairwise (· < ·) := by
  have hcons : ∀ (i : Nat) {ps : List (List Nat)}, ps.Pairwise (· < ·) →
      (ps.map (i :: ·)).Pairwise (· < ·) := by
    intro i ps hps
    rw [List.pairwise_map]
    exact hps.imp fun hpq => List.cons_lt_cons_iff.2 (Or.inr ⟨rfl, hpq⟩)
  have hnil : ∀ {ps : List (List Nat)} {i : Nat}, ∀ p ∈ ps.map (i :: ·), [] < p := by
    intro ps i p hp
    obtain ⟨q, -, rfl⟩ := List.mem_map.1 hp
    exact List.nil_lt_cons _ _
  induction c with
  | leaf l => exact List.pairwise_singleton _ _
  | fourStep s sub1 sub2 ih1 ih2 =>
    refine .cons (List.forall_mem_append.2 ⟨hnil, hnil⟩) ?_
    refine List.pairwise_append.2 ⟨hcons 0 ih1, hcons 1 ih2, ?_⟩
    intro p hp q hq
    obtain ⟨p, -, rfl⟩ := List.mem_map.1 hp
    obtain ⟨q, -, rfl⟩ := List.mem_map.1 hq
    exact List.cons_lt_cons_iff.2 (Or.inl Nat.zero_lt_one)
  | radix4 s d sub1 ih1 => exact .cons hnil (hcons 0 ih1)

theorem cons_mem_paths {c : Core} {i : Nat} {path : List Nat} :
    i :: path ∈ c.paths ↔ ∃ child, c.children[i]? = some child ∧ path ∈ child.paths := by
  cases c with
  | leaf l => simp [paths, children]
  | fourStep s sub1 sub2 =>
    simp only [paths, List.mem_cons, reduceCtorEq, false_or, List.mem_append, cons_mem_map_cons,
      getElem?_children_fourStep, or_and_right, exists_or, and_assoc, exists_and_left, exists_eq_left]
  | radix4 s d sub1 =>
    simp only [paths, List.mem_cons, reduceCtorEq, false_or, cons_mem_map_cons,
      getElem?_children_radix4, and_assoc, exists_and_left, exists_eq_left]

theorem nil_mem_paths (c : Core) : [] ∈ c.paths := by
  cases c <;> exact List.mem_cons_self

/-- There is a path to every node, and to nothing else. -/
theorem mem_paths {c : Core} {path : List Nat} :
    path ∈ c.paths ↔ ∃ node, c.descend path = some node := by
  induction path generalizing c with
  | nil => exact iff_of_true c.nil_mem_paths ⟨c, rfl⟩
  | cons i path ih =>
    simp only [cons_mem_paths, ih, descend, Option.bind_eq_some_iff, Option.bind_eq_bind]
    constructor
    · rintro ⟨child, hi, node, hnode⟩
      exact ⟨node, child, hi, hnode⟩
    · rintro ⟨node, child, hi, hnode⟩
      exact ⟨child, hi, node, hnode⟩

/-- Below a parent the lines stand further in, and there are as many. -/
theorem length_listed_child {c child : Core} {i : Nat} (hi : c.children[i]? = some child) :
    ((child.paths.map (i :: ·)).flatMap c.listedAt).length =
      (child.paths.flatMap child.listedAt).length := by
  rw [← map_indentLine_listed hi, List.length_map]

/-- One line for each node, and one for each radix-4 stage. -/
theorem length_listed (c : Core) :
    (c.paths.flatMap c.listedAt).length = c.nodes.length + (c.nodes.filterMap stageRow?).length := by
  induction c with
  | leaf l => rfl
  | fourStep s sub1 sub2 ih1 ih2 =>
    have h1 := length_listed_child (c := fourStep s sub1 sub2) (i := 0) rfl
    have h2 := length_listed_child (c := fourStep s sub1 sub2) (i := 1) rfl
    have hroot : ((fourStep s sub1 sub2).listedAt []).length = 1 := rfl
    have hstage : ([fourStep s sub1 sub2].filterMap stageRow?).length = 0 := rfl
    simp only [paths, nodes, List.flatMap_cons, List.flatMap_append, List.filterMap_append,
      List.length_append, List.length_singleton, hroot, hstage, h1, h2, ih1, ih2]
    omega
  | radix4 s d sub1 ih1 =>
    have h1 := length_listed_child (c := radix4 s d sub1) (i := 0) rfl
    have hroot : ((radix4 s d sub1).listedAt []).length = 2 := rfl
    have hstage : ([radix4 s d sub1].filterMap stageRow?).length = 1 := rfl
    simp only [paths, nodes, List.flatMap_cons, List.filterMap_append, List.length_append,
      List.length_singleton, hroot, hstage, h1, ih1]
    omega

/-- The list has the lines of all nodes in the order of their paths, which leads to a node before it leads
to those below it, and from left to right; it can be written if the latency of the root is a word. -/
theorem description_listing {c : Core} (h : ∀ node ∈ c.nodes, ∀ s ∈ node.shownNames, IsLine s) :
    lines c.description = c.paths.flatMap c.listedAt ∧
      c.paths.Pairwise (· < ·) ∧
      (∀ path, path ∈ c.paths ↔ ∃ node, c.descend path = some node) ∧
      (lines c.description).length = c.nodes.length + (c.nodes.filterMap stageRow?).length ∧
      (c.timed description = .ok c.description ↔ c.delay ≤ maxWord) := by
  have hlines := lines_description h
  refine ⟨hlines, c.pairwise_paths, fun path => mem_paths, ?_, ?_⟩
  · rw [hlines, length_listed]
  · rw [timed_eq_ok_iff]
    exact and_iff_left rfl

theorem description_listing_nested :
    (∀ node ∈ nested.nodes, ∀ s ∈ node.shownNames, IsLine s) ∧
      lines nested.description =
        ["64: twiddleBits=twBits, delay=113",
          "\t4: (spdf stage), delay=54",
          "\t16: twiddleBits=twBits, delay=37",
          "\t\t4: base, 'fft4', scale='SCALE_NONE', delay=4",
          "\t\t4: base, 'fft4', scale='SCALE_NONE', delay=4"] ∧
      nested.timed description = .ok nested.description := by
  have hnames : ∀ node ∈ nested.nodes, ∀ s ∈ node.shownNames, IsLine s := by decide
  obtain ⟨hlines, -, -, -, htimed⟩ := description_listing hnames
  refine ⟨hnames, ?_, htimed.2 (by decide)⟩
  rw [hlines]
  decide

end Core
end StreamingFft
