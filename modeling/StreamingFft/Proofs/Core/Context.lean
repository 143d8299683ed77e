import StreamingFft.Proofs.Core.Generation
import StreamingFft.Proofs.Core.Likeness
import StreamingFft.Proofs.Core.Rebuilding
/-!
Trees with a hole. The composites around a hole are checked and get their buffers as they are built, so
all that is fixed in them is found anew when another sub-core fills the hole. Generation does not tell
apart composites that look alike: outside the hole, the same entities are written in the same order.
-/
namespace StreamingFft

/-- A composite that lacks one of its sub-cores. -/
inductive Frame where
  | first (size : Nat) (settings : Settings) (sub2 : Core)
  | second (size : Nat) (settings : Settings) (sub1 : Core)
  | radix4 (size : Nat) (settings : Settings)

namespace Frame

/-- The position of the sub-core that is missing. -/
def index : Frame → Nat
  | first .. => 0
  | second .. => 1
  | radix4 .. => 0

/-- Builds the composite with the sub-core. -/
def build : Frame → Core → Except Fault Core
  | first n settings sub2, c => (Core.ofFourStep n c sub2).map settings.apply
  | second n settings sub1, c => (Core.ofFourStep n sub1 c).map settings.apply
  | radix4 n settings, c => (Core.ofRadix4 n c).map settings.apply

end Frame

/-- A tree with a hole: the composites around it, the outermost first. -/
abbrev Context := List Frame

namespace Context

/-- The path from the root to the hole. -/
def path (ctx : Context) : List Nat := ctx.map Frame.index

/-- Builds the tree with a core in the hole, from the inside out. -/
def fill : Context → Core → Except Fault Core
  | [], c => .ok c
  | frame :: ctx, c => fill ctx c >>= frame.build

end Context

namespace Core

/-- Two trees that differ at one place only, where `c` stands in one and `d` in the other. -/
structure Exchanged (path : List Nat) (c d t u : Core) : Prop where
  alike : Alike t u
  hole : t.descend path = some c
  hole' : u.descend path = some d
  entities : ∀ name q, ¬ path <+: q → u.architectureAt name q = t.architectureAt name q
  /-- The composites around the place stand in the same order. -/
  paths : ∃ before after,
    t.compositePaths = before ++ c.compositePaths.map (path ++ ·) ++ after ∧
      u.compositePaths = before ++ d.compositePaths.map (path ++ ·) ++ after ∧
      ∀ q ∈ before ++ after, ¬ path <+: q

theorem exchanged_self {c d : Core} (h : Alike c d) : Exchanged [] c d c d where
  alike := h
  hole := rfl
  hole' := rfl
  entities _ q hq := absurd (List.nil_prefix (l := q)) hq
  paths := by
    refine ⟨[], [], ?_, ?_, fun _ hq => nomatch hq⟩
    · simp
    · simp

/-- Neither the root nor anything below the other children is below child `i`. -/
theorem not_singleton_prefix {i j : Nat} (hij : i ≠ j) (ps : List (List Nat)) :
    ∀ q ∈ ps.map (j :: ·) ++ [[]], ¬ [i] <+: q := by
  intro q hq h
  rcases List.mem_append.1 hq with hq | hq
  · obtain ⟨r, -, rfl⟩ := List.mem_map.1 hq
    exact hij (List.cons_prefix_cons.1 h).1
  · rw [List.mem_singleton.1 hq] at h
    cases List.prefix_nil.1 h

theorem exchanged_first (s : Stage) {c d : Core} (h : Alike c d) (b : Core) :
    Exchanged [0] c d (fourStep s c b) (fourStep s d b) where
  alike := alike_fourStep s h (alike_refl b)
  hole := rfl
  hole' := rfl
  entities name q hq := by
    match q, hq with
    | [], _ => exact ownArchitecture_fourStep s h (alike_refl b) name
    | 0 :: q, hq => exact absurd (List.prefix_append [0] q) hq
    | 1 :: q, _ => rfl
    | (i + 2) :: q, _ => rfl
  paths := by
    refine ⟨[], b.compositePaths.map (1 :: ·) ++ [[]], ?_, ?_, ?_⟩
    · exact List.append_assoc ..
    · exact List.append_assoc ..
    · exact not_singleton_prefix (by decide) b.compositePaths

theorem exchanged_second (s : Stage) (a : Core) {c d : Core} (h : Alike c d) :
    Exchanged [1] c d (fourStep s a c) (fourStep s a d) where
  alike := alike_fourStep s (alike_refl a) h
  hole := rfl
  hole' := rfl
  entities name q hq := by
    match q, hq with
    | [], _ => exact ownArchitecture_fourStep s (alike_refl a) h name
    | 0 :: q, _ => rfl
    | 1 :: q, hq => exact absurd (List.prefix_append [1] q) hq
    | (i + 2) :: q, _ => rfl
  paths := by
    refine ⟨a.compositePaths.map (0 :: ·), [[]], rfl, rfl, ?_⟩
    exact not_singleton_prefix (by decide) a.compositePaths

theorem exchanged_radix4 (s : Stage) (k : Nat) {c d : Core} (h : Alike c d) :
    Exchanged [0] c d (radix4 s k c) (radix4 s k d) where
  alike := alike_radix4 s k h
  hole := rfl
  hole' := rfl
  entities name q hq := by
    match q, hq with
    | [], _ => exact ownArchitecture_radix4 s k h name
    | 0 :: q, hq => exact absurd (List.prefix_append [0] q) hq
    | (i + 1) :: q, _ => rfl
  paths := by
    refine ⟨[], [[]], rfl, rfl, ?_⟩
    exact not_singleton_prefix (j := 1) (by decide) []

/-- Differences at a place in child `i` are differences at a place in the tree. -/
theorem Exchanged.cons {i : Nat} {path : List Nat} {c d t u v w : Core}
    (inner : Exchanged path c d t u) (outer : Exchanged [i] t u v w) :
    Exchanged (i :: path) c d v w := by
  have hv : v.children[i]? = some t := (Option.bind_fun_some _).symm.trans outer.hole
  have hw : w.children[i]? = some u := (Option.bind_fun_some _).symm.trans outer.hole'
  refine ⟨outer.alike, ?_, ?_, ?_, ?_⟩
  · exact Option.bind_eq_some_iff.2 ⟨t, hv, inner.hole⟩
  · exact Option.bind_eq_some_iff.2 ⟨u, hw, inner.hole'⟩
  · intro name q hq
    -- away from the inner place, but below child `i` or not
    by_cases hi : [i] <+: q
    · obtain ⟨r, rfl⟩ := hi
      have hr : ¬ path <+: r := fun h => hq (List.cons_prefix_cons.2 ⟨rfl, h⟩)
      change (w.children[i]? >>= _) = (v.children[i]? >>= _)
      rw [hv, hw]
      change u.architectureAt (childName name i u) r = t.architectureAt (childName name i t) r
      rw [inner.alike.childName, inner.entities _ r hr]
    · exact outer.entities name q hi
  · obtain ⟨before, after, ht, hu, haround⟩ := inner.paths
    obtain ⟨before', after', hv', hw', haround'⟩ := outer.paths
    refine ⟨before' ++ before.map (i :: ·), after.map (i :: ·) ++ after', ?_, ?_, ?_⟩
    · rw [hv', ht]
      simp
    · rw [hw', hu]
      simp
    · intro q hq hprefix
      have hi : [i] <+: q := (List.prefix_append [i] path).trans hprefix
      have haround'' : q ∉ before' ++ after' := fun hmem => haround' q hmem hi
      have hbelow : q ∈ (before ++ after).map (i :: ·) := by
        simp only [List.map_append, List.mem_append] at hq haround'' ⊢
        tauto
      obtain ⟨r, hr, rfl⟩ := List.mem_map.1 hbelow
      exact haround r hr (List.cons_prefix_cons.1 hprefix).2

/-- A frame takes or refuses cores that look alike alike, and is the same around them. -/
theorem build_alike (frame : Frame) {c d : Core} (h : Alike c d) :
    Matched (Exchanged [frame.index] c d) (frame.build c) (frame.build d) := by
  cases frame with
  | first n settings sub2 =>
    refine (ofFourStep_alike n h (alike_refl sub2)).map ?_
    rintro _ _ ⟨s, rfl, rfl⟩
    exact exchanged_first _ h sub2
  | second n settings sub1 =>
    refine (ofFourStep_alike n (alike_refl sub1) h).map ?_
    rintro _ _ ⟨s, rfl, rfl⟩
    exact exchanged_second _ sub1 h
  | radix4 n settings =>
    refine (ofRadix4_alike n h).map ?_
    rintro _ _ ⟨s, k, rfl, rfl⟩
    exact exchanged_radix4 _ k h

/-- Up to the root, all composites around the hole are refused or are the same. -/
theorem fill_alike (ctx : Context) {c d : Core} (h : Alike c d) :
    Matched (Exchanged ctx.path c d) (ctx.fill c) (ctx.fill d) := by
  induction ctx with
  | nil => exact .ok (exchanged_self h)
  | cons frame ctx ih =>
    exact ih.bind fun t u inner =>
      (build_alike frame inner.alike).mono fun v w outer => inner.cons outer

/-- A composite is a frame around each of its sub-cores. -/
theorem exists_build_eq {c child : Core} (h : c.Coherent) {i : Nat}
    (hi : c.children[i]? = some child) : ∃ frame : Frame, frame.index = i ∧ frame.build child = .ok c := by
  cases c with
  | leaf l => cases hi
  | fourStep s a b =>
    obtain ⟨rfl, rfl⟩ | ⟨rfl, rfl⟩ := getElem?_children_fourStep.1 hi
    · exact ⟨.first s.size ⟨s.multiplier, s.twiddleWidth⟩ b, rfl, ofFourStep_map_apply h⟩
    · exact ⟨.second s.size ⟨s.multiplier, s.twiddleWidth⟩ a, rfl, ofFourStep_map_apply h⟩
  | radix4 s d a =>
    obtain ⟨rfl, rfl⟩ := getElem?_children_radix4.1 hi
    exact ⟨.radix4 s.size ⟨s.multiplier, s.twiddleWidth⟩, rfl, ofRadix4_map_apply h⟩

/-- Every place in a tree is the hole of a context. -/
theorem exists_fill_eq {c node : Core} (h : ∀ n ∈ c.nodes, n.Coherent) {path : List Nat}
    (hnode : c.descend path = some node) : ∃ ctx : Context, ctx.path = path ∧ ctx.fill node = .ok c := by
  induction path generalizing c with
  | nil =>
    cases hnode
    exact ⟨[], rfl, rfl⟩
  | cons i path ih =>
    obtain ⟨child, hi, hnode⟩ := Option.bind_eq_some_iff.1 hnode
    obtain ⟨frame, hindex, hbuild⟩ := exists_build_eq (h c (self_mem_nodes c)) hi
    obtain ⟨ctx, hpath, hfill⟩ := ih (fun n hn => h n (nodes_subset (child_mem_nodes hi) hn)) hnode
    refine ⟨frame :: ctx, ?_, ?_⟩
    · rw [Context.path, List.map_cons, hindex]
      exact congrArg (i :: ·) hpath
    · rw [Context.fill, hfill]
      exact hbuild

end Core
end StreamingFft
