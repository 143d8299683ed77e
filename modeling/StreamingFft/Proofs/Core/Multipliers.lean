import Mathlib.Data.Option.Defs
import StreamingFft.Proofs.Core.Latency
import StreamingFft.Proofs.Core.Rebuilding
/-!
Multipliers replaced in a tree that stands. All that was fixed in the tree when it was built stays as it
was, so the tree is the one that the same description builds with the other multiplier, and only the
latencies of the multipliers enter and leave the latency of the tree, as long as that is a word.
-/
namespace StreamingFft

/-- The description with one multiplier in all composites. -/
def Recipe.useMultiplier (m : Multiplier) : Recipe → Recipe
  | leaf r => leaf r
  | fourStep n r1 r2 settings =>
    fourStep n (r1.useMultiplier m) (r2.useMultiplier m) { settings with multiplier := m }
  | radix4 n r1 settings => radix4 n (r1.useMultiplier m) { settings with multiplier := m }

namespace Core

/-- Trees of one shape, with the same leaves and, up to their multipliers, the same stages. -/
inductive UpToMultipliers : Core → Core → Prop
  | leaf (l : Leaf) : UpToMultipliers (leaf l) (leaf l)
  | fourStep (s : Stage) (m : Multiplier) {a b a' b' : Core} :
    UpToMultipliers a a' → UpToMultipliers b b' →
      UpToMultipliers (fourStep s a b) (fourStep (s.useMultiplier m) a' b')
  | radix4 (s : Stage) (m : Multiplier) (d : Nat) {a a' : Core} :
    UpToMultipliers a a' → UpToMultipliers (radix4 s d a) (radix4 (s.useMultiplier m) d a')

theorem upToMultipliers_refl (c : Core) : UpToMultipliers c c := by
  induction c with
  | leaf l => exact .leaf l
  | fourStep s a b iha ihb => exact .fourStep s s.multiplier iha ihb
  | radix4 s d a iha => exact .radix4 s s.multiplier d iha

theorem UpToMultipliers.sameInterface {c d : Core} (h : UpToMultipliers c d) :
    SameInterface c d := by
  induction h with
  | leaf l => exact sameInterface_refl _
  | fourStep s m _ _ iha ihb => exact sameInterface_fourStep (cosmetic_useMultiplier m) s iha ihb
  | radix4 s m d _ iha => exact sameInterface_radix4 (cosmetic_useMultiplier m) s d iha

/-- A path that leads somewhere in one of the trees leads to the same place in the other. -/
theorem UpToMultipliers.descend {c d : Core} (h : UpToMultipliers c d) (path : List Nat) :
    Option.Rel UpToMultipliers (c.descend path) (d.descend path) := by
  induction path generalizing c d with
  | nil => exact .some h
  | cons i path ih =>
    cases h with
    | leaf l => exact .none
    | fourStep s m ha hb =>
      match i with
      | 0 => exact ih ha
      | 1 => exact ih hb
      | i + 2 => exact .none
    | radix4 s m d ha =>
      match i with
      | 0 => exact ih ha
      | i + 1 => exact .none

theorem upToMultipliers_replaceMultiplier (m : Multiplier) (scope : Scope) (c : Core) :
    UpToMultipliers c (c.replaceMultiplier m scope) := by
  cases scope with
  | node =>
    cases c with
    | leaf l => exact .leaf l
    | fourStep s a b => exact .fourStep s m (upToMultipliers_refl a) (upToMultipliers_refl b)
    | radix4 s d a => exact .radix4 s m d (upToMultipliers_refl a)
  | tree =>
    induction c with
    | leaf l => exact .leaf l
    | fourStep s a b iha ihb => exact .fourStep s m iha ihb
    | radix4 s d a iha => exact .radix4 s m d iha

/-- Trees that differ in multipliers only become one when all multipliers are replaced. -/
theorem UpToMultipliers.replaceMultiplier_eq {c d : Core} (h : UpToMultipliers c d)
    (m : Multiplier) : d.replaceMultiplier m .tree = c.replaceMultiplier m .tree := by
  simp only [replaceMultiplier]
  induction h with
  | leaf l => rfl
  | fourStep s n _ _ iha ihb =>
    rw [mapStages, mapStages, iha, ihb]
    rfl
  | radix4 s n d _ iha =>
    rw [mapStages, mapStages, iha]
    rfl

theorem replaceMultiplier_foldl (m : Multiplier) (calls : List (Multiplier × Scope)) (c : Core) :
    (calls.foldl (fun d call => d.replaceMultiplier call.1 call.2) c).replaceMultiplier m .tree =
      c.replaceMultiplier m .tree := by
  induction calls generalizing c with
  | nil => rfl
  | cons call calls ih =>
    rw [List.foldl_cons, ih]
    exact (upToMultipliers_replaceMultiplier call.1 call.2 c).replaceMultiplier_eq m

theorem recipe_replaceMultiplier (m : Multiplier) (c : Core) :
    (c.replaceMultiplier m .tree).recipe = c.recipe.useMultiplier m := by
  simp only [replaceMultiplier]
  induction c with
  | leaf l => rfl
  | fourStep s a b iha ihb =>
    rw [mapStages, recipe, recipe, iha, ihb]
    rfl
  | radix4 s d a iha =>
    rw [mapStages, recipe, recipe, iha]
    rfl

/-- The number of composites. -/
def composites (c : Core) : Nat := c.nodes.countP fun node => !node.isLeaf

theorem composites_leaf (l : Leaf) : (leaf l).composites = 0 := rfl

theorem composites_fourStep (s : Stage) (a b : Core) :
    (fourStep s a b).composites = a.composites + b.composites + 1 := by
  rw [composites, nodes, List.countP_append, List.countP_append]
  rfl

theorem composites_radix4 (s : Stage) (d : Nat) (a : Core) :
    (radix4 s d a).composites = a.composites + 1 := by
  rw [composites, nodes, List.countP_append]
  rfl

/-- The old multipliers go out of the latency, and the new one comes in for each of them. -/
theorem delay_replaceMultiplier (m : Multiplier) (c : Core) :
    (c.replaceMultiplier m .tree).delay + c.total multiplierDelay? =
      c.delay + c.composites * m.delay := by
  simp only [replaceMultiplier]
  induction c with
  | leaf l => simp [mapStages, total_leaf, multiplierDelay?, stage?, composites_leaf]
  | fourStep s a b iha ihb =>
    simp only [mapStages, delay, total_fourStep, composites_fourStep, multiplierDelay?, stage?,
      Option.map_some, Option.getD_some, Stage.size_useMultiplier, Stage.multiplier_useMultiplier,
      Stage.bufferDelay_useMultiplier, Nat.add_mul]
    omega
  | radix4 s d a iha =>
    simp only [mapStages, delay, total_radix4, composites_radix4, multiplierDelay?, stage?,
      Option.map_some, Option.getD_some, Stage.multiplier_useMultiplier,
      Stage.bufferDelay_useMultiplier, Nat.add_mul]
    omega

/-- A latency that can be given becomes one that can be given if the exchange makes a word of it. -/
theorem timed_delay_replaceMultiplier {c : Core} {old : Nat} (h : c.timed delay = .ok old)
    (m : Multiplier) (new : Nat) :
    (c.replaceMultiplier m .tree).timed delay = .ok new ↔
      new ≤ maxWord ∧ new + c.total multiplierDelay? = old + c.composites * m.delay := by
  obtain ⟨-, rfl⟩ := timed_eq_ok_iff.1 h
  rw [timed_eq_ok_iff, ← delay_replaceMultiplier m c, Nat.add_right_cancel_iff]
  constructor
  · rintro ⟨hword, rfl⟩
    exact ⟨hword, rfl⟩
  · rintro ⟨hword, rfl⟩
    exact ⟨hword, rfl⟩

/-- What replacing multipliers in a tree amounts to. -/
structure Replaces (c : Core) (m : Multiplier) : Prop where
  /-- The tree is what its description builds. -/
  built : c.recipe.build = .ok c
  rebuilt : (c.recipe.useMultiplier m).build = .ok (c.replaceMultiplier m .tree)
  rootStage : (c.replaceMultiplier m .node).stage? = c.stage?.map (·.useMultiplier m)
  rootChildren : (c.replaceMultiplier m .node).children = c.children
  /-- At every path, whatever is no multiplier is still the same. -/
  kept : ∀ scope path, Option.Rel (fun old new => UpToMultipliers old new ∧ SameInterface old new)
    (c.descend path) ((c.replaceMultiplier m scope).descend path)
  /-- Earlier replacements leave no trace of theirs. -/
  overrides : ∀ calls : List (Multiplier × Scope),
    (calls.foldl (fun d call => d.replaceMultiplier call.1 call.2) c).replaceMultiplier m .tree =
      c.replaceMultiplier m .tree
  /-- Where the latency was a word, the old multipliers go out of it and the new one comes in for each; the
  result is the latency if it is a word, and otherwise there is none. -/
  latency : ∀ old, c.timed delay = .ok old → ∀ new,
    (c.replaceMultiplier m .tree).timed delay = .ok new ↔
      new ≤ maxWord ∧ new + c.total multiplierDelay? = old + c.composites * m.delay

theorem replaces_of_reachable {c : Core} (h : c.Reachable) (m : Multiplier) : Replaces c m where
  built := build_recipe h.coherent
  rebuilt := by
    rw [← recipe_replaceMultiplier]
    exact build_recipe (h.replaceMultiplier m .tree).coherent
  rootStage := by cases c <;> rfl
  rootChildren := by cases c <;> rfl
  kept scope path := by
    have hpath := (upToMultipliers_replaceMultiplier m scope c).descend path
    generalize c.descend path = old, (c.replaceMultiplier m scope).descend path = new at hpath
    cases hpath with
    | some hkept => exact .some ⟨hkept, hkept.sameInterface⟩
    | none => exact .none
  overrides calls := replaceMultiplier_foldl m calls c
  latency _ hold new := timed_delay_replaceMultiplier hold m new

/-- The two composites of the tree had multipliers of 6 and 9 cycles; then both had one of 3, then the root
a standard one again, and at last both the wide one. -/
theorem replaces_nested :
    nested.Reachable ∧ nested.composites = 2 ∧ nested.total multiplierDelay? = 6 + 9 ∧
      (nested.recipe.useMultiplier .wide).build = .ok (nested.replaceMultiplier .wide .tree) ∧
      nested.timed delay = .ok 113 ∧
      (((nested.replaceMultiplier ⟨"fast", 3⟩ .tree).replaceMultiplier .standard
        .node).replaceMultiplier .wide .tree).timed delay = .ok (113 - (6 + 9) + 2 * 9) := by
  have h := replaces_of_reachable reachable_nested .wide
  have hcomposites : nested.composites = 2 := by decide
  have hdelays : nested.total multiplierDelay? = 6 + 9 := by decide
  have hlater := h.overrides [(⟨"fast", 3⟩, .tree), (.standard, .node)]
  have hold : nested.timed delay = .ok 113 := timed_eq_ok_iff.2 ⟨by decide, by decide⟩
  have hnew : (nested.replaceMultiplier .wide .tree).timed delay = .ok (113 - (6 + 9) + 2 * 9) := by
    rw [h.latency 113 hold, hcomposites, hdelays]
    decide
  rw [← hlater] at hnew
  exact ⟨reachable_nested, hcomposites, hdelays, h.rebuilt, hold, hnew⟩

/-- A multiplier that takes as long as a word can say leaves no latency to the tree. -/
theorem not_timed_replaceMultiplier :
    ¬ ∀ (c : Core) (m : Multiplier) (old : Nat), c.Reachable → m.delay ≤ maxWord →
      c.timed delay = .ok old → ∃ new, (c.replaceMultiplier m .tree).timed delay = .ok new ∧
        new + c.total multiplierDelay? = old + c.composites * m.delay := by
  intro h
  have hold : nested.timed delay = .ok 113 := timed_eq_ok_iff.2 ⟨by decide, by decide⟩
  obtain ⟨new, hnew, -⟩ := h nested ⟨"slow", maxWord⟩ 113 reachable_nested (Nat.le_refl _) hold
  have hfault : (nested.replaceMultiplier ⟨"slow", maxWord⟩ .tree).timed delay =
      .error (.overflow .latency) := rfl
  rw [hfault] at hnew
  cases hnew

end Core
end StreamingFft
