import StreamingFft.Proofs.Core.Entities
/-!
What a composite sees of its sub-cores. It may get others that look alike, and then neither its own entity
nor what its parent sees of it changes.
-/
namespace StreamingFft

/-- Two computations that end with the same fault, or with results that are related. -/
inductive Matched {α β : Type} (R : α → β → Prop) : Except Fault α → Except Fault β → Prop
  | error (fault : Fault) : Matched R (.error fault) (.error fault)
  | ok {a : α} {b : β} : R a b → Matched R (.ok a) (.ok b)

namespace Matched
variable {α β α' β' : Type} {R : α → β → Prop} {S : α' → β' → Prop}
  {x : Except Fault α} {y : Except Fault β}

theorem bind (h : Matched R x y) {f : α → Except Fault α'} {g : β → Except Fault β'}
    (hfg : ∀ a b, R a b → Matched S (f a) (g b)) : Matched S (x >>= f) (y >>= g) := by
  cases h with
  | error fault => exact .error fault
  | ok hab => exact hfg _ _ hab

theorem map (h : Matched R x y) {f : α → α'} {g : β → β'} (hfg : ∀ a b, R a b → S (f a) (g b)) :
    Matched S (x.map f) (y.map g) := by
  cases h with
  | error fault => exact .error fault
  | ok hab => exact .ok (hfg _ _ hab)

theorem mono (h : Matched R x y) {S : α → β → Prop} (hRS : ∀ a b, R a b → S a b) : Matched S x y := by
  cases h with
  | error fault => exact .error fault
  | ok hab => exact .ok (hRS _ _ hab)

theorem map_eq (h : Matched R x y) {f : α → α'} {g : β → α'} (hfg : ∀ a b, R a b → f a = g b) :
    x.map f = y.map g := by
  cases h with
  | error fault => rfl
  | ok hab => exact congrArg Except.ok (hfg _ _ hab)

theorem exists_eq_ok (h : Matched R x y) {a : α} (hx : x = .ok a) : ∃ b, y = .ok b ∧ R a b := by
  cases h with
  | error fault => cases hx
  | ok hab =>
    cases hx
    exact ⟨_, rfl, hab⟩

end Matched

namespace Core

/-- Two cores that a parent cannot tell apart. -/
structure Alike (c d : Core) : Prop extends SameInterface c d where
  delay : d.delay = c.delay
  childName : ∀ parent index, childName parent index d = childName parent index c
  instanceAt : ∀ id entity, d.instanceAt id entity = c.instanceAt id entity

theorem alike_refl (c : Core) : Alike c c := ⟨sameInterface_refl c, rfl, fun _ _ => rfl, fun _ _ => rfl⟩

theorem instanceAt_eq {c : Core} (h : c.isLeaf = false) (id entity : String) :
    c.instanceAt id entity = Vhdl.generatedInstance id entity := by
  cases c with
  | leaf l => cases h
  | fourStep s sub1 sub2 => rfl
  | radix4 s d sub1 => rfl

/-- Of a composite, a parent sees sizes, orders and latency only. -/
theorem alike_of_composite {c d : Core} (h : SameInterface c d) (hdelay : d.delay = c.delay)
    (hc : c.isLeaf = false) (hd : d.isLeaf = false) : Alike c d where
  toSameInterface := h
  delay := hdelay
  childName parent index := by rw [childName_eq hd, childName_eq hc]
  instanceAt id entity := by rw [instanceAt_eq hd, instanceAt_eq hc]

theorem alike_fourStep (s : Stage) {a b a' b' : Core} (ha : Alike a a') (hb : Alike b b') :
    Alike (fourStep s a b) (fourStep s a' b') := by
  refine alike_of_composite ⟨rfl, rfl, ?_, ?_⟩ ?_ rfl rfl
  · rw [inputOrder, inputOrder, hb.order, ha.inputOrder]
  · rw [outputOrder, outputOrder, ha.outputOrder, hb.outputOrder]
  · rw [delay, delay, ha.delay, hb.delay]

theorem alike_radix4 (s : Stage) (d : Nat) {a a' : Core} (ha : Alike a a') :
    Alike (radix4 s d a) (radix4 s d a') := by
  refine alike_of_composite ⟨rfl, rfl, rfl, ?_⟩ ?_ rfl rfl
  · rw [outputOrder, outputOrder, ha.outputOrder]
  · rw [delay, delay, ha.delay]

theorem slot_eq {c d : Core} (h : Alike c d) (id entity : String) :
    d.slot id entity = c.slot id entity := by
  rw [slot, slot, h.order, h.instanceAt]

theorem constants_eq {c d : Core} (hstage : d.stage? = c.stage?) (hdelay : d.delay = c.delay)
    (id : String) : d.constants id = c.constants id := by
  rw [constants, constants, hstage, hdelay]

/-- Composites that look alike have the same entity if their own parts are the same. -/
theorem architectureOf_eq {c d : Core} (h : Alike c d) (hstage : d.stage? = c.stage?)
    (hcomponents : d.ownComponents = c.ownComponents)
    (hdeclarations : d.declarations "" = c.declarations "")
    (hbody : d.body "" "sub1" "sub2" = c.body "" "sub1" "sub2") (name : String) (slots : List Slot) :
    d.architectureOf name slots = c.architectureOf name slots := by
  rw [architectureOf, architectureOf, constants_eq hstage h.delay, h.order, h.inputOrder,
    h.outputOrder, h.delay, hcomponents, hdeclarations, hbody]

/-- The text of a four-step core is made of what it sees of its sub-cores. -/
theorem ownArchitecture_fourStep (s : Stage) {a b a' b' : Core} (ha : Alike a a') (hb : Alike b b')
    (name : String) :
    (fourStep s a' b').ownArchitecture name = (fourStep s a b).ownArchitecture name := by
  rw [ownArchitecture, ownArchitecture, architecture?, architecture?, ha.childName, hb.childName,
    slot_eq ha, slot_eq hb, architectureOf_eq (alike_fourStep s ha hb) rfl rfl]
  · rw [declarations, declarations, ha.order, hb.order]
  · simp only [body, fourStepBody, ha.order, hb.order, ha.delay, ha.outputOrder]

theorem ownArchitecture_radix4 (s : Stage) (d : Nat) {a a' : Core} (ha : Alike a a')
    (name : String) :
    (radix4 s d a').ownArchitecture name = (radix4 s d a).ownArchitecture name := by
  rw [ownArchitecture, ownArchitecture, architecture?, architecture?, ha.childName, slot_eq ha,
    architectureOf_eq (alike_radix4 s d ha) rfl rfl]
  · rw [declarations, declarations, ha.order]
  · simp only [body, radix4Body, ha.order]

/-- Sub-cores that look alike are accepted or refused alike, and their parent gets the same stage. -/
theorem ofFourStep_alike (n : Nat) {a b a' b' : Core} (ha : Alike a a') (hb : Alike b b') :
    Matched (fun t u => ∃ s, t = fourStep s a b ∧ u = fourStep s a' b')
      (ofFourStep n a b) (ofFourStep n a' b') := by
  rw [ofFourStep, ofFourStep, ha.size, hb.size, hb.inputOrder]
  cases checkFactors n (a.size * b.size) with
  | error fault => exact .error fault
  | ok order => exact .ok ⟨_, rfl, rfl⟩

theorem ofRadix4_alike (n : Nat) {a a' : Core} (ha : Alike a a') :
    Matched (fun t u => ∃ s d, t = radix4 s d a ∧ u = radix4 s d a')
      (ofRadix4 n a) (ofRadix4 n a') := by
  rw [ofRadix4, ofRadix4, ha.size, ha.inputOrder]
  cases checkFactors n (a.size * 4) with
  | error fault => exact .error fault
  | ok order => exact .ok ⟨_, _, rfl, rfl⟩

end Core
end StreamingFft
