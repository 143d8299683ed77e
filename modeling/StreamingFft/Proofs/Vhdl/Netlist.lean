import StreamingFft.Proofs.Vhdl.Signals
import StreamingFft.Proofs.Vhdl.Wiring
/-!
Statements as a netlist: the names that they refer to, the signals that they assign, and the ports that
a signal is connected to. All of this stays the same when the statements are read from their text.
-/
namespace StreamingFft.Vhdl

/-- A port of an instance. -/
structure Terminal where
  label : String
  entity : String
  formal : Option String
deriving DecidableEq, Repr

/-- What the user of a leaf gives as its scale. -/
def Association.isScale (a : Association) : Bool := a.formal == some "scale"

namespace Statement

/-- The names that a statement reads or assigns, or connects to an instance; scales are the user's. -/
def references : Statement → List String
  | register target value => "clk" :: target :: value.signals
  | instantiate i =>
    (i.generics.filter (!·.isScale) ++ i.ports).flatMap fun a => a.actual.signals
  | s => s.signals

/-- The ports to which a statement connects a signal. -/
def terminals (v : String) : Statement → List Terminal
  | instantiate i =>
    (i.ports.filter fun p => p.actual.signals.contains v).map fun p => ⟨i.label, i.entity, p.formal⟩
  | _ => []

end Statement

/-- All names are declared, and once only; no signal is assigned twice. Names are the same if they are
the same without case. -/
structure Closed (declared : List String) (ss : List Statement) : Prop where
  distinct : (declared.map String.toLower).Nodup
  references : ∀ st ∈ ss, ∀ v ∈ st.references, v ∈ declared
  targets : ((ss.filterMap Statement.target?).map String.toLower).Nodup

/-- Names that are read as names. -/
def Vocabulary (names : List String) : Prop := ∀ v ∈ names, IsName v ∧ v ∉ ["true", "false"]

instance : DecidablePred Vocabulary := fun names =>
  inferInstanceAs (Decidable (∀ v ∈ names, IsName v ∧ v ∉ ["true", "false"]))

theorem Vocabulary.append {us vs : List String} (hu : Vocabulary us) (hv : Vocabulary vs) :
    Vocabulary (us ++ vs) :=
  List.forall_mem_append.2 ⟨hu, hv⟩

variable {names : List String}

namespace Expr

/-- Actuals over the given names. -/
def Connected (names : List String) : Expr → Prop
  | name v => v ∈ names
  | nat _ => True
  | flag _ => True
  | add (name v) (nat _) => v ∈ names
  | _ => False

@[simp] theorem connected_name {v : String} : (name v).Connected names ↔ v ∈ names := Iff.rfl

@[simp] theorem connected_nat (n : Nat) : (nat n).Connected names := trivial

@[simp] theorem connected_flag (b : Bool) : (flag b).Connected names := trivial

@[simp] theorem connected_add {v : String} {n : Nat} :
    (add (name v) (nat n)).Connected names ↔ v ∈ names := Iff.rfl

theorem Connected.cases {e : Expr} (h : e.Connected names) :
    (∃ v ∈ names, e = name v ∨ ∃ n, e = add (name v) (nat n)) ∨ (∃ n, e = nat n) ∨ ∃ b, e = flag b := by
  cases e with
  | name v => exact Or.inl ⟨v, h, Or.inl rfl⟩
  | nat n => exact Or.inr (Or.inl ⟨n, rfl⟩)
  | flag b => exact Or.inr (Or.inr ⟨b, rfl⟩)
  | add a b =>
    cases a with
    | name v =>
      cases b with
      | nat n => exact Or.inl ⟨v, h, Or.inr ⟨n, rfl⟩⟩
      | _ => exact absurd h (by simp [Connected])
    | _ => exact absurd h (by simp [Connected])
  | _ => exact absurd h (by simp [Connected])

/-- Such actuals are read as they are written. -/
theorem Connected.wired (hnames : Vocabulary names) {e : Expr} (h : e.Connected names) :
    e.Wired ∧ e.shown = e := by
  obtain ⟨v, hv, rfl | ⟨n, rfl⟩⟩ | ⟨n, rfl⟩ | ⟨b, rfl⟩ := h.cases
  · exact ⟨(hnames v hv).1, ofWord_name (hnames v hv).1 (hnames v hv).2⟩
  · exact ⟨(hnames v hv).1, rfl⟩
  · exact ⟨trivial, rfl⟩
  · exact ⟨trivial, rfl⟩

theorem Connected.mem_of_mem_signals {e : Expr} (h : e.Connected names) {v : String}
    (hv : v ∈ e.signals) : v ∈ names := by
  obtain ⟨w, hw, rfl | ⟨n, rfl⟩⟩ | ⟨n, rfl⟩ | ⟨b, rfl⟩ := h.cases
  · exact List.mem_singleton.1 hv ▸ hw
  · exact List.mem_singleton.1 hv ▸ hw
  · cases hv
  · cases hv

end Expr

namespace Association

/-- Items over the given names. -/
def Connected (names : List String) (a : Association) : Prop :=
  (∀ f ∈ a.formal, IsName f) ∧ a.actual.Connected names

variable {f : String} {e : Expr}

@[simp] theorem connected_first :
    (first f e).Connected names ↔ IsName f ∧ e.Connected names := by
  simp [Connected, first]

@[simp] theorem connected_next :
    (next f e).Connected names ↔ IsName f ∧ e.Connected names := by
  simp [Connected, next]

@[simp] theorem connected_line {tabs : Nat} :
    (line tabs f e).Connected names ↔ IsName f ∧ e.Connected names := by
  simp [Connected, line]

@[simp] theorem connected_positional {gap : Gap} :
    (positional gap e).Connected names ↔ e.Connected names := by
  simp [Connected, positional]

theorem Connected.wired (hnames : Vocabulary names) {a : Association} (h : a.Connected names) :
    a.Wired ∧ a.bare.actual = a.actual := by
  obtain ⟨hwired, hshown⟩ := h.2.wired hnames
  exact ⟨⟨h.1, hwired⟩, hshown⟩

end Association

/-- Instances over the given names, scales aside. -/
structure Instance.Connected (names : List String) (i : Instance) : Prop where
  generics : ∀ a ∈ i.generics, a.Connected names ∨ a.isScale ∧ a.actual.Wired
  ports : ∀ a ∈ i.ports, a.Connected names
  ports_ne_nil : i.ports ≠ []

namespace Instance.Connected
variable {i : Instance} (hnames : Vocabulary names) (h : i.Connected names)
include hnames h

theorem wired : i.Wired where
  generics a ha := by
    obtain hconnected | ⟨hscale, hwired⟩ := h.generics a ha
    · exact (hconnected.wired hnames).1
    · refine ⟨fun f hf => ?_, hwired⟩
      have hformal : a.formal = some "scale" := beq_iff_eq.1 hscale
      rw [hformal] at hf
      cases hf
      decide
  ports a ha := ((h.ports a ha).wired hnames).1
  ports_ne_nil := h.ports_ne_nil

/-- Reading changes no actual but a scale. -/
theorem actual_bare :
    (∀ a ∈ i.generics.filter (!·.isScale), a.bare.actual = a.actual) ∧
      ∀ a ∈ i.ports, a.bare.actual = a.actual := by
  refine ⟨fun a ha => ?_, fun a ha => ((h.ports a ha).wired hnames).2⟩
  obtain ⟨hmem, hscale⟩ := List.mem_filter.1 ha
  obtain hconnected | ⟨hscale', -⟩ := h.generics a hmem
  · exact (hconnected.wired hnames).2
  · rw [hscale'] at hscale
    cases hscale

end Instance.Connected

namespace Statement

/-- Statements over the given names. -/
def Connected (names : List String) : Statement → Prop
  | instantiate i => i.Connected names
  | s => ∀ v ∈ s.references, v ∈ names

theorem connected_blank : blank.Connected names :=
  fun _ hv => nomatch hv

theorem connected_assign {target : String} {value : Expr} (htarget : target ∈ names)
    (hvalue : ∀ v ∈ value.signals, v ∈ names) : (assign target value).Connected names :=
  List.forall_mem_cons.2 ⟨htarget, hvalue⟩

section Reading
variable {st : Statement} (h : st.Connected names)
include h

theorem Connected.mem_of_mem_references {v : String} (hv : v ∈ st.references) : v ∈ names := by
  cases st with
  | instantiate i =>
    obtain ⟨a, ha, hsignal⟩ := List.mem_flatMap.1 hv
    rcases List.mem_append.1 ha with hgeneric | hport
    · obtain ⟨hmem, hscale⟩ := List.mem_filter.1 hgeneric
      obtain hconnected | ⟨hscale', -⟩ := h.generics a hmem
      · exact hconnected.2.mem_of_mem_signals hsignal
      · rw [hscale'] at hscale
        cases hscale
    · exact (h.ports a hport).2.mem_of_mem_signals hsignal
  | _ => exact h v hv

variable (hnames : Vocabulary names)
include hnames

theorem Connected.wired : st.Wired := by
  cases st with
  | instantiate i => exact Instance.Connected.wired hnames h
  | _ => trivial

theorem Connected.references_bare : st.bare.references = st.references := by
  cases st with
  | instantiate i =>
    obtain ⟨hgeneric, hport⟩ := Instance.Connected.actual_bare hnames h
    have hfilter : (i.generics.map Association.bare).filter (!·.isScale) =
        (i.generics.filter (!·.isScale)).map Association.bare := List.filter_map ..
    change ((i.generics.map Association.bare).filter (!·.isScale) ++
      i.ports.map Association.bare).flatMap _ = _
    rw [hfilter, ← List.map_append, List.flatMap_map]
    apply List.flatMap_congr
    intro a ha
    rw [(List.mem_append.1 ha).elim (hgeneric a) (hport a)]
  | _ => rfl

theorem Connected.terminals_bare (v : String) : st.bare.terminals v = st.terminals v := by
  cases st with
  | instantiate i =>
    have hport := (Instance.Connected.actual_bare hnames h).2
    change ((i.ports.map Association.bare).filter fun p => p.actual.signals.contains v).map _ = _
    rw [List.filter_map, List.map_map]
    congr 1
    exact List.filter_congr fun a ha => by rw [Function.comp, hport a ha]
  | _ => rfl

end Reading

section Lists
variable {ss : List Statement}

theorem filterMap_target?_shown (ss : List Statement) :
    (ss.filterMap shown?).filterMap target? = ss.filterMap target? := by
  rw [List.filterMap_filterMap]
  congr 1
  funext st
  cases st <;> rfl

variable (hnames : Vocabulary names) (hss : ∀ st ∈ ss, st.Connected names)
include hnames hss

/-- Reading changes no connection. -/
theorem flatMap_terminals_shown (v : String) :
    (ss.filterMap shown?).flatMap (terminals v) = ss.flatMap (terminals v) := by
  induction ss with
  | nil => rfl
  | cons st ss ih =>
    obtain ⟨hst, hss⟩ := List.forall_mem_cons.1 hss
    rw [List.flatMap_cons, ← ih hss, ← hst.terminals_bare hnames]
    cases st <;> rfl

/-- What is read of connected statements is closed, if no name is declared twice and no signal assigned
twice. -/
theorem closed_shown (hdistinct : (names.map String.toLower).Nodup)
    (htargets : (ss.filterMap target?).Nodup) : Closed names (ss.filterMap shown?) where
  distinct := hdistinct
  references st hst v hv := by
    obtain ⟨st', hst', hshown⟩ := List.mem_filterMap.1 hst
    have hconnected := hss st' hst'
    have hbare : st = st'.bare := by
      cases st' with
      | blank => cases hshown
      | _ => exact (Option.some.inj hshown).symm
    rw [hbare, hconnected.references_bare hnames] at hv
    exact hconnected.mem_of_mem_references hv
  targets := by
    have hmem : ∀ v ∈ ss.filterMap target?, v ∈ names := by
      intro v hv
      obtain ⟨st, hst, htarget⟩ := List.mem_filterMap.1 hv
      refine (hss st hst).mem_of_mem_references ?_
      cases st <;> cases htarget <;> simp [references, signals]
    -- the targets are declared, and declared names differ without case as soon as they differ
    rw [filterMap_target?_shown]
    refine htargets.map_on fun u hu v hv heq => ?_
    exact List.inj_on_of_nodup_map hdistinct (hmem u hu) (hmem v hv) heq

end Lists

end Statement

end StreamingFft.Vhdl
