import StreamingFft.Proofs.Vhdl.Reading
/-!
Instances, as the reader of assignments sees them: clauses that are passed over, since neither a
semicolon nor the arrow of an assignment can come from their names and numbers.
-/
namespace StreamingFft.Vhdl

theorem plain_gap (g : Gap) : Plain g.text := by
  cases g with
  | none => decide
  | blank => decide
  | line tabs =>
    refine plain_append.2 ⟨by decide, ?_⟩
    intro c hc
    rw [String.toList_ofList] at hc
    rw [List.eq_of_mem_replicate hc]
    decide

namespace Expr

@[simp] theorem plain_text_name {v : String} : Plain (name v).text ↔ Plain v := Iff.rfl

@[simp] theorem plain_text_verbatim {t : String} : Plain (verbatim t).text ↔ Plain t := Iff.rfl

@[simp] theorem plain_text_nat (n : Nat) : Plain (nat n).text := plain_repr n

@[simp] theorem plain_text_flag (value : Bool) : Plain (flag value).text := by
  cases value <;> decide

@[simp] theorem plain_text_add {a b : Expr} :
    Plain (add a b).text ↔ Plain a.text ∧ Plain b.text := by
  have htext : (add a b).text = a.text ++ "+" ++ b.text := rfl
  have hplus : Plain "+" := by decide
  rw [htext, plain_append, plain_append, and_iff_left hplus]

end Expr

namespace Association

/-- The formals and actuals of a map bring nothing that the reader stops at. -/
def Harmless (a : Association) : Prop := (∀ f ∈ a.formal, Plain f) ∧ Plain a.actual.text

@[simp] theorem harmless_first {f : String} {e : Expr} :
    (first f e).Harmless ↔ Plain f ∧ Plain e.text := by
  simp [Harmless, first]

@[simp] theorem harmless_next {f : String} {e : Expr} :
    (next f e).Harmless ↔ Plain f ∧ Plain e.text := by
  simp [Harmless, next]

@[simp] theorem harmless_line {tabs : Nat} {f : String} {e : Expr} :
    (line tabs f e).Harmless ↔ Plain f ∧ Plain e.text := by
  simp [Harmless, line]

@[simp] theorem harmless_positional {gap : Gap} {e : Expr} :
    (positional gap e).Harmless ↔ Plain e.text := by
  simp [Harmless, positional]

theorem Harmless.text {a : Association} (h : a.Harmless) : Plain a.text := by
  obtain ⟨gap, formal, actual⟩ := a
  have hgap := plain_gap gap
  cases formal with
  | none => exact plain_append.2 ⟨hgap, h.2⟩
  | some f =>
    have hf : Plain f := h.1 f rfl
    exact plain_append.2 ⟨plain_append.2 ⟨plain_append.2 ⟨hgap, hf⟩, by decide⟩, h.2⟩

theorem plain_listText {as : List Association} (h : ∀ a ∈ as, a.Harmless) : Plain (listText as) := by
  apply plain_intercalate (by decide)
  intro s hs
  obtain ⟨a, ha, rfl⟩ := List.mem_map.1 hs
  exact (h a ha).text

end Association

theorem Instance.plain_genericText {i : Instance} (h : ∀ a ∈ i.generics, a.Harmless) :
    Plain i.genericText := by
  unfold genericText
  split
  · decide
  · have hgap := plain_gap i.genericGap
    have hlist := Association.plain_listText h
    exact plain_append.2 ⟨plain_append.2 ⟨plain_append.2 ⟨hgap, by decide⟩, hlist⟩, by decide⟩

/-- An instance with plain names ends in its only semicolon. -/
theorem Statement.readable_instantiate {i : Instance} (hlabel : Plain i.label)
    (hentity : Plain i.entity) (hgenerics : ∀ a ∈ i.generics, a.Harmless)
    (hports : ∀ a ∈ i.ports, a.Harmless) : (instantiate i).Readable := by
  have hgeneric := Instance.plain_genericText hgenerics
  have hlist := Association.plain_listText hports
  have hgap := plain_gap i.portGap
  refine ⟨hlabel, hentity, ?_⟩
  simp only [Instance.mapText, plain_append]
  exact ⟨⟨⟨⟨hgeneric, hgap⟩, by decide⟩, hlist⟩, by decide⟩

end StreamingFft.Vhdl
