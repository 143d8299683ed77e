import StreamingFft.Proofs.Vhdl.Token
/-!
Labels, types and comments are found by their colons. A reader looks at each colon of a text, with the
tokens in front of it and those behind it. Where a piece of text holds all that the reader looks at
around its colons, it brings the same finds into any text.
-/
namespace StreamingFft.Vhdl
open Token

variable {α : Type*}

/-- What `read` finds around the colons; it sees the tokens in front of a colon from the nearest on. -/
def readColons (read : List Token → List Token → Option α) (before : List Token) :
    List Token → List α
  | [] => []
  | t :: ts =>
    (if t = .mark ':' then read before ts else none).toList ++ readColons read (t :: before) ts

variable {read : List Token → List Token → Option α}

theorem readColons_append {as : List Token} (h : .mark ':' ∉ as) (before ts : List Token) :
    readColons read before (as ++ ts) = readColons read (as.reverse ++ before) ts := by
  induction as generalizing before with
  | nil => rfl
  | cons a as ih =>
    rw [List.mem_cons, not_or] at h
    rw [List.cons_append, readColons, if_neg fun ha => h.1 ha.symm, ih h.2, List.reverse_cons,
      List.append_assoc]
    rfl

/-- No colon stands at the end or in front of a key. -/
def quiet (keys : List Token) : List Token → Bool
  | [] => true
  | [t] => t != .mark ':'
  | t :: t' :: ts => (t != .mark ':' || !keys.contains t') && quiet keys (t' :: ts)

/-- A reader that finds nothing but in front of its keys finds nothing in quiet text. -/
theorem readColons_of_quiet {keys : List Token}
    (hkeys : ∀ before t ts, t ∉ keys → read before (t :: ts) = none) {as : List Token}
    (h : quiet keys as = true) (before ts : List Token) :
    readColons read before (as ++ ts) = readColons read (as.reverse ++ before) ts := by
  induction as using quiet.induct generalizing before with
  | case1 => rfl
  | case2 t =>
    have ht : t ≠ .mark ':' := bne_iff_ne.1 h
    exact readColons_append (List.mem_singleton.not.2 ht.symm) before ts
  | case3 t t' as ih =>
    rw [quiet, Bool.and_eq_true, Bool.or_eq_true, bne_iff_ne, Bool.not_eq_true',
      ← Bool.not_eq_true, List.contains_iff_mem] at h
    have hnone : (if t = .mark ':' then read before (t' :: as ++ ts) else none) = none := by
      split
      · next ht => exact hkeys before t' (as ++ ts) (h.1.resolve_left fun hne => hne ht)
      · rfl
    rw [List.cons_append, readColons, hnone, ih h.2, List.reverse_cons (a := t), List.append_assoc]
    rfl

/-- Wherever the text stands, it brings these finds. -/
structure Brings (read : List Token → List Token → Option α) (text : String) (xs : List α) : Prop where
  eq : ∀ before ts, readColons read before (scan text.toList ++ ts) =
    xs ++ readColons read ((scan text.toList).reverse ++ before) ts

namespace Brings
variable {a b sep : String} {xs ys : List α}

theorem readColons_eq (h : Brings read a xs) : readColons read [] (scan a.toList) = xs := by
  have heq := h.eq [] []
  rwa [List.append_nil, readColons, List.append_nil] at heq

theorem append (ha : Brings read a xs) (hb : Brings read b ys)
    (hcut : endsInWord a.toList = false ∨ startsInWord b.toList = false) :
    Brings read (a ++ b) (xs ++ ys) := by
  constructor
  intro before ts
  rw [String.toList_append, scan_append hcut, List.append_assoc, ha.eq, hb.eq, List.reverse_append,
    List.append_assoc, List.append_assoc]

theorem of_notMem (h : .mark ':' ∉ scan a.toList) : Brings read a [] :=
  ⟨readColons_append h⟩

theorem of_plain (h : Plain a) : Brings read a [] :=
  of_notMem (h.mark_notMem (by decide))

theorem of_quiet {keys : List Token}
    (hkeys : ∀ before t ts, t ∉ keys → read before (t :: ts) = none)
    (h : quiet keys (scan a.toList) = true) : Brings read a [] :=
  ⟨readColons_of_quiet hkeys h⟩

theorem nil : Brings read "" [] := of_notMem (by decide)

theorem indent (h : Brings read a xs) (levels : Nat) : Brings read (Text.indent levels a) xs := by
  constructor
  rw [scan_indent]
  exact h.eq

/-- Text between which a separator stands that no colon is in. -/
theorem around (ha : Brings read a xs) (hb : Brings read b ys) (hsep : IsSeparator sep.toList)
    (hcolon : .mark ':' ∉ scan sep.toList) : Brings read (a ++ sep ++ b) (xs ++ ys) := by
  have hleft := ha.append (of_notMem hcolon) (Or.inr hsep.start)
  rw [List.append_nil] at hleft
  apply hleft.append hb
  rw [String.toList_append]
  exact Or.inl ((endsInWord_append hsep.ne_nil).trans hsep.stop)

/-- Text around a colon, and what is found there whatever stands farther away. -/
theorem colon {found : Option α} (ha : .mark ':' ∉ scan a.toList) (hb : Brings read b ys)
    (hfound : ∀ before ts,
      read ((scan a.toList).reverse ++ before) (scan b.toList ++ ts) = found)
    (hsep : IsSeparator sep.toList) (hmark : scan sep.toList = [.mark ':']) :
    Brings read (a ++ sep ++ b) (found.toList ++ ys) := by
  have htext : scan (a ++ sep ++ b).toList = scan a.toList ++ .mark ':' :: scan b.toList := by
    rw [String.toList_append, String.toList_append, scan_around _ _ hsep, hmark, List.append_assoc]
    rfl
  constructor
  intro before ts
  rw [htext, List.append_assoc, readColons_append ha, List.cons_append, readColons, if_pos rfl,
    hfound, hb.eq, List.append_assoc, List.reverse_append, List.reverse_cons]
  simp only [List.append_assoc, List.cons_append, List.nil_append]

/-- A colon at which the reader finds nothing because of the token behind it. -/
theorem skip (ha : .mark ':' ∉ scan a.toList) (hb : Brings read b ys)
    (hnone : ∃ t ∈ (scan b.toList).head?, ∀ before ts, read before (t :: ts) = none)
    (hsep : IsSeparator sep.toList) (hmark : scan sep.toList = [.mark ':']) :
    Brings read (a ++ sep ++ b) ys := by
  obtain ⟨t, hhead, ht⟩ := hnone
  obtain ⟨us, hscan⟩ := List.head?_eq_some_iff.1 hhead
  have hfound : ∀ before ts,
      read ((scan a.toList).reverse ++ before) (scan b.toList ++ ts) = none := by
    intro before ts
    rw [hscan]
    exact ht _ _
  exact .colon ha hb hfound hsep hmark

theorem intercalate (hsep : IsSeparator sep.toList) (hcolon : .mark ':' ∉ scan sep.toList)
    {ss : List String} (h : ∀ s ∈ ss, Brings read s []) : Brings read (sep.intercalate ss) [] := by
  induction ss with
  | nil => exact nil
  | cons s ss ih =>
    rw [List.forall_mem_cons] at h
    cases ss with
    | nil =>
      rw [String.intercalate_singleton]
      exact h.1
    | cons r ss =>
      rw [String.intercalate_cons_cons]
      exact h.1.around (ih h.2) hsep hcolon

end Brings

/-- Text that brings these finds and ends outside a word, so that any text may follow it. -/
structure Lines (read : List Token → List Token → Option α) (text : String) (xs : List α) : Prop
    extends Brings read text xs where
  stop : endsInWord text.toList = false

namespace Lines
variable {a b sep : String} {xs ys : List α}

theorem append (ha : Lines read a xs) (hb : Lines read b ys) : Lines read (a ++ b) (xs ++ ys) where
  toBrings := ha.toBrings.append hb.toBrings (Or.inl ha.stop)
  stop := by
    rw [String.toList_append]
    by_cases hne : b.toList = []
    · rw [hne, List.append_nil]
      exact ha.stop
    · rw [endsInWord_append hne]
      exact hb.stop

/-- Text without colons. A literal is unified with it, so that its characters are there for
evaluation. -/
theorem of_chars {cs : List Char} (hcolon : ':' ∉ cs) (hstop : endsInWord cs = false) :
    Lines read (String.ofList cs) [] where
  toBrings := by
    apply Brings.of_notMem
    rw [String.toList_ofList]
    exact fun h => hcolon (mem_of_mark_mem_scan h)
  stop := by rwa [String.toList_ofList]

theorem of_separator (hsep : IsSeparator sep.toList) (hcolon : .mark ':' ∉ scan sep.toList) :
    Lines read sep [] :=
  ⟨.of_notMem hcolon, hsep.stop⟩

/-- What stands in front of a separator ends there. -/
theorem of_brings (ha : Brings read a xs) (hsep : IsSeparator sep.toList)
    (hcolon : .mark ':' ∉ scan sep.toList) : Lines read (a ++ sep) xs where
  toBrings := by
    have h := ha.append (of_separator hsep hcolon).toBrings (Or.inr hsep.start)
    rwa [List.append_nil] at h
  stop := by
    rw [String.toList_append, endsInWord_append hsep.ne_nil]
    exact hsep.stop

theorem nil : Lines read "" [] := ⟨.nil, rfl⟩

theorem join {β : Type*} {text : β → String} {found : β → List α} {l : List β}
    (h : ∀ x ∈ l, Lines read (text x) (found x)) :
    Lines read (String.join (l.map text)) (l.flatMap found) := by
  induction l with
  | nil => exact nil
  | cons x l ih =>
    rw [List.forall_mem_cons] at h
    rw [List.map_cons, String.join_cons, List.flatMap_cons]
    exact h.1.append (ih h.2)

theorem indent (h : Lines read a xs) (levels : Nat) : Lines read (Text.indent levels a) xs where
  toBrings := h.toBrings.indent levels
  stop := by
    rw [endsInWord_indent]
    exact h.stop

end Lines
end StreamingFft.Vhdl
