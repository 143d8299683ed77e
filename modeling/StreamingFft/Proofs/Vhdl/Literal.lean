import StreamingFft.Proofs.Vhdl.Token
/-!
Literals stand between double quotes. Character by character, the literals of a text are found with all
that is in them; lists of them are read from words and marks.
-/
namespace StreamingFft.Vhdl
open Token

/-- The literals of a text; `inside` holds an open one so far, its last character first. -/
def quotedFrom : (inside : Option (List Char)) → List Char → List String
  | _, [] => []
  | none, c :: cs => if c = '"' then quotedFrom (some []) cs else quotedFrom none cs
  | some w, c :: cs =>
    if c = '"' then String.ofList w.reverse :: quotedFrom none cs else quotedFrom (some (c :: w)) cs

/-- All that stands between double quotes. -/
def quoted (text : String) : List String := quotedFrom none text.toList

example : quoted "a(\"01 \", \"\")" = ["01 ", ""] := by decide

/-- Wherever the text stands outside of literals, it brings these. -/
structure Quotes (text : String) (ws : List String) : Prop where
  eq : ∀ rest, quotedFrom none (text.toList ++ rest) = ws ++ quotedFrom none rest

namespace Quotes
variable {a b sep : String} {xs ys : List String}

theorem quoted_eq (h : Quotes a xs) : quoted a = xs := by
  have heq := h.eq []
  rwa [List.append_nil, quotedFrom, List.append_nil] at heq

theorem append (ha : Quotes a xs) (hb : Quotes b ys) : Quotes (a ++ b) (xs ++ ys) := by
  constructor
  intro rest
  rw [String.toList_append, List.append_assoc, ha.eq, hb.eq, List.append_assoc]

theorem nil : Quotes "" [] := ⟨fun _ => rfl⟩

theorem of_notMem (h : '"' ∉ a.toList) : Quotes a [] := by
  constructor
  intro rest
  generalize a.toList = cs at h
  induction cs with
  | nil => rfl
  | cons c cs ih =>
    rw [List.mem_cons, not_or] at h
    rw [List.cons_append, quotedFrom, if_neg fun hc => h.1 hc.symm, ih h.2]

theorem quotedFrom_append {cs : List Char} (h : '"' ∉ cs) (w rest : List Char) :
    quotedFrom (some w) (cs ++ '"' :: rest) =
      String.ofList (w.reverse ++ cs) :: quotedFrom none rest := by
  induction cs generalizing w with
  | nil => rw [List.nil_append, quotedFrom, if_pos rfl, List.append_nil]
  | cons c cs ih =>
    rw [List.mem_cons, not_or] at h
    rw [List.cons_append, quotedFrom, if_neg fun hc => h.1 hc.symm, ih h.2, List.reverse_cons,
      List.append_assoc]
    rfl

theorem literal (h : '"' ∉ a.toList) : Quotes ("\"" ++ a ++ "\"") [a] := by
  constructor
  intro rest
  have htext : ("\"" ++ a ++ "\"").toList ++ rest = '"' :: (a.toList ++ '"' :: rest) := by
    rw [String.toList_append, String.toList_append, List.append_assoc, List.append_assoc]
    rfl
  rw [htext, quotedFrom, if_pos rfl, quotedFrom_append h, List.reverse_nil, List.nil_append,
    String.ofList_toList]
  rfl

section Lists
variable {α : Type*} {text : α → String} {ws : α → List String} {l : List α}

theorem intercalate (hsep : '"' ∉ sep.toList) (h : ∀ x ∈ l, Quotes (text x) (ws x)) :
    Quotes (sep.intercalate (l.map text)) (l.flatMap ws) := by
  induction l with
  | nil =>
    rw [List.map_nil, String.intercalate_nil]
    exact nil
  | cons x l ih =>
    rw [List.forall_mem_cons] at h
    cases l with
    | nil =>
      rw [List.map_singleton, String.intercalate_singleton, List.flatMap_singleton]
      exact h.1
    | cons y l =>
      have hfirst := h.1.append (of_notMem hsep)
      rw [List.append_nil] at hfirst
      rw [List.map_cons, List.map_cons, String.intercalate_cons_cons, List.flatMap_cons]
      exact hfirst.append (ih h.2)

end Lists
end Quotes

/-- The tokens of a literal. -/
def literal (s : String) : List Token := [.mark '"', .word s.toList, .mark '"']

/-- Reads literals with single commas between them and none behind the last. -/
def readLiterals : List Token → Option (List String × List Token)
  | .mark '"' :: .word w :: .mark '"' :: .mark ',' :: ts =>
    (readLiterals ts).map fun r => (String.ofList w :: r.1, r.2)
  | .mark '"' :: .word w :: .mark '"' :: ts => some ([String.ofList w], ts)
  | _ => none

theorem scan_literal {s : String} (hne : s.toList ≠ []) (hs : s.toList.all isWordChar = true) :
    scan ("\"" ++ s ++ "\"").toList = literal s := by
  rw [String.toList_append, String.toList_append, scan_append (Or.inr (by decide)),
    scan_append (Or.inl (by decide)), scan_word hne hs]
  rfl

theorem readLiterals_last (w : String) {ts : List Token} (hts : ts.head? ≠ some (.mark ',')) :
    readLiterals (literal w ++ ts) = some ([w], ts) := by
  unfold readLiterals
  split
  · next h =>
    cases h
    exact absurd rfl hts
  · next h =>
    cases h
    rw [String.ofList_toList]
    rfl
  · next h => exact absurd rfl (h _ _)

theorem readLiterals_comma (w : String) (ts : List Token) :
    readLiterals (literal w ++ .mark ',' :: ts) =
      (readLiterals ts).map fun r => (w :: r.1, r.2) := by
  change readLiterals (.mark '"' :: .word w.toList :: .mark '"' :: .mark ',' :: ts) = _
  rw [readLiterals, String.ofList_toList]

theorem readLiterals_intercalate {ws : List String} (hne : ws ≠ []) {ts : List Token}
    (hts : ts.head? ≠ some (.mark ',')) :
    readLiterals ([.mark ','].intercalate (ws.map literal) ++ ts) = some (ws, ts) := by
  induction ws with
  | nil => exact absurd rfl hne
  | cons w ws ih =>
    cases ws with
    | nil =>
      rw [List.map_singleton, List.intercalate_singleton]
      exact readLiterals_last w hts
    | cons v ws =>
      rw [List.map_cons, List.map_cons, List.intercalate_cons_cons, ← List.map_cons, List.append_assoc,
        List.append_assoc, List.singleton_append, readLiterals_comma, ih (List.cons_ne_nil v ws)]
      rfl

end StreamingFft.Vhdl
