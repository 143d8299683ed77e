import Mathlib.Data.List.Basic
import StreamingFft.Numeric.Power
/-!
The code of a text and its comments. A comment goes from two hyphens to the end of its line, and the
line end belongs to the code again, so that a text may be cut behind every line.
-/
namespace StreamingFft.Vhdl

/-- Code and comments; `inside` holds the comment so far, its last character first. -/
def part : (inside : Option (List Char)) → List Char → List Char × List String
  | none, [] => ([], [])
  | some cs, [] => ([], [String.ofList cs.reverse])
  | none, c :: rest =>
    if c = '-' ∧ rest.head? = some '-' then part (some [c]) rest
    else (c :: (part none rest).1, (part none rest).2)
  | some cs, c :: rest =>
    if c = '\n' then (c :: (part none rest).1, String.ofList cs.reverse :: (part none rest).2)
    else part (some (c :: cs)) rest

def code (text : String) : String := String.ofList (part none text.toList).1

def comments (text : String) : List String := (part none text.toList).2

example : code "a;--b\n--\nc-1;" = "a;\n\nc-1;" ∧ comments "a;--b\n--\nc-1;" = ["--b", "--"] := by
  decide

/-- Wherever the text stands in code, it adds this code and these comments. -/
structure Parts (text kept : String) (cs : List String) : Prop where
  eq : ∀ rest, part none (text.toList ++ rest) =
    (kept.toList ++ (part none rest).1, cs ++ (part none rest).2)

/-- No two hyphens stand together, and none at the end. -/
def apart : List Char → Bool
  | [] => true
  | [c] => c != '-'
  | c :: d :: cs => (c != '-' || d != '-') && apart (d :: cs)

theorem apart_of_notMem {cs : List Char} (h : '-' ∉ cs) : apart cs = true := by
  induction cs using apart.induct with
  | case1 => rfl
  | case2 c =>
    have hc : c ≠ '-' := fun hc => h (hc ▸ List.mem_singleton_self c)
    exact bne_iff_ne.2 hc
  | case3 c d cs ih =>
    rw [List.mem_cons, not_or] at h
    have hc : c ≠ '-' := fun hc => h.1 hc.symm
    simp [apart, ih h.2, hc]

namespace Parts
variable {a b ka kb : String} {xs ys : List String}

theorem code_eq (h : Parts a ka xs) : code a = ka := by
  have heq := h.eq []
  rw [List.append_nil] at heq
  rw [code, heq, part, List.append_nil, String.ofList_toList]

theorem comments_eq (h : Parts a ka xs) : comments a = xs := by
  have heq := h.eq []
  rw [List.append_nil] at heq
  rw [comments, heq]
  exact List.append_nil xs

theorem append (ha : Parts a ka xs) (hb : Parts b kb ys) : Parts (a ++ b) (ka ++ kb) (xs ++ ys) := by
  constructor
  intro rest
  rw [String.toList_append, List.append_assoc, ha.eq, hb.eq, String.toList_append, List.append_assoc,
    List.append_assoc]

theorem of_apart (h : apart a.toList = true) : Parts a a [] := by
  constructor
  intro rest
  generalize a.toList = cs at h
  induction cs using apart.induct with
  | case1 => rfl
  | case2 c =>
    have hc : c ≠ '-' := by simpa [apart] using h
    rw [List.singleton_append, part, if_neg fun hh => hc hh.1]
    rfl
  | case3 c d cs ih =>
    rw [apart, Bool.and_eq_true, Bool.or_eq_true, bne_iff_ne, bne_iff_ne] at h
    have hpair : ¬(c = '-' ∧ (d :: cs ++ rest).head? = some '-') := by
      rintro ⟨hc, hd⟩
      exact h.1.elim (fun hne => hne hc) (fun hne => hne (Option.some.inj hd))
    rw [List.cons_append, part, if_neg hpair, ih h.2]
    rfl

theorem of_notMem (h : '-' ∉ a.toList) : Parts a a [] := of_apart (apart_of_notMem h)

theorem part_line {cs : List Char} (h : '\n' ∉ cs) (inside rest : List Char) :
    part (some inside) (cs ++ '\n' :: rest) =
      ('\n' :: (part none rest).1, String.ofList (inside.reverse ++ cs) :: (part none rest).2) := by
  induction cs generalizing inside with
  | nil => rw [List.nil_append, part, if_pos rfl, List.append_nil]
  | cons c cs ih =>
    rw [List.mem_cons, not_or] at h
    rw [List.cons_append, part, if_neg fun hc => h.1 hc.symm, ih h.2, List.reverse_cons,
      List.append_assoc]
    rfl

/-- A line that is a comment from its start. -/
theorem comment (h : '\n' ∉ a.toList) : Parts ("--" ++ a ++ "\n") "\n" ["--" ++ a] := by
  constructor
  intro rest
  have htext : ("--" ++ a ++ "\n").toList ++ rest = '-' :: '-' :: (a.toList ++ '\n' :: rest) := by
    rw [String.toList_append, String.toList_append, List.append_assoc, List.append_assoc]
    rfl
  have hlabel : String.ofList ('-' :: '-' :: a.toList) = "--" ++ a := by
    rw [← String.toList_inj, String.toList_ofList, String.toList_append]
    rfl
  rw [htext, part, if_pos ⟨rfl, rfl⟩, part, if_neg (by decide), part_line h]
  change (_, String.ofList ('-' :: '-' :: a.toList) :: _) = _
  rw [hlabel]
  rfl

end Parts
end StreamingFft.Vhdl
