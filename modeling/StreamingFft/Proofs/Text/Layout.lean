import Mathlib.Data.List.Basic
import StreamingFft.Text.Layout
/-!
Numbers, quoted texts and lists of numbers stand at the front of a text in one way only, whatever
follows them, and indentation goes through a text line by line.
-/
namespace StreamingFft.Text

section Runs
variable {a b r s : List Char}

/-- A run of characters of one class ends where the class ends. -/
theorem run_append_inj {p : Char → Bool} (ha : ∀ c ∈ a, p c = true) (hb : ∀ c ∈ b, p c = true)
    (hr : r.head?.any p = false) (hs : s.head?.any p = false) (h : a ++ r = b ++ s) :
    a = b ∧ r = s := by
  have hnil : ∀ {t : List Char}, t.head?.any p = false → t.takeWhile p = [] := by
    intro t ht
    cases t with
    | nil => rfl
    | cons c t => exact List.takeWhile_cons_of_neg (Bool.eq_false_iff.1 ht)
  have hab := congrArg (List.takeWhile p) h
  rw [List.takeWhile_append_of_pos ha, List.takeWhile_append_of_pos hb, hnil hr, hnil hs,
    List.append_nil, List.append_nil] at hab
  subst hab
  exact ⟨rfl, List.append_cancel_left h⟩

theorem toDigits_append_inj {m n : Nat} (hr : r.head?.any Char.isDigit = false)
    (hs : s.head?.any Char.isDigit = false)
    (h : Nat.toDigits 10 m ++ r = Nat.toDigits 10 n ++ s) : m = n ∧ r = s := by
  have hdigits : ∀ k, ∀ c ∈ Nat.toDigits 10 k, c.isDigit = true :=
    fun k c hc => Nat.isDigit_of_mem_toDigits (by decide) (by decide) hc
  obtain ⟨hmn, hrs⟩ := run_append_inj (hdigits m) (hdigits n) hr hs h
  have hvalue := congrArg (Nat.ofDigitChars 10 · 0) hmn
  simp only [Nat.ofDigitChars_ten_toDigits] at hvalue
  exact ⟨hvalue, hrs⟩

theorem toDigits_append_ne_cons {c : Char} (hc : c.isDigit = false) {n : Nat} :
    Nat.toDigits 10 n ++ r ≠ c :: s := by
  obtain ⟨d, ds, hd⟩ := List.exists_cons_of_ne_nil (Nat.toDigits_ne_nil (b := 10) (n := n))
  have hmem : d ∈ Nat.toDigits 10 n := hd ▸ List.mem_cons_self
  have hdigit : d.isDigit = true := Nat.isDigit_of_mem_toDigits (by decide) (by decide) hmem
  rw [hd, List.cons_append, ne_eq, List.cons.injEq]
  rintro ⟨rfl, -⟩
  exact absurd (hdigit.symm.trans hc) (by decide)

/-- Text ends at the first character that it does not contain. -/
theorem append_cons_inj {stop : Char} (ha : stop ∉ a) (hb : stop ∉ b)
    (h : a ++ stop :: r = b ++ stop :: s) : a = b ∧ r = s := by
  have hne : ∀ {t : List Char}, stop ∉ t → ∀ c ∈ t, (c != stop) = true :=
    fun ht c hc => bne_iff_ne.2 fun heq => ht (heq ▸ hc)
  have hstop : ∀ t : List Char, (stop :: t).head?.any (· != stop) = false :=
    fun _ => bne_self_eq_false stop
  obtain ⟨hab, hrs⟩ := run_append_inj (hne ha) (hne hb) (hstop r) (hstop s) h
  exact ⟨hab, List.tail_eq_of_cons_eq hrs⟩

end Runs

section Lists
variable {ms ns : List Nat} {r s : List Char}

/-- Each number behind a comma and a blank. -/
def continued (ns : List Nat) : List Char :=
  ns.flatMap fun n => ',' :: ' ' :: Nat.toDigits 10 n

theorem toList_intercalate_cons (n : Nat) (ns : List Nat) :
    (", ".intercalate ((n :: ns).map toString)).toList = Nat.toDigits 10 n ++ continued ns := by
  induction ns generalizing n with
  | nil =>
    rw [List.map_singleton, String.intercalate_singleton, continued, List.flatMap_nil,
      List.append_nil]
    exact Nat.toList_repr
  | cons m ns ih =>
    rw [List.map_cons, List.map_cons, String.intercalate_cons_cons, ← List.map_cons,
      String.toList_append, String.toList_append, ih, continued, continued, List.flatMap_cons,
      List.append_assoc]
    exact congrArg (· ++ _) Nat.toList_repr

theorem head_continued (ns : List Nat) (r : List Char) :
    (continued ns ++ ']' :: r).head?.any Char.isDigit = false := by
  cases ns with
  | nil => rfl
  | cons n ns => rfl

theorem continued_append_inj (h : continued ms ++ ']' :: r = continued ns ++ ']' :: s) :
    ms = ns ∧ r = s := by
  induction ms generalizing ns with
  | nil =>
    cases ns with
    | nil => exact ⟨rfl, List.tail_eq_of_cons_eq h⟩
    | cons n ns => exact absurd (List.head_eq_of_cons_eq h) (by decide)
  | cons m ms ih =>
    cases ns with
    | nil => exact absurd (List.head_eq_of_cons_eq h) (by decide)
    | cons n ns =>
      simp only [continued, List.flatMap_cons, List.cons_append, List.append_assoc,
        List.cons.injEq, true_and] at h
      obtain ⟨rfl, hrest⟩ := toDigits_append_inj (head_continued ms r) (head_continued ns s) h
      obtain ⟨rfl, hrs⟩ := ih hrest
      exact ⟨rfl, hrs⟩

theorem toList_natList (ns : List Nat) :
    (natList ns).toList = '[' :: ((", ".intercalate (ns.map toString)).toList ++ [']']) := by
  rw [natList, bracketed, String.toList_append, String.toList_append]
  rfl

theorem natList_append_inj (h : (natList ms).toList ++ r = (natList ns).toList ++ s) :
    ms = ns ∧ r = s := by
  rw [toList_natList, toList_natList, List.cons_append, List.cons_append, List.append_assoc,
    List.append_assoc, List.cons.injEq] at h
  replace h := h.2
  cases ms with
  | nil =>
    cases ns with
    | nil => exact ⟨rfl, List.tail_eq_of_cons_eq h⟩
    | cons n ns =>
      rw [toList_intercalate_cons, List.append_assoc] at h
      exact absurd h.symm (toDigits_append_ne_cons (by decide))
  | cons m ms =>
    cases ns with
    | nil =>
      rw [toList_intercalate_cons, List.append_assoc] at h
      exact absurd h (toDigits_append_ne_cons (by decide))
    | cons n ns =>
      rw [toList_intercalate_cons, toList_intercalate_cons, List.append_assoc, List.append_assoc] at h
      obtain ⟨rfl, hrest⟩ := toDigits_append_inj (head_continued ms r) (head_continued ns s) h
      obtain ⟨rfl, hrs⟩ := continued_append_inj hrest
      exact ⟨rfl, hrs⟩

end Lists

section Indentation
variable (tabs : List Char)

theorem indentChars_append {a : List Char} (h : '\n' ∉ a) (b : List Char) :
    indentChars tabs false (a ++ b) = a ++ indentChars tabs false b := by
  induction a with
  | nil => rfl
  | cons c a ih =>
    rw [List.mem_cons, not_or] at h
    rw [List.cons_append, indentChars, if_neg (Ne.symm h.1), if_neg Bool.false_ne_true, ih h.2,
      List.cons_append]

theorem indentChars_newline (fresh : Bool) (b : List Char) :
    indentChars tabs fresh ('\n' :: b) = '\n' :: indentChars tabs true b := by
  rw [indentChars, if_pos rfl]

/-- A line that is not empty gets its tabs. -/
theorem indentChars_fresh {cs : List Char} {c : Char} (hhead : cs.head? = some c) (hc : c ≠ '\n') :
    indentChars tabs true cs = tabs ++ indentChars tabs false cs := by
  cases cs with
  | nil => cases hhead
  | cons d cs =>
    cases hhead
    rw [indentChars, if_neg hc, if_pos rfl, indentChars, if_neg hc, if_neg Bool.false_ne_true]

end Indentation

end StreamingFft.Text
