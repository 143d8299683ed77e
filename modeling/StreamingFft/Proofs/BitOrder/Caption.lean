import StreamingFft.BitOrder.Basic
import StreamingFft.Proofs.Text.Layout
/-!
What the caption of an order tells: whether the order is natural, whether it is the reversal and not
natural too, and otherwise all its entries. So each of the orders of one size has a caption of its own.
-/
namespace StreamingFft.BitOrder
open Text
variable {o p : BitOrder}

theorem text_injective : Function.Injective text := by
  intro o p h
  have hchars : o.text.toList ++ [] = p.text.toList ++ [] := by rw [h]
  exact BitOrder.ext (natList_append_inj hchars).1

/-- What a caption starts with. The three kinds of captions differ here already. -/
def initial (o : BitOrder) : Char :=
  if o = natural o.size then 'n' else if o = reversed o.size then 'b' else '['

theorem initial_eq_n_iff : o.initial = 'n' ↔ o = natural o.size := by
  unfold initial
  split
  · next h => exact iff_of_true rfl h
  · next h =>
    refine iff_of_false ?_ h
    split <;> decide

theorem initial_eq_b_iff : o.initial = 'b' ↔ o = reversed o.size ∧ o ≠ natural o.size := by
  unfold initial
  split
  · next h => exact iff_of_false (by decide) fun hb => hb.2 h
  · next hne =>
    split
    · next h => exact iff_of_true rfl ⟨h, hne⟩
    · next h => exact iff_of_false (by decide) fun hb => h hb.1

theorem caption_of_natural (h : o = natural o.size) : o.caption = "natural" :=
  if_pos (isNatural_iff.2 h)

theorem caption_of_reversed (h : o = reversed o.size) (hne : o ≠ natural o.size) :
    o.caption = "bit-reversed " ++ o.text := by
  rw [caption, if_neg (mt isNatural_iff.1 hne), if_pos h]
  rfl

theorem caption_of_ne (hne : o ≠ natural o.size) (h : o ≠ reversed o.size) : o.caption = o.text := by
  rw [caption, if_neg (mt isNatural_iff.1 hne), if_neg h]

theorem head_caption (o : BitOrder) : o.caption.toList.head? = some o.initial := by
  unfold initial
  split
  · next h =>
    rw [caption_of_natural h]
    decide
  · next hne =>
    split
    · next h =>
      have hstart : ("bit-reversed ".toList).head? = some 'b' := by decide
      rw [caption_of_reversed h hne, String.toList_append, List.head?_append, hstart]
      rfl
    · next h =>
      rw [caption_of_ne hne h, text, toList_natList]
      rfl

theorem initial_eq_of_head {c : Char} (h : o.caption.toList.head? = some c) : o.initial = c :=
  Option.some.inj (o.head_caption.symm.trans h)

theorem caption_eq_natural_iff : o.caption = "natural" ↔ o = natural o.size := by
  refine ⟨fun h => initial_eq_n_iff.1 (initial_eq_of_head ?_), caption_of_natural⟩
  rw [h]
  decide

theorem prefix_caption_iff :
    "bit-reversed".toList <+: o.caption.toList ↔ o = reversed o.size ∧ o ≠ natural o.size := by
  constructor
  · rintro ⟨rest, h⟩
    refine initial_eq_b_iff.1 (initial_eq_of_head ?_)
    rw [← h, List.head?_append]
    rfl
  · rintro ⟨h, hne⟩
    have hblank : "bit-reversed ".toList = "bit-reversed".toList ++ [' '] := by decide
    rw [caption_of_reversed h hne, String.toList_append, hblank, List.append_assoc]
    exact List.prefix_append _ _

/-- The orders of one size have different captions. -/
theorem caption_inj (hsize : o.size = p.size) : o.caption = p.caption ↔ o = p := by
  refine ⟨fun h => ?_, congrArg caption⟩
  have hinitial : o.initial = p.initial := initial_eq_of_head (h ▸ p.head_caption)
  have hnat : o = natural o.size ↔ p = natural p.size := by
    rw [← initial_eq_n_iff, hinitial, initial_eq_n_iff]
  have hrev : o = reversed o.size ∧ o ≠ natural o.size ↔ p = reversed p.size ∧ p ≠ natural p.size := by
    rw [← initial_eq_b_iff, hinitial, initial_eq_b_iff]
  by_cases hn : o = natural o.size
  · exact hn.trans (hsize ▸ (hnat.1 hn).symm)
  · by_cases hr : o = reversed o.size
    · exact hr.trans (hsize ▸ (hrev.1 ⟨hr, hn⟩).1.symm)
    · have hpn : p ≠ natural p.size := mt hnat.2 hn
      have hpr : p ≠ reversed p.size := fun hp => hr (hrev.2 ⟨hp, hpn⟩).1
      -- what a caption starts with tells the named orders; the others are told by their entries
      rw [caption_of_ne hn hr, caption_of_ne hpn hpr] at h
      exact text_injective h

end StreamingFft.BitOrder
