import Mathlib.Data.List.Nodup
import StreamingFft.TwiddleTable.Width
/-!
Which lists of widths are accepted, and that none of their order is lost.
-/
namespace StreamingFft

namespace WordWidth

theorem ofNat_eq_ok_iff {n : Nat} {w : WordWidth} : ofNat n = .ok w ↔ w.bits = n := by
  unfold ofNat
  constructor
  · intro h
    split at h
    · cases h
      rfl
    · cases h
  · rintro rfl
    rw [dif_pos ⟨w.narrowest_le, w.le_widest⟩]

theorem collect_cons (earlier : List Nat) (w : WordWidth) (widths : List Nat) :
    collect earlier (w.bits :: widths) =
      if w.bits ∈ earlier then .error (.repeatedWidth w.bits)
      else (collect (w.bits :: earlier) widths).map (w :: ·) := by
  rw [collect, ofNat_eq_ok_iff.2 rfl]
  rfl

theorem collect_eq_ok {earlier widths : List Nat} {ws : List WordWidth}
    (h : collect earlier widths = .ok ws) :
    ws.map bits = widths ∧ widths.Nodup ∧ ∀ w ∈ widths, w ∉ earlier := by
  induction widths generalizing earlier ws with
  | nil =>
    cases h
    exact ⟨rfl, List.nodup_nil, nofun⟩
  | cons n widths ih =>
    cases hn : ofNat n with
    | error e =>
      rw [collect, hn] at h
      cases h
    | ok w =>
      obtain rfl := ofNat_eq_ok_iff.1 hn
      rw [collect_cons] at h
      split at h
      · cases h
      · next hnew =>
        obtain ⟨vs, hvs, rfl⟩ := map_eq_ok_iff.1 h
        obtain ⟨hmap, hnodup, hearlier⟩ := ih hvs
        refine ⟨by rw [List.map_cons, hmap], List.nodup_cons.2 ⟨?_, hnodup⟩, ?_⟩
        · exact fun hmem => hearlier _ hmem List.mem_cons_self
        · rw [List.forall_mem_cons]
          exact ⟨hnew, fun v hv hmem => hearlier v hv (List.mem_cons_of_mem _ hmem)⟩

theorem collect_map_bits {earlier : List Nat} {ws : List WordWidth} (hnodup : (ws.map bits).Nodup)
    (hnew : ∀ w ∈ ws, w.bits ∉ earlier) : collect earlier (ws.map bits) = .ok ws := by
  induction ws generalizing earlier with
  | nil => rfl
  | cons w ws ih =>
    rw [List.map_cons, List.nodup_cons] at hnodup
    rw [List.forall_mem_cons] at hnew
    have hrest : ∀ v ∈ ws, v.bits ∉ w.bits :: earlier := by
      intro v hv hmem
      rcases List.mem_cons.1 hmem with h | h
      · exact hnodup.1 (h ▸ List.mem_map_of_mem hv)
      · exact hnew.2 v hv h
    rw [List.map_cons, collect_cons, if_neg hnew.1, ih hnodup.2 hrest]
    rfl

/-- Requests are accepted that name a width, none of them twice, and only admissible ones. -/
theorem ofList_eq_ok_iff {widths : List Nat} {ws : List WordWidth} :
    ofList widths = .ok ws ↔ ws.map bits = widths ∧ widths ≠ [] ∧ widths.Nodup := by
  unfold ofList
  constructor
  · intro h
    split at h
    · cases h
    · next hne =>
      obtain ⟨hmap, hnodup, _⟩ := collect_eq_ok h
      exact ⟨hmap, fun hnil => hne (List.isEmpty_iff.2 hnil), hnodup⟩
  · rintro ⟨rfl, hne, hnodup⟩
    rw [if_neg fun h => hne (List.isEmpty_iff.1 h)]
    exact collect_map_bits hnodup nofun

end WordWidth
end StreamingFft
