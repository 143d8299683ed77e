import StreamingFft.Proofs.TwiddleTable.Decoding
import StreamingFft.Proofs.TwiddleTable.Widths
import StreamingFft.TwiddleTable.Module
/-!
Which requests for a module are refused, and with which fault. The widths are checked from left to right,
so that the first one that offends decides. The steps behind that check all depend on a width and ask
again whether it is admissible; for widths that have passed, none of them fails.
-/
namespace StreamingFft

namespace WordWidth

/-- The width at position `i` is refused. Its range is looked at before its repetition. -/
inductive Offends (widths : List Nat) (i : Nat) : Fault → Prop where
  | outOfRange {w : Nat} (hw : widths[i]? = some w) (hrange : ¬ (2 ≤ w ∧ w ≤ 32)) :
    Offends widths i (.widthOutOfRange w)
  | repeated {w : Nat} (hw : widths[i]? = some w) (hrange : 2 ≤ w ∧ w ≤ 32)
    (hmem : w ∈ widths.take i) : Offends widths i (.repeatedWidth w)

/-- The offence with the smallest position, from position `k` on. -/
def FirstOffence (widths : List Nat) (k : Nat) (f : Fault) : Prop :=
  ∃ i, k ≤ i ∧ Offends widths i f ∧ ∀ j, k ≤ j → j < i → ∀ g, ¬ Offends widths j g

variable {widths earlier rest : List Nat} {i k n : Nat} {f g : Fault}

theorem Offends.unique (hf : Offends widths i f) (hg : Offends widths i g) : f = g := by
  cases hf with
  | outOfRange hw hrange =>
    cases hg with
    | outOfRange hv _ => rw [Option.some.inj (hw.symm.trans hv)]
    | repeated hv hrange' _ => exact absurd (Option.some.inj (hw.symm.trans hv) ▸ hrange') hrange
  | repeated hw hrange _ =>
    cases hg with
    | outOfRange hv hrange' => exact absurd (Option.some.inj (hw.symm.trans hv) ▸ hrange) hrange'
    | repeated hv _ _ => rw [Option.some.inj (hw.symm.trans hv)]

theorem firstOffence_of_offends (h : Offends widths k g) : FirstOffence widths k f ↔ f = g := by
  constructor
  · rintro ⟨i, hki, hf, hfirst⟩
    obtain rfl | hlt := Nat.eq_or_lt_of_le hki
    · exact hf.unique h
    · exact absurd h (hfirst k (Nat.le_refl k) hlt g)
  · rintro rfl
    exact ⟨k, Nat.le_refl k, h, fun j hkj hjk => absurd hjk (Nat.not_lt.2 hkj)⟩

theorem firstOffence_succ (h : ∀ g, ¬ Offends widths k g) :
    FirstOffence widths k f ↔ FirstOffence widths (k + 1) f := by
  constructor
  · rintro ⟨i, hki, hf, hfirst⟩
    obtain rfl | hlt := Nat.eq_or_lt_of_le hki
    · exact absurd hf (h f)
    · exact ⟨i, hlt, hf, fun j hkj => hfirst j (Nat.le_of_succ_le hkj)⟩
  · rintro ⟨i, hki, hf, hfirst⟩
    refine ⟨i, Nat.le_of_succ_le hki, hf, ?_⟩
    intro j hkj hji
    obtain rfl | hlt := Nat.eq_or_lt_of_le hkj
    · exact h
    · exact hfirst j hlt hji

theorem ofNat_of_admissible (h : 2 ≤ n ∧ n ≤ 32) : ofNat n = .ok ⟨n, h.1, h.2⟩ := dif_pos h

theorem ofNat_of_not_admissible (h : ¬ (2 ≤ n ∧ n ≤ 32)) : ofNat n = .error (.widthOutOfRange n) :=
  dif_neg h

/-- A check of all widths has come to position `k`: those in front of it are known, and those in `rest`
are still to be checked. -/
structure StandsAt (widths : List Nat) (k : Nat) (earlier rest : List Nat) : Prop where
  rest_eq : widths.drop k = rest
  mem_earlier : ∀ n, n ∈ earlier ↔ n ∈ widths.take k

theorem standsAt_zero (widths : List Nat) : StandsAt widths 0 [] widths :=
  ⟨rfl, fun n => by rw [List.take_zero]⟩

theorem StandsAt.head (h : StandsAt widths k earlier (n :: rest)) : widths[k]? = some n := by
  rw [← List.head?_drop, h.rest_eq, List.head?_cons]

theorem StandsAt.next (h : StandsAt widths k earlier (n :: rest)) :
    StandsAt widths (k + 1) (n :: earlier) rest where
  rest_eq := by rw [← List.drop_drop, h.rest_eq, List.drop_one, List.tail_cons]
  mem_earlier m := by
    rw [List.take_add_one, h.head, Option.toList_some, List.mem_append, List.mem_singleton,
      List.mem_cons, h.mem_earlier, or_comm]

/-- Nothing is wrong with an admissible width that is new. -/
theorem StandsAt.not_offends (h : StandsAt widths k earlier (n :: rest)) (hrange : 2 ≤ n ∧ n ≤ 32)
    (hnew : n ∉ earlier) (g : Fault) : ¬ Offends widths k g := by
  intro hg
  cases hg with
  | outOfRange hw hbad => exact hbad (Option.some.inj (h.head.symm.trans hw) ▸ hrange)
  | repeated hw _ hmem =>
    exact hnew ((h.mem_earlier n).2 (Option.some.inj (h.head.symm.trans hw) ▸ hmem))

theorem StandsAt.not_offends_of_ge (h : StandsAt widths k earlier []) (hi : k ≤ i) (g : Fault) :
    ¬ Offends widths i g := by
  have hend : widths[i]? = none :=
    List.getElem?_eq_none (Nat.le_trans (List.drop_eq_nil_iff.1 h.rest_eq) hi)
  intro hg
  cases hg with
  | outOfRange hw _ => exact nomatch hend.symm.trans hw
  | repeated hw _ _ => exact nomatch hend.symm.trans hw

/-- From each position on, the check goes on to the first offence. -/
theorem StandsAt.collect_eq_error_iff (h : StandsAt widths k earlier rest) :
    collect earlier rest = .error f ↔ FirstOffence widths k f := by
  induction rest generalizing k earlier with
  | nil =>
    refine iff_of_false nofun ?_
    rintro ⟨i, hki, hf, -⟩
    exact h.not_offends_of_ge hki f hf
  | cons n rest ih =>
    by_cases hrange : 2 ≤ n ∧ n ≤ 32
    · rw [collect_cons earlier ⟨n, hrange.1, hrange.2⟩ rest]
      by_cases hmem : n ∈ earlier
      · have hoffends := Offends.repeated h.head hrange ((h.mem_earlier n).1 hmem)
        rw [if_pos hmem, firstOffence_of_offends hoffends, Except.error.injEq, eq_comm]
      · rw [if_neg hmem, map_eq_error_iff, firstOffence_succ (h.not_offends hrange hmem)]
        exact ih h.next
    · have hcollect : collect earlier (n :: rest) = .error (.widthOutOfRange n) := by
        rw [collect, ofNat_of_not_admissible hrange]
        rfl
      rw [hcollect, firstOffence_of_offends (Offends.outOfRange h.head hrange), Except.error.injEq,
        eq_comm]

theorem ofList_eq_error_iff :
    ofList widths = .error f ↔ widths = [] ∧ f = .noWidths ∨ FirstOffence widths 0 f := by
  have hcollect := (standsAt_zero widths).collect_eq_error_iff (f := f)
  cases widths with
  | nil =>
    rw [← hcollect]
    simp [ofList, collect, eq_comm]
  | cons w rest =>
    rw [← hcollect]
    simp [ofList]

theorem exists_map_bits_iff : (∃ ws : List WordWidth, ws.map bits = widths) ↔
    ∀ w ∈ widths, 2 ≤ w ∧ w ≤ 32 := by
  constructor
  · rintro ⟨ws, rfl⟩ n hn
    obtain ⟨w, _, rfl⟩ := List.mem_map.1 hn
    exact ⟨w.narrowest_le, w.le_widest⟩
  · intro h
    induction widths with
    | nil => exact ⟨[], rfl⟩
    | cons n widths ih =>
      rw [List.forall_mem_cons] at h
      obtain ⟨ws, rfl⟩ := ih h.2
      exact ⟨⟨n, h.1.1, h.1.2⟩ :: ws, rfl⟩

theorem exists_ofList_eq_ok_iff : (∃ ws, ofList widths = .ok ws) ↔
    widths ≠ [] ∧ (∀ w ∈ widths, 2 ≤ w ∧ w ≤ 32) ∧ widths.Nodup := by
  rw [← exists_map_bits_iff]
  simp only [ofList_eq_ok_iff]
  constructor
  · rintro ⟨ws, hmap, hne, hnodup⟩
    exact ⟨hne, ⟨ws, hmap⟩, hnodup⟩
  · rintro ⟨hne, ⟨ws, hmap⟩, hnodup⟩
    exact ⟨ws, hmap, hne, hnodup⟩

theorem map_ofNat_bits {α : Type} (f : WordWidth → α) (w : WordWidth) :
    (ofNat w.bits).map f = .ok (f w) := by
  rw [ofNat_eq_ok_iff.2 rfl]
  rfl

def check (n : Nat) : Except Fault Unit :=
  if 2 ≤ n ∧ n ≤ 32 then .ok () else .error (.widthOutOfRange n)

/-- Each width is checked for itself, and then against those in front of its position. -/
def checkAt (widths : List Nat) : Nat × Nat → Except Fault Unit
  | (n, i) => do
    check n
    if n ∈ widths.take i then .error (.repeatedWidth n) else .ok ()

def checkList (widths : List Nat) : Except Fault Unit :=
  if widths.isEmpty then .error .noWidths else forM widths.zipIdx (checkAt widths)

theorem check_eq (n : Nat) : check n = (ofNat n).map fun _ => () := by
  by_cases h : 2 ≤ n ∧ n ≤ 32
  · rw [check, if_pos h, ofNat_of_admissible h]
    rfl
  · rw [check, if_neg h, ofNat_of_not_admissible h]
    rfl

/-- A value that is computed behind the check of its width. -/
theorem check_bind {α : Type} {g : Nat → α} {f : WordWidth → α} (h : ∀ w, f w = g w.bits) :
    (check n >>= fun _ => .ok (g n)) = (ofNat n).map f := by
  rw [check_eq]
  cases hn : ofNat n with
  | error e => rfl
  | ok w =>
    obtain rfl := ofNat_eq_ok_iff.1 hn
    exact congrArg Except.ok (h w).symm

/-- The loop over positions remembers no widths, and finds those in front of it in the list. -/
theorem StandsAt.forM_checkAt (h : StandsAt widths k earlier rest) :
    forM (rest.zipIdx k) (checkAt widths) = (collect earlier rest).map fun _ => () := by
  induction rest generalizing k earlier with
  | nil => rfl
  | cons n rest ih =>
    rw [List.zipIdx_cons, List.forM_cons, ih h.next, checkAt, check_eq, collect]
    cases ofNat n with
    | error f => rfl
    | ok w =>
      simp only [Except.map, bind, Except.bind, ← h.mem_earlier]
      by_cases hmem : n ∈ earlier
      · rw [if_pos hmem, if_pos hmem]
      · rw [if_neg hmem, if_neg hmem]
        cases collect (n :: earlier) rest <;> rfl

theorem checkList_eq (widths : List Nat) : checkList widths = (ofList widths).map fun _ => () := by
  cases widths with
  | nil => rfl
  | cons n rest => exact (standsAt_zero (n :: rest)).forM_checkAt

end WordWidth

section Steps
open WordWidth

theorem mapM_eq_ok {α β : Type} {f : α → Except Fault β} {g : α → β} (h : ∀ x, f x = .ok (g x))
    (xs : List α) : xs.mapM f = .ok (xs.map g) := by
  induction xs with
  | nil => rfl
  | cons x xs ih =>
    rw [List.mapM_cons, h, ih]
    rfl

namespace TwiddleTable

/-- The value that stands for one at a width that is asked for. -/
def tryScale (t : TwiddleTable) (n : Nat) : Except Fault Nat := do
  check n
  .ok (if t.reduced then 2 ^ (n - 1) - 1 else 2 ^ (n - 1))

def tryWordBits (t : TwiddleTable) (n : Nat) : Except Fault Nat := do
  check n
  .ok (if t.reduced then n else n + 1)

variable (t : TwiddleTable) (n : Nat)

theorem tryScale_eq : t.tryScale n = (ofNat n).map t.scale := by
  rw [tryScale]
  apply check_bind
  exact fun _ => rfl

theorem tryWordBits_eq : t.tryWordBits n = (ofNat n).map t.wordBits := by
  rw [tryWordBits]
  apply check_bind
  exact fun _ => rfl

end TwiddleTable

namespace SampledTable
open TwiddleTable

def trySample (t : SampledTable) (i n : Nat) : Except Fault Sample := do
  let scale ← t.tryScale n
  .ok ⟨(t.point i).cos.scaled scale, (t.point i).sin.scaled scale⟩

def tryEncode (t : SampledTable) (i n : Nat) : Except Fault (Nat × Nat) := do
  let s ← t.trySample i n
  let bits ← t.tryWordBits n
  .ok (twosComplement s.re bits, twosComplement s.im bits)

def tryWord (t : SampledTable) (i n : Nat) : Except Fault String := do
  let (re, im) ← t.tryEncode i n
  let bits ← t.tryWordBits n
  .ok (String.ofList (paddedBinary bits im ++ paddedBinary bits re))

def tryWords (t : SampledTable) (n : Nat) : Except Fault (List String) :=
  (List.range t.size).mapM fun i => t.tryWord i n

def tryFingerprint (t : SampledTable) (n : Nat) : Except Fault String := do
  let words ← t.tryWords n
  .ok (contentsDigest words)

def tryContents (t : SampledTable) (n : Nat) : Except Fault String := do
  let words ← t.tryWords n
  let rows := rowsOf (rowLength - 1) (words.map fun word => s!"\"{word}\"")
  .ok (",\n".intercalate (rows.map fun row => "\t\t\t" ++ ", ".intercalate row))

/-- The module, with every step free to refuse its width. -/
def tryRender (t : SampledTable) (widths : List Nat) : Except Fault String := do
  checkList widths
  let digests ← widths.mapM fun n => do
    let digest ← t.tryFingerprint n
    .ok s!"-- twBits={n} contents: blake3 {digest}\n"
  let variants ← widths.mapM fun n => do
    let contents ← t.tryContents n
    .ok s!"\ng{n}:\n\tif twBits = {n} generate\n\t\trom <= (\n{contents});\n\tend generate;\n"
  .ok (t.preamble ++ String.join digests ++ t.frame ++ String.join variants ++ "\nend a;\n")

variable (t : SampledTable) (i n : Nat)

theorem trySample_eq : t.trySample i n = (ofNat n).map (t.sample i) := by
  rw [trySample, tryScale_eq]
  cases ofNat n <;> rfl

theorem tryEncode_eq : t.tryEncode i n = (ofNat n).map (t.encode i) := by
  rw [tryEncode, trySample_eq, tryWordBits_eq]
  cases ofNat n <;> rfl

theorem tryWord_eq : t.tryWord i n = (ofNat n).map (t.word i) := by
  rw [tryWord, tryEncode_eq, tryWordBits_eq]
  cases ofNat n <;> rfl

/-- A table has entries, so that a bad width does not go unnoticed. -/
theorem tryWords_eq : t.tryWords n = (ofNat n).map t.words := by
  simp only [tryWords, tryWord_eq]
  cases ofNat n with
  | ok w => exact mapM_eq_ok (fun i => rfl) _
  | error f =>
    obtain ⟨m, hm⟩ : ∃ m, t.size = m + 1 :=
      Nat.exists_eq_succ_of_ne_zero (Nat.ne_of_gt (Nat.two_pow_pos t.depth))
    rw [hm, List.range_succ_eq_map, List.mapM_cons]
    rfl

theorem tryFingerprint_eq : t.tryFingerprint n = (ofNat n).map t.fingerprint := by
  rw [tryFingerprint, tryWords_eq]
  cases ofNat n <;> rfl

theorem tryContents_eq : t.tryContents n = (ofNat n).map t.contents := by
  rw [tryContents, tryWords_eq]
  cases ofNat n <;> rfl

/-- With all checks in its steps, the module is the same text, and a refused one the same fault. -/
theorem tryRender_eq (widths : List Nat) : t.tryRender widths = t.render widths := by
  rw [tryRender, render, checkList_eq]
  cases hwidths : ofList widths with
  | error f => rfl
  | ok ws =>
    obtain ⟨rfl, -, -⟩ := ofList_eq_ok_iff.1 hwidths
    rw [List.mapM_map, List.mapM_map, mapM_eq_ok (g := t.digestLine), mapM_eq_ok (g := t.variant)]
    · rfl
    · intro w
      rw [Function.comp_apply, tryContents_eq, map_ofNat_bits]
      rfl
    · intro w
      rw [Function.comp_apply, tryFingerprint_eq, map_ofNat_bits]
      rfl

/-- Every step at a width that is asked for gives what it gives at the width checked. -/
structure StepsSucceed (t : SampledTable) (n : Nat) (w : WordWidth) : Prop where
  bits : w.bits = n
  scale : t.tryScale n = .ok (t.scale w)
  wordBits : t.tryWordBits n = .ok (t.wordBits w)
  sample : ∀ i, t.trySample i n = .ok (t.sample i w)
  encode : ∀ i, t.tryEncode i n = .ok (t.encode i w)
  word : ∀ i, t.tryWord i n = .ok (t.word i w)
  words : t.tryWords n = .ok (t.words w)
  fingerprint : t.tryFingerprint n = .ok (t.fingerprint w)
  contents : t.tryContents n = .ok (t.contents w)

theorem stepsSucceed_bits (w : WordWidth) : t.StepsSucceed w.bits w where
  bits := rfl
  scale := (t.tryScale_eq _).trans (map_ofNat_bits _ w)
  wordBits := (t.tryWordBits_eq _).trans (map_ofNat_bits _ w)
  sample i := (t.trySample_eq i _).trans (map_ofNat_bits _ w)
  encode i := (t.tryEncode_eq i _).trans (map_ofNat_bits _ w)
  word i := (t.tryWord_eq i _).trans (map_ofNat_bits _ w)
  words := (t.tryWords_eq _).trans (map_ofNat_bits _ w)
  fingerprint := (t.tryFingerprint_eq _).trans (map_ofNat_bits _ w)
  contents := (t.tryContents_eq _).trans (map_ofNat_bits _ w)

/-- A module is made for lists of admissible widths without repetition, and for no others. The first width
that offends names the fault, and behind the check of the list no step finds one. -/
theorem render_judged (t : SampledTable) (widths : List Nat) :
    ((∃ text, t.render widths = .ok text) ↔
      widths ≠ [] ∧ (∀ n ∈ widths, 2 ≤ n ∧ n ≤ 32) ∧ widths.Nodup) ∧
    (∀ f, t.render widths = .error f ↔
      widths = [] ∧ f = .noWidths ∨ FirstOffence widths 0 f) ∧
    t.tryRender widths = t.render widths ∧
    (checkList widths = .ok () → (∃ text, t.tryRender widths = .ok text) ∧
      ∀ n ∈ widths, ∃ w, t.StepsSucceed n w) := by
  have haccepted : (∃ text, t.render widths = .ok text) ↔ ∃ ws, ofList widths = .ok ws := by
    simp only [render, map_eq_ok_iff]
    exact ⟨fun ⟨_, ws, hws, _⟩ => ⟨ws, hws⟩, fun ⟨ws, hws⟩ => ⟨_, ws, hws, rfl⟩⟩
  refine ⟨haccepted.trans exists_ofList_eq_ok_iff, ?_, t.tryRender_eq widths, ?_⟩
  · intro f
    rw [render, map_eq_error_iff, ofList_eq_error_iff]
  · intro hcheck
    rw [checkList_eq] at hcheck
    obtain ⟨ws, hws, -⟩ := map_eq_ok_iff.1 hcheck
    refine ⟨?_, ?_⟩
    · rw [tryRender_eq]
      exact haccepted.2 ⟨ws, hws⟩
    · obtain ⟨rfl, -, -⟩ := ofList_eq_ok_iff.1 hws
      intro n hn
      obtain ⟨w, -, rfl⟩ := List.mem_map.1 hn
      exact ⟨w, t.stepsSucceed_bits w⟩

/-- Two faults in each of the refused lists: the first in the list is reported, be it of the one kind or of
the other. -/
theorem render_judged_faults :
    checkList [32, 2] = .ok () ∧ (∃ text, oppositePoints.tryRender [32, 2] = .ok text) ∧
      (∃ w, oppositePoints.StepsSucceed 32 w) ∧
      FirstOffence [12, 40, 12, 1] 0 (.widthOutOfRange 40) ∧
      FirstOffence [12, 16, 12, 99] 0 (.repeatedWidth 12) := by
  have hcheck : checkList [32, 2] = .ok () := rfl
  obtain ⟨-, -, -, hpassed⟩ := render_judged oppositePoints [32, 2]
  obtain ⟨htext, hsteps⟩ := hpassed hcheck
  have hfault : ∀ {widths : List Nat} {f : Fault}, widths ≠ [] →
      oppositePoints.render widths = .error f → FirstOffence widths 0 f := by
    intro widths f hne hf
    exact (((render_judged oppositePoints widths).2.1 f).1 hf).resolve_left fun h => hne h.1
  exact ⟨hcheck, htext, hsteps 32 List.mem_cons_self, hfault nofun rfl, hfault nofun rfl⟩

end SampledTable

end Steps
end StreamingFft
