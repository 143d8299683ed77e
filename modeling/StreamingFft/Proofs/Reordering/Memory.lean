import StreamingFft.Proofs.Reordering.Schedule
/-!
A reorder buffer that makes do with one memory of a frame's size. In every step it hands out the word
at the address that the network gives, and then puts the arriving sample there. From its second frame
on, the buffer delivers each frame in the order of the network.
-/
namespace StreamingFft.PermutationNetwork
open BitOrder

variable {α : Type*}

theorem size_chain {q : BitOrder} (stages : List BitOrder) (h : ∀ s ∈ stages, s.size = q.size)
    (acc : BitOrder) (hacc : acc.size = q.size) (count : Nat) :
    (chain acc stages count).size = q.size := by
  induction stages generalizing acc count with
  | nil => exact hacc
  | cons s rest ih =>
    apply ih (fun r hr => h r (List.mem_cons_of_mem s hr))
    split
    · rw [size_andThen, hacc, h s List.mem_cons_self, Nat.max_self]
    · exact hacc

@[simp] theorem size_schedule (p : PermutationNetwork) (count : Nat) :
    (p.schedule count).size = p.size :=
  size_chain (q := p.order) _ (fun _ hs => size_of_mem_squares hs) _ (size_natural _) count

/-- The word that is used at a step of a frame. -/
def address (p : PermutationNetwork) (frame step : Nat) : Fin (2 ^ p.size) :=
  ⟨(p.schedule (frame % p.period)).apply step, by
    simpa only [size_schedule] using (p.schedule (frame % p.period)).apply_lt step⟩

/-- The memory after the first steps of a frame that it enters as `m`. -/
def duringFrame (p : PermutationNetwork) (samples : Nat → α) (frame : Nat)
    (m : Fin (2 ^ p.size) → α) : (steps : Nat) → Fin (2 ^ p.size) → α
  | 0 => m
  | n + 1 => Function.update (p.duringFrame samples frame m n) (p.address frame n) (samples n)

/-- The memory at the start of a frame, when `input f t` arrives at step `t` of frame `f`. -/
def beforeFrame (p : PermutationNetwork) (input : Nat → Nat → α) (m : Fin (2 ^ p.size) → α) :
    (frame : Nat) → Fin (2 ^ p.size) → α
  | 0 => m
  | f + 1 => p.duringFrame (input f) f (p.beforeFrame input m f) (2 ^ p.size)

/-- What is handed out at a step of a frame, before the word is overwritten. -/
def output (p : PermutationNetwork) (input : Nat → Nat → α) (m : Fin (2 ^ p.size) → α)
    (frame step : Nat) : α :=
  p.duringFrame (input frame) frame (p.beforeFrame input m frame) step (p.address frame step)

theorem address_ofOrder (o : BitOrder) (frame step : Nat) :
    ((ofOrder o).address frame step : Nat) = (o.power frame).apply step :=
  congrArg (fun q => q.apply step) (schedule_mod_period o frame)

/-- No frame uses a word twice. -/
theorem address_inj (o : BitOrder) (frame : Nat) {s t : Nat} (hs : s < 2 ^ o.size)
    (ht : t < 2 ^ o.size) :
    (ofOrder o).address frame s = (ofOrder o).address frame t ↔ s = t := by
  rw [Fin.ext_iff, address_ofOrder, address_ofOrder]
  apply apply_inj
  · rwa [size_power]
  · rwa [size_power]

/-- The next frame reads the words of a frame in the permuted order. -/
theorem address_succ (o : BitOrder) (frame : Nat) {t : Nat} (ht : t < 2 ^ o.size) :
    (ofOrder o).address (frame + 1) t = (ofOrder o).address frame (o.apply t) := by
  apply Fin.ext
  rw [address_ofOrder, address_ofOrder, apply_power o _ ht, apply_power o _ (o.apply_lt t),
    Function.iterate_succ_apply]

/-- Within a frame, the words of the steps taken hold the new samples, and all others are as before. -/
theorem duringFrame_address (o : BitOrder) (samples : Nat → α) (frame : Nat)
    (m : Fin (2 ^ (ofOrder o).size) → α) {steps s : Nat} (hsteps : steps ≤ 2 ^ o.size)
    (hs : s < 2 ^ o.size) :
    (ofOrder o).duringFrame samples frame m steps ((ofOrder o).address frame s) =
      if s < steps then samples s else m ((ofOrder o).address frame s) := by
  induction steps with
  | zero => rw [if_neg (Nat.not_lt_zero s)]; rfl
  | succ n ih =>
    rw [duringFrame]
    by_cases hsn : s = n
    · subst hsn
      rw [Function.update_self, if_pos (Nat.lt_succ_self s)]
    · -- the step writes one word, and it is not that of step `s`
      have hne : (ofOrder o).address frame s ≠ (ofOrder o).address frame n :=
        fun h => hsn ((address_inj o frame hs (by omega)).1 h)
      rw [Function.update_of_ne hne, ih (by omega)]
      simp only [show s < n + 1 ↔ s < n by omega]

/-- After a frame, the memory holds exactly its samples. -/
theorem beforeFrame_succ (o : BitOrder) (input : Nat → Nat → α)
    (m : Fin (2 ^ (ofOrder o).size) → α) (frame : Nat) {s : Nat} (hs : s < 2 ^ o.size) :
    (ofOrder o).beforeFrame input m (frame + 1) ((ofOrder o).address frame s) = input frame s := by
  rw [beforeFrame, size_ofOrder, duringFrame_address o _ _ _ le_rfl hs, if_pos hs]

/-- What leaves the buffer at step `t` of a frame is the sample that came in at step `o.apply t` of the
frame before, whatever the memory held at first and wherever the counter stands. -/
theorem output_next_frame (o : BitOrder) (input : Nat → Nat → α)
    (m : Fin (2 ^ (ofOrder o).size) → α) (frame : Nat) {t : Nat} (ht : t < 2 ^ o.size) :
    o.apply t < 2 ^ o.size ∧
      (ofOrder o).output input m (frame + 1) t = input frame (o.apply t) := by
  refine ⟨o.apply_lt t, ?_⟩
  rw [output, duringFrame_address o _ _ _ ht.le ht, if_neg (lt_irrefl t), address_succ o frame ht,
    beforeFrame_succ o input m frame (o.apply_lt t)]

/-- A cycle of three bits beside one of two: the counter has eight states, and starts again after six. -/
def mixedCycles : BitOrder := ⟨[1, 2, 0, 4, 3], by decide, by decide⟩

/-- Frame 6 is the first one behind the start of a new period. -/
theorem output_mixedCycles_wrap :
    (ofOrder mixedCycles).period = 6 ∧ 9 < 2 ^ mixedCycles.size ∧ mixedCycles.apply 9 = 20 ∧
      (ofOrder mixedCycles).output (fun f t => 32 * f + t) (fun _ => 0) 6 9 = 32 * 5 + 20 := by
  have h : 9 < 2 ^ mixedCycles.size := by decide
  have hout := (output_next_frame mixedCycles (fun f t => 32 * f + t) (fun _ => 0) 5 h).2
  exact ⟨by decide, h, by decide, hout⟩

end StreamingFft.PermutationNetwork
