import Mathlib.Logic.Function.Basic
import StreamingFft.Proofs.Reordering.Schedule
import StreamingFft.Proofs.Vhdl.Signals
/-!
The permutation network as hardware. Its text says of the address in front of each stage that it is the
address that came in, permuted as often as the lower bits of the counter say.
-/
namespace StreamingFft.PermutationNetwork
open BitOrder Vhdl

variable {o : BitOrder} {id : String}

theorem isName_tap (hid : id.toList.all isWordChar = true) (i : Nat) : IsName (tap id i) := by
  have hstart : IsName (id ++ "rP") := IsName.append hid (by decide)
  exact hstart.append_repr i

theorem isName_counterSignal (p : PermutationNetwork) (hid : id.toList.all isWordChar = true) :
    IsName (p.counterSignal id) :=
  IsName.append hid (by decide)

theorem tap_inj {i j : Nat} : tap id i = tap id j ↔ i = j := by
  refine ⟨fun h => ?_, fun h => h ▸ rfl⟩
  have hlist := congrArg String.toList ((String.append_right_inj (id ++ "rP")).1 h)
  have hdigits : Nat.toDigits 10 i = Nat.toDigits 10 j := by
    rwa [← Nat.toList_repr, ← Nat.toList_repr]
  apply Option.some.inj
  rw [← number?_toDigits, ← number?_toDigits, hdigits]

theorem tap_ne_counterSignal (p : PermutationNetwork) (i : Nat) : tap id i ≠ p.counterSignal id := by
  intro h
  have htap : tap id i = id ++ ("rP" ++ Nat.repr i) := String.append_assoc ..
  rw [htap] at h
  -- behind the prefix, the second letters are different
  have hlist := congrArg String.toList ((String.append_right_inj id).1 h)
  rw [String.toList_append] at hlist
  cases hlist

/-- The statement of stage `i`. -/
def stageStatement (o : BitOrder) (id : String) (i : Nat) : Statement :=
  .choose (tap id (i + 1)) (.select (o.power (2 ^ i)) (tap id i)) ((ofOrder o).counterSignal id) i
    (.name (tap id i))

/-- Twice the order, numbered from the next stage on, is the same network without its first stage. -/
theorem stageStatements_squares (id counter : String) (k n : Nat) (q : BitOrder) :
    stageStatements id counter k (squares q n) = (List.range n).map fun i =>
      .choose (tap id (k + i + 1)) (.select (q.power (2 ^ i)) (tap id (k + i))) counter (k + i)
        (.name (tap id (k + i))) := by
  induction n generalizing k q with
  | zero => rfl
  | succ n ih =>
    rw [squares, stageStatements, ih, List.range_succ_eq_map, List.map_cons, List.map_map,
      Nat.pow_zero, power_one]
    congr 1
    apply List.map_congr_left
    intro i _
    have hpower : q.power (2 ^ (i + 1)) = (q.andThen q).power (2 ^ i) := by
      rw [← power_two, ← power_mul, Nat.pow_succ']
    have hnumber : k + (i + 1) = k + 1 + i := by omega
    simp only [Function.comp_apply, Nat.succ_eq_add_one, hpower, hnumber]

/-- The body has one statement for each bit of the counter. -/
theorem body_eq_map (p : PermutationNetwork) (id : String) :
    p.body id = (List.range p.counterBits).map fun i =>
      .choose (tap id (i + 1)) (.select (p.order.power (2 ^ i)) (tap id i)) (p.counterSignal id) i
        (.name (tap id i)) := by
  refine (stageStatements_squares id _ 0 _ p.order).trans ?_
  simp only [Nat.zero_add]

theorem body_eq (o : BitOrder) (id : String) :
    (ofOrder o).body id = (List.range (ofOrder o).counterBits).map (stageStatement o id) :=
  body_eq_map (ofOrder o) id

theorem readable_stageStatements {counter : String} (hid : id.toList.all isWordChar = true)
    (hcounter : IsName counter) (i : Nat) (stages : List BitOrder) :
    ∀ s ∈ stageStatements id counter i stages, s.Readable := by
  induction stages generalizing i with
  | nil => exact fun s hs => nomatch hs
  | cons q rest ih =>
    refine List.forall_mem_cons.2 ⟨?_, ih (i + 1)⟩
    have htap := isName_tap hid i
    exact ⟨isName_tap hid (i + 1), Expr.legible_select q htap, hcounter, htap⟩

theorem readable_body (p : PermutationNetwork) (hid : id.toList.all isWordChar = true) :
    ∀ s ∈ p.body id, s.Readable :=
  readable_stageStatements hid (isName_counterSignal p hid) 0 _

/-- The text of the network is read as the statements of its stages. -/
theorem readAssignments_body (o : BitOrder) (hid : id.toList.all isWordChar = true) :
    readAssignments (Statement.listText ((ofOrder o).body id)) =
      (List.range (ofOrder o).counterBits).map (stageStatement o id) := by
  have hassign : ∀ s ∈ (ofOrder o).body id, s.isAssignment = true := by
    intro s hs
    rw [body_eq] at hs
    obtain ⟨i, _, rfl⟩ := List.mem_map.1 hs
    rfl
  rw [Statement.readAssignments_listText (readable_body _ hid), List.filter_eq_self.2 hassign,
    body_eq]

/-- The signals of the network with their numbers of bits. -/
def vectors (o : BitOrder) (id : String) : List (String × Nat) :=
  (List.range ((ofOrder o).counterBits + 1)).map (fun i => (tap id i, o.size)) ++
    [((ofOrder o).counterSignal id, (ofOrder o).counterBits)]

theorem mem_vectors {v : String × Nat} :
    v ∈ vectors o id ↔ (∃ i ≤ (ofOrder o).counterBits, v = (tap id i, o.size)) ∨
      v = ((ofOrder o).counterSignal id, (ofOrder o).counterBits) := by
  rw [vectors, List.mem_append, List.mem_map, List.mem_singleton]
  simp only [List.mem_range, Nat.lt_succ_iff, eq_comm]

theorem readSignals_declarations (o : BitOrder) (hid : id.toList.all isWordChar = true) :
    readSignals (Declaration.listText ((ofOrder o).declarations id)) = vectors o id := by
  have hvectors : (ofOrder o).declarations id = (vectors o id).map Declaration.vector := by
    rw [vectors, List.map_append, List.map_map]
    rfl
  rw [hvectors]
  apply Declaration.readSignals_vectors
  intro v hv
  obtain ⟨i, _, rfl⟩ | rfl := mem_vectors.1 hv
  · exact isName_tap hid i
  · exact isName_counterSignal (ofOrder o) hid

theorem nodup_names_vectors (o : BitOrder) (id : String) :
    ((vectors o id).map Prod.fst).Nodup := by
  rw [vectors, List.map_append, List.map_map]
  apply List.Nodup.append
  · exact List.nodup_range.map fun i j h => tap_inj.1 h
  · exact List.nodup_singleton _
  · intro v hv hcounter
    obtain ⟨i, _, rfl⟩ := List.mem_map.1 hv
    have heq : tap id i = (ofOrder o).counterSignal id := List.mem_singleton.1 hcounter
    exact tap_ne_counterSignal _ i heq

/-- Stage `i` adds the repetitions that bit `i` of the counter stands for. -/
theorem apply_power_stage (o : BitOrder) (i count address : Nat) :
    (if count / 2 ^ i % 2 = 1 then (o.power (2 ^ i)).apply ((o.power (count % 2 ^ i)).apply address)
      else (o.power (count % 2 ^ i)).apply address) =
      (o.power (count % 2 ^ (i + 1))).apply address := by
  have hcount : count % 2 ^ (i + 1) = count % 2 ^ i + 2 ^ i * (count / 2 ^ i % 2) := by
    rw [Nat.pow_succ, Nat.mod_mul]
  have hsize : (o.power (count % 2 ^ i)).size = (o.power (2 ^ i)).size := by
    rw [size_power, size_power]
  rcases Nat.mod_two_eq_zero_or_one (count / 2 ^ i) with h | h
  · rw [hcount, h, if_neg Nat.zero_ne_one, Nat.mul_zero, Nat.add_zero]
  · rw [hcount, h, if_pos rfl, Nat.mul_one, power_add, apply_andThen hsize]

/-- What stage `i` makes of the address in front of it. -/
theorem value_stage {σ : String → Int} {i count address : Nat}
    (hcount : σ ((ofOrder o).counterSignal id) = count)
    (htap : σ (tap id i) = (o.power (count % 2 ^ i)).apply address) :
    (if σ ((ofOrder o).counterSignal id) / 2 ^ i % 2 = 1
      then (Expr.select (o.power (2 ^ i)) (tap id i)).value σ
      else (Expr.name (tap id i)).value σ) = (o.power (count % 2 ^ (i + 1))).apply address := by
  have hlt : (o.power (count % 2 ^ i)).apply address < 2 ^ (o.power (2 ^ i)).size := by
    rw [size_power, ← o.size_power (count % 2 ^ i)]
    exact apply_lt _ _
  have hbit : (count : Int) / 2 ^ i % 2 = 1 ↔ count / 2 ^ i % 2 = 1 := by norm_cast
  rw [hcount, Expr.value_select _ htap hlt, Expr.value, htap, ← apply_power_stage]
  simp only [hbit]
  split <;> rfl

/-- In front of stage `i` stands the address, permuted as often as the `i` lowest bits of the counter
say. -/
theorem value_tap {n : Nat} {σ : Signals}
    (hσ : ∀ i < (ofOrder o).counterBits, (stageStatement o id i).Holds n σ) {t : Int}
    {count address : Nat} (hcount : σ ((ofOrder o).counterSignal id) t = count)
    (hin : σ (tap id 0) t = address) (hlt : address < 2 ^ o.size) {i : Nat}
    (hi : i ≤ (ofOrder o).counterBits) :
    σ (tap id i) t = (o.power (count % 2 ^ i)).apply address := by
  induction i with
  | zero => rw [hin, Nat.pow_zero, Nat.mod_one, power, apply_natural, Nat.mod_eq_of_lt hlt]
  | succ i ih =>
    have htap := ih (by omega)
    exact (hσ i hi t).trans (value_stage (σ := (σ · t)) hcount htap)

/-- The run of the network on a stream of addresses. -/
noncomputable def run (o : BitOrder) (id : String) (count address : Int → Nat) : Signals :=
  fun v t => Function.extend (tap id)
    (fun i => ((o.power (count t % 2 ^ i)).apply (address t) : Int)) (fun _ => (count t : Int)) v

theorem run_tap (o : BitOrder) (id : String) (count address : Int → Nat) (i : Nat) (t : Int) :
    run o id count address (tap id i) t = (o.power (count t % 2 ^ i)).apply (address t) :=
  Function.Injective.extend_apply (fun _ _ h => tap_inj.1 h) _ _ i

theorem run_counterSignal (o : BitOrder) (id : String) (count address : Int → Nat) (t : Int) :
    run o id count address ((ofOrder o).counterSignal id) t = count t := by
  apply Function.extend_apply'
  intro h
  rcases h with ⟨i, hi⟩
  exact tap_ne_counterSignal _ i hi

theorem holds_run (o : BitOrder) (id : String) (count address : Int → Nat) (n i : Nat) :
    (stageStatement o id i).Holds n (run o id count address) := by
  intro t
  have hstage := value_stage (σ := (run o id count address · t))
    (run_counterSignal o id count address t) (run_tap o id count address i t)
  rw [run_tap]
  exact hstage.symm

/-- What the statements of a network do to an address, and how their signals are declared. -/
structure Realizes (p : PermutationNetwork) (id : String) (statements : List Statement)
    (declared : List (String × Nat)) : Prop where
  length : statements.length = p.counterBits
  output : ∀ (n : Nat) (σ : Signals), (∀ s ∈ statements, s.Holds n σ) →
    ∀ (t : Int) (count address : Nat), count < 2 ^ p.counterBits → address < 2 ^ p.size →
      σ (p.counterSignal id) t = count → σ (p.inputSignal id) t = address →
      σ (p.outputSignal id) t = (p.schedule count).apply address
  iterate : ∀ count address : Nat, count < 2 ^ p.counterBits → address < 2 ^ p.size →
    (p.schedule count).apply address = p.order.apply^[count % p.period] address
  solvable : ∀ (n : Nat) (count address : Int → Nat), (∀ t, address t < 2 ^ p.size) →
    ∃ σ : Signals, (∀ s ∈ statements, s.Holds n σ) ∧
      ∀ t, σ (p.counterSignal id) t = count t ∧ σ (p.inputSignal id) t = address t
  declared_once : ∀ s ∈ statements, ∀ v ∈ s.signals, (declared.map Prod.fst).count v = 1
  declared_width : ∀ s ∈ statements, ∀ v ∈ s.signals,
    (v, if v = p.counterSignal id then p.counterBits else p.size) ∈ declared
  index_lt : ∀ s ∈ statements, ∀ i ∈ s.indices, ∃ width, (i.1, width) ∈ declared ∧ i.2 < width

/-- The counter is declared with its own number of bits, all other signals with those of an address. -/
theorem mem_vectors_of_mem_signals {i : Nat} (hi : i < (ofOrder o).counterBits) {v : String}
    (hv : v ∈ (stageStatement o id i).signals) :
    (v, if v = (ofOrder o).counterSignal id then (ofOrder o).counterBits else o.size) ∈
      vectors o id := by
  have htap : ∀ j ≤ (ofOrder o).counterBits,
      (tap id j, if tap id j = (ofOrder o).counterSignal id then (ofOrder o).counterBits
        else o.size) ∈ vectors o id := by
    intro j hj
    rw [if_neg (tap_ne_counterSignal _ j)]
    exact mem_vectors.2 (Or.inl ⟨j, hj, rfl⟩)
  simp only [stageStatement, Statement.signals, List.mem_cons, List.mem_append] at hv
  obtain (rfl | rfl | hv) | hv := hv
  · exact htap (i + 1) hi
  · rw [if_pos rfl]
    exact mem_vectors.2 (Or.inr rfl)
  · obtain rfl := Expr.mem_signals_select hv
    exact htap i hi.le
  · obtain rfl := List.mem_singleton.1 hv
    exact htap i hi.le

theorem exists_width_of_mem_indices {i : Nat} (hi : i < (ofOrder o).counterBits)
    {p : String × Nat} (hp : p ∈ (stageStatement o id i).indices) :
    ∃ width, (p.1, width) ∈ vectors o id ∧ p.2 < width := by
  simp only [stageStatement, Statement.indices, List.mem_cons, List.mem_append] at hp
  obtain (rfl | hp) | hp := hp
  · exact ⟨_, mem_vectors.2 (Or.inr rfl), hi⟩
  · obtain ⟨hv, hlt⟩ := Expr.mem_indices_select hp
    rw [hv]
    rw [size_power] at hlt
    exact ⟨_, mem_vectors.2 (Or.inl ⟨i, hi.le, rfl⟩), hlt⟩
  · cases hp

/-- The text of the network permutes an address as the schedule says, whatever word characters its
names start with, and every signal in it is declared, with bits for all that is read of it. -/
theorem realizes_text (o : BitOrder) (hid : id.toList.all isWordChar = true) :
    (ofOrder o).Realizes id (readAssignments (Statement.listText ((ofOrder o).body id)))
      (readSignals (Declaration.listText ((ofOrder o).declarations id))) := by
  rw [readAssignments_body o hid, readSignals_declarations o hid]
  refine ⟨?_, ?_, ?_, ?_, ?_, ?_, ?_⟩
  · -- one statement for each bit of the counter
    rw [List.length_map, List.length_range]
  · -- the output is the tap behind the last stage
    intro n σ hσ t count address hcount haddress hc hin
    have hstage : ∀ i < (ofOrder o).counterBits, (stageStatement o id i).Holds n σ :=
      fun i hi => hσ _ (List.mem_map_of_mem (List.mem_range.2 hi))
    rw [schedule_ofOrder]
    exact value_tap hstage hc hin haddress le_rfl
  · -- the schedule repeats the order, and a whole period of repetitions does nothing
    intro count address hcount haddress
    have hperiod := congrArg (fun q => q.apply address) (o.power_mod_period count)
    rw [schedule_of_lt o hcount]
    exact hperiod.symm.trans (apply_power o _ haddress)
  · -- there are runs for all inputs
    intro n count address haddress
    refine ⟨run o id count address, ?_, fun t => ⟨run_counterSignal .., ?_⟩⟩
    · intro s hs
      obtain ⟨i, _, rfl⟩ := List.mem_map.1 hs
      exact holds_run o id count address n i
    · have hin := run_tap o id count address 0 t
      have hlt : address t < 2 ^ o.size := haddress t
      rwa [Nat.pow_zero, Nat.mod_one, power, apply_natural, Nat.mod_eq_of_lt hlt] at hin
  · intro s hs v hv
    obtain ⟨i, hi, rfl⟩ := List.mem_map.1 hs
    have hmem := mem_vectors_of_mem_signals (List.mem_range.1 hi) hv
    exact List.count_eq_one_of_mem (nodup_names_vectors o id) (List.mem_map_of_mem hmem)
  · intro s hs v hv
    obtain ⟨i, hi, rfl⟩ := List.mem_map.1 hs
    exact mem_vectors_of_mem_signals (List.mem_range.1 hi) hv
  · intro s hs p hp
    obtain ⟨i, hi, rfl⟩ := List.mem_map.1 hs
    exact exists_width_of_mem_indices (List.mem_range.1 hi) hp

/-- A cycle of three bits: the counter has one state more than the period has frames. -/
def rotation : BitOrder := ⟨[1, 2, 0], by decide, by decide⟩

theorem realizes_text_rotation :
    "core_".toList.all isWordChar = true ∧ (ofOrder rotation).period = 3 ∧
      (ofOrder rotation).Realizes "core_"
        (readAssignments (Statement.listText ((ofOrder rotation).body "core_")))
        (readSignals (Declaration.listText ((ofOrder rotation).declarations "core_"))) := by
  have hid : "core_".toList.all isWordChar = true := by decide
  exact ⟨hid, by decide, realizes_text rotation hid⟩

end StreamingFft.PermutationNetwork
