import StreamingFft.Proofs.BitOrder.Faithful
import StreamingFft.Proofs.Vhdl.Identifier
import StreamingFft.Proofs.Vhdl.Signals
/-!
What the text of a rearranged vector denotes. Expressions denote bits here and not numbers: a single
bit is no vector of one bit, and an index beyond its vector denotes nothing. The text of an order
denotes what the order makes of the vector, and from the text the order can be told.
-/
namespace StreamingFft.Vhdl
open Token

/-- A bit, or a vector whose bits count from the right. -/
inductive Datum where
  | bit (b : Bool)
  | vector {n : Nat} (v : BitVec n)
deriving DecidableEq, Repr

namespace Datum

/-- What a datum contributes to a concatenation. -/
def word : Datum → (n : Nat) × BitVec n
  | bit b => ⟨1, BitVec.ofBool b⟩
  | vector v => ⟨_, v⟩

/-- Side by side, the high bits on the left. -/
def join (high low : Datum) : Datum :=
  vector (high.word.2 ++ low.word.2)

/-- Only a bit makes a vector of one bit. -/
def alone : Datum → Option Datum
  | bit b => some (vector (BitVec.ofBool b))
  | vector _ => none

/-- One bit of a vector. -/
def index (i : Nat) : Datum → Option Datum
  | bit _ => none
  | vector (n := n) v => if i < n then some (bit (v.getLsbD i)) else none

/-- The lowest bits of a vector. -/
def slice (count : Nat) : Datum → Option Datum
  | bit _ => none
  | vector (n := n) v => if count ≤ n then some (vector (v.setWidth count)) else none

theorem index_vector {n i : Nat} (v : BitVec n) (h : i < n) :
    (vector v).index i = some (bit (v.getLsbD i)) :=
  if_pos h

theorem alone_bit (b : Bool) : (bit b).alone = some (vector (BitVec.nil.concat b)) := by
  cases b <;> rfl

theorem join_bits (a b : Bool) :
    (bit a).join (bit b) = vector ((BitVec.nil.concat a).concat b) := by
  cases a <;> cases b <;> rfl

theorem join_bit {n : Nat} (v : BitVec n) (b : Bool) :
    (vector v).join (bit b) = vector (v.concat b) := rfl

end Datum

/-- The listed bits of a vector, the first of them at the low end. -/
def pick {n : Nat} (x : BitVec n) : (bits : List Nat) → BitVec bits.length
  | [] => BitVec.nil
  | b :: rest => (pick x rest).concat (x.getLsbD b)

theorem toNat_pick {n : Nat} (x : BitVec n) (bits : List Nat) :
    (pick x bits).toNat = BitOrder.gather x.toNat bits := by
  induction bits with
  | nil => rfl
  | cons b rest ih =>
    have hbit : x.getLsbD b = x.toNat.testBit b := rfl
    rw [pick, BitVec.toNat_concat, ih, BitOrder.gather, hbit]
    omega

namespace Expr

variable {held : String → Option Datum} {s : String} {n : Nat} {x : BitVec n}

/-- The datum that an expression denotes where the names hold data. Numbers and sums denote no bits. -/
def evaluate (held : String → Option Datum) : Expr → Option Datum
  | name v => held v
  | bit v i => held v >>= Datum.index i
  | low v count => held v >>= Datum.slice count
  | concat a b => do
    let high ← a.evaluate held
    let low ← b.evaluate held
    some (high.join low)
  | single e => e.evaluate held >>= Datum.alone
  | _ => none

/-- The datum that a text denotes, if it is an expression and nothing else. -/
def evaluateText (held : String → Option Datum) (text : String) : Option Datum :=
  match readExpr (scan text.toList) with
  | some (e, []) => e.evaluate held
  | _ => none

/-- The order in which a text takes the bits of a vector, if it takes each of them once. -/
def readOrder (text : String) : Option BitOrder :=
  match readExpr (scan text.toList) with
  | some (e, []) => (BitOrder.ofList (e.indices.map Prod.snd).reverse).toOption
  | _ => none

theorem evaluate_bit (hs : held s = some (.vector x)) {i : Nat} (hi : i < n) :
    (bit s i).evaluate held = some (.bit (x.getLsbD i)) := by
  rw [evaluate, hs]
  exact Datum.index_vector x hi

/-- Two or more bits side by side denote a vector of them. -/
theorem evaluate_bits (hs : held s = some (.vector x)) {i j : Nat} {rest : List Nat}
    (hi : i < n) (hj : j < n) (hrest : ∀ b ∈ rest, b < n) :
    (bits s i (j :: rest)).evaluate held = some (.vector (pick x (i :: j :: rest))) := by
  -- the left operand is one bit first, and a vector from then on
  induction rest generalizing i j with
  | nil =>
    rw [bits, bits, evaluate, evaluate_bit hs hi, evaluate_bit hs hj]
    exact congrArg some (Datum.join_bits _ _)
  | cons k rest ih =>
    rw [List.forall_mem_cons] at hrest
    rw [bits, evaluate, ih hj hrest.1 hrest.2, evaluate_bit hs hi]
    exact congrArg some (Datum.join_bit _ _)

/-- A rearranged vector denotes its bits in the order. -/
theorem evaluate_select (o : BitOrder) (hs : held s = some (.vector x)) (hn : n = o.size) :
    (select o s).evaluate held = some (.vector (pick x o.bits)) := by
  have hlt : ∀ b ∈ o.bits, b < n := hn ▸ o.lt_length
  unfold select
  split
  · next h =>
    -- without entries the vector itself stands in the text; it has no bits
    have hzero : n = 0 := by rw [hn, BitOrder.size, h, List.length_nil]
    subst hzero
    rw [evaluate, hs, h, pick, BitVec.eq_nil x]
  · next i h =>
    rw [h, List.forall_mem_cons] at hlt
    rw [evaluate, evaluate_bit hs hlt.1, h]
    exact Datum.alone_bit _
  · next i rest hrest h =>
    rw [h, List.forall_mem_cons] at hlt
    cases rest with
    | nil => exact (hrest rfl).elim
    | cons j rest =>
      rw [List.forall_mem_cons] at hlt
      rw [h, evaluate_bits hs hlt.1 hlt.2.1 hlt.2.2]

/-- As a number, it has been permuted. -/
theorem exists_evaluate_select (o : BitOrder) {x : BitVec o.size}
    (hs : held s = some (.vector x)) :
    ∃ v : BitVec o.size, (select o s).evaluate held = some (.vector v) ∧
      v.toNat = o.apply x.toNat :=
  ⟨pick x o.bits, evaluate_select o hs rfl, toNat_pick x o.bits⟩

theorem indices_bits (v : String) (i : Nat) (rest : List Nat) :
    (bits v i rest).indices = ((i :: rest).map fun j => (v, j)).reverse := by
  induction rest generalizing i with
  | nil => rfl
  | cons j rest ih =>
    simp only [bits, indices, ih, List.map_cons, List.reverse_cons]

/-- The bits of a rearranged vector stand in the text from the last entry to the first. -/
theorem indices_select (o : BitOrder) (v : String) :
    (select o v).indices = (o.bits.map fun i => (v, i)).reverse := by
  unfold select
  split
  · next h => rw [h]; rfl
  · next i h => rw [h]; rfl
  · next i rest _ h => rw [h, indices_bits]

theorem readOrder_select (o : BitOrder) (hs : IsName s) :
    readOrder (select o s).text = some o := by
  have hbits : ((select o s).indices.map Prod.snd).reverse = o.bits := by
    rw [indices_select, List.map_reverse, List.reverse_reverse, List.map_map]
    exact List.map_id' _
  rw [readOrder, readExpr_text (legible_select o hs)]
  change (BitOrder.ofList _).toOption = _
  rw [hbits, BitOrder.ofList_bits]
  rfl

/-- What the text of a vector rearranged by an order says. -/
structure Denotes (o : BitOrder) (s : String) : Prop where
  /-- The text is the expression and nothing else. -/
  read : readExpr (scan (select o s).text.toList) = some (select o s, [])
  index_lt : ∀ p ∈ (select o s).indices, p.1 = s ∧ p.2 < o.size
  /-- A vector with the low bits of an address becomes one with the permuted address. -/
  value : ∀ (held : String → Option Datum) (address : BitVec wordBits),
    held s = some (.vector (address.setWidth o.size)) →
      ∃ v : BitVec o.size, evaluateText held (select o s).text = some (.vector v) ∧
        o.applyWord address.toNat = .ok v.toNat ∧ o.applyLoop address = v.setWidth wordBits
  order : readOrder (select o s).text = some o
  determined : ∀ p : BitOrder, p.size = o.size → (select p s).text = (select o s).text → p = o

/-- The text of an order that is not longer than a word denotes what the order does. -/
theorem denotes_select {o : BitOrder} (ho : o.size ≤ wordBits) {s : String}
    (hs : isBasicIdentifier s = true) : Denotes o s where
  read := readExpr_text (legible_select o (isName_of_isBasicIdentifier hs))
  index_lt _ := mem_indices_select
  value := by
    intro held address hheld
    obtain ⟨v, heval, hv⟩ := exists_evaluate_select o hheld
    -- the bits above the vector are those that the order drops
    rw [BitVec.toNat_setWidth, o.apply_mod] at hv
    refine ⟨v, ?_, ?_, ?_⟩
    · rw [evaluateText, readExpr_text (legible_select o (isName_of_isBasicIdentifier hs))]
      exact heval
    · rw [BitOrder.applyWord, if_pos ho, hv]
    · apply BitVec.eq_of_toNat_eq
      rw [o.toNat_applyLoop ho, BitVec.toNat_setWidth_of_le ho, hv]
  order := readOrder_select o (isName_of_isBasicIdentifier hs)
  determined p _ htext := by
    have hread := readOrder_select p (isName_of_isBasicIdentifier hs)
    rw [htext, readOrder_select o (isName_of_isBasicIdentifier hs)] at hread
    exact (Option.some.inj hread).symm

/-- Three bits turned by one place, an order that does not undo itself. -/
def turn : BitOrder := BitOrder.ofEntries [1, 2, 0] (by decide)

/-- Of address 22 the vector holds `110`; the lowest bit goes to the top, and the others one place down. -/
theorem denotes_select_turn :
    turn.size ≤ wordBits ∧ isBasicIdentifier "addr" = true ∧ Denotes turn "addr" ∧
      (select turn "addr").text = "addr(0) & addr(2) & addr(1)" ∧
      ∃ v : BitVec turn.size,
        evaluateText (fun _ => some (.vector 6#3)) "addr(0) & addr(2) & addr(1)" = some (.vector v) ∧
          turn.applyWord 22 = .ok v.toNat ∧ v.toNat = 3 := by
  have ho : turn.size ≤ wordBits := by decide
  have hs : isBasicIdentifier "addr" = true := by decide
  have hdenotes := denotes_select ho hs
  have htext : (select turn "addr").text = "addr(0) & addr(2) & addr(1)" := by decide
  obtain ⟨v, heval, hword, -⟩ :=
    hdenotes.value (fun _ => some (.vector 6#3)) (BitVec.ofNat wordBits 22) rfl
  have happly : turn.applyWord 22 = .ok 3 := by decide
  have hvalue : v.toNat = 3 := Except.ok.inj (hword.symm.trans happly)
  exact ⟨ho, hs, hdenotes, htext, v, htext ▸ heval, hword, hvalue⟩

end Expr
end StreamingFft.Vhdl
