import StreamingFft.Core.Architecture
import StreamingFft.Proofs.Reordering.Network
import StreamingFft.Proofs.Vhdl.Identifier
import StreamingFft.Proofs.Vhdl.Instances
/-!
What is read from the text of an architecture: the assignments among its statements and nothing else,
as long as the names that the caller chose are identifiers.
-/
namespace StreamingFft
open Vhdl

variable {id id1 id2 : String}

theorem TwiddleSource.readable_body (hid : id.toList.all isWordChar = true) (n : Nat)
    (source : TwiddleSource) : ∀ s ∈ source.body id n, s.Readable := by
  have hplain := plain_of_isWordChar hid
  refine List.forall_mem_cons.2 ⟨trivial, ?_⟩
  cases source with
  | table =>
    refine List.forall_mem_cons.2 ⟨?_, by simp⟩
    apply Statement.readable_instantiate
    · simp +decide [hplain]
    · exact plain_append.2 ⟨by decide, plain_repr n⟩
    · simp
    · simp +decide [hplain]
  | rom =>
    refine List.forall_mem_cons.2 ⟨?_, List.forall_mem_cons.2 ⟨?_, by simp⟩⟩
    · apply Statement.readable_instantiate
      · simp +decide [hplain]
      · exact (by decide : Plain "twiddleGenerator")
      · simp +decide [hplain]
      · simp +decide [hplain]
    · apply Statement.readable_instantiate
      · simp +decide [hplain]
      · exact plain_append.2 ⟨by decide, plain_repr n⟩
      · simp
      · simp +decide [hplain]

theorem InputBuffer.readable_body (b : InputBuffer) (hid : id.toList.all isWordChar = true)
    (hsub : id2.toList.all isWordChar = true) (subOrder : Nat) :
    ∀ s ∈ b.body id id2 subOrder, s.Readable := by
  have hplain := plain_of_isWordChar hid
  have hplain2 := plain_of_isWordChar hsub
  have htap : ∀ i, Plain (PermutationNetwork.tap id i) := fun i =>
    plain_of_isWordChar (PermutationNetwork.isName_tap hid i).word
  have hcounter : Plain (b.network.counterSignal id) :=
    plain_of_isWordChar (b.network.isName_counterSignal hid).word
  refine List.forall_mem_append.2 ⟨b.network.readable_body hid, ?_⟩
  simp only [List.forall_mem_cons]
  refine ⟨trivial, ?_, trivial, ?_, by simp⟩
  · apply Statement.readable_instantiate
    · simp +decide [hplain, inst]
    · exact (by decide : Plain "reorderBuffer")
    · simp +decide [inst]
    · have hin : Plain (b.network.inputSignal id) := htap _
      have hout : Plain (b.network.outputSignal id) := htap _
      simp +decide [hplain, hplain2, hin, hout, hcounter, inst]
  · exact ⟨IsName.append hsub (by decide), IsName.append hid (by decide)⟩

namespace Core

theorem readable_bufferBody (s : Stage) (hid : id.toList.all isWordChar = true)
    (hsub : id2.toList.all isWordChar = true) (subOrder : Nat) :
    ∀ st ∈ bufferBody s id id2 subOrder, st.Readable := by
  unfold bufferBody
  split
  · simp
  · next b _ => exact b.readable_body hid hsub subOrder

theorem readable_delayedPhase {target source : String} (ht : IsName target) (hs : IsName source)
    (delay : Nat) : (delayedPhase target source delay).Readable :=
  ⟨ht, hs⟩

theorem isName_productPhase (s : Stage) (hid : id.toList.all isWordChar = true)
    (hsub : id2.toList.all isWordChar = true) : IsName (productPhase s id id2) := by
  unfold productPhase
  split
  · exact IsName.append hsub (by decide)
  · exact IsName.append hid (by decide)

theorem plain_productSignal (s : Stage) (hid : id.toList.all isWordChar = true)
    (hsub : id2.toList.all isWordChar = true) : Plain (productSignal s id id2) := by
  unfold productSignal
  split
  · exact plain_append.2 ⟨plain_of_isWordChar hsub, by decide⟩
  · exact plain_append.2 ⟨plain_of_isWordChar hid, by decide⟩

theorem readable_addressGenerator (hid : id.toList.all isWordChar = true) (order1 order2 : Nat)
    {phase : String} (hphase : Plain phase) :
    (Statement.instantiate (addressGenerator id order1 order2 phase)).Readable := by
  have hplain := plain_of_isWordChar hid
  apply Statement.readable_instantiate
  · simp +decide [hplain, addressGenerator]
  · exact (by decide : Plain "twiddleAddrGen")
  · simp +decide [hplain, addressGenerator]
  · simp +decide [hplain, hphase, addressGenerator]

theorem readable_twiddleMultiplier (hid : id.toList.all isWordChar = true) {m : Multiplier}
    (hm : Plain m.entity) {data result : String} (hdata : Plain data) (hresult : Plain result) :
    (Statement.instantiate (twiddleMultiplier id m data result)).Readable := by
  have hplain := plain_of_isWordChar hid
  apply Statement.readable_instantiate
  · simp +decide [hplain, twiddleMultiplier]
  · exact hm
  · simp +decide [hplain, twiddleMultiplier]
  · simp +decide [hplain, hdata, hresult, twiddleMultiplier]

theorem readable_transposer (hid : id.toList.all isWordChar = true) {source : String}
    (hsource : Plain source) (order1 order2 : Nat) :
    (Statement.instantiate (transposer id source order1 order2)).Readable := by
  have hplain := plain_of_isWordChar hid
  apply Statement.readable_instantiate
  · simp +decide [hplain, transposer]
  · exact (by decide : Plain "transposer")
  · simp +decide [transposer]
  · simp +decide [hplain, hsource, transposer]

theorem readable_radix4Instance (hid : id.toList.all isWordChar = true) (order : Nat) :
    (Statement.instantiate (radix4Instance id order)).Readable := by
  have hplain := plain_of_isWordChar hid
  apply Statement.readable_instantiate
  · simp +decide [hplain, radix4Instance]
  · exact (by decide : Plain radix4Entity)
  · simp +decide [radix4Instance]
  · simp +decide [hplain, radix4Instance]

theorem readable_fourStepBody {s : Stage} (hm : Plain s.multiplier.entity) (sub1 sub2 : Core)
    (hid : id.toList.all isWordChar = true) (hid1 : id1.toList.all isWordChar = true)
    (hid2 : id2.toList.all isWordChar = true) :
    ∀ st ∈ fourStepBody s sub1 sub2 id id1 id2, st.Readable := by
  have hplain := plain_of_isWordChar hid
  have hname : ∀ suffix, IsName suffix → IsName (id ++ suffix) := fun _ => IsName.append hid
  have hname1 : ∀ suffix, IsName suffix → IsName (id1 ++ suffix) := fun _ => IsName.append hid1
  have hph1 := hname "ph1" (by decide)
  have hph2 := hname "ph2" (by decide)
  have hph3 := hname "ph3" (by decide)
  have hphase := hname "phase" (by decide)
  have hbitPermIn := hname "bitPermIn" (by decide)
  have hdout2 : IsName (id2 ++ "dout") := IsName.append hid2 (by decide)
  have htransposer := readable_transposer hid (plain_of_isWordChar hid1) sub1.order sub2.order
  have hgenerator := readable_addressGenerator hid sub1.order sub2.order
    (plain_of_isWordChar hph2.word)
  have htranspOut : Plain (id ++ "transpOut") := plain_append.2 ⟨hplain, by decide⟩
  have hmultiplier := readable_twiddleMultiplier hid hm htranspOut (plain_productSignal s hid hid2)
  refine List.forall_mem_append.2 ⟨List.forall_mem_append.2 ⟨?_, ?_⟩, ?_⟩
  · simp only [List.forall_mem_cons]
    refine ⟨trivial, ⟨hname1 "din" (by decide), hname "din" (by decide)⟩,
      ⟨hname1 "phase" (by decide), hphase⟩, trivial, readable_delayedPhase hph1 hphase _, trivial,
      htransposer, trivial, ⟨hph2, hph1⟩, trivial, hgenerator, trivial, hmultiplier, trivial,
      readable_delayedPhase hph3 hph2 _, ⟨isName_productPhase s hid hid2, hph3⟩,
      ⟨hname "dout" (by decide), hdout2⟩,
      ⟨hname "bitPermOut" (by decide), Expr.legible_select _ hbitPermIn⟩, by simp⟩
  · exact s.twiddleSource.readable_body hid s.size
  · exact readable_bufferBody s hid hid2 sub2.order

theorem readable_radix4Body {s : Stage} (hm : Plain s.multiplier.entity) (stageDelay : Nat)
    (sub1 : Core) (hid : id.toList.all isWordChar = true)
    (hid1 : id1.toList.all isWordChar = true) :
    ∀ st ∈ radix4Body s stageDelay sub1 id id1, st.Readable := by
  have hplain := plain_of_isWordChar hid
  have hname : ∀ suffix, IsName suffix → IsName (id ++ suffix) := fun _ => IsName.append hid
  have hph1 := hname "ph1" (by decide)
  have hph2 := hname "ph2" (by decide)
  have hphase := hname "phase" (by decide)
  have hbitPermIn := hname "bitPermIn" (by decide)
  have hdout1 : IsName (id1 ++ "dout") := IsName.append hid1 (by decide)
  have hgenerator := readable_addressGenerator hid 2 sub1.order (plain_of_isWordChar hph1.word)
  have hspdfOut : Plain (id ++ "spdfOut") := plain_append.2 ⟨hplain, by decide⟩
  have hmultiplier := readable_twiddleMultiplier hid hm hspdfOut (plain_productSignal s hid hid1)
  refine List.forall_mem_append.2 ⟨List.forall_mem_append.2 ⟨?_, ?_⟩, ?_⟩
  · simp only [List.forall_mem_cons]
    refine ⟨trivial, readable_radix4Instance hid _, trivial, readable_delayedPhase hph1 hphase _,
      trivial, hgenerator, trivial, hmultiplier, trivial, readable_delayedPhase hph2 hph1 _,
      ⟨isName_productPhase s hid hid1, hph2⟩, trivial, ⟨hname "dout" (by decide), hdout1⟩, trivial,
      ⟨hname "bitPermOut" (by decide), Expr.legible_select _ hbitPermIn⟩, by simp⟩
  · exact s.twiddleSource.readable_body hid s.size
  · exact readable_bufferBody s hid hid1 sub1.order

end Core

namespace Architecture
open Token

theorem startsInWord_slots (slots : List Slot) :
    startsInWord (String.join (slots.map fun s => "\n" ++ Text.indent 1 s.inst.text)).toList =
      false := by
  cases slots with
  | nil => rfl
  | cons s rest =>
    rw [List.map_cons, String.join_cons, String.toList_append, String.toList_append]
    rfl

theorem scan_slots (slots : List Slot) :
    scan (String.join (slots.map fun s => "\n" ++ Text.indent 1 s.inst.text)).toList =
      slots.flatMap fun s => scan (Statement.instantiate s.inst).text.toList := by
  have hline : scan "\n".toList = [] := by decide
  induction slots with
  | nil => rfl
  | cons s rest ih =>
    rw [List.map_cons, String.join_cons, String.toList_append, String.toList_append,
      scan_append (Or.inr (startsInWord_slots rest)), scan_append (Or.inl (by decide)), hline, ih,
      scan_indent, List.flatMap_cons]
    rfl

/-- All statements of an architecture, with the instances of its sub-cores. -/
def statements (a : Architecture) : List Statement :=
  a.body ++ a.slots.map fun s => .instantiate s.inst

theorem scan_bodyText (a : Architecture) :
    scan a.bodyText.toList = scan (Statement.listText a.statements).toList := by
  rw [bodyText, String.toList_append, scan_append (Or.inr (startsInWord_slots a.slots)), scan_slots,
    scan_indent, Statement.listText, Statement.listText, scan_join_lines, scan_join_lines,
    statements, List.flatMap_append, List.flatMap_map]

theorem readAssignments_bodyText {a : Architecture} (h : ∀ st ∈ a.statements, st.Readable) :
    readAssignments a.bodyText = a.body.filter Statement.isAssignment := by
  have hslots : (a.slots.map fun s => Statement.instantiate s.inst).filter Statement.isAssignment =
      [] := by
    rw [List.filter_eq_nil_iff]
    intro st hst
    obtain ⟨s, _, rfl⟩ := List.mem_map.1 hst
    exact Bool.false_ne_true
  have hread := Statement.readAssignments_listText h
  rw [readAssignments, ← scan_bodyText] at hread
  rw [readAssignments, hread, statements, List.filter_append, hslots, List.append_nil]

end Architecture
end StreamingFft
