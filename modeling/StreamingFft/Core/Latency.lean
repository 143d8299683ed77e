import StreamingFft.Core.Basic
/-!
Latencies as words. A tree may be built although its latency is no word, but nothing that states
the latency can be written. The latency of a node is at most that of its parent, so it is enough to
look at the root.
-/
namespace StreamingFft.Core

/-- Whether a word can hold the latency. -/
def isTimed (c : Core) : Bool := decide (c.delay ≤ maxWord)

/-- What `state` says about a core whose latency is a word. -/
def timed {α : Type} (c : Core) (state : Core → α) : Except Fault α :=
  if c.isTimed then .ok (state c) else .error (.overflow .latency)

/-- What is said about a core is said with a latency that is a word. -/
theorem timed_eq_ok_iff {α : Type} {c : Core} {state : Core → α} {x : α} :
    c.timed state = .ok x ↔ c.delay ≤ maxWord ∧ state c = x := by
  rw [timed, isTimed, ite_eq_ok_iff, decide_eq_true_iff, Except.ok.injEq]

theorem delay_le_of_mem_children {c d : Core} (h : d ∈ c.children) : d.delay ≤ c.delay := by
  cases c with
  | leaf l => cases h
  | fourStep s sub1 sub2 =>
    simp only [children, List.mem_cons, List.not_mem_nil, or_false] at h
    rcases h with rfl | rfl <;> simp only [delay] <;> omega
  | radix4 s stageDelay sub1 =>
    simp only [children, List.mem_singleton] at h
    subst h
    simp only [delay]
    omega

/-- Below a core whose latency is a word, all latencies are. -/
theorem isTimed_of_mem_children {c d : Core} (h : d ∈ c.children) (hc : c.isTimed = true) :
    d.isTimed = true := by
  simp only [isTimed, decide_eq_true_eq] at hc ⊢
  exact Nat.le_trans (delay_le_of_mem_children h) hc

end StreamingFft.Core
