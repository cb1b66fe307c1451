import JvmCalls.Proofs.Flow.Dominance

/-! What a finished analysis tells about the exit of a method. It answers
for every instruction, dead ones and those of methods that never return
included, and the answer is yes exactly for the instructions that no path to
the exit leaves out. -/
namespace JvmCalls

namespace Dominators

variable {d d' : Dominators} {signature : MethodSignature} {c : Code}

/-- The answer about an instruction of the code is read off the set of the
exit. -/
theorem dominatesExit_of_method (hMethod : d.method? = some signature) {a : Address} {k : Nat}
    (hIndex : (FlowNode.instr a).index d.results.addresses = .ok k) :
    d.dominatesExit a = .ok (match d.results.reachedSet .exit with
      | .ok s => s.contains k
      | .error _ => false) := by
  simp only [dominatesExit, table_of_method hMethod, bind, Except.bind]
  cases d.results.reachedSet .exit with
  | error e => rfl
  | ok s =>
      simp only [hIndex]
      rfl

/-- After a successful analysis no question about an instruction of the code
fails. -/
theorem dominatesExit_ok (hOk : (d.analyze signature c).value = (.ok (), d')) {a : Address}
    (ha : a ∈ c.addresses) : ∃ answer, d'.dominatesExit a = .ok answer := by
  obtain ⟨hMethod, hTable⟩ := analyze_ok hOk
  obtain ⟨k, hIndex⟩ := FlowNode.index_of_hasNode (show c.HasNode (.instr a) from ha)
  rw [← DominatorTable.addresses_of_ofCode hTable] at hIndex
  exact ⟨_, dominatesExit_of_method hMethod hIndex⟩

/-- The answer is yes if the exit can be reached and no path to it leaves
the instruction out. -/
theorem dominatesExit_eq_true_iff (hIncreasing : c.addresses.Pairwise (· < ·))
    (hOk : (d.analyze signature c).value = (.ok (), d')) {a : Address} (ha : a ∈ c.addresses) :
    d'.dominatesExit a = .ok true ↔
      FlowReachable c d.ignoreExceptions .exit ∧
        FlowDominates c d.ignoreExceptions (.instr a) .exit := by
  have hNodup : c.addresses.Nodup := hIncreasing.imp Address.ne_of_lt
  obtain ⟨hMethod, hTable⟩ := analyze_ok hOk
  obtain ⟨k, hIndex⟩ := FlowNode.index_of_hasNode (show c.HasNode (.instr a) from ha)
  have hReached := DominatorTable.reachedSet_ok_iff_reachable hNodup hTable .exit
  rw [dominatesExit_of_method hMethod (DominatorTable.addresses_of_ofCode hTable ▸ hIndex),
    ← hReached]
  cases hSet : d'.results.reachedSet .exit with
  | error e => simp
  | ok s =>
      have hContains := DominatorTable.contains_reachedSet_iff_dominates hNodup hTable hSet hIndex
      simp [hContains]

end Dominators

end JvmCalls
