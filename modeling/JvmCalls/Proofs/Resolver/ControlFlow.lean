import JvmCalls.Proofs.Flow.Exit
import JvmCalls.Proofs.Resolver.Events
import JvmCalls.Proofs.Resolver.Visit
import Mathlib

/-! What it means that a call depends on control flow. The calls of an
instruction all carry the same answer, which depends on the flow graph of
the method and not on the methods that were visited before it. -/
namespace JvmCalls

/-- What the calls of an invocation have in common, whatever they go to. The
flag is one for the instruction and not for the target. -/
structure Invocation.Makes (r : Resolver) (i : Invocation) (c : Call) : Prop where
  caller : c.caller = i.location
  instr : c.instr = i.instr
  dependent : c.controlFlowDependent =
    (r.isControlFlowDependent i.facts i.location.address).value

/-- The invocation at an instruction of a method. -/
def PlacedInstr.invocation (p : PlacedInstr) (owner : ClassFile) (signature : MethodSignature)
    (code : Code) (facts : MethodFacts) : Invocation :=
  ⟨owner, facts, ⟨signature, p.address, code.lineAt? p.address⟩, p.instr⟩

namespace Resolver

variable {r : Resolver} {i : Invocation} {c : Call}

/-- A call names its invocation and carries its answer. -/
theorem makes_of_mem_call {s : MethodSignature} {nullness : Nullness} {dependent : Bool}
    {operands : Operands} (h : c ∈ (r.call i s nullness dependent operands).value) :
    i.Makes r c := by
  unfold call at h
  split at h
  · cases h
  · obtain rfl := List.mem_singleton.mp h
    exact ⟨rfl, rfl, rfl⟩

/-- However the targets of an invocation are found, its calls are all made
in one way. -/
theorem mem_call_of_mem_invocationCalls {kind : InvokeKind} {index : PoolIndex}
    (h : c ∈ (r.invocationCalls i kind index).value) :
    ∃ s nullness dependent operands, c ∈ (r.call i s nullness dependent operands).value := by
  have hReference (ref : MethodRef) (d : MethodDescriptor)
      (hMem : c ∈ (r.referenceCalls i kind ref d).value) :
      ∃ s nullness dependent operands, c ∈ (r.call i s nullness dependent operands).value := by
    rw [referenceCalls, Traced.value_bind, Traced.value_gather] at hMem
    obtain ⟨t, -, hCall⟩ := List.mem_flatMap.mp hMem
    exact ⟨_, _, _, _, hCall⟩
  unfold invocationCalls at h
  split at h
  · split at h
    · exact ⟨_, _, _, _, h⟩
    · exact ⟨_, _, _, _, h⟩
  · split at h
    · exact hReference _ _ h
    · exact ⟨_, _, _, _, h⟩

/-- All calls of an invocation do, whatever kind it is and wherever they
go. -/
theorem makes_of_mem_invocationCalls {kind : InvokeKind} {index : PoolIndex}
    (h : c ∈ (r.invocationCalls i kind index).value) : i.Makes r c := by
  obtain ⟨s, nullness, dependent, operands, hCall⟩ := mem_call_of_mem_invocationCalls h
  exact makes_of_mem_call hCall

variable {owner : ClassFile} {signature : MethodSignature} {code : Code} {facts : MethodFacts}
  {p : PlacedInstr}

/-- Leaving out values changes nothing that the calls of an invocation have
in common. -/
theorem makes_of_mem_callsOfInstr
    (h : c ∈ (r.callsOfInstr owner signature code facts p).value) :
    (p.invocation owner signature code facts).Makes r c := by
  unfold callsOfInstr at h
  split at h
  · cases h
  · rw [Traced.value_bind, Traced.value_gather] at h
    obtain ⟨made, hMade, hShown⟩ := List.mem_flatMap.mp h
    obtain ⟨hCaller, hInstr, hDependent⟩ := makes_of_mem_invocationCalls hMade
    obtain rfl := List.mem_singleton.mp hShown
    split
    · exact ⟨hCaller, hInstr, hDependent⟩
    · exact ⟨hCaller, hInstr, hDependent⟩

/-- The events of an instruction are routine, but for those that show its
calls. -/
theorem event_of_callsOfInstr (hAnswers : facts.Answers p.address) {e : Event}
    (he : e ∈ (r.callsOfInstr owner signature code facts p).events) :
    e.IsRoutine ∨ ∃ visitor c, e = .notified visitor c ∧
      (p.invocation owner signature code facts).Makes r c := by
  unfold callsOfInstr at he
  split at he
  · cases he
  · rw [Traced.events_bind, Traced.events_gather, List.mem_append] at he
    cases he with
    | inl hMaking =>
        apply Or.inl
        exact routine_invocationCalls
          (i := p.invocation owner signature code facts) hAnswers _ _ e hMaking
    | inr hShowing =>
        obtain ⟨made, hMade, hShown⟩ := List.mem_flatMap.mp hShowing
        simp only [report, Traced.events_bind, Traced.events_pure, List.append_nil,
          List.mem_append] at hShown
        cases hShown with
        | inl hTrace => exact .inl (Traced.all_log.mpr (Event.isQuiet_trace _) e hTrace).routine
        | inr hVisitor =>
            obtain ⟨visitor, -, rfl⟩ := List.mem_map.mp hVisitor
            exact .inr ⟨visitor, made, rfl, makes_of_mem_invocationCalls hMade⟩

variable {m : MethodInfo} {asked : History}

/-- The dominators that are known of a method are those of an analysis of
its own. What was analysed before leaves no trace. -/
theorem dominators_facts :
    (r.facts owner m code).value.dominators =
      if r.options.useDominatorAnalysis then
        match (Dominators.analyze (.new r.options.ignoreExceptionEdges) (m.signature owner)
          code).value with
        | (.ok (), d) => some d
        | (.error _, _) => none
      else none := by
  simp only [facts, Traced.value_bind, Traced.value_pure, dominators]
  split
  · rw [Traced.value_bind]
    generalize (Dominators.analyze (.new r.options.ignoreExceptionEdges) (m.signature owner)
      code).value = analysis
    obtain ⟨outcome, d⟩ := analysis
    cases outcome with
    | ok => rfl
    | error e => rfl
  · rfl

/-- Every question about an instruction of the method is answered. Either
there is no analysis, or it succeeded and answers for all of the code. -/
theorem answers_facts (h : p ∈ code.instrs) :
    (r.facts owner m code).value.Answers p.address := by
  intro d hDominators
  rw [dominators_facts] at hDominators
  split at hDominators
  · split at hDominators
    · rename_i d' hOk
      obtain rfl : d' = d := Option.some.inj hDominators
      exact Dominators.dominatesExit_ok hOk (List.mem_map.mpr ⟨p, h, rfl⟩)
    · cases hDominators
  · cases hDominators

/-- A call that is shown to a visitor, or one that is kept, is made by an
invocation of the method. All other events are routine, but for the question
whether the method is admitted. -/
theorem event_of_callsOfMethod (hCode : m.code = some code) {e : Event}
    (he : e ∈ (r.callsOfMethod asked owner m).events) :
    e = .asked owner m ∨ e.IsRoutine ∨ ∃ visitor c, e = .notified visitor c ∧ ∃ p ∈ code.instrs,
      (p.invocation owner (m.signature owner) code (r.facts owner m code).value).Makes r c := by
  simp only [callsOfMethod, hCode, Traced.events_bind, List.mem_append] at he
  cases he with
  | inl hAsked => exact (isAdmitted_asks asked owner m e hAsked).imp_right fun h => .inl h.routine
  | inr hVisit =>
      apply Or.inr
      split at hVisit
      · simp only [Traced.events_bind, Traced.events_gather, List.mem_append] at hVisit
        rcases hVisit with hTrace | hFacts | hInstrs
        · exact .inl (Traced.all_log.mpr (Event.isQuiet_trace _) e hTrace).routine
        · exact .inl (quiet_facts owner m code e hFacts).routine
        · obtain ⟨p, hp, hInstr⟩ := List.mem_flatMap.mp hInstrs
          cases event_of_callsOfInstr (answers_facts hp) hInstr with
          | inl hRoutine => exact .inl hRoutine
          | inr hShown =>
              obtain ⟨visitor, c, rfl, hMakes⟩ := hShown
              exact .inr ⟨visitor, c, rfl, p, hp, hMakes⟩
      · cases hVisit

/-- The calls of a method are made by its instructions. -/
theorem makes_of_mem_callsOfMethod (hCode : m.code = some code)
    (h : c ∈ (r.callsOfMethod asked owner m).value) : ∃ p ∈ code.instrs,
      (p.invocation owner (m.signature owner) code (r.facts owner m code).value).Makes r c := by
  simp only [callsOfMethod, hCode, Traced.value_bind] at h
  split at h
  · simp only [Traced.value_bind, Traced.value_gather] at h
    obtain ⟨p, hp, hInstr⟩ := List.mem_flatMap.mp h
    exact ⟨p, hp, makes_of_mem_callsOfInstr hInstr⟩
  · cases h

/-- What the flag of a call at an address says, given how the analysis of
the code ended. Without an analysis the flag is never set, and after one
that failed it always is. -/
structure FlagMeans (r : Resolver) (code : Code) (outcome : Except FlowError Unit) (a : Address)
    (dependent : Bool) : Prop where
  unused : r.options.useDominatorAnalysis = false → dependent = false
  failed : r.options.useDominatorAnalysis = true → ∀ e, outcome = .error e → dependent = true
  analyzed : r.options.useDominatorAnalysis = true → outcome = .ok () →
    (dependent = false ↔
      FlowReachable code r.options.ignoreExceptionEdges .exit ∧
        FlowDominates code r.options.ignoreExceptionEdges (.instr a) .exit)

/-- The flag is read off the analysis of the method itself, as the
calculator has been used for this method last. -/
theorem flagMeans_isControlFlowDependent (hIncreasing : code.addresses.Pairwise (· < ·))
    (h : p ∈ code.instrs) :
    r.FlagMeans code (Dominators.analyze (.new r.options.ignoreExceptionEdges)
        (m.signature owner) code).value.1 p.address
      (r.isControlFlowDependent (r.facts owner m code).value p.address).value := by
  constructor
  · intro hUnused
    simp [isControlFlowDependent, hUnused]
  · intro hUsed e hFailed
    have hNone : (r.facts owner m code).value.dominators = none := by
      rw [dominators_facts, if_pos hUsed]
      split
      · rename_i d hOk
        rw [hOk] at hFailed
        cases hFailed
      · rfl
    simp [isControlFlowDependent, hUsed, hNone]
  · intro hUsed hSucceeded
    cases hAnalysis : (Dominators.analyze (.new r.options.ignoreExceptionEdges)
        (m.signature owner) code).value with
    | mk outcome d =>
        rw [hAnalysis] at hSucceeded
        cases hSucceeded
        have hMem : p.address ∈ code.addresses := List.mem_map.mpr ⟨p, h, rfl⟩
        have hSome : (r.facts owner m code).value.dominators = some d := by
          rw [dominators_facts, if_pos hUsed, hAnalysis]
        obtain ⟨answer, hAnswer⟩ := Dominators.dominatesExit_ok hAnalysis hMem
        have hExit := Dominators.dominatesExit_eq_true_iff hIncreasing hAnalysis hMem
        rw [Dominators.ignoreExceptions_new] at hExit
        rw [← hExit, hAnswer]
        simp [isControlFlowDependent, hUsed, hSome, hAnswer]

/-- The states that visits of methods leave a resolver in, whatever graphs
they add to. What holds of all of them holds at the start of any visit. -/
inductive Visited (r : Resolver) : ResolverState → Prop where
  | initial : Visited r r.initialState
  | visit {work : Resolution} (prior : Visited r work.state) (owner : ClassFile) (m : MethodInfo) :
      Visited r (r.visitMethod owner work m).value.state

/-- Every such state has the options of its resolver, by one visit after the
other. -/
theorem Visited.fits {s : ResolverState} (h : r.Visited s) : s.Fits r := by
  induction h with
  | initial => rfl
  | visit prior owner m ih => exact (visitMethod_adds owner _ m ih).state

end Resolver

/-- A visit shows a call to a visitor, or adds it to the graph. These are
the two ways in which a call gets out. -/
def Resolution.Reports (work : Resolution) (visit : Traced Resolution) (c : Call) : Prop :=
  (∃ visitor, .notified visitor c ∈ visit.events) ∨
    ∃ calls, visit.value.graph = work.graph.addAll calls ∧ c ∈ calls

/-- The calls that were added can be read off the graph. -/
theorem CallGraph.addAll_inj {g : CallGraph} {l k : List Call} (h : g.addAll l = g.addAll k) :
    l = k := by
  have hCalls := congrArg CallGraph.calls h
  rw [calls_addAll, calls_addAll] at hCalls
  exact List.append_cancel_left hCalls

namespace Resolver

/-- Whatever was visited before, a visit never finds the dominators of an
instruction unavailable, and the flag of each call that it reports says
whether the paths to the exit of the method may leave the instruction
out. -/
theorem visitMethod_flags {r : Resolver} {work : Resolution} (hVisited : r.Visited work.state)
    (owner : ClassFile) (m : MethodInfo) :
    (∀ a e, Event.unavailable a e ∉ (r.visitMethod owner work m).events) ∧
    ∀ code, m.code = some code → code.addresses.Pairwise (· < ·) →
      ∀ call, work.Reports (r.visitMethod owner work m) call →
        ∃ p ∈ code.instrs,
          call.caller = ⟨m.signature owner, p.address, code.lineAt? p.address⟩ ∧
          call.instr = p.instr ∧
          r.FlagMeans code (work.state.dominators.analyze (m.signature owner) code).value.1
            p.address call.controlFlowDependent := by
  have hFits := hVisited.fits
  have hVisit := visitMethod_adds owner work m hFits
  rw [hVisit.events]
  constructor
  · intro a e hEvent
    cases hCode : m.code with
    | none =>
        simp only [callsOfMethod, hCode] at hEvent
        cases hEvent
    | some code =>
        rcases event_of_callsOfMethod hCode hEvent with hAsked | hRoutine | hShown
        · cases hAsked
        · exact hRoutine.available a e rfl
        · obtain ⟨visitor, c, hSame, -⟩ := hShown
          cases hSame
  · intro code hCode hIncreasing call hReports
    have hMade : ∃ p ∈ code.instrs, (p.invocation owner (m.signature owner) code
        (r.facts owner m code).value).Makes r call := by
      cases hReports with
      | inl hSeen =>
          obtain ⟨visitor, hEvent⟩ := hSeen
          rw [hVisit.events] at hEvent
          rcases event_of_callsOfMethod hCode hEvent with hAsked | hRoutine | hShown
          · cases hAsked
          · exact False.elim (hRoutine.unseen visitor call rfl)
          · obtain ⟨_, _, hSame, hMade⟩ := hShown
            cases hSame
            exact hMade
      | inr hAdded =>
          obtain ⟨calls, hGraph, hMem⟩ := hAdded
          rw [hVisit.graph] at hGraph
          rw [← CallGraph.addAll_inj hGraph] at hMem
          exact makes_of_mem_callsOfMethod hCode hMem
    obtain ⟨p, hp, hCaller, hInstr, hDependent⟩ := hMade
    refine ⟨p, hp, hCaller, hInstr, ?_⟩
    rw [Dominators.analyze_eq, hFits, hDependent]
    exact flagMeans_isControlFlowDependent hIncreasing hp

end Resolver

/-- A call that is always made, and one that is never reached. -/
def deadCallCode : Code where
  maxStack := 0
  maxLocals := 0
  instrs := [⟨⟨0⟩, .invokeStatic 1⟩, ⟨⟨3⟩, .ret .void⟩, ⟨⟨4⟩, .invokeStatic 1⟩, ⟨⟨7⟩, .ret .void⟩]
  handlers := []
  lines := []

def deadCallMethod : MethodInfo := ⟨default, "f", "()V", some deadCallCode⟩

/-- The code of this method runs off its end, so that it has no
dominators. -/
def endlessMethod : MethodInfo :=
  ⟨default, "g", "()V", some ⟨0, 0, [⟨⟨0⟩, .invokeStatic 1⟩], [], []⟩⟩

def deadCallClass : ClassFile where
  flags := default
  name := "t/A"
  superclass := none
  interfaces := []
  constants := {}
  methods := [endlessMethod, deadCallMethod]

def deadCallResolver : Resolver where
  repository := {}
  options := { useDominatorAnalysis := true }

def deadCallAt (a : Address) (dependent : Bool) : Call where
  caller := ⟨deadCallMethod.signature deadCallClass, a, none⟩
  target := .symbolic .unknown
  instr := .invokeStatic 1
  nullness := .maybe
  controlFlowDependent := dependent

def deadCallTable : DominatorTable where
  addresses := [⟨0⟩, ⟨3⟩, ⟨4⟩, ⟨7⟩]
  sets := #[some ⟨17⟩, some ⟨19⟩, none, none, some ⟨16⟩, some ⟨51⟩]

theorem deadCallCode_sets :
    (DominatorTable.ofCode deadCallCode true).value = .ok deadCallTable := by
  have hFirst : DominatorWork.visit deadCallCode true ⟨⟨0⟩, .invokeStatic 1⟩ 0
      ⟨#[some ⟨17⟩, none, none, none, some ⟨16⟩, none], []⟩ =
      .ok ⟨#[some ⟨17⟩, some ⟨19⟩, none, none, some ⟨16⟩, none], [⟨3⟩]⟩ := by
    have hSuccessors : deadCallCode.successors ⟨⟨0⟩, .invokeStatic 1⟩ =
        .ok [(.sequence, some ⟨3⟩)] := rfl
    rw [DominatorWork.visit, hSuccessors]
    cbv
  have hSecond : DominatorWork.visit deadCallCode true ⟨⟨3⟩, .ret .void⟩ 1
      ⟨#[some ⟨17⟩, some ⟨19⟩, none, none, some ⟨16⟩, none], []⟩ =
      .ok ⟨deadCallTable.sets, []⟩ := by cbv
  have hRun : (DominatorWork.run deadCallCode true
      ⟨#[some ⟨17⟩, none, none, none, some ⟨16⟩, none], [⟨0⟩]⟩).value =
      .ok deadCallTable.sets := by
    rw [DominatorWork.run_cons rfl rfl hFirst, DominatorWork.run_cons rfl rfl hSecond,
      DominatorWork.run]
  have hStart : DominatorWork.start deadCallCode true =
      .ok ⟨#[some ⟨17⟩, none, none, none, some ⟨16⟩, none], [⟨0⟩]⟩ := by cbv
  simp only [DominatorTable.ofCode, hStart, Traced.value_bind, hRun, Except.map, Traced.value_pure]
  rfl

theorem deadCallCode_analyze {d : Dominators} (h : d.ignoreExceptions = true)
    (signature : MethodSignature) :
    (d.analyze signature deadCallCode).value =
      (.ok (), ⟨true, some signature, deadCallTable⟩) := by
  simp [Dominators.analyze, h, deadCallCode_sets]

theorem deadCallMethod_calls (asked : History) :
    (deadCallResolver.callsOfMethod asked deadCallClass deadCallMethod).value =
      [deadCallAt ⟨0⟩ false, deadCallAt ⟨4⟩ true] := by
  have hCalls : (deadCallResolver.callsOfMethod asked deadCallClass deadCallMethod).value =
      [⟨0⟩, ⟨4⟩].map fun a => deadCallAt a (deadCallResolver.isControlFlowDependent
        (deadCallResolver.facts deadCallClass deadCallMethod deadCallCode).value a).value := rfl
  have hDominators :
      (deadCallResolver.facts deadCallClass deadCallMethod deadCallCode).value.dominators =
        some ⟨true, some (deadCallMethod.signature deadCallClass), deadCallTable⟩ := by
    rw [Resolver.dominators_facts, deadCallCode_analyze rfl]
    rfl
  simp only [hCalls, Resolver.isControlFlowDependent, hDominators]
  rfl

/-- What is left of a visit to the method that runs off its end. -/
def deadCallWork : Resolution :=
  (deadCallResolver.visitMethod deadCallClass ⟨deadCallResolver.initialState, .empty⟩
    endlessMethod).value

/-- The call that is always made does not depend on control flow, the one
that is never reached does. -/
theorem deadCall_flags :
    deadCallResolver.Visited deadCallWork.state ∧ deadCallCode.addresses.Pairwise (· < ·) ∧
      deadCallWork.Reports (deadCallResolver.visitMethod deadCallClass deadCallWork deadCallMethod)
        (deadCallAt ⟨0⟩ false) ∧
      deadCallWork.Reports (deadCallResolver.visitMethod deadCallClass deadCallWork deadCallMethod)
        (deadCallAt ⟨4⟩ true) ∧
      FlowDominates deadCallCode true (.instr ⟨0⟩) .exit ∧
      ¬ FlowDominates deadCallCode true (.instr ⟨4⟩) .exit := by
  have hVisited : deadCallResolver.Visited deadCallWork.state := .visit .initial _ _
  have hIncreasing : deadCallCode.addresses.Pairwise (· < ·) := by decide
  have hReports (c : Call) (hMem : c ∈ [deadCallAt ⟨0⟩ false, deadCallAt ⟨4⟩ true]) :
      deadCallWork.Reports
        (deadCallResolver.visitMethod deadCallClass deadCallWork deadCallMethod) c := by
    have hGraph := (Resolver.visitMethod_adds deadCallClass deadCallWork deadCallMethod
      hVisited.fits).graph
    rw [deadCallMethod_calls] at hGraph
    exact .inr ⟨_, hGraph, hMem⟩
  have hFlags := (Resolver.visitMethod_flags hVisited deadCallClass deadCallMethod).2
    deadCallCode rfl hIncreasing
  have hSucceeded := congrArg Prod.fst (deadCallCode_analyze
    (show deadCallWork.state.dominators.ignoreExceptions = true from hVisited.fits)
    (deadCallMethod.signature deadCallClass))
  have hLive := hReports (deadCallAt ⟨0⟩ false) (by simp)
  have hDead := hReports (deadCallAt ⟨4⟩ true) (by simp)
  obtain ⟨p, -, hLiveCaller, -, hLiveMeans⟩ := hFlags _ hLive
  rw [show p.address = ⟨0⟩ from (congrArg CodeLocation.address hLiveCaller).symm] at hLiveMeans
  obtain ⟨q, -, hDeadCaller, -, hDeadMeans⟩ := hFlags _ hDead
  rw [show q.address = ⟨4⟩ from (congrArg CodeLocation.address hDeadCaller).symm] at hDeadMeans
  have hPaths := (hLiveMeans.analyzed rfl hSucceeded).mp rfl
  refine ⟨hVisited, hIncreasing, hLive, hDead, hPaths.2, ?_⟩
  intro hDominates
  cases (hDeadMeans.analyzed rfl hSucceeded).mpr ⟨hPaths.1, hDominates⟩

end JvmCalls
