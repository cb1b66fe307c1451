import JvmCalls.Resolver.Visit

/-! Nothing leaks from one method into the next. A resolver that keeps its
state from visit to visit finds the calls that the stateless account of a
method gives, with the same events, whatever it visited before. -/
namespace JvmCalls

/-- The state is one of this resolver: its calculator follows exceptions as
the options say. All else in it may be left over from any method. This is
the invariant of all visits. -/
def ResolverState.Fits (r : Resolver) (s : ResolverState) : Prop :=
  s.dominators.ignoreExceptions = r.options.ignoreExceptionEdges

namespace History

variable {α β : Type} {questions : α → History}

/-- Going along a history leaves out no item. -/
theorem map_snd_along (asked : History) (l : List α) :
    (along questions asked l).map Prod.snd = l := by
  induction l generalizing asked with
  | nil => rfl
  | cons a rest ih => rw [along, List.map_cons, ih]

theorem snd_mem_of_mem_along {asked : History} {l : List α} {x : History × α}
    (h : x ∈ along questions asked l) : x.2 ∈ l := by
  have hSnd := List.mem_map_of_mem (f := Prod.snd) h
  rwa [map_snd_along] at hSnd

/-- What does not ask for the history is listed as if there was none. -/
theorem flatMap_along (asked : History) (l : List α) (f : α → List β) :
    (along questions asked l).flatMap (fun x => f x.2) = l.flatMap f := by
  rw [← List.flatMap_map, map_snd_along]

/-- What does not ask for the history is gathered as if there was none. -/
theorem gather_along (asked : History) (l : List α) (f : α → Traced (List β)) :
    Traced.gather (along questions asked l) (fun x => f x.2) = Traced.gather l f := by
  have hMap : (along questions asked l).map (fun x => f x.2) = l.map f := by
    rw [← Function.comp_def, ← List.map_map, map_snd_along]
  rw [Traced.gather, hMap, Traced.gather]

end History

/-- A visit did nothing but to raise these questions and to add these calls,
and it ended in a state of the given kind. It is the specification of one
visit, of an instruction as well as of a repository. -/
structure Resolution.Adds (kind : ResolverState → Prop) (questions : History) (work : Resolution)
    (calls : Traced (List Call)) (visited : Traced Resolution) : Prop where
  state : kind visited.value.state
  asked : visited.value.state.asked = work.state.asked ++ questions
  graph : visited.value.graph = work.graph.addAll calls.value
  events : visited.events = calls.events

theorem Resolution.Adds.refl {kind : ResolverState → Prop} {work : Resolution}
    (h : kind work.state) : work.Adds kind [] (pure []) (pure work) :=
  ⟨h, (List.append_nil _).symm, rfl, rfl⟩

/-- Visits one after the other add the calls of all of them, each in the
history that the ones before it have left, if every state in between is of
the kind that the next visit needs. -/
theorem Resolution.Adds.foldlM {α : Type} (kind : ResolverState → Prop)
    (questions : α → History) (calls : History → α → Traced (List Call))
    {visit : Resolution → α → Traced Resolution}
    (hVisit : ∀ (work : Resolution) a, kind work.state →
      work.Adds kind (questions a) (calls work.state.asked a) (visit work a))
    (l : List α) (work : Resolution) (hKind : kind work.state) :
    work.Adds kind (l.flatMap questions)
      (Traced.gather (History.along questions work.state.asked l) fun x => calls x.1 x.2)
      (l.foldlM visit work) := by
  induction l generalizing work with
  | nil => exact .refl hKind
  | cons a rest ih =>
      have hFirst := hVisit work a hKind
      have hRest := ih (visit work a).value hFirst.state
      rw [hFirst.asked] at hRest
      rw [List.foldlM_cons, List.flatMap_cons, History.along]
      refine ⟨hRest.state, ?_, ?_, ?_⟩
      · rw [Traced.value_bind, hRest.asked, hFirst.asked, List.append_assoc]
      · rw [Traced.value_bind, hRest.graph, hFirst.graph, ← CallGraph.addAll_append]
        simp [Traced.value_gather]
      · rw [Traced.events_bind, hRest.events, hFirst.events]
        simp [Traced.events_gather]

/-- The calculator keeps nothing of an earlier analysis but how it follows
exceptions. So it may be used again and again. -/
theorem Dominators.analyze_eq (d : Dominators) (signature : MethodSignature) (c : Code) :
    d.analyze signature c = Dominators.analyze (.new d.ignoreExceptions) signature c :=
  rfl

theorem Dominators.ignoreExceptions_analyze (d : Dominators) (signature : MethodSignature)
    (c : Code) : (d.analyze signature c).value.2.ignoreExceptions = d.ignoreExceptions := by
  unfold analyze
  simp only [Traced.value_bind]
  split <;> rfl

namespace Resolver

variable {r : Resolver} {owner : ClassFile} {s : ResolverState}

/-- Entering a method finds out what the method alone determines, and asks
nothing. -/
theorem enter_facts (hFits : s.Fits r) (owner : ClassFile) (m : MethodInfo) (c : Code) :
    (r.enter owner m c s).value.facts = (r.facts owner m c).value ∧
      (r.enter owner m c s).events = (r.facts owner m c).events ∧
      (r.enter owner m c s).value.Fits r ∧ (r.enter owner m c s).value.asked = s.asked := by
  have hAnalyze : s.dominators.analyze (m.signature owner) c =
      Dominators.analyze (.new r.options.ignoreExceptionEdges) (m.signature owner) c := by
    rw [Dominators.analyze_eq, hFits]
  have hKept := s.dominators.ignoreExceptions_analyze (m.signature owner) c
  rw [hAnalyze, hFits] at hKept
  unfold enter facts dominators
  rw [hAnalyze]
  by_cases hUse : r.options.useDominatorAnalysis = true
  · simp only [hUse, if_true, Traced.value_bind, Traced.events_bind]
    -- Whether the analysis succeeds is the same on both sides, as are its dominators.
    generalize Dominators.analyze (.new r.options.ignoreExceptionEdges) (m.signature owner) c =
      analysis at hKept
    obtain ⟨⟨outcome, dominators⟩, events⟩ := analysis
    cases outcome with
    | ok => exact ⟨rfl, by simp, hKept, rfl⟩
    | error e => exact ⟨rfl, by simp, hKept, rfl⟩
  · simp only [hUse, Bool.false_eq_true, if_false, Traced.value_bind, Traced.events_bind]
    exact ⟨rfl, by simp, hFits, rfl⟩

/-- The instructions of a method are visited in the state that entering it
has left. -/
theorem visitInstr_adds (owner : ClassFile) (signature : MethodSignature) (code : Code)
    (work : Resolution) (p : PlacedInstr) (hState : work.state = s) :
    work.Adds (· = s) [] (r.callsOfInstr owner signature code s.facts p)
      (r.visitInstr owner signature code work p) := by
  subst hState
  exact ⟨rfl, (List.append_nil _).symm, rfl, by simp [visitInstr]⟩

/-- A visit of a method adds its calls, whatever was visited before. It has
a question where the method has code. -/
theorem visitMethod_adds (owner : ClassFile) (work : Resolution) (m : MethodInfo)
    (hFits : work.state.Fits r) :
    work.Adds (ResolverState.Fits r) (m.questions owner)
      (r.callsOfMethod work.state.asked owner m) (r.visitMethod owner work m) := by
  unfold visitMethod callsOfMethod MethodInfo.questions
  cases hCode : m.code with
  | none => exact .refl hFits
  | some code =>
      rw [if_pos Option.isSome_some]
      -- The history is longer by the method before it is entered, which leaves it as it is.
      generalize hState : ({ work.state with asked := work.state.asked ++ [(owner, m)] } :
        ResolverState) = state
      have hStateFits : state.Fits r := by
        subst hState
        exact hFits
      obtain ⟨hFacts, hEvents, hNewFits, hAsked⟩ := enter_facts hStateFits owner m code
      have hInstrs := Resolution.Adds.foldlM (· = (r.enter owner m code state).value) (fun _ => [])
        (fun _ => r.callsOfInstr owner (m.signature owner) code
          (r.enter owner m code state).value.facts)
        (visitInstr_adds owner (m.signature owner) code) code.instrs ⟨_, work.graph⟩ rfl
      rw [History.gather_along, hFacts] at hInstrs
      by_cases hAdmitted : (r.isAdmitted work.state.asked owner m).value = true
      · refine ⟨?_, ?_, ?_, ?_⟩
        · simp only [Traced.value_bind, hAdmitted, if_true]
          rw [hInstrs.state]
          exact hNewFits
        · simp only [Traced.value_bind, hAdmitted, if_true]
          rw [hInstrs.state, hAsked, ← hState]
        · simp only [Traced.value_bind, hAdmitted, if_true]
          exact hInstrs.graph
        · simp only [Traced.events_bind, hAdmitted, if_true, hEvents]
          rw [hInstrs.events]
      · refine ⟨?_, ?_, ?_, ?_⟩
        · simpa [hAdmitted] using hStateFits
        · simp [hAdmitted, ← hState]
        · simp [hAdmitted, CallGraph.addAll]
        · simp [hAdmitted]

/-- A visit of a class adds the calls of its methods, one after the
other. -/
theorem visitClass_adds (work : Resolution) (c : ClassFile) (hFits : work.state.Fits r) :
    work.Adds (ResolverState.Fits r) c.questions (r.callsOfClass work.state.asked c)
      (r.visitClass work c) := by
  have hMethods := Resolution.Adds.foldlM _ _ (fun asked m => r.callsOfMethod asked c m)
    (visitMethod_adds (r := r) c) c.methods work hFits
  exact ⟨hMethods.state, hMethods.asked, hMethods.graph,
    congrArg ((Traced.log .debug ("resolving calls of class " ++ c.name)).events ++ ·)
      hMethods.events⟩

/-- A visit of the repository adds the calls of its classes, one after the
other. -/
theorem visitAll_adds (work : Resolution) (hFits : work.state.Fits r) :
    work.Adds (ResolverState.Fits r) (r.classes.flatMap ClassFile.questions)
      (r.calls work.state.asked) (r.visitAll work) :=
  Resolution.Adds.foldlM _ _ r.callsOfClass visitClass_adds r.classes work hFits

/-- What the resolver was asked before has no part in which methods it
admits: there is no one to ask, or the answers are those of a test. -/
def Forgetful (r : Resolver) : Prop :=
  ∀ admits ∈ r.admits, ∀ asked asked' owner m, admits asked owner m = admits asked' owner m

/-- Such a hook admits a method or not, whatever came before. -/
theorem Forgetful.isAdmitted (h : r.Forgetful) (asked asked' : History) (owner : ClassFile)
    (m : MethodInfo) : r.isAdmitted asked owner m = r.isAdmitted asked' owner m := by
  unfold Resolver.isAdmitted
  cases hAdmits : r.admits with
  | none => rfl
  | some admits => simp only [h admits hAdmits asked asked']

/-- So the calls of a method do not depend on what was visited before. -/
theorem Forgetful.callsOfMethod (h : r.Forgetful) (asked asked' : History) (owner : ClassFile)
    (m : MethodInfo) : r.callsOfMethod asked owner m = r.callsOfMethod asked' owner m := by
  unfold Resolver.callsOfMethod
  rw [h.isAdmitted asked asked']

theorem Forgetful.callsOfClass (h : r.Forgetful) (asked asked' : History) (c : ClassFile) :
    r.callsOfClass asked c = r.callsOfClass asked' c := by
  unfold Resolver.callsOfClass
  simp only [h.callsOfMethod _ [], History.gather_along]

/-- The classes of a repository can be resolved on their own then. -/
theorem Forgetful.calls (h : r.Forgetful) (asked : History) :
    r.calls asked = Traced.gather r.classes (r.callsOfClass []) := by
  unfold Resolver.calls
  simp only [h.callsOfClass _ [], History.gather_along]

end Resolver

end JvmCalls
