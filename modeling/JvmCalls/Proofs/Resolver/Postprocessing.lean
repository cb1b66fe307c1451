import JvmCalls.Proofs.Resolver.Accounting
import JvmCalls.Proofs.Resolver.Agreement

/-! Options that come after the search. Leaving out incomplete calls and
clearing the values of calls have no part in how calls are found, so both
could as well be done to the calls of a run without them. Two runs are
compared from the calls of an instruction up to graphs. What the comparison
needs of an option is the same for both. -/
namespace JvmCalls

/-- A relation between journals that may be shown part by part, and holds of
parts that both have in common and that do not concern calls. It is all that
the comparison of two runs needs to know of their journals. -/
structure JournalRelation (E : List Event → List Event → Prop) : Prop where
  common : ∀ {l}, (∀ e ∈ l, e.concernsCalls = false) → E l l
  append : ∀ {l l' k k'}, E l l' → E k k' → E (l ++ k) (l' ++ k')

namespace JournalRelation

variable {E : List Event → List Event → Prop} {α : Type}

theorem nil (hE : JournalRelation E) : E [] [] := hE.common (by simp)

/-- What happens before calls are made is common to both runs. -/
theorem quiet (hE : JournalRelation E) {x : Traced α} (h : x.All Event.IsQuiet) :
    E x.events x.events :=
  hE.common h.unconcerned

/-- Parts that are related one by one make related journals. -/
theorem flatMap (hE : JournalRelation E) {l : List α} {f g : α → List Event}
    (h : ∀ a ∈ l, E (f a) (g a)) : E (l.flatMap f) (l.flatMap g) := by
  induction l with
  | nil => exact hE.nil
  | cons a rest ih =>
      rw [List.flatMap_cons, List.flatMap_cons]
      exact hE.append (h a List.mem_cons_self) (ih fun b hb => h b (List.mem_cons_of_mem a hb))

theorem eq : JournalRelation Eq where
  common _ := rfl
  append := by
    rintro l _ k _ rfl rfl
    rfl

end JournalRelation

theorem Traced.gather_singleton {α β : Type} (a : α) (f : α → Traced (List β)) :
    Traced.gather [a] f = f a := by
  apply Traced.ext
  · rw [value_gather, List.flatMap_singleton]
  · rw [events_gather, List.flatMap_singleton]

/-- Of each call of the first computation, the second has what `change`
makes of it. Their journals are related. -/
structure Traced.Changes (change : Call → Option Call) (E : List Event → List Event → Prop)
    (x y : Traced (List Call)) : Prop where
  value : y.value = x.value.filterMap change
  events : E x.events y.events

namespace Traced.Changes

variable {change : Call → Option Call} {E : List Event → List Event → Prop}
  (hE : JournalRelation E) {α : Type}

include hE

theorem nil : Changes change E (pure []) (pure []) := ⟨rfl, hE.nil⟩

/-- Computations that change part by part change as a whole. -/
theorem gather {l : List α} {f g : α → Traced (List Call)}
    (h : ∀ a ∈ l, Changes change E (f a) (g a)) :
    Changes change E (Traced.gather l f) (Traced.gather l g) where
  value := by
    rw [value_gather, value_gather, List.filterMap_flatMap]
    exact List.flatMap_congr fun a ha => (h a ha).value
  events := by
    rw [events_gather, events_gather]
    exact hE.flatMap fun a ha => (h a ha).events

/-- What comes before the calls is the same for both. -/
theorem bind {x : Traced α} {f g : α → Traced (List Call)} (hSame : E x.events x.events)
    (h : Changes change E (f x.value) (g x.value)) : Changes change E (x >>= f) (x >>= g) where
  value := h.value
  events := hE.append hSame h.events

/-- What is done with each call goes along with the change. Nothing is done
with a call that is dropped. -/
theorem bind_gather {x y : Traced (List Call)} {f g : Call → Traced (List Call)}
    (h : Changes change E x y)
    (hEach : ∀ c, Changes change E (f c) (Traced.gather (change c).toList g)) :
    Changes change E (x >>= (Traced.gather · f)) (y >>= (Traced.gather · g)) := by
  have hSplit : Traced.gather y.value g =
      Traced.gather x.value fun c => Traced.gather (change c).toList g := by
    rw [h.value, List.filterMap_eq_flatMap_toList]
    apply Traced.ext
    · simp only [value_gather, List.flatMap_assoc]
    · simp only [events_gather, List.flatMap_assoc]
  have hAll : Changes change E (Traced.gather x.value f) (Traced.gather y.value g) := by
    rw [hSplit]
    exact gather hE fun c _ => hEach c
  exact ⟨hAll.value, hE.append h.events hAll.events⟩

end Traced.Changes

namespace Resolver

/-- Two resolvers that find out the same about methods, and whose calls
differ by a change. It is asked of single instructions, and follows for all
that is made of them. -/
structure Differs (change : Call → Option Call) (E : List Event → List Event → Prop)
    (r r' : Resolver) : Prop where
  journal : JournalRelation E
  admitted : r'.isAdmitted = r.isAdmitted
  facts : r'.facts = r.facts
  classes : r'.classes = r.classes
  instr : ∀ owner signature code facts p,
    Traced.Changes change E (r.callsOfInstr owner signature code facts p)
      (r'.callsOfInstr owner signature code facts p)

variable {change : Call → Option Call} {E : List Event → List Event → Prop} {r r' : Resolver}

/-- The calls of a method change as those of its instructions do. Both runs
ask for the method in the same history. -/
theorem Differs.callsOfMethod (h : Differs change E r r') (asked : History) (owner : ClassFile)
    (m : MethodInfo) :
    Traced.Changes change E (r.callsOfMethod asked owner m) (r'.callsOfMethod asked owner m) := by
  unfold Resolver.callsOfMethod
  rw [h.admitted, h.facts]
  cases m.code with
  | none => exact .nil h.journal
  | some code =>
      apply Traced.Changes.bind h.journal
        (h.journal.common (unconcerned_isAdmitted asked owner m))
      split
      · apply Traced.Changes.bind h.journal
          (h.journal.quiet (Traced.all_log.mpr (Event.isQuiet_trace _)))
        apply Traced.Changes.bind h.journal (h.journal.quiet (quiet_facts owner m code))
        exact .gather h.journal fun p _ => h.instr _ _ _ _ p
      · exact .nil h.journal

/-- So do the calls of a class. -/
theorem Differs.callsOfClass (h : Differs change E r r') (asked : History) (c : ClassFile) :
    Traced.Changes change E (r.callsOfClass asked c) (r'.callsOfClass asked c) :=
  .bind h.journal (h.journal.quiet (Traced.all_log.mpr (Event.isQuiet_debug _)))
    (.gather h.journal fun x _ => h.callsOfMethod x.1 c x.2)

/-- So do the calls of every visit. -/
theorem Differs.callsOf (h : Differs change E r r') (asked : History) (v : Visit) :
    Traced.Changes change E (r.callsOf asked v) (r'.callsOf asked v) := by
  cases v with
  | ofMethod owner m => exact h.callsOfMethod asked owner m
  | ofClass c => exact h.callsOfClass asked c
  | ofRepository =>
      rw [Resolver.callsOf, Resolver.callsOf, calls, calls, h.classes]
      exact .gather h.journal fun x _ => h.callsOfClass x.1 x.2

/-- Both raise the same questions, as these depend on methods only. -/
theorem Differs.questionsOf (h : Differs change E r r') : r'.questionsOf = r.questionsOf := by
  funext v
  cases v with
  | ofMethod owner m => rfl
  | ofClass c => rfl
  | ofRepository => rw [Resolver.questionsOf, Resolver.questionsOf, h.classes]

end Resolver

/-- The second journal is that of a run that left out the incomplete calls
of the first. They were counted as skipped and not as symbolic, and nobody
was shown them. -/
structure LeavesOut (full left : List Event) : Prop where
  symbolic : Counter.symbolicCall.tally full =
    Counter.symbolicCall.tally left + Counter.incompleteCallSkipped.tally left
  skipped : Counter.incompleteCallSkipped.tally full = 0
  others : ∀ c : Counter, c ≠ .symbolicCall → c ≠ .incompleteCallSkipped →
    c.tally left = c.tally full
  shown : ∀ visitor, shownTo visitor left =
    (shownTo visitor full).filter fun c => c.targetSignature.isComplete

namespace LeavesOut

/-- Nothing of the kind is in either journal. -/
theorem of_common {l : List Event} (hSkipped : ∀ e ∈ l, e ≠ .counted .incompleteCallSkipped)
    (hShown : ∀ e ∈ l, ∀ visitor c, e ≠ .notified visitor c) : LeavesOut l l where
  symbolic := by rw [Counter.tally_eq_zero hSkipped, Nat.add_zero]
  skipped := Counter.tally_eq_zero hSkipped
  others _ _ _ := rfl
  shown visitor := by
    rw [shownTo_eq_nil hShown]
    rfl

/-- Journals that count nothing are compared by what visitors are shown.
Messages may differ in any way. -/
theorem of_uncounted {full left : List Event} (hFull : ∀ e ∈ full, ∀ c, e ≠ .counted c)
    (hLeft : ∀ e ∈ left, ∀ c, e ≠ .counted c)
    (hShown : ∀ visitor, shownTo visitor left =
      (shownTo visitor full).filter fun c => c.targetSignature.isComplete) :
    LeavesOut full left := by
  have hNone (c : Counter) : c.tally full = 0 ∧ c.tally left = 0 :=
    ⟨Counter.tally_eq_zero fun e he => hFull e he c, Counter.tally_eq_zero fun e he => hLeft e he c⟩
  refine ⟨?_, (hNone _).1, ?_, hShown⟩
  · rw [(hNone _).1, (hNone _).2, (hNone _).2]
  · intro c _ _
    rw [(hNone c).1, (hNone c).2]

/-- Messages may be left out. The second run need not have come to the
point where they are logged. -/
theorem of_logged {l : List Event} (h : ∀ e ∈ l, ∃ level message, e = .logged level message) :
    LeavesOut l [] := by
  have hUnseen (visitor : Nat) : shownTo visitor l = [] := by
    apply shownTo_eq_nil
    intro e he v c
    obtain ⟨level, message, rfl⟩ := h e he
    simp
  apply of_uncounted
  · intro e he c
    obtain ⟨level, message, rfl⟩ := h e he
    simp
  · simp
  · intro visitor
    rw [hUnseen]
    rfl

/-- A call is skipped in place of being counted as symbolic. -/
theorem of_skipped (level : Level) (message : String) :
    LeavesOut [.counted .symbolicCall]
      [.logged level message, .counted .incompleteCallSkipped] where
  symbolic := rfl
  skipped := rfl
  others c hSymbolic hSkipped := by
    rw [Counter.tally_eq_zero (by simpa using hSkipped.symm),
      Counter.tally_eq_zero (by simpa using hSymbolic.symm)]
  shown _ := rfl

/-- Leaving out calls is such a relation. Counters add up and visitors see
the calls one after the other. -/
theorem journalRelation : JournalRelation LeavesOut where
  common hUnconcerned := by
    apply of_common
    · rintro e he rfl
      cases hUnconcerned _ he
    · rintro e he visitor c rfl
      cases hUnconcerned _ he
  append hFirst hSecond := by
    refine ⟨?_, ?_, ?_, ?_⟩
    · simp only [Counter.tally_append, hFirst.symbolic, hSecond.symbolic]
      omega
    · rw [Counter.tally_append, hFirst.skipped, hSecond.skipped]
    · intro c hSymbolic hSkipped
      rw [Counter.tally_append, Counter.tally_append, hFirst.others c hSymbolic hSkipped,
        hSecond.others c hSymbolic hSkipped]
    · intro visitor
      rw [shownTo_append, shownTo_append, hFirst.shown, hSecond.shown, List.filter_append]

end LeavesOut

/-- What is left of a call where incomplete ones are left out. -/
def Call.ifComplete : Call → Option Call :=
  Option.guard fun c => c.targetSignature.isComplete

namespace Resolver

/-- The resolver with the option to leave out incomplete calls set to
this. -/
def skipping (r : Resolver) (skip : Bool) : Resolver :=
  { r with options := { r.options with skipIncompleteCalls := skip } }

variable (r : Resolver) (i : Invocation)

/-- Where the flow of a method cannot be asked, that is logged and nothing
else. -/
theorem logged_isControlFlowDependent (facts : MethodFacts) (a : Address) :
    (r.isControlFlowDependent facts a).All fun e => ∃ level message, e = .logged level message := by
  unfold isControlFlowDependent
  split
  · split
    · simp
    · split
      · simp
      · simp
  · simp

/-- The target of an incomplete signature is never looked up, and is counted
as symbolic. -/
theorem events_target_of_incomplete {s : MethodSignature} (h : s.isComplete = false) :
    (r.target s).events = [.counted .symbolicCall] := by
  unfold target
  split
  · next owner name descriptor hOwner hName hDescriptor =>
      obtain ⟨_, hKnown, -⟩ := Option.bind_eq_some_iff.mp hOwner
      simp [MethodSignature.isComplete, hKnown, hName, hDescriptor] at h
  · rfl

/-- Neither the look-up of a target nor the question about the flow skips or
shows anything. -/
theorem plain_call {s : MethodSignature} (h : s.isComplete = true) (nullness : Nullness)
    (dependent : Bool) (operands : Operands) :
    (r.call i s nullness dependent operands).All fun e =>
      e ≠ .counted .incompleteCallSkipped ∧ ∀ visitor c, e ≠ .notified visitor c := by
  rw [call, if_neg (by simp [h])]
  simp only [Traced.all_bind, Traced.all_pure, and_true]
  constructor
  · unfold target
    split
    · split
      · simp
      · simp
    · simp
  · intro e he
    obtain ⟨level, message, rfl⟩ := r.logged_isControlFlowDependent _ _ e he
    simp

section Call

variable {s : MethodSignature} (nullness : Nullness) (dependent : Bool) (operands : Operands)

/-- A complete call is made by both runs in the same way. The option is not
asked for. -/
theorem call_leavesOut_of_complete (hComplete : s.isComplete = true) :
    Traced.Changes Call.ifComplete LeavesOut
      ((r.skipping false).call i s nullness dependent operands)
      ((r.skipping true).call i s nullness dependent operands) := by
  have hSame : (r.skipping true).call i s nullness dependent operands =
      (r.skipping false).call i s nullness dependent operands := by
    rw [call, call, if_neg (by simp [hComplete]), if_neg (by simp [hComplete])]
    rfl
  have hPlain := (r.skipping false).plain_call i hComplete nullness dependent operands
  obtain ⟨call, hCall, -, hSignature⟩ :=
    value_call (r := r.skipping false) (i := i) hComplete nullness dependent operands
  rw [hSame]
  refine ⟨?_, .of_common (fun e he => (hPlain e he).1) fun e he => (hPlain e he).2⟩
  rw [hCall]
  simp [Call.ifComplete, hSignature, hComplete]

/-- An incomplete call that is not left out is counted as symbolic. Where it
is left out, it is counted as skipped instead. -/
theorem call_leavesOut_of_incomplete (hIncomplete : s.isComplete = false) :
    Traced.Changes Call.ifComplete LeavesOut
      ((r.skipping false).call i s nullness dependent operands)
      ((r.skipping true).call i s nullness dependent operands) := by
  have hTarget := signature_target (r := r.skipping false) s
  rw [call, call, if_neg (by simp [skipping]), if_pos (by simp [skipping, hIncomplete])]
  refine ⟨?_, ?_⟩
  · simp [Call.ifComplete, Call.targetSignature, hTarget, hIncomplete]
  · have hAsked := LeavesOut.of_logged
      ((r.skipping false).logged_isControlFlowDependent i.facts i.location.address)
    simp only [Traced.events_bind, (r.skipping false).events_target_of_incomplete hIncomplete,
      Traced.events_pure, List.append_nil]
    show LeavesOut ([.counted .symbolicCall] ++ _)
      ([.logged .trace _, .counted .incompleteCallSkipped] ++ [])
    exact LeavesOut.journalRelation.append (.of_skipped _ _) hAsked

/-- Each call is made by both runs or left out by the second. -/
theorem call_leavesOut (s : MethodSignature) :
    Traced.Changes Call.ifComplete LeavesOut
      ((r.skipping false).call i s nullness dependent operands)
      ((r.skipping true).call i s nullness dependent operands) := by
  cases hComplete : s.isComplete with
  | true => exact r.call_leavesOut_of_complete i nullness dependent operands hComplete
  | false => exact r.call_leavesOut_of_incomplete i nullness dependent operands hComplete

end Call

/-- A malformed invocation is counted as such by both runs. Its call is
incomplete. -/
theorem malformedCall_leavesOut (e : ClassFileError) :
    Traced.Changes Call.ifComplete LeavesOut
      ((r.skipping false).malformedCall i e) ((r.skipping true).malformedCall i e) := by
  unfold malformedCall
  apply Traced.Changes.bind LeavesOut.journalRelation
  · exact .of_common (by simp [Traced.log, Traced.emit]) (by simp [Traced.log, Traced.emit])
  apply Traced.Changes.bind LeavesOut.journalRelation
  · exact .of_common (by simp [Traced.count, Traced.emit]) (by simp [Traced.count, Traced.emit])
  exact r.call_leavesOut i _ _ _ _

/-- The targets of a reference are found before the option is asked for. -/
theorem referenceCalls_leavesOut (kind : InvokeKind) (ref : MethodRef) (d : MethodDescriptor) :
    Traced.Changes Call.ifComplete LeavesOut
      ((r.skipping false).referenceCalls i kind ref d)
      ((r.skipping true).referenceCalls i kind ref d) :=
  .bind LeavesOut.journalRelation
    (LeavesOut.journalRelation.quiet (quiet_selected (r := r) i kind ref d _))
    (.gather LeavesOut.journalRelation fun _ _ => r.call_leavesOut i _ _ _ _)

/-- One case for each kind of constant: one that cannot be read, a dynamic
call site and a method. -/
theorem invocationCalls_leavesOut (kind : InvokeKind) (index : PoolIndex) :
    Traced.Changes Call.ifComplete LeavesOut
      ((r.skipping false).invocationCalls i kind index)
      ((r.skipping true).invocationCalls i kind index) := by
  by_cases hKind : kind = .dynamic
  · subst hKind
    unfold invocationCalls
    cases i.owner.constants.invokeDynamic index with
    | error e => exact r.malformedCall_leavesOut i e
    | ok constant =>
        simp only [bind, Except.bind]
        cases MethodDescriptor.ofString constant.2 with
        | error e => exact r.malformedCall_leavesOut i e
        | ok d => exact r.call_leavesOut i _ _ _ _
  · cases hResult : i.owner.constants.methodRef index >>= MethodRef.parsedDescriptor with
    | error e =>
        rw [invocationCalls_eq_malformedCall hKind hResult,
          invocationCalls_eq_malformedCall hKind hResult]
        exact r.malformedCall_leavesOut i e
    | ok d =>
        obtain ⟨ref, hRef, hDescriptor⟩ := bind_eq_ok_iff.mp hResult
        rw [invocationCalls_eq hKind hRef hDescriptor, invocationCalls_eq hKind hRef hDescriptor]
        exact r.referenceCalls_leavesOut i kind ref d

/-- Showing a call counts nothing. -/
theorem uncounted_report (c : Call) :
    (r.report c).All fun e => ∀ counter, e ≠ .counted counter := by
  simp [report]

/-- Every visitor is shown every call, and nobody else is shown anything. -/
theorem shownTo_report (visitor : Nat) (c : Call) :
    shownTo visitor (r.report c).events = if visitor < r.visitors then [c] else [] := by
  rw [← shownTo_shown, ← callEvents_report, Traced.shownTo_callEvents]

/-- A call without values has the target that it had. -/
theorem targetSignature_kept (c : Call) : (r.kept c).targetSignature = c.targetSignature := by
  show (r.kept c).clearValues.targetSignature = c.clearValues.targetSignature
  rw [clearValues_kept]

/-- A call that is left out is not shown. All others are shown to every
visitor by both runs. -/
theorem report_leavesOut (c : Call) :
    Traced.Changes Call.ifComplete LeavesOut ((r.skipping false).report c)
      (Traced.gather (Call.ifComplete c).toList (r.skipping true).report) := by
  have hUncounted := (r.skipping false).uncounted_report c
  have hValue : ((r.skipping false).report c).value = [r.kept c] := rfl
  have hKept := r.targetSignature_kept c
  cases hComplete : c.targetSignature.isComplete with
  | true =>
      have hLeft : Call.ifComplete c = some c := by simp [Call.ifComplete, hComplete]
      have hSame : Traced.gather [c] (r.skipping true).report = (r.skipping false).report c :=
        Traced.gather_singleton c _
      rw [hLeft, Option.toList_some, hSame]
      refine ⟨?_, .of_uncounted hUncounted hUncounted ?_⟩
      · rw [hValue]
        simp [Call.ifComplete, hKept, hComplete]
      · intro visitor
        rw [shownTo_report]
        split
        · simp [hComplete]
        · rfl
  | false =>
      have hLeft : Call.ifComplete c = none := by simp [Call.ifComplete, hComplete]
      have hNone : Traced.gather [] (r.skipping true).report = pure [] := rfl
      rw [hLeft, Option.toList_none, hNone]
      refine ⟨?_, .of_uncounted hUncounted (by simp) ?_⟩
      · rw [hValue]
        simp [Call.ifComplete, hKept, hComplete]
      · intro visitor
        rw [shownTo_report]
        split
        · simp [hComplete, shownTo]
        · rfl

/-- Leaving out incomplete calls changes nothing but the calls. Both runs
find out the same about every method. -/
theorem skipping_differs :
    Differs Call.ifComplete LeavesOut (r.skipping false) (r.skipping true) where
  journal := LeavesOut.journalRelation
  admitted := rfl
  facts := rfl
  classes := rfl
  instr owner signature code facts p := by
    unfold callsOfInstr
    cases p.instr.invocation? with
    | none => exact .nil LeavesOut.journalRelation
    | some invoked =>
        exact .bind_gather LeavesOut.journalRelation
          (r.invocationCalls_leavesOut _ invoked.1 invoked.2) r.report_leavesOut

/-- The resolver with the option to clear the values of calls set to
this. -/
def clearing (r : Resolver) (clear : Bool) : Resolver :=
  { r with options := { r.options with clearCallValuesAfterVisit := clear } }

/-- Values are cleared where nobody sees it: after a call was shown, and
before it is kept. -/
theorem clearing_differs :
    Differs (fun c => some c.clearValues) Eq (r.clearing false) (r.clearing true) where
  journal := .eq
  admitted := rfl
  facts := rfl
  classes := rfl
  instr owner signature code facts p := by
    unfold callsOfInstr
    cases p.instr.invocation? with
    | none => exact .nil .eq
    | some invoked => exact .bind .eq rfl (.gather .eq fun c _ => ⟨rfl, rfl⟩)

end Resolver

namespace CallGraph

/-- The graph without the values around its calls. Methods and edges are the
same. -/
def clearValues (g : CallGraph) : CallGraph :=
  { g with edges := g.edges.map fun e => { e with call := e.call.clearValues } }

/-- A graph loses the values of its calls and nothing else. Each call stays
between the methods that it was between. -/
theorem cleared_clearValues (g : CallGraph) :
    g.clearValues.methods = g.methods ∧ g.clearValues.index = g.index ∧
      List.Forall₂ (fun e cleared => cleared.source = e.source ∧ cleared.target = e.target ∧
        e.call.Cleared cleared.call) g.edges.toList g.clearValues.edges.toList := by
  refine ⟨rfl, rfl, ?_⟩
  rw [clearValues, Array.toList_map, List.forall₂_map_right_iff, List.forall₂_same]
  intro e _
  exact ⟨rfl, rfl, e.call.cleared_clearValues⟩

/-- Call by call, a graph without values has what is left of its calls. -/
theorem calls_clearValues_cleared (g : CallGraph) :
    List.Forall₂ Call.Cleared g.calls g.clearValues.calls := by
  rw [calls, calls, List.forall₂_map_left_iff, List.forall₂_map_right_iff]
  exact g.cleared_clearValues.2.2.imp fun _ _ h => h.2.2

theorem clearValues_empty : empty.clearValues = empty := by simp [clearValues, empty]

theorem intern_clearValues (g : CallGraph) (s : MethodSignature) :
    g.clearValues.intern s = ((g.intern s).1, (g.intern s).2.clearValues) := by
  unfold intern
  cases hFound : g.find? s with
  | none =>
      have hSame : g.clearValues.find? s = none := hFound
      rw [hSame]
      rfl
  | some i =>
      have hSame : g.clearValues.find? s = some i := hFound
      rw [hSame]

/-- A call without values is added between the same methods. -/
theorem add_clearValues (g : CallGraph) (c : Call) :
    g.clearValues.add c.clearValues = (g.add c).clearValues := by
  have hCaller : c.clearValues.callerSignature = c.callerSignature := rfl
  have hTarget : c.clearValues.targetSignature = c.targetSignature := rfl
  simp only [add, hCaller, hTarget, intern_clearValues]
  simp [clearValues]

/-- Clearing before and after calls are added is the same, as no value has a
part in where a call is added. -/
theorem addAll_clearValues (g : CallGraph) (l : List Call) :
    g.clearValues.addAll (l.map Call.clearValues) = (g.addAll l).clearValues := by
  induction l generalizing g with
  | nil => rfl
  | cons c rest ih =>
      rw [List.map_cons, addAll, List.foldl_cons, ← addAll, add_clearValues, ih]
      rfl

/-- Clearing values makes no call symbolic. -/
theorem symbolicCount_clearValues (g : CallGraph) :
    g.clearValues.symbolicCount = g.symbolicCount := by
  simp [symbolicCount, calls, clearValues, List.countP_map, Function.comp_def, Call.isConcrete,
    Call.clearValues]

variable {r : Resolver}

/-- The graph of some classes is that of their calls, however they are
shared out. -/
theorem value_ofClasses (classes : List ClassFile) :
    (ofClasses r classes).value =
      empty.addAll (Traced.gather classes (r.callsOfClass [])).value := by
  rw [← foldl_merge_ofClass, ← value_ofEach]
  rfl

/-- Visitors of several classes at once see no common order of calls. -/
theorem shownTo_ofClasses (visitor : Nat) (classes : List ClassFile) :
    shownTo visitor (ofClasses r classes).events =
      if classes.length ≤ 1 then
        shownTo visitor (Traced.gather classes (r.callsOfClass [])).events
      else [] := by
  have hEach : shownTo visitor (ofClasses r classes).events =
      shownTo visitor (ofEach r classes).events := by
    simp [ofClasses, Traced.log, Traced.emit, shownTo, List.filterMap_cons, Event.shownTo?]
  rw [hEach, events_ofEach]
  split
  · rfl
  · apply shownTo_eq_nil
    rintro e he v c rfl
    cases (List.mem_filter.mp he).2

end CallGraph

/-- What a resolver may be asked to make a graph of: visits one after the
other, classes on their own, or the whole repository. -/
inductive GraphRequest where
  | visits (visits : List Visit)
  | classes (classes : List ClassFile)
  | repository

namespace GraphRequest

/-- What is made of a request, with all that is seen on the way. -/
def graph (r : Resolver) : GraphRequest → Traced CallGraph
  | visits l => do
    let work ← l.foldlM r.visit ⟨r.initialState, .empty⟩
    return work.graph
  | classes l => CallGraph.ofClasses r l
  | repository => CallGraph.ofRepository r

/-- The calls of the graph, without any state. Only visits that follow each
other know what was asked before. -/
def calls (r : Resolver) : GraphRequest → Traced (List Call)
  | visits l => Traced.gather (History.along r.questionsOf [] l) fun (asked, v) => r.callsOf asked v
  | classes l => Traced.gather l (r.callsOfClass [])
  | repository => Traced.gather r.classes (r.callsOfClass [])

variable {r r' : Resolver} (q : GraphRequest)

/-- Every request makes the graph of its calls. -/
theorem value_graph : (q.graph r).value = CallGraph.empty.addAll (q.calls r).value := by
  cases q with
  | visits l =>
      exact (Resolution.Adds.foldlM r.Visited r.questionsOf r.callsOf Resolver.visit_visited l
        ⟨r.initialState, .empty⟩ .initial).graph
  | classes l => exact CallGraph.value_ofClasses l
  | repository => exact CallGraph.value_ofClasses r.classes

theorem events_graph_visits (l : List Visit) :
    ((visits l).graph r).events = ((visits l).calls r).events := by
  have hAdds := Resolution.Adds.foldlM r.Visited r.questionsOf r.callsOf Resolver.visit_visited l
    ⟨r.initialState, .empty⟩ .initial
  rw [graph, Traced.events_bind, Traced.events_pure, List.append_nil, hAdds.events]
  rfl

/-- The calls of a request change as those of instructions do, whichever
kind of request it is. -/
theorem calls_changes {change : Call → Option Call} {E : List Event → List Event → Prop}
    (h : Resolver.Differs change E r r') : Traced.Changes change E (q.calls r) (q.calls r') := by
  cases q with
  | visits l =>
      rw [calls, calls, h.questionsOf]
      exact .gather h.journal fun x _ => h.callsOf x.1 x.2
  | classes l => exact .gather h.journal fun c _ => h.callsOfClass [] c
  | repository =>
      rw [calls, calls, h.classes]
      exact .gather h.journal fun c _ => h.callsOfClass [] c

/-- The events of a graph of classes are those of its calls, with a message
or without what visitors saw. Both runs are cut in the same way. -/
theorem leavesOut_ofClasses {l : List ClassFile}
    (h : LeavesOut (Traced.gather l (r.callsOfClass [])).events
      (Traced.gather l (r'.callsOfClass [])).events) :
    LeavesOut (CallGraph.ofClasses r l).events (CallGraph.ofClasses r' l).events := by
  have hTally (r : Resolver) (c : Counter) : c.tally (CallGraph.ofClasses r l).events =
      c.tally (Traced.gather l (r.callsOfClass [])).events := by
    rw [Counter.tally, CallGraph.counters_ofClasses, Counter.tally]
  refine ⟨?_, ?_, ?_, ?_⟩
  · rw [hTally, hTally, hTally]
    exact h.symbolic
  · rw [hTally]
    exact h.skipped
  · intro c hSymbolic hSkipped
    rw [hTally, hTally]
    exact h.others c hSymbolic hSkipped
  · intro visitor
    rw [CallGraph.shownTo_ofClasses, CallGraph.shownTo_ofClasses]
    split
    · exact h.shown visitor
    · rfl

/-- What is logged about the graph as a whole makes no difference to
counters and visitors. -/
theorem leavesOut_graph {change : Call → Option Call} (h : Resolver.Differs change LeavesOut r r') :
    LeavesOut (q.graph r).events (q.graph r').events := by
  have hCalls := (q.calls_changes h).events
  cases q with
  | visits l =>
      rw [events_graph_visits, events_graph_visits]
      exact hCalls
  | classes l => exact leavesOut_ofClasses hCalls
  | repository =>
      rw [calls, calls, h.classes] at hCalls
      rw [graph, graph, CallGraph.ofRepository, CallGraph.ofRepository, h.classes]
      exact leavesOut_ofClasses hCalls

/-- The messages about a graph as a whole tell nothing about values. They
are made from the number of calls. -/
theorem events_ofClasses_of_clearValues {l : List ClassFile}
    (hEvents : (Traced.gather l (r.callsOfClass [])).events =
      (Traced.gather l (r'.callsOfClass [])).events)
    (hValue : (CallGraph.ofClasses r' l).value = (CallGraph.ofClasses r l).value.clearValues) :
    (CallGraph.ofClasses r' l).events = (CallGraph.ofClasses r l).events := by
  have hEach : (CallGraph.ofEach r' l).events = (CallGraph.ofEach r l).events := by
    rw [CallGraph.events_ofEach, CallGraph.events_ofEach, Traced.countsOnly, Traced.countsOnly,
      hEvents]
  have hMerged : CallGraph.mergeAll (CallGraph.ofEach r' l).value =
      (CallGraph.mergeAll (CallGraph.ofEach r l).value).clearValues := hValue
  have hMethods (g : CallGraph) : g.clearValues.methodCount = g.methodCount := rfl
  have hCalls (g : CallGraph) : g.clearValues.callCount = g.callCount := Array.size_map
  simp only [CallGraph.ofClasses, Traced.events_bind, hEach, hMerged, hMethods, hCalls,
    CallGraph.symbolicCount_clearValues, Traced.events_pure]

/-- The graph of calls without values is the graph without values. -/
theorem clearValues_graph (h : Resolver.Differs (fun c => some c.clearValues) Eq r r') :
    (q.graph r').value = (q.graph r).value.clearValues := by
  rw [value_graph, value_graph, (q.calls_changes h).value, ← CallGraph.addAll_clearValues,
    CallGraph.clearValues_empty, List.filterMap_eq_map']

/-- Nothing that can be seen tells whether values were cleared, messages
included. -/
theorem events_graph_of_clearValues (h : Resolver.Differs (fun c => some c.clearValues) Eq r r') :
    (q.graph r').events = (q.graph r).events := by
  have hCalls := (q.calls_changes h).events
  have hValue := q.clearValues_graph h
  cases q with
  | visits l =>
      rw [events_graph_visits, events_graph_visits]
      exact hCalls.symm
  | classes l => exact events_ofClasses_of_clearValues hCalls hValue
  | repository =>
      rw [calls, calls, h.classes] at hCalls
      rw [graph, graph, CallGraph.ofRepository, CallGraph.ofRepository, h.classes] at hValue ⊢
      exact events_ofClasses_of_clearValues hCalls hValue

/-- Two options could be applied to the calls of a run afterwards. Without
incomplete calls, the graph is that of the calls with a complete target, and
counters and visitors differ by the calls that were left out. Where values
are cleared, the graph is the same but for them, and nothing else that can
be seen differs. -/
theorem options_postprocess_calls (r : Resolver) (q : GraphRequest) :
    (q.graph (r.skipping true)).value =
        CallGraph.empty.addAll ((q.graph (r.skipping false)).value.calls.filter
          fun c => c.targetSignature.isComplete) ∧
      LeavesOut (q.graph (r.skipping false)).events (q.graph (r.skipping true)).events ∧
      (q.graph (r.clearing true)).value = (q.graph (r.clearing false)).value.clearValues ∧
      List.Forall₂ Call.Cleared (q.graph (r.clearing false)).value.calls
        (q.graph (r.clearing true)).value.calls ∧
      (q.graph (r.clearing true)).events = (q.graph (r.clearing false)).events := by
  have hCleared := q.clearValues_graph r.clearing_differs
  refine ⟨?_, q.leavesOut_graph r.skipping_differs, hCleared, ?_,
    q.events_graph_of_clearValues r.clearing_differs⟩
  · have hComplete := (q.calls_changes r.skipping_differs).value
    rw [Call.ifComplete, List.filterMap_eq_filter] at hComplete
    rw [value_graph, value_graph, hComplete, CallGraph.calls_addAll]
    rfl
  · rw [hCleared]
    exact CallGraph.calls_clearValues_cleared _

end GraphRequest

end JvmCalls
