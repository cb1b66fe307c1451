import JvmCalls.Proofs.Hierarchy.View
import JvmCalls.Proofs.Resolver.ControlFlow
import JvmCalls.Proofs.Resolver.Counting

/-! No invocation is lost. Whatever a resolver visits, each invocation of an
accepted method either makes calls or is counted as skipped, and what the
visitors, the graph and the counters have seen at the end are the calls of
all invocations in the order of the code. Which methods are accepted may
depend on all methods that were come to before. -/
namespace JvmCalls

/-- An invocation in the code of a method, with all that its calls can
depend on. -/
structure CallSite where
  owner : ClassFile
  method : MethodInfo
  code : Code
  placed : PlacedInstr
  kind : InvokeKind
  index : PoolIndex

namespace CallSite

/-- The invocation at an instruction, if it is one. -/
def at? (owner : ClassFile) (method : MethodInfo) (code : Code) (p : PlacedInstr) :
    Option CallSite :=
  p.instr.invocation?.map fun (kind, index) => ⟨owner, method, code, p, kind, index⟩

/-- The place that the calls of an invocation name as their caller, with the
source line if it is known. -/
def location (s : CallSite) : CodeLocation :=
  ⟨s.method.signature s.owner, s.placed.address, s.code.lineAt? s.placed.address⟩

/-- The constant of the invocation is not what it should be. What its calls
would go to is not known then. -/
def isMalformed (s : CallSite) : Bool := s.owner.isMalformed s.kind s.index

end CallSite

/-- What a resolver may be asked to visit. All three are made of visits of
methods. -/
inductive Visit where
  | ofMethod (owner : ClassFile) (m : MethodInfo)
  | ofClass (c : ClassFile)
  | ofRepository

/-- The second call is the first without the values around it. Nothing else
is lost: where the call is, where it goes and what it depends on stays. -/
structure Call.Cleared (c cleared : Call) : Prop where
  receiver : cleared.receiver = none
  arguments : cleared.arguments = []
  result : cleared.result = none
  caller : cleared.caller = c.caller
  target : cleared.target = c.target
  instr : cleared.instr = c.instr
  nullness : cleared.nullness = c.nullness
  controlFlowDependent : cleared.controlFlowDependent = c.controlFlowDependent
  runtimeTypeDependent : cleared.runtimeTypeDependent = c.runtimeTypeDependent

/-- Clearing takes the receiver, the arguments and the result away, and
nothing else. -/
theorem Call.cleared_clearValues (c : Call) : c.Cleared c.clearValues :=
  ⟨rfl, rfl, rfl, rfl, rfl, rfl, rfl, rfl, rfl⟩

/-- There is just one such call, so that these fields are all that a call
has. -/
theorem Call.Cleared.eq_clearValues {c cleared : Call} (h : c.Cleared cleared) :
    cleared = c.clearValues := by
  cases cleared
  cases h
  simp_all [clearValues]

namespace Resolver

/-- The invocations of a method, in the order of its code. There are
none where it has no code or is not accepted after what was asked before. -/
def sitesOfMethod (r : Resolver) (asked : History) (owner : ClassFile) (m : MethodInfo) :
    List CallSite :=
  match m.code with
  | some code =>
    if r.admits.all fun admits => admits asked owner m then
      code.instrs.filterMap (CallSite.at? owner m code)
    else []
  | none => []

/-- The invocations of a class, method by method. Each method is accepted
after those before it. -/
def sitesOfClass (r : Resolver) (asked : History) (c : ClassFile) : List CallSite :=
  (History.along (MethodInfo.questions c) asked c.methods).flatMap
    fun (asked, m) => r.sitesOfMethod asked c m

/-- The invocations of a visit, in the order in which it comes to them. -/
def sitesOf (r : Resolver) (asked : History) : Visit → List CallSite
  | .ofMethod owner m => r.sitesOfMethod asked owner m
  | .ofClass c => r.sitesOfClass asked c
  | .ofRepository => (History.along ClassFile.questions asked r.classes).flatMap
      fun (asked, c) => r.sitesOfClass asked c

/-- The methods with code that a visit comes to, in order. -/
def questionsOf (r : Resolver) : Visit → History
  | .ofMethod owner m => m.questions owner
  | .ofClass c => c.questions
  | .ofRepository => r.classes.flatMap ClassFile.questions

/-- The invocations of visits that follow each other. -/
def sitesOfAll (r : Resolver) (asked : History) (visits : List Visit) : List CallSite :=
  (History.along r.questionsOf asked visits).flatMap fun (asked, v) => r.sitesOf asked v

/-- A visit of a method, of a class, or of all classes. -/
def visit (r : Resolver) (work : Resolution) : Visit → Traced Resolution
  | .ofMethod owner m => r.visitMethod owner work m
  | .ofClass c => r.visitClass work c
  | .ofRepository => r.visitAll work

/-- The stateless account of a visit. -/
def callsOf (r : Resolver) (asked : History) : Visit → Traced (List Call)
  | .ofMethod owner m => r.callsOfMethod asked owner m
  | .ofClass c => r.callsOfClass asked c
  | .ofRepository => r.calls asked

/-- The calls that an invocation makes. -/
def made (r : Resolver) (s : CallSite) : List Call :=
  (r.invocationCalls (s.placed.invocation s.owner (s.method.signature s.owner) s.code
    (r.facts s.owner s.method s.code).value) s.kind s.index).value

/-- What is kept of a call that was shown. Visitors see the values in any
case. -/
def kept (r : Resolver) (c : Call) : Call :=
  if r.options.clearCallValuesAfterVisit then c.clearValues else c

/-- A call is shown to all visitors, in their order. -/
def shown (r : Resolver) (c : Call) : List Event :=
  (List.range r.visitors).map fun visitor => .notified visitor c

/-- All events of an invocation that concern calls. It is counted first, and
its calls are shown afterwards. -/
def siteEvents (r : Resolver) (s : CallSite) : List Event :=
  (if s.isMalformed then [.counted .malformedInvocation] else []) ++
    Call.countedAll (r.made s) ++ (r.made s).flatMap r.shown

/-- The questions, if there is a hook to ask. -/
def heard (r : Resolver) (questions : History) : History :=
  if r.admits.isSome then questions else []

/-- These are the calls of the sites, and nothing else was seen of calls.
The hook, if there is one, was asked these questions. It holds of
instructions, methods, classes and repositories alike. -/
structure Lists (r : Resolver) (questions : History) (sites : List CallSite)
    (x : Traced (List Call)) : Prop where
  asked : x.asked = r.heard questions
  located : ∀ s ∈ sites, ∀ c ∈ r.made s, c.caller = s.location ∧ c.instr = s.placed.instr
  skipped : ∀ s ∈ sites, r.made s = [] ↔
    r.options.skipIncompleteCalls = true ∧ (s.kind = .dynamic ∨ s.isMalformed = true)
  value : x.value = (sites.flatMap r.made).map r.kept
  events : x.callEvents = sites.flatMap r.siteEvents

variable {r : Resolver} {α : Type}

@[simp] theorem heard_nil : r.heard [] = [] := ite_self _

/-- The hook hears the questions of both parts, or of none. -/
theorem heard_append (questions later : History) :
    r.heard (questions ++ later) = r.heard questions ++ r.heard later := by
  unfold heard
  split
  · rfl
  · rfl

theorem heard_flatMap (l : List α) (questions : α → History) :
    r.heard (l.flatMap questions) = l.flatMap fun a => r.heard (questions a) := by
  unfold heard
  split
  · rfl
  · exact (List.flatMap_eq_nil_iff.mpr fun _ _ => rfl).symm

theorem Lists.nil : r.Lists [] [] (pure []) where
  asked := heard_nil.symm
  located s hs := by cases hs
  skipped s hs := by cases hs
  value := rfl
  events := rfl

/-- Parts that follow each other list the sites of each of them. By it,
methods are taken together to classes and classes to repositories. -/
theorem Lists.gather {l : List α} {questions : α → History} {sites : α → List CallSite}
    {f : α → Traced (List Call)} (h : ∀ a ∈ l, r.Lists (questions a) (sites a) (f a)) :
    r.Lists (l.flatMap questions) (l.flatMap sites) (Traced.gather l f) where
  asked := by
    rw [Traced.asked_gather, heard_flatMap]
    exact List.flatMap_congr fun a ha => (h a ha).asked
  located s hs := by
    obtain ⟨a, ha, hSite⟩ := List.mem_flatMap.mp hs
    exact (h a ha).located s hSite
  skipped s hs := by
    obtain ⟨a, ha, hSite⟩ := List.mem_flatMap.mp hs
    exact (h a ha).skipped s hSite
  value := by
    rw [Traced.value_gather, List.flatMap_assoc, List.map_flatMap]
    exact List.flatMap_congr fun a ha => (h a ha).value
  events := by
    rw [Traced.callEvents_gather, List.flatMap_assoc]
    exact List.flatMap_congr fun a ha => (h a ha).events

/-- Items that follow each other raise their questions one after the other,
and each has the calls of the history that it is come to with. -/
theorem Lists.along {l : List α} {questions : α → History} {sites : History → α → List CallSite}
    {f : History → α → Traced (List Call)}
    (h : ∀ asked, ∀ a ∈ l, r.Lists (questions a) (sites asked a) (f asked a)) (asked : History) :
    r.Lists (l.flatMap questions)
      ((History.along questions asked l).flatMap fun x => sites x.1 x.2)
      (Traced.gather (History.along questions asked l) fun x => f x.1 x.2) := by
  have hAll : r.Lists _ _ (Traced.gather (History.along questions asked l) fun x => f x.1 x.2) :=
    .gather fun x hx => h x.1 x.2 (History.snd_mem_of_mem_along hx)
  rwa [History.flatMap_along] at hAll

/-- What does not concern calls may come before them, such as the question
for the method. -/
theorem Lists.bind {x : Traced α} {f : α → Traced (List Call)} {questions later : History}
    {sites : List CallSite} (hAsked : x.asked = r.heard questions)
    (hUnconcerned : x.All fun e => e.concernsCalls = false) (h : r.Lists later sites (f x.value)) :
    r.Lists (questions ++ later) sites (x >>= f) where
  asked := by rw [Traced.asked_bind, hAsked, h.asked, heard_append]
  located := h.located
  skipped := h.skipped
  value := h.value
  events := by
    rw [Traced.callEvents_bind, Traced.callEvents_of_unconcerned hUnconcerned, List.nil_append,
      h.events]

/-- What is quiet may come before the calls and asks the hook nothing. -/
theorem Lists.bind_quiet {x : Traced α} {f : α → Traced (List Call)} {questions : History}
    {sites : List CallSite} (hQuiet : x.All Event.IsQuiet)
    (h : r.Lists questions sites (f x.value)) : r.Lists questions sites (x >>= f) :=
  have hAsked : x.asked = r.heard [] :=
    (Traced.asked_of_all fun e he => (hQuiet e he).unasked).trans heard_nil.symm
  .bind hAsked hQuiet.unconcerned h

/-- If values are to be cleared, a call is kept without them. -/
theorem cleared_kept (h : r.options.clearCallValuesAfterVisit = true) (c : Call) :
    c.Cleared (r.kept c) := by
  rw [kept, if_pos h]
  exact c.cleared_clearValues

/-- Otherwise it is kept whole. -/
theorem kept_eq_self (h : r.options.clearCallValuesAfterVisit = false) (c : Call) :
    r.kept c = c := by
  rw [kept, h, if_neg Bool.false_ne_true]

/-- A site of a method is an instruction of its code. Methods without code
and methods that are refused have none. -/
theorem at?_of_mem_sitesOfMethod {asked : History} {owner : ClassFile} {m : MethodInfo}
    {s : CallSite} (h : s ∈ r.sitesOfMethod asked owner m) :
    ∃ code, m.code = some code ∧ ∃ p ∈ code.instrs, CallSite.at? owner m code p = some s := by
  unfold sitesOfMethod at h
  split at h
  · next code hCode =>
      split at h
      · exact ⟨code, hCode, List.mem_filterMap.mp h⟩
      · cases h
  · cases h

/-- Nothing but values is left out of a call. -/
theorem clearValues_kept (c : Call) : (r.kept c).clearValues = c.clearValues := by
  unfold kept
  split
  · rfl
  · rfl

/-- Reporting a call shows it to every visitor and counts nothing. -/
theorem callEvents_report (c : Call) : (r.report c).callEvents = r.shown c := by
  have hShown : (r.shown c).filter Event.concernsCalls = r.shown c := by
    apply List.filter_eq_self.mpr
    intro e he
    obtain ⟨visitor, -, rfl⟩ := List.mem_map.mp he
    rfl
  rw [report, Traced.callEvents_bind, Traced.callEvents_bind,
    Traced.callEvents_of_quiet (Traced.all_log.mpr (Event.isQuiet_trace _)), Traced.callEvents_pure,
    List.append_nil, List.nil_append]
  exact hShown

variable {owner : ClassFile} {m : MethodInfo} {code : Code} {p : PlacedInstr}

/-- Only whole methods are asked for. -/
theorem asked_callsOfInstr (owner : ClassFile) (m : MethodInfo) (hp : p ∈ code.instrs) :
    (r.callsOfInstr owner (m.signature owner) code (r.facts owner m code).value p).asked = [] := by
  apply Traced.asked_of_all
  intro e he
  cases event_of_callsOfInstr (answers_facts hp) he with
  | inl hRoutine => exact hRoutine.unasked
  | inr hShown =>
      obtain ⟨visitor, c, rfl, -⟩ := hShown
      rfl

/-- An instruction lists the calls of its invocation, or nothing if it is
none. -/
theorem callsOfInstr_lists (owner : ClassFile) (m : MethodInfo) (hp : p ∈ code.instrs) :
    r.Lists [] (CallSite.at? owner m code p).toList
      (r.callsOfInstr owner (m.signature owner) code (r.facts owner m code).value p) := by
  have hAsked := asked_callsOfInstr (r := r) owner m hp
  rw [← heard_nil (r := r)] at hAsked
  unfold callsOfInstr at hAsked ⊢
  unfold CallSite.at?
  generalize p.instr.invocation? = invocation at hAsked
  cases invocation with
  | none => exact .nil
  | some invoked =>
      obtain ⟨kind, index⟩ := invoked
      have hCounts := invocationCalls_counts (r := r)
        (i := p.invocation owner (m.signature owner) code (r.facts owner m code).value)
        (answers_facts hp) kind index
      refine ⟨hAsked, ?_, ?_, ?_, ?_⟩
      · intro s hs c hc
        obtain rfl := List.mem_singleton.mp hs
        exact ⟨(makes_of_mem_invocationCalls hc).caller, (makes_of_mem_invocationCalls hc).instr⟩
      · intro s hs
        obtain rfl := List.mem_singleton.mp hs
        exact hCounts.skipped.trans (by simp [CallSite.isMalformed, PlacedInstr.invocation])
      · rw [Traced.value_bind, Traced.value_gather, Option.map_some, Option.toList_some,
          List.flatMap_singleton, List.map_eq_flatMap]
        rfl
      · rw [Traced.callEvents_bind, Traced.callEvents_gather, Option.map_some, Option.toList_some,
          List.flatMap_singleton]
        simp only [callEvents_report]
        exact congrArg (· ++ _) hCounts.events

/-- Without a hook every method is accepted. With one, its answer may depend
on all that was asked before. -/
theorem value_isAdmitted (asked : History) :
    (r.isAdmitted asked owner m).value = r.admits.all fun admits => admits asked owner m := by
  unfold isAdmitted
  cases r.admits with
  | none => rfl
  | some admits =>
      cases hAccepted : admits asked owner m with
      | true => simp [hAccepted]
      | false => simp [hAccepted]

/-- If there is a hook, it is asked once, whatever it answers. -/
theorem asked_isAdmitted (asked : History) :
    (r.isAdmitted asked owner m).asked = r.heard [(owner, m)] := by
  unfold isAdmitted heard
  cases r.admits with
  | none => rfl
  | some admits =>
      cases hAccepted : admits asked owner m with
      | true => simp [hAccepted, Traced.asked, Traced.emit, Event.asked?]
      | false => simp [hAccepted, Traced.asked, Traced.emit, Traced.log, Event.asked?]

/-- A method that has code raises one question. It lists the calls of its
invocations if the answer is yes, and none otherwise. -/
theorem callsOfMethod_lists (asked : History) :
    r.Lists (m.questions owner) (r.sitesOfMethod asked owner m)
      (r.callsOfMethod asked owner m) := by
  unfold callsOfMethod sitesOfMethod MethodInfo.questions
  cases m.code with
  | none => exact .nil
  | some code =>
      apply Lists.bind (asked_isAdmitted asked) (unconcerned_isAdmitted asked owner m)
      simp only [value_isAdmitted]
      by_cases hAccepted : (r.admits.all fun admits => admits asked owner m) = true
      · rw [if_pos hAccepted, if_pos hAccepted]
        apply Lists.bind_quiet (Traced.all_log.mpr (Event.isQuiet_trace _))
        apply Lists.bind_quiet (quiet_facts owner m code)
        rw [List.filterMap_eq_flatMap_toList]
        have hInstrs := Lists.gather fun p (hp : p ∈ code.instrs) =>
          callsOfInstr_lists (r := r) owner m hp
        rwa [List.flatMap_eq_nil_iff.mpr fun _ _ => rfl] at hInstrs
      · rw [if_neg hAccepted, if_neg hAccepted]
        exact .nil

/-- A class lists what its methods list, each with the history that it is
come to with. -/
theorem callsOfClass_lists (asked : History) (c : ClassFile) :
    r.Lists c.questions (r.sitesOfClass asked c) (r.callsOfClass asked c) :=
  .bind_quiet (Traced.all_log.mpr (Event.isQuiet_debug _))
    (.along (fun asked _ _ => callsOfMethod_lists asked) asked)

/-- So does every visit. -/
theorem callsOf_lists (asked : History) (v : Visit) :
    r.Lists (r.questionsOf v) (r.sitesOf asked v) (r.callsOf asked v) := by
  cases v with
  | ofMethod owner m => exact callsOfMethod_lists asked
  | ofClass c => exact callsOfClass_lists asked c
  | ofRepository => exact .along (fun asked c _ => callsOfClass_lists asked c) asked

/-- A visit adds its calls and leaves a state from which the next one can
start. -/
theorem visitMethod_visited (owner : ClassFile) (work : Resolution) (m : MethodInfo)
    (h : r.Visited work.state) :
    work.Adds r.Visited (m.questions owner) (r.callsOfMethod work.state.asked owner m)
      (r.visitMethod owner work m) :=
  have hAdds := visitMethod_adds owner work m h.fits
  ⟨.visit h owner m, hAdds.asked, hAdds.graph, hAdds.events⟩

theorem visitClass_visited (work : Resolution) (c : ClassFile) (h : r.Visited work.state) :
    work.Adds r.Visited c.questions (r.callsOfClass work.state.asked c) (r.visitClass work c) :=
  have hMethods := Resolution.Adds.foldlM _ _ (fun asked m => r.callsOfMethod asked c m)
    (visitMethod_visited c) c.methods work h
  have hAdds := visitClass_adds work c h.fits
  ⟨hMethods.state, hAdds.asked, hAdds.graph, hAdds.events⟩

/-- Any visit adds the calls of its stateless account, as the state of the
resolver shows in nothing else. -/
theorem visit_visited (work : Resolution) (v : Visit) (h : r.Visited work.state) :
    work.Adds r.Visited (r.questionsOf v) (r.callsOf work.state.asked v) (r.visit work v) := by
  cases v with
  | ofMethod owner m => exact visitMethod_visited owner work m h
  | ofClass c => exact visitClass_visited work c h
  | ofRepository =>
      exact Resolution.Adds.foldlM _ _ r.callsOfClass visitClass_visited r.classes work h

end Resolver

/-- A call has the counter of its kind, and no other one. -/
theorem Call.counter_beq (c : Call) (counter : Counter) : (c.counter == counter) =
    if c.isConcrete then decide (.concreteCall = counter)
    else decide (.symbolicCall = counter) := by
  unfold Call.counter Call.isConcrete
  cases c.target with
  | concrete signature owner method => rfl
  | symbolic signature => rfl

namespace Resolver

variable {r : Resolver}

/-- Each call counts once by its own kind, and an invocation without calls
counts as skipped. -/
theorem tally_countedAll (c : Counter) (calls : List Call) :
    c.tally (Call.countedAll calls) = calls.countP (fun call => call.counter == c) +
      if calls.isEmpty && decide (.incompleteCallSkipped = c) then 1 else 0 := by
  cases calls with
  | nil =>
      show [Counter.incompleteCallSkipped].count c = _
      rw [List.count_singleton, List.countP_nil, Nat.zero_add, List.isEmpty_nil, Bool.true_and]
      rfl
  | cons call rest =>
      rw [Call.countedAll_of_ne_nil (List.cons_ne_nil call rest), Counter.tally,
        List.count_filterMap, List.countP_map]
      simp [Function.comp_def, Event.counter?]

/-- Showing a call counts nothing. -/
theorem tally_shown (c : Counter) (calls : List Call) : c.tally (calls.flatMap r.shown) = 0 := by
  rw [Counter.tally, List.count_filterMap, List.countP_eq_zero]
  intro e he
  obtain ⟨call, -, hShown⟩ := List.mem_flatMap.mp he
  obtain ⟨visitor, -, rfl⟩ := List.mem_map.mp hShown
  simp [Event.counter?]

/-- An invocation adds to a counter what its calls add, besides what it adds
by being malformed or skipped. -/
theorem tally_siteEvents (c : Counter) (s : CallSite) :
    c.tally (r.siteEvents s) =
      (if s.isMalformed && decide (.malformedInvocation = c) then 1 else 0) +
        (r.made s).countP (fun call => call.counter == c) +
        if (r.made s).isEmpty && decide (.incompleteCallSkipped = c) then 1 else 0 := by
  have hMalformed : c.tally (if s.isMalformed then [.counted .malformedInvocation] else []) =
      if s.isMalformed && decide (.malformedInvocation = c) then 1 else 0 := by
    cases s.isMalformed with
    | false => rfl
    | true => exact List.count_singleton
  rw [siteEvents, Counter.tally_append, Counter.tally_append, tally_shown, tally_countedAll,
    hMalformed]
  omega

/-- The same for several invocations, one after the other. Counts of parts
add up. -/
theorem tally_sites (c : Counter) (sites : List CallSite) :
    c.tally (sites.flatMap r.siteEvents) =
      sites.countP (fun s => s.isMalformed && decide (.malformedInvocation = c)) +
        (sites.flatMap r.made).countP (fun call => call.counter == c) +
        sites.countP (fun s => (r.made s).isEmpty && decide (.incompleteCallSkipped = c)) := by
  induction sites with
  | nil => rfl
  | cons s rest ih =>
      rw [List.flatMap_cons, Counter.tally_append, ih, tally_siteEvents, List.countP_cons,
        List.countP_cons, List.flatMap_cons, List.countP_append]
      omega

/-- Each of the visitors is shown a call once. -/
theorem shownTo_shown (visitor : Nat) (c : Call) :
    shownTo visitor (r.shown c) = if visitor < r.visitors then [c] else [] := by
  unfold shown
  induction r.visitors with
  | zero => rfl
  | succ n ih =>
      rw [List.range_succ, List.map_append, shownTo_append, ih]
      by_cases hLast : n = visitor
      · simp [hLast, shownTo, Event.shownTo?]
      · have hLt : visitor < n + 1 ↔ visitor < n := by omega
        simp [hLast, hLt, shownTo, Event.shownTo?]

/-- Counting a call shows it to nobody. -/
theorem shownTo_countedAll (visitor : Nat) (calls : List Call) :
    shownTo visitor (Call.countedAll calls) = [] := by
  apply List.filterMap_eq_nil_iff.mpr
  intro e he
  cases calls with
  | nil =>
      obtain rfl := List.mem_singleton.mp he
      rfl
  | cons call rest =>
      obtain ⟨_, -, rfl⟩ := List.mem_map.mp he
      rfl

/-- A visitor is shown the calls of an invocation, in order. -/
theorem shownTo_siteEvents (visitor : Nat) (s : CallSite) :
    shownTo visitor (r.siteEvents s) = if visitor < r.visitors then r.made s else [] := by
  have hMalformed :
      shownTo visitor (if s.isMalformed then [.counted .malformedInvocation] else []) = [] := by
    cases s.isMalformed <;> rfl
  have hShown : shownTo visitor ((r.made s).flatMap r.shown) =
      (r.made s).flatMap fun c => if visitor < r.visitors then [c] else [] := by
    rw [shownTo, List.filterMap_flatMap]
    exact List.flatMap_congr fun c _ => shownTo_shown visitor c
  rw [siteEvents, shownTo_append, shownTo_append, hMalformed, shownTo_countedAll, hShown,
    List.nil_append, List.nil_append]
  split
  · exact List.flatMap_singleton' _
  · exact List.flatMap_eq_nil_iff.mpr fun _ _ => rfl

/-- A visitor is shown the calls of all invocations, in order. Calls that
are left out are not among them. -/
theorem shownTo_sites (visitor : Nat) (sites : List CallSite) :
    shownTo visitor (sites.flatMap r.siteEvents) =
      if visitor < r.visitors then sites.flatMap r.made else [] := by
  induction sites with
  | nil => simp [shownTo]
  | cons s rest ih =>
      rw [List.flatMap_cons, shownTo_append, ih, shownTo_siteEvents, List.flatMap_cons]
      split
      · rfl
      · rfl

/-- A run of visits has made the calls of these sites, and has let everyone
know: the visitors, the graph, the counters and the hook. What the graph
keeps of a call is the whole call, or all of it but its values. -/
structure AccountsFor (r : Resolver) (questions : History) (sites : List CallSite)
    (work : Resolution) (run : Traced Resolution) : Prop where
  state : r.Visited run.value.state
  history : run.value.state.asked = work.state.asked ++ questions
  hook : run.asked = r.heard questions
  located : ∀ s ∈ sites, ∀ c ∈ r.made s, c.caller = s.location ∧ c.instr = s.placed.instr
  skipped : ∀ s ∈ sites, r.made s = [] ↔
    r.options.skipIncompleteCalls = true ∧ (s.kind = .dynamic ∨ s.isMalformed = true)
  visitors : ∀ visitor, shownTo visitor run.events =
    if visitor < r.visitors then sites.flatMap r.made else []
  graph : run.value.graph = work.graph.addAll ((sites.flatMap r.made).map r.kept)
  calls : run.value.graph.calls = work.graph.calls ++ (sites.flatMap r.made).map r.kept
  cleared : r.options.clearCallValuesAfterVisit = true → ∀ c : Call, c.Cleared (r.kept c)
  whole : r.options.clearCallValuesAfterVisit = false → ∀ c, r.kept c = c
  concrete : Counter.concreteCall.tally run.events =
    (sites.flatMap r.made).countP Call.isConcrete
  symbolic : Counter.symbolicCall.tally run.events =
    (sites.flatMap r.made).countP fun c => !c.isConcrete
  incomplete : Counter.incompleteCallSkipped.tally run.events =
    sites.countP fun s => (r.made s).isEmpty
  malformed : Counter.malformedInvocation.tally run.events = sites.countP CallSite.isMalformed
  metrics : ∀ (m : Metrics) c,
    (m.record run.events).get c = m.get c + UInt64.ofNat (c.tally run.events)

/-- Whatever was visited before, visits lose no invocation and make up none.
The state keeps the history that the hook answers by, and each visit starts
with that of the one before. -/
theorem visits_accounted {r : Resolver} {work : Resolution} (hVisited : r.Visited work.state)
    (visits : List Visit) :
    r.AccountsFor (visits.flatMap r.questionsOf) (r.sitesOfAll work.state.asked visits) work
      (visits.foldlM r.visit work) := by
  -- What the visits add depends on no more of the state than the history, so that the
  -- stateless account is enough.
  have hAdds := Resolution.Adds.foldlM r.Visited r.questionsOf r.callsOf visit_visited visits work
    hVisited
  have hLists : r.Lists (visits.flatMap r.questionsOf) (r.sitesOfAll work.state.asked visits) _ :=
    .along (fun asked v _ => callsOf_lists asked v) work.state.asked
  have hTally {c : Counter} (hConcerns : c.concernsCalls = true) :
      c.tally (visits.foldlM r.visit work).events =
        c.tally ((r.sitesOfAll work.state.asked visits).flatMap r.siteEvents) := by
    rw [hAdds.events, ← Traced.tally_callEvents hConcerns, hLists.events]
  refine {
    state := hAdds.state
    history := hAdds.asked
    hook := by rw [← hLists.asked, Traced.asked, hAdds.events, Traced.asked]
    located := hLists.located
    skipped := hLists.skipped
    visitors := ?_
    graph := by rw [hAdds.graph, hLists.value]
    calls := by rw [hAdds.graph, hLists.value, CallGraph.calls_addAll]
    cleared := cleared_kept
    whole := kept_eq_self
    concrete := ?_
    symbolic := ?_
    incomplete := ?_
    malformed := ?_
    metrics := fun m c => m.get_record _ c }
  · intro visitor
    rw [hAdds.events, ← Traced.shownTo_callEvents, hLists.events, shownTo_sites]
  · rw [hTally rfl, tally_sites]
    simp [Call.counter_beq]
  · rw [hTally rfl, tally_sites]
    simp [Call.counter_beq]
  · rw [hTally rfl, tally_sites]
    simp [Call.counter_beq]
  · rw [hTally rfl, tally_sites]
    simp [Call.counter_beq]

end Resolver

/-- A call of a method that is not in the repository, a dynamic one, and one
without constant. -/
def mixedCode : Code where
  maxStack := 0
  maxLocals := 0
  instrs := [⟨⟨0⟩, .invokeStatic 6⟩, ⟨⟨3⟩, .invokeDynamic 7⟩, ⟨⟨8⟩, .invokeStatic 9⟩,
    ⟨⟨11⟩, .ret .void⟩]
  handlers := []
  lines := []

def mixedMethod : MethodInfo := ⟨default, "f", "()V", some mixedCode⟩

def mixedClass : ClassFile where
  flags := default
  name := "t/A"
  superclass := none
  interfaces := []
  constants := { entries := #[some (.utf8 "t/B"), some (.classRef 1), some (.utf8 "g"),
    some (.utf8 "(I)V"), some (.nameAndType 3 4), some (.methodRef 2 5),
    some (.invokeDynamic 0 5)] }
  methods := [mixedMethod]

/-- Two methods are admitted at most, and the values of calls are
cleared. -/
def mixedResolver : Resolver where
  repository := {}
  options := { skipIncompleteCalls := true, clearCallValuesAfterVisit := true }
  admits := some fun asked _ _ => decide (asked.length < 2)
  visitors := 2

/-- The only call that is not skipped. Its argument is not known. -/
def mixedCall : Call where
  caller := ⟨mixedMethod.signature mixedClass, ⟨0⟩, none⟩
  target := .symbolic (.of "t/B" "g" "(I)V")
  instr := .invokeStatic 6
  nullness := .never
  arguments := [.top]

def staticSite : CallSite :=
  ⟨mixedClass, mixedMethod, mixedCode, ⟨⟨0⟩, .invokeStatic 6⟩, .static, 6⟩

def dynamicSite : CallSite :=
  ⟨mixedClass, mixedMethod, mixedCode, ⟨⟨3⟩, .invokeDynamic 7⟩, .dynamic, 7⟩

def malformedSite : CallSite :=
  ⟨mixedClass, mixedMethod, mixedCode, ⟨⟨8⟩, .invokeStatic 9⟩, .static, 9⟩

/-- The static call is made although its target is not known, as it is
complete. -/
theorem made_staticSite : mixedResolver.made staticSite = [mixedCall] := by
  have hRef : mixedClass.constants.methodRef 6 = .ok ⟨"t/B", "g", "(I)V", false⟩ := by cbv
  have hDescriptor : (⟨"t/B", "g", "(I)V", false⟩ : MethodRef).parsedDescriptor =
      .ok ⟨[.int], .void⟩ := by cbv
  have hUnknown (name : String) : mixedResolver.repository.definition? name = none :=
    Repository.definition?_eq_none_of_not_mem List.not_mem_nil
  simp only [Resolver.made, Resolver.invocationCalls, staticSite, PlacedInstr.invocation, hRef,
    hDescriptor, bind, Except.bind, pure, Except.pure, Resolver.referenceCalls, Resolver.selected,
    Repository.selectStatic, Repository.isDefined, Traced.value_gather, Option.isSome_none,
    Bool.false_eq_true, if_false, List.flatMap_singleton, Resolver.call, Resolver.target,
    MethodSignature.of, Option.bind, hUnknown]
  rfl

/-- The method, then its class, and then the method again. -/
def mixedVisits : List Visit :=
  [.ofMethod mixedClass mixedMethod, .ofClass mixedClass, .ofMethod mixedClass mixedMethod]

def mixedRun : Traced Resolution :=
  mixedVisits.foldlM mixedResolver.visit ⟨mixedResolver.initialState, .empty⟩

/-- The hook is asked three times and refuses the last time. The other two
visits show the static call to both visitors, add it to the graph without
its argument, and skip the other two. -/
theorem mixedVisits_accounted :
    mixedResolver.Visited mixedResolver.initialState ∧
      mixedRun.asked = List.replicate 3 (mixedClass, mixedMethod) ∧
      shownTo 0 mixedRun.events = [mixedCall, mixedCall] ∧
      shownTo 1 mixedRun.events = [mixedCall, mixedCall] ∧
      shownTo 2 mixedRun.events = [] ∧
      mixedRun.value.graph.calls =
        [{ mixedCall with arguments := [] }, { mixedCall with arguments := [] }] ∧
      Counter.symbolicCall.tally mixedRun.events = 2 ∧
      Counter.incompleteCallSkipped.tally mixedRun.events = 4 ∧
      Counter.malformedInvocation.tally mixedRun.events = 2 := by
  have hVisited : mixedResolver.Visited mixedResolver.initialState := .initial
  have hAccounts : mixedResolver.AccountsFor _ _ _ mixedRun :=
    Resolver.visits_accounted hVisited mixedVisits
  have hSites : mixedResolver.sitesOfAll [] mixedVisits =
      [staticSite, dynamicSite, malformedSite, staticSite, dynamicSite, malformedSite] := rfl
  rw [Resolver.initialState, hSites] at hAccounts
  have hStatic : staticSite.isMalformed = false := by cbv
  have hDynamic : dynamicSite.isMalformed = false := by cbv
  have hMalformed : malformedSite.isMalformed = true := by cbv
  have hDynamicSkipped : mixedResolver.made dynamicSite = [] :=
    (hAccounts.skipped dynamicSite (by simp)).mpr ⟨rfl, .inl rfl⟩
  have hMalformedSkipped : mixedResolver.made malformedSite = [] :=
    (hAccounts.skipped malformedSite (by simp)).mpr ⟨rfl, .inr hMalformed⟩
  have hMade : [staticSite, dynamicSite, malformedSite, staticSite, dynamicSite,
      malformedSite].flatMap mixedResolver.made = [mixedCall, mixedCall] := by
    simp [made_staticSite, hDynamicSkipped, hMalformedSkipped]
  have hKept : mixedResolver.kept mixedCall = { mixedCall with arguments := [] } :=
    (hAccounts.cleared rfl mixedCall).eq_clearValues
  refine ⟨hVisited, ?_, ?_, ?_, ?_, ?_, ?_, ?_, ?_⟩
  · rw [hAccounts.hook]
    rfl
  · rw [hAccounts.visitors, hMade]
    rfl
  · rw [hAccounts.visitors, hMade]
    rfl
  · rw [hAccounts.visitors]
    rfl
  · rw [hAccounts.calls, hMade, List.map_cons, List.map_singleton, hKept]
    rfl
  · rw [hAccounts.symbolic, hMade]
    rfl
  · rw [hAccounts.incomplete]
    simp [made_staticSite, hDynamicSkipped, hMalformedSkipped]
  · rw [hAccounts.malformed]
    simp [hStatic, hDynamic, hMalformed]

end JvmCalls
