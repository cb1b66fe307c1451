import JvmCalls.Pattern.Parser
import JvmCalls.Proofs.Hierarchy.History
import JvmCalls.Proofs.Resolver.Accounting
import JvmCalls.Proofs.Resolver.Agreement

/-! Resolving fewer classes. The calls of a class are those whose caller it
declares, and no class has a part in the calls and counters of another one,
so that leaving out classes leaves out their calls and their increments and
nothing else. -/
namespace JvmCalls

namespace Repository

/-- The class was registered as part of a library. -/
def isLibrary (r : Repository) (name : String) : Bool := (r.registered? name).any Prod.snd

/-- A class file is registered by its own name. -/
theorem registered?_of_mem_registrations {history : List RepositoryOp} {r : Repository}
    (hRun : performAll {} history = .ok r) {x : ClassFile × Bool} (h : x ∈ r.registrations) :
    r.registered? x.1.name = some x := by
  obtain ⟨name, -, hName⟩ := List.mem_filterMap.mp h
  have hFirst := hName
  rw [(traces_of_performAll hRun).registered] at hFirst
  rw [name_of_firstNamed hFirst, hName]

end Repository

namespace Resolver

/-- The resolver with the option to resolve libraries set to this. -/
def including (r : Resolver) (libraries : Bool) : Resolver :=
  { r with options := { r.options with includeLibraryClasses := libraries } }

variable {r : Resolver}

/-- Without libraries, the classes to visit are those that no library
registered. -/
theorem classes_including_false {history : List RepositoryOp}
    (hRun : Repository.performAll {} history = .ok r.repository) :
    (r.including false).classes =
      (r.including true).classes.filter fun c => !r.repository.isLibrary c.name := by
  rw [classes_eq_registrations, classes_eq_registrations, List.filter_map, List.filter_filter]
  apply congrArg (List.map Prod.fst)
  apply List.filter_congr
  intro x hx
  have hRegistered := Repository.registered?_of_mem_registrations hRun hx
  simp [including, Repository.isLibrary, hRegistered]

variable {file : ClassFile} {c : Call}

/-- The sites of a class stand in that class. -/
theorem owner_of_mem_sitesOfClass {asked : History} {s : CallSite}
    (h : s ∈ r.sitesOfClass asked file) :
    s.owner = file := by
  obtain ⟨x, -, hMethod⟩ := List.mem_flatMap.mp h
  obtain ⟨code, -, p, -, hSite⟩ := at?_of_mem_sitesOfMethod hMethod
  obtain ⟨invoked, -, rfl⟩ := Option.map_eq_some_iff.mp hSite
  rfl

/-- The caller tells the class in which a call stands. So calls can be
chosen afterwards by the class that they stand in. -/
theorem owner_of_mem_callsOfClass (h : c ∈ (r.callsOfClass [] file).value) :
    c.callerSignature.owner = some file.name := by
  have hLists := callsOfClass_lists (r := r) [] file
  rw [hLists.value] at h
  obtain ⟨made, hMade, rfl⟩ := List.mem_map.mp h
  obtain ⟨s, hs, hSite⟩ := List.mem_flatMap.mp hMade
  have hCaller : (r.kept made).caller = s.location :=
    (congrArg Call.caller (clearValues_kept made)).trans (hLists.located s hs made hSite).1
  rw [Call.callerSignature, hCaller, CallSite.location, owner_of_mem_sitesOfClass hs]
  rfl

/-- Choosing calls by the class of their caller keeps all calls of a class
or none. -/
theorem filter_callsOfClass (p : String → Bool) (file : ClassFile) :
    (r.callsOfClass [] file).value.filter (fun c => c.callerSignature.owner.any p) =
      if p file.name then (r.callsOfClass [] file).value else [] := by
  have hOwner (c : Call) (hc : c ∈ (r.callsOfClass [] file).value) :
      c.callerSignature.owner.any p = p file.name := by
    rw [owner_of_mem_callsOfClass hc, Option.any_some]
  rw [List.filter_congr hOwner]
  split
  · next hPasses => simp [hPasses]
  · next hFails => simp [hFails]

end Resolver

namespace CallGraph

variable {r : Resolver}

/-- So choosing classes before the search is choosing calls after it. -/
theorem calls_ofClasses_filter (p : String → Bool) (classes : List ClassFile) :
    (ofClasses r (classes.filter fun c => p c.name)).value.calls =
      (ofClasses r classes).value.calls.filter fun c => c.callerSignature.owner.any p := by
  rw [calls_ofClasses, calls_ofClasses, List.filter_flatMap]
  simp only [Resolver.filter_callsOfClass]
  induction classes with
  | nil => rfl
  | cons file rest ih =>
      rw [List.flatMap_cons, ← ih, List.filter_cons]
      split
      · rw [List.flatMap_cons]
      · rw [List.nil_append]

/-- Two runs that share the classes out between them make the increments of
one run. -/
theorem counters_ofClasses_perm (p : String → Bool) (classes : List ClassFile) :
    ((ofClasses r (classes.filter fun c => p c.name)).events.filterMap Event.counter? ++
      (ofClasses r (classes.filter fun c => !p c.name)).events.filterMap Event.counter?).Perm
      ((ofClasses r classes).events.filterMap Event.counter?) := by
  have hShared : (classes.filter (fun c => p c.name) ++ classes.filter fun c => !p c.name).Perm
      classes := List.filter_append_perm _ _
  rw [counters_ofClasses, counters_ofClasses, counters_ofClasses, ← List.filterMap_append,
    Traced.events_gather, Traced.events_gather, Traced.events_gather, ← List.flatMap_append]
  exact (hShared.flatMap_right _).filterMap _

/-- What a test accepts and what it refuses add up to the whole, for each
counter. -/
theorem tally_ofNamed_add (p : String → Bool) (counter : Counter) :
    counter.tally (ofNamed r p).events + counter.tally (ofNamed r fun name => !p name).events =
      counter.tally (ofRepository r).events := by
  rw [Counter.tally, Counter.tally, ← List.count_append]
  exact (counters_ofClasses_perm p r.classes).count_eq counter

/-- Recording both runs after each other gives the counters of one run. -/
theorem record_ofNamed_ofNamed (p : String → Bool) (m : Metrics) :
    (m.record (ofNamed r p).events).record (ofNamed r fun name => !p name).events =
      m.record (ofRepository r).events := by
  rw [Metrics.record, Metrics.record, ← List.foldl_append]
  exact Metrics.foldl_increment_perm (counters_ofClasses_perm p r.classes) m

/-- Whatever language patterns are written in, the text of one selects the
classes that pass its test. That it does is logged, but not counted. -/
theorem ofMatching?_eq_ofNamed {compile : String → Option (String → Bool)} {text : String}
    {p : String → Bool} (h : compile text = some p) :
    (ofMatching? compile r text).value = some (ofNamed r p).value ∧
      ∀ counter : Counter, counter.tally (ofMatching? compile r text).events =
        counter.tally (ofNamed r p).events := by
  simp only [ofMatching?, h]
  constructor
  · rfl
  · intro counter
    simp [Counter.tally, Traced.log, Traced.emit, List.filterMap_cons, Event.counter?, ofNamed]

/-- Restricting the classes restricts the graph to the calls of their
methods, in their order. The classes that a test accepts and those that it
refuses share the increments of every counter between them. The classes of
libraries are left out in the same way. -/
theorem restriction_keeps_own_calls (r : Resolver) :
    (∀ p, (ofNamed r p).value.calls =
      (ofRepository r).value.calls.filter fun c => c.callerSignature.owner.any p) ∧
    (∀ p (counter : Counter),
      counter.tally (ofNamed r p).events + counter.tally (ofNamed r fun name => !p name).events =
        counter.tally (ofRepository r).events) ∧
    (∀ p (m : Metrics),
      (m.record (ofNamed r p).events).record (ofNamed r fun name => !p name).events =
        m.record (ofRepository r).events) ∧
    (∀ (compile : String → Option (String → Bool)) text p, compile text = some p →
      (ofMatching? compile r text).value = some (ofNamed r p).value ∧
      ∀ counter : Counter, counter.tally (ofMatching? compile r text).events =
        counter.tally (ofNamed r p).events) ∧
    ∀ history, Repository.performAll {} history = .ok r.repository →
      (ofRepository (r.including false)).value.calls =
        (ofRepository (r.including true)).value.calls.filter fun c =>
          c.callerSignature.owner.any fun name => !r.repository.isLibrary name := by
  refine ⟨fun p => calls_ofClasses_filter p r.classes, tally_ofNamed_add, record_ofNamed_ofNamed,
    fun compile text p => ofMatching?_eq_ofNamed, ?_⟩
  intro history hRun
  have hSame : ofClasses (r.including false) = ofClasses (r.including true) := rfl
  rw [ofRepository, ofRepository, Resolver.classes_including_false hRun, hSame]
  exact calls_ofClasses_filter (fun name => !r.repository.isLibrary name) _

end CallGraph

/-- A class, and its superclass in a library that is defined after the
repository was closed. -/
def libraryParent : List RepositoryOp :=
  [.register inheritingCaller false, .close, .register (CallGraph.malformedCaller "t/B") true]

/-- The pattern selects the class of the library, the options leave it
out. -/
theorem libraryParent_restricted :
    ∃ repository p, Repository.performAll {} libraryParent = .ok repository ∧
      Pattern.compile? "B$" = some p ∧
      (CallGraph.ofMatching? Pattern.compile? (childFirstResolver.on repository) "B$").value.map
        (fun g => g.calls.map Call.callerSignature) = some [.of "t/B" "f" "()V"] ∧
      (CallGraph.ofRepository ((childFirstResolver.on repository).including false)).value.calls.map
        Call.callerSignature = [.of "t/A" "g" "()V"] ∧
      Counter.tally .malformedInvocation
          (CallGraph.ofNamed (childFirstResolver.on repository) p).events +
        Counter.tally .malformedInvocation
          (CallGraph.ofNamed (childFirstResolver.on repository)
            fun name => !p name).events = 1 := by
  have hCallers : (Repository.performAll {} libraryParent).toOption.map (fun repository =>
      (CallGraph.ofRepository (childFirstResolver.on repository)).value.calls.map
        Call.callerSignature) = some [.of "t/A" "g" "()V", .of "t/B" "f" "()V"] := by
    simp only [CallGraph.ofRepository, CallGraph.calls_ofClasses]
    decide +kernel
  have hMalformed : (Repository.performAll {} libraryParent).toOption.map (fun repository =>
      Counter.tally .malformedInvocation
        (CallGraph.ofRepository (childFirstResolver.on repository)).events) = some 1 := by
    decide +kernel
  have hLibrary : (Repository.performAll {} libraryParent).toOption.map (fun repository =>
      (repository.isLibrary "t/A", repository.isLibrary "t/B")) = some (false, true) := by
    decide +kernel
  have hMatches : (Pattern.compile? "B$").map (fun p => (p "t/A", p "t/B")) =
      some (false, true) := by decide +kernel
  obtain ⟨p, hPattern, hMatch⟩ := Option.map_eq_some_iff.mp hMatches
  obtain ⟨repository, hRun, -⟩ := Repository.performAll_traces libraryParent
  rw [hRun] at hCallers hMalformed hLibrary
  obtain ⟨hNamed, hCounters, -, hSelected, hOwn⟩ :=
    CallGraph.restriction_keeps_own_calls (childFirstResolver.on repository)
  have hKept (p : String → Bool) :
      ((CallGraph.ofRepository (childFirstResolver.on repository)).value.calls.filter
        fun c => c.callerSignature.owner.any p).map Call.callerSignature =
      [.of "t/A" "g" "()V", .of "t/B" "f" "()V"].filter fun s => s.owner.any p := by
    rw [← Option.some.inj hCallers, List.filter_map]
    rfl
  obtain ⟨hMatchA, hMatchB⟩ := Prod.mk.inj hMatch
  obtain ⟨hLibraryA, hLibraryB⟩ := Prod.mk.inj (Option.some.inj hLibrary)
  refine ⟨repository, p, hRun, hPattern, ?_, ?_, ?_⟩
  · rw [(hSelected Pattern.compile? "B$" p hPattern).1, Option.map_some, hNamed, hKept]
    simp [MethodSignature.of, hMatchA, hMatchB]
  · rw [hOwn libraryParent hRun]
    refine (hKept _).trans ?_
    simp [MethodSignature.of, Resolver.on, hLibraryA, hLibraryB]
  · rw [hCounters]
    exact Option.some.inj hMalformed

end JvmCalls
