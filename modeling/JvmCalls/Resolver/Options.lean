import JvmCalls.Settings.Document

/-! Options of a call resolver. -/
namespace JvmCalls

structure ResolverOptions where
  /-- Calls lose the values around them once the visitors have seen them. -/
  clearCallValuesAfterVisit : Bool := true
  /-- Tell by dominance whether a call may be left out. -/
  useDominatorAnalysis : Bool := false
  /-- Dispatch on the subclasses of a receiver whose type may be extended. -/
  includeSubclasses : Bool := false
  /-- The most steps that an evaluation of a method may take. -/
  maxAnalysisSteps : Option Nat := none
  /-- Leave out calls whose target signature has unknown parts. -/
  skipIncompleteCalls : Bool := false
  /-- Dominance does not follow exceptions. -/
  ignoreExceptionEdges : Bool := true
  /-- Resolve the calls of library classes too. -/
  includeLibraryClasses : Bool := false
deriving DecidableEq, Repr, Inhabited

/-- The names of the options in documents, in order. -/
def ResolverOptions.names : List String :=
  ["clear_call_values_after_visit", "use_dominator_analysis", "include_subclasses",
   "max_analysis_steps", "skip_incomplete_calls", "ignore_exception_edges",
   "include_library_classes"]

/-- Fields that are absent have their defaults, fields that are unknown are
ignored. -/
def ResolverOptions.ofDocument? (d : Document) : Option ResolverOptions := do
  let fields ← d.fields? names
  let clearValues ← Document.flagField? fields "clear_call_values_after_visit" true
  let useDominators ← Document.flagField? fields "use_dominator_analysis" false
  let subclasses ← Document.flagField? fields "include_subclasses" false
  let maxSteps ← Document.countField? fields "max_analysis_steps"
  let skipIncomplete ← Document.flagField? fields "skip_incomplete_calls" false
  let ignoreExceptions ← Document.flagField? fields "ignore_exception_edges" true
  let libraries ← Document.flagField? fields "include_library_classes" false
  return ⟨clearValues, useDominators, subclasses, maxSteps, skipIncomplete,
    ignoreExceptions, libraries⟩

/-- All fields, also those that have their defaults. -/
def ResolverOptions.toDocument (o : ResolverOptions) : Document :=
  .record [
    ("clear_call_values_after_visit", .flag o.clearCallValuesAfterVisit),
    ("use_dominator_analysis", .flag o.useDominatorAnalysis),
    ("include_subclasses", .flag o.includeSubclasses),
    ("max_analysis_steps", Document.ofOption (fun n => .int n) o.maxAnalysisSteps),
    ("skip_incomplete_calls", .flag o.skipIncompleteCalls),
    ("ignore_exception_edges", .flag o.ignoreExceptionEdges),
    ("include_library_classes", .flag o.includeLibraryClasses)]

end JvmCalls
