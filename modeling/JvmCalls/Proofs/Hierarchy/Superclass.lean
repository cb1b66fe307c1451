import JvmCalls.Proofs.Hierarchy.View
import Mathlib.Data.List.Induction

/-! The superclass of a class after any operations on a repository, in any
order. A class keeps the superclass that its class file names, unless the
repository was closed while the class was known only by name. Such a class
was linked to the root then, and that link comes first. -/
namespace JvmCalls

/-- What may be done with a repository. Registering several classes is one
operation, which goes over them in order. -/
inductive RepositoryOp where
  | register (content : ClassFile) (library : Bool)
  | registerAll (contents : List ClassFile) (library : Bool)
  | close

namespace RepositoryView

/-- What an operation does to the view of a repository. -/
def perform (v : RepositoryView) : RepositoryOp → RepositoryView
  | .register content _ => v.register content
  | .registerAll contents _ => contents.foldl register v
  | .close => v.close

/-- All that decides about superclasses, for the classes that were `adopted`
by the root when they had no definition. -/
structure Keeps (adopted : String → Prop) (v : RepositoryView) : Prop where
  root : ∀ name, adopted name → v.superclass? name = some objectName
  unlinked : ∀ name, ¬ adopted name → v.definition? name = none → ∀ l ∈ v.links, l.name ≠ name
  declared : ∀ name c superclass, ¬ adopted name → v.definition? name = some c →
    c.superclass = some superclass → v.superclass? name = some superclass

variable {v : RepositoryView} {adopted : String → Prop}

/-- A superclass is never lost by new links, as the first link counts. -/
theorem superclass?_append {w : RepositoryView} {links : List NamedLink} {name superclass : String}
    (hLinks : w.links = v.links ++ links) (hSuperclass : v.superclass? name = some superclass) :
    w.superclass? name = some superclass := by
  obtain ⟨l, hFind, hParent⟩ := Option.map_eq_some_iff.mp hSuperclass
  rw [superclass?, hLinks, List.find?_append, hFind, Option.some_or, Option.map_some, hParent]

/-- Where no link was there before, the first of the new ones counts. Later
links never change a superclass. -/
theorem superclass?_append_new {w : RepositoryView} {links : List NamedLink} {name : String}
    (hLinks : w.links = v.links ++ links) (hNone : ∀ l ∈ v.links, l.name ≠ name) :
    w.superclass? name = (links.find? fun l => l.name == name && l.kind == .superclass).map
      NamedLink.parent := by
  have hFind : (v.links.find? fun l => l.name == name && l.kind == .superclass) = none := by
    rw [List.find?_eq_none]
    intro l hl hMatch
    rw [Bool.and_eq_true, beq_iff_eq] at hMatch
    exact hNone l hl hMatch.1
  rw [superclass?, hLinks, List.find?_append, hFind, Option.none_or]

/-- Inheriting adds the links behind all others. Placeholders that are
declared on the way have none. -/
theorem links_foldl_inherit (links : List NamedLink) :
    (links.foldl inherit v).links = v.links ++ links := by
  induction links generalizing v with
  | nil => rw [List.foldl_nil, List.append_nil]
  | cons l rest ih =>
      rw [List.foldl_cons, ih, inherit, List.append_assoc]
      rfl

theorem definition?_foldl_inherit (links : List NamedLink) :
    (links.foldl inherit v).definition? = v.definition? := by
  induction links generalizing v with
  | nil => rfl
  | cons l rest ih =>
      rw [List.foldl_cons, ih]
      exact definition?_declare v l.parent

theorem name_of_mem_declaredLinks {c : ClassFile} {l : NamedLink} (hl : l ∈ c.declaredLinks) :
    l.name = c.name := by
  rcases List.mem_append.mp hl with hMem | hMem
  · obtain ⟨_, _, rfl⟩ := List.mem_map.mp hMem
    rfl
  · obtain ⟨_, _, rfl⟩ := List.mem_map.mp hMem
    rfl

/-- A class file names its superclass before its interfaces. -/
theorem find?_declaredLinks {c : ClassFile} {superclass : String}
    (hSuperclass : c.superclass = some superclass) :
    (c.declaredLinks.find? fun l => l.name == c.name && l.kind == .superclass).map
      NamedLink.parent = some superclass := by
  simp [ClassFile.declaredLinks, hSuperclass]

/-- An adopted class has the root as its superclass. -/
theorem find?_adopted {names : List String} {name : String} (hMem : name ∈ names) :
    ((names.map fun name => (⟨name, objectName, .superclass⟩ : NamedLink)).find? fun l =>
      l.name == name && l.kind == .superclass).map NamedLink.parent = some objectName := by
  induction names with
  | nil => cases hMem
  | cons first rest ih =>
      rw [List.map_cons]
      by_cases hFirst : first = name
      · rw [List.find?_cons_of_pos (by simp [hFirst])]
        rfl
      · rw [List.find?_cons_of_neg (by simp [hFirst])]
        exact ih ((List.mem_cons.mp hMem).resolve_left (Ne.symm hFirst))

/-- A first registration adds the declared links behind all others. -/
theorem links_register {content : ClassFile} (hNew : v.definition? content.name = none) :
    (v.register content).links = v.links ++ content.declaredLinks := by
  rw [register, if_neg (by simp [hNew]), links_foldl_inherit]
  exact congrArg (· ++ _) (links_declare v content.name)

/-- A first registration defines its class and no other one. -/
theorem definition?_register {content : ClassFile} (hNew : v.definition? content.name = none)
    (name : String) : (v.register content).definition? name =
      if name = content.name then some content else v.definition? name := by
  rw [register, if_neg (by simp [hNew]), definition?_foldl_inherit]
  rfl

/-- A registration preserves what is known about superclasses. A class that
was adopted keeps the root, and one that was not gets the superclass that
its file names. -/
theorem Keeps.register (hKeeps : v.Keeps adopted) (content : ClassFile) :
    (v.register content).Keeps adopted := by
  by_cases hDefined : (v.definition? content.name).isSome = true
  · rw [RepositoryView.register, if_pos hDefined]
    exact hKeeps
  · have hNew : v.definition? content.name = none := by simpa using hDefined
    have hLinks := links_register hNew
    refine ⟨?_, ?_, ?_⟩
    · intro name hAdopted
      exact superclass?_append hLinks (hKeeps.root name hAdopted)
    · intro name hAdopted hNone l hl hName
      rw [definition?_register hNew] at hNone
      split at hNone
      · cases hNone
      · next hOther =>
          rw [hLinks] at hl
          rcases List.mem_append.mp hl with hOld | hDeclared
          · exact hKeeps.unlinked name hAdopted hNone l hOld hName
          · exact hOther (hName.symm.trans (name_of_mem_declaredLinks hDeclared))
    · intro name c superclass hAdopted hSome hSuperclass
      rw [definition?_register hNew] at hSome
      split at hSome
      · next hSame =>
          -- Nothing was linked before, so the first declared link is the first of all.
          obtain rfl : content = c := Option.some.inj hSome
          have hUnlinked := hKeeps.unlinked content.name (hSame ▸ hAdopted) hNew
          rw [hSame, superclass?_append_new hLinks hUnlinked, find?_declaredLinks hSuperclass]
      · exact superclass?_append hLinks
          (hKeeps.declared name c superclass hAdopted hSome hSuperclass)

/-- So do several registrations, one after the other. -/
theorem Keeps.foldl_register (hKeeps : v.Keeps adopted) (contents : List ClassFile) :
    (contents.foldl RepositoryView.register v).Keeps adopted := by
  induction contents generalizing v with
  | nil => exact hKeeps
  | cons content rest ih => exact ih (hKeeps.register content)

/-- Closing adds links for the orphans and no others. -/
theorem links_close : v.close.links = v.links ++
    (v.declare objectName).orphans.map fun name => ⟨name, objectName, .superclass⟩ :=
  congrArg (· ++ _) (links_declare v objectName)

theorem definition?_close : v.close.definition? = v.definition? :=
  definition?_declare v objectName

/-- Declaring the root makes no other orphan, and the root is none. So the
classes to adopt are known before the root is declared. -/
theorem mem_orphans_declare {name : String} : name ∈ (v.declare objectName).orphans ↔
    name ∈ v.names ∧ name ≠ objectName ∧ ∀ l ∈ v.links, l.name ≠ name := by
  rw [orphans, List.mem_filter, mem_names_declare, links_declare, decide_eq_true_eq]
  constructor
  · rintro ⟨hKnown | hRoot, hNe, hUnlinked⟩
    · exact ⟨hKnown, hNe, hUnlinked⟩
    · exact False.elim (hNe hRoot)
  · rintro ⟨hKnown, hNe, hUnlinked⟩
    exact ⟨.inl hKnown, hNe, hUnlinked⟩

/-- Closing adopts every class that is known by name only. This is the only
way in which a class can come to have a superclass that no file names for
it. -/
theorem Keeps.close (hKeeps : v.Keeps adopted) :
    v.close.Keeps fun name => adopted name ∨
      name ≠ objectName ∧ name ∈ v.names ∧ v.definition? name = none := by
  refine ⟨?_, ?_, ?_⟩
  · intro name hNow
    by_cases hAdopted : adopted name
    · exact superclass?_append links_close (hKeeps.root name hAdopted)
    · obtain ⟨hNe, hKnown, hNone⟩ := hNow.resolve_left hAdopted
      have hUnlinked := hKeeps.unlinked name hAdopted hNone
      rw [superclass?_append_new links_close hUnlinked]
      exact find?_adopted (mem_orphans_declare.mpr ⟨hKnown, hNe, hUnlinked⟩)
  · intro name hNever hNone l hl hName
    rw [definition?_close] at hNone
    rw [links_close] at hl
    rcases List.mem_append.mp hl with hOld | hNew
    · exact hKeeps.unlinked name (fun hAdopted => hNever (.inl hAdopted)) hNone l hOld hName
    · obtain ⟨orphan, hMem, rfl⟩ := List.mem_map.mp hNew
      obtain ⟨hKnown, hNe, _⟩ := mem_orphans_declare.mp hMem
      obtain rfl : orphan = name := hName
      exact hNever (.inr ⟨hNe, hKnown, hNone⟩)
  · intro name c superclass hNever hSome hSuperclass
    rw [definition?_close] at hSome
    have hAdopted : ¬ adopted name := fun hAdopted => hNever (.inl hAdopted)
    exact superclass?_append links_close
      (hKeeps.declared name c superclass hAdopted hSome hSuperclass)

end RepositoryView

namespace Repository

/-- What an operation does to a repository. It may fail, which no operation
on a repository that can be made does. -/
def perform (r : Repository) : RepositoryOp → Except HierarchyError Repository
  | .register content library => (r.register content library).value
  | .registerAll contents library => (r.registerAll contents library).value
  | .close => r.close.value

/-- The repository after some operations, or the first error. -/
def performAll (r : Repository) (ops : List RepositoryOp) : Except HierarchyError Repository :=
  ops.foldlM perform r

/-- An operation never fails, and the view tells what it does. -/
theorem perform_shows (r : Repository) (op : RepositoryOp) :
    Shows (r.perform op) (r.view.perform op) := by
  cases op with
  | register content library => exact r.register_shows content library
  | registerAll contents library => exact r.registerAll_shows contents library
  | close => exact r.close_shows

/-- Neither do several operations, by one step after the other. -/
theorem performAll_shows (r : Repository) (ops : List RepositoryOp) :
    Shows (r.performAll ops) (ops.foldl RepositoryView.perform r.view) := by
  induction ops generalizing r with
  | nil => exact ⟨r, rfl, rfl⟩
  | cons op rest ih =>
      apply (r.perform_shows op).bind
      intro r' hView
      rw [List.foldl_cons, ← hView]
      exact ih r'

theorem view_empty : ({} : Repository).view = ⟨[], fun _ => none, []⟩ := by
  have hNone : ({} : Repository).definition? = fun _ => none := by
    funext name
    exact definition?_eq_none_of_not_mem List.not_mem_nil
  rw [view, hNone]
  rfl

theorem performAll_concat {ops : List RepositoryOp} {op : RepositoryOp} {r r' : Repository}
    (hRun : performAll {} ops = .ok r) (hLast : r.perform op = .ok r') :
    performAll {} (ops ++ [op]) = .ok r' := by
  rw [performAll] at hRun
  rw [performAll, List.foldlM_append, hRun]
  show (r.perform op >>= pure) = .ok r'
  rw [bind_pure]
  exact hLast

/-- The repository was closed when it was in this condition. Conditions of
the past are put in this way, as nothing of them need be left. -/
def ClosedWhen (P : Repository → Prop) (ops : List RepositoryOp) : Prop :=
  ∃ earlier later r, ops = earlier ++ .close :: later ∧ performAll {} earlier = .ok r ∧ P r

theorem not_closedWhen_nil (P : Repository → Prop) : ¬ ClosedWhen P [] := by
  rintro ⟨earlier, later, _, hSplit, _⟩
  exact List.append_ne_nil_of_right_ne_nil earlier (List.cons_ne_nil _ later) hSplit.symm

/-- One more operation closes the repository in a condition just if it is a
close and the condition holds right then. -/
theorem closedWhen_concat {P : Repository → Prop} {ops : List RepositoryOp} {r : Repository}
    (hRun : performAll {} ops = .ok r) (op : RepositoryOp) :
    ClosedWhen P (ops ++ [op]) ↔ ClosedWhen P ops ∨ op = .close ∧ P r := by
  constructor
  · rintro ⟨earlier, later, r', hSplit, hEarlier, hP⟩
    rcases List.eq_nil_or_concat later with rfl | ⟨later', last, rfl⟩
    · obtain ⟨hOps, hOp⟩ := List.append_inj' hSplit rfl
      subst hOps
      obtain rfl : r = r' := Except.ok.inj (hRun.symm.trans hEarlier)
      exact .inr ⟨List.head_eq_of_cons_eq hOp, hP⟩
    · rw [List.concat_eq_append, ← List.cons_append, ← List.append_assoc] at hSplit
      obtain ⟨hOps, -⟩ := List.append_inj' hSplit rfl
      exact .inl ⟨earlier, later', r', hOps, hEarlier, hP⟩
  · rintro (⟨earlier, later, r', rfl, hEarlier, hP⟩ | ⟨rfl, hP⟩)
    · refine ⟨earlier, later ++ [op], r', ?_, hEarlier, hP⟩
      rw [List.append_assoc, List.cons_append]
    · exact ⟨ops, [], r, rfl, hRun, hP⟩

/-- The repository was closed while a class was known by name only. The root
itself is never closed over. -/
def ClosedOver (ops : List RepositoryOp) (name : String) : Prop :=
  name ≠ objectName ∧ ClosedWhen (fun r => name ∈ r.missing) ops

/-- One more operation closes over a class just if it is a close and
the class is still missing. -/
theorem closedOver_concat {ops : List RepositoryOp} {r : Repository}
    (hRun : performAll {} ops = .ok r) (op : RepositoryOp) (name : String) :
    ClosedOver (ops ++ [op]) name ↔
      ClosedOver ops name ∨ op = .close ∧ name ≠ objectName ∧ name ∈ r.missing := by
  rw [ClosedOver, ClosedOver, closedWhen_concat hRun, and_or_left, and_left_comm]

theorem not_closedOver_nil (name : String) : ¬ ClosedOver [] name :=
  fun hClosed => not_closedWhen_nil _ hClosed.2

/-- What an operation adds to the classes that were closed over. It is the
step of the induction over operations. -/
theorem perform_keeps {ops : List RepositoryOp} {r : Repository}
    (hRun : performAll {} ops = .ok r) (hKeeps : r.view.Keeps (ClosedOver ops))
    (op : RepositoryOp) : (r.view.perform op).Keeps (ClosedOver (ops ++ [op])) := by
  have hHistory := funext fun name => propext (closedOver_concat hRun op name)
  rw [hHistory]
  cases op with
  | register content library =>
      simp only [reduceCtorEq, false_and, or_false]
      exact hKeeps.register content
  | registerAll contents library =>
      simp only [reduceCtorEq, false_and, or_false]
      exact hKeeps.foldl_register contents
  | close =>
      simp only [true_and, mem_missing]
      exact hKeeps.close

/-- No operation fails, and all of them keep what is known about
superclasses. -/
theorem performAll_keeps (ops : List RepositoryOp) :
    ∃ r, performAll {} ops = .ok r ∧ r.view.Keeps (ClosedOver ops) := by
  -- A history grows at its end, so the induction takes the last operation off.
  induction ops using List.reverseRecOn with
  | nil =>
      refine ⟨{}, rfl, ?_, ?_, ?_⟩
      · intro name hClosed
        exact False.elim (not_closedOver_nil name hClosed)
      · intro name _ _ l hl
        cases hl
      · intro name c superclass _ hSome
        rw [view_empty] at hSome
        cases hSome
  | append_singleton ops op ih =>
      obtain ⟨r, hRun, hKeeps⟩ := ih
      obtain ⟨r', hPerform, hView⟩ := r.perform_shows op
      exact ⟨r', performAll_concat hRun hPerform, hView ▸ perform_keeps hRun hKeeps op⟩

/-- A repository that was closed last shows what closing leaves of the one
before. -/
theorem view_of_closed {ops : List RepositoryOp} {r : Repository}
    (hRun : performAll {} (ops ++ [.close]) = .ok r) :
    ∃ before, performAll {} ops = .ok before ∧ r.view = before.view.close := by
  obtain ⟨before, hBefore, -⟩ := performAll_keeps ops
  obtain ⟨closed, hClose, hView⟩ := before.perform_shows .close
  obtain rfl : closed = r :=
    Except.ok.inj ((performAll_concat hBefore hClose).symm.trans hRun)
  exact ⟨before, hBefore, hView⟩

/-- The last close is not over a class that is defined. So only closes
before its definition matter to a class. -/
theorem closedOver_of_closed {ops : List RepositoryOp} {r : Repository} {name : String}
    {c : ClassFile} (hRun : performAll {} (ops ++ [.close]) = .ok r)
    (hDefined : r.definition? name = some c) (hClosed : ClosedOver (ops ++ [.close]) name) :
    ClosedOver ops name := by
  obtain ⟨before, hBefore, hView⟩ := view_of_closed hRun
  refine ((closedOver_concat hBefore .close name).mp hClosed).resolve_right ?_
  rintro ⟨-, -, hMissing⟩
  have hSame : r.view.definition? name = before.view.definition? name := by
    rw [hView, RepositoryView.definition?_close]
  rw [(mem_missing.mp hMissing).2] at hSame
  exact Option.some_ne_none c (hDefined.symm.trans hSame)

/-- A repository that is closed once, after all classes were registered, has
the superclasses that class files name. -/
theorem superclass?_of_closed_last {ops : List RepositoryOp} {r : Repository}
    (hOpen : ∀ op ∈ ops, op ≠ .close) (hRun : performAll {} (ops ++ [.close]) = .ok r)
    {name superclass : String} {c : ClassFile} (hDefined : r.definition? name = some c)
    (hSuperclass : c.superclass = some superclass) : r.superclass? name = some superclass := by
  obtain ⟨r', hRun', hKeeps⟩ := performAll_keeps (ops ++ [.close])
  obtain rfl : r' = r := Except.ok.inj (hRun'.symm.trans hRun)
  have hNever : ¬ ClosedOver (ops ++ [.close]) name := by
    intro hClosed
    obtain ⟨-, earlier, later, -, rfl, -⟩ := closedOver_of_closed hRun hDefined hClosed
    exact hOpen .close (by simp) rfl
  rw [superclass?_view]
  exact hKeeps.declared name c superclass hNever hDefined hSuperclass

/-- After any operations, a class has the superclass that its class file
names exactly if it was not closed over before its definition. Otherwise it
has the root. -/
theorem superclass?_of_definition? (ops : List RepositoryOp) :
    ∃ r, performAll {} ops = .ok r ∧ ∀ name c superclass,
      r.definition? name = some c → c.superclass = some superclass →
      (r.superclass? name = some superclass ↔
        ¬ ClosedOver ops name ∨ superclass = objectName) ∧
      (ClosedOver ops name → r.superclass? name = some objectName) := by
  obtain ⟨r, hRun, hKeeps⟩ := performAll_keeps ops
  refine ⟨r, hRun, ?_⟩
  intro name c superclass hDefined hSuperclass
  rw [superclass?_view]
  refine ⟨?_, hKeeps.root name⟩
  by_cases hClosed : ClosedOver ops name
  · rw [hKeeps.root name hClosed]
    constructor
    · intro hEqual
      exact .inr (Option.some.inj hEqual).symm
    · rintro (hOpen | rfl)
      · exact False.elim (hOpen hClosed)
      · rfl
  · rw [hKeeps.declared name c superclass hClosed hDefined hSuperclass]
    exact ⟨fun _ => .inl hClosed, fun _ => rfl⟩

end Repository

/-- A class without members. -/
def emptyClass (name superclass : String) : ClassFile where
  flags := default
  name := name
  superclass := some superclass
  interfaces := []
  constants := {}
  methods := []

/-- A class is registered, the repository is closed, and only then is the
superclass of the class registered. -/
def lateParent : List RepositoryOp :=
  [.register (emptyClass "t/A" "t/B") false, .close, .register (emptyClass "t/B" "t/C") false]

/-- The late class does not have the superclass that its class file
names. -/
theorem lateParent_loses_superclass :
    ∃ r, Repository.performAll {} lateParent = .ok r ∧
      r.definition? "t/B" = some (emptyClass "t/B" "t/C") ∧
      r.superclass? "t/B" = some objectName ∧ objectName ≠ "t/C" := by
  obtain ⟨r, hRun, hView⟩ := Repository.performAll_shows {} lateParent
  rw [Repository.view_empty] at hView
  refine ⟨r, hRun, ?_, ?_, by decide⟩
  · show r.view.definition? "t/B" = _
    rw [hView]
    rfl
  · rw [Repository.superclass?_view, hView]
    rfl

/-- The late class was closed over, and the class that was registered before
was not. -/
theorem lateParent_closedOver :
    Repository.ClosedOver lateParent "t/B" ∧ ¬ Repository.ClosedOver lateParent "t/A" := by
  obtain ⟨r, hRun, hView⟩ :=
    Repository.performAll_shows {} [.register (emptyClass "t/A" "t/B") false]
  rw [Repository.view_empty] at hView
  constructor
  · refine ⟨by decide, _, _, r, rfl, hRun, Repository.mem_missing.mpr ?_⟩
    rw [hView]
    exact ⟨by decide, rfl⟩
  · rintro ⟨_, earlier, later, r', hSplit, hEarlier, hMissing⟩
    match earlier with
    | [] => simp [lateParent] at hSplit
    | [first] =>
        obtain rfl : .register (emptyClass "t/A" "t/B") false = first :=
          List.head_eq_of_cons_eq hSplit
        obtain rfl : r = r' := Except.ok.inj (hRun.symm.trans hEarlier)
        obtain ⟨_, hNone⟩ := Repository.mem_missing.mp hMissing
        rw [hView] at hNone
        cases hNone
    | [first, second] => simp [lateParent] at hSplit
    | first :: second :: third :: rest => simp [lateParent] at hSplit

theorem lateParent_superclasses :
    ∃ r, Repository.performAll {} lateParent = .ok r ∧
      r.superclass? "t/A" = some "t/B" ∧ r.superclass? "t/B" = some objectName := by
  obtain ⟨r, hRun, hSuperclass⟩ := Repository.superclass?_of_definition? lateParent
  obtain ⟨r', hRun', hView⟩ := Repository.performAll_shows {} lateParent
  obtain rfl : r = r' := Except.ok.inj (hRun.symm.trans hRun')
  rw [Repository.view_empty] at hView
  have hFirst : r.view.definition? "t/A" = some (emptyClass "t/A" "t/B") := by
    rw [hView]
    rfl
  have hLate : r.view.definition? "t/B" = some (emptyClass "t/B" "t/C") := by
    rw [hView]
    rfl
  obtain ⟨hClosed, hOpen⟩ := lateParent_closedOver
  exact ⟨r, hRun, (hSuperclass "t/A" _ "t/B" hFirst rfl).1.mpr (.inl hOpen),
    (hSuperclass "t/B" _ "t/C" hLate rfl).2 hClosed⟩

end JvmCalls
