import JvmCalls.Proofs.Hierarchy.Registration

/-! What a repository holds after any operations, in any order. Each name
has the first class file that was registered by it, and each class the links
that its class file declares. Where the repository was closed while a class
had no links, the class has a link to the root besides. Nothing else that
was done has left a trace. -/
namespace JvmCalls

namespace RepositoryView

/-- The links that the class file of a name declares. -/
def declaredLinks (v : RepositoryView) (name : String) : List NamedLink :=
  ((v.definition? name).map ClassFile.declaredLinks).getD []

/-- All links are declared ones and those of the classes that the root has
`adopted`. The link to the root comes first, as it was there before the
definition. -/
structure Accounted (adopted : String → Prop) (v : RepositoryView) : Prop where
  root : ∀ name, adopted name →
    v.linksOf name = ⟨name, objectName, .superclass⟩ :: v.declaredLinks name
  others : ∀ name, ¬ adopted name → v.linksOf name = v.declaredLinks name

variable {v : RepositoryView} {adopted : String → Prop}

/-- A registration adds the links that the file declares, and they are links
of its own class. -/
theorem linksOf_register {content : ClassFile} (hNew : v.definition? content.name = none)
    (name : String) : (v.register content).linksOf name = v.linksOf name ++
      if content.name = name then content.declaredLinks else [] := by
  rw [linksOf, links_register hNew, List.filter_append, filter_declaredLinks]
  rfl

theorem declaredLinks_register {content : ClassFile} (hNew : v.definition? content.name = none)
    (name : String) : (v.register content).declaredLinks name = v.declaredLinks name ++
      if content.name = name then content.declaredLinks else [] := by
  rw [declaredLinks, declaredLinks, definition?_register hNew]
  by_cases hSame : content.name = name
  · rw [if_pos hSame.symm, if_pos hSame, ← hSame, hNew]
    rfl
  · rw [if_neg (Ne.symm hSame), if_neg hSame, List.append_nil]

/-- A registration keeps the account, whether it counts or is ignored. Its
links are behind all others of the class. -/
theorem Accounted.register (h : v.Accounted adopted) (content : ClassFile) :
    (v.register content).Accounted adopted := by
  by_cases hDefined : (v.definition? content.name).isSome = true
  · rw [RepositoryView.register, if_pos hDefined]
    exact h
  · have hNew : v.definition? content.name = none := by simpa using hDefined
    refine ⟨?_, ?_⟩
    · intro name hAdopted
      rw [linksOf_register hNew, declaredLinks_register hNew, h.root name hAdopted,
        List.cons_append]
    · intro name hOther
      rw [linksOf_register hNew, declaredLinks_register hNew, h.others name hOther]

theorem Accounted.foldl_register (h : v.Accounted adopted) (contents : List ClassFile) :
    (contents.foldl RepositoryView.register v).Accounted adopted := by
  induction contents generalizing v with
  | nil => exact h
  | cons content rest ih => exact ih (h.register content)

/-- Orphans are the classes without any link, the root apart. A link to an
interface is one. -/
theorem mem_orphans_iff {name : String} : name ∈ v.orphans ↔
    name ∈ v.names ∧ name ≠ objectName ∧ ∀ l ∈ v.links, l.name ≠ name := by
  rw [orphans, List.mem_filter, decide_eq_true_eq]

theorem mem_orphans_declare_iff {name : String} :
    name ∈ (v.declare objectName).orphans ↔ name ∈ v.orphans := by
  rw [mem_orphans_declare, mem_orphans_iff]

/-- An orphan has no links. -/
theorem linksOf_of_mem_orphans {name : String} (hOrphan : name ∈ v.orphans) :
    v.linksOf name = [] := by
  obtain ⟨-, -, hUnlinked⟩ := mem_orphans_iff.mp hOrphan
  apply List.eq_nil_iff_forall_not_mem.mpr
  intro l hl
  obtain ⟨hLink, hName⟩ := mem_linksOf.mp hl
  exact hUnlinked l hLink hName

/-- Closing adopts the classes without links, and those have declared none.
So the link to the root is their only one. -/
theorem Accounted.close (h : v.Accounted adopted) (hNames : v.names.Nodup) :
    v.close.Accounted fun name => adopted name ∨ name ∈ v.orphans := by
  have hDeclared (name : String) : v.close.declaredLinks name = v.declaredLinks name := by
    rw [declaredLinks, declaredLinks, definition?_close]
  refine ⟨?_, ?_⟩
  · intro name hNow
    rw [linksOf_close hNames, hDeclared]
    by_cases hAdopted : adopted name
    · have hLinks := h.root name hAdopted
      have hLinked : ¬ name ∈ (v.declare objectName).orphans := by
        intro hOrphan
        rw [linksOf_of_mem_orphans (mem_orphans_declare_iff.mp hOrphan)] at hLinks
        cases hLinks
      rw [if_neg hLinked, List.append_nil, hLinks]
    · -- The new link is the only one, so it comes before the declared ones, of which there
      -- are none.
      have hOrphan := hNow.resolve_left hAdopted
      have hNone := linksOf_of_mem_orphans hOrphan
      rw [if_pos (mem_orphans_declare_iff.mpr hOrphan), ← h.others name hAdopted, hNone,
        List.nil_append]
  · intro name hNever
    obtain ⟨hAdopted, hLinked⟩ := not_or.mp hNever
    rw [linksOf_close hNames, hDeclared,
      if_neg (fun hOrphan => hLinked (mem_orphans_declare_iff.mp hOrphan)), List.append_nil,
      h.others name hAdopted]

/-- A closed repository has no class that could be adopted. So closing twice
is closing once. -/
theorem orphans_close : v.close.orphans = [] := by
  apply List.eq_nil_iff_forall_not_mem.mpr
  intro name hOrphan
  obtain ⟨hKnown, hNe, hUnlinked⟩ := mem_orphans_iff.mp hOrphan
  rw [links_close] at hUnlinked
  have hBefore : name ∈ (v.declare objectName).orphans := by
    refine mem_orphans_iff.mpr ⟨hKnown, hNe, ?_⟩
    intro l hl
    rw [links_declare] at hl
    exact hUnlinked l (List.mem_append_left _ hl)
  exact hUnlinked _ (List.mem_append_right _ (List.mem_map_of_mem hBefore)) rfl

end RepositoryView

/-- The class files that an operation registers, each with the flag whether
it comes from a library. -/
def RepositoryOp.files : RepositoryOp → List (ClassFile × Bool)
  | .register content library => [(content, library)]
  | .registerAll contents library => contents.map fun content => (content, library)
  | .close => []

/-- The first of the files that defines a class of this name. -/
def firstNamed (files : List (ClassFile × Bool)) (name : String) : Option (ClassFile × Bool) :=
  files.find? fun x => x.1.name == name

/-- Files that come later count where no earlier one has the name. -/
theorem firstNamed_append (l k : List (ClassFile × Bool)) (name : String) :
    firstNamed (l ++ k) name = (firstNamed l name).or (firstNamed k name) :=
  List.find?_append

theorem firstNamed_singleton (content : ClassFile) (library : Bool) (name : String) :
    firstNamed [(content, library)] name =
      if name = content.name then some (content, library) else none := by
  rw [firstNamed, List.find?_singleton]
  simp only [beq_iff_eq, eq_comm (a := content.name)]

theorem name_of_firstNamed {files : List (ClassFile × Bool)} {name : String}
    {x : ClassFile × Bool} (h : firstNamed files name = some x) : x.1.name = name := by
  have hFits := List.find?_some (p := fun y : ClassFile × Bool => y.1.name == name) h
  exact beq_iff_eq.mp hFits

namespace Repository

variable {r r' : Repository}

/-- A registration counts where nothing was registered before. Later ones of
the same name change nothing. -/
theorem registered?_register_eq {content : ClassFile} {library : Bool}
    (h : (r.register content library).value = .ok r') (name : String) :
    r'.registered? name = (r.registered? name).or (firstNamed [(content, library)] name) := by
  rw [firstNamed_singleton]
  cases hOld : r.registered? content.name with
  | none =>
      rw [registered?_register hOld h]
      split
      · next hSame =>
          rw [hSame, hOld]
          rfl
      · rw [Option.or_none]
  | some x =>
      have hDefined : r.isDefined content.name = true := by
        rw [isDefined, definition?_eq_registered?, hOld]
        rfl
      rw [register_of_isDefined hDefined] at h
      cases h
      split
      · next hSame =>
          rw [hSame, hOld]
          rfl
      · rw [Option.or_none]

/-- Registering files one after the other registers the first of each
name. -/
theorem registered?_registerAll {contents : List ClassFile} {library : Bool}
    (h : (r.registerAll contents library).value = .ok r') (name : String) :
    r'.registered? name = (r.registered? name).or
      (firstNamed (contents.map fun content => (content, library)) name) := by
  induction contents generalizing r with
  | nil =>
      cases h
      exact Option.or_none.symm
  | cons content rest ih =>
      obtain ⟨registered, hRegister, hRest⟩ := registerAll_cons h
      rw [ih hRest, registered?_register_eq hRegister, Option.or_assoc, ← firstNamed_append]
      rfl

/-- An operation adds its files behind those that were registered before. -/
theorem registered?_perform {op : RepositoryOp} (h : r.perform op = .ok r') (name : String) :
    r'.registered? name = (r.registered? name).or (firstNamed op.files name) := by
  cases op with
  | register content library => exact registered?_register_eq h name
  | registerAll contents library => exact registered?_registerAll h name
  | close =>
      rw [registered?_close h]
      exact Option.or_none.symm

/-- The class had no links when the repository was closed. -/
def Adopted (history : List RepositoryOp) (name : String) : Prop :=
  ClosedWhen (fun r => name ∈ r.hierarchy.orphans) history

/-- The names that a class is linked to, in the order of insertion. -/
def parentNames (r : Repository) (kind : Inheritance) (k : Nat) : List String :=
  r.hierarchy.namesAt (r.hierarchy.parentsBy kind k)

/-- An operation keeps the account of links, and what it closes over is
adopted. -/
theorem perform_accounted {history : List RepositoryOp} (hRun : performAll {} history = .ok r)
    (h : r.view.Accounted (Adopted history)) (op : RepositoryOp) :
    (r.view.perform op).Accounted (Adopted (history ++ [op])) := by
  have hAdopted : Adopted (history ++ [op]) = fun name =>
      Adopted history name ∨ op = .close ∧ name ∈ r.view.orphans := by
    funext name
    rw [Adopted, closedWhen_concat hRun, orphans_view]
    rfl
  rw [hAdopted]
  cases op with
  | register content library =>
      simp only [reduceCtorEq, false_and, or_false]
      exact h.register content
  | registerAll contents library =>
      simp only [reduceCtorEq, false_and, or_false]
      exact h.foldl_register contents
  | close =>
      simp only [true_and]
      exact h.close r.hierarchy.distinct

/-- What every operation adds to: the registered files, the links and the
root. It is the invariant of a history, and all that a repository reflects
follows from it. -/
structure Traces (history : List RepositoryOp) (r : Repository) : Prop where
  registered : ∀ name, r.registered? name = firstNamed (history.flatMap RepositoryOp.files) name
  links : r.view.Accounted (Adopted history)
  root : .close ∈ history → objectName ∈ r.view.names

theorem Traces.empty : Traces [] {} where
  registered name := by
    rw [registered?_eq_none_of_not_mem (show name ∉ ({} : Repository).hierarchy.names from
      List.not_mem_nil)]
    rfl
  links := by
    rw [view_empty]
    exact ⟨fun name hAdopted => False.elim (not_closedWhen_nil _ hAdopted), fun _ _ => rfl⟩
  root hMem := by cases hMem

theorem Grows.mem_names (h : r.Grows r') {name : String} (hKnown : name ∈ r.view.names) :
    name ∈ r'.view.names := by
  obtain ⟨n, hn, rfl⟩ := List.mem_map.mp hKnown
  obtain ⟨k, hAt⟩ := List.mem_iff_getElem?.mp hn
  obtain ⟨n', hAt', -, hName, -⟩ := h k n hAt
  exact List.mem_map.mpr ⟨n', List.mem_of_getElem? hAt', hName⟩

/-- One operation adds its own trace to those of the history. It is the step
of the induction over histories. -/
theorem Traces.perform {history : List RepositoryOp} {op : RepositoryOp} (h : Traces history r)
    (hRun : performAll {} history = .ok r) (hPerform : r.perform op = .ok r') :
    Traces (history ++ [op]) r' := by
  obtain ⟨performed, hOk, hView⟩ := r.perform_shows op
  obtain rfl : performed = r' := Except.ok.inj (hOk.symm.trans hPerform)
  refine ⟨?_, hView ▸ perform_accounted hRun h.links op, ?_⟩
  · intro name
    rw [registered?_perform hPerform, h.registered, ← firstNamed_append, List.flatMap_append,
      List.flatMap_singleton]
  · intro hClosed
    rcases List.mem_append.mp hClosed with hEarlier | hLast
    · exact (grows_of_steps (perform_steps hPerform)).mem_names (h.root hEarlier)
    · obtain rfl := List.mem_singleton.mp hLast
      rw [hView]
      exact RepositoryView.mem_names_declare.mpr (.inr rfl)

/-- A history leaves exactly its traces. It is built up from its end, as a
history grows there. -/
theorem performAll_traces (history : List RepositoryOp) :
    ∃ r, performAll {} history = .ok r ∧ Traces history r := by
  induction history using List.reverseRecOn with
  | nil => exact ⟨{}, rfl, .empty⟩
  | append_singleton history op ih =>
      obtain ⟨r, hRun, hTraces⟩ := ih
      obtain ⟨r', hPerform, -⟩ := r.perform_shows op
      exact ⟨r', performAll_concat hRun hPerform, hTraces.perform hRun hPerform⟩

theorem traces_of_performAll {history : List RepositoryOp} (h : performAll {} history = .ok r) :
    Traces history r := by
  obtain ⟨reached, hRun, hTraces⟩ := performAll_traces history
  obtain rfl : reached = r := Except.ok.inj (hRun.symm.trans h)
  exact hTraces

/-- The parents of a class are those of its links of the kind, in the order
of insertion. -/
theorem parentNames_eq {k : Nat} {n : ClassNode} (hAt : r.nodes[k]? = some n)
    (kind : Inheritance) : r.parentNames kind k =
      ((r.view.linksOf n.name).filter fun l => l.kind == kind).map NamedLink.parent := by
  have hName : r.hierarchy.nameAt? k = some n.name := by
    rw [nodes, Array.getElem?_toList] at hAt
    rw [Hierarchy.nameAt?, hAt, Option.map_some]
  rw [parentNames, Hierarchy.namesAt_parentsBy hName, RepositoryView.linksOf, List.filter_filter]
  simp only [Bool.and_comm]
  rfl

theorem superclass_declaredLinks (c : ClassFile) :
    (c.declaredLinks.filter fun l => l.kind == .superclass).map NamedLink.parent =
      c.superclass.toList := by
  simp [ClassFile.declaredLinks, List.filter_map, Function.comp_def]

theorem interfaces_declaredLinks (c : ClassFile) :
    (c.declaredLinks.filter fun l => l.kind == .interface).map NamedLink.parent =
      c.interfaces := by
  simp [ClassFile.declaredLinks, List.filter_map, Function.comp_def]

/-- Closing a closed repository changes nothing and reports nothing, as
no class is without links any more. -/
theorem close_close (r : Repository) :
    ∃ s, r.close.value = .ok s ∧ s.close = pure (.ok s) := by
  obtain ⟨s, hClose, hView⟩ := r.close_shows
  have hRoot : objectName ∈ s.view.names := by
    rw [hView]
    exact RepositoryView.mem_names_declare.mpr (.inr rfl)
  have hDeclare : s.declare objectName = .ok s := by
    rw [declare, if_pos (Hierarchy.contains_iff.mpr hRoot)]
  have hOrphans : s.hierarchy.orphans = [] := by
    rw [orphans_view, hView, RepositoryView.orphans_close]
  refine ⟨s, hClose, ?_⟩
  rw [close, hDeclare]
  show s.adopt s.hierarchy.orphans = _
  rw [hOrphans]
  rfl

/-- A placeholder is defined where it stands, with the number that it
has. -/
theorem register_placeholder {k : Nat} {n : ClassNode} {content : ClassFile}
    (hAt : r.nodes[k]? = some n) (hPlaceholder : n.isDefined = false)
    (hName : n.name = content.name) (library : Bool) :
    ∃ r', (r.register content library).value = .ok r' ∧
      r'.nodes[k]? = some (.define n.uid content library) := by
  obtain ⟨r', hRegister, -⟩ := r.register_shows content library
  obtain ⟨n', hAt', hUid', hName', -⟩ := grows_of_steps (register_steps hRegister) k n hAt
  have hNode {s : Repository} {m : ClassNode} (hm : s.nodes[k]? = some m) :
      s.hierarchy.node? m.name = some m :=
    Hierarchy.node?_eq_some_iff.mpr ⟨Array.mem_toList_iff.mp (List.mem_of_getElem? hm), rfl⟩
  have hNew : r.registered? content.name = none := by
    rw [ClassNode.isDefined, Option.isSome_eq_false_iff, Option.isNone_iff_eq_none] at hPlaceholder
    rw [registered?, ← hName, hNode hAt, Option.bind_some, hPlaceholder, Option.map_none]
  have hRegistered := registered?_register hNew hRegister content.name
  rw [if_pos rfl, registered?, ← hName, ← hName', hNode hAt', Option.bind_some,
    Option.map_eq_some_iff] at hRegistered
  -- The class where the placeholder stood has its name, and hence what was registered by it.
  obtain ⟨c, hContent, hFile⟩ := hRegistered
  refine ⟨r', hRegister, ?_⟩
  rw [hAt']
  cases n' with
  | mk uid name content' library' =>
      obtain ⟨rfl, rfl⟩ := Prod.mk.inj hFile
      obtain rfl : content' = some c := hContent
      obtain rfl : uid = n.uid := hUid'
      obtain rfl : name = n.name := hName'
      rw [ClassNode.define, hName]

section Parents

variable {history : List RepositoryOp} {k : Nat} {n : ClassNode} (hTraces : Traces history r)
  (hAt : r.nodes[k]? = some n)

include hAt

/-- The links that a class declares are those of the file that it holds. -/
theorem declaredLinks_view :
    r.view.declaredLinks n.name = (n.content.map ClassFile.declaredLinks).getD [] := by
  rw [RepositoryView.declaredLinks]
  show ((r.definition? n.name).map _).getD [] = _
  rw [definition?_of_mem (Array.mem_toList_iff.mp (List.mem_of_getElem? hAt))]

theorem superclass_view :
    ((r.view.declaredLinks n.name).filter fun l => l.kind == .superclass).map NamedLink.parent =
      (n.content.bind ClassFile.superclass).toList := by
  rw [declaredLinks_view hAt]
  cases n.content with
  | none => rfl
  | some content => exact superclass_declaredLinks content

theorem interfaces_view :
    ((r.view.declaredLinks n.name).filter fun l => l.kind == .interface).map NamedLink.parent =
      (n.content.map ClassFile.interfaces).getD [] := by
  rw [declaredLinks_view hAt]
  cases n.content with
  | none => rfl
  | some content => exact interfaces_declaredLinks content

include hTraces

/-- The root is no interface, so being adopted makes no difference. -/
theorem Traces.interfaces :
    r.parentNames .interface k = (n.content.map ClassFile.interfaces).getD [] := by
  rw [parentNames_eq hAt, ← interfaces_view hAt]
  by_cases hAdopted : Adopted history n.name
  · rw [hTraces.links.root n.name hAdopted]
    rfl
  · rw [hTraces.links.others n.name hAdopted]

/-- A class that was never adopted has the superclass that its file names,
and no other. -/
theorem Traces.superclass (hOther : ¬ Adopted history n.name) :
    r.parentNames .superclass k = (n.content.bind ClassFile.superclass).toList := by
  rw [parentNames_eq hAt, ← superclass_view hAt, hTraces.links.others n.name hOther]

/-- A class that was adopted has the root in front of the superclass that
its file names. -/
theorem Traces.adopted (hAdopted : Adopted history n.name) :
    r.parentNames .superclass k = objectName :: (n.content.bind ClassFile.superclass).toList := by
  rw [parentNames_eq hAt, ← superclass_view hAt, hTraces.links.root n.name hAdopted]
  rfl

end Parents

/-- Everything in a repository stems from its history. It is the invariant
of all operations, in terms of what can be asked. -/
structure Reflects (history : List RepositoryOp) (r : Repository) : Prop extends Counted r where
  distinct : (r.nodes.map ClassNode.name).Nodup
  lookup : ∀ name n, r.hierarchy.node? name = some n ↔ n ∈ r.nodes ∧ n.name = name
  numbers : (r.nodes.map ClassNode.uid).Nodup
  /-- A name has the first file that was registered by it. -/
  registered : ∀ name, r.registered? name = firstNamed (history.flatMap RepositoryOp.files) name
  ignored : ∀ content library, r.isDefined content.name = true →
    (r.register content library).value = .ok r
  defined : ∀ (k : Nat) n content library, r.nodes[k]? = some n → n.isDefined = false →
    n.name = content.name → ∃ r', (r.register content library).value = .ok r' ∧
      r'.nodes[k]? = some (.define n.uid content library)
  /-- Nothing that is done later fails, or moves, renumbers or redefines a class. -/
  grows : ∀ later, ∃ r', r.performAll later = .ok r' ∧ r.Grows r'
  interfaces : ∀ (k : Nat) n, r.nodes[k]? = some n →
    r.parentNames .interface k = (n.content.map ClassFile.interfaces).getD []
  superclass : ∀ (k : Nat) n, r.nodes[k]? = some n → ¬ Adopted history n.name →
    r.parentNames .superclass k = (n.content.bind ClassFile.superclass).toList
  adopted : ∀ (k : Nat) n, r.nodes[k]? = some n → Adopted history n.name →
    r.parentNames .superclass k = objectName :: (n.content.bind ClassFile.superclass).toList
  root : .close ∈ history → r.hierarchy.contains objectName = true
  closed : ∃ s, r.close.value = .ok s ∧ s.close = pure (.ok s)

/-- No operation fails, whatever was done before, and the repository
reflects them all. -/
theorem performAll_reflects (history : List RepositoryOp) :
    ∃ r, performAll {} history = .ok r ∧ r.Reflects history := by
  obtain ⟨r, hRun, hTraces⟩ := performAll_traces history
  have hCounted : r.Counted := Counted.empty.steps (performAll_steps hRun)
  refine ⟨r, hRun, {
    toCounted := hCounted
    distinct := r.hierarchy.distinct
    lookup := ?_
    numbers := hCounted.uids_nodup
    registered := hTraces.registered
    ignored := fun content library hDefined => register_of_isDefined hDefined library
    defined := fun k n content library hAt hPlaceholder hName =>
      register_placeholder hAt hPlaceholder hName library
    grows := ?_
    interfaces := fun k n hAt => hTraces.interfaces hAt
    superclass := fun k n hAt hOther => hTraces.superclass hAt hOther
    adopted := fun k n hAt hAdopted => hTraces.adopted hAt hAdopted
    root := fun hClosed => Hierarchy.contains_iff.mpr (hTraces.root hClosed)
    closed := r.close_close }⟩
  · intro name n
    rw [Hierarchy.node?_eq_some_iff, nodes, Array.mem_toList_iff]
  · intro later
    obtain ⟨r', hLater, -⟩ := r.performAll_shows later
    exact ⟨r', hLater, grows_of_steps (performAll_steps hLater)⟩

/-- The parent that comes too late was adopted, so it keeps the link to the
root before its own. -/
example : Adopted lateParent "t/B" := by
  obtain ⟨r, hRun, hView⟩ := performAll_shows {} [.register (emptyClass "t/A" "t/B") false]
  refine ⟨_, _, r, rfl, hRun, ?_⟩
  show "t/B" ∈ r.hierarchy.orphans
  rw [orphans_view, hView, view_empty]
  decide

end Repository

end JvmCalls
