import JvmCalls.Proofs.Hierarchy.History

/-! What closing a repository does to its classes. Only a class without any
link is linked to the root. So every placeholder gets a superclass, but
a class file that names interfaces and no superclass keeps its class from
getting one, unless the class was a placeholder at an earlier close. -/
namespace JvmCalls

/-- The links that the class file of a class declares. A placeholder has
none. -/
def ClassNode.declaredLinks (n : ClassNode) : List NamedLink :=
  (n.content.map ClassFile.declaredLinks).getD []

theorem ClassNode.declaredLinks_of_placeholder {n : ClassNode} (h : n.content = none) :
    n.declaredLinks = [] := by
  rw [declaredLinks, h, Option.map_none, Option.getD_none]

theorem ClassNode.declaredLinks_of_content {n : ClassNode} {c : ClassFile}
    (h : n.content = some c) : n.declaredLinks = c.declaredLinks := by
  rw [declaredLinks, h, Option.map_some, Option.getD_some]

/-- A class file declares no links just if it names neither a superclass nor
an interface. -/
theorem ClassFile.declaredLinks_eq_nil_iff {c : ClassFile} :
    c.declaredLinks = [] ↔ c.superclass = none ∧ c.interfaces = [] := by
  rw [declaredLinks, List.append_eq_nil_iff, List.map_eq_nil_iff, List.map_eq_nil_iff,
    Option.toList_eq_nil_iff]

namespace RepositoryView

variable {v : RepositoryView} {name : String}

/-- A class without links is an orphan, the root apart. -/
theorem mem_orphans_of_linksOf (hKnown : name ∈ v.names) (hNe : name ≠ objectName)
    (hLinks : v.linksOf name = []) : name ∈ v.orphans := by
  refine mem_orphans_iff.mpr ⟨hKnown, hNe, ?_⟩
  intro l hl hName
  exact List.eq_nil_iff_forall_not_mem.mp hLinks l (mem_linksOf.mpr ⟨hl, hName⟩)

end RepositoryView

namespace Repository

variable {r : Repository} {ops : List RepositoryOp} {name : String}

/-- What was done later does not change that the repository was closed in a
condition. -/
theorem ClosedWhen.append {P : Repository → Prop} (h : ClosedWhen P ops)
    (later : List RepositoryOp) : ClosedWhen P (ops ++ later) := by
  obtain ⟨first, rest, r, rfl, hFirst, hP⟩ := h
  exact ⟨first, rest ++ later, r, by rw [List.append_assoc, List.cons_append], hFirst, hP⟩

/-- A placeholder is adopted when the repository is closed, if not before.
It has no file that could declare links. -/
theorem ClosedOver.adopted (h : ClosedOver ops name) : Adopted ops name := by
  obtain ⟨hNe, earlier, later, r, rfl, hRun, hMissing⟩ := h
  obtain ⟨hKnown, hNone⟩ := mem_missing.mp hMissing
  by_cases hBefore : Adopted earlier name
  · exact hBefore.append _
  · have hLinks : r.view.linksOf name = [] := by
      rw [(traces_of_performAll hRun).links.others name hBefore, RepositoryView.declaredLinks,
        hNone]
      rfl
    have hOrphan := RepositoryView.mem_orphans_of_linksOf hKnown hNe hLinks
    rw [← orphans_view] at hOrphan
    exact ⟨earlier, later, r, rfl, hRun, hOrphan⟩

/-- A definition is never replaced. -/
theorem definition?_of_earlier {earlier later : List RepositoryOp} {r' : Repository} {c : ClassFile}
    (hEarlier : performAll {} earlier = .ok r) (hRun : performAll {} (earlier ++ later) = .ok r')
    (hDefined : r.definition? name = some c) : r'.definition? name = some c := by
  rw [definition?_eq_registered?] at hDefined ⊢
  obtain ⟨x, hFirst, rfl⟩ := Option.map_eq_some_iff.mp hDefined
  rw [(traces_of_performAll hRun).registered, List.flatMap_append, firstNamed_append,
    ← (traces_of_performAll hEarlier).registered, hFirst]
  rfl

/-- A class whose file declares links has had them since it is defined. If
it was adopted it was not defined yet. -/
theorem Adopted.closedOver {c : ClassFile} (h : Adopted ops name)
    (hRun : performAll {} ops = .ok r) (hDefined : r.definition? name = some c)
    (hLinks : c.declaredLinks ≠ []) : ClosedOver ops name := by
  obtain ⟨earlier, later, before, rfl, hEarlier, hOrphan⟩ := h
  rw [orphans_view] at hOrphan
  obtain ⟨hKnown, hNe, -⟩ := RepositoryView.mem_orphans_iff.mp hOrphan
  refine ⟨hNe, earlier, later, before, rfl, hEarlier, mem_missing.mpr ⟨hKnown, ?_⟩⟩
  cases hBefore : before.view.definition? name with
  | none => rfl
  | some c' =>
      obtain rfl : c = c' :=
        Option.some.inj (hDefined.symm.trans (definition?_of_earlier hEarlier hRun hBefore))
      have hDeclared : before.view.declaredLinks name = c.declaredLinks := by
        rw [RepositoryView.declaredLinks, hBefore]
        rfl
      have hNone := RepositoryView.linksOf_of_mem_orphans hOrphan
      have hAccounted := (traces_of_performAll hEarlier).links
      by_cases hAdopted : Adopted earlier name
      · rw [hAccounted.root name hAdopted] at hNone
        cases hNone
      · rw [hAccounted.others name hAdopted, hDeclared] at hNone
        exact absurd hNone hLinks

section Closed

variable {n : ClassNode} {k : Nat} (hRun : performAll {} (ops ++ [.close]) = .ok r)
  (hAt : r.nodes[k]? = some n)

include hAt

/-- Of several links to superclasses the first one counts. -/
theorem superclass?_eq_head? : r.superclass? n.name = (r.parentNames .superclass k).head? := by
  rw [superclass?_view, RepositoryView.superclass?_eq_linksOf, parentNames_eq hAt,
    List.head?_map, List.head?_filter]

include hRun

/-- The root has adopted a class that declares no links, at the latest by
the last close, and otherwise only a class that was a placeholder before. -/
theorem adopted_iff_of_closed (hNe : n.name ≠ objectName) :
    Adopted (ops ++ [.close]) n.name ↔ n.declaredLinks = [] ∨ ClosedOver ops n.name := by
  have hn := Array.mem_toList_iff.mp (List.mem_of_getElem? hAt)
  constructor
  · intro hAdopted
    have hContent := definition?_of_mem hn
    cases hFile : n.content with
    | none => exact .inl (ClassNode.declaredLinks_of_placeholder hFile)
    | some c =>
        rw [hFile] at hContent
        rw [ClassNode.declaredLinks_of_content hFile]
        by_cases hLinks : c.declaredLinks = []
        · exact .inl hLinks
        · exact .inr (closedOver_of_closed hRun hContent
            (hAdopted.closedOver hRun hContent hLinks))
  · rintro (hNone | hClosed)
    · by_contra hOther
      have hKnown : n.name ∈ r.view.names := Hierarchy.mem_names.mpr ⟨n, hn, rfl⟩
      have hLinks : r.view.linksOf n.name = [] := by
        rw [(traces_of_performAll hRun).links.others _ hOther, declaredLinks_view hAt]
        exact hNone
      have hOrphan := RepositoryView.mem_orphans_of_linksOf hKnown hNe hLinks
      obtain ⟨before, -, hView⟩ := view_of_closed hRun
      rw [hView, RepositoryView.orphans_close] at hOrphan
      cases hOrphan
    · exact hClosed.adopted.append _

/-- A class that the root has adopted keeps the root, even if its file names
another superclass later. -/
theorem superclass?_of_adopted (hNe : n.name ≠ objectName)
    (hAdopted : n.declaredLinks = [] ∨ ClosedOver ops n.name) :
    r.superclass? n.name = some objectName := by
  have hLast := (adopted_iff_of_closed hRun hAt hNe).mpr hAdopted
  rw [superclass?_eq_head? hAt, (traces_of_performAll hRun).adopted hAt hLast, List.head?_cons]

/-- Any other class has the superclass that its file names, or none. -/
theorem superclass?_of_not_adopted (hNe : n.name ≠ objectName)
    (hOther : ¬ (n.declaredLinks = [] ∨ ClosedOver ops n.name)) :
    r.superclass? n.name = n.content.bind ClassFile.superclass := by
  have hLast := mt (adopted_iff_of_closed hRun hAt hNe).mp hOther
  rw [superclass?_eq_head? hAt, (traces_of_performAll hRun).superclass hAt hLast,
    Option.head?_toList]

end Closed

/-- After a close, whatever was done before, every placeholder has the root
as its superclass. A class that is defined has a superclass unless its file
names interfaces only and it was no placeholder at an earlier close. If its
file names no superclass, then the superclass that it has is the root. -/
theorem close_links_classes (ops : List RepositoryOp) :
    ∃ r, performAll {} (ops ++ [.close]) = .ok r ∧ ∀ n ∈ r.nodes, n.name ≠ objectName →
      (n.content = none → r.superclass? n.name = some objectName) ∧
      ∀ c, n.content = some c →
        (r.superclass? n.name = none ↔
          c.superclass = none ∧ c.interfaces ≠ [] ∧ ¬ ClosedOver ops n.name) ∧
        (c.superclass = none → (r.superclass? n.name = some objectName ↔
          c.interfaces = [] ∨ ClosedOver ops n.name)) := by
  obtain ⟨r, hRun, -⟩ := performAll_traces (ops ++ [.close])
  refine ⟨r, hRun, ?_⟩
  intro n hn hNe
  obtain ⟨k, hAt⟩ := List.mem_iff_getElem?.mp hn
  constructor
  · intro hNone
    exact superclass?_of_adopted hRun hAt hNe (.inl (ClassNode.declaredLinks_of_placeholder hNone))
  · intro c hFile
    have hLinks : n.declaredLinks = [] ↔ c.superclass = none ∧ c.interfaces = [] := by
      rw [ClassNode.declaredLinks_of_content hFile, ClassFile.declaredLinks_eq_nil_iff]
    by_cases hAdopted : n.declaredLinks = [] ∨ ClosedOver ops n.name
    · rw [superclass?_of_adopted hRun hAt hNe hAdopted]
      rw [hLinks] at hAdopted
      grind
    · rw [superclass?_of_not_adopted hRun hAt hNe hAdopted, hFile, Option.bind_some]
      rw [hLinks] at hAdopted
      grind

/-- A class file that names an interface and no superclass. -/
def interfaceOnly (name : String) : ClassFile :=
  { emptyClass name objectName with superclass := none, interfaces := ["t/I"] }

/-- The class stays without superclass. Its interface, which is a
placeholder, gets one. -/
theorem interfaceOnly_not_linked :
    ∃ r, performAll {} [.register (interfaceOnly "t/A") false, .close] = .ok r ∧
      r.definition? "t/A" = some (interfaceOnly "t/A") ∧ r.superclass? "t/A" = none ∧
      r.superclass? "t/I" = some objectName := by
  obtain ⟨r, hRun, hView⟩ := performAll_shows {} [.register (interfaceOnly "t/A") false, .close]
  rw [view_empty] at hView
  refine ⟨r, hRun, ?_, ?_, ?_⟩
  · show r.view.definition? "t/A" = _
    rw [hView]
    rfl
  · rw [superclass?_view, hView]
    decide
  · rw [superclass?_view, hView]
    decide

/-- A class is known by name when the repository is closed and is then
defined. -/
def lateInterfaceOnly : List RepositoryOp :=
  [.register (emptyClass "t/A" "t/B") false, .close, .register (interfaceOnly "t/B") false]

theorem closedOver_lateInterfaceOnly : ClosedOver lateInterfaceOnly "t/B" := by
  obtain ⟨r, hRun, hView⟩ := performAll_shows {} [.register (emptyClass "t/A" "t/B") false]
  rw [view_empty] at hView
  refine ⟨by decide, _, _, r, rfl, hRun, mem_missing.mpr ?_⟩
  rw [hView]
  exact ⟨by decide, rfl⟩

/-- The class keeps the superclass that it got as a placeholder. -/
theorem lateInterfaceOnly_linked :
    ∃ r, performAll {} (lateInterfaceOnly ++ [.close]) = .ok r ∧
      r.definition? "t/B" = some (interfaceOnly "t/B") ∧
      r.superclass? "t/B" = some objectName ∧ r.superclass? "t/I" = some objectName := by
  obtain ⟨r, hRun, hClasses⟩ := close_links_classes lateInterfaceOnly
  obtain ⟨r', hRun', hView⟩ := performAll_shows {} (lateInterfaceOnly ++ [.close])
  obtain rfl : r = r' := Except.ok.inj (hRun.symm.trans hRun')
  rw [view_empty] at hView
  have hNode (name : String) (hKnown : name ∈ r.view.names) :
      ∃ n ∈ r.nodes, n.name = name ∧ n.content = r.view.definition? name := by
    obtain ⟨n, hn, rfl⟩ := Hierarchy.mem_names.mp hKnown
    exact ⟨n, Array.mem_toList_iff.mpr hn, rfl, (definition?_of_mem hn).symm⟩
  have hDefined : r.view.definition? "t/B" = some (interfaceOnly "t/B") := by
    rw [hView]
    rfl
  have hPlaceholder : r.view.definition? "t/I" = none := by
    rw [hView]
    rfl
  obtain ⟨n, hn, hName, hContent⟩ := hNode "t/B" (by rw [hView]; decide)
  obtain ⟨m, hm, hOther, hNone⟩ := hNode "t/I" (by rw [hView]; decide)
  have hLate := ((hClasses n hn (by rw [hName]; decide)).2 _ (hContent.trans hDefined)).2 rfl
  have hInterface := (hClasses m hm (by rw [hOther]; decide)).1 (hNone.trans hPlaceholder)
  rw [hName] at hLate
  rw [hOther] at hInterface
  exact ⟨r, hRun, hDefined, hLate.mpr (.inr closedOver_lateInterfaceOnly), hInterface⟩

end Repository

end JvmCalls
