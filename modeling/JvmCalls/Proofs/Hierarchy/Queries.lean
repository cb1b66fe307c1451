import JvmCalls.Proofs.Hierarchy.Agreement
import JvmCalls.Proofs.Hierarchy.Superclass

/-! Questions about a hierarchy are questions about paths. The superclasses
of a class are found by a walk without choices, its superinterfaces by one
along all links and its subclasses by one against them. Each walk enters
a class at most once, so it ends on cyclic hierarchies too, and what it finds
is all that paths of links lead to. -/
namespace JvmCalls

namespace Hierarchy

variable {h : Hierarchy}

/-- A class has another as its superclass. There is at most one, so that the
walk has no choices. -/
def Extends (h : Hierarchy) (name parent : String) : Prop := h.superclass? name = some parent

theorem Extends.linked {name parent : String} (hExtends : h.Extends name parent) :
    h.Linked name parent := by
  rw [Extends, superclass?_eq, Option.map_eq_some_iff] at hExtends
  obtain ⟨l, hFind, rfl⟩ := hExtends
  have hLink := List.mem_of_find?_eq_some hFind
  have hMatch := List.find?_some hFind
  rw [Bool.and_eq_true, beq_iff_eq] at hMatch
  exact linked_iff.mpr ⟨l.kind, hMatch.1 ▸ hLink⟩

theorem Implements.linked {name parent : String} (hImplements : h.Implements name parent) :
    h.Linked name parent := by
  obtain ⟨l, hl, -, hName, hParent⟩ := hImplements
  exact ⟨l, hl, hName, hParent⟩

/-- Going from a position to that of its superclass is going from a class to
its superclass. -/
theorem superclasses_follow :
    Reach.Follows h.nameAt? (fun i => (h.superOf? i).toList) h.Extends where
  labels i j hSuper := by
    rw [Option.mem_toList] at hSuper
    obtain ⟨parent, hParent⟩ := nameAt?_of_superOf? hSuper
    have hBound : i < h.nodes.size := by
      obtain ⟨l, hl, -⟩ := List.mem_map.mp (List.mem_of_head? hSuper)
      obtain ⟨hLink, hSource⟩ := List.mem_filter.mp hl
      rw [Bool.and_eq_true, beq_iff_eq] at hSource
      exact hSource.1 ▸ (h.bounded l (Array.mem_toList_iff.mp hLink)).1
    have hName := nameAt?_eq_some_iff.mpr ⟨hBound, rfl⟩
    refine ⟨_, parent, hName, hParent, ?_⟩
    rw [Extends, superclass?_of_nameAt? hName, hSuper, Option.bind_some, hParent]
  steps name parent hExtends := by
    rw [Extends, superclass?, Option.bind_eq_some_iff] at hExtends
    obtain ⟨j, hSuper, hParent⟩ := hExtends
    obtain ⟨i, hFind, hSuper⟩ := Option.bind_eq_some_iff.mp hSuper
    exact ⟨i, j, find?_eq_some_iff.mp hFind, hParent, Option.mem_toList.mpr hSuper⟩

/-- The lineage of a class is all that superclasses lead to. It stops at the
first repetition, behind which there is nothing new. -/
theorem mem_namesAt_lineage {i : Nat} {name ancestor : String} (hName : h.nameAt? i = some name) :
    ancestor ∈ h.namesAt (h.lineage i).visited ↔ Relation.ReflTransGen h.Extends name ancestor := by
  rw [mem_namesAt, lineage, Reach.visited_chain]
  simp only [superclasses_follow.mem_collect_singleton labelling hName]
  constructor
  · rintro ⟨j, ⟨other, hOther, hPath⟩, hAncestor⟩
    obtain rfl : other = ancestor := Option.some.inj (hOther.symm.trans hAncestor)
    exact hPath
  · intro hPath
    cases Relation.reflTransGen_iff_eq_or_transGen.mp hPath with
    | inl hSame => exact ⟨i, ⟨ancestor, hSame ▸ hName, hPath⟩, hSame ▸ hName⟩
    | inr hSteps =>
        obtain ⟨_, -, hLast⟩ := Relation.TransGen.tail'_iff.mp hSteps
        obtain ⟨l, -, -, hAncestor⟩ := hLast.linked
        exact ⟨l.target, ⟨ancestor, hAncestor, hPath⟩, hAncestor⟩

end Hierarchy

namespace Repository

variable {r : Repository}

/-- The search goes through the lineage of the superclass. Where that
repeats, the answer is given after a warning. -/
theorem value_isSubclassOf {name ancestor : String} :
    (r.isSubclassOf name ancestor).value = true ↔
      ∃ i, (r.hierarchy.find? name).bind r.hierarchy.superOf? = some i ∧
        ancestor ∈ r.hierarchy.namesAt (r.hierarchy.lineage i).visited := by
  simp only [isSubclassOf]
  cases (r.hierarchy.find? name).bind r.hierarchy.superOf? with
  | none => simp
  | some i =>
      simp only [Option.some.injEq, exists_eq_left']
      split
      · next hFound => simpa using hFound
      · next hFound =>
          have hAbsent : ancestor ∉ r.hierarchy.namesAt (r.hierarchy.lineage i).visited := by
            simpa using hFound
          split
          · simpa using hAbsent
          · simpa using hAbsent

/-- A class is a subclass of another one just if at least one step to a
superclass leads there. On a cycle it is a subclass of itself. -/
theorem isSubclassOf_iff {name ancestor : String} : (r.isSubclassOf name ancestor).value = true ↔
    Relation.TransGen r.hierarchy.Extends name ancestor := by
  rw [value_isSubclassOf, Relation.TransGen.head'_iff]
  constructor
  · rintro ⟨i, hStart, hFound⟩
    obtain ⟨_, -, hSuper⟩ := Option.bind_eq_some_iff.mp hStart
    obtain ⟨parent, hParent⟩ := Hierarchy.nameAt?_of_superOf? hSuper
    refine ⟨parent, ?_, (Hierarchy.mem_namesAt_lineage hParent).mp hFound⟩
    rw [Hierarchy.Extends, Hierarchy.superclass?, hStart, Option.bind_some, hParent]
  · rintro ⟨parent, hFirst, hPath⟩
    obtain ⟨i, hStart, hParent⟩ := Option.bind_eq_some_iff.mp hFirst
    exact ⟨i, hStart, (Hierarchy.mem_namesAt_lineage hParent).mpr hPath⟩

/-- A class is a subclass of what one or more superclasses lead to, its
superinterfaces are what paths with an interface as last link lead to, and
the subclasses of a class are all others from which a path leads to it. No
walk enters a class twice, so each of the queries ends. A class is found
again among the subclasses of its other superclasses and superinterfaces. -/
theorem queries_follow_paths (r : Repository) :
    (∀ a b, (r.isSubclassOf a b).value = true ↔
      Relation.TransGen (fun name parent => r.superclass? name = some parent) a b) ∧
    (∀ c x, x ∈ r.superinterfaces c ↔
      ∃ d, Relation.ReflTransGen r.hierarchy.Linked c d ∧ r.hierarchy.Implements d x) ∧
    (∀ b c, c ∈ r.subclasses b ↔ c ≠ b ∧ Relation.TransGen r.hierarchy.Linked c b) ∧
    (∀ i, List.Subperm (r.hierarchy.lineage i).visited r.hierarchy.positions ∧
      List.Subperm (r.hierarchy.ancestry i) r.hierarchy.positions ∧
      List.Subperm (Reach.collect r.hierarchy.children r.hierarchy.positions [i])
        r.hierarchy.positions) ∧
    (∀ a b, (r.isSubclassOf a b).value = true → a ≠ b → a ∈ r.subclasses b) ∧
    ∀ c x, x ∈ r.superinterfaces c → c ≠ x → c ∈ r.subclasses x := by
  refine ⟨fun a b => isSubclassOf_iff, fun c x => Hierarchy.mem_superinterfaces,
    fun b c => Hierarchy.mem_subclasses, ?_, ?_, ?_⟩
  · intro i
    refine ⟨?_, Reach.collect_subperm, Reach.collect_subperm⟩
    rw [Hierarchy.lineage, Reach.visited_chain]
    exact Reach.collect_subperm
  · intro a b hSubclass hNe
    have hPath := Relation.TransGen.mono (fun _ _ => Hierarchy.Extends.linked) _ _
      (isSubclassOf_iff.mp hSubclass)
    exact Hierarchy.mem_subclasses.mpr ⟨hNe, hPath⟩
  · intro c x hInterface hNe
    obtain ⟨d, hPath, hLast⟩ := Hierarchy.mem_superinterfaces.mp hInterface
    exact Hierarchy.mem_subclasses.mpr ⟨hNe, .tail' hPath hLast.linked⟩

/-- Two classes that extend each other. One of them has an interface that is
not defined. -/
def cyclicClasses : List RepositoryOp :=
  [.register (emptyClass "t/A" "t/B") false,
    .register { emptyClass "t/B" "t/A" with interfaces := ["t/I"] } false, .close]

/-- Each is a subclass of both, and each is below the interface. -/
theorem cyclicClasses_queries : ∃ r, performAll {} cyclicClasses = .ok r ∧
    (r.isSubclassOf "t/A" "t/A").value = true ∧ (r.isSubclassOf "t/A" "t/B").value = true ∧
    "t/A" ∈ r.subclasses "t/B" ∧ "t/A" ∉ r.subclasses "t/A" ∧
    "t/I" ∈ r.superinterfaces "t/A" ∧ "t/A" ∈ r.subclasses "t/I" := by
  obtain ⟨r, hRun, hView⟩ := performAll_shows {} cyclicClasses
  rw [view_empty] at hView
  have hParent : r.superclass? "t/A" = some "t/B" := by
    rw [superclass?_view, hView]
    decide
  have hBack : r.superclass? "t/B" = some "t/A" := by
    rw [superclass?_view, hView]
    decide
  have hImplements : r.hierarchy.Implements "t/B" "t/I" := by
    apply Hierarchy.implements_iff.mpr
    show _ ∈ r.view.links
    rw [hView]
    decide
  obtain ⟨hSubclass, hInterfaces, hSubclasses, -, hBelow, hBelowInterface⟩ := queries_follow_paths r
  have hItself := (hSubclass "t/A" "t/A").mpr (.tail (.single hParent) hBack)
  have hStrict := (hSubclass "t/A" "t/B").mpr (.single hParent)
  have hInterface := (hInterfaces "t/A" "t/I").mpr
    ⟨"t/B", .single (Hierarchy.Extends.linked hParent), hImplements⟩
  exact ⟨r, hRun, hItself, hStrict, hBelow _ _ hStrict (by decide),
    fun hMem => ((hSubclasses _ _).mp hMem).1 rfl, hInterface,
    hBelowInterface _ _ hInterface (by decide)⟩

end Repository

end JvmCalls
