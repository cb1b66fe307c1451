import JvmCalls.Hierarchy.Repository
import JvmCalls.Proofs.Positions

/-! A hierarchy seen through the names of its classes. Names stand in the
order of creation and links in the order of insertion, and every operation
only adds to them. -/
namespace JvmCalls

/-- A link by the names of its ends. Unlike positions, names mean the same
in all repositories. -/
structure NamedLink where
  name : String
  parent : String
  kind : Inheritance
deriving DecidableEq, Repr

namespace Hierarchy

/-- The names of the classes, in the order of creation. -/
def names (h : Hierarchy) : List String := h.nodes.toList.map ClassNode.name

end Hierarchy

/-- A link between positions of a list of names. -/
def Link.named? (names : List String) (l : Link) : Option NamedLink := do
  return ⟨← names[l.source]?, ← names[l.target]?, l.kind⟩

namespace Hierarchy

/-- The links by names, in the order of insertion. -/
def namedLinks (h : Hierarchy) : List NamedLink := h.links.toList.filterMap (Link.named? h.names)

variable {h : Hierarchy}

/-- The position of a name is that of its class. -/
theorem getElem?_names (i : Nat) : h.names[i]? = h.nameAt? i := by
  simp [names, nameAt?]

/-- A class is known just if its name is among the names. -/
theorem contains_iff {name : String} : h.contains name = true ↔ name ∈ h.names := by
  rw [contains, Option.isSome_iff_ne_none, ne_eq, find?_eq_none_iff, Classical.not_not, names]

/-- A name finds the one class that has it. -/
theorem node?_eq_some_iff {name : String} {n : ClassNode} :
    h.node? name = some n ↔ n ∈ h.nodes ∧ n.name = name := by
  rw [node?, Option.bind_eq_some_iff, Array.mem_iff_getElem?]
  constructor
  · rintro ⟨i, hFind, hNode⟩
    have hName := find?_eq_some_iff.mp hFind
    rw [nameAt?, hNode] at hName
    exact ⟨⟨i, hNode⟩, Option.some.inj hName⟩
  · rintro ⟨⟨i, hNode⟩, hName⟩
    refine ⟨i, find?_eq_some_iff.mpr ?_, hNode⟩
    rw [nameAt?, hNode, Option.map_some, hName]

theorem mem_names {name : String} : name ∈ h.names ↔ ∃ n ∈ h.nodes, n.name = name := by
  simp [names]

/-- Links join classes that are there. -/
theorem lt_length_names {l : Link} (hl : l ∈ h.links) :
    l.source < h.names.length ∧ l.target < h.names.length := by
  simpa [names] using h.bounded l hl

/-- A new class is added behind the others, and all links stay. Other names
find what they found before. -/
theorem insert_ok {n : ClassNode} (hNew : n.name ∉ h.names) :
    ∃ h', h.insert n = .ok h' ∧ h'.names = h.names ++ [n.name] ∧ h'.namedLinks = h.namedLinks ∧
      ∀ name, h'.node? name = if name = n.name then some n else h.node? name := by
  have hUnknown : ¬ h.contains n.name = true := fun hKnown => hNew (contains_iff.mp hKnown)
  rw [insert, dif_neg hUnknown]
  have hNames : (h.nodes.push n).toList.map ClassNode.name = h.names ++ [n.name] := by
    simp [names]
  refine ⟨_, rfl, hNames, ?_, ?_⟩
  · apply List.filterMap_congr
    intro l hl
    obtain ⟨hSource, hTarget⟩ := lt_length_names (h := h) (Array.mem_toList_iff.mp hl)
    rw [names, hNames, Link.named?, Link.named?, List.getElem?_append_left hSource,
      List.getElem?_append_left hTarget]
  · intro name
    ext m
    rw [node?_eq_some_iff, Array.mem_push]
    split
    · next hSame =>
        constructor
        · rintro ⟨hMem | hEqual, hName⟩
          · exact False.elim (hNew (mem_names.mpr ⟨m, hMem, hName.trans hSame⟩))
          · rw [hEqual]
        · intro hEqual
          obtain rfl : n = m := Option.some.inj hEqual
          exact ⟨.inr rfl, hSame.symm⟩
    · next hOther =>
        rw [node?_eq_some_iff]
        constructor
        · rintro ⟨hMem | hEqual, hName⟩
          · exact ⟨hMem, hName⟩
          · exact False.elim (hOther (hEqual ▸ hName.symm))
        · rintro ⟨hMem, hName⟩
          exact ⟨.inl hMem, hName⟩

/-- A name is found where it stands, whatever else the class holds. -/
theorem find?_congr {h' : Hierarchy} (hNames : h'.names = h.names) (name : String) :
    h'.find? name = h.find? name := by
  ext i
  rw [find?_eq_some_iff, find?_eq_some_iff, ← getElem?_names, ← getElem?_names, hNames]

/-- A class is replaced where it stands, and all links stay. Other names
find what they found before. -/
theorem update_ok {n : ClassNode} (hKnown : n.name ∈ h.names) :
    ∃ h', h.update n = .ok h' ∧ h'.names = h.names ∧ h'.namedLinks = h.namedLinks ∧
      ∀ name, h'.node? name = if name = n.name then some n else h.node? name := by
  unfold update
  split
  · next i hFind =>
      have hNames := names_set hFind
      refine ⟨_, rfl, hNames, ?_, ?_⟩
      · rw [namedLinks, names, hNames]
        rfl
      · intro name
        rw [node?, node?, find?_congr (h := h)]
        · show (h.find? name).bind (fun j => (h.nodes.setIfInBounds i n)[j]?) = _
          split
          · next hSame =>
              rw [hSame, hFind, Option.bind_some, Array.getElem?_setIfInBounds, if_pos rfl,
                if_pos (lt_of_find? hFind)]
          · next hOther =>
              cases hFound : h.find? name with
              | none => rfl
              | some j =>
                  have hNe : i ≠ j := by
                    rintro rfl
                    have hName := find?_eq_some_iff.mp hFound
                    rw [find?_eq_some_iff.mp hFind] at hName
                    exact hOther (Option.some.inj hName).symm
                  rw [Option.bind_some, Option.bind_some, Array.getElem?_setIfInBounds,
                    if_neg hNe]
        · exact hNames
  · next hFind => exact False.elim (find?_eq_none_iff.mp hFind hKnown)

/-- A link between classes is added behind the others. The classes
themselves stay as they are. -/
theorem link_ok {name parent : String} (hName : name ∈ h.names) (hParent : parent ∈ h.names)
    (kind : Inheritance) :
    ∃ h', h.link name parent kind = .ok h' ∧ h'.names = h.names ∧
      h'.namedLinks = h.namedLinks ++ [⟨name, parent, kind⟩] ∧
      ∀ other, h'.node? other = h.node? other := by
  unfold link
  split
  · next hFind => exact False.elim (find?_eq_none_iff.mp hFind hName)
  · next i hSource =>
      split
      · next hFind => exact False.elim (find?_eq_none_iff.mp hFind hParent)
      · next j hTarget =>
          refine ⟨_, rfl, rfl, ?_, fun _ => rfl⟩
          have hNamed : Link.named? h.names ⟨i, j, kind⟩ = some ⟨name, parent, kind⟩ := by
            rw [Link.named?, getElem?_names, getElem?_names, find?_eq_some_iff.mp hSource,
              find?_eq_some_iff.mp hTarget]
            rfl
          show (h.links.push ⟨i, j, kind⟩).toList.filterMap (Link.named? h.names) = _
          rw [Array.toList_push, List.filterMap_append, List.filterMap_cons_some hNamed,
            List.filterMap_nil, namedLinks]

/-- Links by name are links between the positions of the names. None is
lost, as both ends of a link have names. -/
theorem mem_namedLinks {nl : NamedLink} :
    nl ∈ h.namedLinks ↔ ∃ l ∈ h.links, h.nameAt? l.source = some nl.name ∧
      h.nameAt? l.target = some nl.parent ∧ l.kind = nl.kind := by
  simp only [namedLinks, List.mem_filterMap, Array.mem_toList_iff, Link.named?, getElem?_names,
    bind, Option.bind_eq_some_iff, pure, Option.some.injEq]
  constructor
  · rintro ⟨l, hl, name, hName, parent, hParent, rfl⟩
    exact ⟨l, hl, hName, hParent, rfl⟩
  · rintro ⟨l, hl, hName, hParent, hKind⟩
    exact ⟨l, hl, nl.name, hName, nl.parent, hParent, by rw [hKind]⟩

/-- Every link has names. -/
theorem named?_link {l : Link} (hl : l ∈ h.links) :
    ∃ nl, Link.named? h.names l = some nl ∧ h.nameAt? l.source = some nl.name ∧
      h.nameAt? l.target = some nl.parent ∧ l.kind = nl.kind := by
  obtain ⟨hSource, hTarget⟩ := h.bounded l hl
  have hName := nameAt?_eq_some_iff.mpr ⟨hSource, rfl⟩
  have hParent := nameAt?_eq_some_iff.mpr ⟨hTarget, rfl⟩
  refine ⟨⟨_, _, l.kind⟩, ?_, hName, hParent, rfl⟩
  rw [Link.named?, getElem?_names, getElem?_names, hName, hParent]
  rfl

/-- As names are distinct, comparing positions is comparing names. -/
theorem source_eq_iff {i : Nat} {l : Link} {name other : String}
    (hAt : h.nameAt? i = some name) (hSource : h.nameAt? l.source = some other) :
    l.source = i ↔ other = name := by
  constructor
  · intro hSame
    rw [hSame, hAt] at hSource
    exact (Option.some.inj hSource).symm
  · intro hSame
    exact nameAt?_inj hSource (hSame ▸ hAt)

/-- The parents of a class are those of its links, in order. -/
theorem namesAt_parentsBy {i : Nat} {name : String} (hAt : h.nameAt? i = some name)
    (kind : Inheritance) :
    h.namesAt (h.parentsBy kind i) =
      (h.namedLinks.filter fun l => l.name == name && l.kind == kind).map NamedLink.parent := by
  rw [namesAt, parentsBy, List.filterMap_map, List.filterMap_filter, namedLinks,
    List.filter_filterMap, List.map_filterMap]
  apply List.filterMap_congr
  intro l hl
  obtain ⟨nl, hNamed, hSource, hTarget, hKind⟩ := named?_link (Array.mem_toList_iff.mp hl)
  have hSame : (l.source == i) = (nl.name == name) := by
    rw [Bool.eq_iff_iff, beq_iff_eq, beq_iff_eq]
    exact source_eq_iff hAt hSource
  rw [hNamed, Function.comp_apply, hTarget, hSame, hKind, Option.filter_some]
  split <;> rfl

theorem nameAt?_of_mem_parentsBy {i j : Nat} {kind : Inheritance} (hj : j ∈ h.parentsBy kind i) :
    ∃ name, h.nameAt? j = some name := by
  obtain ⟨l, hl, rfl⟩ := List.mem_map.mp hj
  have hLink := Array.mem_toList_iff.mp (List.mem_filter.mp hl).1
  exact ⟨_, nameAt?_eq_some_iff.mpr ⟨(h.bounded l hLink).2, rfl⟩⟩

/-- The superclass of a class is the parent of its first link to a
superclass. -/
theorem superclass?_eq (name : String) :
    h.superclass? name = (h.namedLinks.find? fun l =>
      l.name == name && l.kind == .superclass).map NamedLink.parent := by
  rw [superclass?, ← List.head?_filter, ← List.head?_map]
  cases hFind : h.find? name with
  | none =>
      have hNone : (h.namedLinks.filter fun l => l.name == name && l.kind == .superclass) = [] := by
        rw [List.filter_eq_nil_iff]
        intro nl hnl hMatch
        obtain ⟨l, hl, hSource, _⟩ := mem_namedLinks.mp hnl
        rw [Bool.and_eq_true, beq_iff_eq] at hMatch
        rw [hMatch.1, ← find?_eq_some_iff, hFind] at hSource
        cases hSource
      rw [hNone]
      rfl
  | some i =>
      rw [← namesAt_parentsBy (find?_eq_some_iff.mp hFind), Option.bind_some, superOf?, namesAt]
      cases hParents : h.parentsBy .superclass i with
      | nil => rfl
      | cons j rest =>
          obtain ⟨parent, hParent⟩ := nameAt?_of_mem_parentsBy (hParents ▸ List.mem_cons_self)
          rw [List.filterMap_cons_some hParent, List.head?_cons, List.head?_cons, Option.bind_some,
            hParent]

theorem nameAt?_eq_getElem? : h.nameAt? = fun i => h.names[i]? :=
  funext fun i => (getElem?_names i).symm

/-- Choosing classes by position is choosing them by name. -/
theorem namesAt_filter {p : Nat → Bool} {q : String → Bool}
    (hAgree : ∀ i name, h.nameAt? i = some name → p i = q name) :
    h.namesAt (h.positions.filter p) = h.names.filter q := by
  have hLength : h.nodes.size = h.names.length := by simp [names]
  rw [nameAt?_eq_getElem?] at hAgree
  rw [namesAt, positions, nameAt?_eq_getElem?, hLength, filterMap_filter_range h.names hAgree]

/-- A class has no parents just if no link bears its name. These are the
classes that closing adopts. -/
theorem parents_eq_nil_iff {i : Nat} {name : String} (hAt : h.nameAt? i = some name) :
    h.parents i = [] ↔ ∀ l ∈ h.namedLinks, l.name ≠ name := by
  simp only [parents, List.map_eq_nil_iff, List.filter_eq_nil_iff, beq_iff_eq,
    Array.mem_toList_iff]
  constructor
  · intro hNone nl hnl hName
    obtain ⟨l, hl, hSource, _⟩ := mem_namedLinks.mp hnl
    exact hNone l hl ((source_eq_iff hAt hSource).mpr hName)
  · intro hNone l hl hSame
    obtain ⟨nl, _, hSource, hTarget, hKind⟩ := named?_link hl
    have hMem := mem_namedLinks.mpr ⟨l, hl, hSource, hTarget, hKind⟩
    exact hNone nl hMem ((source_eq_iff hAt hSource).mp hSame)

/-- The classes without links, apart from the root. -/
theorem orphans_eq : h.orphans = h.names.filter fun name =>
    decide (name ≠ objectName ∧ ∀ l ∈ h.namedLinks, l.name ≠ name) := by
  have hAlone (i : Nat) (name : String) (hAt : h.nameAt? i = some name) :
      (h.parents i).isEmpty = decide (∀ l ∈ h.namedLinks, l.name ≠ name) := by
    rw [Bool.eq_iff_iff, List.isEmpty_iff, parents_eq_nil_iff hAt, decide_eq_true_eq]
  rw [orphans, namesAt_filter hAlone, List.filter_filter]
  congr 1
  funext name
  have hRoot : (name != objectName) = decide (name ≠ objectName) := by
    rw [Bool.eq_iff_iff, bne_iff_ne, decide_eq_true_eq]
  rw [Bool.decide_and, hRoot]

end Hierarchy

end JvmCalls
