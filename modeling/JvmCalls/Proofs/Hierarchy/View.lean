import JvmCalls.Proofs.Hierarchy.Names

/-! What a repository shows of itself: the names of its classes, their
definitions and the links between them, in the order in which they were
added. Every operation of a repository is described by an operation of this
view, and none of them fails. -/
namespace JvmCalls

/-- What a repository shows of itself. Positions and numbers are left out,
so that operations can be described without them. -/
structure RepositoryView where
  names : List String
  definition? : String → Option ClassFile
  links : List NamedLink

/-- The links that a class file declares, that to its superclass first. -/
def ClassFile.declaredLinks (c : ClassFile) : List NamedLink :=
  c.superclass.toList.map (fun parent => ⟨c.name, parent, .superclass⟩) ++
    c.interfaces.map (fun parent => ⟨c.name, parent, .interface⟩)

namespace RepositoryView

/-- A class is made known by its name, unless it is known already. -/
def declare (v : RepositoryView) (name : String) : RepositoryView :=
  if name ∈ v.names then v else { v with names := v.names ++ [name] }

/-- A link is added behind the others, and its parent is made known. -/
def inherit (v : RepositoryView) (l : NamedLink) : RepositoryView :=
  { v.declare l.parent with links := v.links ++ [l] }

/-- A class gets a definition, and is made known if it was not. -/
def define (v : RepositoryView) (content : ClassFile) : RepositoryView :=
  { v.declare content.name with
    definition? := fun name => if name = content.name then some content else v.definition? name }

/-- A class that is defined already stays as it is. -/
def register (v : RepositoryView) (content : ClassFile) : RepositoryView :=
  if (v.definition? content.name).isSome then v
  else content.declaredLinks.foldl inherit (v.define content)

/-- The classes without links, the root apart. -/
def orphans (v : RepositoryView) : List String :=
  v.names.filter fun name => decide (name ≠ objectName ∧ ∀ l ∈ v.links, l.name ≠ name)

/-- Classes are linked to the root. -/
def adopt (v : RepositoryView) (names : List String) : RepositoryView :=
  { v with links := v.links ++ names.map fun name => ⟨name, objectName, .superclass⟩ }

/-- The root is made known first, and then all orphans are linked to it. -/
def close (v : RepositoryView) : RepositoryView :=
  (v.declare objectName).adopt (v.declare objectName).orphans

/-- The superclass of a class is the parent of its first link to a
superclass. -/
def superclass? (v : RepositoryView) (name : String) : Option String :=
  (v.links.find? fun l => l.name == name && l.kind == .superclass).map NamedLink.parent

theorem mem_names_declare {v : RepositoryView} {name other : String} :
    other ∈ (v.declare name).names ↔ other ∈ v.names ∨ other = name := by
  unfold declare
  split
  · next hKnown =>
      constructor
      · exact .inl
      · rintro (hMem | rfl)
        · exact hMem
        · exact hKnown
  · rw [List.mem_append, List.mem_singleton]

@[simp] theorem definition?_declare (v : RepositoryView) (name : String) :
    (v.declare name).definition? = v.definition? := by
  unfold declare
  split <;> rfl

@[simp] theorem links_declare (v : RepositoryView) (name : String) :
    (v.declare name).links = v.links := by
  unfold declare
  split <;> rfl

theorem mem_names_inherit {v : RepositoryView} {l : NamedLink} {other : String} :
    other ∈ (v.inherit l).names ↔ other ∈ v.names ∨ other = l.parent :=
  mem_names_declare

theorem mem_names_define {v : RepositoryView} {content : ClassFile} {other : String} :
    other ∈ (v.define content).names ↔ other ∈ v.names ∨ other = content.name :=
  mem_names_declare

end RepositoryView

namespace Repository

/-- The view of a repository. -/
def view (r : Repository) : RepositoryView :=
  ⟨r.hierarchy.names, r.definition?, r.hierarchy.namedLinks⟩

variable {r : Repository}

theorem definition?_eq_none_of_not_mem {name : String} (hUnknown : name ∉ r.hierarchy.names) :
    r.definition? name = none := by
  cases hNode : r.hierarchy.node? name with
  | none => rw [definition?, hNode, Option.bind_none]
  | some n =>
      obtain ⟨hMem, hName⟩ := Hierarchy.node?_eq_some_iff.mp hNode
      exact False.elim (hUnknown (Hierarchy.mem_names.mpr ⟨n, hMem, hName⟩))

/-- An operation succeeds, and what it yields shows this view. It says both
that there is no error and what has changed. -/
def Shows (x : Except HierarchyError Repository) (v : RepositoryView) : Prop :=
  ∃ r, x = .ok r ∧ r.view = v

/-- Operations that show their views one after the other. None of them can
fail on the way. -/
theorem Shows.bind {x : Except HierarchyError Repository}
    {f : Repository → Except HierarchyError Repository} {v w : RepositoryView} (hFirst : Shows x v)
    (hNext : ∀ r, r.view = v → Shows (f r) w) : Shows (x >>= f) w := by
  obtain ⟨r, rfl, hView⟩ := hFirst
  exact hNext r hView

theorem declare_shows (r : Repository) (name : String) :
    Shows (r.declare name) (r.view.declare name) := by
  by_cases hKnown : name ∈ r.hierarchy.names
  · rw [declare, if_pos (Hierarchy.contains_iff.mpr hKnown), RepositoryView.declare]
    exact ⟨r, rfl, (if_pos hKnown).symm⟩
  · obtain ⟨h', hInsert, hNames, hLinks, hNodes⟩ :=
      Hierarchy.insert_ok (n := .placeholder (r.classCount + 1) name) hKnown
    have hUnknown : ¬ r.hierarchy.contains name = true :=
      fun hContains => hKnown (Hierarchy.contains_iff.mp hContains)
    refine ⟨⟨h', r.classCount + 1, r.methodCount⟩, ?_, ?_⟩
    · simp only [declare, hUnknown, hInsert]
      rfl
    · have hDefinitions : (⟨h', r.classCount + 1, r.methodCount⟩ : Repository).definition? =
          r.definition? := by
        funext other
        rw [definition?, hNodes]
        split
        · next hSame =>
            rw [hSame]
            exact (definition?_eq_none_of_not_mem hKnown).symm
        · rfl
      rw [RepositoryView.declare, if_neg (show name ∉ r.view.names from hKnown), view,
        hDefinitions, hNames, hLinks]
      rfl

/-- A link between known classes succeeds. This is where linking could fail,
and why names are declared before. -/
theorem link_shows {name parent : String} (hName : name ∈ r.view.names)
    (hParent : parent ∈ r.view.names) (kind : Inheritance) :
    ∃ h', r.hierarchy.link name parent kind = .ok h' ∧
      ({ r with hierarchy := h' } : Repository).view =
        { r.view with links := r.view.links ++ [⟨name, parent, kind⟩] } := by
  obtain ⟨h', hLink, hNames, hLinks, hNodes⟩ := Hierarchy.link_ok hName hParent kind
  refine ⟨h', hLink, ?_⟩
  have hDefinitions : ({ r with hierarchy := h' } : Repository).definition? = r.definition? := by
    funext other
    rw [definition?, hNodes, definition?]
  rw [view, hDefinitions, hNames, hLinks]
  rfl

/-- Inheriting succeeds from a known class, as its parent is declared
first. -/
theorem inherit_shows {l : NamedLink} (hKnown : l.name ∈ r.view.names) :
    Shows (r.inherit l.name l.parent l.kind) (r.view.inherit l) := by
  apply (r.declare_shows l.parent).bind
  intro r' hView
  have hName : l.name ∈ r'.view.names := by
    rw [hView]
    exact RepositoryView.mem_names_declare.mpr (.inl hKnown)
  have hParent : l.parent ∈ r'.view.names := by
    rw [hView]
    exact RepositoryView.mem_names_declare.mpr (.inr rfl)
  obtain ⟨h', hLink, hLinked⟩ := link_shows hName hParent l.kind
  refine ⟨{ r' with hierarchy := h' }, ?_, ?_⟩
  · rw [hLink]
    rfl
  · rw [hLinked, hView, RepositoryView.inherit, RepositoryView.links_declare]

/-- Putting a definition in its place changes no other one. -/
theorem definition?_of_define {r' : Repository} {uid : Nat} {content : ClassFile} {library : Bool}
    (hNodes : ∀ name, r'.hierarchy.node? name =
      if name = content.name then some (.define uid content library) else r.hierarchy.node? name) :
    r'.definition? = (r.view.define content).definition? := by
  funext name
  rw [definition?, hNodes]
  show _ = if name = content.name then some content else r.definition? name
  split <;> rfl

/-- Defining succeeds, be the class unknown or a placeholder. The view
forgets which of the two it was. -/
theorem define_shows (r : Repository) (content : ClassFile) (library : Bool) :
    Shows (r.define content library) (r.view.define content) := by
  unfold define
  split
  · next known hNode =>
      obtain ⟨hMem, hName⟩ := Hierarchy.node?_eq_some_iff.mp hNode
      have hKnown : content.name ∈ r.hierarchy.names := Hierarchy.mem_names.mpr ⟨known, hMem, hName⟩
      obtain ⟨h', hUpdate, hNames, hLinks, hNodes⟩ :=
        Hierarchy.update_ok (n := .define known.uid content library) hKnown
      refine ⟨⟨h', r.classCount, r.methodCount + content.methods.length⟩, ?_, ?_⟩
      · rw [hUpdate]
        rfl
      · rw [view, definition?_of_define hNodes, hNames, hLinks, RepositoryView.define,
          RepositoryView.declare, if_pos (show content.name ∈ r.view.names from hKnown)]
        rfl
  · next hNode =>
      have hUnknown : content.name ∉ r.hierarchy.names := by
        intro hMem
        obtain ⟨n, hn, hName⟩ := Hierarchy.mem_names.mp hMem
        rw [Hierarchy.node?_eq_some_iff.mpr ⟨hn, hName⟩] at hNode
        cases hNode
      obtain ⟨h', hInsert, hNames, hLinks, hNodes⟩ :=
        Hierarchy.insert_ok (n := .define (r.classCount + 1) content library) hUnknown
      refine ⟨⟨h', r.classCount + 1, r.methodCount + content.methods.length⟩, ?_, ?_⟩
      · simp only [hInsert]
        rfl
      · rw [view, definition?_of_define hNodes, hNames, hLinks, RepositoryView.define,
          RepositoryView.declare, if_neg (show content.name ∉ r.view.names from hUnknown)]
        rfl

theorem inheritAll_shows {name : String} (hKnown : name ∈ r.view.names) (interfaces : List String) :
    Shows (interfaces.foldlM (fun r interface => r.inherit name interface .interface) r)
      ((interfaces.map fun parent => ⟨name, parent, .interface⟩).foldl RepositoryView.inherit
        r.view) := by
  induction interfaces generalizing r with
  | nil => exact ⟨r, rfl, rfl⟩
  | cons interface rest ih =>
      rw [List.foldlM_cons, List.map_cons, List.foldl_cons]
      apply (inherit_shows (l := ⟨name, interface, .interface⟩) hKnown).bind
      intro r' hView
      rw [← hView]
      apply ih
      rw [hView]
      exact RepositoryView.mem_names_inherit.mpr (.inl hKnown)

/-- Adding a class defines it and then links it to what its file names, the
superclass first. -/
theorem add_shows (r : Repository) (content : ClassFile) (library : Bool) :
    Shows (r.add content library)
      (content.declaredLinks.foldl RepositoryView.inherit (r.view.define content)) := by
  rw [ClassFile.declaredLinks, List.foldl_append]
  apply (r.define_shows content library).bind
  intro r₁ hDefined
  have hKnown : content.name ∈ r₁.view.names := by
    rw [hDefined]
    exact RepositoryView.mem_names_define.mpr (.inr rfl)
  rw [← hDefined]
  cases content.superclass with
  | none => exact inheritAll_shows hKnown content.interfaces
  | some superclass =>
      apply (inherit_shows (l := ⟨content.name, superclass, .superclass⟩) hKnown).bind
      intro r₂ hView
      have hInherited : content.name ∈ r₂.view.names := by
        rw [hView]
        exact RepositoryView.mem_names_inherit.mpr (.inl hKnown)
      have hInterfaces := inheritAll_shows hInherited content.interfaces
      rw [hView] at hInterfaces
      exact hInterfaces

/-- Registering succeeds, and changes nothing if the class is defined
already. -/
theorem register_shows (r : Repository) (content : ClassFile) (library : Bool) :
    Shows (r.register content library).value (r.view.register content) := by
  rw [register, Traced.value_bind, RepositoryView.register]
  show Shows (if r.isDefined content.name then _ else _ : Traced _).value
    (if r.isDefined content.name then _ else _)
  split
  · exact ⟨r, rfl, rfl⟩
  · exact r.add_shows content library

/-- Registering several classes is registering one after the other. None of
them fails, so that all are registered. -/
theorem registerAll_shows (r : Repository) (contents : List ClassFile) (library : Bool) :
    Shows (r.registerAll contents library).value
      (contents.foldl RepositoryView.register r.view) := by
  induction contents generalizing r with
  | nil => exact ⟨r, rfl, rfl⟩
  | cons content rest ih =>
      obtain ⟨r', hRegister, hView⟩ := r.register_shows content library
      rw [registerAll, Traced.value_bind, hRegister, List.foldl_cons, ← hView]
      exact ih r'

/-- Linking classes to the root succeeds if the root is known. Closing sees
to that before. -/
theorem adopt_shows {names : List String} (hKnown : ∀ name ∈ names, name ∈ r.view.names)
    (hRoot : objectName ∈ r.view.names) :
    Shows (r.adopt names).value (r.view.adopt names) := by
  induction names generalizing r with
  | nil =>
      refine ⟨r, rfl, ?_⟩
      rw [RepositoryView.adopt, List.map_nil, List.append_nil]
  | cons name rest ih =>
      obtain ⟨h', hLink, hView⟩ := link_shows (hKnown name List.mem_cons_self) hRoot .superclass
      have hNames : ({ r with hierarchy := h' } : Repository).view.names = r.view.names := by
        rw [hView]
      obtain ⟨r', hAdopt, hAdopted⟩ := ih (r := { r with hierarchy := h' })
        (fun other hMem => hNames ▸ hKnown other (List.mem_cons_of_mem name hMem)) (hNames ▸ hRoot)
      refine ⟨r', ?_, ?_⟩
      · rw [adopt, Traced.value_bind, hLink]
        exact hAdopt
      · rw [hAdopted, hView]
        simp [RepositoryView.adopt]

theorem orphans_view (r : Repository) : r.hierarchy.orphans = r.view.orphans :=
  Hierarchy.orphans_eq

/-- Closing succeeds. The orphans are found after the root was declared,
which is not one of them. -/
theorem close_shows (r : Repository) : Shows r.close.value r.view.close := by
  obtain ⟨r', hDeclare, hView⟩ := r.declare_shows objectName
  rw [close, hDeclare, RepositoryView.close, ← hView, ← orphans_view]
  apply adopt_shows
  · intro name hMem
    rw [orphans_view] at hMem
    exact (List.mem_filter.mp hMem).1
  · rw [hView]
    exact RepositoryView.mem_names_declare.mpr (.inr rfl)

/-- The superclass of a class can be read off the view. -/
theorem superclass?_view (r : Repository) (name : String) :
    r.superclass? name = r.view.superclass? name :=
  Hierarchy.superclass?_eq name

theorem definition?_of_mem {n : ClassNode} (hn : n ∈ r.hierarchy.nodes) :
    r.definition? n.name = n.content := by
  rw [definition?, Hierarchy.node?_eq_some_iff.mpr ⟨hn, rfl⟩, Option.bind_some]

/-- A placeholder is a name without definition. -/
theorem mem_missing {name : String} :
    name ∈ r.missing ↔ name ∈ r.view.names ∧ r.view.definition? name = none := by
  simp only [missing, nodes, List.mem_map, List.mem_filter, Array.mem_toList_iff,
    ClassNode.isDefined, Bool.not_eq_true', Option.isSome_eq_false_iff, Option.isNone_iff_eq_none]
  constructor
  · rintro ⟨n, ⟨hn, hContent⟩, rfl⟩
    exact ⟨Hierarchy.mem_names.mpr ⟨n, hn, rfl⟩, (definition?_of_mem hn).trans hContent⟩
  · rintro ⟨hKnown, hNone⟩
    obtain ⟨n, hn, rfl⟩ := Hierarchy.mem_names.mp hKnown
    exact ⟨n, ⟨hn, (definition?_of_mem hn).symm.trans hNone⟩, rfl⟩

end Repository

end JvmCalls
