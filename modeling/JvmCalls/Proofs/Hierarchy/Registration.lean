import JvmCalls.Proofs.Hierarchy.Agreement
import JvmCalls.Proofs.Hierarchy.Growth
import Mathlib.Data.List.Nodup

/-! What a repository holds after classes of distinct names were registered
and it was closed. It depends on which classes were registered, and only the
order of its classes on the order of registration. -/
namespace JvmCalls

namespace Hierarchy

/-- An inserted class is found by its name, and all others as before. -/
theorem node?_of_insert {h h' : Hierarchy} {n : ClassNode} (hNew : n.name ∉ h.names)
    (hInsert : h.insert n = .ok h') (name : String) :
    h'.node? name = if name = n.name then some n else h.node? name := by
  obtain ⟨inserted, hOk, -, -, hNodes⟩ := insert_ok hNew
  obtain rfl : inserted = h' := Except.ok.inj (hOk.symm.trans hInsert)
  exact hNodes name

/-- A class that is replaced is found by the same name, and all others as
before. -/
theorem node?_of_update {h h' : Hierarchy} {n : ClassNode} (hKnown : n.name ∈ h.names)
    (hUpdate : h.update n = .ok h') (name : String) :
    h'.node? name = if name = n.name then some n else h.node? name := by
  obtain ⟨updated, hOk, -, -, hNodes⟩ := update_ok hKnown
  obtain rfl : updated = h' := Except.ok.inj (hOk.symm.trans hUpdate)
  exact hNodes name

end Hierarchy

namespace Repository

/-- The class file that was registered by a name, and whether it came from a
library. -/
def registered? (r : Repository) (name : String) : Option (ClassFile × Bool) :=
  (r.hierarchy.node? name).bind fun n => n.content.map fun c => (c, n.library)

variable {r r' : Repository}

/-- A class is defined by the file that was registered by its name. -/
theorem definition?_eq_registered? (name : String) :
    r.definition? name = (r.registered? name).map Prod.fst := by
  rw [definition?, registered?]
  cases r.hierarchy.node? name with
  | none => rfl
  | some n =>
      rw [Option.bind_some, Option.bind_some, Option.map_map]
      exact Option.map_id'.symm

theorem registered?_eq_none_of_not_mem {name : String} (hUnknown : name ∉ r.hierarchy.names) :
    r.registered? name = none := by
  have hNone := definition?_eq_none_of_not_mem hUnknown
  rw [definition?_eq_registered?] at hNone
  exact Option.map_eq_none_iff.mp hNone

/-- Declaring a class registers no file. -/
theorem registered?_declare {name : String} (h : r.declare name = .ok r') :
    r'.registered? = r.registered? := by
  by_cases hKnown : name ∈ r.hierarchy.names
  · rw [declare, if_pos (Hierarchy.contains_iff.mpr hKnown)] at h
    cases h
    rfl
  · have hUnknown : ¬ r.hierarchy.contains name = true :=
      fun hContains => hKnown (Hierarchy.contains_iff.mp hContains)
    rw [declare, if_neg hUnknown] at h
    obtain ⟨inserted, hInsert, hSame⟩ := bind_eq_ok_iff.mp h
    cases hSame
    funext other
    rw [registered?, Hierarchy.node?_of_insert hKnown hInsert]
    split
    · next hSame =>
        rw [hSame]
        exact (registered?_eq_none_of_not_mem hKnown).symm
    · rfl

theorem registered?_link {name parent : String} {kind : Inheritance} {h' : Hierarchy}
    (h : r.hierarchy.link name parent kind = .ok h') :
    ({ r with hierarchy := h' } : Repository).registered? = r.registered? := by
  unfold Hierarchy.link at h
  split at h
  · cases h
  · split at h
    · cases h
    · cases h
      rfl

/-- Only a definition registers anything. Links and placeholders come and
leave this as it was. -/
theorem registered?_links (h : Relation.ReflTransGen LinkStep r r') :
    r'.registered? = r.registered? := by
  induction h with
  | refl => rfl
  | tail _ hStep ih =>
      cases hStep with
      | declare h => rw [registered?_declare h, ih]
      | link h => rw [registered?_link h, ih]

/-- A definition registers its file by the name of the class. -/
theorem registered?_define {content : ClassFile} {library : Bool}
    (h : r.define content library = .ok r') (name : String) :
    r'.registered? name =
      if name = content.name then some (content, library) else r.registered? name := by
  have hDefined {uid : Nat} (hNodes : ∀ name, r'.hierarchy.node? name =
      if name = content.name then some (.define uid content library)
      else r.hierarchy.node? name) : r'.registered? name =
        if name = content.name then some (content, library) else r.registered? name := by
    rw [registered?, hNodes]
    split
    · rfl
    · rfl
  unfold define at h
  split at h
  · next known hNode =>
      obtain ⟨hMem, hName⟩ := Hierarchy.node?_eq_some_iff.mp hNode
      have hKnown : content.name ∈ r.hierarchy.names := Hierarchy.mem_names.mpr ⟨known, hMem, hName⟩
      obtain ⟨updated, hUpdate, hSame⟩ := bind_eq_ok_iff.mp h
      cases hSame
      exact hDefined
        (Hierarchy.node?_of_update (n := .define known.uid content library) hKnown hUpdate)
  · next hNode =>
      have hUnknown : content.name ∉ r.hierarchy.names := by
        intro hMem
        obtain ⟨n, hn, hName⟩ := Hierarchy.mem_names.mp hMem
        rw [Hierarchy.node?_eq_some_iff.mpr ⟨hn, hName⟩] at hNode
        cases hNode
      obtain ⟨inserted, hInsert, hSame⟩ := bind_eq_ok_iff.mp h
      cases hSame
      exact hDefined
        (Hierarchy.node?_of_insert (n := .define (r.classCount + 1) content library) hUnknown
          hInsert)

theorem registered?_add {content : ClassFile} {library : Bool}
    (h : r.add content library = .ok r') (name : String) :
    r'.registered? name =
      if name = content.name then some (content, library) else r.registered? name := by
  obtain ⟨defined, hDefine, hLinks⟩ := add_steps h
  rw [registered?_links hLinks, registered?_define hDefine]

/-- A registration by a new name registers the file, and nothing else
changes. -/
theorem registered?_register {content : ClassFile} {library : Bool}
    (hNew : r.registered? content.name = none)
    (h : (r.register content library).value = .ok r') (name : String) :
    r'.registered? name =
      if name = content.name then some (content, library) else r.registered? name := by
  have hUndefined : ¬ r.isDefined content.name = true := by
    rw [isDefined, definition?_eq_registered?, hNew]
    exact Bool.false_ne_true
  rw [register_of_not_isDefined hUndefined] at h
  exact registered?_add h name

/-- Closing registers no file, although it may create the root. -/
theorem registered?_close (h : r.close.value = .ok r') : r'.registered? = r.registered? :=
  registered?_links (close_steps h)

end Repository

/-- The class file names a class: itself, its superclass or an interface.
These are the classes that its registration makes known. -/
def ClassFile.Mentions (c : ClassFile) (name : String) : Prop :=
  name = c.name ∨ ∃ l ∈ c.declaredLinks, l.parent = name

namespace RepositoryView

variable {v w : RepositoryView}

theorem mem_names_foldl_inherit {links : List NamedLink} {name : String} :
    name ∈ (links.foldl inherit v).names ↔ name ∈ v.names ∨ ∃ l ∈ links, l.parent = name := by
  induction links generalizing v with
  | nil => simp
  | cons l rest ih =>
      rw [List.foldl_cons, ih, mem_names_inherit, or_assoc, List.exists_mem_cons_iff, eq_comm]

/-- A registration makes all names known that the file mentions. -/
theorem mem_names_register {content : ClassFile} (hNew : v.definition? content.name = none)
    {name : String} :
    name ∈ (v.register content).names ↔ name ∈ v.names ∨ content.Mentions name := by
  rw [register, if_neg (by simp [hNew]), mem_names_foldl_inherit, mem_names_define, or_assoc,
    ClassFile.Mentions]

/-- A class file declares links of its own class only. So registrations of
other classes have no part in the links of a class. -/
theorem filter_declaredLinks (c : ClassFile) (name : String) :
    (c.declaredLinks.filter fun l => l.name == name) =
      if c.name = name then c.declaredLinks else [] := by
  split
  · next hSame =>
      apply List.filter_eq_self.mpr
      intro l hl
      rw [name_of_mem_declaredLinks hl, hSame, beq_self_eq_true]
  · next hOther =>
      apply List.filter_eq_nil_iff.mpr
      intro l hl hName
      exact hOther ((name_of_mem_declaredLinks hl).symm.trans (beq_iff_eq.mp hName))

/-- The links of one class do not depend on the order in which classes were
registered. -/
theorem filter_declaredLinks_perm {l k : List (ClassFile × Bool)} (hPerm : l.Perm k)
    (hDistinct : (l.map fun x => x.1.name).Nodup) (name : String) :
    ((l.flatMap fun x => x.1.declaredLinks).filter fun link => link.name == name) =
      (k.flatMap fun x => x.1.declaredLinks).filter fun link => link.name == name := by
  induction hPerm with
  | nil => rfl
  | cons x hRest ih =>
      rw [List.map_cons, List.nodup_cons] at hDistinct
      rw [List.flatMap_cons, List.flatMap_cons, List.filter_append, List.filter_append,
        ih hDistinct.2]
  | swap x y rest =>
      have hNames : y.1.name ≠ x.1.name := by
        intro hSame
        simp [hSame] at hDistinct
      simp only [List.flatMap_cons, List.filter_append, filter_declaredLinks]
      by_cases hy : y.1.name = name
      · have hx : x.1.name ≠ name := fun hx => hNames (hy.trans hx.symm)
        rw [if_neg hx, List.nil_append, List.nil_append]
      · rw [if_neg hy, List.nil_append, List.nil_append]
  | trans hFirst hSecond ihFirst ihSecond =>
      rw [ihFirst hDistinct, ihSecond ((hFirst.map _).nodup_iff.mp hDistinct)]

theorem nodup_declare (hNames : v.names.Nodup) (name : String) :
    (v.declare name).names.Nodup := by
  unfold declare
  split
  · exact hNames
  · next hNew =>
      show (v.names ++ [name]).Nodup
      rw [← List.concat_eq_append]
      exact hNames.concat hNew

theorem filter_adopted {orphans : List String} (hOrphans : orphans.Nodup) (name : String) :
    ((orphans.map fun orphan => (⟨orphan, objectName, .superclass⟩ : NamedLink)).filter fun l =>
      l.name == name) = if name ∈ orphans then [⟨name, objectName, .superclass⟩] else [] := by
  have hFilter : (orphans.filter fun orphan => orphan == name) =
      if name ∈ orphans then [name] else [] := by
    rw [List.filter_beq]
    split
    · next hMem =>
        rw [List.count_eq_one_of_mem hOrphans hMem]
        rfl
    · next hNot =>
        rw [List.count_eq_zero_of_not_mem hNot]
        rfl
  rw [List.filter_map]
  show (orphans.filter fun orphan => orphan == name).map _ = _
  rw [hFilter]
  split
  · rfl
  · rfl

/-- Closing links the orphans to the root, and adds no other link. -/
theorem linksOf_close (hNames : v.names.Nodup) (name : String) :
    v.close.linksOf name = v.linksOf name ++
      if name ∈ (v.declare objectName).orphans then [⟨name, objectName, .superclass⟩] else [] := by
  have hOrphans : (v.declare objectName).orphans.Nodup := (nodup_declare hNames _).filter _
  rw [linksOf, links_close, List.filter_append, filter_adopted hOrphans]
  rfl

/-- Closing keeps views in agreement. -/
theorem Agree.close (h : v.Agree w) (hLeft : v.names.Nodup) (hRight : w.names.Nodup) :
    v.close.Agree w.close where
  names name := by
    show name ∈ (v.declare objectName).names ↔ name ∈ (w.declare objectName).names
    rw [mem_names_declare, mem_names_declare, h.names]
  definitions name := by rw [definition?_close, definition?_close, h.definitions]
  links name := by
    have hOrphans : name ∈ (v.declare objectName).orphans ↔
        name ∈ (w.declare objectName).orphans := by
      rw [mem_orphans_declare, mem_orphans_declare, h.names]
      simp only [h.mem_links]
    rw [linksOf_close hLeft, linksOf_close hRight, h.links]
    simp only [hOrphans]

end RepositoryView

namespace Repository

/-- The repository came to know its classes from these files, each with the
flag whether it came from a library. Every link is declared by one of
them. -/
structure Loaded (files : List (ClassFile × Bool)) (r : Repository) : Prop where
  names : ∀ name, name ∈ r.view.names ↔ ∃ x ∈ files, x.1.Mentions name
  links : r.view.links = files.flatMap fun x => x.1.declaredLinks
  registered : ∀ name x, r.registered? name = some x ↔ x ∈ files ∧ x.1.name = name

variable {files : List (ClassFile × Bool)} {r : Repository}

theorem loaded_empty : Loaded [] {} where
  names name := by simp [view_empty]
  links := by simp [view_empty]
  registered name x := by
    have hUnknown : name ∉ ({} : Repository).hierarchy.names := List.not_mem_nil
    simp [registered?_eq_none_of_not_mem hUnknown]

theorem Loaded.registered?_eq_none (h : Loaded files r) {name : String}
    (hNew : name ∉ files.map fun x => x.1.name) : r.registered? name = none := by
  apply Option.eq_none_iff_forall_not_mem.mpr
  intro x hx
  obtain ⟨hMem, hName⟩ := (h.registered name x).mp hx
  exact hNew (List.mem_map.mpr ⟨x, hMem, hName⟩)

/-- Registering a class of a new name adds its file. A placeholder of that
name is filled. -/
theorem Loaded.register (h : Loaded files r) {content : ClassFile} (library : Bool)
    (hNew : content.name ∉ files.map fun x => x.1.name) :
    ∃ r', (r.register content library).value = .ok r' ∧
      Loaded (files ++ [(content, library)]) r' := by
  have hUnregistered := h.registered?_eq_none hNew
  have hUndefined : r.view.definition? content.name = none := by
    show r.definition? content.name = none
    rw [definition?_eq_registered?, hUnregistered]
    rfl
  obtain ⟨r', hRun, hView⟩ := r.register_shows content library
  refine ⟨r', hRun, ?_, ?_, ?_⟩
  · intro name
    rw [hView, RepositoryView.mem_names_register hUndefined, h.names]
    simp [or_and_right, exists_or]
  · rw [hView, RepositoryView.links_register hUndefined, h.links, List.flatMap_append,
      List.flatMap_singleton]
  · intro name x
    rw [registered?_register hUnregistered hRun, List.mem_append, List.mem_singleton]
    split
    · next hSame =>
        rw [Option.some_inj, hSame]
        constructor
        · rintro rfl
          exact ⟨.inr rfl, rfl⟩
        · rintro ⟨hMem | rfl, hName⟩
          · exact False.elim (hNew (List.mem_map.mpr ⟨x, hMem, hName⟩))
          · rfl
    · next hOther =>
        rw [h.registered]
        constructor
        · rintro ⟨hMem, hName⟩
          exact ⟨.inl hMem, hName⟩
        · rintro ⟨hMem | rfl, hName⟩
          · exact ⟨hMem, hName⟩
          · exact False.elim (hOther hName.symm)

/-- Registering classes of distinct names loads all of them. No registration
is ignored then, and none fails. -/
theorem performAll_register_loaded (hDistinct : (files.map fun x => x.1.name).Nodup) :
    ∃ r, performAll {} (files.map fun x => .register x.1 x.2) = .ok r ∧ Loaded files r := by
  -- From the end, so that a file is added to those that were registered before it.
  induction files using List.reverseRecOn with
  | nil => exact ⟨{}, rfl, loaded_empty⟩
  | append_singleton earlier x ih =>
      rw [List.map_append, List.map_singleton, ← List.concat_eq_append, List.nodup_concat]
        at hDistinct
      obtain ⟨hNew, hEarlier⟩ := hDistinct
      obtain ⟨r, hRun, hLoaded⟩ := ih hEarlier
      obtain ⟨r', hRegister, hLoaded'⟩ := hLoaded.register x.2 hNew
      refine ⟨r', ?_, hLoaded'⟩
      rw [List.map_append]
      exact performAll_concat hRun hRegister

/-- Two repositories differ in nothing but the order of their classes.
Positions and numbers follow that order and are not compared. -/
structure Agree (r r' : Repository) : Prop where
  view : r.view.Agree r'.view
  registered : r.registered? = r'.registered?

/-- Repositories that know their classes from the same files agree, in
whatever order these were registered. -/
theorem Loaded.agree {files' : List (ClassFile × Bool)} {r' : Repository} (h : Loaded files r)
    (h' : Loaded files' r') (hPerm : files.Perm files')
    (hDistinct : (files.map fun x => x.1.name).Nodup) : r.Agree r' := by
  have hRegistered : r.registered? = r'.registered? := by
    funext name
    ext x
    rw [h.registered, h'.registered, hPerm.mem_iff]
  refine ⟨⟨?_, ?_, ?_⟩, hRegistered⟩
  · intro name
    rw [h.names, h'.names]
    simp only [hPerm.mem_iff]
  · intro name
    show r.definition? name = r'.definition? name
    rw [definition?_eq_registered?, definition?_eq_registered?, hRegistered]
  · intro name
    rw [RepositoryView.linksOf, RepositoryView.linksOf, h.links, h'.links]
    exact RepositoryView.filter_declaredLinks_perm hPerm hDistinct name

/-- Closing keeps repositories in agreement. -/
theorem Agree.close {r' : Repository} (h : r.Agree r') :
    ∃ s s', r.close.value = .ok s ∧ r'.close.value = .ok s' ∧ s.Agree s' := by
  obtain ⟨s, hClose, hView⟩ := r.close_shows
  obtain ⟨s', hClose', hView'⟩ := r'.close_shows
  refine ⟨s, s', hClose, hClose', ?_, ?_⟩
  · rw [hView, hView']
    exact h.view.close r.hierarchy.distinct r'.hierarchy.distinct
  · rw [registered?_close hClose, registered?_close hClose', h.registered]

/-- The registered class files, each with the flag whether it came from a
library. -/
def registrations (r : Repository) : List (ClassFile × Bool) :=
  r.hierarchy.names.filterMap r.registered?

/-- The registered files are the contents of the classes, in the order of
creation. -/
theorem registrations_eq (r : Repository) : r.registrations =
    r.nodes.filterMap fun n => n.content.map fun c => (c, n.library) := by
  rw [registrations, Hierarchy.names, List.filterMap_map, nodes]
  apply List.filterMap_congr
  intro n hn
  have hNode : r.hierarchy.node? n.name = some n :=
    Hierarchy.node?_eq_some_iff.mpr ⟨Array.mem_toList_iff.mp hn, rfl⟩
  rw [Function.comp_apply, registered?, hNode]
  rfl

/-- Repositories that agree hold the same files, in some order. -/
theorem Agree.registrations_perm {r' : Repository} (h : r.Agree r') :
    r.registrations.Perm r'.registrations := by
  have hNames : r.hierarchy.names.Perm r'.hierarchy.names :=
    (List.perm_ext_iff_of_nodup r.hierarchy.distinct r'.hierarchy.distinct).mpr h.view.names
  rw [registrations, registrations, h.registered]
  exact hNames.filterMap _

/-- The repository after these files were registered one after the other and
it was closed. -/
def load (files : List (ClassFile × Bool)) : Except HierarchyError Repository :=
  performAll {} ((files.map fun x => .register x.1 x.2) ++ [.close])

/-- Loading never fails. It registers the files and nothing else, and their
order decides at most the order of the classes. -/
theorem load_agree {files' : List (ClassFile × Bool)} (hPerm : files.Perm files')
    (hDistinct : (files.map fun x => x.1.name).Nodup) :
    ∃ r r', load files = .ok r ∧ load files' = .ok r' ∧
      (∀ x, r.registered? x.1.name = some x ↔ x ∈ files) ∧ r.Agree r' := by
  have hDistinct' : (files'.map fun x => x.1.name).Nodup :=
    (hPerm.map fun x => x.1.name).nodup_iff.mp hDistinct
  obtain ⟨r, hRun, hLoaded⟩ := performAll_register_loaded hDistinct
  obtain ⟨r', hRun', hLoaded'⟩ := performAll_register_loaded hDistinct'
  obtain ⟨s, s', hClose, hClose', hAgree⟩ := (hLoaded.agree hLoaded' hPerm hDistinct).close
  refine ⟨s, s', performAll_concat hRun hClose, performAll_concat hRun' hClose', ?_, hAgree⟩
  intro x
  rw [registered?_close hClose, hLoaded.registered, and_iff_left rfl]

end Repository

end JvmCalls
