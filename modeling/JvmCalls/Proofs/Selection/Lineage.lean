import JvmCalls.Proofs.Hierarchy.Agreement
import JvmCalls.Selection.Lookup
import Mathlib.Data.List.TakeWhile

/-! Searching a class and its superclasses. What the search goes through are
the paths of superclasses that start at the class, have no class twice and
no class without definition. It finds the nearest class on them that passes
a test. -/
namespace JvmCalls

/-- A beginning of a list ends before the first member that fails a test
just if all its own members pass. -/
theorem isPrefix_takeWhile_iff {α : Type} {p : α → Bool} {path l : List α} :
    path <+: l.takeWhile p ↔ path <+: l ∧ ∀ a ∈ path, p a = true := by
  constructor
  · intro hPrefix
    refine ⟨hPrefix.trans (List.takeWhile_prefix p), ?_⟩
    intro a ha
    exact List.mem_takeWhile_imp (hPrefix.subset ha)
  · rintro ⟨⟨rest, rfl⟩, hPass⟩
    rw [List.takeWhile_append_of_pos hPass]
    exact List.prefix_append path _

namespace Hierarchy

variable {h : Hierarchy}

theorem namesAt_eq_of_forall₂ {l : List Nat} {names : List String}
    (hNames : List.Forall₂ (fun i name => h.nameAt? i = some name) l names) :
    h.namesAt l = names := by
  induction hNames with
  | nil => rfl
  | cons hFirst hRest ih =>
      rw [namesAt, List.filterMap_cons_some hFirst]
      exact congrArg (_ :: ·) ih

/-- Comparing positions is comparing names. -/
theorem position_eq_iff {i j : Nat} {name other : String} (hi : h.nameAt? i = some name)
    (hj : h.nameAt? j = some other) : i = j ↔ name = other := by
  constructor
  · rintro rfl
    exact Option.some.inj (hi.symm.trans hj)
  · rintro rfl
    exact nameAt?_inj hi hj

/-- The superclass by position and the superclass by name are the
same class. -/
theorem superOf?_rel_superclass? {i : Nat} {name : String} (hName : h.nameAt? i = some name) :
    Option.Rel (fun j parent => h.nameAt? j = some parent) (h.superOf? i) (h.superclass? name) := by
  rw [superclass?_of_nameAt? hName]
  cases hSuper : h.superOf? i with
  | none => exact .none
  | some j =>
      obtain ⟨parent, hParent⟩ := nameAt?_of_superOf? hSuper
      rw [Option.bind_some, hParent]
      exact .some hParent

end Hierarchy

namespace Repository

variable {r : Repository} {name : String}

/-- The lineage of a class is a walk from name to name, so that positions
may be forgotten. -/
theorem lineage_eq (name : String) :
    r.lineage name = (Reach.chain r.superclass? r.hierarchy.names name).visited := by
  unfold lineage
  cases hFind : r.hierarchy.find? name with
  | none =>
      have hUnknown : name ∉ r.hierarchy.names := Hierarchy.find?_eq_none_iff.mp hFind
      rw [Reach.chain, if_neg hUnknown]
  | some i =>
      have hSame : ∀ j other, r.hierarchy.nameAt? j = some other →
          (j ∈ r.hierarchy.positions ↔ other ∈ r.hierarchy.names) := by
        intro j other hOther
        refine iff_of_true (Hierarchy.mem_positions.mpr ⟨other, hOther⟩) ?_
        rw [← Hierarchy.getElem?_names] at hOther
        exact List.mem_of_getElem? hOther
      exact Hierarchy.namesAt_eq_of_forall₂ (Reach.chain_related
        (fun _ _ _ _ => Hierarchy.position_eq_iff) (fun _ _ => Hierarchy.superOf?_rel_superclass?)
        (Hierarchy.find?_eq_some_iff.mp hFind) List.nodup_range r.hierarchy.distinct hSame).1

/-- A class and successive superclasses of it. All of them are defined, and
none is there twice. It need not go up as far as it could. -/
structure Climbs (r : Repository) (name : String) (path : List String) : Prop where
  walk : Reach.Walk r.superclass? name path
  defined : ∀ a ∈ path, r.isDefined a = true

/-- Superclasses lead to every class on the path. -/
theorem Climbs.reaches {path : List String} {a : String} (h : r.Climbs name path) (ha : a ∈ path) :
    Relation.ReflTransGen (fun name parent => r.superclass? name = some parent) name a := by
  have hWalk := h.walk
  clear h
  induction hWalk with
  | single x =>
      obtain rfl := List.mem_singleton.mp ha
      exact .refl
  | step hNext _ _ ih =>
      rcases List.mem_cons.mp ha with rfl | hLater
      · exact .refl
      · exact .head hNext (ih hLater)

theorem mem_names_of_isDefined (h : r.isDefined name = true) : name ∈ r.hierarchy.names := by
  by_contra hUnknown
  rw [isDefined, definition?_eq_none_of_not_mem hUnknown] at h
  cases h

/-- These paths are the beginnings of what the search goes through. -/
theorem climbs_iff {path : List String} :
    r.Climbs name path ↔ path ≠ [] ∧ path <+: r.definedLineage name := by
  rw [definedLineage, isPrefix_takeWhile_iff, lineage_eq]
  constructor
  · rintro ⟨hWalk, hDefined⟩
    refine ⟨List.ne_nil_of_mem hWalk.mem_start, ?_, hDefined⟩
    exact hWalk.isPrefix_visited fun a ha => mem_names_of_isDefined (hDefined a ha)
  · rintro ⟨hPath, hPrefix, hDefined⟩
    exact ⟨(Reach.walk_of_isPrefix_visited r.hierarchy.distinct hPath hPrefix).1, hDefined⟩

/-- A search through superclasses finds the nearest class that passes the
test. -/
theorem find?_definedLineage_eq_some_iff {p : String → Bool} {owner : String} :
    (r.definedLineage name).find? p = some owner ↔
      ∃ before, r.Climbs name (before ++ [owner]) ∧ p owner = true ∧
        ∀ a ∈ before, p a = false := by
  simp only [List.find?_eq_some_iff_append, climbs_iff, Bool.not_eq_true']
  constructor
  · rintro ⟨hOwner, before, after, hSplit, hBefore⟩
    refine ⟨before, ⟨by simp, after, ?_⟩, hOwner, hBefore⟩
    rw [hSplit, List.append_assoc, List.singleton_append]
  · rintro ⟨before, ⟨-, after, hSplit⟩, hOwner, hBefore⟩
    refine ⟨hOwner, before, after, ?_, hBefore⟩
    rw [← hSplit, List.append_assoc, List.singleton_append]

/-- A search finds nothing just if no class on a path passes the test. -/
theorem find?_definedLineage_eq_none_iff {p : String → Bool} :
    (r.definedLineage name).find? p = none ↔
      ∀ path, r.Climbs name path → ∀ a ∈ path, p a = false := by
  simp only [List.find?_eq_none, climbs_iff, Bool.not_eq_true]
  constructor
  · intro hNone path hPath a ha
    exact hNone a (hPath.2.subset ha)
  · intro hNone a ha
    exact hNone _ ⟨List.ne_nil_of_mem ha, List.prefix_rfl⟩ a ha

/-- What leads up from a class with a superclass leads up from the
superclass. -/
theorem climbs_iff_of_superclass? {parent : String} {path : List String}
    (hDefined : r.isDefined name = true) (hParent : r.superclass? name = some parent) :
    r.Climbs name path ↔
      path = [name] ∨ ∃ rest, path = name :: rest ∧ name ∉ rest ∧ r.Climbs parent rest := by
  constructor
  · rintro ⟨hWalk, hAll⟩
    cases hWalk with
    | single => exact .inl rfl
    | @step _ y rest hNext hRest hNew =>
        obtain rfl : y = parent := Option.some.inj (hNext.symm.trans hParent)
        exact .inr ⟨rest, rfl, hNew, hRest, fun a ha => hAll a (List.mem_cons_of_mem name ha)⟩
  · rintro (rfl | ⟨rest, rfl, hNew, hWalk, hAll⟩)
    · exact ⟨.single name, by simpa using hDefined⟩
    · exact ⟨.step hParent hWalk hNew, List.forall_mem_cons.mpr ⟨hDefined, hAll⟩⟩

/-- A class that fails the test may be left out of the search, also where
its superclasses lead back to it. -/
theorem find?_definedLineage_superclass {p : String → Bool} {parent : String}
    (hDefined : r.isDefined name = true) (hParent : r.superclass? name = some parent)
    (hFails : p name = false) :
    (r.definedLineage name).find? p = (r.definedLineage parent).find? p := by
  have hOther {owner : String} (hOwner : p owner = true) : owner ≠ name := by
    rintro rfl
    exact Bool.false_ne_true (hFails.symm.trans hOwner)
  ext owner
  simp only [find?_definedLineage_eq_some_iff, climbs_iff_of_superclass? hDefined hParent]
  constructor
  · rintro ⟨before, hPath, hOwner, hBefore⟩
    cases before with
    | nil =>
        have hSame : owner = name := by
          rcases hPath with hPath | ⟨rest, hPath, -⟩
          · exact List.singleton_inj.mp hPath
          · exact (List.cons.inj hPath).1
        exact False.elim (hOther hOwner hSame)
    | cons first before =>
        rcases hPath with hPath | ⟨rest, hPath, -, hRest⟩
        · simp at hPath
        · obtain ⟨-, rfl⟩ := List.cons.inj hPath
          exact ⟨before, hRest, hOwner, fun a ha => hBefore a (List.mem_cons_of_mem first ha)⟩
  · rintro ⟨before, hClimbs, hOwner, hBefore⟩
    -- A walk that came back to the class would end there.
    have hNew : name ∉ before ++ [owner] := by
      intro hMem
      have hLast := hClimbs.walk.getLast?_of_next hMem hParent
      rw [List.getLast?_concat] at hLast
      exact hOther hOwner (Option.some.inj hLast)
    refine ⟨name :: before, .inr ⟨before ++ [owner], rfl, hNew, hClimbs⟩, hOwner, ?_⟩
    exact List.forall_mem_cons.mpr ⟨hFails, hBefore⟩

end Repository

end JvmCalls
