import JvmCalls.Proofs.Hierarchy.Agreement
import JvmCalls.Selection.Invocation

/-! Selection on repositories that agree about their classes.
Superinterfaces may come in another order, but what is left of them is
sorted by name. -/
namespace JvmCalls

theorem nodup_eraseDups (l : List String) : l.eraseDups.Nodup := by
  induction hLength : l.length using Nat.strongRecOn generalizing l with
  | ind n ih =>
      cases l with
      | nil => exact List.Pairwise.nil
      | cons a rest =>
          have hShort := List.length_filter_le (fun b => !b == a) rest
          rw [List.length_cons] at hLength
          rw [List.eraseDups_cons, List.nodup_cons, List.mem_eraseDups]
          refine ⟨?_, ih _ (by omega) _ rfl⟩
          simp

theorem pairwise_sortedNames (names : List String) :
    (sortedNames names).Pairwise fun a b => decide (a ≤ b) = true := by
  apply List.pairwise_mergeSort
  · simpa using fun a b c => String.le_trans
  · simpa using String.le_total

/-- Sorted names depend only on which names there are. -/
theorem sortedNames_congr {l k : List String} (h : ∀ name, name ∈ l ↔ name ∈ k) :
    sortedNames l = sortedNames k := by
  have hPerm : l.eraseDups.Perm k.eraseDups := by
    rw [List.perm_ext_iff_of_nodup (nodup_eraseDups l) (nodup_eraseDups k)]
    intro name
    rw [List.mem_eraseDups, List.mem_eraseDups, h]
  have hSame : (sortedNames l).Perm (sortedNames k) :=
    (List.mergeSort_perm _ _).trans (hPerm.trans (List.mergeSort_perm _ _).symm)
  apply hSame.eq_of_pairwise _ (pairwise_sortedNames l) (pairwise_sortedNames k)
  simpa using fun a b _ _ => String.le_antisymm

namespace Repository

/-- A virtual call on an object of a class that is defined has nothing to
report. -/
theorem selectVirtual_of_isDefined {r : Repository} {type : String}
    (hDefined : r.isDefined type = true) (name descriptor : String) :
    r.selectVirtual (some type) name descriptor =
      pure (((r.superclassSearch? type name descriptor).map ([·])).getD
        (r.maximallySpecific type name descriptor)) := by
  simp only [selectVirtual, hDefined, if_true]
  cases r.superclassSearch? type name descriptor with
  | none => rfl
  | some found => rfl

theorem events_selectVirtual {r : Repository} {type : String}
    (hDefined : r.isDefined type = true) (name descriptor : String) :
    (r.selectVirtual (some type) name descriptor).events = [] := by
  rw [selectVirtual_of_isDefined hDefined]
  rfl

variable {r s : Repository} (hAgree : r.view.Agree s.view)

include hAgree

/-- Repositories that agree declare the same methods. -/
theorem findMethod?_agree : r.findMethod? = s.findMethod? := by
  funext owner name descriptor
  rw [findMethod?, findMethod?, definition?_agree hAgree]

theorem declares_agree : r.declares = s.declares := by
  funext name descriptor owner
  rw [declares, declares, findMethod?_agree hAgree]

/-- The search through superclasses goes through the same classes, as
lineages do not depend on the order of registration. -/
theorem definedLineage_agree (name : String) : r.definedLineage name = s.definedLineage name := by
  rw [definedLineage, definedLineage, lineage_agree hAgree, isDefined_agree hAgree]

/-- So it finds the same class. -/
theorem superclassSearch?_agree : r.superclassSearch? = s.superclassSearch? := by
  have hImplements : r.implements = s.implements := by
    funext name descriptor owner
    rw [implements, implements, findMethod?_agree hAgree]
  funext owner name descriptor
  rw [superclassSearch?, superclassSearch?, definedLineage_agree hAgree, hImplements]

/-- The applicable interfaces are the same, in some order. -/
theorem mem_applicableInterfaces_agree {owner name descriptor interface : String} :
    interface ∈ r.applicableInterfaces owner name descriptor ↔
      interface ∈ s.applicableInterfaces owner name descriptor := by
  have hDefault : r.isDefaultMethod = s.isDefaultMethod := by
    funext name descriptor interface
    rw [isDefaultMethod, isDefaultMethod, findMethod?_agree hAgree]
  rw [applicableInterfaces, applicableInterfaces, List.mem_filter, List.mem_filter, hDefault,
    mem_superinterfaces_agree hAgree]

/-- Those that are left are the same in the same order, as they are
sorted. -/
theorem maximallySpecific_agree (owner name descriptor : String) :
    r.maximallySpecific owner name descriptor = s.maximallySpecific owner name descriptor := by
  apply sortedNames_congr
  intro interface
  simp only [List.mem_filter, Bool.not_eq_true', List.contains_eq_mem, decide_eq_false_iff_not,
    List.mem_flatMap, mem_applicableInterfaces_agree hAgree, mem_superinterfaces_agree hAgree]

/-- Static selection gives the same class and the same events. -/
theorem selectStatic_agree (ref : MethodRef) : r.selectStatic ref = s.selectStatic ref := by
  rw [selectStatic, selectStatic, isDefined_agree hAgree, definedLineage_agree hAgree,
    declares_agree hAgree]

theorem specialStart_agree (caller : ClassFile) (ref : MethodRef) :
    r.specialStart caller ref = s.specialStart caller ref := by
  rw [specialStart, specialStart, startsAtSuperclass, startsAtSuperclass,
    definition?_agree hAgree, isSubclassOf_agree hAgree]

/-- Special selection starts at the same class and goes on in the same
way. -/
theorem selectSpecial_agree (caller : ClassFile) (ref : MethodRef) :
    r.selectSpecial caller ref = s.selectSpecial caller ref := by
  have hObject : r.objectHasMethod = s.objectHasMethod := by
    funext name descriptor
    rw [objectHasMethod, objectHasMethod, definition?_agree hAgree]
  rw [selectSpecial, selectSpecial, specialStart_agree hAgree, definition?_agree hAgree, hObject,
    superclassSearch?_agree hAgree]
  simp only [maximallySpecific_agree hAgree]

/-- Virtual selection gives the same classes in the same order. -/
theorem selectVirtual_agree (receiver : Option String) (name descriptor : String) :
    r.selectVirtual receiver name descriptor = s.selectVirtual receiver name descriptor := by
  unfold selectVirtual
  rw [isDefined_agree hAgree, superclassSearch?_agree hAgree]
  simp only [maximallySpecific_agree hAgree]

end Repository

end JvmCalls
