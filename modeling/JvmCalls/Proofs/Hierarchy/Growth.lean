import JvmCalls.Proofs.Except
import JvmCalls.Proofs.Hierarchy.Superclass
import Mathlib.Logic.Relation

/-! How a repository grows. Every operation is made of steps: a class is
declared, two classes are linked, or a class without definition is given
one. A step changes at most one class and never its position, number or
name, and the counters keep up with it. -/
namespace JvmCalls

namespace Hierarchy

variable {h h' : Hierarchy} {n : ClassNode}

theorem nodes_of_insert (hInsert : h.insert n = .ok h') : h'.nodes = h.nodes.push n := by
  unfold insert at hInsert
  split at hInsert
  · cases hInsert
  · cases hInsert
    rfl

theorem nodes_of_update (hUpdate : h.update n = .ok h') :
    ∃ i, h.find? n.name = some i ∧ h'.nodes = h.nodes.setIfInBounds i n := by
  unfold update at hUpdate
  split at hUpdate
  · next i hFind =>
      cases hUpdate
      exact ⟨i, hFind, rfl⟩
  · cases hUpdate

theorem nodes_of_link {name parent : String} {kind : Inheritance}
    (hLink : h.link name parent kind = .ok h') : h'.nodes = h.nodes := by
  unfold link at hLink
  split at hLink
  · cases hLink
  · split at hLink
    · cases hLink
    · cases hLink
      rfl

end Hierarchy

namespace Repository

/-- A step that defines no class. It creates a placeholder or adds a
link. -/
inductive LinkStep : Repository → Repository → Prop
  | declare {r r' : Repository} {name : String} (h : r.declare name = .ok r') : LinkStep r r'
  | link {r : Repository} {h' : Hierarchy} {name parent : String} {kind : Inheritance}
      (h : r.hierarchy.link name parent kind = .ok h') : LinkStep r { r with hierarchy := h' }

/-- A step of an operation. Only a class without definition is given one, so
that nothing is ever defined again. -/
inductive Step : Repository → Repository → Prop
  | link {r r' : Repository} (h : LinkStep r r') : Step r r'
  | define {r r' : Repository} {content : ClassFile} {library : Bool}
      (hNew : r.definition? content.name = none) (h : r.define content library = .ok r') :
      Step r r'

open Relation (ReflTransGen)

variable {r r' : Repository}

/-- Inheriting is declaring the parent and linking to it. -/
theorem inherit_steps {name parent : String} {kind : Inheritance}
    (h : r.inherit name parent kind = .ok r') : ReflTransGen LinkStep r r' := by
  obtain ⟨declared, hDeclare, h⟩ := bind_eq_ok_iff.mp h
  obtain ⟨h', hLink, hSame⟩ := bind_eq_ok_iff.mp h
  cases hSame
  exact .tail (.single (.declare hDeclare)) (.link hLink)

theorem inheritAll_steps {name : String} {interfaces : List String}
    (h : interfaces.foldlM (fun r interface => r.inherit name interface .interface) r = .ok r') :
    ReflTransGen LinkStep r r' := by
  induction interfaces generalizing r with
  | nil =>
      cases h
      exact .refl
  | cons interface rest ih =>
      rw [List.foldlM_cons] at h
      obtain ⟨inherited, hInherit, hRest⟩ := bind_eq_ok_iff.mp h
      exact (inherit_steps hInherit).trans (ih hRest)

/-- A class is defined first, and what it inherits is linked then. So
a class that names itself is linked to itself. -/
theorem add_steps {content : ClassFile} {library : Bool} (h : r.add content library = .ok r') :
    ∃ defined, r.define content library = .ok defined ∧ ReflTransGen LinkStep defined r' := by
  obtain ⟨defined, hDefine, h⟩ := bind_eq_ok_iff.mp h
  refine ⟨defined, hDefine, ?_⟩
  cases hSuper : content.superclass with
  | none =>
      rw [hSuper] at h
      exact inheritAll_steps h
  | some superclass =>
      rw [hSuper] at h
      obtain ⟨inherited, hInherit, hRest⟩ := bind_eq_ok_iff.mp h
      exact (inherit_steps hInherit).trans (inheritAll_steps hRest)

theorem adopt_steps {names : List String} (h : (r.adopt names).value = .ok r') :
    ReflTransGen LinkStep r r' := by
  induction names generalizing r with
  | nil =>
      cases h
      exact .refl
  | cons name rest ih =>
      rw [adopt, Traced.value_bind] at h
      cases hLink : r.hierarchy.link name objectName .superclass with
      | error e =>
          rw [hLink] at h
          cases h
      | ok h' =>
          rw [hLink] at h
          exact .head (.link hLink) (ih h)

/-- Closing defines nothing. It declares the root and links orphans to
it. -/
theorem close_steps (h : r.close.value = .ok r') : ReflTransGen LinkStep r r' := by
  unfold close at h
  cases hDeclare : r.declare objectName with
  | error e =>
      rw [hDeclare] at h
      cases h
  | ok declared =>
      rw [hDeclare] at h
      exact .head (.declare hDeclare) (adopt_steps h)

/-- A second registration by the same name is ignored. -/
theorem register_of_isDefined {content : ClassFile} (hDefined : r.isDefined content.name = true)
    (library : Bool) : (r.register content library).value = .ok r := by
  rw [register, Traced.value_bind, if_pos hDefined]
  rfl

/-- The first registration by a name adds the class. -/
theorem register_of_not_isDefined {content : ClassFile}
    (hNew : ¬ r.isDefined content.name = true) (library : Bool) :
    (r.register content library).value = r.add content library := by
  rw [register, Traced.value_bind, if_neg hNew]
  rfl

/-- A registration is made of steps, or of none if it is ignored. What holds
of steps holds of registrations. -/
theorem register_steps {content : ClassFile} {library : Bool}
    (h : (r.register content library).value = .ok r') : ReflTransGen Step r r' := by
  by_cases hDefined : r.isDefined content.name = true
  · rw [register_of_isDefined hDefined] at h
    cases h
    exact .refl
  · rw [register_of_not_isDefined hDefined] at h
    obtain ⟨defined, hDefine, hLinks⟩ := add_steps h
    have hNew : r.definition? content.name = none := by simpa [isDefined] using hDefined
    exact .head (.define hNew hDefine) (ReflTransGen.mono (fun _ _ => .link) _ _ hLinks)

theorem registerAll_cons {content : ClassFile} {rest : List ClassFile} {library : Bool}
    (h : (r.registerAll (content :: rest) library).value = .ok r') :
    ∃ registered, (r.register content library).value = .ok registered ∧
      (registered.registerAll rest library).value = .ok r' := by
  rw [registerAll, Traced.value_bind] at h
  cases hRegister : (r.register content library).value with
  | error e =>
      rw [hRegister] at h
      cases h
  | ok registered =>
      rw [hRegister] at h
      exact ⟨registered, rfl, h⟩

theorem registerAll_steps {contents : List ClassFile} {library : Bool}
    (h : (r.registerAll contents library).value = .ok r') : ReflTransGen Step r r' := by
  induction contents generalizing r with
  | nil =>
      cases h
      exact .refl
  | cons content rest ih =>
      obtain ⟨registered, hRegister, hRest⟩ := registerAll_cons h
      exact (register_steps hRegister).trans (ih hRest)

/-- Every operation is made of steps. -/
theorem perform_steps {op : RepositoryOp} (h : r.perform op = .ok r') : ReflTransGen Step r r' := by
  cases op with
  | register content library => exact register_steps h
  | registerAll contents library => exact registerAll_steps h
  | close => exact ReflTransGen.mono (fun _ _ => .link) _ _ (close_steps h)

/-- So are all operations together, and what one step preserves holds after
any of them. -/
theorem performAll_steps {ops : List RepositoryOp} (h : r.performAll ops = .ok r') :
    ReflTransGen Step r r' := by
  induction ops generalizing r with
  | nil =>
      cases h
      exact .refl
  | cons op rest ih =>
      rw [performAll, List.foldlM_cons] at h
      obtain ⟨performed, hPerform, hRest⟩ := bind_eq_ok_iff.mp h
      exact (perform_steps hPerform).trans (ih hRest)

/-- What a step does to the classes and the counters: nothing, or it creates
a class behind the others, or it defines a class where it stands. Nothing is
ever removed. -/
inductive Change (r r' : Repository) : Prop
  | none (hNodes : r'.nodes = r.nodes) (hClasses : r'.classCount = r.classCount)
      (hMethods : r'.methodCount = r.methodCount)
  | create (n : ClassNode) (hUid : n.uid = r.classCount + 1) (hNodes : r'.nodes = r.nodes ++ [n])
      (hClasses : r'.classCount = r.classCount + 1)
      (hMethods : r'.methodCount = r.methodCount + n.methods.length)
  | define (k : Nat) (n n' : ClassNode) (hAt : r.nodes[k]? = some n)
      (hUndefined : n.isDefined = false) (hUid : n'.uid = n.uid) (hName : n'.name = n.name)
      (hNodes : r'.nodes = r.nodes.set k n') (hClasses : r'.classCount = r.classCount)
      (hMethods : r'.methodCount = r.methodCount + n'.methods.length)

theorem LinkStep.change (h : LinkStep r r') : Change r r' := by
  cases h with
  | @declare _ name h =>
      unfold Repository.declare at h
      split at h
      · cases h
        exact .none rfl rfl rfl
      · obtain ⟨inserted, hInsert, hSame⟩ := bind_eq_ok_iff.mp h
        cases hSame
        refine .create (.placeholder (r.classCount + 1) name) rfl ?_ rfl rfl
        rw [nodes, Hierarchy.nodes_of_insert hInsert, Array.toList_push]
        rfl
  | link h =>
      refine .none ?_ rfl rfl
      rw [nodes, Hierarchy.nodes_of_link h]
      rfl

/-- Defining a placeholder changes it in its place, and defining an
unknown class creates it. -/
theorem define_change {content : ClassFile} {library : Bool}
    (hNew : r.definition? content.name = none) (h : r.define content library = .ok r') :
    Change r r' := by
  unfold define at h
  split at h
  · next known hNode =>
      obtain ⟨updated, hUpdate, hSame⟩ := bind_eq_ok_iff.mp h
      cases hSame
      obtain ⟨k, hFind, hNodes⟩ := Hierarchy.nodes_of_update hUpdate
      have hName : known.name = content.name := (Hierarchy.node?_eq_some_iff.mp hNode).2
      have hAt : r.nodes[k]? = some known := by
        rw [Hierarchy.node?, show r.hierarchy.find? content.name = some k from hFind,
          Option.bind_some] at hNode
        rw [nodes, Array.getElem?_toList, hNode]
      have hUndefined : known.isDefined = false := by
        rw [definition?, hNode, Option.bind_some] at hNew
        rw [ClassNode.isDefined, hNew, Option.isSome_none]
      refine .define k known (.define known.uid content library) hAt hUndefined rfl hName.symm ?_
        rfl rfl
      rw [nodes, hNodes, Array.toList_setIfInBounds]
      rfl
  · obtain ⟨inserted, hInsert, hSame⟩ := bind_eq_ok_iff.mp h
    cases hSame
    refine .create (.define (r.classCount + 1) content library) rfl ?_ rfl rfl
    rw [nodes, Hierarchy.nodes_of_insert hInsert, Array.toList_push]
    rfl

/-- Every step is one of these changes. -/
theorem Step.change (h : Step r r') : Change r r' := by
  cases h with
  | link h => exact h.change
  | define hNew h => exact define_change hNew h

/-- Classes stay where they are, with their numbers and names, and with
their definitions once they have one. This relates any two moments of a
history. -/
def Grows (r r' : Repository) : Prop :=
  ∀ (k : Nat) (n : ClassNode), r.nodes[k]? = some n →
    ∃ n', r'.nodes[k]? = some n' ∧ n'.uid = n.uid ∧ n'.name = n.name ∧
      (n.isDefined = true → n' = n)

theorem Grows.refl (r : Repository) : r.Grows r :=
  fun _ n hAt => ⟨n, hAt, rfl, rfl, fun _ => rfl⟩

theorem Grows.trans {s : Repository} (hFirst : r.Grows s) (hSecond : s.Grows r') :
    r.Grows r' := by
  intro k n hAt
  obtain ⟨n₁, hAt₁, hUid₁, hName₁, hDefined₁⟩ := hFirst k n hAt
  obtain ⟨n₂, hAt₂, hUid₂, hName₂, hDefined₂⟩ := hSecond k n₁ hAt₁
  refine ⟨n₂, hAt₂, hUid₂.trans hUid₁, hName₂.trans hName₁, ?_⟩
  intro hDefined
  obtain rfl := hDefined₁ hDefined
  exact hDefined₂ hDefined

/-- One change makes a repository grow: at most one class is other than
before, and it keeps its position, number and name. -/
theorem Change.grows (h : Change r r') : r.Grows r' := by
  intro k n hAt
  cases h with
  | none hNodes => exact ⟨n, hNodes ▸ hAt, rfl, rfl, fun _ => rfl⟩
  | create new _ hNodes =>
      obtain ⟨hLt, -⟩ := List.getElem?_eq_some_iff.mp hAt
      refine ⟨n, ?_, rfl, rfl, fun _ => rfl⟩
      rw [hNodes, List.getElem?_append_left hLt, hAt]
  | define i known new hKnown hUndefined hUid hName hNodes =>
      rw [hNodes, List.getElem?_set]
      split
      · next hSame =>
          subst hSame
          obtain ⟨hLt, -⟩ := List.getElem?_eq_some_iff.mp hAt
          obtain rfl : known = n := Option.some.inj (hKnown.symm.trans hAt)
          refine ⟨new, if_pos hLt, hUid, hName, ?_⟩
          -- Only a placeholder is replaced, so there is no definition to lose.
          intro hDefined
          rw [hUndefined] at hDefined
          cases hDefined
      · exact ⟨n, hAt, rfl, rfl, fun _ => rfl⟩

/-- Classes are numbered from one in the order of creation, and the counters
count them and the methods of those that are defined. This is the invariant
of all steps. -/
structure Counted (r : Repository) : Prop where
  uid : ∀ (k : Nat) (n : ClassNode), r.nodes[k]? = some n → n.uid = k + 1
  classes : r.classCount = r.nodes.length
  methods : r.methodCount = (r.definedNodes.flatMap ClassNode.methods).length

theorem methods_of_not_isDefined {n : ClassNode} (h : n.isDefined = false) :
    n.methods = [] := by
  rw [ClassNode.isDefined, Option.isSome_eq_false_iff, Option.isNone_iff_eq_none] at h
  rw [ClassNode.methods, h]

/-- Placeholders have no methods that would count. -/
theorem flatMap_methods_definedNodes (r : Repository) :
    r.definedNodes.flatMap ClassNode.methods = r.nodes.flatMap ClassNode.methods := by
  rw [definedNodes]
  induction r.nodes with
  | nil => rfl
  | cons n rest ih =>
      cases hDefined : n.isDefined with
      | true => rw [List.filter_cons_of_pos hDefined, List.flatMap_cons, List.flatMap_cons, ih]
      | false =>
          rw [List.filter_cons_of_neg (by simp [hDefined]), List.flatMap_cons, ih,
            methods_of_not_isDefined hDefined, List.nil_append]

/-- Where a member that counted nothing is replaced, the count grows by that
of the new one. -/
theorem length_flatMap_set {α β : Type} {f : α → List β} {l : List α} {k : Nat} {a : α}
    (hAt : l[k]? = some a) (hNone : f a = []) (b : α) :
    ((l.set k b).flatMap f).length = (l.flatMap f).length + (f b).length := by
  induction l generalizing k with
  | nil => cases hAt
  | cons head rest ih =>
      cases k with
      | zero =>
          obtain rfl : head = a := Option.some.inj hAt
          rw [List.set_cons_zero, List.flatMap_cons, List.flatMap_cons, hNone, List.nil_append,
            List.length_append, Nat.add_comm]
      | succ k =>
          rw [List.set_cons_succ, List.flatMap_cons, List.flatMap_cons, List.length_append,
            List.length_append, ih hAt, Nat.add_assoc]

/-- No number is given twice, as numbers are positions. -/
theorem Counted.uids_nodup (h : r.Counted) : (r.nodes.map ClassNode.uid).Nodup := by
  rw [List.nodup_iff_pairwise_ne, List.pairwise_iff_getElem]
  intro i j hi hj hLt hSame
  rw [List.length_map] at hi hj
  have hLeft := h.uid i _ (List.getElem?_eq_getElem hi)
  have hRight := h.uid j _ (List.getElem?_eq_getElem hj)
  rw [List.getElem_map, List.getElem_map] at hSame
  omega

theorem Counted.empty : ({} : Repository).Counted where
  uid k n hAt := by cases hAt
  classes := rfl
  methods := rfl

/-- A change keeps the counters in step. A class that is defined had no
methods before. -/
theorem Counted.change (hCounted : r.Counted) (h : Change r r') : r'.Counted := by
  obtain ⟨hUids, hCount, hTotal⟩ := hCounted
  rw [flatMap_methods_definedNodes] at hTotal
  cases h with
  | none hNodes hClasses hMethods =>
      refine ⟨hNodes ▸ hUids, by rw [hClasses, hNodes, hCount], ?_⟩
      rw [flatMap_methods_definedNodes, hMethods, hNodes, hTotal]
  | create new hUid hNodes hClasses hMethods =>
      refine ⟨?_, by rw [hClasses, hNodes, hCount, List.length_append, List.length_singleton], ?_⟩
      · intro k n hAt
        rw [hNodes, List.getElem?_append] at hAt
        split at hAt
        · exact hUids k n hAt
        · next hGe =>
            rw [List.getElem?_singleton] at hAt
            split at hAt
            · obtain rfl : new = n := Option.some.inj hAt
              omega
            · cases hAt
      · rw [flatMap_methods_definedNodes, hMethods, hNodes, List.flatMap_append, List.length_append,
          List.flatMap_singleton, hTotal]
  | define i known new hKnown hUndefined hUid hName hNodes hClasses hMethods =>
      refine ⟨?_, by rw [hClasses, hNodes, hCount, List.length_set], ?_⟩
      · intro k n hAt
        rw [hNodes, List.getElem?_set] at hAt
        split at hAt
        · next hSame =>
            subst hSame
            split at hAt
            · obtain rfl : new = n := Option.some.inj hAt
              rw [hUid, hUids i known hKnown]
            · cases hAt
        · exact hUids k n hAt
      · have hNone := methods_of_not_isDefined hUndefined
        rw [flatMap_methods_definedNodes, hMethods, hNodes, length_flatMap_set hKnown hNone, hTotal]

/-- Any number of steps makes a repository grow, as growing is
transitive. -/
theorem grows_of_steps (h : ReflTransGen Step r r') : r.Grows r' := by
  induction h with
  | refl => exact .refl r
  | tail _ hStep ih => exact ih.trans hStep.change.grows

/-- Any number of steps keeps the counters right. Each of them counts what
it adds. -/
theorem Counted.steps (hCounted : r.Counted) (h : ReflTransGen Step r r') : r'.Counted := by
  induction h with
  | refl => exact hCounted
  | tail _ hStep ih => exact ih.change hStep.change

end Repository

end JvmCalls
