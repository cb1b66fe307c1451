import JvmCalls.Proofs.Resolver.Dispatch

/-! The nullness that is reported with a target of a dispatch. It is that of
the first receiver which leads to the target, and the later ones are not
asked. So it tells what all of them have in common only if they agree or the
first one may be null, and the order of the receivers shows wherever two of
them disagree. -/
namespace JvmCalls

/-- A selection is kept if it is the first of its class. What comes later of
the same class is dropped, whatever its nullness. -/
theorem Selected.mem_firstOfEach_iff {l : List Selected} {t : Selected} :
    t ∈ firstOfEach l ↔ l.find? (fun s => s.owner == t.owner) = some t := by
  -- The rest is filtered before it is searched, so the induction is on the length.
  induction hLength : l.length using Nat.strongRecOn generalizing l with
  | ind n ih =>
      cases l with
      | nil => simp [firstOfEach]
      | cons a l =>
          have hShort := List.length_filter_le (fun b => decide (b.owner ≠ a.owner)) l
          rw [List.length_cons] at hLength
          rw [firstOfEach_cons, List.mem_cons, ih _ (by omega) rfl, List.find?_filter]
          by_cases hOwner : a.owner = t.owner
          · have hNone : l.find? (fun s => decide (decide (s.owner ≠ a.owner) = true ∧
                (s.owner == t.owner) = true)) = none := by
              rw [List.find?_eq_none]
              intro s _ hBoth
              simp [hOwner] at hBoth
            rw [hNone, List.find?_cons_of_pos (by simp [hOwner])]
            simp [eq_comm]
          · have hTest : ∀ s : Selected, decide (decide (s.owner ≠ a.owner) = true ∧
                (s.owner == t.owner) = true) = (s.owner == t.owner) := by
              intro s
              by_cases hs : s.owner = t.owner
              · simp [hs, Ne.symm hOwner]
              · simp [hs]
            simp only [hTest]
            rw [List.find?_cons_of_neg (by simpa using hOwner)]
            constructor
            · rintro (rfl | hFound)
              · exact False.elim (hOwner rfl)
              · exact hFound
            · exact Or.inr

/-- The common nullness of references is that of the first one, if this may
be null or all of them agree. -/
theorem Value.nullness_eq_head_iff {first : Reference} {rest : List Reference} :
    first.nullness = (Value.multiType (first :: rest)).nullness ↔
      first.nullness = .maybe ∨ ∀ q ∈ first :: rest, q.nullness = first.nullness := by
  simp only [nullness, references, reduceCtorEq, if_false, List.all_eq_true, beq_iff_eq]
  cases hFirst : first.nullness with
  | maybe => simp [hFirst]
  | always =>
      by_cases hAll : ∀ q ∈ rest, q.nullness = .always
      · simp [hFirst]
      · simp [hFirst, hAll]
  | never =>
      by_cases hAll : ∀ q ∈ rest, q.nullness = .never
      · simp [hFirst]
      · simp [hFirst, hAll]

namespace Resolver

variable {r : Resolver} {ref : MethodRef} {receivers : List Reference} {owner : String}

/-- Dispatching on the receiver finds the class. -/
def leadsTo (r : Resolver) (ref : MethodRef) (owner : String) (receiver : Reference) : Bool :=
  (r.dispatchOn ref receiver).value.any fun t => t.owner == owner

/-- The receivers that lead to a class, in order. -/
def leading (r : Resolver) (ref : MethodRef) (receivers : List Reference) (owner : String) :
    List Reference :=
  receivers.filter (r.leadsTo ref owner)

/-- The test agrees with the description of dispatch by inheritance. -/
theorem leadsTo_iff {q : Reference} :
    r.leadsTo ref owner q = true ↔ r.DispatchesTo ref q owner := by
  rw [leadsTo, List.any_eq_true, ← mem_dispatchOn, List.mem_map]
  simp

/-- All targets of one receiver have its nullness. Only receivers that
differ can make a difference. -/
theorem nullness_of_mem_dispatchOn {q : Reference} {t : Selected}
    (h : t ∈ (r.dispatchOn ref q).value) : t.nullness = q.nullness := by
  unfold dispatchOn at h
  split at h
  · next hNull =>
      rw [Traced.value_pure, List.mem_singleton] at h
      rw [h, hNull]
  · simp only [Traced.value_bind, Traced.value_pure, List.mem_map] at h
    obtain ⟨name, -, rfl⟩ := h
    rfl

/-- What is found first for a class comes from the first receiver that leads
to it. -/
theorem find?_dispatchOn :
    (receivers.flatMap fun q => (r.dispatchOn ref q).value).find? (fun s => s.owner == owner) =
      (r.leading ref receivers owner).head?.map fun q => ⟨owner, q.nullness⟩ := by
  induction receivers with
  | nil => rfl
  | cons q rest ih =>
      rw [List.flatMap_cons, List.find?_append]
      cases hFound : (r.dispatchOn ref q).value.find? (fun s => s.owner == owner) with
      | some t =>
          have hMem := List.mem_of_find?_eq_some hFound
          have hOwner : t.owner = owner := by simpa using List.find?_some hFound
          have hLeads : r.leadsTo ref owner q = true :=
            List.any_eq_true.mpr ⟨t, hMem, by simp [hOwner]⟩
          rw [leading, List.filter_cons_of_pos hLeads]
          simp [← nullness_of_mem_dispatchOn hMem, ← hOwner]
      | none =>
          have hLeads : ¬ r.leadsTo ref owner q = true := by
            rw [leadsTo, List.any_eq_true]
            rintro ⟨t, hMem, hOwner⟩
            exact List.find?_eq_none.mp hFound t hMem hOwner
          rw [leading, List.filter_cons_of_neg hLeads, Option.none_or]
          exact ih

/-- A class is a target with the nullness of the first receiver that leads
to it. -/
theorem mem_dispatch {t : Selected} :
    t ∈ (r.dispatch ref receivers).value ↔
      ∃ q, (r.leading ref receivers t.owner).head? = some q ∧ t.nullness = q.nullness := by
  rw [dispatch, Traced.value_bind, Traced.value_pure, Traced.value_gather,
    Selected.mem_firstOfEach_iff, find?_dispatchOn, Option.map_eq_some_iff]
  constructor
  · rintro ⟨q, hHead, hSame⟩
    exact ⟨q, hHead, by rw [← hSame]⟩
  · rintro ⟨q, hHead, hNullness⟩
    exact ⟨q, hHead, by rw [← hNullness]⟩

/-- Receivers that lead to the same class have the same nullness. Receivers
of different targets may differ. -/
def ReceiversAgree (r : Resolver) (ref : MethodRef) (receivers : List Reference) : Prop :=
  ∀ owner, ∀ q ∈ r.leading ref receivers owner, ∀ q' ∈ r.leading ref receivers owner,
    q.nullness = q'.nullness

/-- Where receivers agree, another order of them takes no target away. The
first receiver may be another one, but it has the same nullness. -/
theorem mem_dispatch_of_perm {others : List Reference} (hAgree : r.ReceiversAgree ref receivers)
    (hPerm : receivers.Perm others) {t : Selected} (h : t ∈ (r.dispatch ref receivers).value) :
    t ∈ (r.dispatch ref others).value := by
  obtain ⟨q, hHead, hNullness⟩ := mem_dispatch.mp h
  have hLeading : (r.leading ref receivers t.owner).Perm (r.leading ref others t.owner) :=
    hPerm.filter _
  have hq := List.mem_of_head? hHead
  cases hOthers : r.leading ref others t.owner with
  | nil =>
      rw [hOthers] at hLeading
      exact False.elim (List.not_mem_nil (hLeading.mem_iff.mp hq))
  | cons first rest =>
      have hFirst : first ∈ r.leading ref receivers t.owner := by
        rw [hLeading.mem_iff, hOthers]
        exact List.mem_cons_self
      refine mem_dispatch.mpr ⟨first, by rw [hOthers]; rfl, ?_⟩
      exact hNullness.trans (hAgree t.owner q hq first hFirst)

/-- Whether receivers agree does not depend on their order. -/
theorem ReceiversAgree.perm {others : List Reference} (hAgree : r.ReceiversAgree ref receivers)
    (hPerm : receivers.Perm others) : r.ReceiversAgree ref others := by
  intro owner q hq q' hq'
  have hLeading : (r.leading ref receivers owner).Perm (r.leading ref others owner) :=
    hPerm.filter _
  exact hAgree owner q (hLeading.mem_iff.mpr hq) q' (hLeading.mem_iff.mpr hq')

/-- Each receiver that leads to a class can be the first one. -/
theorem exists_perm_mem_dispatch {q : Reference} (h : q ∈ r.leading ref receivers owner) :
    ∃ others, receivers.Perm others ∧ ⟨owner, q.nullness⟩ ∈ (r.dispatch ref others).value := by
  obtain ⟨hMem, hLeads⟩ := List.mem_filter.mp h
  refine ⟨q :: receivers.erase q, List.perm_cons_erase hMem, mem_dispatch.mpr ⟨q, ?_, rfl⟩⟩
  rw [leading, List.filter_cons_of_pos hLeads]
  rfl

/-- A target is reported with the nullness of the first receiver that leads
to it. This is the common nullness of all that lead to it if and only if the
first one may be null or they agree. The order of the receivers is
irrelevant if and only if those agree that lead to the same class. -/
theorem dispatch_nullness_of_first (r : Resolver) (ref : MethodRef) (receivers : List Reference) :
    (∀ t ∈ (r.dispatch ref receivers).value,
      (∃ q, (r.leading ref receivers t.owner).head? = some q ∧ t.nullness = q.nullness) ∧
      (t.nullness = (Value.multiType (r.leading ref receivers t.owner)).nullness ↔
        t.nullness = .maybe ∨
          ∀ q ∈ r.leading ref receivers t.owner, q.nullness = t.nullness)) ∧
    ((∀ others, receivers.Perm others → ∀ t,
        t ∈ (r.dispatch ref receivers).value ↔ t ∈ (r.dispatch ref others).value) ↔
      r.ReceiversAgree ref receivers) := by
  refine ⟨?_, ?_, ?_⟩
  · intro t ht
    obtain ⟨q, hHead, hNullness⟩ := mem_dispatch.mp ht
    refine ⟨⟨q, hHead, hNullness⟩, ?_⟩
    obtain ⟨rest, hLeading⟩ := List.head?_eq_some_iff.mp hHead
    rw [hLeading, hNullness]
    exact Value.nullness_eq_head_iff
  · intro hOrder owner q hq q' hq'
    -- Each of the two is reported in some order, so both are here, and a class is here once.
    have hReported : ∀ x ∈ r.leading ref receivers owner,
        (⟨owner, x.nullness⟩ : Selected) ∈ (r.dispatch ref receivers).value := by
      intro x hx
      obtain ⟨others, hPerm, hMem⟩ := exists_perm_mem_dispatch hx
      exact (hOrder others hPerm _).mpr hMem
    obtain ⟨first, hFirst, hSame⟩ := mem_dispatch.mp (hReported q hq)
    obtain ⟨first', hFirst', hSame'⟩ := mem_dispatch.mp (hReported q' hq')
    obtain rfl : first = first' := Option.some.inj (hFirst.symm.trans hFirst')
    exact hSame.trans hSame'.symm
  · intro hAgree others hPerm t
    constructor
    · exact mem_dispatch_of_perm hAgree hPerm
    · exact mem_dispatch_of_perm (hAgree.perm hPerm) hPerm.symm

end Resolver

/-- A class with one method. -/
def soleClass : Resolver where
  repository := ⟨{
    nodes := #[.define 1 ⟨default, "t/B", none, [], {}, [⟨default, "g", "()V", none⟩]⟩ false]
    links := #[]
    distinct := by decide
    bounded := by decide }, 1, 1⟩
  options := {}

def soleMethod : MethodRef := ⟨"t/B", "g", "()V", false⟩

/-- A receiver that may be null comes first, so its nullness is the common
one. In another order it would not be. -/
theorem soleClass_nullness_of_first :
    (⟨"t/B", .maybe⟩ : Selected) ∈
        (soleClass.dispatch soleMethod [.extensible "t/B", .exact "t/B"]).value ∧
      Nullness.maybe = (Value.multiType
        (soleClass.leading soleMethod [.extensible "t/B", .exact "t/B"] "t/B")).nullness ∧
      ¬ ∀ others, [Reference.extensible "t/B", .exact "t/B"].Perm others → ∀ t,
        t ∈ (soleClass.dispatch soleMethod [.extensible "t/B", .exact "t/B"]).value ↔
          t ∈ (soleClass.dispatch soleMethod others).value := by
  have hTargets : (soleClass.dispatch soleMethod [.extensible "t/B", .exact "t/B"]).value =
      [⟨"t/B", .maybe⟩] := by cbv
  have hLeading : soleClass.leading soleMethod [.extensible "t/B", .exact "t/B"] "t/B" =
      [.extensible "t/B", .exact "t/B"] := by cbv
  have hMem : (⟨"t/B", .maybe⟩ : Selected) ∈
      (soleClass.dispatch soleMethod [.extensible "t/B", .exact "t/B"]).value := by
    rw [hTargets]
    exact List.mem_singleton.mpr rfl
  obtain ⟨hNullness, hOrder⟩ := Resolver.dispatch_nullness_of_first soleClass soleMethod
    [.extensible "t/B", .exact "t/B"]
  refine ⟨hMem, (hNullness _ hMem).2.mpr (Or.inl rfl), ?_⟩
  intro hIrrelevant
  have hAgree := hOrder.mp hIrrelevant "t/B" (.extensible "t/B") (by simp [hLeading])
    (.exact "t/B") (by simp [hLeading])
  cases hAgree

/-- A null receiver in front hides one that is never null, and is hidden
behind it. -/
theorem soleClass_hides_receiver :
    (∃ t ∈ (soleClass.dispatch soleMethod [.null, .exact "t/B"]).value, t.nullness = .always ∧
      ¬ ∀ q ∈ [Reference.null, .exact "t/B"],
        soleClass.DispatchesTo soleMethod q t.owner → q.nullness = .always) ∧
    [Reference.null, .exact "t/B"].Perm [.exact "t/B", .null] ∧
    ∃ t ∈ (soleClass.dispatch soleMethod [.null, .exact "t/B"]).value,
      t ∉ (soleClass.dispatch soleMethod [.exact "t/B", .null]).value := by
  have hNullFirst : (soleClass.dispatch soleMethod [.null, .exact "t/B"]).value =
      [⟨"t/B", .always⟩] := by cbv
  have hNullLast : (soleClass.dispatch soleMethod [.exact "t/B", .null]).value =
      [⟨"t/B", .never⟩] := by cbv
  have hExact : soleClass.leadsTo soleMethod "t/B" (.exact "t/B") = true := by cbv
  rw [hNullFirst, hNullLast]
  refine ⟨⟨_, List.mem_singleton.mpr rfl, rfl, ?_⟩, List.Perm.swap _ _ _,
    ⟨_, List.mem_singleton.mpr rfl, by decide⟩⟩
  intro hAll
  have hNullness := hAll (.exact "t/B") (by simp) (Resolver.leadsTo_iff.mp hExact)
  cases hNullness

end JvmCalls
