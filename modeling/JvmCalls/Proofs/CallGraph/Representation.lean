import JvmCalls.CallGraph.Basic
import JvmCalls.Proofs.Positions
import Mathlib.Data.List.Nodup

/-! What a call graph stores besides its calls agrees with them. Every
method has one position, the index finds it, and a call runs from the
position of its caller to that of its target. So the calls of a method are
those of all calls that name it. This holds of all graphs that are made by
adding, merging and filtering. -/
namespace JvmCalls

/-- A renumbered edge joins the same positions by the numbers that they have
now. -/
theorem CallEdge.of_renumber? {kept : List Nat} {e e' : CallEdge}
    (h : CallEdge.renumber? kept e = some e') :
    kept[e'.source]? = some e.source ∧ kept[e'.target]? = some e.target ∧ e'.call = e.call := by
  have hFound {i position : Nat} (hFind : kept.findIdx? (· == position) = some i) :
      kept[i]? = some position := by
    obtain ⟨hi, hSame, -⟩ := List.findIdx?_eq_some_iff_getElem.mp hFind
    rw [List.getElem?_eq_getElem hi, beq_iff_eq.mp hSame]
  obtain ⟨source, hSource, h⟩ := Option.bind_eq_some_iff.mp h
  obtain ⟨target, hTarget, h⟩ := Option.bind_eq_some_iff.mp h
  obtain rfl := Option.some.inj h
  exact ⟨hFound hSource, hFound hTarget, rfl⟩

/-- A call is kept where both of its ends are. New positions leave the call
itself alone. -/
theorem CallEdge.map_call_renumber? (kept : List Nat) (e : CallEdge) :
    (CallEdge.renumber? kept e).map CallEdge.call =
      if kept.contains e.source && kept.contains e.target then some e.call else none := by
  have hFound (i : Nat) : kept.contains i = (kept.findIdx? (· == i)).isSome := by
    rw [List.findIdx?_isSome, List.contains_eq_any_beq]
    simp only [BEq.comm]
  rw [hFound, hFound]
  unfold renumber?
  cases kept.findIdx? (· == e.source) with
  | none => rfl
  | some source =>
      cases kept.findIdx? (· == e.target) with
      | none => rfl
      | some target => rfl

namespace CallGraph

/-- The graphs that can be made. Nothing else makes a graph, so that what
all four ways keep holds of every graph. -/
inductive Built : CallGraph → Prop where
  | empty : Built empty
  | add {g : CallGraph} (prior : Built g) (c : Call) : Built (g.add c)
  | merge {g other : CallGraph} (prior : Built g) (added : Built other) : Built (g.merge other)
  | filter {g : CallGraph} (prior : Built g) (p : MethodSignature → Bool) : Built (g.filter p)

/-- Adding a list of calls is adding them one by one. -/
theorem Built.addAll {g : CallGraph} (h : Built g) (calls : List Call) :
    Built (g.addAll calls) := by
  induction calls generalizing g with
  | nil => exact h
  | cons c rest ih => exact ih (h.add c)

/-- Index, methods and edges of a graph agree: the index inverts the
positions of methods, and the ends of an edge are the positions of the
methods that its call names. -/
structure Indexed (g : CallGraph) : Prop where
  index : ∀ (s : MethodSignature) (i : Nat), g.index[s]? = some i ↔ g.methods[i]? = some s
  source : ∀ e ∈ g.edges, g.methods[e.source]? = some e.call.callerSignature
  target : ∀ e ∈ g.edges, g.methods[e.target]? = some e.call.targetSignature

variable {g : CallGraph}

theorem indexed_empty : empty.Indexed where
  index s i := by simp [empty]
  source e he := by simp [empty] at he
  target e he := by simp [empty] at he

/-- No method has two positions, as the index can give only one. -/
theorem Indexed.position_inj (h : g.Indexed) {i j : Nat} {s : MethodSignature}
    (hi : g.methods[i]? = some s) (hj : g.methods[j]? = some s) : i = j := by
  rw [← h.index] at hi hj
  exact Option.some.inj (hi.symm.trans hj)

theorem Indexed.nodup (h : g.Indexed) : g.methods.toList.Nodup := by
  rw [List.nodup_iff_getElem?_ne_getElem?]
  intro i j hLt hBound hSame
  rw [List.getElem?_eq_getElem hBound, Array.getElem?_toList] at hSame
  have hj : g.methods[j]? = some (g.methods.toList[j]) := by
    rw [← Array.getElem?_toList, List.getElem?_eq_getElem hBound]
  exact Nat.ne_of_lt hLt (h.position_inj hSame hj)

/-- A method that is asked for stands at the position that is given, and the
others stay. -/
theorem Indexed.intern (h : g.Indexed) (s : MethodSignature) :
    (g.intern s).2.Indexed ∧ (g.intern s).2.methods[(g.intern s).1]? = some s ∧
      ∀ (i : Nat) other, g.methods[i]? = some other →
        (g.intern s).2.methods[i]? = some other := by
  unfold CallGraph.intern
  split
  · next i hFind => exact ⟨h, (h.index s i).mp hFind, fun _ _ hOther => hOther⟩
  · next hFind =>
      have hKept (i : Nat) (other : MethodSignature) (hOther : g.methods[i]? = some other) :
          (g.methods.push s)[i]? = some other := by
        obtain ⟨hBound, -⟩ := Array.getElem?_eq_some_iff.mp hOther
        rw [Array.getElem?_push, if_neg (Nat.ne_of_lt hBound), hOther]
      have hUnknown (i : Nat) : g.methods[i]? ≠ some s := by
        intro hHeld
        rw [find?, (h.index s i).mpr hHeld] at hFind
        cases hFind
      refine ⟨⟨?_, ?_, ?_⟩, Array.getElem?_push_size, hKept⟩
      · intro other i
        rw [Std.HashMap.getElem?_insert, Array.getElem?_push]
        by_cases hLast : i = g.methods.size
        · have hNone : g.index[other]? ≠ some i := by
            rw [ne_eq, h.index, hLast, Array.getElem?_size]
            exact nofun
          simp only [hLast, if_true, Option.some_inj]
          split
          · next hSame => simpa using hSame
          · next hOther =>
              rw [← hLast]
              exact iff_of_false hNone (by simpa using hOther)
        · rw [if_neg hLast]
          split
          · next hSame =>
              obtain rfl : s = other := beq_iff_eq.mp hSame
              exact iff_of_false (fun hFirst => hLast (Option.some.inj hFirst).symm) (hUnknown i)
          · exact h.index other i
      · intro e he
        exact hKept _ _ (h.source e he)
      · intro e he
        exact hKept _ _ (h.target e he)

/-- Adding a call preserves the agreement. Both of its methods are looked up
first, so that the edge gets the positions that they have in the end. -/
theorem Indexed.add (h : g.Indexed) (c : Call) : (g.add c).Indexed := by
  obtain ⟨hCaller, hSource, -⟩ := h.intern c.callerSignature
  obtain ⟨hBoth, hTarget, hKept⟩ := hCaller.intern c.targetSignature
  refine ⟨hBoth.index, ?_, ?_⟩
  · intro e he
    rcases Array.mem_push.mp he with hOld | rfl
    · exact hBoth.source e hOld
    · exact hKept _ _ hSource
  · intro e he
    rcases Array.mem_push.mp he with hOld | rfl
    · exact hBoth.target e hOld
    · exact hTarget

theorem Indexed.addAll (h : g.Indexed) (calls : List Call) : (g.addAll calls).Indexed := by
  induction calls generalizing g with
  | nil => exact h
  | cons c rest ih => exact ih (h.add c)

/-- An index made from distinct methods finds their positions. A method that
was there twice would be found where it is last. -/
theorem getElem?_ofList_zipIdx {methods : List MethodSignature} (hDistinct : methods.Nodup)
    (s : MethodSignature) (i : Nat) :
    (Std.HashMap.ofList methods.zipIdx)[s]? = some i ↔ methods[i]? = some s := by
  have hKeys : methods.zipIdx.Pairwise fun a b => (a.1 == b.1) = false := by
    have hFirsts : (methods.zipIdx.map Prod.fst).Nodup := by
      rw [List.zipIdx_map_fst]
      exact hDistinct
    rw [List.Nodup, List.pairwise_map] at hFirsts
    exact hFirsts.imp fun hNe => beq_eq_false_iff_ne.mpr hNe
  have hHeld {i : Nat} (hAt : methods[i]? = some s) :
      (Std.HashMap.ofList methods.zipIdx)[s]? = some i :=
    Std.HashMap.getElem?_ofList_of_mem (beq_self_eq_true s) hKeys
      (List.mk_mem_zipIdx_iff_getElem?.mpr hAt)
  constructor
  · intro hIndexed
    by_cases hMem : s ∈ methods
    · obtain ⟨j, hAt⟩ := List.mem_iff_getElem?.mp hMem
      obtain rfl : j = i := Option.some.inj ((hHeld hAt).symm.trans hIndexed)
      exact hAt
    · have hAbsent : (methods.zipIdx.map Prod.fst).contains s = false := by
        rw [List.zipIdx_map_fst]
        simpa using hMem
      rw [Std.HashMap.getElem?_ofList_of_contains_eq_false hAbsent] at hIndexed
      cases hIndexed
  · exact hHeld

/-- Keeping some positions preserves the agreement. Methods get new numbers,
and the edges that stay are renumbered with them. -/
theorem Indexed.restrict (h : g.Indexed) (kept : List Nat) : (g.restrict kept).Indexed := by
  have hMethods (k : Nat) : (g.restrict kept).methods[k]? =
      (g.positions.filter kept.contains)[k]?.bind fun i => g.methods[i]? := by
    show ((g.positions.filter kept.contains).filterMap fun i => g.methods[i]?).toArray[k]? = _
    rw [List.getElem?_toArray]
    apply getElem?_filterMap
    intro i hi
    have hBound := List.mem_range.mp (List.mem_filter.mp hi).1
    rw [Array.getElem?_eq_getElem hBound]
    rfl
  have hDistinct : ((g.positions.filter kept.contains).filterMap
      fun i => g.methods[i]?).Nodup := by
    apply List.Nodup.filterMap
    · intro i j s hi hj
      exact h.position_inj hi hj
    · exact List.nodup_range.filter _
  have hEdge (e : CallEdge) (he : e ∈ (g.restrict kept).edges) :
      ∃ old ∈ g.edges, (g.positions.filter kept.contains)[e.source]? = some old.source ∧
        (g.positions.filter kept.contains)[e.target]? = some old.target ∧ e.call = old.call := by
    obtain ⟨old, hOld, hRenumbered⟩ := List.mem_filterMap.mp (List.mem_toArray.mp he)
    exact ⟨old, Array.mem_toList_iff.mp hOld, CallEdge.of_renumber? hRenumbered⟩
  constructor
  · intro s i
    rw [← Array.getElem?_toList]
    exact getElem?_ofList_zipIdx hDistinct s i
  · intro e he
    obtain ⟨old, hOld, hSource, -, hCall⟩ := hEdge e he
    rw [hMethods, hSource, hCall]
    exact h.source old hOld
  · intro e he
    obtain ⟨old, hOld, -, hTarget, hCall⟩ := hEdge e he
    rw [hMethods, hTarget, hCall]
    exact h.target old hOld

/-- All graphs that can be made agree with themselves, by one step lemma for
each way to make them. -/
theorem Built.indexed (h : Built g) : g.Indexed := by
  induction h with
  | empty => exact indexed_empty
  | add prior c ih => exact ih.add c
  | merge prior added ih _ => exact ih.addAll _
  | filter prior p ih => exact ih.restrict _

/-- The calls with a method at one end are those that name it there. Edges
are looked up by position, which is the same as looking calls up by
method. -/
theorem callsAt_eq_filter {side : CallEdge → Nat} {signature : Call → MethodSignature}
    (h : g.Indexed) (hSide : ∀ e ∈ g.edges, g.methods[side e]? = some (signature e.call))
    (s : MethodSignature) : g.callsAt side s = g.calls.filter fun c => signature c == s := by
  have hEnd (e : CallEdge) (he : e ∈ g.edges.toList) :
      g.find? s = some (side e) ↔ signature e.call = s := by
    rw [find?, h.index, hSide e (Array.mem_toList_iff.mp he), Option.some_inj]
  unfold callsAt calls
  rw [List.filter_map]
  cases hFind : g.find? s with
  | none =>
      symm
      rw [List.map_eq_nil_iff, List.filter_eq_nil_iff]
      intro e he hSame
      rw [(hEnd e he).mpr (beq_iff_eq.mp hSame)] at hFind
      cases hFind
  | some i =>
      refine congrArg (List.map CallEdge.call) (List.filter_congr ?_)
      intro e he
      rw [Bool.eq_iff_iff, beq_iff_eq, Function.comp_apply, beq_iff_eq, ← hEnd e he, hFind,
        Option.some_inj, eq_comm]

/-- Sorting calls by distinct keys neither loses nor repeats those that have
one of them. -/
theorem flatMap_filter_perm (signature : Call → MethodSignature) (l : List Call)
    {keys : List MethodSignature} (hKeys : keys.Nodup) :
    (keys.flatMap fun s => l.filter fun c => signature c == s).Perm
      (l.filter fun c => decide (signature c ∈ keys)) := by
  induction keys with
  | nil => simp
  | cons s rest ih =>
      obtain ⟨hNew, hRest⟩ := List.nodup_cons.mp hKeys
      have hFirst : ((l.filter fun c => decide (signature c ∈ s :: rest)).filter
          fun c => signature c == s) = l.filter fun c => signature c == s := by
        rw [List.filter_filter]
        apply List.filter_congr
        intro c _
        by_cases hSame : signature c = s <;> simp [hSame]
      have hOthers : ((l.filter fun c => decide (signature c ∈ s :: rest)).filter
          fun c => !(signature c == s)) = l.filter fun c => decide (signature c ∈ rest) := by
        rw [List.filter_filter]
        apply List.filter_congr
        intro c _
        by_cases hSame : signature c = s
        · simp [hSame, hNew]
        · simp [hSame]
      have hSplit := List.filter_append_perm (fun c => signature c == s)
        (l.filter fun c => decide (signature c ∈ s :: rest))
      rw [hFirst, hOthers] at hSplit
      rw [List.flatMap_cons]
      exact ((ih hRest).append_left _).trans hSplit

/-- Method by method, the calls at one end are all calls, each of them
once. -/
theorem flatMap_callsAt_perm {side : CallEdge → Nat} {signature : Call → MethodSignature}
    (h : g.Indexed) (hSide : ∀ e ∈ g.edges, g.methods[side e]? = some (signature e.call)) :
    (g.methods.toList.flatMap (g.callsAt side)).Perm g.calls := by
  have hAll : (g.calls.filter fun c => decide (signature c ∈ g.methods.toList)) = g.calls := by
    apply List.filter_eq_self.mpr
    intro c hc
    obtain ⟨e, he, rfl⟩ := List.mem_map.mp hc
    have hHeld := hSide e (Array.mem_toList_iff.mp he)
    exact decide_eq_true (Array.mem_toList_iff.mpr (Array.mem_of_getElem? hHeld))
  rw [funext (callsAt_eq_filter h hSide)]
  exact (flatMap_filter_perm signature g.calls h.nodup).trans (.of_eq hAll)

/-- The calls that are kept stand in the order that they had. -/
theorem calls_restrict (g : CallGraph) (kept : List Nat) :
    (g.restrict kept).calls = (g.edges.toList.filter fun e =>
      (g.positions.filter kept.contains).contains e.source &&
        (g.positions.filter kept.contains).contains e.target).map CallEdge.call := by
  rw [← List.filterMap_eq_map, List.filterMap_filter]
  show ((g.edges.toList.filterMap _).toArray.toList.map CallEdge.call) = _
  rw [List.toList_toArray, List.map_filterMap]
  exact List.filterMap_congr fun e _ => CallEdge.map_call_renumber? _ e

/-- Keeping some positions makes no call up and puts none in another
place. -/
theorem calls_restrict_sublist (g : CallGraph) (kept : List Nat) :
    (g.restrict kept).calls.Sublist g.calls := by
  rw [calls_restrict, calls]
  exact List.filter_sublist.map CallEdge.call

/-- In every graph that can be made, methods are distinct, the index is the
inverse of their positions, and calls run between the positions of the
methods that they name. So the calls from or to a method are exactly the
calls that name it, in the order of their addition, and every call is found
at one caller and at one target. Adding and merging put calls behind those
that are there, and filtering keeps their order. -/
theorem built_represents {g : CallGraph} (h : Built g) :
    g.methods.toList.Nodup ∧
    (∀ (s : MethodSignature) (i : Nat), g.index[s]? = some i ↔ g.methods[i]? = some s) ∧
    (∀ e ∈ g.edges, g.index[e.call.callerSignature]? = some e.source ∧
      g.index[e.call.targetSignature]? = some e.target) ∧
    (∀ s, g.callsFrom s = g.calls.filter (fun c => c.callerSignature == s) ∧
      g.callsTo s = g.calls.filter (fun c => c.targetSignature == s)) ∧
    (g.methods.toList.flatMap g.callsFrom).Perm g.calls ∧
    (g.methods.toList.flatMap g.callsTo).Perm g.calls ∧
    (∀ c, (g.add c).calls = g.calls ++ [c]) ∧
    (∀ other, (g.merge other).calls = g.calls ++ other.calls) ∧
    ∀ p, (g.filter p).calls.Sublist g.calls := by
  have hIndexed := h.indexed
  refine ⟨hIndexed.nodup, hIndexed.index, ?_, ?_, flatMap_callsAt_perm hIndexed hIndexed.source,
    flatMap_callsAt_perm hIndexed hIndexed.target, calls_add g, calls_merge g,
    fun p => calls_restrict_sublist g _⟩
  · intro e he
    exact ⟨(hIndexed.index _ _).mpr (hIndexed.source e he),
      (hIndexed.index _ _).mpr (hIndexed.target e he)⟩
  · intro s
    exact ⟨callsAt_eq_filter hIndexed hIndexed.source s,
      callsAt_eq_filter hIndexed hIndexed.target s⟩

/-- A call without any facts about it. -/
def plainCall (source target : MethodSignature) (a : Address) : Call where
  caller := ⟨source, a, none⟩
  target := .symbolic target
  instr := .invokeStatic 1
  nullness := .never

@[simp] theorem callerSignature_plainCall (source target : MethodSignature) (a : Address) :
    (plainCall source target a).callerSignature = source :=
  rfl

@[simp] theorem targetSignature_plainCall (source target : MethodSignature) (a : Address) :
    (plainCall source target a).targetSignature = target :=
  rfl

/-- Two methods that call each other, merged with a call of the first to
itself. -/
def mutualCalls (s t : MethodSignature) : CallGraph :=
  ((empty.add (plainCall s t ⟨0⟩)).add (plainCall t s ⟨0⟩)).merge (empty.add (plainCall s s ⟨3⟩))

theorem mutualCalls_represented :
    Built (mutualCalls (.of "t/A" "f" "()V") (.of "t/B" "f" "()V")) ∧
      (mutualCalls (.of "t/A" "f" "()V") (.of "t/B" "f" "()V")).callsFrom (.of "t/A" "f" "()V") =
        [plainCall (.of "t/A" "f" "()V") (.of "t/B" "f" "()V") ⟨0⟩,
          plainCall (.of "t/A" "f" "()V") (.of "t/A" "f" "()V") ⟨3⟩] := by
  have hBuilt : Built (mutualCalls (.of "t/A" "f" "()V") (.of "t/B" "f" "()V")) :=
    .merge (.add (.add .empty _) _) (.add .empty _)
  obtain ⟨-, -, -, hCalls, -⟩ := built_represents hBuilt
  refine ⟨hBuilt, (hCalls _).1.trans ?_⟩
  rw [mutualCalls, calls_merge, calls_add, calls_add, calls_add]
  rfl

end CallGraph

end JvmCalls
