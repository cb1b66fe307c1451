import JvmCalls.Proofs.Assembly.Labels

/-! When code cannot be finished. Finishing asks of labels that they are
placed, and of branches that they are near their labels. The demands have a
fixed order, in which the instructions come before the protected ranges, and
the first one that is not met is reported. -/
namespace JvmCalls

/-- What finishing asks of a label: to be placed, or to be near a branch at
an address. -/
inductive Demand where
  | placed (l : Label)
  | near (source : Address) (l : Label)
deriving DecidableEq, Repr

namespace Demand

/-- What is reported where the demand is not met. -/
def error : Demand → ClassFileError
  | placed l => .undefinedLabel l
  | near source _ => .branchOutOfRange source

/-- The demand is met if labels have these places. -/
def Met (place : Label → Address → Prop) : Demand → Prop
  | placed l => ∃ a, place l a
  | near source l => ∀ a, place l a →
    -32768 ≤ (a.offset : Int) - source.offset ∧ (a.offset : Int) - source.offset ≤ 32767

/-- The error is that of the first demand that is not met. What comes behind
it has no part in the result, as nothing is tried any more. -/
inductive FirstUnmet (met : Demand → Prop) : List Demand → ClassFileError → Prop where
  | here {d : Demand} {rest : List Demand} (unmet : ¬ met d) : FirstUnmet met (d :: rest) d.error
  | later {d : Demand} {rest : List Demand} {e : ClassFileError} (first : met d)
      (tail : FirstUnmet met rest e) : FirstUnmet met (d :: rest) e

variable {met : Demand → Prop} {ds ds' : List Demand} {e : ClassFileError}

/-- The first demand is reported if it is not met, and otherwise the rest
decides. -/
theorem firstUnmet_cons {d : Demand} :
    FirstUnmet met (d :: ds) e ↔ ¬ met d ∧ e = d.error ∨ met d ∧ FirstUnmet met ds e := by
  constructor
  · intro h
    cases h with
    | here unmet => exact .inl ⟨unmet, rfl⟩
    | later first tail => exact .inr ⟨first, tail⟩
  · rintro (⟨unmet, rfl⟩ | ⟨first, tail⟩)
    · exact .here unmet
    · exact .later first tail

/-- A later list of demands is looked at only if all demands of the first
list are met. -/
theorem firstUnmet_append : FirstUnmet met (ds ++ ds') e ↔
    FirstUnmet met ds e ∨ (∀ d ∈ ds, met d) ∧ FirstUnmet met ds' e := by
  induction ds with
  | nil =>
      have hNil : ¬ FirstUnmet met [] e := nofun
      simp [hNil]
  | cons d ds ih =>
      rw [List.cons_append, firstUnmet_cons, firstUnmet_cons, ih, List.forall_mem_cons]
      tauto

/-- Where not all demands are met, there is a first one that is not. So
every failure can be traced to one demand. -/
theorem exists_firstUnmet_iff : (∃ e, FirstUnmet met ds e) ↔ ¬ ∀ d ∈ ds, met d := by
  induction ds with
  | nil =>
      refine iff_of_false ?_ (by simp)
      rintro ⟨e, hUnmet⟩
      cases hUnmet
  | cons d ds ih =>
      simp only [firstUnmet_cons, List.forall_mem_cons, not_and_or, ← ih]
      constructor
      · rintro ⟨e, ⟨unmet, -⟩ | ⟨-, tail⟩⟩
        · exact .inl unmet
        · exact .inr ⟨e, tail⟩
      · rintro (unmet | ⟨e, tail⟩)
        · exact ⟨_, .inl ⟨unmet, rfl⟩⟩
        · by_cases first : met d
          · exact ⟨e, .inr ⟨first, tail⟩⟩
          · exact ⟨_, .inl ⟨first, rfl⟩⟩

variable {α β : Type}

/-- The computation fails just if a demand is not met, and then with the
error of the first. So it tells both when the computation succeeds and what
it reports. -/
def Settles (met : Demand → Prop) (ds : List Demand) (x : Except ClassFileError α) : Prop :=
  ∀ e, x = .error e ↔ FirstUnmet met ds e

namespace Settles

/-- The computation succeeds just if all demands are met. -/
theorem ok_iff {x : Except ClassFileError α} (h : Settles met ds x) :
    (∃ a, x = .ok a) ↔ ∀ d ∈ ds, met d := by
  rw [← not_iff_not, ← exists_firstUnmet_iff, exists_congr fun e => (h e).symm]
  cases x with
  | ok a => simp
  | error e => simp

theorem pure (a : α) : Settles met [] (Pure.pure a : Except ClassFileError α) := by
  intro e
  exact iff_of_false nofun nofun

/-- One check settles one demand. -/
theorem single {d : Demand} {x : Except ClassFileError α}
    (h : ∀ e, x = .error e ↔ ¬ met d ∧ e = d.error) : Settles met [d] x := by
  intro e
  have hNil : ¬ FirstUnmet met [] e := nofun
  rw [h, firstUnmet_cons, or_iff_left (fun hLater => hNil hLater.2)]

/-- The demands of the second part count once those of the first are met.
This is how the demands of the parts of a build become those of the
build. -/
theorem bind {x : Except ClassFileError α} {f : α → Except ClassFileError β}
    (hFirst : Settles met ds x) (hNext : ∀ a, x = .ok a → Settles met ds' (f a)) :
    Settles met (ds ++ ds') (x >>= f) := by
  intro e
  rw [firstUnmet_append, ← hFirst e, ← hFirst.ok_iff]
  cases x with
  | error cause => simp [Bind.bind, Except.bind]
  | ok a =>
      rw [← hNext a rfl e]
      simp [Bind.bind, Except.bind]

/-- What is done with a result afterwards cannot fail and asks for
nothing. -/
theorem map {x : Except ClassFileError α} (h : Settles met ds x) (f : α → β) :
    Settles met ds (do return f (← x)) := by
  rw [← List.append_nil ds]
  exact h.bind fun a _ => pure (f a)

/-- A list is worked off from its front, so that its demands come in its
order. -/
theorem mapM {l : List α} {f : α → Except ClassFileError β} {demands : α → List Demand}
    (h : ∀ a ∈ l, Settles met (demands a) (f a)) :
    Settles met (l.flatMap demands) (l.mapM f) := by
  induction l with
  | nil => exact pure []
  | cons a rest ih =>
      rw [List.flatMap_cons, List.mapM_cons]
      obtain ⟨hFirst, hRest⟩ := List.forall_mem_cons.mp h
      exact hFirst.bind fun b _ => (ih hRest).map (b :: ·)

end Settles

end Demand

namespace Pending

/-- The labels of an instruction, in the order in which they are
resolved. -/
def labels : Pending → List Label
  | ready _ => []
  | branch _ _ target => [target]
  | goto target => [target]
  | tableSwitch _ targets default => default :: targets
  | lookupSwitch pairs default => default :: pairs.map Prod.snd

/-- The label that an instruction must be near, as it has 16 bits for the
distance. -/
def shortTarget? : Pending → Option Label
  | branch _ _ target => some target
  | goto target => some target
  | _ => none

/-- What an instruction at `source` asks of labels. It must be near its
label only after the label has a place. -/
def demands (p : Pending) (source : Address) : List Demand :=
  p.labels.map .placed ++ (p.shortTarget?.map (Demand.near source)).toList

end Pending

/-- The labels of a protected range, in the order in which they are
resolved. -/
def ProtectedRange.labels (r : ProtectedRange) : List Label := [r.start, r.stop, r.handler]

def ProtectedRange.demands (r : ProtectedRange) : List Demand := r.labels.map .placed

namespace CodeBuilder

/-- The demand is met by the labels of the builder, which are those placed
so far. -/
def Meets (b : CodeBuilder) : Demand → Prop := Demand.Met fun l a => b.resolve l = .ok a

variable {b : CodeBuilder} {source : Address}

/-- Resolving a label asks that the label has a place. -/
theorem resolve_settles (l : Label) : Demand.Settles b.Meets [.placed l] (b.resolve l) := by
  apply Demand.Settles.single
  intro e
  show b.resolve l = .error e ↔ ¬ (∃ a, b.resolve l = .ok a) ∧ e = .undefinedLabel l
  unfold resolve
  split
  · simp
  · simp [eq_comm]

/-- An offset of 32 bits asks for no more than the place of the label. -/
theorem offset_settles (l : Label) : Demand.Settles b.Meets [.placed l] (b.offset source l) :=
  (resolve_settles l).map _

section Finish

variable (hSource : source.offset < Address.signedLimit)
  (hLabels : ∀ l a, b.resolve l = .ok a → a.offset < Address.signedLimit)

include hSource hLabels

/-- An offset of 16 bits asks for a near label too, once the label has a
place. -/
theorem shortOffset_settles (l : Label) :
    Demand.Settles b.Meets [.placed l, .near source l] (b.shortOffset source l) := by
  apply Demand.Settles.bind (offset_settles l)
  intro distance hDistance
  obtain ⟨target, hTarget, rfl⟩ := offset_eq_ok_iff.mp hDistance
  -- Between addresses below the limit the distance does not wrap, so its test is the demand.
  have hNear : b.Meets (.near source l) ↔
      -32768 ≤ (source.distanceTo target).toInt ∧ (source.distanceTo target).toInt ≤ 32767 := by
    rw [Address.toInt_distanceTo hSource (hLabels l target hTarget), Meets, Demand.Met]
    simp only [hTarget, Except.ok.injEq, forall_eq']
  apply Demand.Settles.single
  intro e
  rw [hNear]
  split
  · next hFits => simp [hFits, pure, Except.pure]
  · next hFar => simp [hFar, throw, throwThe, MonadExceptOf.throw, Demand.error, eq_comm]

/-- Each instruction asks for its labels in the order in which they are
resolved. A switch starts with its default. -/
theorem finish_settles (p : Pending) :
    Demand.Settles b.Meets (p.demands source) (b.finish source p) := by
  cases p with
  | ready instr => exact .pure instr
  | branch comparison operand target => exact (shortOffset_settles hSource hLabels target).map _
  | goto target => exact (shortOffset_settles hSource hLabels target).map _
  | tableSwitch low targets default =>
      have hDemands : (Pending.tableSwitch low targets default).demands source =
          [.placed default] ++ targets.flatMap fun l => [.placed l] := by
        simp [Pending.demands, Pending.labels, Pending.shortTarget?, List.map_eq_flatMap]
      rw [hDemands]
      apply (offset_settles default).bind
      intro distance _
      exact (Demand.Settles.mapM fun l _ => offset_settles l).map _
  | lookupSwitch pairs default =>
      have hDemands : (Pending.lookupSwitch pairs default).demands source =
          [.placed default] ++ pairs.flatMap fun pair => [.placed pair.2] := by
        simp [Pending.demands, Pending.labels, Pending.shortTarget?, List.map_eq_flatMap,
          List.flatMap_assoc]
      rw [hDemands]
      apply (offset_settles default).bind
      intro distance _
      exact (Demand.Settles.mapM fun pair _ => (offset_settles pair.2).map _).map _

end Finish

/-- A protected range asks for its start, its end and its handler, in this
order. -/
theorem finishRange_settles (r : ProtectedRange) :
    Demand.Settles b.Meets r.demands (b.finishRange r) := by
  apply (resolve_settles r.start).bind
  intro start _
  apply (resolve_settles r.stop).bind
  intro stop _
  exact (resolve_settles r.handler).map _

/-- Instructions are finished before ranges, both in the order of their
requests. -/
theorem build_settles
    (hPending : ∀ entry ∈ b.pending.toList, entry.1.offset < Address.signedLimit)
    (hLabels : ∀ l a, b.resolve l = .ok a → a.offset < Address.signedLimit) :
    Demand.Settles b.Meets (b.pending.toList.flatMap (fun entry => entry.2.demands entry.1) ++
      b.ranges.toList.flatMap ProtectedRange.demands) b.build := by
  apply Demand.Settles.bind
  · apply Demand.Settles.mapM
    intro entry hEntry
    exact (finish_settles (hPending entry hEntry) hLabels entry.2).map _
  · intro instrs _
    exact (Demand.Settles.mapM fun r _ => finishRange_settles r).map _

end CodeBuilder

/-- What a request asks of labels if the builder is at an address. -/
def CodeOp.demands (op : CodeOp) (source : Address) : List Demand :=
  op.branching?.toList.flatMap fun p => p.demands source

/-- A request demands what its emission does. An instruction that is ready
has no demands. -/
theorem CodeOp.demands_emission? (op : CodeOp) (pool : ConstantPool) (source : Address) :
    (op.emission? pool).toList.flatMap (fun p => p.demands source) = op.demands source := by
  have hEmission := op.emission?_emission pool
  generalize op.emission? pool = emission? at hEmission ⊢
  cases hEmission with
  | nothing unlabelled => rw [demands, unlabelled]
  | branching labelled size => rw [demands, labelled]
  | ready unlabelled size =>
      rw [demands, unlabelled]
      rfl

namespace CodeBuilder

variable {b : CodeBuilder}

/-- What the instructions of some requests ask of labels, in order. -/
def demandsFrom (b : CodeBuilder) : List CodeOp → List Demand
  | [] => []
  | op :: rest => op.demands b.next ++ demandsFrom (step op b).2 rest

/-- The demands of emitted instructions are those of their requests, in
order. -/
theorem demands_emissions (b : CodeBuilder) (ops : List CodeOp) :
    (b.emissions ops).flatMap (fun entry => entry.2.demands entry.1) = b.demandsFrom ops := by
  induction ops generalizing b with
  | nil => rfl
  | cons op rest ih =>
      rw [emissions, List.flatMap_append, List.flatMap_map, CodeOp.demands_emission?, ih,
        demandsFrom]

/-- A demand belongs to one request, and is about the address where the
builder was then. -/
theorem mem_demandsFrom {ops : List CodeOp} {d : Demand} : d ∈ b.demandsFrom ops ↔
    ∃ before op after, ops = before ++ op :: after ∧ d ∈ op.demands (b.run before).next := by
  induction ops generalizing b with
  | nil => simp [demandsFrom]
  | cons first rest ih =>
      rw [demandsFrom, List.mem_append, ih]
      constructor
      · rintro (hFirst | ⟨before, op, after, rfl, hLater⟩)
        · exact ⟨[], first, rest, rfl, hFirst⟩
        · exact ⟨first :: before, op, after, rfl, hLater⟩
      · rintro ⟨before, op, after, hOps, hDemand⟩
        cases before with
        | nil =>
            cases hOps
            exact .inl hDemand
        | cons _ before =>
            cases hOps
            exact .inr ⟨before, op, after, rfl, hDemand⟩

/-- What some requests ask of labels: first their instructions, then their
ranges. -/
def demands (b : CodeBuilder) (ops : List CodeOp) : List Demand :=
  b.demandsFrom ops ++ (ops.filterMap CodeOp.range?).flatMap ProtectedRange.demands

end CodeBuilder

namespace CodeOp

/-- The labels that a request uses. -/
def labels (op : CodeOp) : List Label :=
  op.branching?.toList.flatMap Pending.labels ++ op.range?.toList.flatMap ProtectedRange.labels

/-- The label that the instruction of a request must be near. -/
def shortTarget? (op : CodeOp) : Option Label := op.branching?.bind Pending.shortTarget?

/-- A request demands that its labels are placed, and that a branch is near
its label. -/
theorem mem_demands {op : CodeOp} {source : Address} {d : Demand} :
    d ∈ op.demands source ↔ (∃ l ∈ op.branching?.toList.flatMap Pending.labels, d = .placed l) ∨
      ∃ l, op.shortTarget? = some l ∧ d = .near source l := by
  cases hOp : op.branching? with
  | none => simp [demands, shortTarget?, hOp]
  | some p =>
      cases hTarget : p.shortTarget? with
      | none => simp [demands, shortTarget?, hOp, Pending.demands, hTarget, eq_comm]
      | some l => simp [demands, shortTarget?, hOp, Pending.demands, hTarget, eq_comm]

end CodeOp

namespace CodeBuilder

variable {b : CodeBuilder} {ops : List CodeOp}

/-- Of all demands of some requests, those for places name a label that is
used, and those for nearness the address of the branch. -/
theorem mem_demands {d : Demand} : d ∈ b.demands ops ↔
    (∃ op ∈ ops, ∃ l ∈ op.labels, d = .placed l) ∨
      ∃ before op after l, ops = before ++ op :: after ∧ op.shortTarget? = some l ∧
        d = .near (b.run before).next l := by
  rw [demands, List.mem_append, mem_demandsFrom]
  constructor
  · rintro (⟨before, op, after, hOps, hDemand⟩ | hRange)
    · rcases CodeOp.mem_demands.mp hDemand with ⟨l, hl, rfl⟩ | ⟨l, hTarget, rfl⟩
      · have hOp : op ∈ ops := hOps ▸ List.mem_append_cons_self
        exact .inl ⟨op, hOp, l, List.mem_append_left _ hl, rfl⟩
      · exact .inr ⟨before, op, after, l, hOps, hTarget, rfl⟩
    · obtain ⟨range, hFound, hLabel⟩ := List.mem_flatMap.mp hRange
      obtain ⟨op, hOp, hSome⟩ := List.mem_filterMap.mp hFound
      obtain ⟨l, hl, rfl⟩ := List.mem_map.mp hLabel
      refine .inl ⟨op, hOp, l, List.mem_append_right _ ?_, rfl⟩
      exact List.mem_flatMap.mpr ⟨range, Option.mem_toList.mpr hSome, hl⟩
  · rintro (⟨op, hOp, l, hl, rfl⟩ | ⟨before, op, after, l, hOps, hTarget, rfl⟩)
    · rcases List.mem_append.mp hl with hBranching | hRange
      · obtain ⟨before, after, hOps⟩ := List.append_of_mem hOp
        exact .inl ⟨before, op, after, hOps, CodeOp.mem_demands.mpr (.inl ⟨l, hBranching, rfl⟩)⟩
      · obtain ⟨range, hFound, hLabel⟩ := List.mem_flatMap.mp hRange
        have hSome : range ∈ ops.filterMap CodeOp.range? :=
          List.mem_filterMap.mpr ⟨op, hOp, Option.mem_toList.mp hFound⟩
        exact .inr (List.mem_flatMap.mpr ⟨range, hSome, List.mem_map_of_mem hLabel⟩)
    · exact .inl ⟨before, op, after, hOps, CodeOp.mem_demands.mpr (.inr ⟨l, hTarget, rfl⟩)⟩

/-- All demands are met just if all labels that are used have a place, and
those of branches a near one. -/
theorem forall_demands_iff {place : Label → Address → Prop} :
    (∀ d ∈ b.demands ops, d.Met place) ↔
      (∀ op ∈ ops, ∀ l ∈ op.labels, ∃ a, place l a) ∧
      ∀ before op after l a, ops = before ++ op :: after → op.shortTarget? = some l → place l a →
        -32768 ≤ (a.offset : Int) - (b.run before).next.offset ∧
          (a.offset : Int) - (b.run before).next.offset ≤ 32767 := by
  constructor
  · intro hMet
    constructor
    · intro op hOp l hl
      exact hMet (.placed l) (mem_demands.mpr (.inl ⟨op, hOp, l, hl, rfl⟩))
    · intro before op after l a hOps hTarget
      exact hMet (.near _ l) (mem_demands.mpr (.inr ⟨before, op, after, l, hOps, hTarget, rfl⟩)) a
  · rintro ⟨hPlaced, hNear⟩ d hd
    rcases mem_demands.mp hd with ⟨op, hOp, l, hl, rfl⟩ | ⟨before, op, after, l, hOps, hTarget, rfl⟩
    · exact hPlaced op hOp l hl
    · exact fun a => hNear before op after l a hOps hTarget

/-- Finishing the code of some requests settles their demands, as long as no
distance wraps. -/
theorem build_run_settles {pool : ConstantPool}
    (hLength : (run { pool } ops).next.offset < Address.signedLimit) :
    Demand.Settles (Demand.Met (PlacedAt { pool } ops)) (demands { pool } ops)
      (run { pool } ops).build := by
  -- No address in use is behind the builder.
  have hPending : ∀ entry ∈ (run { pool } ops).pending.toList,
      entry.1.offset < Address.signedLimit := by
    intro entry hEntry
    rw [pending_run_new] at hEntry
    exact Nat.lt_of_le_of_lt ((run_contiguous { pool } ops).first_le hEntry) hLength
  have hLabels : ∀ l a, (run { pool } ops).resolve l = .ok a → a.offset < Address.signedLimit := by
    intro l a hResolved
    exact Nat.lt_of_le_of_lt (placedAt_le (resolve_run_new.mp hResolved)) hLength
  have hSettles := build_settles hPending hLabels
  have hPlaces : (fun l a => (run { pool } ops).resolve l = .ok a) = PlacedAt { pool } ops := by
    funext l a
    exact propext resolve_run_new
  rw [Meets, hPlaces, pending_run_new, demands_emissions, run_ranges] at hSettles
  exact hSettles

/-- Only creating a label adds one. Placing a label keeps their number,
whether it succeeds or not. -/
theorem size_labels_step (b : CodeBuilder) (op : CodeOp) :
    (step op b).2.labels.size = b.labels.size + [op].count .newLabel := by
  by_cases hNew : op = .newLabel
  · subst hNew
    exact Array.size_push none
  · rw [List.count_singleton, if_neg (mt beq_iff_eq.mp hNew)]
    by_cases hPlace : ∃ l, op = .placeLabel l
    · obtain ⟨l, rfl⟩ := hPlace
      simp only [step, placeLabel]
      split
      · exact Array.size_setIfInBounds
      · rfl
    · rw [(step_performs b op).labels hNew (not_exists.mp hPlace)]
      rfl

/-- Labels are numbered in the order of their creation. So a label exists
just if enough of them were created before. -/
theorem size_labels_run (b : CodeBuilder) (ops : List CodeOp) :
    (b.run ops).labels.size = b.labels.size + ops.count .newLabel := by
  induction ops generalizing b with
  | nil => rfl
  | cons op rest ih =>
      rw [run_cons, ih, size_labels_step, Nat.add_assoc, ← List.count_append, List.singleton_append]

/-- A label is placed if it is free. If it is not, nothing happens but the
error. -/
theorem placeLabel_cases (b : CodeBuilder) (l : Label) :
    b.labels[l.number]? = some none ∧ (placeLabel l b).1 = .ok () ∨
      b.labels[l.number]? ≠ some none ∧ placeLabel l b = (.error (.undefinedLabel l), b) := by
  unfold placeLabel
  split
  · next hFree => exact .inl ⟨hFree, rfl⟩
  · next hTaken => exact .inr ⟨hTaken, rfl⟩

/-- A label is not free if it was never created or has a place already. The
request to place it fails for both reasons with the same error. -/
theorem label_not_free_iff {l : Label} : b.labels[l.number]? ≠ some none ↔
    b.labels.size ≤ l.number ∨ ∃ a, b.resolve l = .ok a := by
  simp only [resolve_eq_ok_iff]
  cases hLabel : b.labels[l.number]? with
  | none => simpa using Array.getElem?_eq_none_iff.mp hLabel
  | some place =>
      have hCreated := (Array.getElem?_eq_some_iff.mp hLabel).1
      cases place with
      | none => simp [hCreated]
      | some a => simp

/-- Placing a label fails just if the label is not free. -/
theorem placeLabel_error_iff {l : Label} : (∃ e, (placeLabel l b).1 = .error e) ↔
    b.labels.size ≤ l.number ∨ ∃ a, b.resolve l = .ok a := by
  rw [← label_not_free_iff]
  rcases placeLabel_cases b l with ⟨hFree, hPlaced⟩ | ⟨hTaken, hFailed⟩
  · simp [hFree, hPlaced]
  · simp [hTaken, hFailed]

/-- Where placing a label fails, the error names the label, and the builder
is unchanged. -/
theorem of_placeLabel_error {l : Label} {e : ClassFileError}
    (h : (placeLabel l b).1 = .error e) : e = .undefinedLabel l ∧ (placeLabel l b).2 = b := by
  rcases placeLabel_cases b l with ⟨-, hPlaced⟩ | ⟨-, hFailed⟩
  · rw [hPlaced] at h
    cases h
  · rw [hFailed] at h ⊢
    cases h
    exact ⟨rfl, rfl⟩

/-- A label has one place, which later requests do not change. -/
theorem placedAt_append_iff {pool : ConstantPool} {l : Label} {a a' : Address}
    (h : PlacedAt { pool } ops l a) (later : List CodeOp) :
    PlacedAt { pool } (ops ++ later) l a' ↔ a' = a := by
  have hKept : (run { pool } (ops ++ later)).resolve l = .ok a := by
    rw [run_append, run_resolve]
    exact .inl (resolve_run_new.mpr h)
  rw [← resolve_run_new, hKept, Except.ok.injEq]
  exact eq_comm

/-- How requests can fail, as long as the code is not too long for 32 bits.
A label cannot be placed just if it was never created or has a place
already, which it keeps. Code cannot be finished just if a label that is
used has no place or a branch is too far away from its label. Of several
such demands the first one is reported. -/
theorem failures_exact {pool : ConstantPool} {ops : List CodeOp}
    (hLength : (run { pool } ops).next.offset < Address.signedLimit) :
    (∀ l, ((∃ e, (step (.placeLabel l) (run { pool } ops)).1 = .error e) ↔
        ops.count .newLabel ≤ l.number ∨ ∃ a, PlacedAt { pool } ops l a) ∧
      (∀ e, (step (.placeLabel l) (run { pool } ops)).1 = .error e →
        e = .undefinedLabel l ∧ (step (.placeLabel l) (run { pool } ops)).2 = run { pool } ops) ∧
      ∀ a, PlacedAt { pool } ops l a →
        ∀ later a', PlacedAt { pool } (ops ++ later) l a' ↔ a' = a) ∧
    ((∃ code, (run { pool } ops).build = .ok code) ↔
      (∀ op ∈ ops, ∀ l ∈ op.labels, ∃ a, PlacedAt { pool } ops l a) ∧
      ∀ before op after l a, ops = before ++ op :: after → op.shortTarget? = some l →
        PlacedAt { pool } ops l a →
          -32768 ≤ (a.offset : Int) - (run { pool } before).next.offset ∧
            (a.offset : Int) - (run { pool } before).next.offset ≤ 32767) ∧
    ∀ e, (run { pool } ops).build = .error e ↔
      Demand.FirstUnmet (Demand.Met (PlacedAt { pool } ops)) (demands { pool } ops) e := by
  have hSettles := build_run_settles hLength
  refine ⟨?_, hSettles.ok_iff.trans forall_demands_iff, hSettles⟩
  intro l
  refine ⟨?_, fun e => of_placeLabel_error, fun a h later a' => placedAt_append_iff h later⟩
  have hSize := size_labels_run { pool } ops
  rw [show step (.placeLabel l) = placeLabel l from rfl, placeLabel_error_iff, hSize]
  simp only [resolve_run_new]
  exact or_congr_left (by simp)

end CodeBuilder

/-- A jump that is too far, before another one and a range, whose labels
have no place. -/
def farJumpRequests : List CodeOp :=
  [.newLabel, .newLabel, .goto ⟨0⟩] ++ List.replicate 129 (.instr (.other 0 255)) ++
    [.placeLabel ⟨0⟩, .goto ⟨1⟩, .tryCatch ⟨0⟩ ⟨1⟩ ⟨2⟩ none]

/-- The far jump is reported, and neither the first label nor a third one
can be placed. -/
theorem farJumpRequests_fail :
    (CodeBuilder.run { pool := {} } farJumpRequests).next.offset < Address.signedLimit ∧
      (CodeBuilder.run { pool := {} } farJumpRequests).build = .error (.branchOutOfRange ⟨0⟩) ∧
      (∃ e, (CodeBuilder.step (.placeLabel ⟨0⟩)
        (CodeBuilder.run { pool := {} } farJumpRequests)).1 = .error e) ∧
      ∃ e, (CodeBuilder.step (.placeLabel ⟨2⟩)
        (CodeBuilder.run { pool := {} } farJumpRequests)).1 = .error e := by
  have hLength : (CodeBuilder.run { pool := {} } farJumpRequests).next.offset <
      Address.signedLimit := by
    decide +kernel
  have hPlaced : CodeBuilder.PlacedAt { pool := {} } farJumpRequests ⟨0⟩ ⟨32898⟩ :=
    CodeBuilder.resolve_run_new.mp (by decide +kernel)
  obtain ⟨hPlacing, -, hBuilding⟩ := CodeBuilder.failures_exact hLength
  refine ⟨hLength, (hBuilding _).mpr ?_, (hPlacing ⟨0⟩).1.mpr (.inr ⟨_, hPlaced⟩),
    (hPlacing ⟨2⟩).1.mpr (.inl (by decide +kernel))⟩
  refine .later ⟨_, hPlaced⟩ (.here ?_)
  intro hNear
  exact absurd (hNear _ hPlaced).2 (by decide)

end JvmCalls
