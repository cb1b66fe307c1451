/-!
Walks over finite graphs. Every walk is given the vertices it may still
enter, and enters each of them once, so it ends on cyclic graphs too.
Vertices outside of that list are never entered.
-/
namespace JvmCalls.Reach

variable {α : Type} [DecidableEq α]

/-- The vertices reached from `todo`, in the order in which a depth-first
walk enters them. -/
def collect (next : α → List α) (unvisited todo : List α) : List α :=
  match todo with
  | [] => []
  | x :: rest =>
    if x ∈ unvisited then x :: collect next (unvisited.erase x) (next x ++ rest)
    else collect next unvisited rest
termination_by (unvisited.length, todo.length)
decreasing_by
  · rename_i hx
    have hLength := List.length_erase_of_mem hx
    have hPos := List.length_pos_of_mem hx
    exact Prod.Lex.left _ _ (by omega)
  · exact Prod.Lex.right _ (by simp)

/-- A walk without choices, and the vertex at which it came back to
itself. -/
structure Chain (α : Type) where
  visited : List α
  repeated : Option α
deriving Repr

/-- The successive vertices from `x` on, up to the first that is not to be
entered. -/
def chain (next : α → Option α) (unvisited : List α) (x : α) : Chain α :=
  if x ∈ unvisited then
    match next x with
    | none => ⟨[x], none⟩
    | some y =>
      let rest := chain next (unvisited.erase x) y
      ⟨x :: rest.visited, rest.repeated⟩
  else ⟨[], some x⟩
termination_by unvisited.length
decreasing_by
  rename_i hx
  have hLength := List.length_erase_of_mem hx
  have hPos := List.length_pos_of_mem hx
  omega

/-- Those of the vertices that are still to be entered. -/
def fresh (unvisited vertices : List α) : List α :=
  unvisited.filter fun y => vertices.contains y

/-- What is left to be entered after them. -/
def remaining (unvisited vertices : List α) : List α :=
  unvisited.filter fun y => !vertices.contains y

theorem length_fresh_add_remaining (unvisited vertices : List α) :
    (fresh unvisited vertices).length + (remaining unvisited vertices).length =
      unvisited.length := by
  rw [fresh, remaining, ← List.countP_eq_length_filter, ← List.countP_eq_length_filter,
    List.length_eq_countP_add_countP (fun y => vertices.contains y) (l := unvisited)]
  simp only [Bool.not_eq_true, Bool.decide_eq_false]

/-- The vertices that a breadth-first walk enters from a queue on. The queue
holds vertices that were entered, each with the number of steps that led to
it. A vertex at the bound is not left any more. -/
def within (next : α → List α) (bound : Option Nat) (unvisited : List α)
    (queue : List (α × Nat)) : List α :=
  match queue with
  | [] => []
  | (x, depth) :: rest =>
    if bound.any (· ≤ depth) then within next bound unvisited rest
    else
      fresh unvisited (next x) ++
        within next bound (remaining unvisited (next x))
          (rest ++ (fresh unvisited (next x)).map fun y => (y, depth + 1))
termination_by unvisited.length + queue.length
decreasing_by
  · simp
  · have hSplit := length_fresh_add_remaining unvisited (next x)
    simp only [List.length_append, List.length_map, List.length_cons]
    omega

end JvmCalls.Reach
