import JvmCalls.Hierarchy.Repository

/-! Searching a repository by tests of names, which compiled patterns
are. -/
namespace JvmCalls

/-- The methods of a class whose name matches. -/
def ClassNode.matchingMethods (n : ClassNode) (p : String → Bool) : List MethodInfo :=
  n.methods.filter fun m => p m.name

/-- The classes whose name matches, defined or not. -/
def Repository.matchingNodes (r : Repository) (p : String → Bool) : List ClassNode :=
  r.nodes.filter fun n => p n.name

end JvmCalls
