import Wiring.Declaration

namespace Wiring

structure Member where
  name : String
  ty : Ty

structure Host where
  -- Whether code in one context may use a producer of another one.
  canCall : CallContext → CallContext → Bool := CallContext.canCall
  -- The module of the code that is resolved.
  currentModule : Nat := 0
  -- The declarations inside a classifier whose instances are scopes of their own. Their types may
  -- mention its type parameters.
  membersOf : Classifier → List Declaration := fun _ => []
  -- The declarations that come with the module of a classifier.
  typeScopeDeclarations : Classifier → List Declaration := fun _ => []
  -- The members of a component classifier. Their types may mention its type parameters.
  componentMembers : Classifier → List Member := fun _ => []

instance : Inhabited Host := ⟨{}⟩

structure HostTables where
  -- The pairs of contexts of which the first may call the second, if the usual rule does not hold.
  calls : Option (List (CallContext × CallContext)) := none
  currentModule : Nat := 0
  members : List (String × List Declaration) := []
  typeScopes : List (String × List Declaration) := []
  components : List (String × List Member) := []

def HostTables.host (t : HostTables) : Host where
  canCall caller callee :=
    match t.calls with
    | some pairs => pairs.contains (caller, callee)
    | none => caller.canCall callee
  currentModule := t.currentModule
  membersOf c := (t.members.lookup c.key).getD []
  typeScopeDeclarations c := (t.typeScopes.lookup c.key).getD []
  componentMembers c := (t.components.lookup c.key).getD []

end Wiring
