import Wiring.Search.Solve

namespace Wiring.Session

def depthLimit : Nat :=
  1 <<< 20

def resolve (E : Environment) (depth : Nat) (S : Session) (scope : ScopeId) (request : Request) :
    Except Stop (Except Failure Resolved × Session) :=
  -- Fill a request in a scope, and give the session with what it remembers of that. The search
  -- stops if more than `depth` requests come to be inside of each other.
  ((Search.solve E depth [] scope request).run { session := S }).map fun (result, search) =>
    (result, search.session)

def resolveAll (E : Environment) (depth : Nat) (S : Session) (scope : ScopeId)
    (requests : List Request) : Except Stop (CallSite × Session) :=
  ((Search.solveAll E depth scope requests [] none).run { session := S }).map
    fun (site, search) => (site, search.session)

end Wiring.Session
