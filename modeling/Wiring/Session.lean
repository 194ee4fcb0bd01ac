import Wiring.Config
import Wiring.Resolution
import Wiring.Sorting

namespace Wiring

structure Environment where
  -- What a session works with and never changes.
  catalog : Catalog := {}
  host : Host := {}
  config : Config := {}
  sorting : Sorting := .byMerging
deriving Inhabited

structure Scope where
  name : String
  -- The scopes around this one, the nearest first.
  enclosing : List ScopeId := []
  -- The declaration whose body the scope is.
  owner : Option String := none
  callContext : CallContext := .default
  -- A type scope holds the declarations that come with a type.
  isTypeScope : Bool := false
  -- The type parameters of this scope and those around it. They stay symbolic in a fit.
  statics : List Classifier := []
  -- The producers that this scope adds.
  injectables : List Producer := []
  -- The spreading rules that this scope adds and that are still generic.
  spreading : List Producer := []
deriving Inhabited

namespace Scope

def parent (s : Scope) : Option ScopeId :=
  s.enclosing.head?

def nesting (s : Scope) : Nat :=
  s.enclosing.length

end Scope

structure Memo where
  -- The candidates for a type, given what is static.
  candidates : List ((ScopeId × Ty × List Classifier) × List InjectableId) := []
  -- The types of a collection's elements, given what is static.
  elements : List ((ScopeId × Ty × List Classifier) × List Ty) := []
  framework : List ((ScopeId × Ty) × Option InjectableId) := []
  childScopes : List ((ScopeId × InjectableId) × ScopeId) := []
  byType : List ((ScopeId × Ty) × Except Failure Resolved) := []
  byCandidate : List ((ScopeId × InjectableId) × Except Failure Resolved) := []
deriving Inhabited

structure Session where
  scopes : Array Scope := #[]
  injectables : Array Injectable := #[]
  -- The scope for each set of classifiers that was asked about, if their modules declare anything.
  typeScopes : List (List Classifier × Option ScopeId) := []
  nextInstanceKey : Nat := 0
  memo : Memo := {}
deriving Inhabited

abbrev SessionM := StateM Session

namespace Session

def scope (S : Session) (id : ScopeId) : Scope :=
  S.scopes.getD id default

def injectable (S : Session) (id : InjectableId) : Injectable :=
  S.injectables.getD id default

def ancestors (S : Session) (id : ScopeId) : List ScopeId :=
  id :: (S.scope id).enclosing

def pushScope (scope : Scope) : SessionM ScopeId := do
  let S ← get
  set { S with scopes := S.scopes.push scope }
  pure S.scopes.size

def pushInjectable (injectable : Injectable) : SessionM InjectableId := do
  let S ← get
  set { S with injectables := S.injectables.push injectable }
  pure S.injectables.size

def remember (f : Memo → Memo) : SessionM Unit :=
  modify fun S => { S with memo := f S.memo }

end Session
end Wiring
