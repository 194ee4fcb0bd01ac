import Wiring.Session.Expansion

namespace Wiring.Session

/-- The scope of what the modules of the classifiers of `ty` declare, if they declare anything. It
is built once for each set of classifiers. -/
def typeScope (E : Environment) (ty : Ty) : SessionM (Option ScopeId) := do
  let classifiers := ty.covering.filter fun c => !E.catalog.isTypeParameter c
  match (← get).typeScopes.lookup classifiers with
  | some known => pure known
  | none =>
    let declarations := (classifiers.flatMap E.host.typeScopeDeclarations).filter
      (·.isValid E.catalog)
    let scope ←
      if declarations.isEmpty then pure none
      else some <$> build E {
        name := "type scope of " ++ E.catalog.text ty.withoutInstanceKey
        declarations
        isTypeScope := true }
    -- that there is none is remembered too
    modify fun S => { S with typeScopes := (classifiers, scope) :: S.typeScopes }
    pure scope

def childPosition? (E : Environment) (scope : ScopeId) (form : Form) : Option Position :=
  -- The position of the dependencies of an injectable, inside the scope that asks. The parameters
  -- of a provider are visible there.
  match form with
  | .provider ty =>
    let owner := Injectable.frameworkId E.catalog "provider" ty
    some {
      name := "provider " ++ E.catalog.text ty
      parent := some scope
      owner := some owner
      declarations := (E.catalog.functionParameters ty).mapIdx fun i parameter =>
        { id := syntheticId owner ("p" ++ toString i)
          ty := parameter
          module := E.host.currentModule }
      callContext := E.catalog.callContext ty.classifier }
  | .component ty _ =>
    some {
      name := "component " ++ E.catalog.text ty
      parent := some scope
      owner := some (Injectable.frameworkId E.catalog "component" ty) }
  | _ => none

/-- The scope in which the dependencies of a candidate are resolved when it is resolved from
`scope`: a child of it for a provider or a component, built on the first use. -/
def dependencyScope (E : Environment) (scope : ScopeId) (candidate : InjectableId) :
    SessionM ScopeId := do
  let S ← get
  match childPosition? E scope (S.injectable candidate).form with
  | none => pure scope
  | some position =>
    match S.memo.childScopes.lookup (scope, candidate) with
    | some child => pure child
    | none =>
      let child ← build E position
      remember fun memo =>
        { memo with childScopes := ((scope, candidate), child) :: memo.childScopes }
      pure child

end Wiring.Session
