import Wiring.Session.Lookup

/-!
Injectables that a session makes for requests which no producer satisfies:

- a function type gives a provider,
- a collection type gathers every element that fits,
- a witness type asks for a witness of each type parameter inside,
- a component type depends on each of its members.
-/
namespace Wiring.Session

def synthesize? (E : Environment) (scope : ScopeId) (ty : Ty) : SessionM (Option Form) := do
  let flags := E.catalog.flagsOf ty
  if flags.function then pure (some (.provider ty))
  else
    match ty.arguments with
    | [argument] =>
      if flags.collection then
        let elements ← elements E scope argument ((← get).scope scope).statics
        pure (if elements.isEmpty then none else some (.collection ty elements))
      else if flags.witness then
        -- a parameter by itself is its own evidence only if it is reified
        let parameter := E.catalog.flagsOf argument
        pure (if parameter.typeParameter && !parameter.reified then none else some (.witness ty))
      else pure (component? flags)
    | _ => pure (component? flags)
where
  -- The component of the members that the host names, at the arguments of the type.
  component? (flags : Flags) : Option Form :=
    if flags.component then
      let arguments := E.catalog.argumentsOf ty
      let members := (E.host.componentMembers ty.classifier).map fun m =>
        { m with ty := m.ty.substitute arguments }
      some (.component ty members)
    else none

/-- The injectable that the session makes for `ty` in `scope`. A type with an instance key names a
producer, and a star names nothing, so there is none for them. -/
def framework? (E : Environment) (scope : ScopeId) (ty : Ty) :
    SessionM (Option InjectableId) := do
  if ty.instanceKey.isSome || ty.isStar then pure none
  else
    match (← get).memo.framework.lookup (scope, ty) with
    | some known => pure known
    | none =>
      let id ←
        match ← synthesize? E scope ty with
        | some form => some <$> pushInjectable { owner := scope, form }
        | none => pure none
      remember fun memo => { memo with framework := ((scope, ty), id) :: memo.framework }
      pure id

end Wiring.Session
