import Wiring.Fit
import Wiring.Session

namespace Wiring

namespace Producer

/-- The producer, specialized to give `ty`. A type with an instance key asks for the producer with
that key. -/
def specialize? (K : Catalog) (statics : List Classifier) (ty : Ty) (p : Producer) :
    Option Producer :=
  if ty.instanceKey.isSome && p.ty.instanceKey != ty.instanceKey then none
  else ((K.fit statics p.ty ty).toOption).map p.substitute

def elementType? (K : Catalog) (statics : List Classifier) (element : Ty) (p : Producer) :
    Option Ty :=
  -- The type that a producer adds to a collection of `element`, as one element or as a collection
  -- of some.
  let single := (K.fit statics p.ty element).toOption
  let many := do
    let view ← K.collectionView? p.ty
    let argument ← view.arguments.head?
    (K.fit statics argument element).toOption
  (single.or many).map p.ty.substitute

end Producer

namespace Session

/-- The candidates for `ty` in a list of scopes, each of which is inside the next. Those of outer
scopes come first. -/
def candidatesIn (E : Environment) (ty : Ty) (statics : List Classifier) :
    List ScopeId → SessionM (List InjectableId)
  | [] => pure []
  | scope :: enclosing => do
    match (← get).memo.candidates.lookup (scope, ty, statics) with
    | some found => pure found
    | none =>
      -- the scopes around this one go first, so that their injectables have the lower ids
      let inherited ← candidatesIn E ty statics enclosing
      let producers := ((← get).scope scope).injectables.filterMap
        (Producer.specialize? E.catalog statics ty)
      let own ← producers.mapM fun p => pushInjectable { owner := scope, form := .produced p }
      let found := inherited ++ own
      remember fun memo =>
        { memo with candidates := ((scope, ty, statics), found) :: memo.candidates }
      pure found

def candidates (E : Environment) (scope : ScopeId) (ty : Ty) (statics : List Classifier) :
    SessionM (List InjectableId) := do
  candidatesIn E ty statics ((← get).ancestors scope)

def elementsIn (E : Environment) (element : Ty) (statics : List Classifier) :
    List ScopeId → SessionM (List Ty)
  -- The element types found in a list of scopes, each of which is inside the next; equal ones are
  -- named once.
  | [] => pure []
  | scope :: enclosing => do
    match (← get).memo.elements.lookup (scope, element, statics) with
    | some found => pure found
    | none =>
      let inherited ← elementsIn E element statics enclosing
      let own := ((← get).scope scope).injectables.filterMap
        (Producer.elementType? E.catalog statics element)
      let found := own.foldl (fun found t => if found.contains t then found else found ++ [t])
        inherited
      remember fun memo =>
        { memo with elements := ((scope, element, statics), found) :: memo.elements }
      pure found

def elements (E : Environment) (scope : ScopeId) (element : Ty) (statics : List Classifier) :
    SessionM (List Ty) := do
  elementsIn E element statics ((← get).ancestors scope)

end Session
end Wiring
