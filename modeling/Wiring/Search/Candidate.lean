import Wiring.Search
import Wiring.Session.Derived

namespace Wiring.Search

/-- Whether the search diverges with an injectable: it is inside of one from the same origin that
mentions the same classifiers and is no larger. -/
def diverges (S : Session) (chain : List InjectableId) (i : Injectable) : Bool :=
  chain.any fun id =>
    let outer := S.injectable id
    outer.origin == i.origin && outer.ty.size ≤ i.ty.size && outer.ty.covering == i.ty.covering

def reifiedMismatch? (K : Catalog) (statics : List Classifier) (p : Producer) :
    Option (Classifier × Classifier) :=
  -- A reified type parameter of the producer whose argument mentions a static type parameter of the
  -- scope that is not reified, and that parameter.
  (p.declaration.typeParameters.filter fun c => (K.flags c).reified).findSome? fun parameter => do
    let argument ← p.typeArguments.get? parameter
    let erased ← (K.parametersIn argument).find? fun c =>
      statics.contains c && !(K.flags c).reified
    pure (parameter, erased)

def obstacle? (E : Environment) (S : Session) (scope : ScopeId) (candidate : InjectableId) :
    Option Failure :=
  let i := S.injectable candidate
  let context := (S.scope scope).callContext
  if !E.host.canCall context i.callContext then
    some (.callContext candidate context i.callContext)
  else
    (i.producer?.bind (reifiedMismatch? E.catalog (S.scope scope).statics)).map
      fun (parameter, argument) => .reifiedArgument candidate parameter argument

abbrev Filling := Except (Request × Failure) (List (Request × Option Resolved))

def fillNext (request : Request) (v : Option Resolved) (rest : SearchM Filling) :
    SearchM Filling := do
  match ← rest with
  | .ok filled => pure (.ok ((request, v) :: filled))
  | .error failure => pure (.error failure)

def fillAll (solve : Request → SearchM (Except Failure Resolved)) :
    List Request → SearchM Filling
  | [] => pure (.ok [])
  | request :: rest => do
    match ← solve request with
    | .ok v => fillNext request (some v) (fillAll solve rest)
    | .error failure =>
      if request.required then pure (.error (request, failure))
      else fillNext request none (fillAll solve rest)

def fillCandidate (solve : Request → SearchM (Except Failure Resolved)) (scope : ScopeId)
    (candidate : InjectableId) (dependencies : List Request) :
    SearchM (Except Failure Resolved) := do
  match ← fillAll solve dependencies with
  | .ok filled => pure (.ok ⟨candidate, scope, filled⟩)
  | .error (dependency, failure) => pure (.error (.dependency candidate dependency failure))

def computeCandidate (E : Environment) (solve : Solve) (chain : List InjectableId)
    (scope : ScopeId) (request : Request) (candidate : InjectableId) :
    SearchM (Except Failure Resolved) := do
  let S := (← get).session
  match obstacle? E S scope candidate with
  | some failure => pure (.error failure)
  | none =>
    -- counted, so that no result around this one is remembered
    if diverges S chain (S.injectable candidate) then
      modify fun search => { search with divergences := search.divergences + 1 }
      pure (.error (.divergent candidate request))
    else
      let dependencies := (S.injectable candidate).dependencies E.catalog
      -- without dependencies there is nothing to look up, and no scope is made
      let inner ←
        if dependencies.isEmpty then pure scope
        else lift (Session.dependencyScope E scope candidate)
      fillCandidate (solve (candidate :: chain) inner) scope candidate dependencies

def resolveCandidate (E : Environment) (solve : Solve) (chain : List InjectableId)
    (scope : ScopeId) (request : Request) (candidate : InjectableId) :
    SearchM (Except Failure Resolved) := do
  match (← get).session.memo.byCandidate.lookup (scope, candidate) with
  | some result => pure result
  | none =>
    unlessDiverged (computeCandidate E solve chain scope request candidate) fun result memo =>
      { memo with byCandidate := ((scope, candidate), result) :: memo.byCandidate }

end Wiring.Search
