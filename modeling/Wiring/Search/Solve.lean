import Wiring.Search.Choice
import Wiring.Session.Framework

namespace Wiring.Search

def resolveSome (E : Environment) (solve : Solve) (chain : List InjectableId) (scope : ScopeId)
    (request : Request) (candidates : List InjectableId) :
    SearchM (Option (Except Failure Resolved)) := do
  if candidates.isEmpty then pure none
  else some <$> resolveCandidates E solve chain scope request candidates

/-- The failure to report when both the scope and the type scope fail. A divergence in the type
scope never hides a failure in the scope itself. -/
def overall (user typed : Failure) : Failure :=
  if typed.outranks user && !typed.isDivergent then typed else user

def resolveInTypeScope (E : Environment) (solve : Solve) (chain : List InjectableId)
    (scope : ScopeId) (request : Request) : SearchM (Option (Except Failure Resolved)) := do
  if !E.config.typeScopes then pure none
  else
    match ← lift (Session.typeScope E request.ty) with
    | none => pure none
    | some typeScope =>
      let statics := ((← get).session.scope scope).statics
      let candidates ← lift (Session.candidates E typeScope request.ty statics)
      resolveSome E solve chain scope request candidates

def resolveMade (E : Environment) (solve : Solve) (chain : List InjectableId) (scope : ScopeId)
    (request : Request) : Option InjectableId → SearchM (Except Failure Resolved)
  | some candidate => resolveCandidate E solve chain scope request candidate
  | none => pure (.error (.noCandidates scope request))

def resolveFramework (E : Environment) (solve : Solve) (chain : List InjectableId)
    (scope : ScopeId) (request : Request) : SearchM (Except Failure Resolved) := do
  let made ←
    if E.config.frameworkInjectables then lift (Session.framework? E scope request.ty)
    else pure none
  resolveMade E solve chain scope request made

/-- Fill a request, without a look at what is remembered of its type: from the scope and those
around it, else from the type scope, else by an injectable made for it. -/
def computeRequest (E : Environment) (solve : Solve) (chain : List InjectableId)
    (scope : ScopeId) (request : Request) : SearchM (Except Failure Resolved) := do
  let statics := ((← get).session.scope scope).statics
  let candidates ← lift (Session.candidates E scope request.ty statics)
  match ← resolveSome E solve chain scope request candidates with
  | some (.ok v) => pure (.ok v)
  | some (.error user) =>
    -- a candidate that fails still leaves the type scope to be tried, but nothing is made then
    match ← resolveInTypeScope E solve chain scope request with
    | some (.ok v) => pure (.ok v)
    | some (.error typed) => pure (.error (overall user typed))
    | none => pure (.error user)
  | none =>
    match ← resolveInTypeScope E solve chain scope request with
    | some result => pure result
    | none => resolveFramework E solve chain scope request

def resolveRequest (E : Environment) (solve : Solve) : Solve := fun chain scope request => do
  match (← get).session.memo.byType.lookup (scope, request.ty) with
  | some (.ok v) => pure (.ok v)
  | some (.error failure) => pure (.error (failure.forRequest request))
  | none =>
    unlessDiverged (computeRequest E solve chain scope request) fun result memo =>
      { memo with byType := ((scope, request.ty), result) :: memo.byType }

def solve (E : Environment) : (depth : Nat) → Solve
  | 0 => fun _ _ _ => throw .tooDeep
  | depth + 1 => resolveRequest E (solve E depth)

def solveAll (E : Environment) (depth : Nat) (scope : ScopeId) :
    List Request → List (Request × Option Resolved) → Option (Request × Failure) →
      SearchM CallSite
  -- Fill the requests of a call site one after the other. Of the required ones that fail the first
  -- of lowest rank is reported.
  | [], results, none => pure (.filled scope results)
  | [], _, some (request, failure) => pure (.failed scope request failure)
  | request :: rest, results, worst => do
    match ← solve E depth [] scope request with
    | .ok v => solveAll E depth scope rest (results ++ [(request, some v)]) worst
    | .error failure =>
      -- one failure does not stop the rest: a later one may have to be reported instead
      if request.required then
        let worst := match worst with
          | some (r, w) => if failure.outranks w then (request, failure) else (r, w)
          | none => (request, failure)
        solveAll E depth scope rest results (some worst)
      else solveAll E depth scope rest (results ++ [(request, none)]) worst

end Wiring.Search
